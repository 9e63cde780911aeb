import OslabProfiler.Server.PathTree
import OslabProfiler.Server.Versions

/-! # The source view

Two endpoints show source code. `/getDirectoryJSON` lists one version or compares
two, and `/viewFile` shows a file of the listing. The server keeps the selection and
the result of the last comparison in global variables, for all clients together.
A handler may send no response, one or several; an exception that it throws before
it returns becomes the response 500, and one thrown in a callback ends the server.
-/

namespace OslabProfiler.Server

open Lib CompKernel

/-- A query parameter: missing, a text, or a list of texts. -/
inductive Query where
  | missing
  | one (t : Text)
  | many (ts : List Text)

/-- The parameter as a text; `none` is `undefined`. -/
def Query.text : Query → Option Text
  | .missing => none
  | .one t => some t
  | .many ts => some (List.intercalate [','] ts)

/-- Whether the parameter counts as true in a condition. -/
def Query.truthy : Query → Bool
  | .missing => false
  | .one t => t ≠ []
  | .many _ => true

/-- `req.body.data.path`: a text or another value, unless there is no `data`. -/
inductive FilePath where
  | noData
  | other
  | text (t : Text)
  deriving DecidableEq

/-- What `fs.readFile` does: it throws at once, or calls back with an error or with the
    contents. -/
inductive ReadFile where
  | throws
  | error
  | data (contents : Text)
  deriving DecidableEq

/-- The system around the server while it handles a request. -/
structure Env where
  disk : Disk
  /-- The output of a command; `none` is a command that fails. -/
  execSync : Text → Option Bytes
  readFile : FilePath → ReadFile

inductive Response where
  | htmlcode (html : Text)
  | str (t : Text)
  | error500
  deriving DecidableEq

structure Outcome where
  sent : List Response
  /-- An exception was thrown out of a callback. -/
  escaped : Bool := false
  deriving DecidableEq

structure ServerState where
  selected1 : Query := .missing
  selected2 : Query := .missing
  diffLog : List DiffLog := []

/-- The tree of a comparison, if there is anything to show. -/
def showDiff (diffLog : List DiffLog) : Outcome :=
  if diffLog.length ≠ 0 then
    match createPathTree diffLog with
    | some tree => ⟨[.htmlcode (generateHtmlTree tree)], false⟩
    | none => ⟨[.error500], false⟩
  else ⟨[], false⟩

def handleDirectoryJSON (env : Env) (s : ServerState) (selected1 selected2 : Query) :
    ServerState × Outcome :=
  let s := { s with selected1 := selected1, selected2 := selected2 }
  match getDirectoryJSON env.disk selected1.text selected2.text with
  | .listing html _ => (s, ⟨[.htmlcode html], false⟩)
  | .throws => (s, ⟨[.error500], false⟩)
  | .compare command =>
      match env.execSync command with
      | none => ({ s with diffLog := [] }, ⟨[.error500], false⟩)
      | some stdout => ({ s with diffLog := readDiff stdout }, showDiff (readDiff stdout))

/-- `res.json` in the loop over `diff_log`: the first entry of the path is sent, and
    sending a second one throws. -/
def sendMatching (path : FilePath) (diffLog : List DiffLog) : List Response :=
  match diffLog.filter fun log => FilePath.text log.path = path with
  | [] => []
  | [log] => [.str log.text]
  | log :: _ :: _ => [.str log.text, .error500]

def viewFile (env : Env) (s : ServerState) (path : FilePath) : Outcome :=
  if path = .noData then ⟨[.error500], false⟩
  else if !s.selected2.truthy then
    match env.readFile path with
    | .throws => ⟨[.error500], false⟩
    -- `data` is undefined and `data.toString()` throws
    | .error => ⟨[], true⟩
    | .data contents => ⟨[.str contents], false⟩
  -- no variable `log` is in scope here
  else if s.diffLog.length < 1 then ⟨[.error500], false⟩
  else ⟨sendMatching path s.diffLog, false⟩

inductive SourceRequest where
  | getDirectoryJSON (selected1 selected2 : Query)
  | viewFile (path : FilePath)

def handle (env : Env) (s : ServerState) : SourceRequest → ServerState × Outcome
  | .getDirectoryJSON selected1 selected2 => handleDirectoryJSON env s selected1 selected2
  | .viewFile path => (s, viewFile env s path)

/-! ## One response -/

def Outcome.ExactlyOne (o : Outcome) : Prop := o.sent.length = 1 ∧ o.escaped = false

instance (o : Outcome) : Decidable o.ExactlyOne := inferInstanceAs (Decidable (_ ∧ _))

/-- Two versions are compared. -/
def IsComparison (selected2 : Query) : Prop := isNaNText selected2.text = false

instance (selected2 : Query) : Decidable (IsComparison selected2) :=
  inferInstanceAs (Decidable (_ = _))

/-- The command of a comparison. -/
def compareCommand (selected1 selected2 : Query) : Text :=
  "./comp_kernel/ssu_diff ".toList ++ kernelDirPath ++ "/ORG/kernel-source".toList ++
    " ".toList ++ moltPath (queryText selected1.text) ++ " ".toList ++
    moltPath (queryText selected2.text)

theorem getDirectoryJSON_compare (disk : Disk) (selected1 : Query) {selected2 : Query}
    (comparison : IsComparison selected2) :
    getDirectoryJSON disk selected1.text selected2.text =
      .compare (compareCommand selected1 selected2) := by
  rw [getDirectoryJSON, if_neg (by rw [comparison]; decide)]
  rfl

theorem getDirectoryJSON_listing (disk : Disk) (selected1 : Query) {selected2 : Query}
    (single : ¬ IsComparison selected2) :
    getDirectoryJSON disk selected1.text selected2.text =
      .listing (noVersionText ++ "</ul>".toList) [] := by
  have isNaN : isNaNText selected2.text = true := by
    simpa [IsComparison] using single
  rw [getDirectoryJSON, if_pos isNaN, getDirectoryArchitecture_linuxPath]

/-- The server state and the outcome of a listing, by its mode. -/
theorem handleDirectoryJSON_eq (env : Env) (s : ServerState) (selected1 selected2 : Query) :
    handleDirectoryJSON env s selected1 selected2 =
      if IsComparison selected2 then
        match env.execSync (compareCommand selected1 selected2) with
        | none => (⟨selected1, selected2, []⟩, ⟨[.error500], false⟩)
        | some stdout => (⟨selected1, selected2, readDiff stdout⟩, showDiff (readDiff stdout))
      else (⟨selected1, selected2, s.diffLog⟩,
        ⟨[.htmlcode (noVersionText ++ "</ul>".toList)], false⟩) := by
  by_cases comparison : IsComparison selected2
  · rw [if_pos comparison, handleDirectoryJSON, getDirectoryJSON_compare _ _ comparison]
  · rw [if_neg comparison, handleDirectoryJSON, getDirectoryJSON_listing _ _ comparison]

theorem showDiff_exactlyOne (diffLog : List DiffLog) :
    (showDiff diffLog).ExactlyOne ↔ diffLog ≠ [] := by
  rw [showDiff]
  cases diffLog with
  | nil => decide
  | cons log logs =>
      rw [if_pos (by simp)]
      cases createPathTree (log :: logs) <;> simp [Outcome.ExactlyOne]

theorem sendMatching_length (path : FilePath) (diffLog : List DiffLog) :
    (sendMatching path diffLog).length = 1 ↔
      (diffLog.filter fun log => FilePath.text log.path = path).length = 1 := by
  rw [sendMatching]
  split
  case h_1 none => simp [none]
  case h_2 log one => simp [one]
  case h_3 log second rest several => simp [several]

/-- When a request gets exactly one response: a comparison fails or finds a difference; a
    file can be read, or is refused at once; the path is that of exactly one entry, or
    there is no entry at all. -/
def Answered (env : Env) (s : ServerState) : SourceRequest → Prop
  | .getDirectoryJSON selected1 selected2 =>
      IsComparison selected2 →
        ∀ stdout, env.execSync (compareCommand selected1 selected2) = some stdout →
          readDiff stdout ≠ []
  | .viewFile path =>
      path ≠ .noData →
        if s.selected2.truthy then
          s.diffLog ≠ [] →
            (s.diffLog.filter fun log => FilePath.text log.path = path).length = 1
        else env.readFile path ≠ .error

theorem exactlyOne_viewFile_iff (env : Env) (s : ServerState) (path : FilePath) :
    (viewFile env s path).ExactlyOne ↔ Answered env s (.viewFile path) := by
  unfold viewFile Answered
  by_cases noData : path = .noData
  · simp [noData, Outcome.ExactlyOne]
  · rw [if_neg noData]
    cases selected : s.selected2.truthy with
    | false =>
        cases read : env.readFile path <;> simp [noData, Outcome.ExactlyOne, read]
    | true =>
        cases entries : s.diffLog with
        | nil => simp [Outcome.ExactlyOne]
        | cons log logs => simp [noData, Outcome.ExactlyOne, sendMatching_length]

/-- Exactly one response is sent exactly in these cases, from every state. -/
theorem handle_exactlyOne_iff (env : Env) (s : ServerState) (request : SourceRequest) :
    (handle env s request).2.ExactlyOne ↔ Answered env s request := by
  cases request with
  | getDirectoryJSON selected1 selected2 =>
      rw [handle, handleDirectoryJSON_eq, Answered]
      by_cases comparison : IsComparison selected2
      · rw [if_pos comparison]
        cases exec : env.execSync (compareCommand selected1 selected2) with
        | none => simp [Outcome.ExactlyOne]
        | some stdout => simp [showDiff_exactlyOne, comparison]
      · simp [comparison, Outcome.ExactlyOne]
  | viewFile path => exact exactlyOne_viewFile_iff env s path

/-- A comparison is answered if it fails or if some line of its output begins with `diff `. -/
theorem answered_comparison_iff (env : Env) (s : ServerState) {selected1 selected2 : Query}
    (comparison : IsComparison selected2) :
    Answered env s (.getDirectoryJSON selected1 selected2) ↔
      ∀ stdout, env.execSync (compareCommand selected1 selected2) = some stdout →
        ∃ line ∈ (Utf8.decode stdout).splitOn '\n', "diff ".toList <+: line := by
  simp only [Answered, comparison, readDiff_ne_nil_iff, true_implies]

/-- The commands print only the first three lines: the versions do not differ. -/
def sameKernels : Env where
  disk := ⟨fun _ => none, fun _ => none⟩
  execSync _ := some (diffStream samplePreamble [])
  readFile _ := .error

/-- Nothing is sent for two equal versions and for a path that is not in the list, and a
    file that cannot be read ends the server. -/
theorem sameKernels_no_response :
    (handle sameKernels {} (.getDirectoryJSON (.one "1".toList) (.one "2".toList))).2 =
      ⟨[], false⟩ ∧
    (handle sameKernels ⟨.one "1".toList, .one "2".toList, [⟨"a.c".toList, []⟩]⟩
      (.viewFile (.text "b.c".toList))).2 = ⟨[], false⟩ ∧
    (handle sameKernels {} (.viewFile (.text "b.c".toList))).2 = ⟨[], true⟩ := by
  refine ⟨?_, by decide, by decide⟩
  have comparison : IsComparison (.one "2".toList) := by decide +kernel
  rw [handle, handleDirectoryJSON_eq, if_pos comparison]
  simp only [sameKernels, readDiff_nil]
  rfl

/-! ## Several clients -/

/-- A request of a client and the system at that time. -/
structure ClientRequest (ι : Type) where
  client : ι
  env : Env
  request : SourceRequest

section Clients

variable {ι : Type}

def serverState (events : List (ClientRequest ι)) : ServerState :=
  events.foldl (fun s e => (handle e.env s e.request).1) {}

/-- What a listing shows: one version, or the differences of two. -/
inductive Shown where
  | single
  | comparison (diffLog : List DiffLog)
  deriving DecidableEq

/-- What the listing of two selections is about, by itself. -/
def shownBy (env : Env) (selected1 selected2 : Query) : Shown :=
  if IsComparison selected2 then
    .comparison (((env.execSync (compareCommand selected1 selected2)).map readDiff).getD [])
  else .single

/-- The listing of a request, with its second selection. -/
def ClientRequest.listing (e : ClientRequest ι) : Option (Query × Shown) :=
  match e.request with
  | .getDirectoryJSON selected1 selected2 => some (selected2, shownBy e.env selected1 selected2)
  | .viewFile _ => none

/-- The listings so far, the last one first. -/
def listings (events : List (ClientRequest ι)) : List (Query × Shown) :=
  (events.filterMap ClientRequest.listing).reverse

/-- What the client's own last listing shows. -/
def ownShown [DecidableEq ι] (client : ι) (events : List (ClientRequest ι)) : Option Shown :=
  (listings (events.filter fun e => e.client = client)).head?.map (·.2)

/-- Whether the last listing of anybody was made with a second selection. -/
def lastTruthy (events : List (ClientRequest ι)) : Bool :=
  (listings events).head?.any (·.1.truthy)

/-- The differences found by the last comparison of anybody. -/
def lastComparison (events : List (ClientRequest ι)) : List DiffLog :=
  ((listings events).findSome? fun l =>
    match l.2 with
    | .comparison diffLog => some diffLog
    | .single => none).getD []

theorem serverState_snoc (events : List (ClientRequest ι)) (e : ClientRequest ι) :
    serverState (events ++ [e]) = (handle e.env (serverState events) e.request).1 := by
  rw [serverState, List.foldl_append]
  rfl

theorem listings_snoc (events : List (ClientRequest ι)) (e : ClientRequest ι) :
    listings (events ++ [e]) = e.listing.toList ++ listings events := by
  rw [listings, List.filterMap_append, List.reverse_append]
  cases listed : e.listing <;> simp [listings, listed]

/-- The server remembers the last listing and the last comparison, whoever made them. -/
theorem serverState_remembers (events : List (ClientRequest ι)) :
    (serverState events).selected2.truthy = lastTruthy events ∧
      (serverState events).diffLog = lastComparison events := by
  induction events using List.reverseRecOn with
  | nil => exact ⟨rfl, rfl⟩
  | append_singleton events e ih =>
      rw [serverState_snoc, lastTruthy, lastComparison, listings_snoc]
      cases request : e.request with
      | viewFile path =>
          simp only [ClientRequest.listing, request, handle, Option.toList_none, List.nil_append]
          exact ih
      | getDirectoryJSON selected1 selected2 =>
          rw [handle, handleDirectoryJSON_eq]
          simp only [ClientRequest.listing, request, shownBy, Option.toList_some,
            List.singleton_append, List.head?_cons, Option.any_some, List.findSome?_cons]
          by_cases comparison : IsComparison selected2
          · simp only [if_pos comparison]
            cases e.env.execSync (compareCommand selected1 selected2) <;> exact ⟨rfl, rfl⟩
          · simp only [if_neg comparison]
            exact ⟨trivial, ih.2⟩

theorem lastComparison_snoc (events : List (ClientRequest ι)) {e : ClientRequest ι}
    {selected1 selected2 : Query} {diffLog : List DiffLog}
    (request : e.request = .getDirectoryJSON selected1 selected2)
    (shown : shownBy e.env selected1 selected2 = .comparison diffLog) :
    lastComparison (events ++ [e]) = diffLog := by
  rw [lastComparison, listings_snoc]
  simp [ClientRequest.listing, request, shown]

/-- The texts of the entries for a path. -/
def textsOf (path : FilePath) (diffLog : List DiffLog) : List Text :=
  (diffLog.filter fun log => FilePath.text log.path = path).map DiffLog.text

def fileContents (env : Env) (path : FilePath) : Option Text :=
  match env.readFile path with
  | .data contents => some contents
  | _ => none

/-- What a client should see of a path: the differences that its own listing shows, or the
    file. -/
def wanted (env : Env) (path : FilePath) : Shown → Option Text
  | .single => fileContents env path
  | .comparison diffLog => (textsOf path diffLog).head?

/-- What the listings of all clients make the server show of a path. -/
def servedTexts (before : List (ClientRequest ι)) (env : Env) (path : FilePath) : List Text :=
  if lastTruthy before then textsOf path (lastComparison before)
  else (fileContents env path).toList

/-- A path that the listing shows; one version shows files that can be read. -/
def FromListing (env : Env) (path : FilePath) : Option Shown → Prop
  | none => False
  | some .single => path ≠ .noData ∧ (fileContents env path).isSome = true
  | some (.comparison diffLog) => ∃ log ∈ diffLog, path = .text log.path

/-- `P` holds of every request for a file, with the events before it. -/
def EachView (events : List (ClientRequest ι))
    (P : List (ClientRequest ι) → ClientRequest ι → FilePath → Prop) : Prop :=
  ∀ before e after path, events = before ++ e :: after → e.request = .viewFile path →
    P before e path

theorem eachView_nil (P : List (ClientRequest ι) → ClientRequest ι → FilePath → Prop) :
    EachView [] P := by
  intro before e after path split
  simp at split

theorem eachView_snoc {events : List (ClientRequest ι)} {e : ClientRequest ι}
    {P : List (ClientRequest ι) → ClientRequest ι → FilePath → Prop}
    (earlier : EachView events P) (last : ∀ path, e.request = .viewFile path → P events e path) :
    EachView (events ++ [e]) P := by
  intro before e' after path split request
  cases after using List.reverseRecOn with
  | nil =>
      obtain ⟨rfl, rfl⟩ := List.append_singleton_inj.mp split
      exact last path request
  | append_singleton after x =>
      rw [← List.cons_append, ← List.append_assoc, List.append_singleton_inj] at split
      exact earlier before e' after path split.1 request

/-- Every client gets what its own last listing calls for. -/
def Isolated [DecidableEq ι] (events : List (ClientRequest ι)) : Prop :=
  EachView events fun before e path =>
    ∃ t, (ownShown e.client before).bind (wanted e.env path) = some t ∧
      (handle e.env (serverState before) (.viewFile path)).2 = ⟨[.str t], false⟩

theorem sendMatching_eq_str (path : FilePath) (diffLog : List DiffLog) (t : Text) :
    sendMatching path diffLog = [.str t] ↔ textsOf path diffLog = [t] := by
  rw [sendMatching, textsOf]
  split
  case h_1 none => simp [none]
  case h_2 log one => simp [one]
  case h_3 log second rest several => simp [several]

/-- The reply of the server is one text exactly when it serves that text. -/
theorem viewFile_eq_str (before : List (ClientRequest ι)) (env : Env) {path : FilePath}
    (data : path ≠ .noData) (t : Text) :
    viewFile env (serverState before) path = ⟨[.str t], false⟩ ↔
      servedTexts before env path = [t] := by
  obtain ⟨truthy, diffLog⟩ := serverState_remembers before
  rw [viewFile, if_neg data, servedTexts, truthy, diffLog]
  cases lastTruthy before with
  | false =>
      rw [fileContents]
      cases env.readFile path <;> simp
  | true =>
      simp only [Bool.not_true, Bool.false_eq_true, if_false, if_true]
      rw [← sendMatching_eq_str]
      cases lastComparison before with
      | nil => simp [sendMatching]
      | cons log logs => simp

theorem FromListing.data {env : Env} {path : FilePath} {shown : Option Shown}
    (listed : FromListing env path shown) : path ≠ .noData := by
  cases shown with
  | none => exact listed.elim
  | some shown =>
      cases shown with
      | single => exact listed.1
      | comparison diffLog =>
          obtain ⟨log, _, same⟩ := listed
          simp [same]

theorem FromListing.wanted {env : Env} {path : FilePath} {shown : Option Shown}
    (listed : FromListing env path shown) :
    ∃ t, shown.bind (Server.wanted env path) = some t := by
  cases shown with
  | none => exact listed.elim
  | some shown =>
      cases shown with
      | single => exact Option.isSome_iff_exists.mp listed.2
      | comparison diffLog =>
          obtain ⟨log, member, same⟩ := listed
          have entry : log.text ∈ textsOf path diffLog :=
            List.mem_map_of_mem (List.mem_filter.mpr ⟨member, by simp [same]⟩)
          cases texts : textsOf path diffLog with
          | nil => simp [texts] at entry
          | cons t rest => exact ⟨t, by simp [Server.wanted, texts]⟩

/-- The clients are isolated exactly when, at every request for a file, what the listings
    of all clients make the server show is what the client's own listing calls for. -/
theorem isolated_iff [DecidableEq ι] {events : List (ClientRequest ι)}
    (fromListings : EachView events fun before e path =>
      FromListing e.env path (ownShown e.client before)) :
    Isolated events ↔ EachView events fun before e path =>
      servedTexts before e.env path =
        ((ownShown e.client before).bind (wanted e.env path)).toList := by
  constructor
  · intro isolated before e after path split request
    obtain ⟨t, own, reply⟩ := isolated before e after path split request
    have listed := fromListings before e after path split request
    rw [own]
    exact (viewFile_eq_str before e.env listed.data t).mp reply
  · intro undisturbed before e after path split request
    have listed := fromListings before e after path split request
    obtain ⟨t, own⟩ := listed.wanted
    have served : servedTexts before e.env path =
        ((ownShown e.client before).bind (wanted e.env path)).toList :=
      undisturbed before e after path split request
    rw [own] at served
    exact ⟨t, own, (viewFile_eq_str before e.env listed.data t).mpr served⟩

/-! ### Clients that take turns -/

theorem ownShown_snoc [DecidableEq ι] (events : List (ClientRequest ι)) (e : ClientRequest ι)
    (client : ι) :
    ownShown client (events ++ [e]) =
      if e.client = client ∧ e.listing.isSome then e.listing.map (·.2)
      else ownShown client events := by
  rw [ownShown, List.filter_append, ownShown]
  by_cases own : e.client = client
  · rw [List.filter_cons_of_pos (by simpa using own), List.filter_nil, listings_snoc]
    cases listed : e.listing <;> simp [own]
  · rw [List.filter_cons_of_neg (by simpa using own), List.filter_nil, List.append_nil]
    simp [own]

/-- The client of the last listing. -/
def lastLister (events : List (ClientRequest ι)) : Option ι :=
  ((events.filter fun e => e.listing.isSome).getLast?).map ClientRequest.client

theorem lastLister_snoc (events : List (ClientRequest ι)) (e : ClientRequest ι) :
    lastLister (events ++ [e]) =
      if e.listing.isSome then some e.client else lastLister events := by
  rw [lastLister, List.filter_append]
  cases listed : e.listing <;> simp [lastLister, listed]

/-- A client that was the last one to list finds its own listing on the server. -/
theorem ownShown_of_lastLister [DecidableEq ι] {events : List (ClientRequest ι)} {client : ι}
    (last : lastLister events = some client) :
    ownShown client events = (listings events).head?.map (·.2) := by
  induction events using List.reverseRecOn with
  | nil => rfl
  | append_singleton events e ih =>
      rw [lastLister_snoc] at last
      rw [ownShown_snoc, listings_snoc]
      cases listed : e.listing with
      | none =>
          rw [listed, if_neg (by simp)] at last
          simp [ih last]
      | some l =>
          rw [listed, if_pos Option.isSome_some, Option.some_inj] at last
          simp [last]

/-- A listing whose second selection says what it shows, with different paths. -/
def Regular (listing : Query × Shown) : Prop :=
  match listing.2 with
  | .single => listing.1.truthy = false
  | .comparison diffLog =>
      listing.1.truthy = true ∧ (diffLog.map DiffLog.path).Nodup

theorem textsOf_of_nodup {diffLog : List DiffLog} (distinct : (diffLog.map DiffLog.path).Nodup)
    {log : DiffLog} (member : log ∈ diffLog) :
    textsOf (.text log.path) diffLog = [log.text] := by
  have one : (diffLog.filter fun l => FilePath.text l.path = .text log.path) = [log] := by
    induction diffLog with
    | nil => cases member
    | cons first diffLog ih =>
        rw [List.map_cons, List.nodup_cons] at distinct
        by_cases here : first.path = log.path
        · have same : first = log := by
            cases List.mem_cons.mp member with
            | inl same => exact same.symm
            | inr later => exact absurd (here ▸ List.mem_map_of_mem later) distinct.1
          have none : (diffLog.filter fun l => FilePath.text l.path = .text log.path) = [] := by
            rw [List.filter_eq_nil_iff]
            intro l inside equal
            have path : l.path = log.path := by simpa using equal
            exact distinct.1 (here ▸ path ▸ List.mem_map_of_mem inside)
          rw [List.filter_cons_of_pos (by simp [here]), none, same]
        · have later := (List.mem_cons.mp member).resolve_left fun same => here (same ▸ rfl)
          rw [List.filter_cons_of_neg (by simp [here])]
          exact ih distinct.2 later
  rw [textsOf, one, List.map_singleton]

/-- Clients are isolated if nobody else lists between a client's listing and its requests for
    files. -/
theorem isolated_of_turns [DecidableEq ι] {events : List (ClientRequest ι)}
    (fromListings : EachView events fun before e path =>
      FromListing e.env path (ownShown e.client before))
    (regular : ∀ l ∈ listings events, Regular l)
    (turns : EachView events fun before e _ => lastLister before = some e.client) :
    Isolated events := by
  intro before e after path split request
  have listed : FromListing e.env path (ownShown e.client before) :=
    fromListings before e after path split request
  have own := ownShown_of_lastLister (turns before e after path split request)
  have earlier : ∀ l ∈ listings before, l ∈ listings events := by
    intro l member
    rw [split, listings, List.filterMap_append, List.reverse_append, ← listings]
    exact List.mem_append_right _ member
  obtain ⟨t, wants⟩ := listed.wanted
  refine ⟨t, wants, (viewFile_eq_str before e.env listed.data t).mpr ?_⟩
  rw [own] at listed wants
  cases before' : listings before with
  | nil =>
      rw [before'] at listed
      exact listed.elim
  | cons l ls =>
      have shape := regular l (earlier l (by simp [before']))
      rw [before', List.head?_cons, Option.map_some] at listed wants
      rw [servedTexts, lastTruthy, lastComparison, before', List.head?_cons, Option.any_some,
        List.findSome?_cons]
      obtain ⟨q, shown⟩ := l
      cases shown with
      | single =>
          have plain : q.truthy = false := shape
          rw [plain, if_neg (by decide)]
          rw [Option.bind_some, wanted] at wants
          rw [wants, Option.toList_some]
      | comparison diffLog =>
          obtain ⟨truthy, distinct⟩ := shape
          obtain ⟨log, member, rfl⟩ := listed
          have texts := textsOf_of_nodup distinct member
          rw [Option.bind_some, wanted, texts, List.head?_cons, Option.some_inj] at wants
          rw [truthy, if_pos rfl, Option.getD_some, texts, wants]

end Clients

/-- A change in the file `Makefile` of the original, printed as the lines `lines`. -/
def makefileEntry (lines : List Bytes) (oneLine : ∀ l ∈ lines, newline ∉ l)
    (noHeader : ∀ l ∈ lines, ¬ ascii "diff " <+: l) : DiffEntry where
  path := ascii "/home/keti/oslab_profiler/kernel_management/ORG/kernel-source/Makefile"
  lines := lines
  pathString := by decide
  pathLine := by decide
  oneLine := oneLine
  noHeader := noHeader

def makefile : Text :=
  "/home/keti/oslab_profiler/kernel_management/ORG/kernel-source/Makefile".toList

/-- The file differs from the original in the versions 1 and 3, and not in version 2. -/
def changedMakefile : Env where
  disk := ⟨fun _ => none, fun _ => none⟩
  execSync command :=
    if command = compareCommand (.one "1".toList) (.one "2".toList) then
      some (diffStream samplePreamble
        [makefileEntry [ascii "1d0", ascii "< 1"] (by decide) (by decide)])
    else
      some (diffStream samplePreamble
        [makefileEntry [ascii "3d2", ascii "< 3"] (by decide) (by decide)])
  readFile _ := .error

def compareAs (client : Bool) (selected1 selected2 : String) : ClientRequest Bool :=
  ⟨client, changedMakefile,
    .getDirectoryJSON (.one selected1.toList) (.one selected2.toList)⟩

def viewAs (client : Bool) : ClientRequest Bool :=
  ⟨client, changedMakefile, .viewFile (.text makefile)⟩

def makefileHtml : Text :=
  "<details close><summary class=\"folder\">ORG</summary><ul>".toList ++
    "<details close><summary class=\"folder\">kernel-source</summary><ul>".toList ++
    fileHtml "Makefile".toList makefile ++ "</ul></details></ul></details>".toList

theorem readDiff_makefileEntry {lines : List Bytes} {oneLine : ∀ l ∈ lines, newline ∉ l}
    {noHeader : ∀ l ∈ lines, ¬ ascii "diff " <+: l}
    (strings : 0 ∉ (makefileEntry lines oneLine noHeader).output) :
    readDiff (diffStream samplePreamble [makefileEntry lines oneLine noHeader]) =
      [⟨makefile, lines.map Utf8.decode ++ [[]]⟩] := by
  have path : Utf8.decode (makefileEntry lines oneLine noHeader).path = makefile := by
    dsimp only [makefileEntry]
    decide +kernel
  have each : ∀ e ∈ [] ++ [makefileEntry lines oneLine noHeader], 0 ∉ e.output := by
    rintro e (_ | ⟨_, ⟨⟩⟩)
    exact strings
  have read := readDiff_snoc samplePreamble each
  rw [List.nil_append, rebuiltLast, rebuilt, path] at read
  exact read

theorem comparison_two : IsComparison (.one "2".toList) := by decide +kernel

theorem execSync_first : (changedMakefile.execSync
    (compareCommand (.one "1".toList) (.one "2".toList))).map readDiff =
      some [⟨makefile, ["1d0".toList, "< 1".toList, []]⟩] := by
  dsimp only [changedMakefile]
  rw [if_pos rfl, Option.map_some, readDiff_makefileEntry (by decide)]
  decide +kernel

theorem execSync_third : (changedMakefile.execSync
    (compareCommand (.one "3".toList) (.one "2".toList))).map readDiff =
      some [⟨makefile, ["3d2".toList, "< 3".toList, []]⟩] := by
  have other : compareCommand (.one "3".toList) (.one "2".toList) ≠
      compareCommand (.one "1".toList) (.one "2".toList) := by
    decide +kernel
  dsimp only [changedMakefile]
  rw [if_neg other, Option.map_some, readDiff_makefileEntry (by decide)]
  decide +kernel

theorem shownBy_first : shownBy changedMakefile (.one "1".toList) (.one "2".toList) =
    .comparison [⟨makefile, ["1d0".toList, "< 1".toList, []]⟩] := by
  rw [shownBy, if_pos comparison_two, execSync_first]
  rfl

theorem shownBy_third : shownBy changedMakefile (.one "3".toList) (.one "2".toList) =
    .comparison [⟨makefile, ["3d2".toList, "< 3".toList, []]⟩] := by
  rw [shownBy, if_pos comparison_two, execSync_third]
  rfl

/-- Two clients that list and view in turn, each one its own comparison. -/
def twoInTurn : List (ClientRequest Bool) :=
  [compareAs false "1" "2", viewAs false, compareAs true "3" "2", viewAs true,
    compareAs false "1" "2", viewAs false]

/-- A client that has just compared finds its own comparison. -/
theorem served_after (before : List (ClientRequest Bool)) (client : Bool) {version : String}
    {log : DiffLog} (path : log.path = makefile)
    (shown : shownBy changedMakefile (.one version.toList) (.one "2".toList) = .comparison [log]) :
    FromListing changedMakefile (.text makefile)
      (ownShown client (before ++ [compareAs client version "2"])) ∧
    servedTexts (before ++ [compareAs client version "2"]) changedMakefile (.text makefile) =
      ((ownShown client (before ++ [compareAs client version "2"])).bind
        (wanted changedMakefile (.text makefile))).toList := by
  have listing : (compareAs client version "2").listing =
      some (.one "2".toList, .comparison [log]) := congrArg some (congrArg (Prod.mk _) shown)
  have own : ownShown client (before ++ [compareAs client version "2"]) =
      some (.comparison [log]) := by
    rw [ownShown_snoc, listing, if_pos ⟨rfl, rfl⟩]
    rfl
  have truthy : lastTruthy (before ++ [compareAs client version "2"]) = true := by
    rw [lastTruthy, listings_snoc, listing]
    rfl
  have texts : textsOf (.text makefile) [log] = [log.text] := by
    have distinct : ([log].map DiffLog.path).Nodup := List.nodup_singleton _
    rw [← path, textsOf_of_nodup distinct (List.mem_singleton_self log)]
  have last : lastComparison (before ++ [compareAs client version "2"]) = [log] := by
    have request : (compareAs client version "2").request =
        .getDirectoryJSON (.one version.toList) (.one "2".toList) := rfl
    exact lastComparison_snoc before request shown
  rw [own, servedTexts, truthy, if_pos rfl, last]
  refine ⟨⟨log, List.mem_singleton_self log, by rw [path]⟩, ?_⟩
  rw [Option.bind_some, wanted, texts]
  rfl

theorem eachView_inTurn {P : List (ClientRequest Bool) → ClientRequest Bool → FilePath → Prop}
    (holds : ∀ before client version log, log.path = makefile →
      shownBy changedMakefile (.one (String.toList version)) (.one "2".toList) =
        .comparison [log] →
      P (before ++ [compareAs client version "2"]) (viewAs client) (.text makefile)) :
    EachView twoInTurn P := by
  have turn : ∀ before client version log, log.path = makefile →
      shownBy changedMakefile (.one (String.toList version)) (.one "2".toList) =
        .comparison [log] → EachView before P →
      EachView (before ++ [compareAs client version "2"] ++ [viewAs client]) P := by
    intro before client version log path shown earlier
    refine eachView_snoc (eachView_snoc earlier fun _ request => by cases request) ?_
    intro _ request
    cases request
    exact holds before client version log path shown
  exact turn _ false "1" _ rfl shownBy_first (turn _ true "3" _ rfl shownBy_third
    (turn [] false "1" _ rfl shownBy_first (eachView_nil P)))

theorem isolated_inTurn : Isolated twoInTurn :=
  (isolated_iff (eachView_inTurn fun before client _ _ path shown =>
    (served_after before client path shown).1)).mpr
      (eachView_inTurn fun before client _ _ path shown =>
        (served_after before client path shown).2)

/-- Another client compares other versions before the first one looks at the file: the first
    client gets the differences of the other one. -/
theorem makefile_not_isolated :
    (handle changedMakefile {} (.getDirectoryJSON (.one "1".toList) (.one "2".toList))).2 =
      ⟨[.htmlcode makefileHtml], false⟩ ∧
    (viewFile changedMakefile (serverState [compareAs false "1" "2", compareAs true "3" "2"])
      (.text makefile)) = ⟨[.str "3d2\n< 3\n".toList], false⟩ ∧
    ¬ Isolated [compareAs false "1" "2", compareAs true "3" "2", viewAs false] := by
  have listing : (handle changedMakefile {}
      (.getDirectoryJSON (.one "1".toList) (.one "2".toList))).2 =
        ⟨[.htmlcode makefileHtml], false⟩ := by
    obtain ⟨stdout, exec, read⟩ := Option.map_eq_some_iff.mp execSync_first
    rw [handle, handleDirectoryJSON_eq, if_pos comparison_two, exec]
    dsimp only
    rw [read]
    decide +kernel
  have reply : viewFile changedMakefile
      (serverState [compareAs false "1" "2", compareAs true "3" "2"])
      (.text makefile) = ⟨[.str "3d2\n< 3\n".toList], false⟩ := by
    have last : lastComparison [compareAs false "1" "2", compareAs true "3" "2"] = _ :=
      lastComparison_snoc [compareAs false "1" "2"] rfl shownBy_third
    rw [viewFile_eq_str _ _ (by decide), servedTexts, last]
    decide +kernel
  refine ⟨listing, reply, fun isolated => ?_⟩
  obtain ⟨t, own, sent⟩ := isolated
    [compareAs false "1" "2", compareAs true "3" "2"] (viewAs false) [] _ rfl rfl
  have shown : ownShown false [compareAs false "1" "2", compareAs true "3" "2"] =
      some (.comparison [⟨makefile, ["1d0".toList, "< 1".toList, []]⟩]) :=
    congrArg some shownBy_first
  have first : (ownShown false [compareAs false "1" "2", compareAs true "3" "2"]).bind
      (wanted changedMakefile (.text makefile)) = some "1d0\n< 1\n".toList := by
    rw [shown]
    decide +kernel
  dsimp only [handle, viewAs] at own sent
  rw [first, Option.some_inj] at own
  rw [reply, ← own] at sent
  exact absurd sent (by decide)

end OslabProfiler.Server
