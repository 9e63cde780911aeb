import Mathlib.Data.List.Sort
import Mathlib.Tactic

/-! # A file tree seen through its locations

A location is the list of names from the root. The tree is the finite partial
map from locations to entries; that a directory stands above every entry is
part of the type, so no operation can leave an orphan. Names and contents are
arbitrary types.

`Grows` and `Toward` say what a run of operations may have done. Nothing here
turns one kind of entry into another, and a program that only ever writes the
entries of one goal tree moves `Toward` it: what it has written once stays
written, and what the goal does not mention is untouched.
-/

namespace Lib

/-- What can stand at a location. A `locked` file cannot be opened; a
    `dangling` link has no target that could be reached or created. -/
inductive Entry (δ : Type) where
  | file (data : δ)
  | dir
  | locked
  | dangling
  deriving Repr, DecidableEq

/-- The kind of an entry, without the contents. -/
inductive Kind where
  | file
  | dir
  | locked
  | dangling
  deriving Repr, DecidableEq

namespace Entry

variable {δ : Type}

def kind : Entry δ → Kind
  | .file _ => .file
  | .dir => .dir
  | .locked => .locked
  | .dangling => .dangling

/-- A directory or a file that can be opened. -/
def IsPlain : Entry δ → Prop
  | .file _ | .dir => True
  | .locked | .dangling => False

/-- `open` for writing succeeds here, given the directory above. -/
def writable : Option (Entry δ) → Bool
  | none | some (.file _) => true
  | some _ => false

@[simp] theorem kind_eq_dir {e : Entry δ} : e.kind = .dir ↔ e = .dir := by
  cases e <;> simp [kind]

theorem kind_eq_file {e : Entry δ} : e.kind = .file ↔ ∃ data, e = .file data := by
  cases e <;> simp [kind]

theorem writable_iff {o : Option (Entry δ)} :
    writable o = true ↔ o = none ∨ ∃ data, o = some (.file data) := by
  rcases o with _ | ⟨_ | _ | _ | _⟩ <;> simp [writable]

/-- What can only be a file can be written. -/
theorem writable_of_kind {o : Option (Entry δ)} (isFile : ∀ e, o = some e → e.kind = .file) :
    writable o = true := by
  apply writable_iff.mpr
  cases o with
  | none => exact .inl rfl
  | some e =>
      obtain ⟨data, rfl⟩ := kind_eq_file.mp (isFile e rfl)
      exact .inr ⟨data, rfl⟩

end Entry

/-- A finite tree of entries. -/
structure FileTree (ν δ : Type) where
  get : List ν → Option (Entry δ)
  support : List (List ν)
  listed : ∀ l, get l ≠ none → l ∈ support
  root : get [] = some .dir
  parent : ∀ d x, get (d ++ [x]) ≠ none → get d = some .dir

namespace FileTree

variable {ν δ : Type}

/-- Only directories have anything below them. -/
theorem dir_above (fs : FileTree ν δ) (d p : List ν) (below : p ≠ [])
    (present : fs.get (d ++ p) ≠ none) : fs.get d = some .dir := by
  induction p using List.reverseRecOn with
  | nil => exact (below rfl).elim
  | append_singleton p x ih =>
      have above : fs.get (d ++ p) = some .dir :=
        fs.parent (d ++ p) x (by simpa only [List.append_assoc] using present)
      by_cases last : p = []
      · simpa [last] using above
      · exact ih last (by simp [above])

/-- Above what is there something is there. -/
theorem present_above (fs : FileTree ν δ) (d p : List ν) (present : fs.get (d ++ p) ≠ none) :
    fs.get d ≠ none := by
  by_cases last : p = []
  · simpa [last] using present
  · simp [fs.dir_above d p last present]

/-- Below something that is no directory there is nothing. -/
theorem nothing_below (fs : FileTree ν δ) {d : List ν} (noDir : fs.get d ≠ some .dir)
    (p : List ν) (below : p ≠ []) : fs.get (d ++ p) = none := by
  by_contra present
  exact noDir (fs.dir_above d p below present)

/-- `S_ISDIR` of what `stat` finds at a location. -/
def isDir (fs : FileTree ν δ) (l : List ν) : Bool :=
  match fs.get l with
  | some .dir => true
  | _ => false

@[simp] theorem isDir_iff {fs : FileTree ν δ} {l : List ν} :
    fs.isDir l = true ↔ fs.get l = some .dir := by
  rcases h : fs.get l with _ | ⟨_ | _ | _ | _⟩ <;> simp [isDir, h]

/-- Neither location lies at or below the other. -/
def Apart (a b : List ν) : Prop := ¬ a <+: b ∧ ¬ b <+: a

theorem Apart.symm {a b : List ν} (h : Apart a b) : Apart b a := ⟨h.2, h.1⟩

theorem Apart.outside {a b : List ν} (h : Apart a b) (p : List ν) : ¬ a <+: b ++ p := by
  intro below
  cases List.prefix_or_prefix_of_prefix below (List.prefix_append b p) with
  | inl left => exact h.1 left
  | inr right => exact h.2 right

theorem Apart.below {a b : List ν} (h : Apart a b) (p q : List ν) : Apart (a ++ p) (b ++ q) :=
  ⟨fun under => h.outside q ((List.prefix_append a p).trans under),
    fun under => h.symm.outside p ((List.prefix_append b q).trans under)⟩

section Operations

variable [DecidableEq ν]

/-- A tree hung up at a location. -/
def graft (at_ : List ν) (tree : List ν → Option (Entry δ)) (q : List ν) : Option (Entry δ) :=
  if at_ <+: q then tree (q.drop at_.length) else none

@[simp] theorem graft_append (at_ : List ν) (tree : List ν → Option (Entry δ)) (p : List ν) :
    graft at_ tree (at_ ++ p) = tree p := by
  simp [graft]

theorem graft_root (at_ : List ν) (tree : List ν → Option (Entry δ)) :
    graft at_ tree at_ = tree [] := by
  simpa only [List.append_nil] using graft_append at_ tree []

theorem graft_outside {at_ q : List ν} (tree : List ν → Option (Entry δ)) (h : ¬ at_ <+: q) :
    graft at_ tree q = none := if_neg h

/-- The tree that holds its root and nothing else. -/
def empty : FileTree ν δ where
  get l := if l = [] then some .dir else none
  support := [[]]
  listed l h := by by_cases e : l = [] <;> simp_all
  root := by simp
  parent d x h := by simp at h

/-- The tree that holds one file, and the directories down to it. -/
def oneFile (d : List ν) (x : ν) (data : δ) : FileTree ν δ where
  get l := if l <+: d then some .dir else if l = d ++ [x] then some (.file data) else none
  support := (d ++ [x]) :: d.inits
  listed l h := by
    by_cases above : l <+: d
    · exact List.mem_cons_of_mem _ ((List.mem_inits l d).mpr above)
    · by_cases here : l = d ++ [x] <;> simp_all
  root := by simp
  parent d' y h := by
    by_cases above : d' ++ [y] <+: d
    · rw [if_pos ((List.prefix_append d' [y]).trans above)]
    · by_cases here : d' ++ [y] = d ++ [x]
      · rw [(List.append_inj' here rfl).1, if_pos List.prefix_rfl]
      · simp [above, here] at h

theorem get_oneFile (d : List ν) (x : ν) (data : δ) :
    (oneFile d x data).get (d ++ [x]) = some (.file data) := by
  have longer : ¬ d ++ [x] <+: d := fun h => by
    have := h.length_le
    simp at this
  simp [oneFile, longer]

/-- Set the entry `x` of the directory `d`, which must not be a directory. -/
def put (fs : FileTree ν δ) (d : List ν) (x : ν) (e : Entry δ)
    (above : fs.get d = some .dir) (noDir : fs.get (d ++ [x]) ≠ some .dir) : FileTree ν δ where
  get l := if l = d ++ [x] then some e else fs.get l
  support := (d ++ [x]) :: fs.support
  listed l h := by
    by_cases here : l = d ++ [x]
    · simp [here]
    · exact List.mem_cons_of_mem _ (fs.listed l (by simpa [here] using h))
  root := by simp [fs.root]
  parent d' y h := by
    have notHere : d' ≠ d ++ [x] := by
      rintro rfl
      exact h (by simpa using fs.nothing_below noDir [y] (by simp))
    rw [if_neg notHere]
    by_cases here : d' ++ [y] = d ++ [x]
    · rw [(List.append_inj' here rfl).1, above]
    · exact fs.parent d' y (by simpa [here] using h)

@[simp] theorem get_put (fs : FileTree ν δ) (d : List ν) (x : ν) (e : Entry δ) (above noDir)
    (q : List ν) : (fs.put d x e above noDir).get q =
      if q = d ++ [x] then some e else fs.get q := rfl

/-- Take away the entry `x` of `d`, below which there must be nothing. -/
def remove (fs : FileTree ν δ) (d : List ν) (x : ν)
    (bare : ∀ y, fs.get (d ++ [x] ++ [y]) = none) : FileTree ν δ where
  get l := if l = d ++ [x] then none else fs.get l
  support := fs.support
  listed l h := by
    by_cases here : l = d ++ [x]
    · simp [here] at h
    · exact fs.listed l (by simpa [here] using h)
  root := by simp [fs.root]
  parent d' y h := by
    have notHere : d' ≠ d ++ [x] := by
      rintro rfl
      have gone := bare y
      simp_all
    rw [if_neg notHere]
    by_cases here : d' ++ [y] = d ++ [x]
    · simp [here] at h
    · exact fs.parent d' y (by simpa [here] using h)

@[simp] theorem get_remove (fs : FileTree ν δ) (d : List ν) (x : ν) (bare) (q : List ν) :
    (fs.remove d x bare).get q = if q = d ++ [x] then none else fs.get q := rfl

/-- Act on the last name of a location. -/
def onLast {α : Type} (l : List ν) (f : List ν → ν → α) (otherwise : α) : α :=
  match l.getLast? with
  | none => otherwise
  | some x => f l.dropLast x

omit [DecidableEq ν] in
@[simp] theorem onLast_append {α : Type} (d : List ν) (x : ν) (f : List ν → ν → α)
    (otherwise : α) : onLast (d ++ [x]) f otherwise = f d x := by
  simp [onLast]

/-- `mkdir` of one directory: nothing happens where the location is taken or
    the directory above is missing. -/
def mkdirAt (fs : FileTree ν δ) (d : List ν) (x : ν) : FileTree ν δ :=
  if h : fs.isDir d = true ∧ (fs.get (d ++ [x])).isNone = true then
    fs.put d x .dir (isDir_iff.mp h.1) (by simp_all)
  else fs

/-- Open for writing, truncate, and write: fails without a directory above or
    on anything but a file. -/
def writeAt (fs : FileTree ν δ) (d : List ν) (x : ν) (data : δ) : Option (FileTree ν δ) :=
  if h : fs.isDir d = true ∧ Entry.writable (fs.get (d ++ [x])) = true then
    some (fs.put d x (.file data) (isDir_iff.mp h.1) (by
      rcases Entry.writable_iff.mp h.2 with h' | ⟨_, h'⟩ <;> simp [h']))
  else none

def mkdir (fs : FileTree ν δ) (l : List ν) : FileTree ν δ := onLast l fs.mkdirAt fs

def write (fs : FileTree ν δ) (l : List ν) (data : δ) : Option (FileTree ν δ) :=
  onLast l (fun d x => fs.writeAt d x data) none

/-- `mkdir -p`: every directory on the way, from `d` on. -/
def mkdirFrom (fs : FileTree ν δ) (d : List ν) : List ν → FileTree ν δ
  | [] => fs
  | x :: rest => (fs.mkdirAt d x).mkdirFrom (d ++ [x]) rest

def mkdirP (fs : FileTree ν δ) (l : List ν) : FileTree ν δ := fs.mkdirFrom [] l

/-- The tree that holds the given files, and the directories down to them. -/
def planted (files : List (List ν × δ)) : FileTree ν δ :=
  files.foldl (fun fs file =>
    let fs := fs.mkdirP file.1.dropLast
    (fs.write file.1 file.2).getD fs) empty

/-- `cp` of one file. A directory as the target means the file of the same
    name inside it. -/
def cp (fs : FileTree ν δ) (src dst : List ν) : FileTree ν δ :=
  match fs.get src with
  | some (.file data) =>
      let target := if fs.isDir dst then dst ++ src.getLast?.toList else dst
      (fs.write target data).getD fs
  | _ => fs

/-- One step of an operation: nothing happens, or one location which was free
    or of the same kind gets a new entry. -/
def Change (l : List ν) (e : Entry δ) (fs fs' : FileTree ν δ) : Prop :=
  fs' = fs ∨ ((∀ old, fs.get l = some old → old.kind = e.kind) ∧
    ∀ q, fs'.get q = if q = l then some e else fs.get q)

theorem mkdirAt_change (fs : FileTree ν δ) (d : List ν) (x : ν) :
    Change (d ++ [x]) .dir fs (fs.mkdirAt d x) := by
  unfold mkdirAt
  split
  · rename_i h
    refine .inr ⟨fun old present => ?_, fun q => rfl⟩
    simp [present] at h
  · exact .inl rfl

theorem mkdirAt_made {fs : FileTree ν δ} {d : List ν} {x : ν} (above : fs.get d = some .dir)
    (free : ∀ e, fs.get (d ++ [x]) = some e → e = .dir) :
    (fs.mkdirAt d x).get (d ++ [x]) = some .dir := by
  unfold mkdirAt
  split
  · simp
  · rename_i h
    rcases present : fs.get (d ++ [x]) with _ | e
    · exact (h ⟨isDir_iff.mpr above, by simp [present]⟩).elim
    · rw [free e present]

/-- `mkdir` where nothing but a directory may stand leaves a directory there. -/
theorem get_mkdirAt {fs : FileTree ν δ} {d : List ν} {x : ν} (above : fs.get d = some .dir)
    (free : ∀ e, fs.get (d ++ [x]) = some e → e = .dir) (q : List ν) :
    (fs.mkdirAt d x).get q = if q = d ++ [x] then some .dir else fs.get q := by
  have made := mkdirAt_made above free
  cases mkdirAt_change fs d x with
  | inl same =>
      rw [same] at made ⊢
      by_cases here : q = d ++ [x]
      · rw [if_pos here, here, made]
      · rw [if_neg here]
  | inr sets => exact sets.2 q

theorem writeAt_change {fs fs' : FileTree ν δ} {d : List ν} {x : ν} {data : δ}
    (h : fs.writeAt d x data = some fs') : Change (d ++ [x]) (.file data) fs fs' := by
  unfold writeAt at h
  split at h
  · rename_i open_
    cases h
    refine .inr ⟨fun old present => ?_, fun q => rfl⟩
    rcases Entry.writable_iff.mp open_.2 with none | ⟨_, some⟩
    · simp [none] at present
    · rw [Option.some.inj (present.symm.trans some)]
      rfl
  · cases h

theorem get_writeAt {fs fs' : FileTree ν δ} {d : List ν} {x : ν} {data : δ}
    (h : fs.writeAt d x data = some fs') (q : List ν) :
    fs'.get q = if q = d ++ [x] then some (.file data) else fs.get q := by
  unfold writeAt at h
  split at h
  · cases h
    rfl
  · cases h

theorem writeAt_isSome {fs : FileTree ν δ} {d : List ν} {x : ν} {data : δ} :
    (∃ fs', fs.writeAt d x data = some fs') ↔
      fs.get d = some .dir ∧ Entry.writable (fs.get (d ++ [x])) = true := by
  unfold writeAt
  split
  · rename_i h
    exact ⟨fun _ => ⟨isDir_iff.mp h.1, h.2⟩, fun _ => ⟨_, rfl⟩⟩
  · rename_i h
    exact ⟨fun ⟨_, h'⟩ => (by cases h'), fun h' => (h ⟨isDir_iff.mpr h'.1, h'.2⟩).elim⟩

/-- Every entry is still there, of the same kind. -/
def Grows (fs fs' : FileTree ν δ) : Prop :=
  ∀ q e, fs.get q = some e → ∃ e', fs'.get q = some e' ∧ e'.kind = e.kind

/-- Every location is as it was or as the goal has it. -/
def Toward (goal : List ν → Option (Entry δ)) (fs fs' : FileTree ν δ) : Prop :=
  ∀ q, fs'.get q = fs.get q ∨ (goal q ≠ none ∧ fs'.get q = goal q)

variable {goal : List ν → Option (Entry δ)} {a b c : FileTree ν δ}

omit [DecidableEq ν] in
theorem Grows.refl (a : FileTree ν δ) : Grows a a := fun _ e h => ⟨e, h, rfl⟩

omit [DecidableEq ν] in
theorem Grows.trans (h : Grows a b) (h' : Grows b c) : Grows a c := by
  intro q e present
  obtain ⟨e', there, same⟩ := h q e present
  obtain ⟨e'', there', same'⟩ := h' q e' there
  exact ⟨e'', there', same'.trans same⟩

omit [DecidableEq ν] in
theorem Grows.dir (h : Grows a b) {q : List ν} (isDir : a.get q = some .dir) :
    b.get q = some .dir := by
  obtain ⟨e, there, same⟩ := h q .dir isDir
  rw [there, Entry.kind_eq_dir.mp same]

omit [DecidableEq ν] in
theorem Toward.refl (goal : List ν → Option (Entry δ)) (a : FileTree ν δ) : Toward goal a a :=
  fun _ => .inl rfl

omit [DecidableEq ν] in
theorem Toward.trans (h : Toward goal a b) (h' : Toward goal b c) : Toward goal a c := by
  intro q
  rcases h' q with same | reached
  · rw [same]
    exact h q
  · exact .inr reached

omit [DecidableEq ν] in
/-- What the goal does not mention is untouched. -/
theorem Toward.frame (h : Toward goal a b) {q : List ν} (free : goal q = none) :
    b.get q = a.get q := (h q).resolve_right fun r => r.1 free

omit [DecidableEq ν] in
/-- What has been reached stays. -/
theorem Toward.stays (h : Toward goal a b) {q : List ν} (reached : a.get q = goal q) :
    b.get q = goal q := by
  rcases h q with same | there
  · rw [same, reached]
  · exact there.2

/-- Nothing stands where the goal has an entry of another kind. -/
def Compatible (goal : List ν → Option (Entry δ)) (fs : FileTree ν δ) : Prop :=
  ∀ q e e', fs.get q = some e → goal q = some e' → e.kind = e'.kind

omit [DecidableEq ν] in
theorem Compatible.kept (h : Compatible goal a) (moved : Toward goal a b) : Compatible goal b := by
  intro q e e' present aimed
  cases moved q with
  | inl old => exact h q e e' (old ▸ present) aimed
  | inr reached =>
      rw [present, aimed] at reached
      rw [Option.some.inj reached.2]

theorem compatible_graft {l : List ν} {tree : List ν → Option (Entry δ)} {fs : FileTree ν δ}
    (h : ∀ p e e', fs.get (l ++ p) = some e → tree p = some e' → e.kind = e'.kind) :
    Compatible (graft l tree) fs := by
  intro q e e' present aimed
  unfold graft at aimed
  split at aimed
  · rename_i inside
    obtain ⟨p, rfl⟩ := inside
    rw [List.drop_left] at aimed
    exact h p e e' present aimed
  · cases aimed

/-- The part of a goal on the way to a location and below it. -/
def along (l : List ν) (goal : List ν → Option (Entry δ)) (q : List ν) : Option (Entry δ) :=
  if l <+: q ∨ q <+: l then goal q else none

theorem along_le {l q : List ν} (aimed : along l goal q ≠ none) : along l goal q = goal q := by
  unfold along at aimed ⊢
  split
  · rfl
  · rename_i aside
    rw [if_neg aside] at aimed
    exact (aimed rfl).elim

omit [DecidableEq ν] in
theorem Toward.mono {goal' : List ν → Option (Entry δ)} (h : Toward goal a b)
    (le : ∀ q, goal q ≠ none → goal q = goal' q) : Toward goal' a b := by
  intro q
  cases h q with
  | inl same => exact .inl same
  | inr reached =>
      rw [← le q reached.1]
      exact .inr reached

/-- A run that stays along a location moves toward the whole goal. -/
theorem Toward.whole {l : List ν} (h : Toward (along l goal) a b) : Toward goal a b :=
  h.mono fun _ aimed => along_le aimed

theorem Toward.widen {l : List ν} {x : ν} (h : Toward (along (l ++ [x]) goal) a b) :
    Toward (along l goal) a b := by
  apply h.mono
  intro q aimed
  rw [along_le aimed]
  unfold along at aimed ⊢
  rw [if_pos]
  split at aimed
  · rename_i comparable
    cases comparable with
    | inl below => exact .inl ((List.prefix_append l [x]).trans below)
    | inr above =>
        cases List.prefix_concat_iff.mp above with
        | inl here => exact .inl ⟨[x], here.symm⟩
        | inr higher => exact .inr higher
  · exact (aimed rfl).elim

/-- Such a run leaves the neighbours alone. -/
theorem Toward.aside {l p : List ν} {x y : ν} (h : Toward (along (l ++ [x]) goal) a b)
    (other : y ≠ x) : b.get (l ++ [y] ++ p) = a.get (l ++ [y] ++ p) := by
  apply h.frame
  unfold along
  rw [if_neg]
  intro comparable
  simp only [List.append_assoc, List.prefix_append_right_inj, List.singleton_append,
    List.cons_prefix_cons] at comparable
  cases comparable with
  | inl below => exact other below.1.symm
  | inr above => exact other above.1

theorem Change.grows {l : List ν} {e : Entry δ} (h : Change l e a b) : Grows a b := by
  rcases h with rfl | ⟨same, sets⟩
  · exact Grows.refl _
  · intro q old present
    by_cases here : q = l
    · subst here
      exact ⟨e, by simp [sets], (same old present).symm⟩
    · exact ⟨old, by simp [sets, here, present], rfl⟩

/-- The tree has grown, and only at a location or below it. -/
def Within (l : List ν) (a b : FileTree ν δ) : Prop :=
  Grows a b ∧ ∀ q, ¬ l <+: q → b.get q = a.get q

omit [DecidableEq ν] in
theorem Within.refl (l : List ν) (a : FileTree ν δ) : Within l a a :=
  ⟨Grows.refl a, fun _ _ => rfl⟩

omit [DecidableEq ν] in
theorem Within.trans {l : List ν} (h : Within l a b) (h' : Within l b c) : Within l a c :=
  ⟨h.1.trans h'.1, fun q outside => (h'.2 q outside).trans (h.2 q outside)⟩

omit [DecidableEq ν] in
theorem Within.widen {l l' : List ν} (h : Within l' a b) (above : l <+: l') : Within l a b :=
  ⟨h.1, fun q outside => h.2 q fun below => outside (above.trans below)⟩

omit [DecidableEq ν] in
/-- What lies apart from the location is as it was. -/
theorem Within.kept {l d : List ν} (h : Within l a b) (apart : Apart d l) (p : List ν) :
    b.get (d ++ p) = a.get (d ++ p) := h.2 _ (apart.symm.outside p)

theorem Change.within {l : List ν} {e : Entry δ} (h : Change l e a b) : Within l a b := by
  refine ⟨h.grows, fun q outside => ?_⟩
  cases h with
  | inl same => rw [same]
  | inr sets =>
      have elsewhere : q ≠ l := by
        rintro rfl
        exact outside List.prefix_rfl
      rw [sets.2 q, if_neg elsewhere]

/-- Setting one location to what the goal has there. -/
theorem toward_of_sets {l : List ν} {e : Entry δ}
    (sets : ∀ q, b.get q = if q = l then some e else a.get q) (aimed : goal l = some e) :
    Toward goal a b := by
  intro q
  by_cases here : q = l
  · subst here
    exact .inr (by simp [sets, aimed])
  · exact .inl (by simp [sets, here])

theorem Change.toward {l : List ν} {e : Entry δ} (h : Change l e a b)
    (aimed : goal l = some e) : Toward goal a b := by
  rcases h with rfl | ⟨_, sets⟩
  · exact Toward.refl _ _
  · exact toward_of_sets sets aimed

/-- Once every entry of a grafted tree is in place, that tree lies over what was
    there, and the rest is untouched. -/
theorem Toward.overlay {l : List ν} {tree : List ν → Option (Entry δ)}
    (moved : Toward (graft l tree) a b)
    (placed : ∀ p, tree p ≠ none → b.get (l ++ p) = tree p) :
    (∀ p, b.get (l ++ p) = (tree p).or (a.get (l ++ p))) ∧
      ∀ q, ¬ l <+: q → b.get q = a.get q := by
  refine ⟨fun p => ?_, fun q outside => moved.frame (graft_outside _ outside)⟩
  cases wanted : tree p with
  | none => exact moved.frame (by rw [graft_append, wanted])
  | some e => rw [placed p (by simp [wanted]), wanted, Option.some_or]

theorem mkdirFrom_grows (fs : FileTree ν δ) (d l : List ν) : Grows fs (fs.mkdirFrom d l) := by
  induction l generalizing fs d with
  | nil => exact Grows.refl _
  | cons x rest ih => exact (mkdirAt_change fs d x).grows.trans (ih _ _)

theorem mkdirFrom_toward (fs : FileTree ν δ) (d l : List ν)
    (aimed : ∀ p, p <+: l → p ≠ [] → fs.get (d ++ p) = none → goal (d ++ p) = some .dir) :
    Toward goal fs (fs.mkdirFrom d l) := by
  induction l generalizing fs d with
  | nil => exact Toward.refl _ _
  | cons x rest ih =>
      have first : Toward goal fs (fs.mkdirAt d x) := by
        rcases present : fs.get (d ++ [x]) with _ | e
        · exact (mkdirAt_change fs d x).toward (aimed [x] (by simp) (by simp) present)
        · rw [show fs.mkdirAt d x = fs by simp [mkdirAt, present]]
          exact Toward.refl _ _
      refine first.trans (ih _ _ fun p hp nonempty absent => ?_)
      have before : fs.get (d ++ [x] ++ p) = none := by
        by_contra present
        obtain ⟨e, present⟩ := Option.ne_none_iff_exists'.mp present
        obtain ⟨_, still, _⟩ := (mkdirAt_change fs d x).grows _ _ present
        rw [still] at absent
        cases absent
      simpa using aimed (x :: p) (by simpa using hp) (by simp) (by simpa using before)

/-- The directories on the way are there, where nothing else was in the way. -/
theorem mkdirFrom_dirs (fs : FileTree ν δ) (d l : List ν) (start : fs.get d = some .dir)
    (free : ∀ p, p <+: l → ∀ e, fs.get (d ++ p) = some e → e = .dir) :
    ∀ p, p <+: l → (fs.mkdirFrom d l).get (d ++ p) = some .dir := by
  induction l generalizing fs d with
  | nil =>
      intro p hp
      rw [List.prefix_nil.mp hp]
      simpa [mkdirFrom] using start
  | cons x rest ih =>
      have made := mkdirAt_made start fun e => free [x] (by simp) e
      have stays : ∀ q, fs.get q = some .dir →
          ((fs.mkdirAt d x).mkdirFrom (d ++ [x]) rest).get q = some .dir := by
        intro q present
        exact ((mkdirAt_change fs d x).grows.trans (mkdirFrom_grows _ (d ++ [x]) rest)).dir present
      have free' : ∀ p, p <+: rest → ∀ e,
          (fs.mkdirAt d x).get (d ++ [x] ++ p) = some e → e = .dir := by
        intro p hp e he
        rcases mkdirAt_change fs d x with same | ⟨_, sets⟩
        · rw [same] at he
          exact free (x :: p) (by simpa using hp) e (by simpa using he)
        · rw [sets] at he
          split at he
          · exact (Option.some.inj he).symm
          · exact free (x :: p) (by simpa using hp) e (by simpa using he)
      intro p hp
      cases p with
      | nil => simpa [mkdirFrom] using stays d start
      | cons y p =>
          obtain ⟨rfl, tail⟩ := List.cons_prefix_cons.mp hp
          simpa [mkdirFrom] using ih (fs.mkdirAt d y) (d ++ [y]) made free' p tail

theorem write_change {fs fs' : FileTree ν δ} {l : List ν} {data : δ}
    (h : fs.write l data = some fs') : Change l (.file data) fs fs' := by
  rcases List.eq_nil_or_concat' l with rfl | ⟨d, x, rfl⟩
  · simp [write, onLast] at h
  · rw [write, onLast_append] at h
    exact writeAt_change h

theorem cp_grows (fs : FileTree ν δ) (src dst : List ν) : Grows fs (fs.cp src dst) := by
  unfold cp
  split
  · rename_i data _
    simp only
    rcases h : fs.write _ data with _ | fs'
    · exact Grows.refl _
    · exact (write_change h).grows
  · exact Grows.refl _

end Operations

section Listing

variable [LinearOrder ν]

/-- The names in a directory, in increasing order. -/
def children (fs : FileTree ν δ) (d : List ν) : List ν :=
  ((fs.support.filter fun l => l.dropLast = d ∧ (fs.get l).isSome).filterMap
    List.getLast?).dedup.insertionSort (· ≤ ·)

theorem mem_children {fs : FileTree ν δ} {d : List ν} {x : ν} :
    x ∈ fs.children d ↔ fs.get (d ++ [x]) ≠ none := by
  simp only [children, List.mem_insertionSort, List.mem_dedup, List.mem_filterMap,
    List.mem_filter, decide_eq_true_eq, Option.isSome_iff_ne_none]
  constructor
  · rintro ⟨l, ⟨_, rfl, present⟩, last⟩
    rwa [← List.dropLast_append_getLast? x last] at present
  · intro present
    exact ⟨d ++ [x], ⟨fs.listed _ present, by simp, present⟩, by simp⟩

theorem children_increasing (fs : FileTree ν δ) (d : List ν) :
    (fs.children d).Pairwise (· < ·) := by
  have sorted := List.pairwise_insertionSort (· ≤ ·)
    ((fs.support.filter fun l => l.dropLast = d ∧ (fs.get l).isSome).filterMap
      List.getLast?).dedup
  have distinct : (fs.children d).Nodup :=
    (List.perm_insertionSort _ _).nodup_iff.mpr (List.nodup_dedup _)
  exact (sorted.and distinct).imp fun h => lt_of_le_of_ne h.1 h.2

/-- `rmdir`: only an empty directory goes away. -/
def rmdirAt (fs : FileTree ν δ) (d : List ν) (x : ν) : FileTree ν δ :=
  if h : fs.isDir (d ++ [x]) = true ∧ fs.children (d ++ [x]) = [] then
    fs.remove d x (by
      intro y
      by_contra present
      simpa [h.2] using mem_children.mpr present)
  else fs

def rmdir (fs : FileTree ν δ) (l : List ν) : FileTree ν δ := onLast l fs.rmdirAt fs

end Listing

end FileTree

end Lib
