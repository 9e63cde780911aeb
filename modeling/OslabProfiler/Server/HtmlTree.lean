import OslabProfiler.Lib.Trie
import OslabProfiler.Lib.Tags
import OslabProfiler.Server.PathTrie
import OslabProfiler.Server.DiffLog

/-! # The listing of changed files

The tree of changed files is a trie with the entries of the comparison at its leaves, kept
in objects that have the names of files and the fields of an entry as their properties.
`generateHtmlTree` takes an object for a file if it has a property `isFile`, and a directory
has one if an entry in it is called so. Such a directory is printed as a file, and what is
below it is not printed at all.

The names are pasted into the page as they are. What the page shows is what a reader of its
tags finds, and a name with a quote or a `<` in it is not read back.
-/

namespace OslabProfiler.Server

open Lib Lib.Trie Lib.Tags

/-! ## The objects of a trie -/

mutual

def fileValue : Trie Text DiffLog → TreeValue
  | .leaf log => fileEntry log
  | .node children => .object (fileValues children)

def fileValues : List (Text × Trie Text DiffLog) → List (Text × TreeValue)
  | [] => []
  | (key, t) :: children => (key, fileValue t) :: fileValues children

end

theorem fileValues_eq (children : List (Text × Trie Text DiffLog)) :
    fileValues children = children.map fun p => (p.1, fileValue p.2) := by
  induction children with
  | nil => simp [fileValues]
  | cons p children ih =>
      obtain ⟨key, t⟩ := p
      rw [fileValues, ih, List.map_cons]

theorem property_fileValues (children : List (Text × Trie Text DiffLog)) (key : Text) :
    property (fileValues children) key = (child children key).map fileValue := by
  rw [fileValues_eq, property, child, List.find?_map]
  simp only [Option.map_map, Function.comp_def]

theorem setProperty_fileValues (children : List (Text × Trie Text DiffLog)) (key : Text)
    (t : Trie Text DiffLog) :
    setProperty (fileValues children) key (fileValue t) = fileValues (setChild children key t) := by
  induction children with
  | nil => rfl
  | cons p children ih =>
      obtain ⟨k, old⟩ := p
      rw [fileValues, setProperty, setChild, ih]
      split <;> rfl

/-- What is inserted into the trie is placed in its objects. -/
theorem place_fileValues {log : DiffLog} {parts : List Text}
    {children children' : List (Text × Trie Text DiffLog)}
    (inserted : insertBelow log parts children = some children') :
    place (fileEntry log) parts (fileValues children) = some (fileValues children') := by
  induction parts generalizing children children' with
  | nil =>
      cases inserted
      rfl
  | cons part rest ih =>
      cases rest with
      | nil =>
          cases inserted
          exact congrArg some (setProperty_fileValues children part (.leaf log))
      | cons next rest =>
          rw [insertBelow] at inserted
          swap
          · simp
          rw [place, property_fileValues]
          swap
          · simp
          cases there : child children part with
          | none =>
              simp only [there, Option.map_eq_some_iff] at inserted
              obtain ⟨inner, run, rfl⟩ := inserted
              have placed := ih run
              rw [fileValues] at placed
              simp only [Option.map_none, placed, Option.map_some]
              exact congrArg some (setProperty_fileValues children part (.node inner))
          | some old =>
              cases old with
              | leaf other => simp [there] at inserted
              | node old =>
                  simp only [there, Option.map_eq_some_iff] at inserted
                  obtain ⟨inner, run, rfl⟩ := inserted
                  simp only [Option.map_some, fileValue, ih run]
                  exact congrArg some (setProperty_fileValues children part (.node inner))

/-- The tree of a comparison is that of a trie with all entries at the parts of their paths. -/
theorem DiffPaths.exists_trie {logs : List DiffLog} (paths : DiffPaths logs) :
    ∃ children, Server.createPathTree logs = some (fileValues children) ∧ SoundBelow children ∧
      (entriesBelow children).Perm (logs.map fun log => (shownParts log.path, log)) := by
  have scattered : logs.Pairwise fun a b =>
      FileTree.Apart (shownParts a.path) (shownParts b.path) :=
    paths.nodup.imp_of_mem fun ha hb other => paths.scattered _ ha _ hb other
  have empty : SoundBelow ([] : List (Text × Trie Text DiffLog)) := ⟨List.nodup_nil, by simp⟩
  obtain ⟨children, run, sound, entries⟩ := foldlM_insertBelow
    (fun log member => paths.nonempty member) scattered empty (by simp [entriesBelow])
  refine ⟨children, ?_, sound, by simpa [entriesBelow] using entries⟩
  have simulates : ∀ (l : List DiffLog) (front : List (Text × Trie Text DiffLog)),
      l.foldlM (fun children log => insertBelow log (shownParts log.path) children) front =
        some children →
      l.foldlM (fun tree log => place (fileEntry log) (shownParts log.path) tree) (fileValues front) =
        some (fileValues children) := by
    intro l
    induction l with
    | nil =>
        intro front same
        cases same
        rfl
    | cons log l ih =>
        intro front runs
        rw [List.foldlM_cons] at runs ⊢
        obtain ⟨next, first, rest⟩ := Option.bind_eq_some_iff.mp runs
        rw [place_fileValues first]
        exact ih next rest
  exact simulates logs [] run

/-! ## The listing that is wanted -/

/-- What is read of a page: a tag by its element and, if it is an `li`, its id, with the text
    that is shown behind it. -/
structure Mark where
  element : Text
  id : Option Text
  text : Text
  deriving DecidableEq

def Mark.of (tag : Text × Text) : Mark where
  element := tagName tag.1
  id := liId tag.1
  -- A script is not shown.
  text := if tagName tag.1 = "script".toList then [] else tag.2

mutual

/-- How an entry of a listing is marked up: a file with its id, or a directory. -/
def entryMarks (key : Text) : Trie Text Text → List Mark
  | .leaf id =>
      [⟨"li".toList, some id, key⟩, ⟨"/li".toList, none, []⟩, ⟨"script".toList, none, []⟩,
        ⟨"/script".toList, none, []⟩]
  | .node children =>
      [⟨"details".toList, none, []⟩, ⟨"summary".toList, none, key⟩, ⟨"/summary".toList, none, []⟩,
        ⟨"ul".toList, none, []⟩] ++
      listingMarks children ++ [⟨"/ul".toList, none, []⟩, ⟨"/details".toList, none, []⟩]

def listingMarks : List (Text × Trie Text Text) → List Mark
  | [] => []
  | (key, t) :: children => entryMarks key t ++ listingMarks children

end

/-- A directory on the way to one of the files. -/
def IsDirectory (logs : List DiffLog) (place : List Text) : Prop :=
  place ≠ [] ∧ ∃ log ∈ logs, place <+: shownParts log.path ∧ place ≠ shownParts log.path

/-- The text is read as a listing with one entry for each file, under its place and with its
    path as id, one for each directory on the way to them, and nothing else. -/
def ShowsOnce (logs : List DiffLog) (html : Text) : Prop :=
  ∃ (found : List (Text × Text)) (listing : List (Text × Trie Text Text)),
    Marked html found ∧ found.map Mark.of = listingMarks listing ∧
    (entriesBelow listing).Perm (logs.map fun log => (shownParts log.path, log.path)) ∧
    (nodesBelow listing).Nodup ∧ ∀ place, place ∈ nodesBelow listing ↔ IsDirectory logs place

/-! ## A listing from its marks -/

/-- Marks that begin with an entry tell the entry and what is behind it. -/
def Told (t : Trie Text Text) : Prop :=
  ∀ (key key' : Text) (t' : Trie Text Text) (rest rest' : List Mark),
    entryMarks key t ++ rest = entryMarks key' t' ++ rest' → key = key' ∧ t = t' ∧ rest = rest'

theorem entryMarks_ne_close (key : Text) (t : Trie Text Text) (rest rest' : List Mark) :
    entryMarks key t ++ rest ≠ ⟨"/ul".toList, none, []⟩ :: rest' := by
  intro same
  cases t with
  | leaf id =>
      have element : "li".toList = "/ul".toList := congrArg Mark.element (List.cons.inj same).1
      exact absurd element (by decide)
  | node children =>
      rw [entryMarks] at same
      have element : "details".toList = "/ul".toList := congrArg Mark.element (List.cons.inj same).1
      exact absurd element (by decide)

/-- So do those of a listing, up to the tag that closes it. -/
theorem listingMarks_told {children : List (Text × Trie Text Text)}
    (each : ∀ p ∈ children, Told p.2) {children' : List (Text × Trie Text Text)}
    {rest rest' : List Mark}
    (same : listingMarks children ++ ⟨"/ul".toList, none, []⟩ :: rest =
      listingMarks children' ++ ⟨"/ul".toList, none, []⟩ :: rest') :
    children = children' ∧ rest = rest' := by
  induction children generalizing children' with
  | nil =>
      cases children' with
      | nil => exact ⟨rfl, (List.cons.inj same).2⟩
      | cons p' children' =>
          obtain ⟨key', t'⟩ := p'
          rw [listingMarks, listingMarks, List.nil_append, List.append_assoc] at same
          exact absurd same.symm (entryMarks_ne_close key' t' _ _)
  | cons p children ih =>
      obtain ⟨key, t⟩ := p
      obtain ⟨here, later⟩ := List.forall_mem_cons.mp each
      rw [listingMarks, List.append_assoc] at same
      cases children' with
      | nil => exact absurd same (entryMarks_ne_close key t _ _)
      | cons p' children' =>
          obtain ⟨key', t'⟩ := p'
          rw [listingMarks, List.append_assoc] at same
          obtain ⟨rfl, rfl, behind⟩ := here key key' t' _ _ same
          obtain ⟨rfl, rfl⟩ := ih later behind
          exact ⟨rfl, rfl⟩

theorem told (t : Trie Text Text) : Told t := by
  induction t using Trie.induct with
  | leaf id =>
      intro key key' t' rest rest' same
      cases t' with
      | leaf id' =>
          simp only [entryMarks, List.cons_append, List.nil_append, List.cons.injEq, Mark.mk.injEq,
            Option.some.injEq, true_and] at same
          exact ⟨same.1.2, congrArg Trie.leaf same.1.1, same.2⟩
      | node children' =>
          rw [entryMarks] at same
          have element : "li".toList = "details".toList := congrArg Mark.element (List.cons.inj same).1
          exact absurd element (by decide)
  | node children ih =>
      intro key key' t' rest rest' same
      cases t' with
      | leaf id' =>
          rw [entryMarks] at same
          have element : "details".toList = "li".toList := congrArg Mark.element (List.cons.inj same).1
          exact absurd element (by decide)
      | node children' =>
          simp only [entryMarks, List.cons_append, List.nil_append, List.append_assoc,
            List.cons.injEq, Mark.mk.injEq, true_and] at same
          obtain ⟨rfl, inner⟩ := same
          obtain ⟨rfl, behind⟩ := listingMarks_told ih inner
          exact ⟨rfl, rfl, (List.cons.inj behind).2⟩

theorem listingMarks_injective {listing listing' : List (Text × Trie Text Text)}
    (same : listingMarks listing = listingMarks listing') : listing = listing' :=
  (listingMarks_told (fun p _ => told p.2)
    (congrArg (· ++ [⟨"/ul".toList, none, []⟩]) same : _ ++ _ :: [] = _ ++ _ :: [])).1

/-- The id of a file and the names on the way to it are among the marks. -/
theorem marks_of_entry {children : List (Text × Trie Text Text)}
    (each : ∀ p ∈ children, ∀ key, ∀ e ∈ p.2.entries,
      (∃ mark ∈ entryMarks key p.2, mark.id = some e.2) ∧
        ∀ name ∈ key :: e.1, ∃ mark ∈ entryMarks key p.2, mark.text = name)
    {e : List Text × Text} (entry : e ∈ entriesBelow children) :
    (∃ mark ∈ listingMarks children, mark.id = some e.2) ∧
      ∀ name ∈ e.1, ∃ mark ∈ listingMarks children, mark.text = name := by
  induction children with
  | nil => simp [entriesBelow] at entry
  | cons p children ih =>
      obtain ⟨key, t⟩ := p
      obtain ⟨here, later⟩ := List.forall_mem_cons.mp each
      rw [entriesBelow, List.mem_append, List.mem_map] at entry
      rw [listingMarks]
      cases entry with
      | inl first =>
          obtain ⟨inner, member, rfl⟩ := first
          obtain ⟨⟨mark, found, id⟩, names⟩ := here key inner member
          refine ⟨⟨mark, List.mem_append_left _ found, id⟩, fun name inside => ?_⟩
          obtain ⟨mark, found, text⟩ := names name inside
          exact ⟨mark, List.mem_append_left _ found, text⟩
      | inr rest =>
          obtain ⟨⟨mark, found, id⟩, names⟩ := ih later rest
          refine ⟨⟨mark, List.mem_append_right _ found, id⟩, fun name inside => ?_⟩
          obtain ⟨mark, found, text⟩ := names name inside
          exact ⟨mark, List.mem_append_right _ found, text⟩

theorem marks_of_entry_below (t : Trie Text Text) (key : Text) :
    ∀ e ∈ t.entries, (∃ mark ∈ entryMarks key t, mark.id = some e.2) ∧
      ∀ name ∈ key :: e.1, ∃ mark ∈ entryMarks key t, mark.text = name := by
  induction t using Trie.induct generalizing key with
  | leaf id => simp [entries, entryMarks]
  | node children ih =>
      intro e entry
      obtain ⟨⟨mark, found, id⟩, names⟩ := marks_of_entry ih entry
      have inner : ∀ mark ∈ listingMarks children, mark ∈ entryMarks key (.node children) := by
        intro mark found
        rw [entryMarks]
        exact List.mem_append_left _ (List.mem_append_right _ found)
      refine ⟨⟨mark, inner mark found, id⟩, fun name inside => ?_⟩
      cases List.mem_cons.mp inside with
      | inl own =>
          refine ⟨⟨"summary".toList, none, key⟩, ?_, own.symm⟩
          rw [entryMarks]
          simp
      | inr deeper =>
          obtain ⟨mark, found, text⟩ := names name deeper
          exact ⟨mark, inner mark found, text⟩

/-- Where a page is read as a listing, no id has a quote in it and no name a `<`. -/
theorem plain_of_marked {html : Text} {found : List (Text × Text)}
    {listing : List (Text × Trie Text Text)} (marked : Marked html found)
    (marks : found.map Mark.of = listingMarks listing) {e : List Text × Text}
    (entry : e ∈ entriesBelow listing) : '"' ∉ e.2 ∧ ∀ name ∈ e.1, '<' ∉ name := by
  obtain ⟨⟨mark, there, id⟩, names⟩ :=
    marks_of_entry (fun p _ key => marks_of_entry_below p.2 key) entry
  rw [← marks] at there names
  constructor
  · obtain ⟨tag, -, rfl⟩ := List.mem_map.mp there
    exact quote_not_mem_liId id
  · intro name inside
    obtain ⟨mark, member, text⟩ := names name inside
    obtain ⟨tag, tagThere, rfl⟩ := List.mem_map.mp member
    rw [← text, Mark.of]
    split
    · exact List.not_mem_nil
    · exact marked.plain tagThere

/-! ## Reading a listing -/

/-- The entry of a directory. -/
def folderHtml (key inner : Text) : Text :=
  "<details close><summary class=\"folder\">".toList ++ key ++ "</summary>".toList ++
    "<ul>".toList ++ inner ++ "</ul>".toList ++ "</details>".toList

mutual

/-- What is printed for a file, of which the id is kept, or for a directory. -/
def entryHtml (key : Text) : Trie Text Text → Text
  | .leaf id => fileHtml key id
  | .node children => folderHtml key (listingHtml children)

def listingHtml : List (Text × Trie Text Text) → Text
  | [] => []
  | (key, t) :: children => entryHtml key t ++ listingHtml children

end

mutual

/-- Ids and names that are read as they are written. -/
def PlainEntry : Trie Text Text → Prop
  | .leaf id => PlainName id
  | .node children => PlainListing children

def PlainListing : List (Text × Trie Text Text) → Prop
  | [] => True
  | (key, t) :: children => '<' ∉ key ∧ PlainEntry t ∧ PlainListing children

end

theorem plainListing_iff {children : List (Text × Trie Text Text)} :
    PlainListing children ↔ ∀ p ∈ children, '<' ∉ p.1 ∧ PlainEntry p.2 := by
  induction children with
  | nil => simp [PlainListing]
  | cons p children ih =>
      obtain ⟨key, t⟩ := p
      rw [PlainListing, ih, List.forall_mem_cons, and_assoc]

/-- The page is read as these marks. -/
def ReadAs (html : Text) (marks : List Mark) : Prop :=
  ∃ found, Marked html found ∧ found.map Mark.of = marks

theorem ReadAs.append {a b : Text} {ms ns : List Mark} (first : ReadAs a ms)
    (second : ReadAs b ns) : ReadAs (a ++ b) (ms ++ ns) := by
  obtain ⟨found, marked, rfl⟩ := first
  obtain ⟨found', marked', rfl⟩ := second
  exact ⟨found ++ found', marked.append marked', List.map_append⟩

/-- A tag that is no `li`, with a text that is shown. -/
theorem readAs_tag {front text tag : Text} (opens : read .outside front = ([.tag tag], .outside))
    (other : liId tag = none ∧ tagName tag ≠ "script".toList) (plain : '<' ∉ text) :
    ReadAs (front ++ text) [⟨tagName tag, none, text⟩] := by
  refine ⟨_, marked_tag opens plain, ?_⟩
  rw [List.map_singleton, Mark.of, other.1, if_neg other.2]

theorem readAs_li {key id : Text} (name : '<' ∉ key) (plain : PlainName id) :
    ReadAs ("<li id=\"".toList ++ id ++ "\" onclick=\"selectFile(this.id)\">".toList ++ key)
      [⟨"li".toList, some id, key⟩] := by
  have opens : read .outside "<li id=\"".toList = ([], .quoted "li id=\"".toList) := by
    decide +kernel
  have closes : read (.quoted []) "\" onclick=\"selectFile(this.id)\">".toList =
      ([.tag "\" onclick=\"selectFile(this.id)\"".toList], .outside) := by decide +kernel
  refine ⟨_, marked_tag (read_tag opens plain.2 closes) name, ?_⟩
  generalize tagged : "li id=\"".toList ++ id ++ "\" onclick=\"selectFile(this.id)\"".toList = tag
  have element : tagName tag = "li".toList := by
    rw [← tagged]
    rfl
  have own : liId tag = some id := by
    rw [liId, if_pos element, ← tagged]
    exact congrArg some (takeWhile_quoted "li id=\"".toList _ plain.2)
  have shown : "li".toList ≠ "script".toList := by decide
  rw [List.map_singleton, Mark.of, own, element, if_neg shown]

theorem readAs_script {text : Text} (plain : '<' ∉ text) :
    ReadAs ("<script type=\"text/javascript\">".toList ++ text) [⟨"script".toList, none, []⟩] := by
  have opens : read .outside "<script type=\"text/javascript\">".toList =
      ([.tag "script type=\"text/javascript\"".toList], .outside) := by decide +kernel
  have element : tagName "script type=\"text/javascript\"".toList = "script".toList ∧
      liId "script type=\"text/javascript\"".toList = none := by decide +kernel
  refine ⟨_, marked_tag opens plain, ?_⟩
  rw [List.map_singleton, Mark.of, element.1, element.2, if_pos rfl]

theorem readAs_fileHtml {key id : Text} (name : '<' ∉ key) (plain : PlainName id) :
    ReadAs (fileHtml key id) (entryMarks key (.leaf id)) := by
  have closed : ReadAs "</li>".toList [⟨"/li".toList, none, []⟩] :=
    ⟨[("/li".toList, [])], by decide +kernel, by decide +kernel⟩
  have script : '<' ∉ "\"".toList ++ id ++
      "\".click(function() \x7b\n\t\t\t\tselectFile(node[key].diffData);\n\t\t\t\x7d);".toList := by
    simp only [List.mem_append, not_or]
    exact ⟨⟨by decide, plain.1⟩, by decide +kernel⟩
  have scriptClosed : ReadAs "</script>".toList [⟨"/script".toList, none, []⟩] :=
    ⟨[("/script".toList, [])], by decide +kernel, by decide +kernel⟩
  have grouped : ∀ a b c d e f : Text,
      a ++ b ++ c ++ d ++ id ++ e ++ f = a ++ b ++ (c ++ (d ++ id ++ e)) ++ f := by
    intro a b c d e f
    simp only [List.append_assoc]
  unfold fileHtml
  rw [grouped, entryMarks]
  exact (((readAs_li name plain).append closed).append (readAs_script script)).append scriptClosed

theorem readAs_folderHtml {key inner : Text} {children : List (Text × Trie Text Text)}
    (name : '<' ∉ key) (read : ReadAs inner (listingMarks children)) :
    ReadAs (folderHtml key inner) (entryMarks key (.node children)) := by
  have details : ReadAs "<details close>".toList [⟨"details".toList, none, []⟩] :=
    ⟨[("details close".toList, [])], by decide +kernel, by decide +kernel⟩
  have summary : ReadAs ("<summary class=\"folder\">".toList ++ key)
      [⟨"summary".toList, none, key⟩] := by
    have opens : Tags.read .outside "<summary class=\"folder\">".toList =
        ([.tag "summary class=\"folder\"".toList], .outside) := by decide +kernel
    exact readAs_tag opens (by decide +kernel) name
  have list : ReadAs ("</summary>".toList ++ "<ul>".toList)
      [⟨"/summary".toList, none, []⟩, ⟨"ul".toList, none, []⟩] :=
    ⟨[("/summary".toList, []), ("ul".toList, [])], by decide +kernel, by decide +kernel⟩
  have closed : ReadAs ("</ul>".toList ++ "</details>".toList)
      [⟨"/ul".toList, none, []⟩, ⟨"/details".toList, none, []⟩] :=
    ⟨[("/ul".toList, []), ("/details".toList, [])], by decide +kernel, by decide +kernel⟩
  have front : "<details close><summary class=\"folder\">".toList =
      "<details close>".toList ++ "<summary class=\"folder\">".toList := by decide +kernel
  have grouped : ∀ a b c d e f : Text,
      a ++ b ++ key ++ c ++ d ++ inner ++ e ++ f = a ++ (b ++ key) ++ (c ++ d) ++ inner ++ (e ++ f) := by
    intro a b c d e f
    simp only [List.append_assoc]
  unfold folderHtml
  rw [front, grouped, entryMarks]
  exact (((details.append summary).append list).append read).append closed

theorem readAs_listing_of {children : List (Text × Trie Text Text)}
    (each : ∀ p ∈ children, ∀ key, '<' ∉ key → PlainEntry p.2 →
      ReadAs (entryHtml key p.2) (entryMarks key p.2))
    (plain : PlainListing children) : ReadAs (listingHtml children) (listingMarks children) := by
  induction children with
  | nil => exact ⟨[], Marked.nil, rfl⟩
  | cons p children ih =>
      obtain ⟨key, t⟩ := p
      obtain ⟨name, entry, rest⟩ := plain
      obtain ⟨here, later⟩ := List.forall_mem_cons.mp each
      exact (here key name entry).append (ih later rest)

theorem readAs_entryHtml (t : Trie Text Text) (key : Text) (name : '<' ∉ key)
    (plain : PlainEntry t) : ReadAs (entryHtml key t) (entryMarks key t) := by
  induction t using Trie.induct generalizing key with
  | leaf id => exact readAs_fileHtml name plain
  | node children ih => exact readAs_folderHtml name (readAs_listing_of ih plain)

/-- A listing with plain names is read as what it lists. -/
theorem readAs_listing {children : List (Text × Trie Text Text)} (plain : PlainListing children) :
    ReadAs (listingHtml children) (listingMarks children) :=
  readAs_listing_of (fun p _ => readAs_entryHtml p.2) plain

/-! ## The order of the properties -/

theorem enumerate_map {α β : Type} (f : Text × α → β) (props : List (Text × α)) :
    enumerate (props.map fun p => (p.1, f p)) = (enumerate props).map fun p => (p.1, f p) := by
  rw [enumerate, enumerate, List.map_append, List.filter_map, List.filter_map]
  congr 1
  exact (List.map_insertionSort (fun p q : Text × α => indexValue p.1 ≤ indexValue q.1)
    (fun p q : Text × β => indexValue p.1 ≤ indexValue q.1) (fun p => (p.1, f p)) _
    fun _ _ _ _ => Iff.rfl).symm

mutual

/-- The trie in the order in which it is printed, with the paths as ids. -/
def arranged : Trie Text DiffLog → Trie Text Text
  | .leaf log => .leaf log.path
  | .node children => .node (enumerate (arrangedBelow children))

def arrangedBelow : List (Text × Trie Text DiffLog) → List (Text × Trie Text Text)
  | [] => []
  | (key, t) :: children => (key, arranged t) :: arrangedBelow children

end

theorem arrangedBelow_eq (children : List (Text × Trie Text DiffLog)) :
    arrangedBelow children = children.map fun p => (p.1, arranged p.2) := by
  induction children with
  | nil => simp [arrangedBelow]
  | cons p children ih =>
      obtain ⟨key, t⟩ := p
      rw [arrangedBelow, ih, List.map_cons]

/-- The entry with the path instead of the log. -/
def withPath (e : List Text × DiffLog) : List Text × Text := (e.1, e.2.path)

theorem entries_arrangedBelow {children : List (Text × Trie Text DiffLog)}
    (each : ∀ p ∈ children, (arranged p.2).entries.Perm (p.2.entries.map withPath)) :
    (entriesBelow (enumerate (arrangedBelow children))).Perm ((entriesBelow children).map withPath) := by
  have reordered : (entriesBelow (enumerate (arrangedBelow children))).Perm
      (entriesBelow (arrangedBelow children)) := by
    simp only [entriesBelow_eq]
    exact (enumerate_perm _).flatMap_right _
  refine reordered.trans ?_
  rw [arrangedBelow_eq, entriesBelow_eq, entriesBelow_eq, List.flatMap_map, List.map_flatMap]
  refine List.Perm.flatMap_left _ fun p member => ?_
  simpa [withPath, Function.comp_def] using (each p member).map fun e => (p.1 :: e.1, e.2)

theorem entries_arranged (t : Trie Text DiffLog) :
    (arranged t).entries.Perm (t.entries.map withPath) := by
  induction t using Trie.induct with
  | leaf log => simp [arranged, entries, withPath]
  | node children ih =>
      rw [arranged, entries, entries]
      exact entries_arrangedBelow ih

theorem nodes_arrangedBelow {children : List (Text × Trie Text DiffLog)}
    (each : ∀ p ∈ children, (arranged p.2).nodes.Perm p.2.nodes) :
    (nodesBelow (enumerate (arrangedBelow children))).Perm (nodesBelow children) := by
  have reordered : (nodesBelow (enumerate (arrangedBelow children))).Perm
      (nodesBelow (arrangedBelow children)) := by
    simp only [nodesBelow_eq]
    exact (enumerate_perm _).flatMap_right _
  refine reordered.trans ?_
  rw [arrangedBelow_eq, nodesBelow_eq, nodesBelow_eq, List.flatMap_map]
  exact List.Perm.flatMap_left _ fun p member => (each p member).map (p.1 :: ·)

theorem nodes_arranged (t : Trie Text DiffLog) : (arranged t).nodes.Perm t.nodes := by
  induction t using Trie.induct with
  | leaf log => simp [arranged, nodes]
  | node children ih =>
      rw [arranged, nodes, nodes]
      exact (nodes_arrangedBelow ih).cons []

/-! ## What is printed -/

theorem htmlPieces_fileValues (children : List (Text × Trie Text DiffLog)) :
    htmlPieces (fileValues children) =
      children.map fun p => (p.1, (fileValue p.2).html p.1) := by
  induction children with
  | nil => simp [fileValues, htmlPieces]
  | cons p children ih =>
      obtain ⟨key, t⟩ := p
      rw [fileValues, htmlPieces, ih, List.map_cons]

/-- The tree is printed child by child. -/
theorem generateHtmlTree_fileValues (children : List (Text × Trie Text DiffLog)) :
    generateHtmlTree (fileValues children) =
      (enumerate children).flatMap fun p => (fileValue p.2).html p.1 := by
  rw [generateHtmlTree, htmlPieces_fileValues, enumerate_map, List.flatMap_map]

theorem html_leaf (key : Text) (log : DiffLog) :
    (fileValue (.leaf log)).html key = fileHtml key log.path := by
  rw [fileValue, fileEntry, TreeValue.html, if_pos (by rfl)]
  rfl

theorem isFileNode_fileValues (children : List (Text × Trie Text DiffLog)) :
    isFileNode (fileValues children) = (child children "isFile".toList).isSome := by
  rw [isFileNode, property_fileValues]
  cases child children "isFile".toList with
  | none => rfl
  | some t => cases t <;> rfl

/-- A directory is taken for a file when it has an entry called `isFile`. -/
theorem html_node (key : Text) (children : List (Text × Trie Text DiffLog)) :
    (fileValue (.node children)).html key =
      if (child children "isFile".toList).isSome then
        fileHtml key (pathText (fileValues children))
      else folderHtml key (generateHtmlTree (fileValues children)) := by
  rw [fileValue, TreeValue.html, isFileNode_fileValues]
  rfl

/-- The id it is given then is one of two. -/
theorem pathText_fileValues (children : List (Text × Trie Text DiffLog)) :
    pathText (fileValues children) = "undefined".toList ∨
      pathText (fileValues children) = "[object Object]".toList := by
  rw [pathText, property_fileValues]
  cases child children "path".toList with
  | none => exact .inl rfl
  | some t => cases t <;> exact .inr rfl

mutual

/-- The listing that is printed for a trie. -/
def printed : Trie Text DiffLog → Trie Text Text
  | .leaf log => .leaf log.path
  | .node children =>
      if (child children "isFile".toList).isSome then .leaf (pathText (fileValues children))
      else .node (enumerate (printedBelow children))

def printedBelow : List (Text × Trie Text DiffLog) → List (Text × Trie Text Text)
  | [] => []
  | (key, t) :: children => (key, printed t) :: printedBelow children

end

theorem printedBelow_eq (children : List (Text × Trie Text DiffLog)) :
    printedBelow children = children.map fun p => (p.1, printed p.2) := by
  induction children with
  | nil => simp [printedBelow]
  | cons p children ih =>
      obtain ⟨key, t⟩ := p
      rw [printedBelow, ih, List.map_cons]

theorem mem_printedBelow {children : List (Text × Trie Text DiffLog)} {q : Text × Trie Text Text} :
    q ∈ enumerate (printedBelow children) ↔ ∃ p ∈ children, (p.1, printed p.2) = q := by
  rw [(enumerate_perm _).mem_iff, printedBelow_eq, List.mem_map]

theorem listingHtml_eq (listing : List (Text × Trie Text Text)) :
    listingHtml listing = listing.flatMap fun p => entryHtml p.1 p.2 := by
  induction listing with
  | nil => simp [listingHtml]
  | cons p listing ih =>
      obtain ⟨key, t⟩ := p
      rw [listingHtml, ih, List.flatMap_cons]

theorem generateHtmlTree_of {children : List (Text × Trie Text DiffLog)}
    (each : ∀ p ∈ children, ∀ key, (fileValue p.2).html key = entryHtml key (printed p.2)) :
    generateHtmlTree (fileValues children) = listingHtml (enumerate (printedBelow children)) := by
  rw [generateHtmlTree_fileValues, listingHtml_eq, printedBelow_eq, enumerate_map, List.flatMap_map]
  exact List.flatMap_congr fun p there => each p ((enumerate_perm children).subset there) p.1

theorem html_fileValue (t : Trie Text DiffLog) (key : Text) :
    (fileValue t).html key = entryHtml key (printed t) := by
  induction t using Trie.induct generalizing key with
  | leaf log => rw [html_leaf, printed, entryHtml]
  | node children ih =>
      rw [html_node, printed]
      split
      · rw [entryHtml]
      · rw [entryHtml, generateHtmlTree_of ih]

theorem generateHtmlTree_eq (children : List (Text × Trie Text DiffLog)) :
    generateHtmlTree (fileValues children) = listingHtml (enumerate (printedBelow children)) :=
  generateHtmlTree_of fun p _ => html_fileValue p.2

/-! ## Directories that are taken for files -/

/-- No name on the way to an entry is `isFile`. -/
def Clear (t : Trie Text DiffLog) : Prop := ∀ e ∈ t.entries, "isFile".toList ∉ e.1

theorem clear_node {children : List (Text × Trie Text DiffLog)} (sound : SoundBelow children) :
    Clear (.node children) ↔
      child children "isFile".toList = none ∧ ∀ p ∈ children, Clear p.2 := by
  rw [Clear, entries]
  constructor
  · intro clear
    constructor
    · cases there : child children "isFile".toList with
      | none => rfl
      | some t =>
          obtain ⟨front, back, rfl, -⟩ := exists_split_of_child there
          obtain ⟨e, entry⟩ := (sound.each ("isFile".toList, t) (by simp)).exists_entry
          have place := clear ("isFile".toList :: e.1, e.2)
            (mem_entriesBelow.mpr ⟨_, t, e.1, by simp, entry, rfl⟩)
          exact absurd List.mem_cons_self place
    · intro p there e entry inside
      exact clear (p.1 :: e.1, e.2) (mem_entriesBelow.mpr ⟨p.1, p.2, e.1, there, entry, rfl⟩)
        (List.mem_cons_of_mem _ inside)
  · rintro ⟨absent, each⟩ e entry inside
    obtain ⟨key, t, r, there, below, place⟩ := mem_entriesBelow.mp entry
    rw [place] at inside
    cases List.mem_cons.mp inside with
    | inl here =>
        apply key_not_mem_of_absent absent
        rw [here]
        exact List.mem_map_of_mem there
    | inr deeper => exact each (key, t) there _ below deeper

theorem printedBelow_of {children : List (Text × Trie Text DiffLog)}
    (each : ∀ p ∈ children, printed p.2 = arranged p.2) :
    printedBelow children = arrangedBelow children := by
  rw [printedBelow_eq, arrangedBelow_eq]
  exact List.map_congr_left fun p there => by rw [each p there]

/-- Where no directory is taken for a file, the listing is the one that is wanted. -/
theorem printed_of_clear {t : Trie Text DiffLog} (sound : t.Sound) (clear : Clear t) :
    printed t = arranged t := by
  induction sound with
  | leaf log => rw [printed, arranged]
  | @node children nonempty distinct each ih =>
      obtain ⟨absent, below⟩ := (clear_node ⟨distinct, each⟩).mp clear
      rw [printed, arranged, absent, if_neg (by simp),
        printedBelow_of fun p there => ih p there (below p there)]

/-- Otherwise it has an id that is too short for a path. -/
theorem short_of_not_clear {t : Trie Text DiffLog} (sound : t.Sound) (clash : ¬ Clear t) :
    ∃ e ∈ (printed t).entries, e.2.length ≤ 15 := by
  induction sound with
  | leaf log => exact absurd (by simp [Clear, entries]) clash
  | @node children nonempty distinct each ih =>
      rw [clear_node ⟨distinct, each⟩, not_and_or] at clash
      rw [printed]
      split
      · have short : (pathText (fileValues children)).length ≤ 15 := by
          cases pathText_fileValues children with
          | inl same => rw [same]; decide
          | inr same => rw [same]; decide
        exact ⟨([], _), List.mem_singleton_self _, short⟩
      · rename_i absent
        have deeper := clash.resolve_left (by simpa using absent)
        push Not at deeper
        obtain ⟨p, there, unclear⟩ := deeper
        obtain ⟨e, entry, short⟩ := ih p there unclear
        refine ⟨(p.1 :: e.1, e.2), ?_, short⟩
        rw [entries]
        exact mem_entriesBelow.mpr
          ⟨p.1, printed p.2, e.1, mem_printedBelow.mpr ⟨p, there, rfl⟩, entry, rfl⟩

/-! ## Plain names -/

/-- An entry with a plain path at a plain place. -/
def PlainLog (e : List Text × DiffLog) : Prop := PlainName e.2.path ∧ ∀ part ∈ e.1, '<' ∉ part

theorem plainListing_of {children : List (Text × Trie Text DiffLog)} (sound : SoundBelow children)
    (each : ∀ p ∈ children, (∀ e ∈ p.2.entries, PlainLog e) → PlainEntry (printed p.2))
    (plain : ∀ e ∈ entriesBelow children, PlainLog e) :
    PlainListing (enumerate (printedBelow children)) := by
  rw [plainListing_iff]
  intro q member
  obtain ⟨p, there, rfl⟩ := mem_printedBelow.mp member
  have below : ∀ e ∈ p.2.entries, PlainLog (p.1 :: e.1, e.2) := fun e entry =>
    plain _ (mem_entriesBelow.mpr ⟨p.1, p.2, e.1, there, entry, rfl⟩)
  constructor
  · obtain ⟨e, entry⟩ := (sound.each p there).exists_entry
    exact (below e entry).2 p.1 List.mem_cons_self
  · exact each p there fun e entry =>
      ⟨(below e entry).1, fun part inside => (below e entry).2 part (List.mem_cons_of_mem _ inside)⟩

/-- A trie of plain paths is printed with plain names, also where a directory is taken for a
    file. -/
theorem plainEntry_printed {t : Trie Text DiffLog} (sound : t.Sound)
    (plain : ∀ e ∈ t.entries, PlainLog e) : PlainEntry (printed t) := by
  induction sound with
  | leaf log =>
      rw [printed, PlainEntry]
      exact (plain ([], log) (by simp [entries])).1
  | @node children nonempty distinct each ih =>
      rw [printed]
      split
      · rw [PlainEntry]
        cases pathText_fileValues children with
        | inl same => rw [same]; decide
        | inr same => rw [same]; decide
      · rw [PlainEntry]
        exact plainListing_of ⟨distinct, each⟩ ih plain

theorem plainListing_printed {children : List (Text × Trie Text DiffLog)}
    (sound : SoundBelow children) (plain : ∀ e ∈ entriesBelow children, PlainLog e) :
    PlainListing (enumerate (printedBelow children)) :=
  plainListing_of sound (fun p there => plainEntry_printed (sound.each p there)) plain

/-! ## Every file once -/

/-- The listing that is wanted has the right entries, whatever they are called. -/
theorem shows_arranged {logs : List DiffLog} {children : List (Text × Trie Text DiffLog)}
    (sound : SoundBelow children)
    (entries : (entriesBelow children).Perm (logs.map fun log => (shownParts log.path, log))) :
    (entriesBelow (enumerate (arrangedBelow children))).Perm
        (logs.map fun log => (shownParts log.path, log.path)) ∧
      (nodesBelow (enumerate (arrangedBelow children))).Nodup ∧
      ∀ place, place ∈ nodesBelow (enumerate (arrangedBelow children)) ↔ IsDirectory logs place := by
  have nodes := nodes_arrangedBelow fun (p : Text × Trie Text DiffLog) (_ : p ∈ children) =>
    nodes_arranged p.2
  refine ⟨?_, nodes.nodup_iff.mpr sound.nodup_nodes, fun place => ?_⟩
  · refine (entries_arrangedBelow fun p _ => entries_arranged p.2).trans ?_
    simpa [withPath, Function.comp_def] using entries.map withPath
  · rw [nodes.mem_iff, sound.mem_nodes, IsDirectory]
    refine and_congr_right fun _ => ?_
    simp only [entries.mem_iff, List.mem_map]
    constructor
    · rintro ⟨_, ⟨log, member, rfl⟩, above⟩
      exact ⟨log, member, above⟩
    · rintro ⟨log, member, above⟩
      exact ⟨_, ⟨log, member, rfl⟩, above⟩

theorem DiffPaths.long {logs : List DiffLog} (paths : DiffPaths logs) {log : DiffLog}
    (member : log ∈ logs) : 15 < log.path.length := by
  have enough : 15 < (kernelDirPath ++ ['/']).length := by decide
  exact enough.trans_le (paths.inside log member).length_le

/-- A path is as plain as its parts. -/
theorem DiffPaths.plain_iff {logs : List DiffLog} (paths : DiffPaths logs) {log : DiffLog}
    (member : log ∈ logs) :
    '<' ∉ log.path ↔ ∀ part ∈ shownParts log.path, '<' ∉ part := by
  obtain ⟨rest, whole⟩ := paths.inside log member
  have front : '<' ∉ kernelDirPath ++ ['/'] := by decide
  have behind : '<' ∈ log.path ↔ '<' ∈ rest := by
    rw [← whole, List.mem_append]
    exact or_iff_right front
  have parts : '<' ∈ rest ↔ ∃ part ∈ rest.splitOn '/', '<' ∈ part := by
    rw [← mem_intercalate (by decide : '<' ≠ '/'), List.intercalate_splitOn]
  rw [behind, parts, ← whole, List.append_assoc, List.singleton_append, shownParts_inside]
  push Not
  rfl

/-- If the entries of the listing are the files, no directory was taken for one. -/
theorem clear_of_perm {logs : List DiffLog} {children : List (Text × Trie Text DiffLog)}
    (paths : DiffPaths logs) (sound : SoundBelow children)
    (files : (entriesBelow (enumerate (printedBelow children))).Perm
      (logs.map fun log => (shownParts log.path, log.path))) : ∀ p ∈ children, Clear p.2 := by
  intro p there
  by_contra clash
  obtain ⟨e, entry, short⟩ := short_of_not_clear (sound.each p there) clash
  have listed := files.subset (mem_entriesBelow.mpr
    ⟨p.1, printed p.2, e.1, mem_printedBelow.mpr ⟨p, there, rfl⟩, entry, rfl⟩ :
      (p.1 :: e.1, e.2) ∈ _)
  obtain ⟨log, member, same⟩ := List.mem_map.mp listed
  have long := paths.long member
  rw [(Prod.mk.inj same).2] at long
  omega

section Built

variable {logs : List DiffLog} {children : List (Text × Trie Text DiffLog)}
  (entries : (entriesBelow children).Perm (logs.map fun log => (shownParts log.path, log)))

include entries

/-- An entry of the tree is a log, at the place of its path. -/
theorem log_of_entry {p : Text × Trie Text DiffLog} (there : p ∈ children) {e : List Text × DiffLog}
    (below : e ∈ p.2.entries) : e.2 ∈ logs ∧ shownParts e.2.path = p.1 :: e.1 := by
  have found := entries.subset (mem_entriesBelow.mpr ⟨p.1, p.2, e.1, there, below, rfl⟩ :
    (p.1 :: e.1, e.2) ∈ entriesBelow children)
  obtain ⟨log, member, same⟩ := List.mem_map.mp found
  rw [Prod.mk.injEq] at same
  exact ⟨same.2 ▸ member, same.2 ▸ same.1⟩

/-- The names that are looked up are those behind the first one of a path. -/
theorem clear_children_iff :
    (∀ p ∈ children, Clear p.2) ↔
      ∀ log ∈ logs, "isFile".toList ∉ (shownParts log.path).tail := by
  constructor
  · intro each log member
    have found : (shownParts log.path, log) ∈ entriesBelow children :=
      entries.mem_iff.mpr (List.mem_map_of_mem member)
    obtain ⟨key, t, r, there, below, place⟩ := mem_entriesBelow.mp found
    rw [show shownParts log.path = key :: r from place]
    exact each (key, t) there _ below
  · intro names p there e below
    obtain ⟨member, place⟩ := log_of_entry entries there below
    simpa [place] using names e.2 member

/-- Where the paths are plain, what is read is the listing that was printed. -/
theorem readAs_generateHtmlTree (paths : DiffPaths logs) (sound : SoundBelow children)
    (plain : ∀ log ∈ logs, PlainName log.path) :
    ReadAs (generateHtmlTree (fileValues children))
      (listingMarks (enumerate (printedBelow children))) := by
  rw [generateHtmlTree_eq]
  refine readAs_listing (plainListing_printed sound fun e entry => ?_)
  obtain ⟨log, member, rfl⟩ := List.mem_map.mp (entries.subset entry)
  exact ⟨plain log member, (paths.plain_iff member).mp (plain log member).1⟩

end Built

theorem showsOnce_of_clear {logs : List DiffLog} (paths : DiffPaths logs)
    (each : ∀ log ∈ logs, "isFile".toList ∉ (shownParts log.path).tail ∧ PlainName log.path) :
    ∃ tree, createPathTree logs = some tree ∧ ShowsOnce logs (generateHtmlTree tree) := by
  obtain ⟨children, built, sound, entries⟩ := paths.exists_trie
  have clear := (clear_children_iff entries).mpr fun log member => (each log member).1
  obtain ⟨found, marked, marks⟩ :=
    readAs_generateHtmlTree entries paths sound fun log member => (each log member).2
  rw [printedBelow_of fun p there => printed_of_clear (sound.each p there) (clear p there)] at marks
  exact ⟨_, built, found, _, marked, marks, shows_arranged sound entries⟩

/-- Every file of a comparison is shown once, and every directory, exactly when no name
    behind the first one on the way to a file is `isFile`, and no path has a quote or a `<`
    in it. -/
theorem showsOnce_iff {logs : List DiffLog} (paths : DiffPaths logs) :
    (∃ tree, createPathTree logs = some tree ∧ ShowsOnce logs (generateHtmlTree tree)) ↔
      ∀ log ∈ logs, "isFile".toList ∉ (shownParts log.path).tail ∧ PlainName log.path := by
  refine ⟨?_, showsOnce_of_clear paths⟩
  rintro ⟨tree, isTree, found, listing, marked, marks, files, -, -⟩
  obtain ⟨children, built, sound, entries⟩ := paths.exists_trie
  rw [built] at isTree
  cases isTree
  -- What is read is plain, so the listing that is read is the one that was printed.
  have plain : ∀ log ∈ logs, PlainName log.path := by
    intro log member
    obtain ⟨quoted, names⟩ := plain_of_marked marked marks
      (files.mem_iff.mpr (List.mem_map_of_mem member) : (shownParts log.path, log.path) ∈ _)
    exact ⟨(paths.plain_iff member).mpr names, quoted⟩
  obtain ⟨found', marked', marks'⟩ := readAs_generateHtmlTree entries paths sound plain
  obtain rfl := marked.unique marked'
  obtain rfl := listingMarks_injective (marks.symm.trans marks')
  have clear := (clear_children_iff entries).mp (clear_of_perm paths sound files)
  exact fun log member => ⟨clear log member, plain log member⟩

theorem showsOnce_twoLogs :
    ∃ tree, createPathTree twoLogs = some tree ∧ ShowsOnce twoLogs (generateHtmlTree tree) :=
  (showsOnce_iff diffPaths_twoLogs).mpr (by decide +kernel)

/-- A file called `isFile` next to another one. -/
def isFileLogs : List DiffLog :=
  [⟨kernelDirPath ++ "/V1/fs/inode.c".toList, []⟩, ⟨kernelDirPath ++ "/V1/fs/isFile".toList, []⟩]

theorem diffPaths_isFileLogs : DiffPaths isFileLogs where
  distinct := by decide +kernel
  inside := by decide +kernel
  files := by decide +kernel

/-- A file with a quote in its name. -/
def quotedLogs : List DiffLog := [⟨kernelDirPath ++ "/V1/a\"b.c".toList, []⟩]

theorem diffPaths_quotedLogs : DiffPaths quotedLogs where
  distinct := by decide +kernel
  inside := by decide +kernel
  files := by decide +kernel

/-- The directory of the two is shown as a file with the id `undefined`, and neither of them is
    shown. The id of the third file ends at the quote. -/
theorem directory_shown_as_file :
    ((createPathTree isFileLogs).map generateHtmlTree =
        some (folderHtml "V1".toList (fileHtml "fs".toList "undefined".toList)) ∧
      ¬ ∃ tree, createPathTree isFileLogs = some tree ∧
        ShowsOnce isFileLogs (generateHtmlTree tree)) ∧
    ((createPathTree quotedLogs).map fun tree => (tags (generateHtmlTree tree)).filterMap liId) =
        some [kernelDirPath ++ "/V1/a".toList] ∧
      ¬ ∃ tree, createPathTree quotedLogs = some tree ∧
        ShowsOnce quotedLogs (generateHtmlTree tree) := by
  refine ⟨⟨by decide +kernel, fun shown => ?_⟩, by decide +kernel, fun shown => ?_⟩
  · exact absurd ((showsOnce_iff diffPaths_isFileLogs).mp shown) (by decide +kernel)
  · exact absurd ((showsOnce_iff diffPaths_quotedLogs).mp shown) (by decide +kernel)

end OslabProfiler.Server
