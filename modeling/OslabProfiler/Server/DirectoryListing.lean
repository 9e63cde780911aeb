import OslabProfiler.Lib.Tags
import OslabProfiler.Server.Versions

/-! # The listing of one version

With one version `/getDirectoryJSON` should send the whole source tree: every file as an
`li` with its path, and every directory as a `details`. The walk over the tree begins with a
test for a missing version, which takes any path for one unless the path begins with
`Vundefined`. No path that the endpoint builds does, so nothing is ever listed. Where the
test lets the walk through, the files and directories are all there, but every directory
closes an `li` that it has not opened.
-/

namespace OslabProfiler.Server

open Lib Lib.Tags

/-! ## The listing that is wanted -/

mutual

/-- The paths of the files of a tree. -/
def filePaths (filename : Text) : Tree → List Text
  | .file => [filename]
  | .dir entries => filePathsBelow filename entries

def filePathsBelow (filename : Text) : List (Text × Tree) → List Text
  | [] => []
  | (child, tree) :: entries =>
      filePaths (filename ++ "/".toList ++ child) tree ++ filePathsBelow filename entries

end

mutual

/-- The number of directories of a tree. -/
def folderCount : Tree → Nat
  | .file => 0
  | .dir entries => folderCountBelow entries + 1

def folderCountBelow : List (Text × Tree) → Nat
  | [] => 0
  | (_, tree) :: entries => folderCount tree + folderCountBelow entries

end

def listNames : List Text := ["details".toList, "ul".toList, "li".toList]

def isDetails (tag : Text) : Bool := tagName tag = "details".toList

/-- A text that lists a tree: one `li` for each file, with its path, one `details` for each
    directory, and all elements properly nested. -/
structure Complete (filename : Text) (tree : Tree) (html : Text) : Prop where
  files : ((tags html).filterMap liId).Perm (filePaths filename tree)
  folders : (tags html).countP isDetails = folderCount tree
  nested : Nested listNames (tags html)

/-- The reply is right: for a version it lists the tree that is found there, and the text for
    no version is sent only when there is none. -/
structure ListingRight (disk : Disk) (selected : Option Text) : Prop where
  lists : ∀ version tree, selected = some version →
    disk.lstat (linuxPath version) = some tree →
    ∃ html reads, getDirectoryJSON disk selected none = .listing html reads ∧
      Complete (linuxPath version) tree html
  onlyMissing : ∀ html reads, getDirectoryJSON disk selected none = .listing html reads →
    noVersionText <+: html → selected = none

/-- Without a second version the reply is the text for no version, whatever is on the disk and
    whichever version is selected. So it is right only when none is. -/
theorem single_listing (disk : Disk) (selected : Option Text) :
    getDirectoryJSON disk selected none = .listing (noVersionText ++ "</ul>".toList) [] ∧
      (ListingRight disk selected ↔ selected = none) := by
  have reply : getDirectoryJSON disk selected none =
      .listing (noVersionText ++ "</ul>".toList) [] := by
    have single : isNaNText none = true := rfl
    simp only [getDirectoryJSON, single, if_true, getDirectoryArchitecture_linuxPath]
  refine ⟨reply, fun right => ?_, fun missing => ⟨?_, fun _ _ _ _ => missing⟩⟩
  · exact right.onlyMissing _ _ reply (List.prefix_append _ _)
  · intro version tree present
    rw [missing] at present
    cases present

/-- The text for no version closes a list that is not open. -/
theorem noVersionText_not_nested : ¬ Nested listNames (tags (noVersionText ++ "</ul>".toList)) := by
  decide +kernel

/-- A tree with one file: the text for no version is sent, and it is no listing of the tree. -/
theorem makefile_not_listed :
    smallDisk.lstat (linuxPath "1".toList) = some (.dir [("Makefile".toList, .file)]) ∧
      getDirectoryJSON smallDisk (some "1".toList) none =
        .listing (noVersionText ++ "</ul>".toList) [] ∧
      (∀ html reads, getDirectoryJSON smallDisk (some "1".toList) none = .listing html reads →
        ¬ Complete (linuxPath "1".toList) (.dir [("Makefile".toList, .file)]) html) ∧
      ¬ ListingRight smallDisk (some "1".toList) := by
  have there : smallDisk.lstat (linuxPath "1".toList) =
      some (.dir [("Makefile".toList, .file)]) := by
    simp only [smallDisk, if_true]
  obtain ⟨reply, right⟩ := single_listing smallDisk (some "1".toList)
  refine ⟨there, reply, fun html reads sent complete => ?_, fun listed => ?_⟩
  · rw [reply] at sent
    cases sent
    exact noVersionText_not_nested complete.nested
  · cases right.mp listed

/-! ## The walk itself -/

theorem search_of_begins {pat : String} {str : Text} (begins : pat.toList <+: str) :
    search pat str = 0 := by
  rw [search, List.range_succ_eq_map, List.find?_cons_of_pos (by simpa using begins)]
  rfl

/-- What the walk writes for a file, -/
def fileText (filename : Text) : Text :=
  "<li id=\"".toList ++ filename ++ "\" onclick=\"selectFile(this.id)\">".toList ++
    basename filename ++ "</li>".toList

/-- and for a directory. -/
def folderText (filename inner : Text) : Text :=
  "<details close> <summary class=\"folder\">".toList ++ basename filename ++
    "</summary>".toList ++ "<ul>".toList ++ inner ++ "</ul></details>".toList ++ "</li>".toList

mutual

/-- What the walk writes for a tree. -/
def walkText (filename : Text) : Tree → Text
  | .file => fileText filename
  | .dir entries => folderText filename (walkTextBelow filename entries)

def walkTextBelow (filename : Text) : List (Text × Tree) → Text
  | [] => []
  | (child, tree) :: entries =>
      walkText (filename ++ "/".toList ++ child) tree ++ walkTextBelow filename entries

end

theorem write_twice (list a b c d e : Text) :
    list ++ (a ++ b ++ c ++ d) ++ e = list ++ (a ++ b ++ c ++ d ++ e) := by
  simp only [List.append_assoc]

theorem write_around (list a b c d e f g : Text) :
    list ++ (a ++ b ++ c) ++ d ++ e ++ f ++ g = list ++ (a ++ b ++ c ++ d ++ e ++ f ++ g) := by
  simp only [List.append_assoc]

mutual

/-- Behind the test, the walk writes the whole tree. -/
theorem listTree_eq {filename : Text} (begins : "Vundefined".toList <+: filename) (tree : Tree)
    (s : Listing) :
    (listTree filename tree s).1 = s.list ++ walkText filename tree ∧
      (listTree filename tree s).2.list = s.list ++ walkText filename tree := by
  have passes : ¬ search "Vundefined" filename ≠ 0 := not_not.mpr (search_of_begins begins)
  cases tree with
  | file =>
      rw [listTree, if_neg passes, walkText]
      exact ⟨write_twice _ _ _ _ _ _, write_twice _ _ _ _ _ _⟩
  | dir entries =>
      rw [listTree, if_neg passes, walkText]
      simp only [Listing.write]
      rw [listEntries_eq begins entries]
      exact ⟨write_around _ _ _ _ _ _ _ _, write_around _ _ _ _ _ _ _ _⟩

theorem listEntries_eq {filename : Text} (begins : "Vundefined".toList <+: filename)
    (entries : List (Text × Tree)) (s : Listing) :
    (listEntries filename entries s).list = s.list ++ walkTextBelow filename entries := by
  match entries with
  | [] => simp [listEntries, walkTextBelow]
  | (child, tree) :: entries =>
      have deeper : "Vundefined".toList <+: filename ++ "/".toList ++ child := by
        rw [List.append_assoc]
        exact begins.trans (List.prefix_append _ _)
      rw [listEntries, listEntries_eq begins entries, (listTree_eq deeper tree s).2, walkTextBelow,
        List.append_assoc]

end

/-! ## Its tags -/

mutual

def PlainTree : Tree → Prop
  | .file => True
  | .dir entries => PlainEntries entries

def PlainEntries : List (Text × Tree) → Prop
  | [] => True
  | (child, tree) :: entries => PlainName child ∧ PlainTree tree ∧ PlainEntries entries

end

theorem plainName_child {filename child : Text} (here : PlainName filename)
    (below : PlainName child) : PlainName (filename ++ "/".toList ++ child) := by
  constructor
  · simp [here.1, below.1]
  · simp [here.2, below.2]

theorem basename_plain {filename : Text} (plain : PlainName filename) :
    '<' ∉ basename filename := by
  intro found
  have word : IsWord (· = '/') ['<'] := by simp [IsWord]
  rw [basename] at found
  cases last : (tokens (· = '/') filename).getLast? with
  | none => simp [last] at found
  | some name =>
      rw [last, Option.getD_some, ← List.singleton_infix_iff] at found
      have inside := (infix_iff_tokens word filename).mpr ⟨name, List.mem_of_getLast? last, found⟩
      exact plain.1 ((List.singleton_infix_iff _ _).mp inside)

def liTag (filename : Text) : Text :=
  "li id=\"".toList ++ filename ++ "\" onclick=\"selectFile(this.id)\"".toList

def fileTags (filename : Text) : List Text := [liTag filename, "/li".toList]

def folderOpen : List Text :=
  ["details close".toList, "summary class=\"folder\"".toList, "/summary".toList, "ul".toList]

def folderClose : List Text := ["/ul".toList, "/details".toList, "/li".toList]

def folderTags (inner : List Text) : List Text := folderOpen ++ inner ++ folderClose

mutual

def walkTags (filename : Text) : Tree → List Text
  | .file => fileTags filename
  | .dir entries => folderTags (walkTagsBelow filename entries)

def walkTagsBelow (filename : Text) : List (Text × Tree) → List Text
  | [] => []
  | (child, tree) :: entries =>
      walkTags (filename ++ "/".toList ++ child) tree ++ walkTagsBelow filename entries

end

theorem whole_fileText {filename : Text} (plain : PlainName filename) :
    Whole (fileText filename) (fileTags filename) := by
  have opened : Whole ("<li id=\"".toList ++ filename ++
      "\" onclick=\"selectFile(this.id)\">".toList) [liTag filename] :=
    whole_quoted (by decide +kernel) plain.2 (by decide +kernel)
  have closed : Whole "</li>".toList ["/li".toList] := by decide +kernel
  exact (opened.append (whole_plain (basename_plain plain))).append closed

theorem whole_folderText {filename inner : Text} {found : List Text} (plain : PlainName filename)
    (below : Whole inner found) : Whole (folderText filename inner) (folderTags found) := by
  have opened : Whole "<details close> <summary class=\"folder\">".toList
      ["details close".toList, "summary class=\"folder\"".toList] := by decide +kernel
  have named : Whole "</summary>".toList ["/summary".toList] := by decide +kernel
  have list : Whole "<ul>".toList ["ul".toList] := by decide +kernel
  have closed : Whole "</ul></details>".toList ["/ul".toList, "/details".toList] := by
    decide +kernel
  have item : Whole "</li>".toList ["/li".toList] := by decide +kernel
  have front : Whole _ folderOpen :=
    ((opened.append (whole_plain (basename_plain plain))).append named).append list
  have parts := ((front.append below).append closed).append item
  rw [List.append_assoc _ _ ["/li".toList]] at parts
  exact parts

mutual

theorem whole_walkText {filename : Text} (plain : PlainName filename) (tree : Tree)
    (names : PlainTree tree) : Whole (walkText filename tree) (walkTags filename tree) := by
  cases tree with
  | file =>
      rw [walkText, walkTags]
      exact whole_fileText plain
  | dir entries =>
      rw [PlainTree] at names
      rw [walkText, walkTags]
      exact whole_folderText plain (whole_walkTextBelow plain entries names)

theorem whole_walkTextBelow {filename : Text} (plain : PlainName filename)
    (entries : List (Text × Tree)) (names : PlainEntries entries) :
    Whole (walkTextBelow filename entries) (walkTagsBelow filename entries) := by
  match entries with
  | [] =>
      rw [walkTextBelow, walkTagsBelow]
      exact Whole.nil
  | (child, tree) :: entries =>
      rw [PlainEntries] at names
      rw [walkTextBelow, walkTagsBelow]
      exact (whole_walkText (plainName_child plain names.1) tree names.2.1).append
        (whole_walkTextBelow plain entries names.2.2)

end

/-! ### Files and directories -/

theorem liId_liTag {filename : Text} (plain : PlainName filename) :
    liId (liTag filename) = some filename := by
  have name : tagName (liTag filename) = "li".toList := rfl
  rw [liId, if_pos name]
  exact congrArg some (takeWhile_quoted "li id=\"".toList
    " onclick=\"selectFile(this.id)\"".toList plain.2)

mutual

/-- The walk writes an `li` for each file, with its path, -/
theorem files_walkTags {filename : Text} (plain : PlainName filename) (tree : Tree)
    (names : PlainTree tree) :
    (walkTags filename tree).filterMap liId = filePaths filename tree := by
  cases tree with
  | file =>
      have closed : liId "/li".toList = none := by decide +kernel
      rw [walkTags, filePaths, fileTags, List.filterMap_cons_some (liId_liTag plain),
        List.filterMap_cons_none closed, List.filterMap_nil]
  | dir entries =>
      rw [PlainTree] at names
      have before : folderOpen.filterMap liId = [] := by decide +kernel
      have behind : folderClose.filterMap liId = [] := by decide +kernel
      rw [walkTags, filePaths, folderTags, List.filterMap_append, List.filterMap_append, before,
        behind, files_walkTagsBelow plain entries names, List.nil_append, List.append_nil]

theorem files_walkTagsBelow {filename : Text} (plain : PlainName filename)
    (entries : List (Text × Tree)) (names : PlainEntries entries) :
    (walkTagsBelow filename entries).filterMap liId = filePathsBelow filename entries := by
  match entries with
  | [] => rw [walkTagsBelow, filePathsBelow, List.filterMap_nil]
  | (child, tree) :: entries =>
      rw [PlainEntries] at names
      rw [walkTagsBelow, filePathsBelow, List.filterMap_append,
        files_walkTags (plainName_child plain names.1) tree names.2.1,
        files_walkTagsBelow plain entries names.2.2]

end

mutual

/-- and a `details` for each directory. -/
theorem folders_walkTags (filename : Text) (tree : Tree) :
    (walkTags filename tree).countP isDetails = folderCount tree := by
  cases tree with
  | file =>
      have item : isDetails (liTag filename) = false := rfl
      have closed : isDetails "/li".toList = false := by decide +kernel
      rw [walkTags, folderCount, fileTags,
        List.countP_cons_of_neg (Bool.eq_false_iff.mp item),
        List.countP_cons_of_neg (Bool.eq_false_iff.mp closed), List.countP_nil]
  | dir entries =>
      have before : folderOpen.countP isDetails = 1 := by decide +kernel
      have behind : folderClose.countP isDetails = 0 := by decide +kernel
      rw [walkTags, folderCount, folderTags, List.countP_append, List.countP_append, before, behind,
        folders_walkTagsBelow filename entries, Nat.add_zero, Nat.add_comm]

theorem folders_walkTagsBelow (filename : Text) (entries : List (Text × Tree)) :
    (walkTagsBelow filename entries).countP isDetails = folderCountBelow entries := by
  match entries with
  | [] => rw [walkTagsBelow, folderCountBelow, List.countP_nil]
  | (child, tree) :: entries =>
      rw [walkTagsBelow, folderCountBelow, List.countP_append, folders_walkTags _ tree,
        folders_walkTagsBelow filename entries]

end

/-! ### Nesting -/

theorem nest_fileTags (filename : Text) (stack : List Text) :
    nest listNames stack (fileTags filename) = some stack := rfl

def isFolder : Tree → Bool
  | .file => false
  | .dir _ => true

/-- A directory is written in a list, and closes an item there that it did not open. -/
theorem nest_folderTags {inner stack : List Text}
    (below : ∀ stack, nest listNames ("ul".toList :: stack) inner = some ("ul".toList :: stack) ∨
      nest listNames ("ul".toList :: stack) inner = none) :
    nest listNames ("ul".toList :: stack) (folderTags inner) = none := by
  have before : nest listNames ("ul".toList :: stack) folderOpen =
      some ("ul".toList :: "details".toList :: "ul".toList :: stack) := rfl
  have behind : nest listNames ("ul".toList :: "details".toList :: "ul".toList :: stack)
      folderClose = none := rfl
  rw [folderTags, nest_append, nest_append, before, Option.bind_some]
  cases below ("details".toList :: "ul".toList :: stack) with
  | inl kept => rw [kept, Option.bind_some, behind]
  | inr failed => rw [failed, Option.bind_none]

mutual

theorem nest_walkTags (filename : Text) (tree : Tree) (stack : List Text) :
    nest listNames ("ul".toList :: stack) (walkTags filename tree) =
      if isFolder tree then none else some ("ul".toList :: stack) := by
  cases tree with
  | file =>
      rw [walkTags]
      exact nest_fileTags filename _
  | dir entries =>
      rw [walkTags]
      exact nest_folderTags (nest_walkTagsBelow filename entries)

theorem nest_walkTagsBelow (filename : Text) (entries : List (Text × Tree)) (stack : List Text) :
    nest listNames ("ul".toList :: stack) (walkTagsBelow filename entries) =
        some ("ul".toList :: stack) ∨
      nest listNames ("ul".toList :: stack) (walkTagsBelow filename entries) = none := by
  match entries with
  | [] =>
      rw [walkTagsBelow]
      exact .inl rfl
  | (child, tree) :: entries =>
      rw [walkTagsBelow, nest_append, nest_walkTags _ tree]
      cases isFolder tree with
      | true => exact .inr rfl
      | false => exact nest_walkTagsBelow filename entries stack

end

/-! ### The reply behind the test -/

/-- The reply for a path that passes the test. -/
def walkReply (filename : Text) (tree : Tree) : Text :=
  (listTree filename tree ⟨"<ul>".toList, []⟩).1 ++ "</ul>".toList

theorem tags_walkReply {filename : Text} (begins : "Vundefined".toList <+: filename)
    (plain : PlainName filename) {tree : Tree} (names : PlainTree tree) :
    tags (walkReply filename tree) =
      ["ul".toList] ++ walkTags filename tree ++ ["/ul".toList] := by
  have opened : Whole "<ul>".toList ["ul".toList] := by decide +kernel
  have closed : Whole "</ul>".toList ["/ul".toList] := by decide +kernel
  rw [walkReply, (listTree_eq begins tree ⟨"<ul>".toList, []⟩).1]
  exact ((opened.append (whole_walkText plain tree names)).append closed).tags_eq

/-- The elements are nested only if there is no directory. -/
theorem nested_walkTags_iff (filename : Text) (tree : Tree) :
    Nested listNames (["ul".toList] ++ walkTags filename tree ++ ["/ul".toList]) ↔
      tree = .file := by
  have enter : nest listNames [] ["ul".toList] = some ["ul".toList] := rfl
  have leave : nest listNames ["ul".toList] ["/ul".toList] = some [] := rfl
  rw [Nested, nest_append, nest_append, enter, Option.bind_some, nest_walkTags]
  cases tree with
  | file => exact iff_of_true leave rfl
  | dir entries => exact iff_of_false (by simp [isFolder]) (by simp)

/-- Where the test lets the walk through, all files and all directories are listed, but the
    listing of a directory is still not right: the test is not the only mistake. -/
theorem walkReply_complete_iff {filename : Text} (begins : "Vundefined".toList <+: filename)
    (plain : PlainName filename) {tree : Tree} (names : PlainTree tree) :
    (tags (walkReply filename tree)).filterMap liId = filePaths filename tree ∧
      (tags (walkReply filename tree)).countP isDetails = folderCount tree ∧
      (Complete filename tree (walkReply filename tree) ↔ tree = .file) := by
  have found := tags_walkReply begins plain names
  have files : (tags (walkReply filename tree)).filterMap liId = filePaths filename tree := by
    have outer : ["ul".toList].filterMap liId = [] ∧ ["/ul".toList].filterMap liId = [] := by
      decide +kernel
    rw [found, List.filterMap_append, List.filterMap_append, files_walkTags plain tree names,
      outer.1, outer.2, List.nil_append, List.append_nil]
  have folders : (tags (walkReply filename tree)).countP isDetails = folderCount tree := by
    have outer : List.countP isDetails ["ul".toList] = 0 ∧
        List.countP isDetails ["/ul".toList] = 0 := by decide +kernel
    rw [found, List.countP_append, List.countP_append, folders_walkTags, outer.1, outer.2,
      Nat.zero_add, Nat.add_zero]
  refine ⟨files, folders, ?_, ?_⟩
  · intro complete
    exact (nested_walkTags_iff filename tree).mp (found ▸ complete.nested)
  · intro single
    exact ⟨.of_eq files, folders, found ▸ (nested_walkTags_iff filename tree).mpr single⟩

end OslabProfiler.Server
