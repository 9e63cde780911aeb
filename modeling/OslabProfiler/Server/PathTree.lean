import OslabProfiler.Server.DiffLog
import Mathlib.Data.List.Sort

/-! # The tree of changed files

`/getDirectoryJSON` shows the files of a comparison as a tree. `createPathTree` puts
every path, from behind `kernel_management` on, into nested objects, and
`generateHtmlTree` prints them. An object is the list of its properties in the
order in which they were made. Names that every object inherits are not modelled.
-/

namespace OslabProfiler.Server

open Lib

inductive TreeValue where
  | text (t : Text)
  | flag
  | lines (ls : List Text)
  | object (props : List (Text × TreeValue))

def property (props : List (Text × TreeValue)) (key : Text) : Option TreeValue :=
  (props.find? fun p => p.1 = key).map (·.2)

/-- Assign to a property; a new one comes last. -/
def setProperty : List (Text × TreeValue) → Text → TreeValue → List (Text × TreeValue)
  | [], key, value => [(key, value)]
  | (k, old) :: props, key, value =>
      if k = key then (key, value) :: props else (k, old) :: setProperty props key value

/-- `{ isFile: true, path: path, diffData: diffData }`. -/
def fileEntry (log : DiffLog) : TreeValue :=
  .object [("isFile".toList, .flag), ("path".toList, .text log.path),
    ("diffData".toList, .lines log.diffdata)]

/-- Go down along the parts, making the objects that are missing, and put the file at the
    last one. `none` is a path that leads into the fields of a file entry. -/
def place (file : TreeValue) :
    List Text → List (Text × TreeValue) → Option (List (Text × TreeValue))
  | [], props => some props
  | [part], props => some (setProperty props part file)
  | part :: rest, props =>
      match property props part with
      | none => (place file rest []).map fun inner => setProperty props part (.object inner)
      | some (.object old) =>
          (place file rest old).map fun inner => setProperty props part (.object inner)
      | some _ => none

/-- The parts of a path behind the first `kernel_management`. -/
def shownParts (path : Text) : List Text :=
  ((path.splitOn '/').dropWhile (· ≠ "kernel_management".toList)).drop 1

def createPathTree (paths : List DiffLog) : Option (List (Text × TreeValue)) :=
  paths.foldlM (fun tree log => place (fileEntry log) (shownParts log.path) tree) []

/-! ## Printing -/

def indexValue (key : Text) : Nat := key.foldl (fun n c => n * 10 + (c.toNat - 48)) 0

/-- A property name that counts as an array index. -/
def isIndex (key : Text) : Bool :=
  key ≠ [] && key.all Char.isDigit && (key = ['0'] || key.head? ≠ some '0') &&
    indexValue key < 2 ^ 32 - 1

/-- The properties in the order of `for (const key in node)`: the indices first. -/
def enumerate {α : Type} (props : List (Text × α)) : List (Text × α) :=
  (props.filter fun p => isIndex p.1).insertionSort (fun p q => indexValue p.1 ≤ indexValue q.1) ++
    props.filter fun p => !isIndex p.1

theorem enumerate_perm {α : Type} (props : List (Text × α)) : (enumerate props).Perm props :=
  ((List.perm_insertionSort _ _).append_right _).trans
    (List.filter_append_perm (fun p => isIndex p.1) props)

theorem enumerate_of_names {α : Type} {props : List (Text × α)}
    (names : ∀ p ∈ props, isIndex p.1 = false) : enumerate props = props := by
  have none : props.filter (fun p => isIndex p.1) = [] := by
    rw [List.filter_eq_nil_iff]
    exact fun p member index => absurd (names p member) (by rw [index]; decide)
  have all : props.filter (fun p => !isIndex p.1) = props := by
    rw [List.filter_eq_self]
    exact fun p member => by rw [names p member]; rfl
  rw [enumerate, none, all]
  rfl

/-- `if (node[key].isFile)`. -/
def isFileNode (props : List (Text × TreeValue)) : Bool :=
  match property props "isFile".toList with
  | none | some (.text []) => false
  | some _ => true

/-- The property `path` in a text. -/
def pathText (props : List (Text × TreeValue)) : Text :=
  match property props "path".toList with
  | none => "undefined".toList
  | some (.text t) => t
  | some .flag => "true".toList
  | some (.lines ls) => List.intercalate [','] ls
  | some (.object _) => "[object Object]".toList

/-- The entry of a file. -/
def fileHtml (key path : Text) : Text :=
  "<li id=\"".toList ++ path ++ "\" onclick=\"selectFile(this.id)\">".toList ++ key ++
    "</li>".toList ++ "<script type=\"text/javascript\">".toList ++ "\"".toList ++ path ++
    "\".click(function() \x7b\n\t\t\t\tselectFile(node[key].diffData);\n\t\t\t\x7d);".toList ++
    "</script>".toList

mutual

/-- What the loop prints for one property. -/
def TreeValue.html (key : Text) : TreeValue → Text
  | .object props =>
      if isFileNode props then fileHtml key (pathText props)
      else
        "<details close><summary class=\"folder\">".toList ++ key ++ "</summary>".toList ++
          "<ul>".toList ++ (enumerate (htmlPieces props)).flatMap (·.2) ++ "</ul>".toList ++
          "</details>".toList
  -- Other values are fields of a file entry, which is printed as a whole.
  | _ => []

def htmlPieces : List (Text × TreeValue) → List (Text × Text)
  | [] => []
  | (key, value) :: props => (key, value.html key) :: htmlPieces props

end

def generateHtmlTree (node : List (Text × TreeValue)) : Text :=
  (enumerate (htmlPieces node)).flatMap (·.2)

example : (createPathTree [⟨"/kernel_management/V2/b/10".toList, []⟩,
      ⟨"/kernel_management/V2/b/9".toList, []⟩]).map generateHtmlTree =
    some ("<details close><summary class=\"folder\">V2</summary><ul>".toList ++
      "<details close><summary class=\"folder\">b</summary><ul>".toList ++
      fileHtml "9".toList "/kernel_management/V2/b/9".toList ++
      fileHtml "10".toList "/kernel_management/V2/b/10".toList ++
      "</ul></details></ul></details>".toList) := by
  decide +kernel

end OslabProfiler.Server
