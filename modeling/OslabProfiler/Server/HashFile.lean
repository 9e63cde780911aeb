import OslabProfiler.CompKernel.Skin
import OslabProfiler.Lib.Utf8
import OslabProfiler.Lib.Walk
import OslabProfiler.Server.Versions

/-! # Hash files

A new version gets a file `hash.txt` with one line per file of its source tree: the
path below the directory of the versions and the digest. The tree is walked breadth
first. Two versions are compared by the lines that only one of their files has.
-/

namespace OslabProfiler.Server

open Lib CompKernel

/-- The calls of `makeHashFile`; `none` is a call that throws. -/
structure SourceDisk where
  readdirSync : Text → Option (List Text)
  /-- Whether there is a directory at the path. -/
  lstatSync : Text → Option Bool
  readFileSync : Text → Option Bytes

/-- `createHash('md5')`, `update(data)` and `digest('hex')`. -/
def md5Hex (lib : Md5) (data : Bytes) : Text :=
  (hex (lib.final (lib.update lib.init data)).toList).map fun b => Char.ofNat b.val

/-- One turn of the loop over a directory, with what was pushed and what was written in
    it so far. -/
def hashElem (lib : Md5) (disk : SourceDisk) (prePath firstElem : Text)
    (s : List Text × List Text) (elem : Text) : Option (List Text × List Text) :=
  let absPath := prePath ++ "/".toList ++ firstElem ++ "/".toList ++ elem
  match disk.lstatSync absPath with
  | none => none
  | some true => some (s.1 ++ [firstElem ++ "/".toList ++ elem], s.2)
  | some false =>
      match disk.readFileSync absPath with
      -- the exception is caught, and the loop goes on
      | none => some s
      | some data =>
          some (s.1, s.2 ++
            [firstElem ++ "/".toList ++ elem ++ " ".toList ++ md5Hex lib data ++ "\n".toList])

def hashDir (lib : Md5) (disk : SourceDisk) (prePath firstElem : Text) :
    Option (List Text × List Text) := do
  let dirFileList ← disk.readdirSync (prePath ++ "/".toList ++ firstElem)
  dirFileList.foldlM (hashElem lib disk prePath firstElem) ([], [])

/-- What is written to the stream, piece by piece, in at most `n` turns of the outer loop. -/
def makeHashFile (lib : Md5) (disk : SourceDisk) (prePath dirPath : Text) (n : Nat) :
    Walked Text :=
  walk (hashDir lib disk prePath) n [dirPath] []

def hashPath (version : Text) : Text :=
  kernelDirPath ++ "/V".toList ++ version ++ "/hash.txt".toList

/-- The lines of the first list that are not in the second, and the other way round. -/
def hashDiff (firstFile secondFile : List Text) : List Text :=
  (firstFile.filter fun x => !secondFile.contains x) ++
    secondFile.filter fun x => !firstFile.contains x

def getHashDiffToArray (disk : Disk) (version1 version2 : Text) : Option (List Text) := do
  let firstFile ← disk.readFile (hashPath version1)
  let secondFile ← disk.readFile (hashPath version2)
  pure (hashDiff (firstFile.splitOn '\n') (secondFile.splitOn '\n'))

/-! ## Source trees -/

/-- A tree of directories and files, with the names in the order of `readdir`. -/
inductive SourceTree where
  | file (data : Bytes)
  | dir (entries : List (Text × SourceTree))

mutual

/-- The files of a tree at a path. -/
def SourceTree.files (path : Text) : SourceTree → List (Text × Bytes)
  | .file data => [(path, data)]
  | .dir entries => filesBelow path entries

def filesBelow (path : Text) : List (Text × SourceTree) → List (Text × Bytes)
  | [] => []
  | (name, tree) :: entries =>
      tree.files (path ++ "/".toList ++ name) ++ filesBelow path entries

end

mutual

/-- The number of directories. -/
def SourceTree.dirs : SourceTree → Nat
  | .file _ => 0
  | .dir entries => dirsBelow entries + 1

def dirsBelow : List (Text × SourceTree) → Nat
  | [] => 0
  | (_, tree) :: entries => tree.dirs + dirsBelow entries

end

/-- A name of one line. -/
def IsName (name : Text) : Prop := '/' ∉ name ∧ '\n' ∉ name

/-- The tree stands on the disk at the path: there are files that can be read and
    directories, and no links. -/
inductive Holds (disk : SourceDisk) : Text → SourceTree → Prop where
  | file {path : Text} {data : Bytes} (isFile : disk.lstatSync path = some false)
      (read : disk.readFileSync path = some data) : Holds disk path (.file data)
  | dir {path : Text} {entries : List (Text × SourceTree)}
      (isDir : disk.lstatSync path = some true)
      (listed : disk.readdirSync path = some (entries.map Prod.fst))
      (distinct : (entries.map Prod.fst).Nodup) (named : ∀ e ∈ entries, IsName e.1)
      (below : ∀ e ∈ entries, Holds disk (path ++ "/".toList ++ e.1) e.2) :
      Holds disk path (.dir entries)

theorem filesBelow_eq_flatMap (path : Text) (entries : List (Text × SourceTree)) :
    filesBelow path entries = entries.flatMap fun e => e.2.files (path ++ "/".toList ++ e.1) := by
  induction entries with
  | nil => rw [filesBelow, List.flatMap_nil]
  | cons e entries ih => rw [filesBelow, List.flatMap_cons, ih]

/-- A file is at the path of the tree or below it, by names of one line. -/
theorem Holds.path_of_mem {disk : SourceDisk} {place : Text} {tree : SourceTree}
    (held : Holds disk place tree) {path : Text} {f : Text × Bytes} (member : f ∈ tree.files path) :
    ∃ rest, f.1 = path ++ rest ∧ (rest = [] ∨ rest.head? = some '/') ∧ '\n' ∉ rest := by
  induction held generalizing path with
  | file isFile read =>
      rw [SourceTree.files, List.mem_singleton] at member
      exact ⟨[], by rw [member, List.append_nil], .inl rfl, List.not_mem_nil⟩
  | dir isDir listed distinct named below ih =>
      rw [SourceTree.files, filesBelow_eq_flatMap, List.mem_flatMap] at member
      obtain ⟨e, entry, member⟩ := member
      obtain ⟨rest, same, -, oneLine⟩ := ih e entry member
      refine ⟨"/".toList ++ e.1 ++ rest, by rw [same]; simp only [List.append_assoc], .inr rfl, ?_⟩
      simp [(named e entry).2, oneLine]

/-- Names that begin different paths differ. -/
theorem name_unique {a b rest rest' : Text} (nameA : '/' ∉ a) (nameB : '/' ∉ b)
    (head : rest = [] ∨ rest.head? = some '/') (head' : rest' = [] ∨ rest'.head? = some '/')
    (same : a ++ rest = b ++ rest') : a = b := by
  have first : ∀ {name tail : Text}, '/' ∉ name → (tail = [] ∨ tail.head? = some '/') →
      (name ++ tail).takeWhile (· ≠ '/') = name := by
    intro name tail absent head
    have before : ∀ c ∈ name, decide (c ≠ '/') = true := by
      intro c member
      rw [decide_eq_true_iff]
      rintro rfl
      exact absent member
    rw [List.takeWhile_append_of_pos before]
    cases tail with
    | nil => simp
    | cons c tail => simp_all
  rw [← first nameA head, same, first nameB head']

theorem Holds.nodup_files {disk : SourceDisk} {place : Text} {tree : SourceTree}
    (held : Holds disk place tree) (path : Text) : ((tree.files path).map Prod.fst).Nodup := by
  induction held generalizing path with
  | file isFile read =>
      rw [SourceTree.files]
      exact List.nodup_singleton _
  | @dir place entries isDir listed distinct named below ih =>
      rw [SourceTree.files, filesBelow_eq_flatMap, List.map_flatMap, List.nodup_flatMap]
      refine ⟨fun e entry => ih e entry _, ?_⟩
      refine (List.pairwise_map.mp distinct).imp_of_mem fun {a b} entryA entryB different => ?_
      intro p memberA memberB
      obtain ⟨f, fileA, rfl⟩ := List.mem_map.mp memberA
      obtain ⟨g, fileB, same⟩ := List.mem_map.mp memberB
      obtain ⟨rest, pathA, head, -⟩ := (below a entryA).path_of_mem fileA
      obtain ⟨rest', pathB, head', -⟩ := (below b entryB).path_of_mem fileB
      rw [pathA, pathB] at same
      simp only [List.append_assoc, List.append_cancel_left_eq] at same
      exact different (name_unique (named b entryB).1 (named a entryA).1 head' head same).symm

/-! ## The walk -/

/-- The line of a file in the hash file. -/
def hashLine (lib : Md5) (f : Text × Bytes) : Text := f.1 ++ " ".toList ++ md5Hex lib f.2

/-- The files right in a directory, -/
def filesHere (path : Text) (entries : List (Text × SourceTree)) : List (Text × Bytes) :=
  entries.filterMap fun e =>
    match e.2 with
    | .file data => some (path ++ "/".toList ++ e.1, data)
    | .dir _ => none

/-- and the directories. -/
def dirsHere (path : Text) (entries : List (Text × SourceTree)) :
    List (Text × List (Text × SourceTree)) :=
  entries.filterMap fun e =>
    match e.2 with
    | .file _ => none
    | .dir below => some (path ++ "/".toList ++ e.1, below)

theorem filesHere_cons (path : Text) (e : Text × SourceTree) (entries : List (Text × SourceTree)) :
    filesHere path (e :: entries) = filesHere path [e] ++ filesHere path entries :=
  List.filterMap_append (l := [e])

theorem dirsHere_cons (path : Text) (e : Text × SourceTree) (entries : List (Text × SourceTree)) :
    dirsHere path (e :: entries) = dirsHere path [e] ++ dirsHere path entries :=
  List.filterMap_append (l := [e])

theorem dirsBelow_eq_sum (path : Text) (entries : List (Text × SourceTree)) :
    ((dirsHere path entries).map fun d => dirsBelow d.2 + 1).sum = dirsBelow entries := by
  induction entries with
  | nil => rfl
  | cons e entries ih =>
      obtain ⟨name, tree⟩ := e
      cases tree with
      | file data => simpa [dirsHere, dirsBelow, SourceTree.dirs] using ih
      | dir below => simpa [dirsHere, dirsBelow, SourceTree.dirs] using ih

theorem perm_filesBelow (path : Text) (entries : List (Text × SourceTree)) :
    (filesHere path entries ++
      (dirsHere path entries).flatMap fun d => filesBelow d.1 d.2).Perm
        (filesBelow path entries) := by
  induction entries with
  | nil => rfl
  | cons e entries ih =>
      obtain ⟨name, tree⟩ := e
      cases tree with
      | file data => exact ih.cons _
      | dir below =>
          rw [filesBelow, SourceTree.files]
          refine List.Perm.trans ?_ (ih.append_left _)
          change (filesHere path entries ++ (filesBelow (path ++ "/".toList ++ name) below ++
            (dirsHere path entries).flatMap fun d => filesBelow d.1 d.2)).Perm _
          rw [← List.append_assoc, ← List.append_assoc]
          exact List.perm_append_comm.append_right _

section Turn

variable (lib : Md5) {disk : SourceDisk} {prePath path : Text}

/-- One turn writes a file or pushes a directory. -/
theorem hashElem_eq {name : Text} {tree : SourceTree}
    (held : Holds disk (prePath ++ "/".toList ++ path ++ "/".toList ++ name) tree)
    (s : List Text × List Text) :
    hashElem lib disk prePath path s name =
      some (s.1 ++ (dirsHere path [(name, tree)]).map Prod.fst,
        s.2 ++ (filesHere path [(name, tree)]).map fun f => hashLine lib f ++ "\n".toList) := by
  cases held with
  | file isFile read =>
      simp only [hashElem, isFile, read]
      exact congrArg (fun pushed => some (pushed, _)) (List.append_nil s.1).symm
  | dir isDir listed distinct named below =>
      simp only [hashElem, isDir]
      exact congrArg (fun written => some (_, written)) (List.append_nil s.2).symm

/-- One directory: every file in it is written, and every directory is pushed. -/
theorem foldlM_hashElem {entries : List (Text × SourceTree)}
    (held : ∀ e ∈ entries, Holds disk (prePath ++ "/".toList ++ path ++ "/".toList ++ e.1) e.2)
    (s : List Text × List Text) :
    (entries.map Prod.fst).foldlM (hashElem lib disk prePath path) s =
      some (s.1 ++ (dirsHere path entries).map Prod.fst,
        s.2 ++ (filesHere path entries).map fun f => hashLine lib f ++ "\n".toList) := by
  induction entries generalizing s with
  | nil => simp [dirsHere, filesHere]
  | cons e entries ih =>
      rw [List.forall_mem_cons] at held
      rw [List.map_cons, List.foldlM_cons, hashElem_eq lib held.1, Option.bind_eq_bind,
        Option.bind_some, ih held.2, dirsHere_cons path e entries, filesHere_cons path e entries,
        List.map_append, List.map_append, List.append_assoc, List.append_assoc]

end Turn

/-- A path in the queue, and what stands in the directory at it. -/
def Queued (disk : SourceDisk) (prePath path : Text) (d : Text × List (Text × SourceTree)) : Prop :=
  path = d.1 ∧ Holds disk (prePath ++ "/".toList ++ d.1) (.dir d.2)

theorem unfolds_hashDir (lib : Md5) (disk : SourceDisk) (prePath : Text) :
    Unfolds (hashDir lib disk prePath) (Queued disk prePath) (fun d => dirsBelow d.2 + 1)
      (fun d => filesBelow d.1 d.2) (fun f => hashLine lib f ++ "\n".toList) := by
  rintro path ⟨_, entries⟩ ⟨rfl, held⟩
  cases held with
  | dir isDir listed distinct named below =>
      refine ⟨(dirsHere path entries).map Prod.fst, dirsHere path entries, filesHere path entries,
        ?_, ?_, ?_, perm_filesBelow path entries⟩
      · rw [hashDir, listed]
        exact foldlM_hashElem lib below ([], [])
      · rw [List.forall₂_map_left_iff, List.forall₂_same]
        intro d member
        obtain ⟨e, entry, found⟩ := List.mem_filterMap.mp member
        obtain ⟨name, tree⟩ := e
        cases tree with
        | file data => cases found
        | dir inner =>
            cases found
            refine ⟨rfl, ?_⟩
            have deeper := below _ entry
            simp only [List.append_assoc] at deeper ⊢
            exact deeper
      · rw [dirsBelow_eq_sum]
        exact Nat.lt_succ_self _

/-- The walk ends, with one line for every file of the tree. -/
theorem makeHashFile_ends (lib : Md5) {disk : SourceDisk} {prePath root : Text}
    {entries : List (Text × SourceTree)}
    (held : Holds disk (prePath ++ "/".toList ++ root) (.dir entries)) :
    ∃ files : List (Text × Bytes), files.Perm (filesBelow root entries) ∧
      ∀ n, dirsBelow entries + 1 < n → makeHashFile lib disk prePath root n =
        .ended (files.map fun f => hashLine lib f ++ "\n".toList) := by
  have shown : List.Forall₂ (Queued disk prePath) [root] [(root, entries)] :=
    .cons ⟨rfl, held⟩ .nil
  obtain ⟨files, perm, run⟩ := (unfolds_hashDir lib disk prePath).walk_ends shown []
  exact ⟨files, by simpa using perm, by simpa [makeHashFile] using run⟩

/-! ## Lines and their paths -/

/-- What stands before the blank and the digest. -/
def pathPart (line : Text) : Text := line.take (line.length - 33)

theorem md5Hex_eq (lib : Md5) (data : Bytes) :
    md5Hex lib data = (hex (lib.digest data).toList).map fun b => Char.ofNat b.val := by
  rw [md5Hex, show lib.update lib.init data = [data].foldl lib.update lib.init from rfl, lib.law,
    List.flatten_singleton]

@[simp] theorem length_md5Hex (lib : Md5) (data : Bytes) : (md5Hex lib data).length = 32 := by
  rw [md5Hex, List.length_map, length_hex, List.Vector.toList_length]

theorem ofNat_val_injective : Function.Injective fun b : Byte => Char.ofNat b.val := by
  intro a b same
  have valid : ∀ c : Byte, (Char.ofNat c.val).toNat = c.val := fun c =>
    Utf8.toNat_valid (.inl (by omega))
  apply Fin.ext
  rw [← valid a, ← valid b]
  exact congrArg Char.toNat same

theorem md5Hex_inj (lib : Md5) (a b : Bytes) :
    md5Hex lib a = md5Hex lib b ↔ lib.digest a = lib.digest b := by
  rw [md5Hex_eq, md5Hex_eq, (List.map_injective_iff.mpr ofNat_val_injective).eq_iff,
    hex_injective.eq_iff]
  exact ⟨List.Vector.eq _ _, congrArg List.Vector.toList⟩

theorem newline_not_mem_md5Hex (lib : Md5) (data : Bytes) : '\n' ∉ md5Hex lib data := by
  intro member
  rw [md5Hex_eq] at member
  obtain ⟨b, digit, same⟩ := List.mem_map.mp member
  have newlineByte : b = 10 := ofNat_val_injective same
  obtain ⟨x, -, printed⟩ := List.mem_flatMap.mp digit
  have small : x.val / 16 < 16 ∧ x.val % 16 < 16 := by omega
  simp only [List.mem_cons, List.not_mem_nil, or_false] at printed
  cases printed with
  | inl high =>
      have value := congrArg Fin.val high
      rw [hexDigit_val small.1, newlineByte] at value
      grind
  | inr low =>
      have value := congrArg Fin.val low
      rw [hexDigit_val small.2, newlineByte] at value
      grind

theorem pathPart_hashLine (lib : Md5) (f : Text × Bytes) : pathPart (hashLine lib f) = f.1 := by
  have longer : (hashLine lib f).length - 33 = f.1.length := by simp [hashLine]
  rw [pathPart, longer, hashLine, List.append_assoc, List.take_left]

theorem hashLine_ne_nil (lib : Md5) (f : Text × Bytes) : hashLine lib f ≠ [] := by
  simp [hashLine]

section Difference

variable {first second : List Text}

/-- A line that both files have makes no difference. -/
theorem hashDiff_append_nil (linesFirst : [] ∉ first) (linesSecond : [] ∉ second) :
    hashDiff (first ++ [[]]) (second ++ [[]]) = hashDiff first second := by
  have same : ∀ {a b : List Text}, [] ∉ a →
      (a ++ [[]]).filter (fun x => !(b ++ [[]]).contains x) = a.filter fun x => !b.contains x := by
    intro a b lines
    have shared : [([] : Text)].filter (fun x => !(b ++ [[]]).contains x) = [] := by simp
    rw [List.filter_append, shared, List.append_nil]
    apply List.filter_congr
    intro x member
    have nonempty : x ≠ [] := fun eq => lines (eq ▸ member)
    simp [nonempty]
  rw [hashDiff, same linesFirst, same linesSecond, hashDiff]

/-- The difference can be taken for every path by itself. -/
theorem filter_hashDiff (first second : List Text) (path : Text) :
    (hashDiff first second).filter (pathPart · = path) =
      hashDiff (first.filter (pathPart · = path)) (second.filter (pathPart · = path)) := by
  have same : ∀ a b : List Text,
      (a.filter fun x => !b.contains x).filter (pathPart · = path) =
        (a.filter (pathPart · = path)).filter
          fun x => !(b.filter (pathPart · = path)).contains x := by
    intro a b
    rw [List.filter_filter, List.filter_filter]
    apply List.filter_congr
    intro x _
    by_cases here : pathPart x = path <;> simp [here]
  rw [hashDiff, List.filter_append, same, same, hashDiff]

end Difference

theorem filter_eq_lookup {files : List (Text × Bytes)} (distinct : (files.map Prod.fst).Nodup)
    (path : Text) :
    files.filter (·.1 = path) = (files.lookup path).toList.map (Prod.mk path) := by
  induction files with
  | nil => rfl
  | cons f files ih =>
      rw [List.map_cons, List.nodup_cons] at distinct
      obtain ⟨name, data⟩ := f
      by_cases here : name = path
      · subst here
        have absent : files.filter (·.1 = name) = [] := by
          rw [List.filter_eq_nil_iff]
          intro f member same
          rw [decide_eq_true_iff] at same
          exact distinct.1 (List.mem_map.mpr ⟨f, member, same⟩)
        simp [absent]
      · have other : (path == name) = false := beq_false_of_ne (Ne.symm here)
        rw [List.filter_cons_of_neg (by simpa using here), List.lookup_cons, other]
        exact ih distinct.2

/-- The lines of a path in the hash file of a tree: one if it is a file, and no other. -/
theorem filter_hashLines (lib : Md5) {all files : List (Text × Bytes)} (perm : all.Perm files)
    (distinct : (files.map Prod.fst).Nodup) (path : Text) :
    (all.map (hashLine lib)).filter (pathPart · = path) =
      (files.lookup path).toList.map fun data => hashLine lib (path, data) := by
  have found : all.filter (·.1 = path) = (files.lookup path).toList.map (Prod.mk path) := by
    have same := perm.filter (·.1 = path)
    rw [filter_eq_lookup distinct] at same
    cases lookup : files.lookup path with
    | none => simpa [lookup] using same
    | some data => simpa [lookup] using same
  rw [List.filter_map, show (fun line => decide (pathPart line = path)) ∘ hashLine lib =
    fun f => decide (f.1 = path) from funext fun f => by simp [pathPart_hashLine], found,
    List.map_map]
  rfl

/-! ## Changes -/

/-- The lines for a path that is a file with these contents in two trees, or no file. -/
def changedLines (lib : Md5) (path : Text) : Option Bytes → Option Bytes → List Text
  | none, none => []
  | some data, none | none, some data => [hashLine lib (path, data)]
  | some data1, some data2 =>
      if lib.digest data1 = lib.digest data2 then []
      else [hashLine lib (path, data1), hashLine lib (path, data2)]

theorem hashDiff_lookup (lib : Md5) (path : Text) (found1 found2 : Option Bytes) :
    hashDiff (found1.toList.map fun data => hashLine lib (path, data))
      (found2.toList.map fun data => hashLine lib (path, data)) =
        changedLines lib path found1 found2 := by
  cases found1 with
  | none => cases found2 <;> simp [hashDiff, changedLines]
  | some data1 =>
      cases found2 with
      | none => simp [hashDiff, changedLines]
      | some data2 =>
          have line : hashLine lib (path, data1) = hashLine lib (path, data2) ↔
              lib.digest data1 = lib.digest data2 := by
            rw [hashLine, hashLine, List.append_cancel_left_eq, md5Hex_inj]
          by_cases same : lib.digest data1 = lib.digest data2
          · simp [hashDiff, changedLines, same, line.mpr same]
          · have differ := mt line.mp same
            simp [hashDiff, changedLines, same, differ, Ne.symm differ]

/-- `makeHashFile` ends and writes `written`: one line for every file of the tree. -/
structure Manifest (lib : Md5) (disk : SourceDisk) (prePath root : Text)
    (entries : List (Text × SourceTree)) (written : List Text) : Prop where
  ends : ∀ n, dirsBelow entries + 1 < n → makeHashFile lib disk prePath root n = .ended written
  distinct : ((filesBelow root entries).map Prod.fst).Nodup
  lines : ∃ files : List (Text × Bytes), files.Perm (filesBelow root entries) ∧
    written.flatten.splitOn '\n' = files.map (hashLine lib) ++ [[]]

theorem exists_manifest (lib : Md5) {disk : SourceDisk} {prePath root : Text}
    {entries : List (Text × SourceTree)} (oneLine : '\n' ∉ root)
    (held : Holds disk (prePath ++ "/".toList ++ root) (.dir entries)) :
    ∃ written, Manifest lib disk prePath root entries written := by
  obtain ⟨files, perm, ends⟩ := makeHashFile_ends lib held
  refine ⟨_, ends, ?_, files, perm, ?_⟩
  · have distinct := held.nodup_files root
    rwa [SourceTree.files] at distinct
  · have lines : ∀ l ∈ files.map (hashLine lib), '\n' ∉ l := by
      intro l member
      obtain ⟨f, file, rfl⟩ := List.mem_map.mp member
      have below : f ∈ (SourceTree.dir entries).files root := by
        rw [SourceTree.files]
        exact perm.subset file
      obtain ⟨rest, path, -, pathLine⟩ := held.path_of_mem below
      rw [hashLine, path]
      simp [oneLine, pathLine, newline_not_mem_md5Hex]
    rw [← splitOn_lines lines, List.flatMap_map, List.flatMap_def]
    rfl

/-- For two trees of one name: both hash files get written, and the lines for a path that
    `getHashDiffToArray` returns are those of the files that only one tree has there or
    that have different digests. -/
theorem getHashDiffToArray_decides (lib : Md5) {disk1 disk2 : SourceDisk}
    {prePath1 prePath2 root : Text} {entries1 entries2 : List (Text × SourceTree)}
    (oneLine : '\n' ∉ root)
    (held1 : Holds disk1 (prePath1 ++ "/".toList ++ root) (.dir entries1))
    (held2 : Holds disk2 (prePath2 ++ "/".toList ++ root) (.dir entries2)) :
    ∃ written1 written2, Manifest lib disk1 prePath1 root entries1 written1 ∧
      Manifest lib disk2 prePath2 root entries2 written2 ∧
      ∀ (disk : Disk) (version1 version2 : Text),
        disk.readFile (hashPath version1) = some written1.flatten →
        disk.readFile (hashPath version2) = some written2.flatten →
        ∃ lines, getHashDiffToArray disk version1 version2 = some lines ∧
          ∀ path, lines.filter (pathPart · = path) =
            changedLines lib path ((filesBelow root entries1).lookup path)
              ((filesBelow root entries2).lookup path) := by
  obtain ⟨written1, manifest1⟩ := exists_manifest lib oneLine held1
  obtain ⟨written2, manifest2⟩ := exists_manifest lib oneLine held2
  refine ⟨written1, written2, manifest1, manifest2, fun disk version1 version2 read1 read2 => ?_⟩
  obtain ⟨files1, perm1, lines1⟩ := manifest1.lines
  obtain ⟨files2, perm2, lines2⟩ := manifest2.lines
  have nonempty : ∀ files : List (Text × Bytes), [] ∉ files.map (hashLine lib) := by
    intro files member
    obtain ⟨f, -, empty⟩ := List.mem_map.mp member
    exact hashLine_ne_nil lib f empty
  refine ⟨hashDiff (files1.map (hashLine lib)) (files2.map (hashLine lib)), ?_, fun path => ?_⟩
  · rw [getHashDiffToArray, read1, read2, ← hashDiff_append_nil (nonempty files1) (nonempty files2),
      ← lines1, ← lines2]
    rfl
  · rw [filter_hashDiff, filter_hashLines lib perm1 manifest1.distinct,
      filter_hashLines lib perm2 manifest2.distinct, hashDiff_lookup]

/-- A source tree with one file that varies. -/
def linuxEntries (makefile : Bytes) : List (Text × SourceTree) :=
  [("Makefile".toList, .file makefile), ("init".toList, .dir [("read me".toList, .file [])])]

def linuxDisk (makefile : Bytes) : SourceDisk where
  readdirSync path :=
    if path = "/k/linux".toList then some ["Makefile".toList, "init".toList]
    else if path = "/k/linux/init".toList then some ["read me".toList]
    else none
  lstatSync path := some (path = "/k/linux".toList || path = "/k/linux/init".toList)
  readFileSync path := some (if path = "/k/linux/Makefile".toList then makefile else [])

theorem holds_linuxDisk (makefile : Bytes) :
    Holds (linuxDisk makefile) ("/k".toList ++ "/".toList ++ "linux".toList)
      (.dir (linuxEntries makefile)) := by
  have names : ["Makefile".toList, "init".toList].Nodup := by decide
  have makefileName : IsName "Makefile".toList := ⟨by decide, by decide⟩
  have initName : IsName "init".toList := ⟨by decide, by decide⟩
  have readmeName : IsName "read me".toList := ⟨by decide, by decide⟩
  refine .dir rfl rfl names (List.forall_mem_cons.mpr ⟨makefileName,
    List.forall_mem_singleton.mpr initName⟩) (List.forall_mem_cons.mpr ⟨.file rfl rfl,
    List.forall_mem_singleton.mpr ?_⟩)
  exact .dir rfl rfl (List.nodup_singleton _) (List.forall_mem_singleton.mpr readmeName)
    (List.forall_mem_singleton.mpr (.file rfl rfl))

/-- A digest that shows the first byte. -/
def firstByte : Md5 := .ofDigest fun data => List.Vector.replicate 16 (data.headD 0)

theorem getHashDiffToArray_linux :
    ∃ written1 written2, Manifest firstByte (linuxDisk [1]) "/k".toList "linux".toList
        (linuxEntries [1]) written1 ∧
      Manifest firstByte (linuxDisk [2]) "/k".toList "linux".toList (linuxEntries [2]) written2 ∧
      ∀ (disk : Disk) (version1 version2 : Text),
        disk.readFile (hashPath version1) = some written1.flatten →
        disk.readFile (hashPath version2) = some written2.flatten →
        ∃ lines, getHashDiffToArray disk version1 version2 = some lines ∧
          lines.filter (pathPart · = "linux/Makefile".toList) =
            ["linux/Makefile 01010101010101010101010101010101".toList,
              "linux/Makefile 02020202020202020202020202020202".toList] ∧
          lines.filter (pathPart · = "linux/init/read me".toList) = [] := by
  obtain ⟨written1, written2, manifest1, manifest2, decides⟩ :=
    getHashDiffToArray_decides firstByte (by decide) (holds_linuxDisk [1]) (holds_linuxDisk [2])
  refine ⟨written1, written2, manifest1, manifest2, fun disk version1 version2 read1 read2 => ?_⟩
  obtain ⟨lines, diff, paths⟩ := decides disk version1 version2 read1 read2
  refine ⟨lines, diff, ?_, ?_⟩
  · rw [paths]
    decide +kernel
  · rw [paths]
    decide +kernel

end OslabProfiler.Server
