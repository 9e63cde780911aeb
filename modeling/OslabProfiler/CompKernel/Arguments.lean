import OslabProfiler.CompKernel.SsuDiff

/-! # The arguments of the three programs

Each `main` checks that its arguments are directories, makes relative ones absolute with
`realpath`, takes absolute ones as they were typed, and derives the name of another
directory from them. Which location an argument names depends on the working directory and
on the tree: every component but the last must lead into a directory. There are no symbolic
links that lead anywhere, so `..` is the directory above.
-/

namespace OslabProfiler.CompKernel

open Lib Lib.FileTree

/-- An argument of a program: a string, which has no NUL in it. -/
structure Arg where
  bytes : Bytes
  string : 0 ∉ bytes

/-! ## Where a path leads -/

/-- One component of a path, looked up in a directory. -/
def enter (fs : Fs) (l : List Name) (piece : Bytes) : Option (List Name) :=
  if fs.isDir l then some (push l piece) else none

/-- The location that the system finds for a path, which is shorter than `PATH_MAX`. -/
def resolve (fs : Fs) (cwd : List Name) (path : Bytes) : Option (List Name) :=
  if path = [] ∨ BUFMAX ≤ path.length then none
  else (path.splitOn slash).foldlM (enter fs) (if path.head? = some slash then [] else cwd)

/-- `stat` of a path, and `S_ISDIR`. -/
def statPath (fs : Fs) (cwd : List Name) (path : Bytes) : Option Bool :=
  (resolve fs cwd path).bind fun l => statOf (fs.get l)

/-- The text that `realpath` yields for a location. -/
def canonical (l : List Name) : Bytes := if l = [] then [slash] else extend [] l

/-- An argument made absolute. -/
def absolute (fs : Fs) (cwd : List Name) (path : Bytes) : Bytes :=
  if path.head? ≠ some slash then canonical ((resolve fs cwd path).getD []) else path

/-! ## The programs -/

/-- The checks at the beginning of every `main`: `access` of all arguments, then `S_ISDIR`
    of all of them. -/
def checkDirs (cwd : List Name) (args : List Arg) : Prog Unit := do
  let found ← Command.read fun w => args.all fun arg => (statPath w.fs cwd arg.bytes).isSome
  if found then
    let dirs ← Command.read fun w => args.all fun arg => statPath w.fs cwd arg.bytes = some true
    if dirs then pure () else exit 1
  else exit 1

/-- `realpath` or `strcpy` of an argument into a path buffer. When the text of `realpath`
    does not fit, the buffer is left unset. -/
def makeAbsolute (cwd : List Name) (arg : Arg) : Prog Bytes := do
  let text ← Command.read fun w => absolute w.fs cwd arg.bytes
  sprintf text

/-- The position of the last `c` in a string. -/
def strrchr (c : Byte) : Bytes → Option Nat
  | [] => none
  | b :: rest =>
      match strrchr c rest with
      | some i => some (i + 1)
      | none => if b = c then some 0 else none

def underscore : Byte := 95

/-- `ptr = strrchr(path, '_'); *(ptr - 1) = 0;` and the string that is left. Without an
    underscore, or with the only one in front, the NUL is written outside the buffer. -/
def cutName (path : Bytes) : Prog Bytes :=
  match strrchr underscore path with
  | some (i + 1) => pure (path.take i)
  | _ => Command.stop .overflow

/-- The name that `molt` and `ssu_diff` derive from a path. -/
def deriveName (suffix path : Bytes) : Prog Bytes := do
  let base ← cutName path
  sprintf (base ++ suffix)

/-- What is behind the last slash. -/
def filename (path : Bytes) : Bytes :=
  match strrchr slash path with
  | some i => path.drop (i + 1)
  | none => path

/-- `main` of skin.c up to the paths of the source and of the skin. -/
def skinPaths (cwd : List Name) : List Arg → Prog (Bytes × Bytes)
  | dir :: skinDir :: _ => do
      checkDirs cwd [dir, skinDir]
      let fpath ← makeAbsolute cwd dir
      let spath ← makeAbsolute cwd skinDir
      if fpath <:+: spath then exit 1
      else
        let spath ← sprintf (spath ++ ascii "/" ++ filename fpath ++ ascii "__skin")
        pure (fpath, spath)
  | _ => exit 1

def skinMain (lib : Md5) (junk : Junk) (cwd : List Name) (args : List Arg) : Prog Unit := do
  let (fpath, spath) ← skinPaths cwd args
  skin lib junk fpath spath

/-- `main` of molt.c up to its three paths. -/
def moltPaths (cwd : List Name) : List Arg → Prog (Bytes × Bytes × Bytes)
  | [org, cmp] => do
      checkDirs cwd [org, cmp]
      let oPath ← makeAbsolute cwd org
      let cPath ← makeAbsolute cwd cmp
      let mPath ← deriveName (ascii "__molt") cPath
      pure (oPath, cPath, mPath)
  | _ => exit 1

def moltMain (junk : Junk) (cwd : List Name) (args : List Arg) : Prog Unit := do
  let (oPath, cPath, mPath) ← moltPaths cwd args
  molt junk oPath cPath mPath

/-- The five paths of `ssu_diff`. -/
structure DiffPathNames where
  org : Bytes
  molt1 : Bytes
  molt2 : Bytes
  skin1 : Bytes
  skin2 : Bytes

/-- `main` of ssu_diff.c up to its five paths. -/
def ssuDiffPaths (cwd : List Name) : List Arg → Prog DiffPathNames
  | [org, molt1, molt2] => do
      checkDirs cwd [org, molt1, molt2]
      let orgPath ← makeAbsolute cwd org
      let moltPath1 ← makeAbsolute cwd molt1
      let moltPath2 ← makeAbsolute cwd molt2
      let skinPath1 ← deriveName (ascii "__skin") moltPath1
      let skinPath2 ← deriveName (ascii "__skin") moltPath2
      let found ← Command.read fun w =>
        (statPath w.fs cwd skinPath1).isSome && (statPath w.fs cwd skinPath2).isSome
      if found then
        let dirs ← Command.read fun w =>
          statPath w.fs cwd skinPath1 = some true && statPath w.fs cwd skinPath2 = some true
        if dirs then pure ⟨orgPath, moltPath1, moltPath2, skinPath1, skinPath2⟩ else exit 1
      else exit 1
  | _ => exit 1

def ssuDiffMain (junk : Junk) (cwd : List Name) (args : List Arg) : Prog Unit := do
  let paths ← ssuDiffPaths cwd args
  ssuDiff junk paths.org paths.molt1 paths.molt2 paths.skin1 paths.skin2

/-! ## Locations -/

theorem splitOn_slash_cons (b : Byte) (path : Bytes) :
    (b :: path).splitOn slash =
      if b = slash then [] :: path.splitOn slash else (path.splitOn slash).modifyHead (b :: ·) := by
  have step := List.splitOnP_cons_eq_if_modifyHead (p := (· == slash)) b path
  simp only [beq_iff_eq] at step
  exact step

theorem modifyHead_nil_append (pieces : List Bytes) : pieces.modifyHead ([] ++ ·) = pieces := by
  cases pieces <;> rfl

/-- Components one after another are what the scan of a path goes through. -/
theorem push_foldl_scan (path : Bytes) (l : List Name) (cur : Bytes) :
    push (path.foldl scan (l, cur)).1 (path.foldl scan (l, cur)).2 =
      ((path.splitOn slash).modifyHead (cur ++ ·)).foldl push l := by
  induction path generalizing l cur with
  | nil => simp
  | cons b path ih =>
      rw [List.foldl_cons, scan, splitOn_slash_cons]
      by_cases isSlash : b = slash
      · rw [if_pos isSlash, if_pos isSlash, ih, modifyHead_nil_append]
        simp
      · rw [if_neg isSlash, if_neg isSlash, ih, List.modifyHead_modifyHead]
        congr 2
        funext piece
        simp

theorem locate_eq_foldl (path : Bytes) : locate path = (path.splitOn slash).foldl push [] := by
  have scanned := push_foldl_scan path [] []
  rwa [modifyHead_nil_append] at scanned

theorem foldlM_enter {fs : Fs} {l l' : List Name} {pieces : List Bytes}
    (led : pieces.foldlM (enter fs) l = some l') : l' = pieces.foldl push l := by
  induction pieces generalizing l with
  | nil => simpa using led.symm
  | cons piece pieces ih =>
      rw [List.foldlM_cons] at led
      by_cases isDir : fs.isDir l = true
      · rw [enter, if_pos isDir] at led
        exact ih led
      · rw [enter, if_neg isDir] at led
        cases led

/-- What is known of a path that leads somewhere. -/
theorem resolve_some {fs : Fs} {cwd l : List Name} {path : Bytes}
    (led : resolve fs cwd path = some l) :
    path ≠ [] ∧ path.length < BUFMAX ∧
      l = (path.splitOn slash).foldl push (if path.head? = some slash then [] else cwd) := by
  rw [resolve] at led
  split at led
  · cases led
  · rename_i short
    rw [not_or, Nat.not_le] at short
    exact ⟨short.1, short.2, foldlM_enter led⟩

@[simp] theorem locate_canonical (l : List Name) : locate (canonical l) = l := by
  rw [canonical]
  split
  case isTrue root =>
    rw [root]
    decide
  case isFalse => rw [locate_extend, show locate [] = [] by decide, List.nil_append]

/-- Making an argument absolute does not change where it leads. -/
theorem locate_absolute {fs : Fs} {cwd l : List Name} {path : Bytes}
    (led : resolve fs cwd path = some l) : locate (absolute fs cwd path) = l := by
  rw [absolute]
  split
  case isTrue => rw [led, Option.getD_some, locate_canonical]
  case isFalse typed =>
    rw [ne_eq, not_not] at typed
    have location := (resolve_some led).2.2
    rw [if_pos typed] at location
    rw [location, locate_eq_foldl]

theorem zero_not_mem_canonical (l : List Name) : 0 ∉ canonical l := by
  rw [canonical]
  split
  · decide
  · exact zero_not_mem_extend List.not_mem_nil l

theorem zero_not_mem_absolute (fs : Fs) (cwd : List Name) (arg : Arg) :
    0 ∉ absolute fs cwd arg.bytes := by
  rw [absolute]
  split
  · exact zero_not_mem_canonical _
  · exact arg.string

/-! ## The last underscore and the last slash -/

theorem strrchr_eq_none {c : Byte} {path : Bytes} : strrchr c path = none ↔ c ∉ path := by
  induction path with
  | nil => simp [strrchr]
  | cons b path ih =>
      rw [strrchr]
      cases found : strrchr c path with
      | some i =>
          have later : c ∈ path := by
            by_contra absent
            rw [ih.mpr absent] at found
            cases found
          simp [later]
      | none =>
          have absent := ih.mp found
          by_cases same : b = c
          · simp [same]
          · simp [same, absent, Ne.symm same]

/-- The last occurrence has no other one behind it. -/
theorem strrchr_append {c : Byte} (a : Bytes) {b : Bytes} (last : c ∉ b) :
    strrchr c (a ++ c :: b) = some a.length := by
  induction a with
  | nil => simp [strrchr, strrchr_eq_none.mpr last]
  | cons x a ih => simp [strrchr, ih]

theorem strrchr_eq_some {c : Byte} {path : Bytes} {i : Nat} (found : strrchr c path = some i) :
    ∃ a b, path = a ++ c :: b ∧ a.length = i ∧ c ∉ b := by
  induction path generalizing i with
  | nil => cases found
  | cons x path ih =>
      rw [strrchr] at found
      cases later : strrchr c path with
      | some j =>
          rw [later] at found
          obtain ⟨a, b, split, length, last⟩ := ih later
          cases found
          exact ⟨x :: a, b, by rw [split]; rfl, by rw [← length]; rfl, last⟩
      | none =>
          rw [later] at found
          by_cases same : x = c
          · simp only [same, if_true, Option.some.injEq] at found
            exact ⟨[], path, by rw [same]; rfl, found, strrchr_eq_none.mp later⟩
          · simp [same] at found

theorem slash_not_mem_filename (path : Bytes) : slash ∉ filename path := by
  rw [filename]
  cases found : strrchr slash path with
  | none => exact strrchr_eq_none.mp found
  | some i =>
      obtain ⟨a, b, split, length, last⟩ := strrchr_eq_some found
      have behind : path.drop (i + 1) = b := by
        rw [split, ← length]
        simp
      simpa only [behind] using last

theorem mem_of_mem_filename {path : Bytes} {b : Byte} (member : b ∈ filename path) : b ∈ path := by
  rw [filename] at member
  split at member
  · exact List.mem_of_mem_drop member
  · exact member

/-! ## The checks -/

/-- All arguments are directories that exist. -/
def Accepted (w : World) (cwd : List Name) (args : List Arg) : Prop :=
  ∀ arg ∈ args, statPath w.fs cwd arg.bytes = some true

instance (w : World) (cwd : List Name) (args : List Arg) : Decidable (Accepted w cwd args) :=
  inferInstanceAs (Decidable (∀ arg ∈ args, _))

section Rules

variable {cwd : List Name} {w : World} {E : Stop → World → Prop}

theorem wp_checkDirs {args : List Arg} {Q : Unit → World → Prop} :
    (checkDirs cwd args).wp Q E w ↔
      (Accepted w cwd args → Q () w) ∧ (¬ Accepted w cwd args → E (.exit 1) w) := by
  have found : Accepted w cwd args →
      (args.all fun arg => (statPath w.fs cwd arg.bytes).isSome) = true := by
    intro accepted
    rw [List.all_eq_true]
    intro arg member
    rw [accepted arg member]
    rfl
  have dirs : (args.all fun arg => decide (statPath w.fs cwd arg.bytes = some true)) = true ↔
      Accepted w cwd args := by
    simp [Accepted]
  simp only [checkDirs, Command.wp_bind, Command.wp_read, Command.wp_ite, Command.wp_pure, exit,
    Command.wp_stop, dirs]
  by_cases accepted : Accepted w cwd args
  · simp [accepted, found accepted]
  · simp only [accepted, false_implies, not_false_iff, true_implies, true_and]
    exact ⟨fun both => by_cases both.1 both.2, fun stops => ⟨fun _ => stops, fun _ => stops⟩⟩

@[simp] theorem wp_makeAbsolute {arg : Arg} {Q : Bytes → World → Prop} :
    (makeAbsolute cwd arg).wp Q E w ↔
      ((absolute w.fs cwd arg.bytes).length < BUFMAX → Q (absolute w.fs cwd arg.bytes) w) ∧
      (¬ (absolute w.fs cwd arg.bytes).length < BUFMAX → E .overflow w) := by
  simp [makeAbsolute]

end Rules

end OslabProfiler.CompKernel
