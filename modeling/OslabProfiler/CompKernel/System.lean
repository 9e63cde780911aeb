import OslabProfiler.Lib.Command
import OslabProfiler.Lib.FileTree
import OslabProfiler.Lib.MergeJoin
import Mathlib.Data.List.Lex

/-! # What the comparison programs see of C and of the system

`skin`, `molt` and `ssu_diff` work on NUL-terminated byte strings and on one
file tree that they reach by path. A path is a string of bytes; only the system
calls take it apart into names. Every `sprintf` of the three programs goes to a
buffer of `BUFMAX` bytes without a bound, so a text that does not fit stops the
model: after a write past the buffer nothing is promised.

Locals that C leaves unset are read from `Junk`, which is arbitrary.
-/

namespace OslabProfiler.CompKernel

open Lib

abbrev Byte := Fin 256

instance byteCount_neZero : NeZero 256 := ⟨by decide⟩

abbrev Bytes := List Byte

/-- The bytes of an ASCII literal. -/
def ascii (s : String) : Bytes := s.toList.map fun c => Fin.ofNat 256 c.toNat

def BUFMAX : Nat := 4096

def HASHLEN : Nat := 33

def slash : Byte := 47

/-- A file name: not empty, no `/`, no NUL, and neither `.` nor `..`. -/
def IsName (b : Bytes) : Prop :=
  b ≠ [] ∧ slash ∉ b ∧ 0 ∉ b ∧ b ≠ ascii "." ∧ b ≠ ascii ".."

instance (b : Bytes) : Decidable (IsName b) := inferInstanceAs (Decidable (_ ∧ _))

/-- `d_name` of a directory entry. -/
structure Name where
  bytes : Bytes
  valid : IsName bytes
  deriving DecidableEq

namespace Name

theorem bytes_injective : Function.Injective bytes := by
  rintro ⟨a, _⟩ ⟨b, _⟩ same
  cases same
  rfl

instance : LinearOrder Name := LinearOrder.lift' bytes bytes_injective

end Name

/-- `strcmp` of two strings: the difference of the first bytes that differ,
    where the end of a string counts as its NUL. -/
def strcmp : Bytes → Bytes → Int
  | [], [] => 0
  | [], b :: _ => 0 - (b.val : Int)
  | a :: _, [] => (a.val : Int)
  | a :: as, b :: bs => if a = b then strcmp as bs else (a.val : Int) - (b.val : Int)

private theorem head_ne_zero {b : Byte} {l : Bytes} (noNul : 0 ∉ b :: l) : b.val ≠ 0 := by
  intro zero
  apply noNul
  rw [show b = 0 from Fin.ext zero]
  exact List.mem_cons_self

theorem strcmp_self (a : Bytes) : strcmp a a = 0 := by
  induction a with
  | nil => rfl
  | cons a as ih => simp [strcmp, ih]

theorem strcmp_eq_zero {a b : Bytes} (ha : 0 ∉ a) (hb : 0 ∉ b) : strcmp a b = 0 ↔ a = b := by
  refine ⟨fun h => ?_, fun h => h ▸ strcmp_self a⟩
  induction a generalizing b with
  | nil =>
      cases b with
      | nil => rfl
      | cons b bs =>
          have := head_ne_zero hb
          simp only [strcmp] at h
          omega
  | cons a as ih =>
      cases b with
      | nil =>
          have := head_ne_zero ha
          simp only [strcmp] at h
          omega
      | cons b bs =>
          simp only [strcmp] at h
          split at h
          · rename_i same
            rw [same, ih (fun m => ha (List.mem_cons_of_mem _ m))
              (fun m => hb (List.mem_cons_of_mem _ m)) h]
          · rename_i different
            exact (different (Fin.ext (by omega))).elim

theorem strcmp_neg {a b : Bytes} (ha : 0 ∉ a) (hb : 0 ∉ b) : strcmp a b < 0 ↔ a < b := by
  induction a generalizing b with
  | nil =>
      cases b with
      | nil => simp [strcmp]
      | cons b bs =>
          have := head_ne_zero hb
          simp only [strcmp, List.nil_lt_cons, iff_true]
          omega
  | cons a as ih =>
      cases b with
      | nil => simp [strcmp]
      | cons b bs =>
          simp only [strcmp, List.cons_lt_cons_iff]
          split
          · rename_i same
            rw [ih (fun m => ha (List.mem_cons_of_mem _ m)) (fun m => hb (List.mem_cons_of_mem _ m))]
            simp [same]
          · rename_i different
            simp only [different, false_and, or_false, Fin.lt_def]
            omega

/-- `strcmp` of the names decides the order in which `alphasort` lists them. -/
theorem strcmp_decides : MergeJoin.Decides fun x y : Name => strcmp x.bytes y.bytes where
  eq x y := by
    rw [strcmp_eq_zero x.valid.2.2.1 y.valid.2.2.1]
    exact ⟨fun h => Name.bytes_injective h, fun h => by rw [h]⟩
  lt x y := by
    rw [strcmp_neg x.valid.2.2.1 y.valid.2.2.1]
    exact Iff.rfl

/-- The string that `%s` prints of a buffer. -/
def cString (buf : Bytes) : Bytes := buf.takeWhile (· ≠ 0)

/-! ## Paths -/

/-- `"%s/%s"` of a path and a name in it. -/
def child (path : Bytes) (x : Name) : Bytes := path ++ slash :: x.bytes

/-- The path that the recursion reaches along the names of `p`. -/
def extend (path : Bytes) (p : List Name) : Bytes := p.foldl child path

/-- One component of a path, as the system resolves it. -/
def push (l : List Name) (piece : Bytes) : List Name :=
  if piece = ascii ".." then l.dropLast
  else if h : IsName piece then l ++ [⟨piece, h⟩]
  else l

/-- One byte of an absolute path: the names so far and the current piece. -/
def scan (state : List Name × Bytes) (b : Byte) : List Name × Bytes :=
  if b = slash then (push state.1 state.2, []) else (state.1, state.2 ++ [b])

/-- The location that an absolute path names. -/
def locate (path : Bytes) : List Name :=
  let state := path.foldl scan ([], [])
  push state.1 state.2

theorem foldl_scan_piece (piece : Bytes) (noSlash : slash ∉ piece) (l : List Name) (cur : Bytes) :
    piece.foldl scan (l, cur) = (l, cur ++ piece) := by
  induction piece generalizing cur with
  | nil => simp
  | cons b rest ih =>
      have : b ≠ slash := fun h => noSlash (by simp [h])
      simp [scan, this, ih (fun m => noSlash (List.mem_cons_of_mem _ m))]

@[simp] theorem locate_child (path : Bytes) (x : Name) :
    locate (child path x) = locate path ++ [x] := by
  have notUp : x.bytes ≠ ascii ".." := x.valid.2.2.2.2
  simp only [locate, child, List.foldl_append, List.foldl_cons]
  rw [show ∀ st, scan st slash = (push st.1 st.2, []) from fun st => by simp [scan],
    foldl_scan_piece x.bytes x.valid.2.1]
  simp [push, notUp, x.valid]

@[simp] theorem extend_nil (path : Bytes) : extend path [] = path := rfl

@[simp] theorem extend_cons (path : Bytes) (x : Name) (p : List Name) :
    extend path (x :: p) = extend (child path x) p := rfl

theorem extend_append (path : Bytes) (p q : List Name) :
    extend path (p ++ q) = extend (extend path p) q := List.foldl_append

@[simp] theorem locate_extend (path : Bytes) (p : List Name) :
    locate (extend path p) = locate path ++ p := by
  induction p generalizing path with
  | nil => simp
  | cons x p ih => simp [ih]

theorem length_child (path : Bytes) (x : Name) :
    path.length + 2 ≤ (child path x).length := by
  have : x.bytes.length ≠ 0 := fun h => x.valid.1 (List.length_eq_zero_iff.mp h)
  simp only [child, List.length_append, List.length_cons]
  omega

theorem length_extend (path : Bytes) (p : List Name) :
    (extend path p).length = path.length + (p.map fun x => x.bytes.length + 1).sum := by
  induction p generalizing path with
  | nil => simp
  | cons x p ih =>
      rw [extend_cons, ih, child]
      simp only [List.length_append, List.length_cons, List.map_cons, List.sum_cons]
      omega

/-! ## The system -/

abbrev Fs := FileTree Name Bytes

/-- One `diff` that `ssu_diff` runs: the two operands of the command. -/
structure Report where
  left : Bytes
  right : Bytes
  deriving Repr, DecidableEq

structure World where
  fs : Fs
  out : List Report

/-- Why a process does not reach its end. -/
inductive Stop where
  | exit (status : Nat)
  /-- A text went past its buffer. -/
  | overflow
  /-- The recursion bound of the model; no run reaches it. -/
  | depth
  deriving Repr, DecidableEq

abbrev Prog := Command World Stop

/-- What the unset locals of a call hold, by the path the call is for. -/
structure Junk where
  isDir : Bytes → Bool
  hash : Bytes → Bytes
  buf : Bytes → Bytes

/-- `sprintf` into a buffer of `BUFMAX` bytes. -/
def sprintf (text : Bytes) : Prog Bytes :=
  if text.length < BUFMAX then pure text else Command.stop .overflow

/-- What `stat` finds: nothing behind a missing name or a dangling link, and
    otherwise whether it is a directory. -/
def statOf : Option (Entry Bytes) → Option Bool
  | none | some .dangling => none
  | some .dir => some true
  | some (.file _) | some .locked => some false

/-- `stat`, then `S_ISDIR`; a failure leaves the buffer as it was. -/
def stat (path : Bytes) (statbuf : Bool) : Prog Bool :=
  Command.read fun w => (statOf (w.fs.get (locate path))).getD statbuf

/-- `access(path, F_OK) == 0`. -/
def access (path : Bytes) : Prog Bool :=
  Command.read fun w => (statOf (w.fs.get (locate path))).isSome

/-- The filter which all three programs give to `scandir`. -/
def scandirFilter (file : Name) : Bool :=
  !(file.bytes = ascii "." || file.bytes = ascii ".." || file.bytes = ascii ".git")

/-- `scandir` with `scandir_filter` and `alphasort`. -/
def scandir (path : Bytes) : Prog (Option (List Name)) :=
  Command.read fun w =>
    if w.fs.isDir (locate path) then some ((w.fs.children (locate path)).filter scandirFilter)
    else none

def mkdir (path : Bytes) : Prog Unit :=
  Command.update fun w => { w with fs := w.fs.mkdir (locate path) }

def rmdir (path : Bytes) : Prog Unit :=
  Command.update fun w => { w with fs := w.fs.rmdir (locate path) }

/-- The contents of a file that can be opened for reading. -/
def contents (path : Bytes) : Prog (Option Bytes) :=
  Command.read fun w =>
    match w.fs.get (locate path) with
    | some (.file data) => some data
    | _ => none

/-- `open` with `O_WRONLY | O_CREAT | O_TRUNC`; tells whether it succeeded. -/
def openTrunc (path : Bytes) : Prog Bool := do
  match ← Command.read fun w => w.fs.write (locate path) [] with
  | some fs => Command.update fun w => { w with fs := fs }; pure true
  | none => pure false

/-- `write` to a file that `openTrunc` has opened. -/
def writeAll (path data : Bytes) : Prog Unit :=
  Command.update fun w => { w with fs := (w.fs.write (locate path) data).getD w.fs }

def exit {α : Type} (status : Nat) : Prog α := Command.stop (.exit status)

/-- The commands that `molt` hands to the shell. -/
inductive ShellCommand where
  | mkdirDirname (path : Bytes)
  | cp (src dst : Bytes)

namespace ShellCommand

def line : ShellCommand → Bytes
  | .mkdirDirname path => ascii "mkdir -p $(dirname " ++ path ++ ascii ")"
  | .cp src dst => ascii "cp " ++ src ++ ascii " " ++ dst

/-- The effect on the tree when the shell reads each path as one word. -/
def effect (fs : Fs) : ShellCommand → Fs
  | .mkdirDirname path => fs.mkdirP (locate path).dropLast
  | .cp src dst => fs.cp (locate src) (locate dst)

end ShellCommand

/-- Format a command into `cmdline` and pass it to `system`. -/
def system (command : ShellCommand) : Prog Unit := do
  let _ ← sprintf command.line
  Command.update fun w => { w with fs := command.effect w.fs }

section Rules

variable {E : Stop → World → Prop} {w : World}

@[simp] theorem wp_sprintf {text : Bytes} {Q : Bytes → World → Prop} :
    (sprintf text).wp Q E w ↔
      (text.length < BUFMAX → Q text w) ∧ (¬ text.length < BUFMAX → E .overflow w) := by
  simp [sprintf]

@[simp] theorem wp_stat {path : Bytes} {old : Bool} {Q : Bool → World → Prop} :
    (stat path old).wp Q E w ↔ Q ((statOf (w.fs.get (locate path))).getD old) w := Iff.rfl

@[simp] theorem wp_access {path : Bytes} {Q : Bool → World → Prop} :
    (access path).wp Q E w ↔ Q (statOf (w.fs.get (locate path))).isSome w := Iff.rfl

@[simp] theorem wp_mkdir {path : Bytes} {Q : Unit → World → Prop} :
    (mkdir path).wp Q E w ↔ Q () { w with fs := w.fs.mkdir (locate path) } := Iff.rfl

@[simp] theorem wp_rmdir {path : Bytes} {Q : Unit → World → Prop} :
    (rmdir path).wp Q E w ↔ Q () { w with fs := w.fs.rmdir (locate path) } := Iff.rfl

@[simp] theorem wp_writeAll {path data : Bytes} {Q : Unit → World → Prop} :
    (writeAll path data).wp Q E w ↔
      Q () { w with fs := (w.fs.write (locate path) data).getD w.fs } := Iff.rfl

theorem wp_contents_unread {path : Bytes} {Q : Option Bytes → World → Prop}
    (unread : ∀ data, w.fs.get (locate path) ≠ some (.file data)) :
    (contents path).wp Q E w ↔ Q none w := by
  rw [contents, Command.wp_read]
  split
  · rename_i data readable
    exact (unread data readable).elim
  · rfl

theorem wp_openTrunc {path : Bytes} {Q : Bool → World → Prop} :
    (openTrunc path).wp Q E w ↔
      (∀ fs, w.fs.write (locate path) [] = some fs → Q true { w with fs := fs }) ∧
      (w.fs.write (locate path) [] = none → Q false w) := by
  cases h : w.fs.write (locate path) [] <;> simp [openTrunc, h]

@[simp] theorem wp_system {command : ShellCommand} {Q : Unit → World → Prop} :
    (system command).wp Q E w ↔
      (command.line.length < BUFMAX → Q () { w with fs := command.effect w.fs }) ∧
      (¬ command.line.length < BUFMAX → E .overflow w) := by
  simp [system]

/-- What `scandir` lists: the entries of the directory but for `.git`. -/
theorem wp_scandir {path : Bytes} {Q : Option (List Name) → World → Prop} :
    (scandir path).wp Q E w ↔
      Q (if w.fs.isDir (locate path) then
          some ((w.fs.children (locate path)).filter scandirFilter) else none) w := Iff.rfl

end Rules

end OslabProfiler.CompKernel
