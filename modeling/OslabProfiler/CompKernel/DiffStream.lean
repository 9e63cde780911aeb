import OslabProfiler.CompKernel.SsuDiff
import Mathlib.Data.List.TakeWhile

/-! # What ssu_diff prints

After three lines with its paths, `ssu_diff` prints for every report a line with
the second path and then what the command `diff` has printed. That is read from a
pipe with `fgets`, in pieces of less than `BUFMAX` bytes, and each piece is printed
as a string: up to its first NUL.
-/

namespace OslabProfiler.CompKernel

open Lib

def newline : Byte := 10

/-- `fgets` with room for `n` bytes: what is read, up to the end of a line, and what is
    left in the pipe. -/
def fgets : Nat → Bytes → Bytes × Bytes
  | 0, l => ([], l)
  | _ + 1, [] => ([], [])
  | n + 1, b :: l => if b = newline then ([b], l) else (b :: (fgets n l).1, (fgets n l).2)

/-- `while (fgets(buf, BUFMAX, fp)) printf("%s", buf)`, in at most `n` turns. -/
def copyLoop : Nat → Bytes → Bytes
  | 0, _ => []
  | _ + 1, [] => []
  | n + 1, b :: l =>
      let buf := fgets (BUFMAX - 1) (b :: l)
      cString buf.1 ++ copyLoop n buf.2

/-- What is printed of the output of a command. Every turn takes a byte or more, so the
    number of bytes is enough turns. -/
def copied (output : Bytes) : Bytes := copyLoop output.length output

/-- A report in the stream: the path of its header and the lines that `diff` prints for
    it. None of them looks like a header. -/
structure DiffEntry where
  path : Bytes
  lines : List Bytes
  pathString : 0 ∉ path
  pathLine : newline ∉ path
  oneLine : ∀ l ∈ lines, newline ∉ l
  noHeader : ∀ l ∈ lines, ¬ ascii "diff " <+: l

def DiffEntry.output (e : DiffEntry) : Bytes := e.lines.flatMap (· ++ [newline])

def DiffEntry.header (e : DiffEntry) : Bytes := ascii "diff " ++ e.path

/-- The paths in the first three lines. -/
structure Preamble where
  skinPath1 : Bytes
  skinPath2 : Bytes
  moltPath1 : Bytes
  moltPath2 : Bytes
  plain : ∀ p ∈ [skinPath1, skinPath2, moltPath1, moltPath2], newline ∉ p ∧ 0 ∉ p

/-- The three lines; `skin_path_org` is printed without ever being set. -/
def Preamble.lines (pre : Preamble) : List Bytes :=
  [ascii "skin_path : " ++ pre.skinPath1 ++ ascii " | " ++ pre.skinPath2,
    ascii "molt_path : " ++ pre.moltPath1 ++ ascii " | " ++ pre.moltPath2,
    ascii " " ++ pre.skinPath1 ++ ascii " " ++ pre.skinPath2]

/-- Everything that `ssu_diff` prints. -/
def diffStream (pre : Preamble) (entries : List DiffEntry) : Bytes :=
  pre.lines.flatMap (· ++ [newline]) ++
    entries.flatMap fun e => e.header ++ [newline] ++ copied e.output

/-- What one report prints, if the command `diff A B` prints `diff A B`. -/
def printReport (diff : Bytes → Bytes → Bytes) (r : Report) : Bytes :=
  ascii "diff " ++ r.right ++ [newline] ++ copied (diff r.left r.right)

/-- The stream of a run is that of its reports. -/
theorem diffStream_eq_reports (pre : Preamble) {diff : Bytes → Bytes → Bytes}
    {entries : List DiffEntry} {rs : List Report}
    (same : List.Forall₂ (fun e r => e.path = r.right ∧ e.output = diff r.left r.right)
      entries rs) :
    diffStream pre entries =
      pre.lines.flatMap (· ++ [newline]) ++ rs.flatMap (printReport diff) := by
  rw [diffStream, List.append_cancel_left_eq]
  induction same with
  | nil => rfl
  | cons head _ ih =>
      rw [List.flatMap_cons, List.flatMap_cons, ih, DiffEntry.header, head.1, head.2, printReport]

/-! ## Copying -/

theorem fgets_append (n : Nat) (l : Bytes) : (fgets n l).1 ++ (fgets n l).2 = l := by
  induction n generalizing l with
  | zero => rfl
  | succ n ih =>
      cases l with
      | nil => rfl
      | cons b l =>
          rw [fgets]
          split
          · rfl
          · rw [List.cons_append, ih]

theorem fgets_shorter (n : Nat) (b : Byte) (l : Bytes) :
    (fgets (n + 1) (b :: l)).2.length ≤ l.length := by
  rw [fgets]
  split
  · exact le_rfl
  · have whole := congrArg List.length (fgets_append n l)
    rw [List.length_append] at whole
    dsimp only
    omega

theorem cString_eq_self {l : Bytes} (string : 0 ∉ l) : cString l = l := by
  rw [cString, List.takeWhile_eq_self_iff]
  intro b member
  simpa using fun zero : b = 0 => string (zero ▸ member)

theorem zero_not_mem_cString (l : Bytes) : 0 ∉ cString l := by
  intro member
  simpa using List.mem_takeWhile_imp member

/-- Without a NUL everything is printed, however the pieces are cut. -/
theorem copyLoop_eq_self {n : Nat} {l : Bytes} (enough : l.length ≤ n) (string : 0 ∉ l) :
    copyLoop n l = l := by
  induction n generalizing l with
  | zero => exact (List.length_eq_zero_iff.mp (Nat.le_zero.mp enough)).symm
  | succ n ih =>
      cases l with
      | nil => rfl
      | cons b l =>
          have pieces := fgets_append (BUFMAX - 1) (b :: l)
          have shorter := fgets_shorter (BUFMAX - 2) b l
          rw [← pieces, List.mem_append, not_or] at string
          rw [copyLoop, cString_eq_self string.1, ih _ string.2, pieces]
          rw [List.length_cons] at enough
          exact shorter.trans (by omega)

theorem zero_not_mem_copyLoop (n : Nat) (l : Bytes) : 0 ∉ copyLoop n l := by
  induction n generalizing l with
  | zero => simp [copyLoop]
  | succ n ih =>
      cases l with
      | nil => simp [copyLoop]
      | cons b l =>
          rw [copyLoop, List.mem_append, not_or]
          exact ⟨zero_not_mem_cString _, ih _⟩

theorem copied_eq_self {output : Bytes} (string : 0 ∉ output) : copied output = output :=
  copyLoop_eq_self le_rfl string

/-- The printed stream is lines from the first byte to the last. -/
theorem diffStream_eq_lines (pre : Preamble) {entries : List DiffEntry}
    (strings : ∀ e ∈ entries, 0 ∉ e.output) :
    diffStream pre entries =
      (pre.lines ++ entries.flatMap fun e => e.header :: e.lines).flatMap (· ++ [newline]) := by
  rw [diffStream, List.flatMap_append, List.append_cancel_left_eq, List.flatMap_assoc]
  apply List.flatMap_congr
  intro e member
  rw [copied_eq_self (strings e member), List.flatMap_cons, DiffEntry.output]

/-- A NUL is never printed. -/
theorem zero_not_mem_diffStream (pre : Preamble) (entries : List DiffEntry) :
    0 ∉ diffStream pre entries := by
  have plain := pre.plain
  simp only [List.forall_mem_cons, List.not_mem_nil, false_implies, implies_true,
    and_true] at plain
  obtain ⟨skin1, skin2, molt1, molt2⟩ := plain
  rw [diffStream, List.mem_append, not_or]
  constructor
  · have literals : 0 ∉ ascii "skin_path : " ∧ 0 ∉ ascii "molt_path : " ∧ 0 ∉ ascii " | " ∧
        0 ∉ ascii " " := by decide
    simp [Preamble.lines, skin1.2, skin2.2, molt1.2, molt2.2, literals, newline]
  · intro member
    obtain ⟨e, _, here⟩ := List.mem_flatMap.mp member
    have literal : 0 ∉ ascii "diff " := by decide
    simp [DiffEntry.header, copied, e.pathString, literal, newline, zero_not_mem_copyLoop] at here

end OslabProfiler.CompKernel
