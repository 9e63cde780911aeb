import OslabProfiler.CompKernel.Prompt
import OslabProfiler.Lib.Loop
import OslabProfiler.Lib.Text

/-! # The loop of prompt.c

`main` calls `prompting` until it returns 0, which it does for the line `exit` only. At the
end of the input `fgets` leaves the buffer as it is: it still has the first word of the last
line in it, and every round takes one more character off and tries the rest as a line. So
the loop ends by itself only if `exit` turns up on the way. Otherwise a round finds the
buffer empty and writes before its beginning, or it finds nothing but blanks.
-/

namespace OslabProfiler.CompKernel

open Lib Command

/-! ## The source -/

/-- `while(prompting());` in at most so many rounds; `false` if it goes on after them. -/
def promptMain (forks : Bool) (rounds : Nat) : Prompting Bool := loop (prompting forks) rounds

/-! ## What is wanted -/

/-- The command on a line, if its first word is an instruction. -/
def command (text : Bytes) : List (Bytes × List Bytes) :=
  match words text with
  | [] => []
  | inst :: args => if instList.contains inst then [(inst, inst :: args)] else []

def typedLines (input : Bytes) : List Bytes := input.splitOn newline

/-- The commands that were typed, up to the line `exit`. -/
def typedCommands (input : Bytes) : List (Bytes × List Bytes) :=
  ((typedLines input).takeWhile (· ≠ ascii "exit")).flatMap command

/-- The loop ends, when all of the input has been read or at the line `exit`; every command
    that was typed has been executed once, and no other; and `buf[-1]` is never written. -/
structure EndsWithInput (input : Bytes) : Prop where
  ends : ∃ rounds t, Ends (promptMain true rounds) (promptOn input) true t ∧
    (t.stdin = [] ∨ ascii "exit" ∈ typedLines input) ∧ t.executed = typedCommands input
  inside : ∀ rounds, (promptMain true rounds (promptOn input)).1 ≠ .error .beforeBuffer

/-! ## One round in the loop -/

/-- A string in the buffer that gets through a round. -/
def Passes (text : Bytes) : Prop := text ≠ [] ∧ (text.dropLast = [] ∨ Spaced text.dropLast)

theorem command_nil : command [] = [] := by rw [command, words_nil]

theorem command_exit : command (ascii "exit") = [] := by decide +kernel

theorem spaced_exit : Spaced (ascii "exit") :=
  ⟨ascii "exit", [], by decide +kernel, .inl (by decide +kernel)⟩

theorem LineDone.executed {text : Bytes} {s t : Prompt} (done : LineDone text s t) :
    t.executed = s.executed ++ command text := by
  obtain ⟨inst, args, split, ⟨unknown, -, executed⟩ | ⟨known, -, -, executed⟩⟩ := done
  · have none : instList.contains inst = false := by simpa using unknown
    simp only [command, split, none, Bool.false_eq_true, if_false, List.append_nil, executed]
  · have found : instList.contains inst = true := by simpa using known
    simp only [command, split, found, if_true, executed]

theorem LineDone.spaced {text : Bytes} {s t : Prompt} (done : LineDone text s t) : Spaced text := by
  obtain ⟨inst, args, split, ⟨unknown, -, -⟩ | ⟨-, count, -, -⟩⟩ := done
  · exact ⟨inst, args, split, .inl unknown⟩
  · exact ⟨inst, args, split, .inr count⟩

theorem Round.executed {s t : Prompt} {goesOn : Bool} (round : Round s goesOn t) :
    t.executed = s.executed ++ command (taken s) := by
  obtain ⟨quit | empty, -, executed⟩ | ⟨-, done⟩ := round.line
  · rw [executed, quit, command_exit, List.append_nil]
  · rw [executed, empty, command_nil, List.append_nil]
  · exact done.executed

theorem Round.quit {s t : Prompt} (round : Round s false t) : taken s = ascii "exit" := by
  by_contra other
  exact absurd (round.goesOn.mpr other) (by decide)

theorem Round.passes {s t : Prompt} {goesOn : Bool} (round : Round s goesOn t) :
    Passes (CompKernel.received s) := by
  refine ⟨round.received, ?_⟩
  obtain ⟨quit | empty, -, -⟩ | ⟨-, done⟩ := round.line
  · exact .inr (by rw [← taken, quit]; exact spaced_exit)
  · exact .inl empty
  · exact .inr done.spaced

theorem Crash.not_passes {s : Prompt} {e : Halt} (crash : Crash s e) :
    ¬ Passes (received s) := by
  rintro ⟨some, empty | spaced⟩
  · exact (crash.line some).1 empty
  · exact (crash.line some).2 spaced

theorem upToWord_begins (text : Bytes) : upToWord text <+: text := ⟨behind text, upToWord_append text⟩

@[simp] theorem unread_nil : unread [] = [] := rfl

theorem received_of_nil {s : Prompt} (nothing : s.stdin = []) : received s = s.buf.string 0 := by
  rw [received, nothing]
  exact if_pos rfl

theorem piece_ne_nil {input : Bytes} (more : input ≠ []) : piece input ≠ [] := by
  cases input with
  | nil => exact absurd rfl more
  | cons b input =>
      rw [piece, show BUFFERSIZE - 1 = 4046 + 1 from rfl, fgets]
      split <;> simp

theorem received_of_ne_nil {s : Prompt} (more : s.stdin ≠ []) :
    received s = cString (piece s.stdin) := if_neg (piece_ne_nil more)

theorem length_unread_lt {input : Bytes} (more : input ≠ []) :
    (unread input).length < input.length := by
  cases input with
  | nil => exact absurd rfl more
  | cons b input => exact Nat.lt_succ_of_le (fgets_shorter _ b input)

/-- What a round leaves unread is read by the next ones. -/
@[elab_as_elim]
theorem unread_induction {motive : Bytes → Prop} (nil : motive [])
    (more : ∀ input, input ≠ [] → motive (unread input) → motive input) (input : Bytes) :
    motive input := by
  induction size : input.length using Nat.strong_induction_on generalizing input with
  | _ n ih =>
      by_cases nothing : input = []
      · rw [nothing]
        exact nil
      · exact more input nothing (ih _ (size ▸ length_unread_lt nothing) _ rfl)

/-- The loop does not go on for ever: a round takes something from the input or, at the end
    of the input, from the buffer. -/
theorem promptLoop_total (s : Prompt) : ∃ r t, LoopRuns (prompting true) s r t := by
  refine LoopRuns.total (fun s => s.stdin.length * BUFFERSIZE + (s.buf.string 0).length) ?_ s
  intro s t run
  have round := wp_ends (prompting_round s) run
  have inside := length_string_lt t.buf
  rw [round.stdin]
  by_cases nothing : s.stdin = []
  · have some := List.length_pos_iff.mpr round.received
    have shorter := (upToWord_begins (taken s)).length_le
    rw [taken, List.length_dropLast, received_of_nil nothing] at shorter
    rw [received_of_nil nothing] at some
    rw [round.held, taken, received_of_nil nothing, nothing, unread_nil]
    omega
  · have fewer := Nat.mul_le_mul_right BUFFERSIZE (length_unread_lt nothing)
    rw [Nat.succ_mul] at fewer
    omega

/-! ## At the end of the input -/

/-- The string in the buffer becomes `exit` when it loses characters at its end. -/
def LeavesExit (held : Bytes) : Prop := ascii "exit" <+: held ∧ held ≠ ascii "exit"

theorem LeavesExit.of_prefix {a b : Bytes} (front : a <+: b) (leaves : LeavesExit a) :
    LeavesExit b := by
  refine ⟨leaves.1.trans front, ?_⟩
  rintro rfl
  exact leaves.2 (front.eq_of_length_le leaves.1.length_le)

theorem leavesExit_iff_dropLast {held : Bytes} (other : held.dropLast ≠ ascii "exit") :
    LeavesExit held ↔ LeavesExit held.dropLast := by
  refine ⟨fun leaves => ⟨?_, other⟩, fun leaves => leaves.of_prefix (List.dropLast_prefix held)⟩
  cases held using List.reverseRecOn with
  | nil => exact leaves.1
  | append_singleton front b =>
      rw [List.dropLast_concat]
      cases List.prefix_concat_iff.mp leaves.1 with
      | inl whole => exact absurd whole.symm leaves.2
      | inr shorter => exact shorter

theorem leavesExit_of_dropLast {held : Bytes} (last : held.dropLast = ascii "exit") :
    LeavesExit held := by
  refine ⟨last ▸ List.dropLast_prefix held, ?_⟩
  rintro rfl
  exact absurd last (by decide +kernel)

/-- A single word that begins with `exit` is no instruction. -/
theorem not_instruction {text : Bytes} (begins : ascii "exit" <+: text) : text ∉ instList := by
  have none : ∀ inst ∈ instList, ¬ ascii "exit" <+: inst := by decide +kernel
  exact fun member => none text member begins

section ExitWord

variable {text : Bytes} (begins : ascii "exit" <+: text) (word : space ∉ text)

include begins

theorem nonempty_of_exit : text ≠ [] := by
  rintro rfl
  exact exit_ne_nil (List.prefix_nil.mp begins)

include word

theorem words_of_exit : words text = [text] := words_word (nonempty_of_exit begins) word

theorem spaced_of_exit : Spaced text :=
  ⟨text, [], words_of_exit begins word, .inl (not_instruction begins)⟩

theorem command_of_exit : command text = [] := by
  have none : instList.contains text = false := by simpa using not_instruction begins
  simp only [command, words_of_exit begins word, none, Bool.false_eq_true, if_false]

omit begins in
theorem upToWord_of_word : upToWord text = text := by
  have noGap : text.dropWhile (· = space) = text ∧ text.takeWhile (· = space) = [] := by
    cases text with
    | nil => exact ⟨rfl, rfl⟩
    | cons b text =>
        have other : ¬ b = space := fun same => word (by simp [same])
        simp [other]
  have all : text.takeWhile (· ≠ space) = text := by
    rw [List.takeWhile_eq_self_iff]
    intro b member
    simpa using fun same : b = space => word (same ▸ member)
  rw [upToWord, gap, nextWord, noGap.1, noGap.2, all, List.nil_append]

end ExitWord

/-- What is left of a line is a single word, if it begins with `exit`. -/
theorem word_of_exit (text : Bytes) (begins : ascii "exit" <+: upToWord text) :
    space ∉ upToWord text := by
  rw [upToWord] at begins ⊢
  cases blanks : gap text with
  | nil =>
      rw [List.nil_append]
      exact space_not_mem_nextWord text
  | cons b rest =>
      have blank : b = space := by
        have member : b ∈ gap text := by simp [blanks]
        simpa using List.mem_takeWhile_imp member
      have letters : ascii "exit" = 101 :: ascii "xit" := by decide +kernel
      rw [blanks, blank, letters, List.cons_append, List.cons_prefix_cons] at begins
      exact absurd begins.1 (by decide)

/-- At the end of the input the loop ends exactly if `exit` is left in the buffer. -/
theorem loop_at_end {s t : Prompt} {r : Except Halt Unit} (run : LoopRuns (prompting true) s r t)
    (nothing : s.stdin = []) (word : ascii "exit" <+: s.buf.string 0 → space ∉ s.buf.string 0) :
    (r = .ok () ↔ LeavesExit (s.buf.string 0)) ∧
      (r = .ok () → t.executed = s.executed ∧ t.stdin = []) := by
  have held := received_of_nil nothing
  induction run with
  | @ended s t last =>
      have round := wp_ends (prompting_round s) last
      refine ⟨iff_of_true rfl (leavesExit_of_dropLast (held ▸ round.quit)), fun _ => ⟨?_, ?_⟩⟩
      · rw [round.executed, round.quit, command_exit, List.append_nil]
      · rw [round.stdin, nothing, unread_nil]
  | @stopped s t e halt =>
      have crash := wp_stops (prompting_round s) (congrArg Prod.fst halt)
      refine ⟨iff_of_false (by simp) fun leaves => ?_, fun no => absurd no (by simp)⟩
      have shorter := (leavesExit_iff_dropLast (held ▸ crash.other)).mp leaves
      refine crash.not_passes ⟨held ▸ nonempty_of_exit leaves.1, .inr ?_⟩
      rw [held]
      exact spaced_of_exit shorter.1 fun blank => word leaves.1 (List.dropLast_subset _ blank)
  | @again s t u r next rest ih =>
      have round := wp_ends (prompting_round s) next
      have other := round.goesOn.mp rfl
      have cut : taken s = (s.buf.string 0).dropLast := by rw [taken, held]
      have single : LeavesExit (s.buf.string 0) → ascii "exit" <+: taken s ∧ space ∉ taken s := by
        intro leaves
        rw [leavesExit_iff_dropLast (cut ▸ other), ← cut] at leaves
        refine ⟨leaves.1, fun blank => ?_⟩
        rw [cut] at leaves blank
        exact word (leaves.1.trans (List.dropLast_prefix _)) (List.dropLast_subset _ blank)
      have same : LeavesExit (t.buf.string 0) ↔ LeavesExit (s.buf.string 0) := by
        rw [round.held]
        constructor
        · intro leaves
          exact leaves.of_prefix ((upToWord_begins _).trans (cut ▸ List.dropLast_prefix _))
        · intro leaves
          rw [upToWord_of_word (single leaves).2]
          exact ⟨(single leaves).1, other⟩
      have ended : t.stdin = [] := by rw [round.stdin, nothing, unread_nil]
      obtain ⟨ends, state⟩ := ih ended (round.held ▸ word_of_exit _) (received_of_nil ended)
      refine ⟨ends.trans same, fun ok => ?_⟩
      obtain ⟨begins, blankless⟩ := single (same.mp (ends.mp ok))
      obtain ⟨executed, stdin⟩ := state ok
      refine ⟨?_, stdin⟩
      rw [executed, round.executed, command_of_exit begins blankless, List.append_nil]

/-! ## All rounds -/

def piecesFrom : Nat → Bytes → List Bytes
  | 0, _ => []
  | _ + 1, [] => []
  | n + 1, b :: input => piece (b :: input) :: piecesFrom n (unread (b :: input))

/-- What the rounds read, one after the other. Each takes a byte or more. -/
def pieces (input : Bytes) : List Bytes := piecesFrom input.length input

theorem piecesFrom_eq {n : Nat} {input : Bytes} (enough : input.length ≤ n) :
    piecesFrom n input = pieces input := by
  induction n using Nat.strong_induction_on generalizing input with
  | _ n ih =>
      cases input with
      | nil => cases n <;> rfl
      | cons b input =>
          cases n with
          | zero => cases enough
          | succ n =>
              have shorter := Nat.le_of_lt_succ (length_unread_lt (List.cons_ne_nil b input))
              have within : input.length ≤ n := Nat.le_of_succ_le_succ enough
              rw [pieces, List.length_cons, piecesFrom, piecesFrom,
                ih n (Nat.lt_succ_self n) (shorter.trans within)]
              by_cases last : input.length = n
              · rw [last, ih n (Nat.lt_succ_self n) (shorter.trans within)]
              · rw [ih input.length (by omega) shorter]

@[simp] theorem pieces_nil : pieces [] = [] := rfl

theorem pieces_of_ne_nil {input : Bytes} (more : input ≠ []) :
    pieces input = piece input :: pieces (unread input) := by
  cases input with
  | nil => exact absurd rfl more
  | cons b input =>
      have shorter := Nat.le_of_lt_succ (length_unread_lt (List.cons_ne_nil b input))
      rw [pieces, List.length_cons, piecesFrom, piecesFrom_eq shorter]

theorem piece_append (input : Bytes) : piece input ++ unread input = input := fgets_append _ input

theorem flatten_pieces (input : Bytes) : (pieces input).flatten = input := by
  induction input using unread_induction with
  | nil => rw [pieces_nil, List.flatten_nil]
  | more input nonempty ih =>
      rw [pieces_of_ne_nil nonempty, List.flatten_cons, ih, piece_append]

/-- What a round takes a piece for. -/
def shown (p : Bytes) : Bytes := (cString p).dropLast

/-- The pieces before the one that is taken for `exit`, -/
def beforeExit (ps : List Bytes) : List Bytes := ps.takeWhile (shown · ≠ ascii "exit")

/-- and those from it on. -/
def fromExit (ps : List Bytes) : List Bytes := ps.dropWhile (shown · ≠ ascii "exit")

/-- What is left of the last piece in a buffer that began with `held`. -/
def lastHeld (held : Bytes) : List Bytes → Bytes
  | [] => held
  | p :: ps => lastHeld (upToWord (shown p)) ps

/-- The rounds that read get through, and then the loop ends, at a piece or at the end. -/
structure Quits (held : Bytes) (ps : List Bytes) : Prop where
  passes : ∀ p ∈ beforeExit ps, Passes (cString p)
  leaves : fromExit ps = [] → LeavesExit (lastHeld held ps)

section Pieces

variable {held p : Bytes} {ps : List Bytes}

theorem beforeExit_of_exit (quit : shown p = ascii "exit") : beforeExit (p :: ps) = [] :=
  List.takeWhile_cons_of_neg (by simp [quit])

theorem fromExit_of_exit (quit : shown p = ascii "exit") : fromExit (p :: ps) = p :: ps :=
  List.dropWhile_cons_of_neg (by simp [quit])

theorem beforeExit_of_ne (other : shown p ≠ ascii "exit") :
    beforeExit (p :: ps) = p :: beforeExit ps := List.takeWhile_cons_of_pos (by simp [other])

theorem fromExit_of_ne (other : shown p ≠ ascii "exit") : fromExit (p :: ps) = fromExit ps :=
  List.dropWhile_cons_of_pos (by simp [other])

theorem quits_nil : Quits held [] ↔ LeavesExit held :=
  ⟨fun quits => quits.leaves rfl, fun leaves => ⟨by simp [beforeExit], fun _ => leaves⟩⟩

theorem quits_of_exit (quit : shown p = ascii "exit") : Quits held (p :: ps) := by
  refine ⟨by simp [beforeExit_of_exit quit], fun none => ?_⟩
  rw [fromExit_of_exit quit] at none
  cases none

theorem quits_cons (other : shown p ≠ ascii "exit") :
    Quits held (p :: ps) ↔ Passes (cString p) ∧ Quits (upToWord (shown p)) ps := by
  constructor
  · rintro ⟨passes, leaves⟩
    rw [beforeExit_of_ne other, List.forall_mem_cons] at passes
    rw [fromExit_of_ne other] at leaves
    exact ⟨passes.1, passes.2, leaves⟩
  · rintro ⟨first, passes, leaves⟩
    refine ⟨?_, ?_⟩
    · rw [beforeExit_of_ne other, List.forall_mem_cons]
      exact ⟨first, passes⟩
    · rw [fromExit_of_ne other]
      exact leaves

end Pieces

/-- How the loop comes out, and what it has done if it ends. -/
theorem loop_reads {s t : Prompt} {r : Except Halt Unit} (run : LoopRuns (prompting true) s r t)
    (word : ascii "exit" <+: s.buf.string 0 → space ∉ s.buf.string 0) :
    (r = .ok () ↔ Quits (s.buf.string 0) (pieces s.stdin)) ∧
      (r = .ok () →
        t.executed = s.executed ++ (beforeExit (pieces s.stdin)).flatMap (fun p => command (shown p)) ∧
          t.stdin = (fromExit (pieces s.stdin)).tail.flatten) := by
  induction stdin : s.stdin using unread_induction generalizing s with
  | nil =>
      obtain ⟨ends, state⟩ := loop_at_end run stdin word
      rw [pieces_nil]
      refine ⟨ends.trans quits_nil.symm, fun ok => ?_⟩
      simpa [beforeExit, fromExit] using state ok
  | more input nonempty ih =>
      have text : received s = cString (piece input) := by
        rw [received_of_ne_nil (stdin ▸ nonempty), stdin]
      have line : taken s = shown (piece input) := by rw [taken, text, shown]
      rw [pieces_of_ne_nil nonempty]
      cases run with
      | ended last =>
          have round := wp_ends (prompting_round s) last
          have quit : shown (piece input) = ascii "exit" := line ▸ round.quit
          refine ⟨iff_of_true rfl (quits_of_exit quit), fun _ => ⟨?_, ?_⟩⟩
          · rw [beforeExit_of_exit quit, List.flatMap_nil, round.executed, round.quit, command_exit]
          · rw [fromExit_of_exit quit, List.tail_cons, flatten_pieces, round.stdin, stdin]
      | stopped halt =>
          have crash := wp_stops (prompting_round s) (congrArg Prod.fst halt)
          refine ⟨iff_of_false (by simp) fun quits => ?_, fun no => absurd no (by simp)⟩
          exact crash.not_passes (text ▸ ((quits_cons (line ▸ crash.other)).mp quits).1)
      | again next rest =>
          have round := wp_ends (prompting_round s) next
          have other : shown (piece input) ≠ ascii "exit" := line ▸ round.goesOn.mp rfl
          obtain ⟨ends, state⟩ := ih rest (round.held ▸ word_of_exit _) (stdin ▸ round.stdin)
          rw [round.held, line] at ends
          rw [round.executed, line] at state
          have passes : Passes (cString (piece input)) := text ▸ round.passes
          rw [quits_cons other, and_iff_right passes, beforeExit_of_ne other,
            fromExit_of_ne other, List.flatMap_cons, ← List.append_assoc]
          exact ⟨ends, state⟩

/-! ## When the prompt ends with its input -/

/-- The prompt takes what it reads for the commands that were typed, gets through all of it
    up to an `exit`, and finds such a line. Without one it needs a last line whose first word
    begins with `exit` and has more letters, at the very beginning of the line. -/
structure WellClosed (input : Bytes) : Prop where
  passes : ∀ p ∈ beforeExit (pieces input), Passes (cString p)
  commands : (beforeExit (pieces input)).flatMap (fun p => command (shown p)) = typedCommands input
  leaves : fromExit (pieces input) = [] → LeavesExit (lastHeld [] (pieces input))
  last : (fromExit (pieces input)).tail = [] ∨ ascii "exit" ∈ typedLines input

theorem piece_mem_ne_nil {input p : Bytes} (member : p ∈ pieces input) : p ≠ [] := by
  induction input using unread_induction with
  | nil =>
      rw [pieces_nil] at member
      cases member
  | more input nonempty ih =>
      rw [pieces_of_ne_nil nonempty, List.mem_cons] at member
      cases member with
      | inl first =>
          rw [first]
          exact piece_ne_nil nonempty
      | inr later => exact ih later

/-- Something is left unread exactly if there are pieces left. -/
theorem flatten_tail_fromExit (input : Bytes) :
    (fromExit (pieces input)).tail.flatten = [] ↔ (fromExit (pieces input)).tail = [] := by
  constructor
  · intro nothing
    apply List.eq_nil_iff_forall_not_mem.mpr
    intro p member
    have there : p ∈ pieces input :=
      (List.dropWhile_sublist _).subset (List.mem_of_mem_tail member)
    exact piece_mem_ne_nil there (List.flatten_eq_nil_iff.mp nothing p member)
  · intro nothing
    rw [nothing, List.flatten_nil]

/-! ## Complete lines -/

/-- A line that fits into the buffer together with its newline. -/
structure PlainLine (l : Bytes) : Prop where
  oneLine : newline ∉ l
  string : 0 ∉ l
  fits : l.length + 1 < BUFFERSIZE

theorem fgets_line {n : Nat} {l : Bytes} (oneLine : newline ∉ l) (room : l.length < n)
    (rest : Bytes) : fgets n (l ++ newline :: rest) = (l ++ [newline], rest) := by
  induction l generalizing n with
  | nil =>
      cases n with
      | zero => cases room
      | succ n => simp [fgets]
  | cons b l ih =>
      obtain ⟨other, clean⟩ := not_or.mp (mt List.mem_cons.mpr oneLine)
      cases n with
      | zero => cases room
      | succ n =>
          rw [List.cons_append, fgets, if_neg (Ne.symm other), ih clean (Nat.lt_of_succ_lt_succ room),
            List.cons_append]

theorem pieces_line {l : Bytes} (plain : PlainLine l) (rest : Bytes) :
    pieces (l ++ newline :: rest) = (l ++ [newline]) :: pieces rest := by
  have read := fgets_line plain.oneLine (Nat.lt_sub_of_add_lt plain.fits) rest
  rw [pieces_of_ne_nil (by simp), piece, unread, read]

theorem shown_line {l : Bytes} (plain : PlainLine l) : shown (l ++ [newline]) = l := by
  have string : (0 : Byte) ∉ l ++ [newline] := by simpa [newline] using plain.string
  rw [shown, cString_eq_self string, List.dropLast_concat]

theorem passes_line {l : Bytes} (plain : PlainLine l) :
    Passes (cString (l ++ [newline])) ↔ l = [] ∨ Spaced l := by
  have string : (0 : Byte) ∉ l ++ [newline] := by simpa [newline] using plain.string
  rw [Passes, cString_eq_self string, List.dropLast_concat, and_iff_right (by simp)]

section Lines

variable {lines : List Bytes} (plain : ∀ l ∈ lines, PlainLine l)

include plain

theorem pieces_lines : pieces (lines.flatMap (· ++ [newline])) = lines.map (· ++ [newline]) := by
  induction lines with
  | nil => rfl
  | cons l lines ih =>
      rw [List.forall_mem_cons] at plain
      rw [List.flatMap_cons, List.append_assoc, List.singleton_append, pieces_line plain.1,
        ih plain.2, List.map_cons]

theorem beforeExit_lines :
    beforeExit (lines.map (· ++ [newline])) =
      (lines.takeWhile (· ≠ ascii "exit")).map (· ++ [newline]) := by
  induction lines with
  | nil => rfl
  | cons l lines ih =>
      rw [List.forall_mem_cons] at plain
      rw [List.map_cons]
      by_cases quit : l = ascii "exit"
      · rw [beforeExit_of_exit (by rw [shown_line plain.1, quit]),
          List.takeWhile_cons_of_neg (by simp [quit]), List.map_nil]
      · rw [beforeExit_of_ne (by rwa [shown_line plain.1]),
          List.takeWhile_cons_of_pos (by simp [quit]), List.map_cons, ih plain.2]

theorem fromExit_lines : fromExit (lines.map (· ++ [newline])) = [] ↔ ascii "exit" ∉ lines := by
  rw [fromExit, List.dropWhile_eq_nil_iff, List.forall_mem_map]
  constructor
  · intro none member
    have other := none _ member
    rw [shown_line (plain _ member)] at other
    simp at other
  · intro absent l member
    rw [shown_line (plain l member)]
    simpa using fun quit : l = ascii "exit" => absent (quit ▸ member)

theorem lastHeld_lines (held : Bytes) :
    lastHeld held (lines.map (· ++ [newline])) = (lines.getLast?.map upToWord).getD held := by
  induction lines generalizing held with
  | nil => rfl
  | cons l lines ih =>
      rw [List.forall_mem_cons] at plain
      rw [List.map_cons, lastHeld, shown_line plain.1, ih plain.2]
      cases lines with
      | nil => rfl
      | cons l' lines =>
          rw [List.getLast?_cons_cons, List.getLast?_cons, Option.map_some, Option.getD_some,
            Option.getD_some]

theorem typedLines_lines : typedLines (lines.flatMap (· ++ [newline])) = lines ++ [[]] :=
  splitOn_lines fun l member => (plain l member).oneLine

theorem commands_lines :
    (beforeExit (lines.map (· ++ [newline]))).flatMap (fun p => command (shown p)) =
      typedCommands (lines.flatMap (· ++ [newline])) := by
  have seen : (beforeExit (lines.map (· ++ [newline]))).flatMap (fun p => command (shown p)) =
      (lines.takeWhile (· ≠ ascii "exit")).flatMap command := by
    rw [beforeExit_lines plain, List.flatMap_map]
    refine List.flatMap_congr fun l member => ?_
    rw [shown_line (plain l ((List.takeWhile_sublist _).subset member))]
  rw [seen, typedCommands, typedLines_lines plain, List.takeWhile_append]
  split_ifs with all
  · -- the empty text behind the last newline is no command
    have none : ([[]] : List Bytes).flatMap command = [] := by
      rw [List.flatMap_singleton, command_nil]
    have last : ([[]] : List Bytes).takeWhile (· ≠ ascii "exit") = [[]] := by
      simp [exit_ne_nil.symm]
    have whole : lines.takeWhile (· ≠ ascii "exit") = lines :=
      (List.takeWhile_sublist _).eq_of_length all
    rw [last, whole, List.flatMap_append, none, List.append_nil]
  · rfl

/-- On complete lines the condition is about the blanks before `exit`, and about the last
    line if there is no `exit`. -/
theorem wellClosed_lines_iff :
    WellClosed (lines.flatMap (· ++ [newline])) ↔
      (∀ l ∈ lines.takeWhile (· ≠ ascii "exit"), l = [] ∨ Spaced l) ∧
        (ascii "exit" ∈ lines ∨ ∃ last, lines.getLast? = some last ∧ LeavesExit (upToWord last)) := by
  have passes : (∀ p ∈ beforeExit (lines.map (· ++ [newline])), Passes (cString p)) ↔
      ∀ l ∈ lines.takeWhile (· ≠ ascii "exit"), l = [] ∨ Spaced l := by
    rw [beforeExit_lines plain, List.forall_mem_map]
    exact forall₂_congr fun l member =>
      passes_line (plain l ((List.takeWhile_sublist _).subset member))
  have leaves : LeavesExit (lastHeld [] (lines.map (· ++ [newline]))) ↔
      ∃ last, lines.getLast? = some last ∧ LeavesExit (upToWord last) := by
    rw [lastHeld_lines plain]
    cases lines.getLast? with
    | none => exact iff_of_false (fun leaves => nonempty_of_exit leaves.1 rfl) (by simp)
    | some last => simp
  constructor
  · intro closed
    rw [← passes, ← leaves]
    have passed := closed.passes
    have ends := closed.leaves
    rw [pieces_lines plain] at passed ends
    refine ⟨passed, or_iff_not_imp_left.mpr fun absent => ends ((fromExit_lines plain).mpr absent)⟩
  · rintro ⟨spaced, ends⟩
    refine ⟨?_, ?_, ?_, ?_⟩
    · rw [pieces_lines plain]
      exact passes.mpr spaced
    · rw [pieces_lines plain]
      exact commands_lines plain
    · rw [pieces_lines plain, fromExit_lines plain, leaves]
      exact ends.resolve_left
    · rw [pieces_lines plain, typedLines_lines plain]
      by_cases quit : ascii "exit" ∈ lines
      · exact .inr (List.mem_append_left _ quit)
      · exact .inl (by rw [(fromExit_lines plain).mpr quit, List.tail_nil])

end Lines

/-! ## The loop and its input -/

/-- The prompt ends with its input exactly in these cases. -/
theorem endsWithInput_iff (input : Bytes) : EndsWithInput input ↔ WellClosed input := by
  have empty : (promptOn input).buf.string 0 = [] := by rfl
  have word : ascii "exit" <+: (promptOn input).buf.string 0 →
      space ∉ (promptOn input).buf.string 0 := by
    rw [empty]
    simp
  constructor
  · rintro ⟨⟨rounds, t, ends, stdin, executed⟩, -⟩
    have run : LoopRuns (prompting true) (promptOn input) (.ok ()) t :=
      loopRuns_iff.mpr ⟨rounds, ends⟩
    obtain ⟨quits, state⟩ := loop_reads run word
    obtain ⟨passes, leaves⟩ := quits.mp rfl
    obtain ⟨done, rest⟩ := state rfl
    refine ⟨passes, ?_, empty ▸ leaves, ?_⟩
    · rw [← executed, done]
      rfl
    · rw [rest] at stdin
      exact stdin.imp_left (flatten_tail_fromExit input).mp
  · rintro ⟨passes, commands, leaves, last⟩
    obtain ⟨r, t, run⟩ := promptLoop_total (promptOn input)
    obtain ⟨quits, state⟩ := loop_reads run word
    obtain rfl := quits.mpr ⟨passes, empty ▸ leaves⟩
    obtain ⟨done, rest⟩ := state rfl
    obtain ⟨rounds, ends⟩ := loopRuns_iff.mp run
    refine ⟨⟨rounds, t, ends, ?_, ?_⟩, ?_⟩
    · rw [rest]
      exact last.imp_left (flatten_tail_fromExit input).mpr
    · rw [done]
      exact commands
    · intro more crash
      have other : LoopRuns (prompting true) (promptOn input) (.error .beforeBuffer) _ :=
        loopRuns_iff.mpr ⟨more, Prod.ext crash rfl⟩
      exact absurd (run.unique other).1 (by simp)

/-- A command, and then `exit`. -/
theorem endsWithInput_exit :
    EndsWithInput ([ascii "ls -l", ascii "exit"].flatMap (· ++ [newline])) := by
  have plain : ∀ l ∈ [ascii "ls -l", ascii "exit"], PlainLine l := by
    rw [List.forall_mem_cons, List.forall_mem_singleton]
    exact ⟨⟨by decide +kernel, by decide +kernel, by decide +kernel⟩,
      ⟨by decide +kernel, by decide +kernel, by decide +kernel⟩⟩
  have before : [ascii "ls -l", ascii "exit"].takeWhile (· ≠ ascii "exit") = [ascii "ls -l"] := by
    decide +kernel
  refine (endsWithInput_iff _).mpr ((wellClosed_lines_iff plain).mpr ⟨?_, .inl (by simp)⟩)
  rw [before, List.forall_mem_singleton]
  exact .inr ⟨ascii "ls", [ascii "-l"], by decide +kernel, .inr (by decide +kernel)⟩

/-- After the command `ls` and the end of the input the buffer runs empty; after the line
    `lsx`, which is no command, it has `ls` in it on the way. -/
theorem prompt_outlives_input :
    (promptMain true 4 (promptOn (ascii "ls" ++ [newline]))).1 = .error .beforeBuffer ∧
      ¬ EndsWithInput (ascii "ls" ++ [newline]) ∧
      typedCommands (ascii "lsx" ++ [newline]) = [] ∧
      (promptMain true 2 (promptOn (ascii "lsx" ++ [newline]))).2.executed =
        [(ascii "ls", [ascii "ls"])] ∧
      ¬ EndsWithInput (ascii "lsx" ++ [newline]) := by
  have list : (promptMain true 4 (promptOn (ascii "ls" ++ [newline]))).1 =
      .error .beforeBuffer := by decide +kernel
  have other : (promptMain true 5 (promptOn (ascii "lsx" ++ [newline]))).1 =
      .error .beforeBuffer := by decide +kernel
  refine ⟨list, fun right => right.inside 4 list, by decide +kernel, by decide +kernel,
    fun right => right.inside 5 other⟩

end OslabProfiler.CompKernel
