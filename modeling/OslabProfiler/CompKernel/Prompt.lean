import OslabProfiler.CompKernel.DiffStream

/-! # prompt.c

The prompt reads a line into a buffer, cuts the last character off, counts the blanks in
it and takes it apart with `strtok`. The count decides how many arguments are asked for,
while `strtok` skips any number of blanks at once; it answers NULL when there is no word
left. The buffer is global: it keeps what earlier lines left behind, and so does the place
where `strtok` goes on.
-/

namespace OslabProfiler.CompKernel

open Lib Command

def BUFFERSIZE : Nat := 4048

def space : Byte := 32

/-- `char buf[4048]`, in which there always is a NUL. -/
structure Buffer where
  bytes : Bytes
  length : bytes.length = BUFFERSIZE
  ends : 0 ∈ bytes

/-- The string that begins at a place. -/
def Buffer.string (b : Buffer) (i : Nat) : Bytes := cString (b.bytes.drop i)

theorem zero_mem_set {l : Bytes} (ends : 0 ∈ l) (i : Nat) : 0 ∈ l.set i 0 := by
  by_cases inside : i < l.length
  · exact List.mem_set inside 0
  · rwa [List.set_eq_of_length_le (not_lt.mp inside)]

/-- `buf[i] = '\0'`. -/
def Buffer.cut (b : Buffer) (i : Nat) : Buffer :=
  ⟨b.bytes.set i 0, by rw [List.length_set, b.length], zero_mem_set b.ends i⟩

/-- A text that is read into the buffer, with a NUL behind it. -/
def Buffer.load (b : Buffer) (text : Bytes) (fits : text.length < BUFFERSIZE) : Buffer :=
  ⟨text ++ 0 :: b.bytes.drop (text.length + 1), by simp [b.length]; omega, by simp⟩

/-- The process: its buffer, the place where `strtok` goes on, its input and output, and the
    programs that were executed, each with its arguments. -/
structure Prompt where
  buf : Buffer
  save : Nat
  stdin : Bytes
  stdout : Bytes
  executed : List (Bytes × List Bytes)

/-- Why the process ends in the middle of `prompting`. -/
inductive Halt where
  /-- `buf[-1]` is written. -/
  | beforeBuffer
  /-- NULL is compared or measured. -/
  | nullString
  /-- A copy does not fit into the memory for it. -/
  | heapOverflow
  | exit (status : Nat)
  deriving DecidableEq

abbrev Prompting := Command Prompt Halt

/-! ## The source -/

def print (text : Bytes) : Prompting Unit := update fun s => { s with stdout := s.stdout ++ text }

theorem fgets_length_le (n : Nat) (l : Bytes) : (fgets n l).1.length ≤ n := by
  induction n generalizing l with
  | zero => exact le_rfl
  | succ n ih =>
      cases l with
      | nil => exact Nat.zero_le _
      | cons b l =>
          rw [fgets]
          split
          · simp
          · simpa using ih l

/-- `fgets(buf, BUFFERSIZE, stdin)`; at the end of the input the buffer stays as it is. -/
def readLine : Prompting Unit := update fun s =>
  let taken := fgets (BUFFERSIZE - 1) s.stdin
  if taken.1 = [] then { s with stdin := taken.2 }
  else
    { s with
      buf := s.buf.load taken.1 (Nat.lt_of_le_of_lt (fgets_length_le _ s.stdin) (by decide))
      stdin := taken.2 }

/-- `buf[strlen(buf)-1] = '\0'`. -/
def cutLast : Prompting Unit := do
  let length ← read fun s => (s.buf.string 0).length
  if length = 0 then stop .beforeBuffer else update fun s => { s with buf := s.buf.cut (length - 1) }

def countArgNum (s : Bytes) : Nat := s.count space

def instList : List Bytes := [ascii "skin", ascii "molt", ascii "ls", ascii "vi"]

def instChecking (inst : Bytes) : Bool := instList.any fun name => strcmp name inst = 0

/-- The blanks before the next word, -/
def gap (text : Bytes) : Bytes := text.takeWhile (· = space)

/-- the word, -/
def nextWord (text : Bytes) : Bytes := (text.dropWhile (· = space)).takeWhile (· ≠ space)

/-- and the rest of the text. -/
def behind (text : Bytes) : Bytes := (text.dropWhile (· = space)).dropWhile (· ≠ space)

/-- `strtok(s, " ")`: the place of the next word, which is closed by a NUL. -/
def strtok (s : Option Nat) : Prompting (Option Nat) := do
  let start ← read fun st => s.getD st.save
  let text ← read fun st => st.buf.string start
  let first := start + (gap text).length
  let last := first + (nextWord text).length
  if nextWord text = [] then do
    update fun st => { st with save := first }
    pure none
  else if last < start + text.length then do
    update fun st => { st with buf := st.buf.cut last, save := last + 1 }
    pure (some first)
  else do
    update fun st => { st with save := last }
    pure (some first)

/-- One turn of the loop over the arguments. -/
def copyArg (args : List Bytes) : Prompting (List Bytes) := do
  match ← strtok none with
  | none => stop .nullString
  | some arg =>
      let copy ← read fun s => s.buf.string arg
      pure (args ++ [copy])

/-- The size of a pointer. -/
def pointerSize : Nat := 8

/-- `args`, without the NULL at its end. -/
def copyArgs (inst argCnt : Nat) : Prompting (List Bytes) := do
  let name ← read fun s => s.buf.string inst
  let room ← read fun s => (s.buf.string (inst + 1)).length * pointerSize
  if room < name.length + 1 then stop .heapOverflow
  else fold (fun args _ => copyArg args) [name] (List.range argCnt)

def unknownText (inst : Bytes) : Bytes := ascii "unknown instruction for " ++ inst ++ [newline]

/-- What is done with a line that is neither `exit` nor empty. -/
def runLine (forks : Bool) (text : Bytes) : Prompting Bool := do
  match ← strtok (some 0) with
  -- `inst_checking` compares NULL
  | none => stop .nullString
  | some inst =>
      let name ← read fun s => s.buf.string inst
      if instChecking name = false then do
        print (unknownText name)
        pure true
      else do
        let args ← copyArgs inst (countArgNum text)
        if forks = false then stop (.exit 1)
        else do
          -- `execv(inst, args)` in the child
          update fun s => { s with executed := s.executed ++ [(s.buf.string inst, args)] }
          pure true

/-- One round of the prompt; `false` ends the loop of `main`. -/
def prompting (forks : Bool) : Prompting Bool := do
  print (ascii "> ")
  readLine
  cutLast
  let text ← read fun s => s.buf.string 0
  if strcmp text (ascii "exit") = 0 then pure false
  else if text = [] then pure true
  else runLine forks text

/-! ## Strings in the buffer -/

theorem cString_cons (b : Byte) (l : Bytes) :
    cString (b :: l) = if b = 0 then [] else b :: cString l := by
  by_cases zero : b = 0 <;> simp [cString, zero]

theorem cString_set {l : Bytes} {k : Nat} (inside : k < l.length) :
    cString (l.set k 0) = (cString l).take k := by
  induction l generalizing k with
  | nil => cases inside
  | cons b l ih =>
      cases k with
      | zero => simp [cString_cons]
      | succ k =>
          rw [List.set_cons_succ, cString_cons, cString_cons, ih (Nat.lt_of_succ_lt_succ inside)]
          split <;> simp

theorem cString_drop {l : Bytes} {k : Nat} (inside : k ≤ (cString l).length) :
    cString (l.drop k) = (cString l).drop k := by
  induction l generalizing k with
  | nil => simp [cString]
  | cons b l ih =>
      cases k with
      | zero => rfl
      | succ k =>
          rw [cString_cons] at inside ⊢
          split_ifs at inside ⊢
          · cases inside
          · exact ih (Nat.le_of_succ_le_succ inside)

theorem length_cString_lt {l : Bytes} (ends : 0 ∈ l) : (cString l).length < l.length := by
  by_contra long
  have whole := (List.takeWhile_sublist (fun b : Byte => decide (b ≠ 0))).eq_of_length_le (not_lt.mp long)
  exact zero_not_mem_cString l (by rw [cString, whole]; exact ends)

theorem cString_append_zero (text rest : Bytes) : cString (text ++ 0 :: rest) = cString text := by
  induction text with
  | nil => rfl
  | cons b text ih => rw [List.cons_append, cString_cons, cString_cons, ih]

section Strings

variable {b : Buffer} {i e : Nat}

theorem string_cut (from_i : i ≤ e) (inside : e < BUFFERSIZE) :
    (b.cut e).string i = (b.string i).take (e - i) := by
  rw [Buffer.string, Buffer.cut, List.drop_set, if_neg (not_lt.mpr from_i), cString_set]
  · rfl
  · rw [List.length_drop, b.length]
    omega

theorem string_cut_of_lt (before : e < i) : (b.cut e).string i = b.string i := by
  rw [Buffer.string, Buffer.cut, List.drop_set, if_pos before]
  rfl

theorem string_add {k : Nat} (inside : k ≤ (b.string i).length) :
    b.string (i + k) = (b.string i).drop k := by
  rw [Buffer.string, ← List.drop_drop, cString_drop inside]
  rfl

theorem length_string_lt (b : Buffer) : (b.string 0).length < BUFFERSIZE := by
  rw [← b.length]
  exact length_cString_lt b.ends

theorem string_load (text : Bytes) (fits : text.length < BUFFERSIZE) :
    (b.load text fits).string 0 = cString text := cString_append_zero text _

end Strings

/-! ## The words of a line -/

/-- The maximal pieces of a line without a blank. -/
def words (text : Bytes) : List Bytes := (text.splitOnP (· = space)).filter (· ≠ [])

theorem words_append_cons (a b : Bytes) : words (a ++ space :: b) = words a ++ words b := by
  rw [words, List.splitOnP_append_cons a b (by simp), List.filter_append]
  rfl

theorem words_nil : words [] = [] := by simp [words, List.splitOnP_nil]

theorem words_word {w : Bytes} (nonempty : w ≠ []) (clean : space ∉ w) : words w = [w] := by
  have whole : w.splitOnP (· = space) = [w] := List.splitOnP_eq_singleton fun b member => by
    simpa using fun same : b = space => clean (same ▸ member)
  simp [words, whole, nonempty]

theorem words_dropWhile (text : Bytes) : words (text.dropWhile (· = space)) = words text := by
  induction text with
  | nil => rfl
  | cons b text ih =>
      by_cases blank : b = space
      · have split := words_append_cons [] text
        rw [List.nil_append, words_nil, List.nil_append] at split
        simp [blank, ih, split]
      · simp [blank]

theorem gap_append (text : Bytes) : gap text ++ (nextWord text ++ behind text) = text := by
  rw [nextWord, behind, List.takeWhile_append_dropWhile, gap, List.takeWhile_append_dropWhile]

theorem space_not_mem_nextWord (text : Bytes) : space ∉ nextWord text := by
  intro member
  simpa using List.mem_takeWhile_imp member

theorem behind_eq (text : Bytes) : behind text = [] ∨ behind text = space :: (behind text).tail := by
  cases rest : behind text with
  | nil => exact .inl rfl
  | cons b more =>
      have first := List.head?_dropWhile_not (fun b : Byte => decide (b ≠ space))
        (text.dropWhile (· = space))
      rw [← behind, rest] at first
      have blank : b = space := by simpa using first
      exact .inr (by rw [blank]; rfl)

theorem behind_eq_nil {text : Bytes} (empty : nextWord text = []) : behind text = [] := by
  cases behind_eq text with
  | inl nothing => exact nothing
  | inr more =>
      -- the blanks are dropped, so the rest does not begin with one
      have first := List.head?_dropWhile_not (fun b : Byte => decide (b = space)) text
      have whole := gap_append text
      rw [gap, empty, List.nil_append] at whole
      have rest : text.dropWhile (· = space) = behind text :=
        List.append_cancel_left ((List.takeWhile_append_dropWhile).trans whole.symm)
      rw [rest, more] at first
      simp at first

theorem words_eq (text : Bytes) :
    words text = if nextWord text = [] then [] else nextWord text :: words (behind text).tail := by
  have whole := List.takeWhile_append_dropWhile (p := fun b : Byte => decide (b ≠ space))
    (l := text.dropWhile (· = space))
  rw [← nextWord, ← behind] at whole
  rw [← words_dropWhile, ← whole]
  split_ifs with empty
  · rw [empty, behind_eq_nil empty, List.append_nil, words_nil]
  · have single := words_word empty (space_not_mem_nextWord text)
    cases behind_eq text with
    | inl nothing => simp [nothing, single, words_nil]
    | inr more => rw [more, words_append_cons, single]; rfl

theorem length_words_le (text : Bytes) : (words text).length ≤ text.count space + 1 := by
  have pieces : ∀ l : Bytes, (l.splitOnP (· = space)).length = l.count space + 1 := by
    intro l
    induction l with
    | nil => simp [List.splitOnP_nil]
    | cons b l ih =>
        rw [List.splitOnP_cons_eq_if_modifyHead, List.count_cons]
        by_cases blank : b = space <;> simp [blank, ih]
  rw [← pieces]
  exact List.length_filter_le _ _

/-! ## The steps of a round -/

/-- What is left for `strtok`: the string at its place, which ends inside the buffer. -/
structure Remaining (s : Prompt) (text : Bytes) : Prop where
  string : s.buf.string s.save = text
  inside : s.save + text.length < BUFFERSIZE

/-- A step that only moves on in the buffer: strings that end before its place stay. -/
structure MovesOn (place : Nat) (s t : Prompt) : Prop where
  further : place ≤ t.save
  strings : ∀ i, i + (s.buf.string i).length ≤ place → t.buf.string i = s.buf.string i
  stdin : t.stdin = s.stdin
  stdout : t.stdout = s.stdout
  executed : t.executed = s.executed

/-- What `strtok` answers about a text that begins at `place`. -/
def Answers (place : Nat) (text : Bytes) (s : Prompt) (word : Option Nat) (t : Prompt) : Prop :=
  MovesOn place s t ∧ ((word = none ∧ words text = []) ∨
    ∃ first more, word = some first ∧ words text = t.buf.string first :: words more ∧
      Remaining t more ∧ first + (t.buf.string first).length ≤ t.save)

section Strtok

variable {s : Prompt} {place : Nat} {text : Bytes} (string : s.buf.string place = text)

include string

theorem string_behind_gap : s.buf.string (place + (gap text).length) = nextWord text ++ behind text := by
  have whole := gap_append text
  have enough : (gap text).length ≤ (s.buf.string place).length := by
    rw [string]
    exact (List.takeWhile_sublist _).length_le
  rw [string_add enough, string]
  nth_rewrite 2 [← whole]
  exact List.drop_left

/-- A word with a blank behind it is closed there. -/
theorem answers_inner (inside : place + text.length < BUFFERSIZE) (word : nextWord text ≠ [])
    (blank : behind text = space :: (behind text).tail) :
    let first := place + (gap text).length
    let last := first + (nextWord text).length
    Answers place text s (some first) { s with buf := s.buf.cut last, save := last + 1 } := by
  intro first last
  have from_first := string_behind_gap string
  have size : (gap text).length + ((nextWord text).length + ((behind text).tail.length + 1)) =
      text.length := by
    conv_rhs => rw [← gap_append text, blank]
    simp
  have enough : last < BUFFERSIZE := by omega
  have closed : (s.buf.cut last).string first = nextWord text := by
    rw [string_cut (Nat.le_add_right _ _) enough, from_first, Nat.add_sub_cancel_left]
    exact List.take_left
  refine ⟨⟨?_, fun i before => ?_, rfl, rfl, rfl⟩, .inr ⟨first, (behind text).tail, rfl, ?_, ⟨?_, ?_⟩, ?_⟩⟩
  · dsimp only
    omega
  · rw [string_cut (by omega) enough, List.take_of_length_le (by omega)]
  · rw [words_eq, if_neg word, closed]
  · have shorter : (nextWord text).length + 1 ≤ (s.buf.string first).length := by
      rw [from_first, blank]
      simp
    rw [string_cut_of_lt (Nat.lt_add_one last), Nat.add_assoc, string_add shorter, from_first, blank,
      List.drop_append]
    simp
  · dsimp only
    omega
  · rw [closed]
    exact Nat.le_succ _

/-- The last word ends with the text. -/
theorem answers_last (inside : place + text.length < BUFFERSIZE) (word : nextWord text ≠ [])
    (nothing : behind text = []) :
    let first := place + (gap text).length
    let last := first + (nextWord text).length
    Answers place text s (some first) { s with save := last } := by
  intro first last
  have from_first := string_behind_gap string
  rw [nothing, List.append_nil] at from_first
  have size : (gap text).length + (nextWord text).length = text.length := by
    conv_rhs => rw [← gap_append text, nothing]
    simp
  refine ⟨⟨?_, fun _ _ => rfl, rfl, rfl, rfl⟩, .inr ⟨first, [], rfl, ?_, ⟨?_, ?_⟩, ?_⟩⟩
  · dsimp only
    omega
  · rw [words_eq, if_neg word, nothing, from_first]
    rfl
  · rw [string_add (by rw [from_first]), from_first]
    simp
  · simp only [List.length_nil]
    omega
  · rw [from_first]

end Strtok

theorem strtok_wp {s : Prompt} (start : Option Nat) {text : Bytes}
    (string : s.buf.string (start.getD s.save) = text)
    (inside : start.getD s.save + text.length < BUFFERSIZE) :
    wp (strtok start) (Answers (start.getD s.save) text s) (fun _ _ => False) s := by
  simp only [strtok, wp_bind, wp_read, string, wp_ite, wp_update, wp_pure]
  refine ⟨fun empty => ?_, fun word => ⟨fun inner => ?_, fun outer => ?_⟩⟩
  · exact ⟨⟨Nat.le_add_right _ _, fun _ _ => rfl, rfl, rfl, rfl⟩,
      .inl ⟨rfl, by rw [words_eq, if_pos empty]⟩⟩
  · cases behind_eq text with
    | inl nothing =>
        have size := congrArg List.length (gap_append text)
        simp only [nothing, List.append_nil, List.length_append] at size
        omega
    | inr blank => exact answers_inner string inside word blank
  · cases behind_eq text with
    | inl nothing => exact answers_last string inside word nothing
    | inr blank =>
        have size := congrArg List.length (gap_append text)
        rw [blank] at size
        simp only [List.length_append, List.length_cons] at size
        omega

/-- The text up to the end of its first word. -/
def upToWord (text : Bytes) : Bytes := gap text ++ nextWord text

theorem upToWord_append (text : Bytes) : upToWord text ++ behind text = text := by
  rw [upToWord, List.append_assoc, gap_append]

/-- The first call of `strtok` leaves the buffer with the first word as its end. -/
theorem strtok_front {s : Prompt} {text : Bytes} (string : s.buf.string 0 = text)
    (inside : text.length < BUFFERSIZE) :
    wp (strtok (some 0))
      (fun _ t => t.buf.string 0 = upToWord text ∧ (upToWord text).length ≤ t.save)
      (fun _ _ => False) s := by
  have size := congrArg List.length (upToWord_append text)
  rw [List.length_append] at size
  have front : (upToWord text).length = 0 + (gap text).length + (nextWord text).length := by
    rw [upToWord, List.length_append, Nat.zero_add]
  have whole : behind text = [] → text = upToWord text := by
    intro nothing
    rw [← List.append_nil (upToWord text), ← nothing, upToWord_append]
  simp only [strtok, wp_bind, wp_read, Option.getD_some, string, wp_ite, wp_update, wp_pure,
    ← front]
  refine ⟨fun empty => ⟨whole (behind_eq_nil empty), ?_⟩, fun _ => ⟨fun inner => ⟨?_, ?_⟩,
    fun outer => ⟨whole ?_, le_rfl⟩⟩⟩
  · rw [front, empty, List.length_nil, Nat.add_zero]
  · rw [string_cut (Nat.zero_le _) (by omega), string, Nat.sub_zero]
    nth_rewrite 2 [← upToWord_append text]
    exact List.take_left
  · exact Nat.le_succ _
  · apply List.eq_nil_of_length_eq_zero
    omega

theorem MovesOn.refl (s : Prompt) : MovesOn s.save s s := ⟨le_rfl, fun _ _ => rfl, rfl, rfl, rfl⟩

theorem MovesOn.trans {place : Nat} {s t u : Prompt} (first : MovesOn place s t)
    (second : MovesOn t.save t u) : MovesOn place s u where
  further := first.further.trans second.further
  strings i before := by
    have same := first.strings i before
    rw [second.strings i (by rw [same]; exact before.trans first.further), same]
  stdin := second.stdin.trans first.stdin
  stdout := second.stdout.trans first.stdout
  executed := second.executed.trans first.executed

theorem copyArg_wp {s : Prompt} {text : Bytes} (remaining : Remaining s text) (args : List Bytes) :
    wp (copyArg args)
      (fun copied t => ∃ word more, words text = word :: words more ∧ copied = args ++ [word] ∧
        Remaining t more ∧ MovesOn s.save s t)
      (fun e _ => e = .nullString ∧ words text = []) s := by
  rw [copyArg, wp_bind]
  refine wp_mono (strtok_wp none remaining.string remaining.inside) ?_ fun _ _ h => h.elim
  rintro _ t ⟨moves, ⟨rfl, none⟩ | ⟨first, more, rfl, split, left, -⟩⟩
  · exact ⟨rfl, none⟩
  · exact ⟨_, more, split, rfl, left, moves⟩

/-- The loop over the arguments takes one word in every turn. -/
theorem fold_copyArg_wp (turns : List Nat) {s : Prompt} {text : Bytes} (remaining : Remaining s text)
    (args : List Bytes) :
    wp (fold (fun args _ => copyArg args) args turns)
      (fun copied t => turns.length ≤ (words text).length ∧
        copied = args ++ (words text).take turns.length ∧ MovesOn s.save s t)
      (fun e _ => e = .nullString ∧ (words text).length < turns.length) s := by
  induction turns generalizing s text args with
  | nil => exact ⟨Nat.zero_le _, by simp, MovesOn.refl s⟩
  | cons turn turns ih =>
      rw [fold, wp_bind]
      refine wp_mono (copyArg_wp remaining args) ?_ fun e _ stopped => ⟨stopped.1, by simp [stopped.2]⟩
      rintro _ t ⟨word, more, split, rfl, left, moves⟩
      refine wp_mono (ih left _) ?_ fun e _ stopped => ⟨stopped.1, by simpa [split] using stopped.2⟩
      rintro _ u ⟨enough, rfl, further⟩
      exact ⟨by simpa [split] using enough, by simp [split], moves.trans further⟩

theorem two_le_length_inst {inst : Bytes} (known : inst ∈ instList) : 2 ≤ inst.length := by
  revert inst
  decide +kernel

theorem instChecking_iff {inst : Bytes} (string : 0 ∉ inst) :
    instChecking inst = true ↔ inst ∈ instList := by
  have strings : ∀ name ∈ instList, (0 : Byte) ∉ name := by decide +kernel
  rw [instChecking, List.any_eq_true]
  constructor
  · rintro ⟨name, member, same⟩
    rwa [← (strcmp_eq_zero (strings name member) string).mp (of_decide_eq_true same)]
  · intro member
    exact ⟨inst, member, decide_eq_true (strcmp_self inst)⟩

/-- The memory for `args[0]` is large enough, and every argument is a word of the rest. -/
theorem copyArgs_wp {s : Prompt} {inst : Nat} {more : Bytes} (known : s.buf.string inst ∈ instList)
    (remaining : Remaining s more) (argCnt : Nat) :
    wp (copyArgs inst argCnt)
      (fun args t => argCnt ≤ (words more).length ∧
        args = s.buf.string inst :: (words more).take argCnt ∧ MovesOn s.save s t)
      (fun e _ => e = .nullString ∧ (words more).length < argCnt) s := by
  have long := two_le_length_inst known
  have tail : (s.buf.string (inst + 1)).length = (s.buf.string inst).length - 1 := by
    rw [string_add (by omega), List.length_drop]
  simp only [copyArgs, wp_bind, wp_read, wp_ite, tail, pointerSize]
  refine ⟨fun short => by omega, fun _ => ?_⟩
  simpa using fold_copyArg_wp (List.range argCnt) remaining [s.buf.string inst]

/-- The blanks of a line are those between its words, if it asks for arguments at all. -/
def Spaced (text : Bytes) : Prop :=
  ∃ inst args, words text = inst :: args ∧ (inst ∉ instList ∨ text.count space = args.length)

/-- A line is rejected, or executed with its words as arguments. -/
def LineDone (text : Bytes) (s t : Prompt) : Prop :=
  ∃ inst args, words text = inst :: args ∧
    ((inst ∉ instList ∧ t.stdout = s.stdout ++ unknownText inst ∧ t.executed = s.executed) ∨
      (inst ∈ instList ∧ text.count space = args.length ∧ t.stdout = s.stdout ∧
        t.executed = s.executed ++ [(inst, inst :: args)]))

/-- The words behind the first one are cut off behind it, so the buffer keeps it. -/
theorem runLine_wp {s : Prompt} {text : Bytes} (string : s.buf.string 0 = text)
    (inside : text.length < BUFFERSIZE) :
    wp (runLine true text)
      (fun r t => r = true ∧ LineDone text s t ∧ t.stdin = s.stdin ∧ t.buf.string 0 = upToWord text)
      (fun e _ => e = .nullString ∧ ¬ Spaced text) s := by
  have first := wp_and (strtok_wp (some 0) string (by simpa using inside))
    (strtok_front string inside)
  rw [runLine, wp_bind]
  refine wp_mono first ?_ fun _ _ h => h.1.elim
  rintro _ t ⟨⟨moves, ⟨rfl, none⟩ | ⟨inst, more, rfl, split, left, before⟩⟩, held, ends⟩
  · refine ⟨rfl, ?_⟩
    rintro ⟨inst, args, first, -⟩
    rw [none] at first
    cases first
  · have clean : 0 ∉ t.buf.string inst := zero_not_mem_cString _
    simp only [wp_bind, wp_read, wp_ite, print, wp_update, wp_pure, true_and]
    refine ⟨fun unknown => ?_, fun known => ?_⟩
    · refine ⟨⟨_, _, split, .inl ⟨?_, ?_, moves.executed⟩⟩, moves.stdin, held⟩
      · rw [← instChecking_iff clean, unknown]
        decide
      · rw [moves.stdout]
    · have member := (instChecking_iff clean).mp (by simpa using known)
      refine wp_mono (copyArgs_wp member left _) ?_ ?_
      · rintro _ u ⟨enough, rfl, further⟩
        have count : text.count space = (words more).length := by
          have many := length_words_le text
          rw [split, List.length_cons] at many
          rw [countArgNum] at enough
          omega
        have own : u.buf.string inst = t.buf.string inst := further.strings inst before
        have kept : u.buf.string 0 = t.buf.string 0 :=
          further.strings 0 (by rw [held, Nat.zero_add]; exact ends)
        refine ⟨fun no => absurd no (by decide), fun _ =>
          ⟨⟨_, _, split, .inr ⟨member, count, ?_, ?_⟩⟩, ?_, kept.trans held⟩⟩
        · exact further.stdout.trans moves.stdout
        · simp only [countArgNum, count, List.take_length, own, further.executed, moves.executed]
        · exact further.stdin.trans moves.stdin
      · rintro e _ ⟨rfl, short⟩
        refine ⟨rfl, ?_⟩
        rintro ⟨_, args, first, free⟩
        rw [split, List.cons.injEq] at first
        obtain ⟨rfl, rfl⟩ := first
        cases free with
        | inl unknown => exact unknown member
        | inr same => rw [countArgNum, same] at short; exact lt_irrefl _ short

/-! ## A round -/

/-- What `fgets` reads in a round, -/
def piece (input : Bytes) : Bytes := (fgets (BUFFERSIZE - 1) input).1

/-- what it leaves for the next one, -/
def unread (input : Bytes) : Bytes := (fgets (BUFFERSIZE - 1) input).2

/-- and the string that stands in the buffer then: the old one at the end of the input. -/
def received (s : Prompt) : Bytes :=
  if piece s.stdin = [] then s.buf.string 0 else cString (piece s.stdin)

/-- What the round takes for the line. -/
def taken (s : Prompt) : Bytes := (received s).dropLast

/-- A round that comes to its end. -/
structure Round (s : Prompt) (goesOn : Bool) (t : Prompt) : Prop where
  received : received s ≠ []
  goesOn : goesOn = true ↔ taken s ≠ ascii "exit"
  stdin : t.stdin = unread s.stdin
  held : t.buf.string 0 = upToWord (taken s)
  line : (taken s = ascii "exit" ∨ taken s = []) ∧
      t.stdout = s.stdout ++ ascii "> " ∧ t.executed = s.executed ∨
    taken s ≠ ascii "exit" ∧ LineDone (taken s) { s with stdout := s.stdout ++ ascii "> " } t

/-- A round in which the process crashes. -/
structure Crash (s : Prompt) (reason : Halt) : Prop where
  reason : reason = if received s = [] then .beforeBuffer else .nullString
  other : taken s ≠ ascii "exit"
  line : received s ≠ [] → taken s ≠ [] ∧ ¬ Spaced (taken s)

theorem readLine_wp (s : Prompt) :
    wp readLine
      (fun _ t => t.buf.string 0 = received s ∧ t = { s with buf := t.buf, stdin := unread s.stdin })
      (fun _ _ => False) s := by
  rw [readLine, wp_update, received]
  by_cases nothing : piece s.stdin = []
  · rw [if_pos nothing]
    simp only [show (fgets (BUFFERSIZE - 1) s.stdin).1 = [] from nothing, if_true]
    exact ⟨trivial, rfl⟩
  · rw [if_neg nothing]
    simp only [show ¬ (fgets (BUFFERSIZE - 1) s.stdin).1 = [] from nothing, if_false]
    exact ⟨string_load _ _, rfl⟩

/-- The line that stands at the beginning of the input, -/
def typedLine (input : Bytes) : Bytes := input.takeWhile (· ≠ newline)

/-- and what `fgets` reads of it: with the newline, unless the input ends before. -/
def lineRead (input : Bytes) : Bytes :=
  typedLine input ++ if newline ∈ input then [newline] else []

/-- What the prompt takes for the line. -/
def seen (input : Bytes) : Bytes := (cString (lineRead input)).dropLast

theorem fgets_eq_lineRead {n : Nat} {input : Bytes} (fits : (lineRead input).length ≤ n) :
    (fgets n input).1 = lineRead input := by
  induction input generalizing n with
  | nil => cases n <;> rfl
  | cons b input ih =>
      by_cases last : b = newline
      · cases n with
        | zero => simp [lineRead, typedLine, last] at fits
        | succ n => simp [fgets, lineRead, typedLine, last]
      · have longer : lineRead (b :: input) = b :: lineRead input := by
          simp [lineRead, typedLine, last, eq_comm]
        rw [longer] at fits ⊢
        cases n with
        | zero => cases fits
        | succ n => rw [fgets, if_neg last, ih (Nat.le_of_succ_le_succ fits)]

/-- A line with a newline and without a NUL is taken as it is. -/
theorem seen_eq_typedLine {input : Bytes} (complete : newline ∈ input) (clean : 0 ∉ typedLine input) :
    seen input = typedLine input := by
  have string : (0 : Byte) ∉ lineRead input := by
    rw [lineRead, if_pos complete]
    simpa [newline] using clean
  rw [seen, cString_eq_self string, lineRead, if_pos complete, List.dropLast_concat]

/-- The prompt rejects the line, or it passes the words of the line to `execv`. -/
def WordsPassed (s : Prompt) : Prop :=
  ∃ t, Ends (prompting true) s true t ∧
    ((∃ inst, t.stdout = s.stdout ++ ascii "> " ++ unknownText inst ∧ t.executed = s.executed) ∨
      ∃ inst args, words (typedLine s.stdin) = inst :: args ∧
        t.executed = s.executed ++ [(inst, inst :: args)])

theorem lineRead_ne_nil {input : Bytes} (more : input ≠ []) : lineRead input ≠ [] := by
  cases input with
  | nil => exact absurd rfl more
  | cons b input => by_cases last : b = newline <;> simp [lineRead, typedLine, last]

theorem cutLast_wp {s : Prompt} :
    wp cutLast
      (fun _ t => s.buf.string 0 ≠ [] ∧ t.buf.string 0 = (s.buf.string 0).dropLast ∧
        t = { s with buf := t.buf })
      (fun e _ => e = .beforeBuffer ∧ s.buf.string 0 = []) s := by
  have inside := length_string_lt s.buf
  simp only [cutLast, wp_bind, wp_read, wp_ite, wp_stop, wp_update]
  refine ⟨fun empty => ⟨trivial, List.length_eq_zero_iff.mp empty⟩, fun some => ⟨?_, ?_, trivial⟩⟩
  · exact fun empty => some (by rw [empty]; rfl)
  · rw [string_cut (Nat.zero_le _) (by omega), Nat.sub_zero, List.dropLast_eq_take]

theorem upToWord_nil : upToWord [] = [] := rfl

theorem upToWord_exit : upToWord (ascii "exit") = ascii "exit" := by decide +kernel

theorem exit_ne_nil : ascii "exit" ≠ [] := by decide +kernel

/-- The round in full. -/
theorem prompting_round (s : Prompt) :
    wp (prompting true) (Round s) (fun e _ => Crash s e) s := by
  have string : (0 : Byte) ∉ ascii "exit" := by decide +kernel
  rw [prompting, print, wp_bind, wp_update, wp_bind]
  refine wp_mono (readLine_wp { s with stdout := s.stdout ++ ascii "> " }) ?_ fun _ _ h => h.elim
  rintro _ u ⟨text, kept⟩
  rw [show received { s with stdout := s.stdout ++ ascii "> " } = received s from rfl] at text
  rw [wp_bind]
  refine wp_mono cutLast_wp ?_ ?_
  · rintro _ t ⟨some, shorter, rest⟩
    rw [text] at some shorter
    rw [wp_bind, wp_read, shorter, ← taken]
    rw [← taken] at shorter
    rw [kept] at rest
    have clean : (0 : Byte) ∉ taken s := shorter ▸ zero_not_mem_cString _
    have inside : (taken s).length < BUFFERSIZE := shorter ▸ length_string_lt t.buf
    simp only [wp_ite, strcmp_eq_zero clean string, wp_pure]
    refine ⟨fun quit => ?_, fun other => ⟨fun empty => ?_, fun nonempty => ?_⟩⟩
    · refine ⟨some, by simp [quit], by rw [rest], ?_, .inl ⟨.inl quit, by rw [rest], by rw [rest]⟩⟩
      rw [shorter, quit, upToWord_exit]
    · refine ⟨some, by simp [other], by rw [rest], ?_, .inl ⟨.inr empty, by rw [rest], by rw [rest]⟩⟩
      rw [shorter, empty, upToWord_nil]
    · refine wp_mono (runLine_wp shorter inside) ?_ ?_
      · rintro r v ⟨rfl, done, stdin, held⟩
        rw [rest] at done stdin
        exact ⟨some, by simp [other], stdin, held, .inr ⟨other, done⟩⟩
      · rintro e v ⟨rfl, unspaced⟩
        exact ⟨(if_neg some).symm, other, fun _ => ⟨nonempty, unspaced⟩⟩
  · rintro e t ⟨rfl, empty⟩
    rw [text] at empty
    refine ⟨(if_pos empty).symm, ?_, fun some => absurd empty some⟩
    rw [taken, empty]
    exact exit_ne_nil.symm

theorem not_spaced_nil : ¬ Spaced [] := by
  rintro ⟨inst, args, split, -⟩
  rw [words_nil] at split
  cases split

theorem taken_eq_seen {s : Prompt} (fits : (lineRead s.stdin).length < BUFFERSIZE)
    (more : s.stdin ≠ []) : taken s = seen s.stdin := by
  have line : piece s.stdin = lineRead s.stdin := fgets_eq_lineRead (Nat.le_sub_one_of_lt fits)
  rw [taken, received, line, if_neg (lineRead_ne_nil more), seen]

/-- A round on a line that fits into the buffer. -/
theorem prompting_wp {s : Prompt} (fits : (lineRead s.stdin).length < BUFFERSIZE)
    (more : s.stdin ≠ []) :
    wp (prompting true)
      (fun r t =>
        (r = true → seen s.stdin ≠ ascii "exit" ∧
          ((t.stdout = s.stdout ++ ascii "> " ∧ t.executed = s.executed ∧ words (seen s.stdin) = []) ∨
            LineDone (seen s.stdin) { s with stdout := s.stdout ++ ascii "> " } t)) ∧
        (r = false → seen s.stdin = ascii "exit"))
      (fun _ _ => ¬ Spaced (seen s.stdin)) s := by
  rw [← taken_eq_seen fits more]
  refine wp_mono (prompting_round s) ?_ ?_
  · intro r t round
    refine ⟨fun again => ?_, fun last => ?_⟩
    · have other := round.goesOn.mp again
      refine ⟨other, ?_⟩
      obtain ⟨quit | empty, stdout, executed⟩ | ⟨-, done⟩ := round.line
      · exact absurd quit other
      · exact .inl ⟨stdout, executed, by rw [empty, words_nil]⟩
      · exact .inr done
    · by_contra other
      rw [round.goesOn.mpr other] at last
      cases last
  · intro e t crash
    by_cases empty : received s = []
    · rw [taken, empty]
      exact not_spaced_nil
    · exact (crash.line empty).2

/-- A line that the prompt takes for what was typed: it has words, and if the first one is an
    instruction, then the words are the typed ones and there is one blank between two words
    and no other. -/
def WellTyped (input : Bytes) : Prop :=
  seen input ≠ ascii "exit" ∧ ∃ inst args, words (seen input) = inst :: args ∧
    (inst ∉ instList ∨
      (seen input).count space = args.length ∧ words (typedLine input) = inst :: args)

/-- For a complete line without a NUL this is about the blanks only. -/
theorem wellTyped_iff_spaced {input : Bytes} (complete : newline ∈ input) (clean : 0 ∉ typedLine input)
    (other : typedLine input ≠ ascii "exit") : WellTyped input ↔ Spaced (typedLine input) := by
  rw [WellTyped, seen_eq_typedLine complete clean, and_iff_right other, Spaced]
  constructor
  · rintro ⟨inst, args, split, free⟩
    exact ⟨inst, args, split, free.imp_right fun spaced => spaced.1⟩
  · rintro ⟨inst, args, split, free⟩
    exact ⟨inst, args, split, free.imp_right fun spaced => ⟨spaced, split⟩⟩

theorem WellTyped.spaced {input : Bytes} (typed : WellTyped input) : Spaced (seen input) := by
  obtain ⟨-, inst, args, split, free⟩ := typed
  exact ⟨inst, args, split, free.imp_right fun spaced => spaced.1⟩

theorem append_unknownText_ne (text inst : Bytes) : text ≠ text ++ unknownText inst := by
  simp [unknownText]

/-- The prompt rejects a line or passes its words to `execv` exactly when the line is typed
    in the way it expects. -/
theorem wordsPassed_iff {s : Prompt} (fits : (lineRead s.stdin).length < BUFFERSIZE)
    (more : s.stdin ≠ []) : WordsPassed s ↔ WellTyped s.stdin := by
  have round := prompting_wp fits more
  constructor
  · rintro ⟨t, ends, passed⟩
    obtain ⟨other, ⟨stdout, executed, -⟩ | ⟨inst, args, split, done⟩⟩ := (wp_ends round ends).1 rfl
    · obtain ⟨inst, rejected, -⟩ | ⟨inst, args, -, run⟩ := passed
      · rw [stdout] at rejected
        exact absurd rejected (append_unknownText_ne _ inst)
      · rw [executed] at run
        simp at run
    · refine ⟨other, inst, args, split, ?_⟩
      obtain ⟨unknown, -, -⟩ | ⟨known, count, stdout, executed⟩ := done
      · exact .inl unknown
      · obtain ⟨word, rejected, -⟩ | ⟨word, rest, typed, run⟩ := passed
        · rw [stdout] at rejected
          exact absurd rejected (append_unknownText_ne _ word)
        · rw [executed, List.append_cancel_left_eq, List.cons.injEq, Prod.mk.injEq] at run
          exact .inr ⟨count, typed.trans run.1.2.symm⟩
  · intro typed
    obtain ⟨r, t, ends, again, quit⟩ := ends_of_unstopped round fun _ _ wrong => wrong typed.spaced
    obtain ⟨other, inst, args, split, free⟩ := typed
    cases r with
    | false => exact absurd (quit rfl) other
    | true =>
        refine ⟨t, ends, ?_⟩
        obtain ⟨-, ⟨-, -, none⟩ | ⟨_, _, split', done⟩⟩ := again rfl
        · rw [split] at none
          cases none
        · rw [split, List.cons.injEq] at split'
          obtain ⟨rfl, rfl⟩ := split'
          obtain ⟨unknown, stdout, executed⟩ | ⟨known, -, -, executed⟩ := done
          · exact .inl ⟨inst, stdout, executed⟩
          · cases free with
            | inl unknown => exact absurd known unknown
            | inr same => exact .inr ⟨inst, args, same.2, executed⟩

/-- The prompt at its start. -/
def promptOn (input : Bytes) : Prompt :=
  ⟨⟨List.replicate BUFFERSIZE 0, List.length_replicate, List.mem_replicate.mpr ⟨by decide, rfl⟩⟩,
    0, input, [], []⟩

instance (input : Bytes) : Decidable (WellTyped input) :=
  decidable_of_iff (seen input ≠ ascii "exit" ∧ (words (seen input) ≠ [] ∧
    ((words (seen input)).head? ∉ instList.map some ∨
      (seen input).count space + 1 = (words (seen input)).length ∧
        words (typedLine input) = words (seen input)))) (by
    rw [WellTyped]
    cases words (seen input) <;> simp)

/-- One blank between two words. -/
theorem wordsPassed_list : WordsPassed (promptOn (ascii "ls -l /tmp" ++ [newline])) := by
  refine (wordsPassed_iff ?_ ?_).mpr ?_
  all_goals decide +kernel

/-- Two blanks between two words, a blank at the end, and nothing but blanks. -/
theorem blanks_crash :
    (prompting true (promptOn (ascii "ls  -l" ++ [newline]))).1 = .error .nullString ∧
      (prompting true (promptOn (ascii "ls " ++ [newline]))).1 = .error .nullString ∧
      (prompting true (promptOn (ascii "  " ++ [newline]))).1 = .error .nullString ∧
      ¬ WordsPassed (promptOn (ascii "ls " ++ [newline])) := by
  have crash : (prompting true (promptOn (ascii "ls " ++ [newline]))).1 = .error .nullString := by rfl
  refine ⟨by rfl, crash, by rfl, ?_⟩
  rintro ⟨t, ends, -⟩
  rw [Ends] at ends
  rw [ends] at crash
  cases crash

end OslabProfiler.CompKernel
