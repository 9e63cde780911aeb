import OslabProfiler.BootGraph.Log
import OslabProfiler.Server.KernelLog

/-! # The boot graph's reader on the log of the patched kernel

The same log is read by the scripts of the boot graph and by the server. The scripts look for
patterns in every line; what they find in the four lines of a call is one event where it is
called and one where it returns. So the starts and ends that they keep are those of the last
call of each name.
-/

namespace OslabProfiler.BootGraph

open Lib Server

/-! ## Looking for a pattern -/

theorem literal_append (pat : String) (l : Text) : literal pat (pat.toList ++ l) = some l := by
  rw [literal, if_pos (List.prefix_append _ _), List.drop_left]

theorem literal_eq_none {pat : String} {l : Text} (absent : ¬ pat.toList <+: l) :
    literal pat l = none := if_neg absent

section Search

variable {α : Type} {rest : Text → Option α}

/-- What is found begins with the rest of the pattern. -/
theorem searchTime_eq_none {line : Text} (nowhere : ∀ l, l <:+ line → rest l = none) :
    searchTime rest line = none := by
  induction line with
  | nil => rfl
  | cons c line ih =>
      have later := ih fun l tail => nowhere l (tail.trans (List.suffix_cons c line))
      rw [searchTime]
      split_ifs
      · rw [nowhere _ (List.dropWhile_suffix _), later]
      · exact later

theorem searchTime_append {a : Text} (none : ∀ c ∈ a, isTimeChar c = false) (b : Text) :
    searchTime rest (a ++ b) = searchTime rest b := by
  induction a with
  | nil => rfl
  | cons c a ih =>
      obtain ⟨first, others⟩ := List.forall_mem_cons.mp none
      rw [List.cons_append, searchTime, first]
      exact ih others

theorem searchTime_word {w b : Text} (nonempty : w ≠ []) (time : ∀ c ∈ w, isTimeChar c = true)
    (stops : b.head?.all (fun c => !isTimeChar c) = true) {found : α} (matches' : rest b = some found) :
    searchTime rest (w ++ b) = some (w, found) := by
  have taken : (w ++ b).takeWhile isTimeChar = w ∧ (w ++ b).dropWhile isTimeChar = b := by
    rw [List.takeWhile_append_of_pos time, List.dropWhile_append_of_pos time]
    cases b with
    | nil => simp
    | cons c b => simp_all
  cases w with
  | nil => exact absurd rfl nonempty
  | cons c w =>
      rw [List.cons_append] at taken ⊢
      rw [searchTime, if_pos (time c List.mem_cons_self), taken.1, taken.2, matches']

end Search

/-! ## The stamp -/

theorem isTimeChar_of_digit {c : Char} (digit : c.isDigit = true) : isTimeChar c = true := by
  rw [isTimeChar, digit]
  rfl

theorem isTimeChar_word (t : Stamp) : ∀ c ∈ t.word, isTimeChar c = true := by
  intro c member
  simp only [Stamp.word, List.mem_append, List.mem_cons] at member
  obtain seconds | rfl | micros := member
  · exact isTimeChar_of_digit (digit_of_mem seconds)
  · rfl
  · exact isTimeChar_of_digit (digit_of_mem_sixDigits micros)

/-- The time in front of a message. -/
theorem searchTime_text {α : Type} {rest : Text → Option α} (t : Stamp) {message : Text} {found : α}
    (matches' : rest ("] ".toList ++ message) = some found) :
    searchTime rest (t.text ++ message) = some (t.word, found) := by
  obtain ⟨n, eq⟩ := t.text_eq
  have none : ∀ c ∈ "[".toList ++ List.replicate n ' ', isTimeChar c = false := by
    intro c member
    cases List.mem_append.mp member with
    | inl bracket => rw [List.mem_singleton.mp bracket]; rfl
    | inr blank => rw [List.eq_of_mem_replicate blank]; rfl
  have line : t.text ++ message =
      ("[".toList ++ List.replicate n ' ') ++ (t.word ++ ("] ".toList ++ message)) := by
    simp only [eq, List.append_assoc]
  rw [line, searchTime_append none]
  exact searchTime_word (by simp [Stamp.word]) (isTimeChar_word t) rfl matches'

theorem digitsValue_eq (l : Text) : digitsValue l = Nat.ofDigitChars 10 l 0 := rfl

theorem timeValue_word (t : Stamp) : timeValue t.word = t.value := by
  have seconds : ∀ c ∈ Nat.toDigits 10 t.seconds, c.isDigit = true := fun c h => digit_of_mem h
  have micros : ∀ c ∈ sixDigits t.micros, c.isDigit = true := fun c h => digit_of_mem_sixDigits h
  have whole : t.word.takeWhile Char.isDigit = Nat.toDigits 10 t.seconds ∧
      t.word.dropWhile Char.isDigit = '.' :: sixDigits t.micros := by
    rw [Stamp.word, List.takeWhile_append_of_pos seconds, List.dropWhile_append_of_pos seconds]
    simp
  rw [timeValue, whole.1, whole.2]
  simp only [List.drop_succ_cons, List.drop_zero]
  rw [List.takeWhile_eq_self_iff.mpr micros, length_sixDigits t.small, digitsValue_eq,
    Nat.ofDigitChars_append, Nat.ofDigitChars_eq_ofDigitChars_zero, Nat.ofDigitChars_ten_toDigits,
    ofDigitChars_sixDigits, length_sixDigits t.small, Stamp.value]
  push_cast
  ring

/-! ## Patterns that do not occur -/

/-- The patterns with a time are not found without their words. -/
theorem timed_eq_none {α : Type} {pat : String} {line : Text} (f : Text → Option α)
    (absent : ¬ pat.toList <:+: line) :
    searchTime (fun l => (literal pat l).bind f) line = none := by
  apply searchTime_eq_none
  intro l tail
  rw [literal_eq_none fun first => absent (first.isInfix.trans tail.isInfix)]
  rfl

theorem returned_eq_none {line : Text} (absent : ¬ "] initcall ".toList <:+: line) :
    returnedEvent line = none := by
  have nowhere : searchTime (fun l => ((literal "] initcall " l).bind callName).filter
      fun found => "returned".toList <:+: found.2) line = none := by
    apply searchTime_eq_none
    intro l tail
    rw [literal_eq_none fun first => absent (first.isInfix.trans tail.isInfix)]
    rfl
  rw [returnedEvent, nowhere]
  rfl

theorem infix_append_of_head {c : Char} {pat a b : Text} (absent : c ∉ a)
    (found : c :: pat <:+: a ++ b) : c :: pat <:+: b := by
  induction a with
  | nil => exact found
  | cons d a ih =>
      obtain ⟨other, rest⟩ := not_or.mp (mt List.mem_cons.mpr absent)
      cases List.infix_cons_iff.mp found with
      | inl here => exact absurd (List.cons_prefix_cons.mp here).1 other
      | inr later => exact ih rest later

/-- Words behind a letter that is printed nowhere in the lines of a call but in its names. -/
structure Phrase (c : Char) (pat : Text) : Prop where
  head : c = 'W' ∨ c = 'k'
  blank : ' ' ∈ pat
  plain : ∀ d ∈ "+[]".toList, d ∉ c :: pat

theorem phrase_write : Phrase 'W' "rite protecting the".toList :=
  ⟨.inl rfl, by decide, by simp⟩

theorem phrase_kernel : Phrase 'k' "ernel memory".toList := ⟨.inr rfl, by decide, by simp⟩

/-- The boot goes on where no such words are found. -/
theorem isFinished_eq_false {line : Text} (absent : ∀ c pat, Phrase c pat → ¬ c :: pat <:+: line) :
    isFinished line = false := by
  have whole : "Write protecting the".toList = 'W' :: "rite protecting the".toList := by simp
  have part : 'k' :: "ernel memory".toList <:+: "Freeing unused kernel memory".toList :=
    ⟨"Freeing unused ".toList, [], by simp⟩
  have write : ¬ "Write protecting the".toList <:+: line := by
    rw [whole]
    exact absent _ _ phrase_write
  have kernel : ¬ "Freeing unused kernel memory".toList <:+: line := fun found =>
    absent _ _ phrase_kernel (part.trans found)
  exact Bool.or_eq_false_iff.mpr ⟨decide_eq_false write, decide_eq_false kernel⟩

namespace Phrase

variable {c : Char} {pat : Text}

theorem not_printed (phrase : Phrase c pat) {w : Text} (printed : Printed w) : c ∉ w := by
  obtain rfl | rfl := phrase.head
  · exact printed.not_mem rfl
  · exact printed.not_mem rfl

theorem not_stamp (phrase : Phrase c pat) (t : Stamp) : c ∉ t.text := by
  obtain ⟨n, eq⟩ := t.text_eq
  have word := phrase.not_printed t.printed_word
  obtain rfl | rfl := phrase.head <;> simp [eq, word]

/-- A name has no blank, so the words are not in it. -/
theorem not_name (phrase : Phrase c pat) {name : Text} (identifier : isIdentifier name = true) :
    ¬ c :: pat <:+: name := by
  intro found
  have blank : ' ' ∈ name := found.subset (List.mem_cons_of_mem c phrase.blank)
  have other := (isWord_of_isIdentifier identifier).2 ' ' blank
  cases other

theorem not_symbol (phrase : Phrase c pat) (sym : Symbol) {rest : Text} (absent : c ∉ rest) :
    ¬ c :: pat <:+: sym.text ++ rest := by
  have offsets := phrase.not_printed sym.printed_offsets
  have plus := phrase.plain '+' (by simp)
  have bracket := phrase.plain '[' (by simp)
  have close := phrase.plain ']' (by simp)
  have blank : c ≠ ' ' := by obtain rfl | rfl := phrase.head <;> decide
  have text : sym.text ++ rest = sym.name ++ '+' :: (sym.offsets ++
      (sym.module.elim [] (fun m => " [".toList ++ m ++ "]".toList) ++ rest)) := by
    simp [Symbol.text]
  intro found
  rw [text] at found
  -- the `+` and the brackets cut the text
  cases (infix_append_cons plus).mp found with
  | inl name => exact phrase.not_name sym.identifier name
  | inr behind =>
      cases inModule : sym.module with
      | none =>
          rw [inModule] at behind
          exact not_infix_of_head (by simp [offsets, absent]) behind
      | some m =>
          have line : sym.offsets ++ ((" [".toList ++ m ++ "]".toList) ++ rest) =
              (sym.offsets ++ " ".toList) ++ '[' :: (m ++ ']' :: rest) := by simp
          rw [inModule, Option.elim_some, line] at behind
          cases (infix_append_cons bracket).mp behind with
          | inl before => exact not_infix_of_head (by simp [offsets, blank]) before
          | inr after =>
              cases (infix_append_cons close).mp after with
              | inl name => exact phrase.not_name (sym.module_isIdentifier inModule) name
              | inr last => exact not_infix_of_head absent last

end Phrase

section Finished

variable (e : Execution)

theorem isFinished_callingLine : isFinished e.callingLine = false := by
  apply isFinished_eq_false
  intro c pat phrase found
  have stamp := phrase.not_stamp e.callTime
  have pid := phrase.not_printed (printed_printInt e.pid)
  simp only [Execution.callingLine, List.append_assoc] at found
  rw [← List.append_assoc] at found
  refine phrase.not_symbol e.symbol ?_ (infix_append_of_head ?_ found)
  · obtain rfl | rfl := phrase.head <;> simp [pid]
  · obtain rfl | rfl := phrase.head <;> simp [stamp]

theorem isFinished_returnLine : isFinished e.returnLine = false := by
  apply isFinished_eq_false
  intro c pat phrase found
  have stamp := phrase.not_stamp e.returnTime
  have ret := phrase.not_printed (printed_printInt e.ret)
  have duration := phrase.not_printed (printed_printInt e.duration)
  simp only [Execution.returnLine, List.append_assoc] at found
  rw [← List.append_assoc] at found
  refine phrase.not_symbol e.symbol ?_ (infix_append_of_head ?_ found)
  · obtain rfl | rfl := phrase.head <;> simp [ret, duration]
  · obtain rfl | rfl := phrase.head <;> simp [stamp]

theorem isFinished_cpuLine : isFinished e.cpuLine = false := by
  apply isFinished_eq_false
  intro c pat phrase
  have stamp := phrase.not_stamp e.cpuTime
  have digits := fun n => phrase.not_printed (printed_toDigits n)
  have system := phrase.not_printed (printed_printInt e.cpu.system)
  apply not_infix_of_head
  obtain rfl | rfl := phrase.head <;> simp [Execution.cpuLine, stamp, digits, system]

theorem isFinished_memLine : isFinished e.memLine = false := by
  apply isFinished_eq_false
  intro c pat phrase
  have stamp := phrase.not_stamp e.memTime
  have numbers := fun z => phrase.not_printed (printed_printInt z)
  apply not_infix_of_head
  obtain rfl | rfl := phrase.head <;> simp [Execution.memLine, stamp, numbers]

end Finished

/-- A pattern that stands behind the bracket of the stamp, with its first letter. -/
def Begins (pat : String) (d : Char) : Prop := ∃ w, pat.toList = ']' :: ' ' :: d :: w

theorem begins_calling : Begins "] calling  " 'c' := ⟨"alling  ".toList, by simp⟩

theorem begins_waiting : Begins "] async_waiting @ " 'a' := ⟨"sync_waiting @ ".toList, by simp⟩

theorem begins_initcall : Begins "] initcall " 'i' := ⟨"nitcall ".toList, by simp⟩

theorem begins_continuing : Begins "] async_continuing @ " 'a' :=
  ⟨"sync_continuing @ ".toList, by simp⟩

section Absent

variable {pat : String} {d : Char} (e : Execution)

theorem callingLine_absent (begins : Begins pat d) (first : d ≠ 'c') (second : d ≠ '@') :
    ¬ pat.toList <:+: e.callingLine := by
  obtain ⟨w, eq⟩ := begins
  rw [eq]
  simp only [Execution.callingLine, List.append_assoc]
  intro found
  cases (e.callTime.infix_text_append _ _).mp found with
  | inl here => simp [List.cons_prefix_cons, first] at here
  | inr later =>
      refine e.symbol.not_infix "calling  ".toList (d :: w) ("@ ".toList ++ printInt e.pid)
        (by decide) ?_ ?_ later
      · simp [(printed_printInt e.pid).not_mem (c := ']') rfl]
      · simp [List.cons_prefix_cons, second]

theorem returnLine_absent (begins : Begins pat d) (first : d ≠ 'i') (second : d ≠ 'r') :
    ¬ pat.toList <:+: e.returnLine := by
  obtain ⟨w, eq⟩ := begins
  rw [eq]
  simp only [Execution.returnLine, List.append_assoc]
  intro found
  cases (e.returnTime.infix_text_append _ _).mp found with
  | inl here => simp [List.cons_prefix_cons, first] at here
  | inr later =>
      refine e.symbol.not_infix "initcall ".toList (d :: w)
        ("returned ".toList ++ (printInt e.ret ++ (" after ".toList ++ (printInt e.duration ++
          " usecs".toList)))) (by decide) ?_ ?_ later
      · simp [(printed_printInt _).not_mem (c := ']') rfl]
      · simp [List.cons_prefix_cons, second]

/-- Behind the mark of the other lines stands no pattern either. -/
theorem oslab_absent (begins : Begins pat d) (letter : d ≠ '[') (t : Stamp) {rest : Text}
    (start : rest.head?.all (fun c => c ≠ d) = true) (bare : ']' ∉ rest) :
    ¬ pat.toList <:+: t.text ++ ("[OSLAB] ".toList ++ rest) := by
  obtain ⟨w, eq⟩ := begins
  rw [eq]
  intro found
  cases (t.infix_text_append _ _).mp found with
  | inl here => simp [List.cons_prefix_cons, letter] at here
  | inr later =>
      cases (infix_of_head (a := "[OSLAB".toList) (b := ' ' :: rest) (by decide)).mp later with
      | inl here =>
          cases rest with
          | nil => simp at here
          | cons c rest => simp_all [List.cons_prefix_cons]
      | inr after => exact not_infix_of_head (by simpa using bare) after

theorem cpuLine_absent (begins : Begins pat d) (letter : d ≠ '[') (first : d ≠ 'u') :
    ¬ pat.toList <:+: e.cpuLine := by
  simp only [Execution.cpuLine, List.append_assoc]
  apply oslab_absent begins letter
  · simp [first.symm]
  · simp [(printed_toDigits _).not_mem (c := ']') rfl, (printed_printInt _).not_mem (c := ']') rfl]

theorem memLine_absent (begins : Begins pat d) (letter : d ≠ '[') (first : d ≠ 'M') :
    ¬ pat.toList <:+: e.memLine := by
  simp only [Execution.memLine, List.append_assoc]
  apply oslab_absent begins letter
  · simp [first.symm]
  · simp [(printed_printInt _).not_mem (c := ']') rfl]

end Absent

/-! ## What the lines say -/

/-- A line without the patterns says nothing. -/
theorem lineEvents_eq_nil {line : Text} (calling : ¬ "] calling  ".toList <:+: line)
    (waiting : ¬ "] async_waiting @ ".toList <:+: line) (initcall : ¬ "] initcall ".toList <:+: line)
    (continuing : ¬ "] async_continuing @ ".toList <:+: line) (going : isFinished line = false) :
    lineEvents line = [] := by
  simp only [lineEvents, callingEvent, waitingEvent, continuingEvent, finishedEvent,
    timed_eq_none _ calling, timed_eq_none _ waiting, timed_eq_none _ continuing,
    returned_eq_none initcall, going]
  rfl

theorem callName_append {name : Text} (nonempty : name ≠ []) (chars : ∀ c ∈ name, isNameChar c = true)
    (behind : Text) : callName (name ++ '+' :: behind) = some (name, behind) := by
  have plus : ¬ isNameChar '+' = true := by decide
  have rest : literal "+" ('+' :: behind) = some behind := literal_append "+" behind
  simp only [callName, List.takeWhile_append_of_pos chars, List.dropWhile_append_of_pos chars,
    List.takeWhile_cons_of_neg plus, List.dropWhile_cons_of_neg plus, List.append_nil, nonempty,
    if_false, rest, Option.map_some]

theorem callName_symbol (sym : Symbol) (rest : Text) :
    ∃ behind, sym.text ++ rest = sym.name ++ '+' :: (behind ++ rest) ∧
      callName (sym.text ++ rest) = some (sym.name, behind ++ rest) := by
  have identifier := sym.identifier
  simp only [isIdentifier, Bool.and_eq_true, List.all_eq_true] at identifier
  have chars : ∀ c ∈ sym.name, isNameChar c = true := by
    intro c member
    rw [isNameChar, identifier.2 c member]
    rfl
  have text : sym.text ++ rest = sym.name ++ '+' :: ((sym.offsets ++
      sym.module.elim [] fun m => " [".toList ++ m ++ "]".toList) ++ rest) := by
    simp [Symbol.text]
  exact ⟨_, text, by rw [text, callName_append sym.name_isWord.1 chars]⟩

/-- The number of the process as the script reads it: none if it is negative. -/
def pidText (e : Execution) : Option Text := pidNumber (printInt e.pid)

theorem searchPid_append {a : Text} (absent : '@' ∉ a) (b : Text) :
    searchPid (a ++ b) = searchPid b := by
  induction a with
  | nil => rfl
  | cons c a ih =>
      obtain ⟨other, rest⟩ := not_or.mp (mt List.mem_cons.mpr absent)
      have none : literal "@ " (c :: (a ++ b)) = none :=
        literal_eq_none fun first => other (List.cons_prefix_cons.mp first).1
      rw [List.cons_append, searchPid, none, ih rest]
      rfl

theorem searchPid_eq_none {l : Text} (absent : '@' ∉ l) : searchPid l = none := by
  rw [← List.append_nil l, searchPid_append absent]
  rfl

section Lines

variable (e : Execution)

theorem not_at_text (sym : Symbol) : '@' ∉ sym.text := by
  have name : ∀ {w : Text}, isIdentifier w = true → '@' ∉ w := by
    intro w identifier member
    simp only [isIdentifier, Bool.and_eq_true, List.all_eq_true] at identifier
    exact absurd (identifier.2 _ member) (by decide)
  have offsets := sym.printed_offsets.not_mem (c := '@') rfl
  cases inModule : sym.module with
  | none => simp [Symbol.text, inModule, name sym.identifier, offsets]
  | some m =>
      simp [Symbol.text, inModule, name sym.identifier, offsets,
        name (sym.module_isIdentifier inModule)]

theorem searchPid_callingLine : searchPid e.callingLine = pidText e := by
  obtain ⟨n, eq⟩ := e.callTime.text_eq
  have stamp : '@' ∉ e.callTime.text := by
    simp [eq, e.callTime.printed_word.not_mem (c := '@') rfl]
  have before : '@' ∉ e.callTime.text ++ "calling  ".toList ++ e.symbol.text ++ " ".toList := by
    simp [stamp, not_at_text]
  have line : e.callingLine = (e.callTime.text ++ "calling  ".toList ++ e.symbol.text ++
      " ".toList) ++ '@' :: (' ' :: printInt e.pid) := by
    simp [Execution.callingLine]
  have found : literal "@ " ('@' :: ' ' :: printInt e.pid) = some (printInt e.pid) :=
    literal_append "@ " (printInt e.pid)
  have later : searchPid (' ' :: printInt e.pid) = none :=
    searchPid_eq_none (by simp [(printed_printInt e.pid).not_mem (c := '@') rfl])
  rw [line, searchPid_append before, searchPid, found, later, Option.or_none]
  rfl

theorem lineEvents_callingLine :
    lineEvents e.callingLine =
      [.calling e.callTime.value e.symbol.name (pidText e)] := by
  obtain ⟨behind, -, name⟩ := callName_symbol e.symbol (" @ ".toList ++ printInt e.pid)
  have line : e.callingLine = e.callTime.text ++ ("calling  ".toList ++
      (e.symbol.text ++ (" @ ".toList ++ printInt e.pid))) := by
    simp only [Execution.callingLine, List.append_assoc]
  have search : searchTime (fun l => (literal "] calling  " l).bind callName) e.callingLine =
      some (e.callTime.word, e.symbol.name, behind ++ (" @ ".toList ++ printInt e.pid)) := by
    rw [line]
    apply searchTime_text
    exact (congrArg (Option.bind · callName) (literal_append "] calling  " _)).trans name
  have found : callingEvent e.callingLine =
      some (.calling e.callTime.value e.symbol.name (pidText e)) := by
    rw [callingEvent, search, Option.map_some, timeValue_word, searchPid_callingLine]
  have initcall := callingLine_absent e begins_initcall (by decide) (by decide)
  have waiting := callingLine_absent e begins_waiting (by decide) (by decide)
  have continuing := callingLine_absent e begins_continuing (by decide) (by decide)
  simp only [lineEvents, found, waitingEvent, continuingEvent, finishedEvent,
    timed_eq_none _ waiting, timed_eq_none _ continuing, returned_eq_none initcall,
    isFinished_callingLine]
  rfl

theorem lineEvents_cpuLine : lineEvents e.cpuLine = [] :=
  lineEvents_eq_nil (cpuLine_absent e begins_calling (by decide) (by decide))
    (cpuLine_absent e begins_waiting (by decide) (by decide))
    (cpuLine_absent e begins_initcall (by decide) (by decide))
    (cpuLine_absent e begins_continuing (by decide) (by decide)) (isFinished_cpuLine e)

theorem lineEvents_memLine : lineEvents e.memLine = [] :=
  lineEvents_eq_nil (memLine_absent e begins_calling (by decide) (by decide))
    (memLine_absent e begins_waiting (by decide) (by decide))
    (memLine_absent e begins_initcall (by decide) (by decide))
    (memLine_absent e begins_continuing (by decide) (by decide)) (isFinished_memLine e)

theorem lineEvents_returnLine :
    lineEvents e.returnLine = [.returned e.returnTime.value e.symbol.name] := by
  let rest := " returned ".toList ++ (printInt e.ret ++ (" after ".toList ++
    (printInt e.duration ++ " usecs".toList)))
  obtain ⟨behind, -, name⟩ := callName_symbol e.symbol rest
  have line : e.returnLine = e.returnTime.text ++ ("initcall ".toList ++
      (e.symbol.text ++ rest)) := by
    simp only [Execution.returnLine, List.append_assoc, rest]
  have word : "returned".toList <:+: behind ++ rest :=
    ⟨behind ++ " ".toList, " ".toList ++ (printInt e.ret ++ (" after ".toList ++
      (printInt e.duration ++ " usecs".toList))), by simp [rest]⟩
  have search : searchTime (fun l => ((literal "] initcall " l).bind callName).filter
      fun found => "returned".toList <:+: found.2) e.returnLine =
        some (e.returnTime.word, e.symbol.name, behind ++ rest) := by
    rw [line]
    apply searchTime_text
    have read := (congrArg (Option.bind · callName) (literal_append "] initcall " _)).trans name
    exact (congrArg (Option.filter _) read).trans (Option.filter_some_pos (decide_eq_true word))
  have found : returnedEvent e.returnLine =
      some (.returned e.returnTime.value e.symbol.name) := by
    rw [returnedEvent, search, Option.map_some, timeValue_word]
  have calling := returnLine_absent e begins_calling (by decide) (by decide)
  have waiting := returnLine_absent e begins_waiting (by decide) (by decide)
  have continuing := returnLine_absent e begins_continuing (by decide) (by decide)
  simp only [lineEvents, found, callingEvent, waitingEvent, continuingEvent, finishedEvent,
    timed_eq_none _ calling, timed_eq_none _ waiting, timed_eq_none _ continuing,
    isFinished_returnLine]
  rfl

/-- The four lines of a call say when it was called and when it returned. -/
theorem lineEvents_lines :
    e.lines.flatMap lineEvents = [.calling e.callTime.value e.symbol.name (pidText e),
      .returned e.returnTime.value e.symbol.name] := by
  simp only [Execution.lines, List.flatMap_cons, List.flatMap_nil, lineEvents_callingLine,
    lineEvents_cpuLine, lineEvents_memLine, lineEvents_returnLine, List.nil_append, List.append_nil,
    List.singleton_append]

end Lines

end OslabProfiler.BootGraph
