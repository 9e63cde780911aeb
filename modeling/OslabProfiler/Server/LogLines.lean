import OslabProfiler.Server.ParseDmesg

/-! # The lines of the patched kernel

`trace_initcall_start_cb` and `trace_initcall_finish_cb` print four lines for an
initcall: the call, the CPU counters, the memory and the return. Every line
carries the time stamp of `printk`. Here is each line by itself, for every
symbol that `%pS` can print, with its tokens, the words the parser finds in it
and what the parser makes of it.
-/

namespace OslabProfiler.Server

open Lib

/-! ## The lines -/

/-- The clock of a line, in microseconds. -/
structure Stamp where
  seconds : Nat
  micros : Nat
  small : micros < 10 ^ 6

/-- `[%5lu.%06lu] `, the prefix of every line. -/
def Stamp.text (t : Stamp) : Text :=
  "[".toList ++ (Nat.toDigits 10 t.seconds).leftpad 5 ' ' ++ ".".toList ++ sixDigits t.micros ++
    "] ".toList

def Stamp.value (t : Stamp) : ℚ := t.seconds + (t.micros : ℚ) / 10 ^ 6

/-- The sums of `get_cpu_usage` in clock ticks; `system` is the one printed as signed. -/
structure CpuUsage where
  user : Nat
  nice : Nat
  system : Int
  idle : Nat
  iowait : Nat
  irq : Nat
  softirq : Nat

def CpuUsage.counters (u : CpuUsage) : List Int :=
  [u.user, u.nice, u.system, u.idle, u.iowait, u.irq, u.softirq]

def isIdentifier (name : Text) : Bool :=
  name.head?.any (fun c => c.isAlpha || c = '_') && name.all fun c => c.isAlphanum || c = '_'

/-- What `%pS` prints for an initcall: the name with offset and size and, for a function
    of a module, the name of the module. -/
structure Symbol where
  name : Text
  offset : Nat
  size : Nat
  module : Option Text
  identifier : isIdentifier name = true
  moduleIdentifier : module.all isIdentifier = true

/-- `+%#lx/%#lx` behind the name, without the `+`. -/
def Symbol.offsets (sym : Symbol) : Text :=
  "0x".toList ++ Nat.toDigits 16 sym.offset ++ "/0x".toList ++ Nat.toDigits 16 sym.size

def Symbol.text (sym : Symbol) : Text :=
  sym.name ++ "+".toList ++ sym.offsets ++
    sym.module.elim [] fun m => " [".toList ++ m ++ "]".toList

/-- One execution of an initcall with all that its lines say. -/
structure Execution where
  symbol : Symbol
  pid : Int
  cpu : CpuUsage
  memTotal : Int
  memFree : Int
  ret : Int
  duration : Int
  callTime : Stamp
  cpuTime : Stamp
  memTime : Stamp
  returnTime : Stamp
  /-- The numbers are of the 64-bit types of the kernel. -/
  words : ((callTime.seconds : Int) :: memTotal :: memFree :: ret :: duration ::
    cpu.counters).all isWord64 = true := by decide

namespace Execution

variable (e : Execution)

/-- `calling  %pS @ %i`. -/
def callingLine : Text :=
  e.callTime.text ++ "calling  ".toList ++ e.symbol.text ++ " @ ".toList ++ printInt e.pid

/-- The line of `get_cpu_usage`. -/
def cpuLine : Text :=
  e.cpuTime.text ++ "[OSLAB] ".toList ++ "user : ".toList ++ Nat.toDigits 10 e.cpu.user ++
    ", nice : ".toList ++ Nat.toDigits 10 e.cpu.nice ++
    ", system : ".toList ++ printInt e.cpu.system ++
    ", idle : ".toList ++ Nat.toDigits 10 e.cpu.idle ++
    ", iowait : ".toList ++ Nat.toDigits 10 e.cpu.iowait ++
    ", irq : ".toList ++ Nat.toDigits 10 e.cpu.irq ++
    ", softirq : ".toList ++ Nat.toDigits 10 e.cpu.softirq

/-- The line of `get_mem_usage`. -/
def memLine : Text :=
  e.memTime.text ++ "[OSLAB] ".toList ++ "MemTotal : ".toList ++ printInt e.memTotal ++
    ", MemFree : ".toList ++ printInt e.memFree

/-- `initcall %pS returned %d after %lld usecs`. -/
def returnLine : Text :=
  e.returnTime.text ++ "initcall ".toList ++ e.symbol.text ++ " returned ".toList ++
    printInt e.ret ++ " after ".toList ++ printInt e.duration ++ " usecs".toList

def lines : List Text := [e.callingLine, e.cpuLine, e.memLine, e.returnLine]

end Execution

/-! ## What is printed between the words -/

/-- The characters of printed numbers, offsets and stamps. -/
def isPrinted (c : Char) : Bool := isHexDigit c || c = 'x' || c = '/' || c = '.' || c = '-'

def Printed (w : Text) : Prop := ∀ c ∈ w, isPrinted c = true

theorem Printed.append {a b : Text} (ha : Printed a) (hb : Printed b) : Printed (a ++ b) := by
  intro c member
  cases List.mem_append.mp member with
  | inl left => exact ha c left
  | inr right => exact hb c right

theorem printed_of_digits {w : Text} (digits : ∀ c ∈ w, c.isDigit = true) : Printed w := by
  intro c member
  simp [isPrinted, isHexDigit, digits c member]

theorem printed_toDigits (n : Nat) : Printed (Nat.toDigits 10 n) :=
  printed_of_digits fun _ h => digit_of_mem h

theorem printed_printInt (z : Int) : Printed (printInt z) := by
  cases z with
  | ofNat n => exact printed_toDigits n
  | negSucc n => exact List.forall_mem_cons.mpr ⟨rfl, printed_toDigits (n + 1)⟩

theorem printInt_ne_nil (z : Int) : printInt z ≠ [] := by
  cases z with
  | ofNat n => exact Nat.toDigits_ne_nil
  | negSucc n => exact List.cons_ne_nil _ _

theorem printed_digitChar {d : Nat} (small : d < 16) : isPrinted d.digitChar = true := by
  revert d
  decide

theorem printed_hex (n : Nat) : Printed (Nat.toDigits 16 n) := by
  induction n using Nat.strong_induction_on with
  | _ n ih =>
      rw [Nat.toDigits_eq_if (by decide)]
      split
      case isTrue small => exact List.forall_mem_singleton.mpr (printed_digitChar small)
      case isFalse large =>
          apply Printed.append (ih (n / 16) (Nat.div_lt_self (by omega) (by decide)))
          exact List.forall_mem_singleton.mpr (printed_digitChar (Nat.mod_lt n (by decide)))

/-- The number in a time stamp. -/
def Stamp.word (t : Stamp) : Text := Nat.toDigits 10 t.seconds ++ '.' :: sixDigits t.micros

theorem Stamp.printed_word (t : Stamp) : Printed t.word :=
  (printed_toDigits _).append (List.forall_mem_cons.mpr
    ⟨rfl, printed_of_digits fun _ h => digit_of_mem_sixDigits h⟩)

theorem Stamp.text_eq (t : Stamp) : ∃ n, t.text =
    "[".toList ++ (List.replicate n ' ' ++ (t.word ++ "] ".toList)) :=
  ⟨5 - (Nat.toDigits 10 t.seconds).length, by simp [text, word, List.leftpad]⟩

/-- Printed text neither contains a separator nor begins a word of the parser. -/
theorem Printed.not_mem {w : Text} (printed : Printed w) {c : Char} (other : isPrinted c = false) :
    c ∉ w := by
  intro member
  simp [printed c member] at other

/-- Characters of a class without separators are no separators. -/
theorem not_separator {p : Char → Bool} (apart : "[]+,: ".toList.any p = false) {c : Char}
    (hc : p c = true) : isSeparator c = false := by
  cases separates : isSeparator c with
  | false => rfl
  | true =>
      have member : c ∈ "[]+,: ".toList := by simpa [isSeparator, or_assoc] using separates
      exact absurd hc (List.any_eq_false.mp apart c member)

theorem Printed.isWord {w : Text} (printed : Printed w) (nonempty : w ≠ []) :
    IsWord isSeparator w :=
  ⟨nonempty, fun c member => not_separator (by decide) (printed c member)⟩

/-! ## Tokens -/

@[simp] theorem tokens_toDigits (n : Nat) :
    tokens isSeparator (Nat.toDigits 10 n) = [Nat.toDigits 10 n] :=
  tokens_word ((printed_toDigits n).isWord Nat.toDigits_ne_nil)

@[simp] theorem tokens_printInt (z : Int) : tokens isSeparator (printInt z) = [printInt z] :=
  tokens_word ((printed_printInt z).isWord (printInt_ne_nil z))

theorem Stamp.tokens_text_append (t : Stamp) (rest : Text) :
    tokens isSeparator (t.text ++ rest) = t.word :: tokens isSeparator rest := by
  obtain ⟨n, eq⟩ := t.text_eq
  have word : IsWord isSeparator t.word := t.printed_word.isWord (by simp [Stamp.word])
  simp only [eq, List.append_assoc]
  rw [tokens_append_of_getLast _ (by rfl), tokens_replicate_append n _ (by rfl),
    tokens_append_of_head t.word (by rfl), tokens_word word, tokens_append_of_getLast rest (by rfl)]
  rfl

/-! ## What the parser finds in the lines -/

/-- A word without separators that does not begin like a printed number. -/
structure Keyword (pat : String) : Prop where
  word : IsWord isSeparator pat.toList
  start : pat.toList.head?.all (fun c => !isPrinted c) = true

theorem keyword_nice : Keyword "nice" := ⟨by decide, by decide⟩

theorem keyword_memTotal : Keyword "MemTotal" := ⟨by decide, by decide⟩

theorem keyword_oslab : Keyword "OSLAB" := ⟨by decide, by decide⟩

/-- A keyword occurs in a line when it occurs in one of the line's tokens, -/
theorem Keyword.occurs_eq {pat : String} (keyword : Keyword pat) (str : Text) :
    occurs pat str = (tokens isSeparator str).any (occurs pat) := by
  rw [Bool.eq_iff_iff]
  simp only [occurs, decide_eq_true_eq, List.any_eq_true]
  exact infix_iff_tokens keyword.word str

/-- and never in a printed number. -/
theorem Keyword.not_printed {pat : String} (keyword : Keyword pat) {w : Text}
    (printed : Printed w) : occurs pat w = false := by
  rw [occurs, decide_eq_false_iff_not]
  have start := keyword.start
  cases pattern : pat.toList with
  | nil => exact (keyword.word.1 pattern).elim
  | cons c p =>
      rw [pattern] at start
      exact not_infix_of_head (printed.not_mem (by simpa using start))

/-- Behind the stamp the parser looks for a word in front of the message. -/
theorem Stamp.infix_text_append (t : Stamp) (word rest : Text) :
    ']' :: ' ' :: word <:+: t.text ++ rest ↔ word <+: rest ∨ ']' :: ' ' :: word <:+: rest := by
  obtain ⟨n, eq⟩ := t.text_eq
  have absent : ']' ∉ "[".toList ++ List.replicate n ' ' ++ t.word := by
    simp [t.printed_word.not_mem (c := ']') rfl]
  have line : t.text ++ rest =
      ("[".toList ++ List.replicate n ' ' ++ t.word) ++ ']' :: ' ' :: rest := by
    simp [eq]
  rw [line, infix_of_head absent, List.cons_prefix_cons, List.infix_cons_iff, List.cons_prefix_cons]
  simp

/-- A message with another first word and without a bracket does not match, -/
theorem Stamp.not_infix (t : Stamp) (word : Text) {rest : Text} (start : ¬ word <+: rest)
    (bare : ']' ∉ rest) : ¬ ']' :: ' ' :: word <:+: t.text ++ rest := by
  intro found
  cases (t.infix_text_append word rest).mp found with
  | inl first => exact start first
  | inr later => exact not_infix_of_head bare later

/-- and neither does one behind the mark, whose bracket is followed by no call. -/
theorem Stamp.oslab_not_calling (t : Stamp) {rest : Text} (start : ¬ "calling".toList <+: rest)
    (bare : ']' ∉ rest) :
    occurs "] calling" (t.text ++ ("[OSLAB] ".toList ++ rest)) = false := by
  rw [occurs, decide_eq_false_iff_not]
  intro found
  cases (t.infix_text_append "calling".toList _).mp found with
  | inl first => simp at first
  | inr later =>
      cases (infix_of_head (a := "[OSLAB".toList) (b := ' ' :: rest) (by decide)).mp later with
      | inl here => exact start (List.cons_prefix_cons.mp here).2
      | inr after => exact not_infix_of_head (by simpa using bare) after

theorem isWord_of_isIdentifier {name : Text} (identifier : isIdentifier name = true) :
    IsWord isSeparator name := by
  simp only [isIdentifier, Bool.and_eq_true, List.all_eq_true] at identifier
  have nonempty : name ≠ [] := fun empty => by simp [empty] at identifier
  exact ⟨nonempty, fun d member =>
    not_separator (p := fun d => d.isAlphanum || d = '_') (by decide) (identifier.2 d member)⟩

theorem newline_not_mem_identifier {name : Text} (identifier : isIdentifier name = true) :
    '\n' ∉ name := by
  simp only [isIdentifier, Bool.and_eq_true, List.all_eq_true] at identifier
  exact fun member => absurd (identifier.2 _ member) (by decide)

namespace Symbol

variable (sym : Symbol)

theorem printed_offsets : Printed sym.offsets := by
  have literal : Printed "0x".toList ∧ Printed "/0x".toList :=
    ⟨List.all_eq_true.mp (by decide), List.all_eq_true.mp (by decide)⟩
  exact ((literal.1.append (printed_hex _)).append literal.2).append (printed_hex _)

theorem name_isWord : IsWord isSeparator sym.name := isWord_of_isIdentifier sym.identifier

theorem offsets_isWord : IsWord isSeparator sym.offsets :=
  sym.printed_offsets.isWord (by simp [offsets])

theorem module_isIdentifier {m : Text} (h : sym.module = some m) : isIdentifier m = true := by
  have all := sym.moduleIdentifier
  rwa [h] at all

/-- The words of a symbol between separators. -/
def words : List Text := sym.name :: sym.offsets :: sym.module.toList

/-- The text of a symbol is cut into its words; what follows begins with a blank. -/
theorem tokens_text_append (rest : Text) :
    tokens isSeparator (sym.text ++ ' ' :: rest) = sym.words ++ tokens isSeparator rest := by
  have offsets := tokens_word sym.offsets_isWord
  simp only [text, List.append_assoc]
  rw [tokens_append_of_head sym.name (by rfl), tokens_append_of_getLast _ (by rfl),
    tokens_word sym.name_isWord]
  cases inModule : sym.module with
  | none =>
      have blank : tokens isSeparator (sym.offsets ++ ' ' :: rest) =
          tokens isSeparator sym.offsets ++ tokens isSeparator rest := tokens_append_cons _ _ rfl
      simp only [Option.elim_none, List.nil_append, blank, offsets, words, inModule]
      rfl
  | some m =>
      have name := tokens_word (isWord_of_isIdentifier (sym.module_isIdentifier inModule))
      simp only [Option.elim_some, words, inModule]
      rw [tokens_append_of_head sym.offsets (by rfl), offsets, List.append_assoc, List.append_assoc,
        tokens_append_of_getLast _ (by rfl), tokens_append_of_head m (by rfl), name,
        tokens_append_of_getLast _ (by rfl), tokens_cons _ (by rfl)]
      rfl

/-- Behind the bracket of a module stands a blank and the rest of the line, so a word
    that the parser looks for behind a bracket is not found there. -/
theorem not_infix (pre word rest : Text) (bare : ']' ∉ pre) (bareRest : ']' ∉ rest)
    (other : ¬ word <+: rest) :
    ¬ ']' :: ' ' :: word <:+: pre ++ (sym.text ++ ' ' :: rest) := by
  have bareName : ']' ∉ sym.name := fun member => by cases sym.name_isWord.2 _ member
  have bareOffsets := sym.printed_offsets.not_mem (c := ']') rfl
  cases inModule : sym.module with
  | none =>
      apply not_infix_of_head
      simp [text, inModule, bare, bareRest, bareName, bareOffsets]
  | some m =>
      have bareModule : ']' ∉ m := fun member => by
        cases (isWord_of_isIdentifier (sym.module_isIdentifier inModule)).2 _ member
      have line : pre ++ (sym.text ++ ' ' :: rest) =
          (pre ++ sym.name ++ "+".toList ++ sym.offsets ++ " [".toList ++ m) ++
            ']' :: ' ' :: rest := by
        simp [text, inModule]
      have absent : ']' ∉ pre ++ sym.name ++ "+".toList ++ sym.offsets ++ " [".toList ++ m := by
        simp [bare, bareName, bareOffsets, bareModule]
      rw [line, infix_of_head absent, List.cons_prefix_cons]
      rintro (here | later)
      · exact other here.2
      · exact not_infix_of_head (by simp [bareRest]) later

/-- The word occurs in one of the names of the symbol. -/
def mentions (pat : String) : Bool := occurs pat sym.name || sym.module.any (occurs pat)

theorem any_words {pat : String} (keyword : Keyword pat) :
    sym.words.any (occurs pat) = sym.mentions pat := by
  rw [words, List.any_cons, List.any_cons, keyword.not_printed sym.printed_offsets, mentions]
  cases sym.module <;> simp

/-- The parser's words for the other lines do not occur in the symbol. -/
def Silent : Prop := sym.mentions "nice" = false ∧ sym.mentions "MemTotal" = false

instance : Decidable sym.Silent := inferInstanceAs (Decidable (_ ∧ _))

end Symbol

theorem Stamp.newline_not_mem (t : Stamp) : '\n' ∉ t.text := by
  obtain ⟨n, eq⟩ := t.text_eq
  simp [eq, t.printed_word.not_mem (c := '\n') rfl]

namespace Execution

variable (e : Execution)

/-! ## The call and the return -/

theorem tokens_callingLine :
    tokens isSeparator e.callingLine =
      e.callTime.word :: "calling".toList :: (e.symbol.words ++ ["@".toList, printInt e.pid]) := by
  simp only [callingLine, List.append_assoc, Stamp.tokens_text_append]
  have rest : tokens isSeparator ("@ ".toList ++ printInt e.pid) = ["@".toList, printInt e.pid] := by
    rw [tokens_append_of_getLast _ (by rfl), tokens_printInt]
    rfl
  have behind := e.symbol.tokens_text_append ("@ ".toList ++ printInt e.pid)
  rw [rest] at behind
  rw [tokens_append_of_getLast _ (by rfl)]
  exact congrArg _ (congrArg _ behind)

theorem tokens_returnLine :
    tokens isSeparator e.returnLine =
      e.returnTime.word :: "initcall".toList :: (e.symbol.words ++
        ["returned".toList, printInt e.ret, "after".toList, printInt e.duration,
          "usecs".toList]) := by
  simp only [returnLine, List.append_assoc, Stamp.tokens_text_append]
  have rest : tokens isSeparator
      ("returned ".toList ++ (printInt e.ret ++ (" after ".toList ++ (printInt e.duration ++
        " usecs".toList)))) =
      ["returned".toList, printInt e.ret, "after".toList, printInt e.duration, "usecs".toList] := by
    rw [tokens_append_of_getLast _ (by rfl), tokens_append_of_head _ (by rfl),
      tokens_append_of_getLast _ (by rfl), tokens_append_of_head _ (by rfl), tokens_printInt,
      tokens_printInt]
    rfl
  have behind := e.symbol.tokens_text_append
    ("returned ".toList ++ (printInt e.ret ++ (" after ".toList ++ (printInt e.duration ++
      " usecs".toList))))
  rw [rest] at behind
  rw [tokens_append_of_getLast _ (by rfl)]
  exact congrArg _ (congrArg _ behind)

theorem callingLine_isCalling : isCalling e.callingLine = true := by
  simp only [isCalling, occurs, decide_eq_true_eq, callingLine, List.append_assoc]
  exact (e.callTime.infix_text_append _ _).mpr (.inl ⟨_, rfl⟩)

theorem callingLine_not_initcall : occurs "] initcall" e.callingLine = false := by
  simp only [occurs, decide_eq_false_iff_not, callingLine, List.append_assoc]
  intro found
  cases (e.callTime.infix_text_append "initcall".toList _).mp found with
  | inl first => simp at first
  | inr later =>
      refine e.symbol.not_infix "calling  ".toList "initcall".toList
        ("@ ".toList ++ printInt e.pid) (by decide) ?_ ?_ later
      · simp [(printed_printInt e.pid).not_mem (c := ']') rfl]
      · simp

theorem callingLine_keyword {pat : String} (keyword : Keyword pat)
    (fixed : ["calling".toList, "@".toList].any (occurs pat) = false) :
    occurs pat e.callingLine = e.symbol.mentions pat := by
  simp only [List.any_cons, List.any_nil, Bool.or_eq_false_iff] at fixed
  rw [keyword.occurs_eq, e.tokens_callingLine]
  simp only [List.any_cons, List.any_append, List.any_nil, fixed, e.symbol.any_words keyword,
    keyword.not_printed e.callTime.printed_word, keyword.not_printed (printed_printInt e.pid),
    Bool.false_or, Bool.or_false]

theorem callingLine_isClosing : isClosing e.callingLine = false := by
  simp [isClosing, e.callingLine_not_initcall]

theorem returnLine_initcall : occurs "] initcall" e.returnLine = true := by
  simp only [occurs, decide_eq_true_eq, returnLine, List.append_assoc]
  exact (e.returnTime.infix_text_append _ _).mpr (.inl ⟨_, rfl⟩)

theorem returnLine_isCalling : isCalling e.returnLine = false := by
  simp only [isCalling, occurs, decide_eq_false_iff_not, returnLine, List.append_assoc]
  intro found
  cases (e.returnTime.infix_text_append "calling".toList _).mp found with
  | inl first => simp at first
  | inr later =>
      refine e.symbol.not_infix "initcall ".toList "calling".toList
        ("returned ".toList ++ (printInt e.ret ++ (" after ".toList ++ (printInt e.duration ++
          " usecs".toList)))) (by decide) ?_ ?_ later
      · simp [(printed_printInt _).not_mem (c := ']') rfl]
      · simp

theorem returnLine_keyword {pat : String} (keyword : Keyword pat)
    (fixed : ["initcall".toList, "returned".toList, "after".toList, "usecs".toList].any
      (occurs pat) = false) :
    occurs pat e.returnLine = e.symbol.mentions pat := by
  simp only [List.any_cons, List.any_nil, Bool.or_eq_false_iff] at fixed
  rw [keyword.occurs_eq, e.tokens_returnLine]
  simp only [List.any_cons, List.any_append, List.any_nil, fixed, e.symbol.any_words keyword,
    keyword.not_printed e.returnTime.printed_word, keyword.not_printed (printed_printInt _),
    Bool.false_or, Bool.or_false]

/-- The return closes a record, unless a word of another line stands in the symbol. -/
theorem returnLine_isClosing : isClosing e.returnLine = true ↔ e.symbol.Silent := by
  rw [isClosing, e.returnLine_initcall, e.returnLine_keyword keyword_nice (by decide),
    e.returnLine_keyword keyword_memTotal (by decide), Symbol.Silent]
  simp [and_comm]

/-! ## The CPU line and the memory line -/

theorem tokens_cpuLine :
    tokens isSeparator e.cpuLine =
      [e.cpuTime.word, "OSLAB".toList, "user".toList, Nat.toDigits 10 e.cpu.user,
        "nice".toList, Nat.toDigits 10 e.cpu.nice, "system".toList, printInt e.cpu.system,
        "idle".toList, Nat.toDigits 10 e.cpu.idle, "iowait".toList, Nat.toDigits 10 e.cpu.iowait,
        "irq".toList, Nat.toDigits 10 e.cpu.irq, "softirq".toList,
        Nat.toDigits 10 e.cpu.softirq] := by
  simp only [cpuLine, List.append_assoc, Stamp.tokens_text_append]
  rw [tokens_append_of_getLast _ (by rfl)]
  iterate 6 rw [tokens_append_of_getLast _ (by rfl), tokens_append_of_head _ (by rfl)]
  rw [tokens_append_of_getLast _ (by rfl)]
  simp only [tokens_toDigits, tokens_printInt]
  rfl

theorem tokens_memLine :
    tokens isSeparator e.memLine =
      [e.memTime.word, "OSLAB".toList, "MemTotal".toList, printInt e.memTotal, "MemFree".toList,
        printInt e.memFree] := by
  simp only [memLine, List.append_assoc, Stamp.tokens_text_append]
  rw [tokens_append_of_getLast _ (by rfl), tokens_append_of_getLast _ (by rfl),
    tokens_append_of_head _ (by rfl), tokens_append_of_getLast _ (by rfl), tokens_printInt,
    tokens_printInt]
  rfl

theorem cpuLine_isCalling : isCalling e.cpuLine = false := by
  simp only [isCalling, cpuLine, List.append_assoc]
  apply e.cpuTime.oslab_not_calling
  · simp
  · simp [(printed_toDigits _).not_mem (c := ']') rfl, (printed_printInt _).not_mem (c := ']') rfl]

theorem cpuLine_keywords :
    occurs "OSLAB" e.cpuLine = true ∧ occurs "nice" e.cpuLine = true ∧
      occurs "MemTotal" e.cpuLine = false := by
  rw [keyword_oslab.occurs_eq, keyword_nice.occurs_eq, keyword_memTotal.occurs_eq,
    e.tokens_cpuLine]
  refine ⟨?_, ?_, ?_⟩
  · exact List.any_eq_true.mpr ⟨"OSLAB".toList, by simp, by decide⟩
  · exact List.any_eq_true.mpr ⟨"nice".toList, by simp, by decide⟩
  · simp only [List.any_cons, List.any_nil, keyword_memTotal.not_printed (printed_toDigits _),
      keyword_memTotal.not_printed (printed_printInt _),
      keyword_memTotal.not_printed e.cpuTime.printed_word]
    decide

theorem cpuLine_isClosing : isClosing e.cpuLine = false := by
  simp [isClosing, e.cpuLine_keywords]

theorem memLine_isCalling : isCalling e.memLine = false := by
  simp only [isCalling, memLine, List.append_assoc]
  apply e.memTime.oslab_not_calling
  · simp
  · simp [(printed_printInt _).not_mem (c := ']') rfl]

theorem memLine_keywords :
    occurs "OSLAB" e.memLine = true ∧ occurs "MemTotal" e.memLine = true := by
  rw [keyword_oslab.occurs_eq, keyword_memTotal.occurs_eq, e.tokens_memLine]
  constructor
  · exact List.any_eq_true.mpr ⟨"OSLAB".toList, by simp, by decide⟩
  · exact List.any_eq_true.mpr ⟨"MemTotal".toList, by simp, by decide⟩

theorem memLine_isClosing : isClosing e.memLine = false := by
  simp [isClosing, e.memLine_keywords]

end Execution

/-! ## What the parser makes of the lines -/

/-- The counters as the parser keeps them. -/
def CpuUsage.infos (u : CpuUsage) : List Num :=
  [.rat u.user, .rat u.nice, .rat u.system, .rat u.idle, .rat u.iowait, .rat u.irq, .rat u.softirq]

namespace Execution

variable (e : Execution)

theorem isWord64_of_mem {z : Int}
    (member : z ∈ (e.callTime.seconds : Int) :: e.memTotal :: e.memFree :: e.ret :: e.duration ::
      e.cpu.counters) : isWord64 z = true :=
  List.all_eq_true.mp e.words z member

theorem numbers_counters :
    number (Nat.toDigits 10 e.cpu.user) = .rat e.cpu.user ∧
    number (Nat.toDigits 10 e.cpu.nice) = .rat e.cpu.nice ∧
    number (printInt e.cpu.system) = .rat e.cpu.system ∧
    number (Nat.toDigits 10 e.cpu.idle) = .rat e.cpu.idle ∧
    number (Nat.toDigits 10 e.cpu.iowait) = .rat e.cpu.iowait ∧
    number (Nat.toDigits 10 e.cpu.irq) = .rat e.cpu.irq ∧
    number (Nat.toDigits 10 e.cpu.softirq) = .rat e.cpu.softirq := by
  have word : ∀ z ∈ e.cpu.counters, isWord64 z = true := fun z member =>
    e.isWord64_of_mem (by simp only [List.mem_cons, member, or_true])
  simp only [CpuUsage.counters, List.forall_mem_cons] at word
  obtain ⟨user, nice, system, idle, iowait, irq, softirq, -⟩ := word
  exact ⟨number_toDigits user, number_toDigits nice, number_printInt system, number_toDigits idle,
    number_toDigits iowait, number_toDigits irq, number_toDigits softirq⟩

/-- The call is noted with the time of its line and the name of the function. -/
theorem called_callingLine (obj : DriverInfo) :
    called e.callingLine obj =
      { obj with
        startTime := some (.rat e.callTime.value), deviceDriverName := some e.symbol.name } := by
  have stamp : number e.callTime.word = .rat e.callTime.value :=
    number_stamp (e.isWord64_of_mem List.mem_cons_self) e.callTime.small
  rw [called, if_pos e.callingLine_isCalling, e.tokens_callingLine]
  simp only [numberAt, List.getElem?_cons_zero, List.getElem?_cons_succ, stamp, Symbol.words,
    List.cons_append]

theorem parseLine_callingLine (silent : e.symbol.Silent) (s : ParseState) :
    parseLine s e.callingLine =
      { s with
        obj :=
          { s.obj with
            startTime := some (.rat e.callTime.value)
            deviceDriverName := some e.symbol.name } } := by
  have noNice := e.callingLine_keyword keyword_nice (by decide)
  have noMem := e.callingLine_keyword keyword_memTotal (by decide)
  rw [silent.1] at noNice
  rw [silent.2] at noMem
  rw [← e.called_callingLine, parseLine_eq]
  simp [isMemory, isCpu, noNice, noMem, e.callingLine_isClosing]

theorem parseLine_cpuLine (s : ParseState) :
    parseLine s e.cpuLine =
      { s with
        cpuInfos := e.cpu.infos
        obj := { s.obj with cpuUtil := some (cpuUtil e.cpu.infos s.cpuInfos) } } := by
  obtain ⟨marked, nice, noMem⟩ := e.cpuLine_keywords
  have cpu : isCpu e.cpuLine = true := by simp [isCpu, isMarked, marked, nice, noMem]
  rw [parseLine_cpu cpu, called_of_not_calling e.cpuLine_isCalling, e.tokens_cpuLine]
  simp only [List.map_cons, List.map_nil, numberAt, List.getElem?_cons_zero,
    List.getElem?_cons_succ, e.numbers_counters, CpuUsage.infos]

theorem parseLine_memLine (s : ParseState) :
    parseLine s e.memLine =
      { s with
        obj :=
          { s.obj with
            memUtil := some ((.rat e.memTotal - .rat e.memFree) / .rat e.memTotal) } } := by
  obtain ⟨marked, mem⟩ := e.memLine_keywords
  have memory : isMemory e.memLine = true := by simp [isMemory, isMarked, marked, mem]
  rw [parseLine_memory memory, called_of_not_calling e.memLine_isCalling, memoryUse,
    e.tokens_memLine]
  have total : isWord64 e.memTotal = true := e.isWord64_of_mem (by simp)
  have free : isWord64 e.memFree = true := e.isWord64_of_mem (by simp)
  simp only [numberAt, List.getElem?_cons_zero, List.getElem?_cons_succ, number_printInt total,
    number_printInt free]

theorem parseLine_returnLine (silent : e.symbol.Silent) (s : ParseState) :
    parseLine s e.returnLine =
      { s with
        obj := {}
        infoArray := s.infoArray ++
          [{ s.obj with
             initTime := some (numberAt (tokens isSeparator e.returnLine) 7 / .rat 1000000)
             returnValue := some (numberAt (tokens isSeparator e.returnLine) 5) }] } := by
  rw [parseLine_closing (e.returnLine_isClosing.mpr silent),
    called_of_not_calling e.returnLine_isCalling]

/-- The line of a built-in function has the return value and the duration where the
    parser takes them from. -/
theorem numberAt_returnLine (builtin : e.symbol.module = none) :
    numberAt (tokens isSeparator e.returnLine) 5 = .rat e.ret ∧
      numberAt (tokens isSeparator e.returnLine) 7 = .rat e.duration := by
  rw [e.tokens_returnLine, Symbol.words, builtin]
  exact ⟨number_printInt (e.isWord64_of_mem (by simp)),
    number_printInt (e.isWord64_of_mem (by simp))⟩

theorem newline_not_mem : ∀ l ∈ e.lines, '\n' ∉ l := by
  have name := newline_not_mem_identifier e.symbol.identifier
  have symbol : '\n' ∉ e.symbol.text := by
    cases inModule : e.symbol.module with
    | none =>
        simp [Symbol.text, inModule, name, e.symbol.printed_offsets.not_mem (c := '\n') rfl]
    | some m =>
        have module := newline_not_mem_identifier (e.symbol.module_isIdentifier inModule)
        simp [Symbol.text, inModule, name, module,
          e.symbol.printed_offsets.not_mem (c := '\n') rfl]
  simp [lines, callingLine, cpuLine, memLine, returnLine, Stamp.newline_not_mem, symbol,
    (printed_toDigits _).not_mem (c := '\n') rfl, (printed_printInt _).not_mem (c := '\n') rfl]

end Execution

/-- A log as the text of a file. -/
def logText (log : List Text) : Text := List.intercalate ['\n'] log

theorem parseDmesg_logText {log : List Text} (oneLine : ∀ l ∈ log, '\n' ∉ l) :
    parseDmesg (logText log) = (parseLines log {}).infoArray := by
  cases log with
  | nil => rfl
  | cons l log =>
      rw [parseDmesg, logText, List.splitOn_intercalate '\n' oneLine (List.cons_ne_nil l log)]

theorem parseLines_append (a b : List Text) (s : ParseState) :
    parseLines (a ++ b) s = parseLines b (parseLines a s) := List.foldl_append

end OslabProfiler.Server
