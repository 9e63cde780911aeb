import OslabProfiler.Server.KernelLog

/-! # Utilisations lie between 0 and 1

A log of one call after the other, of any symbols. The names of some symbols make the
parser take their lines for a line of counters; what it reads there is not a number, and
stays none until the next line of counters. Between two real lines the load is a share
of at least one tick, so the bounds hold whatever the idle times do.
-/

namespace OslabProfiler.Server

open Lib

/-- A number between 0 and 1. -/
def InUnit (x : Option Num) : Prop := ∃ q : ℚ, x = some (.rat q) ∧ 0 ≤ q ∧ q ≤ 1

/-- The counters that never go back; idle times may. -/
structure CpuUsage.Grows (old new : CpuUsage) : Prop where
  user : old.user ≤ new.user
  nice : old.nice ≤ new.nice
  system : old.system ≤ new.system
  irq : old.irq ≤ new.irq
  softirq : old.softirq ≤ new.softirq

/-! ## The arithmetic -/

theorem CpuUsage.Grows.load_nonneg {old new : CpuUsage} (grows : Grows old new) :
    0 ≤ new.load old := by
  have user : (old.user : ℚ) ≤ new.user := by exact_mod_cast grows.user
  have nice : (old.nice : ℚ) ≤ new.nice := by exact_mod_cast grows.nice
  have system : (old.system : ℚ) ≤ new.system := by exact_mod_cast grows.system
  have irq : (old.irq : ℚ) ≤ new.irq := by exact_mod_cast grows.irq
  have softirq : (old.softirq : ℚ) ≤ new.softirq := by exact_mod_cast grows.softirq
  apply le_min _ zero_le_one
  apply div_nonneg
  · linarith
  · exact zero_le_one.trans (le_max_right _ 1)

theorem CpuUsage.load_le_one (new old : CpuUsage) : new.load old ≤ 1 := min_le_right _ _

/-- A counter that is not a number makes the load 0. -/
theorem cpuUtil_of_nan (new : List Num) {old : List Num} (undefined : elem old 0 = .nan) :
    cpuUtil new old = .rat 0 := by
  simp only [cpuUtil, undefined, Num.nan_add, Num.sub_nan, Num.nan_div, Num.isNaN, if_true]
  rfl

theorem memUtil_inUnit {total free : Int} (low : 0 ≤ free) (high : free ≤ total)
    (positive : 0 < total) : InUnit (some ((.rat total - .rat free) / .rat total)) := by
  have total' : (0 : ℚ) < total := by exact_mod_cast positive
  have low' : (0 : ℚ) ≤ free := by exact_mod_cast low
  have high' : (free : ℚ) ≤ total := by exact_mod_cast high
  refine ⟨(total - free) / total, ?_, ?_, ?_⟩
  · rw [Num.rat_sub, Num.rat_div _ total'.ne']
  · exact div_nonneg (by linarith) total'.le
  · rw [div_le_one total']
    linarith

/-! ## The carried counters -/

/-- The counters carried along are those of the last line of counters, or are spoilt. -/
def Carries (s : ParseState) (last : Option CpuUsage) : Prop :=
  elem s.cpuInfos 0 = .nan ∨ ∃ u, last = some u ∧ s.cpuInfos = u.infos

theorem carries_start : Carries {} none := .inl rfl

theorem Carries.cpuUtil {s : ParseState} {last : Option CpuUsage} (h : Carries s last)
    {new : CpuUsage} (grows : ∀ old, last = some old → CpuUsage.Grows old new) :
    InUnit (some (cpuUtil new.infos s.cpuInfos)) := by
  cases h with
  | inl spoilt => exact ⟨0, by rw [cpuUtil_of_nan _ spoilt], le_rfl, zero_le_one⟩
  | inr kept =>
      obtain ⟨old, isLast, infos⟩ := kept
      have load := cpuUtil_carried new (some old)
      rw [carried, Option.elim_some, Option.elim_some] at load
      rw [infos, load]
      exact ⟨_, rfl, (grows old isLast).load_nonneg, new.load_le_one old⟩

theorem cpuInfos_parseLine (s : ParseState) (str : Text) :
    (parseLine s str).cpuInfos =
      if isCpu str then [3, 5, 7, 9, 11, 13, 15].map (numberAt (tokens isSeparator str))
      else s.cpuInfos := by
  rw [parseLine_eq]
  cases memory : isMemory str with
  | true => rw [not_isCpu_of_isMemory memory]; rfl
  | false =>
      cases isCpu str with
      | true => rfl
      | false => cases isClosing str <;> rfl

/-- A line without a number where the first counter stands keeps the counters or spoils
    them. -/
theorem Carries.parseLine {s : ParseState} {last : Option CpuUsage} (h : Carries s last)
    {str : Text} (noNumber : numberAt (tokens isSeparator str) 3 = .nan) :
    Carries (parseLine s str) last := by
  rw [Carries, cpuInfos_parseLine]
  cases isCpu str with
  | true => exact .inl noNumber
  | false => exact h

/-! ## The lines of a call -/

theorem not_space_of_printed {c : Char} (printed : isPrinted c = true) : ¬ isSpace c = true := by
  have range : 33 ≤ c.toNat ∧ c.toNat ≤ 126 := by
    simp only [isPrinted, isHexDigit, Char.isDigit, Bool.or_eq_true, Bool.and_eq_true,
      decide_eq_true_eq] at printed
    rcases printed with ((((⟨low, high⟩ | ⟨low, high⟩) | ⟨low, high⟩) | rfl) | rfl) | rfl | rfl
    · have low' : 48 ≤ c.toNat := low
      have high' : c.toNat ≤ 57 := high
      omega
    all_goals first | omega | decide
  exact not_space_of_visible range.1 range.2

/-- `0x…/0x…` is not a number. -/
theorem number_offsets (sym : Symbol) : number sym.offsets = .nan := by
  have trimmed : trim sym.offsets = sym.offsets :=
    trim_of_not_space fun c h => not_space_of_printed (sym.printed_offsets c h)
  have slash : ¬ (Nat.toDigits 16 sym.offset ++ '/' :: "0x".toList ++ Nat.toDigits 16 sym.size).all
      isHexDigit = true := by
    simp [isHexDigit]
  have shape : sym.offsets = '0' :: 'x' ::
      (Nat.toDigits 16 sym.offset ++ '/' :: "0x".toList ++ Nat.toDigits 16 sym.size) := by
    simp [Symbol.offsets]
  have noDigits : digits? 16 isHexDigit hexValue
      (Nat.toDigits 16 sym.offset ++ '/' :: "0x".toList ++ Nat.toDigits 16 sym.size) = none :=
    if_neg fun digits => slash digits.2
  simp only [number, literal, trimmed]
  rw [shape]
  simp only [noDigits, Option.map_none, ofOption, Num.double]

namespace Execution

variable (e : Execution)

theorem callingLine_noNumber : numberAt (tokens isSeparator e.callingLine) 3 = .nan := by
  rw [e.tokens_callingLine]
  exact number_offsets e.symbol

theorem returnLine_noNumber : numberAt (tokens isSeparator e.returnLine) 3 = .nan := by
  rw [e.tokens_returnLine]
  exact number_offsets e.symbol

/-- What a call says about the memory makes sense. -/
def MemoryOk : Prop := 0 ≤ e.memFree ∧ e.memFree ≤ e.memTotal ∧ 0 < e.memTotal

instance : Decidable e.MemoryOk := inferInstanceAs (Decidable (_ ∧ _))

/-- The return of a call closes a record with the utilisations noted so far, or none. -/
theorem mem_infoArray_returnLine {s : ParseState} {r : DriverInfo}
    (member : r ∈ (parseLine s e.returnLine).infoArray) :
    r ∈ s.infoArray ∨ (r.cpuUtil = s.obj.cpuUtil ∧ r.memUtil = s.obj.memUtil) := by
  by_cases silent : e.symbol.Silent
  · rw [e.parseLine_returnLine silent, List.mem_append, List.mem_singleton] at member
    cases member with
    | inl old => exact .inl old
    | inr new =>
        subst new
        exact .inr ⟨rfl, rfl⟩
  · have stillOpen : isClosing e.returnLine = false :=
      Bool.eq_false_iff.mpr (mt e.returnLine_isClosing.mp silent)
    rw [(parseLine_open stillOpen).1] at member
    exact .inl member

/-- The four lines of a call leave its counters behind and close at most one record, whose
    utilisations are between 0 and 1. -/
theorem parseLines_inUnit {s : ParseState} {last : Option CpuUsage} (carries : Carries s last)
    (grows : ∀ old, last = some old → CpuUsage.Grows old e.cpu) (memory : e.MemoryOk) :
    Carries (parseLines e.lines s) (some e.cpu) ∧
      ∀ r ∈ (parseLines e.lines s).infoArray,
        r ∈ s.infoArray ∨ (InUnit r.cpuUtil ∧ InUnit r.memUtil) := by
  have called := carries.parseLine e.callingLine_noNumber
  have load := called.cpuUtil grows
  simp only [parseLines, lines, List.foldl_cons, List.foldl_nil, e.parseLine_cpuLine,
    e.parseLine_memLine]
  constructor
  · exact Carries.parseLine (.inr ⟨e.cpu, rfl, rfl⟩) e.returnLine_noNumber
  · intro r member
    cases e.mem_infoArray_returnLine member with
    | inl old =>
        rw [(parseLine_open e.callingLine_isClosing).1] at old
        exact .inl old
    | inr new =>
        right
        rw [new.1, new.2]
        exact ⟨load, memUtil_inUnit memory.1 memory.2.1 memory.2.2⟩

end Execution

/-! ## Whole logs -/

theorem parseLines_calls_inUnit {calls : List Execution} {last : Option CpuUsage}
    {s : ParseState} (carries : Carries s last)
    (grows : (last.toList ++ calls.map (·.cpu)).IsChain CpuUsage.Grows)
    (memory : ∀ e ∈ calls, e.MemoryOk) :
    ∀ r ∈ (parseLines (calls.flatMap Execution.lines) s).infoArray,
      r ∈ s.infoArray ∨ (InUnit r.cpuUtil ∧ InUnit r.memUtil) := by
  induction calls generalizing last s with
  | nil => exact fun r member => .inl member
  | cons e calls ih =>
      intro r member
      have next : ∀ old, last = some old → CpuUsage.Grows old e.cpu := by
        intro old isLast
        rw [isLast] at grows
        exact (List.isChain_cons_cons.mp grows).1
      have rest : ((some e.cpu).toList ++ calls.map (·.cpu)).IsChain CpuUsage.Grows := by
        cases last with
        | none => exact grows
        | some old => exact (List.isChain_cons_cons.mp grows).2
      obtain ⟨carries', block⟩ := e.parseLines_inUnit carries next (memory e List.mem_cons_self)
      rw [List.flatMap_cons, parseLines_append] at member
      cases ih carries' rest (fun a ha => memory a (List.mem_cons_of_mem _ ha)) r member with
      | inl earlier => exact block r earlier
      | inr later => exact .inr later

theorem Woven.refl (own : List Text) : Woven own own := by
  induction own with
  | nil => exact .nil
  | cons l own ih => exact .own ih

/-- Every record of a log of calls whose counters never go back, and whose memory makes
    sense, has utilisations between 0 and 1. -/
theorem utilisations_inUnit (calls : List Execution) (log : List Text)
    (woven : Woven (calls.flatMap Execution.lines) log)
    (grows : (calls.map (·.cpu)).IsChain CpuUsage.Grows) (memory : ∀ e ∈ calls, e.MemoryOk) :
    ∀ r ∈ parseDmesg (logText log), InUnit r.cpuUtil ∧ InUnit r.memUtil := by
  have oneLine : ∀ l ∈ calls.flatMap Execution.lines, '\n' ∉ l := by
    intro l member
    obtain ⟨e, _, line⟩ := List.mem_flatMap.mp member
    exact e.newline_not_mem l line
  intro r member
  rw [parseDmesg_logText (woven.newline_not_mem oneLine), parseLines_woven woven] at member
  cases parseLines_calls_inUnit carries_start grows memory r member with
  | inl start => cases start
  | inr inUnit => exact inUnit

/-- A call whose lines are taken for lines of counters. -/
def niceProbe : Execution where
  symbol := ⟨"nice_probe".toList, 0, 48, some "sched".toList, by decide, by decide⟩
  pid := 1
  cpu := ⟨1, 0, 0, 9, 0, 0, 0⟩
  memTotal := 744152
  memFree := 372076
  ret := 0
  duration := 12
  callTime := ⟨0, 900000, by decide⟩
  cpuTime := ⟨0, 900010, by decide⟩
  memTime := ⟨0, 900020, by decide⟩
  returnTime := ⟨0, 900030, by decide⟩

def niceCalls : List Execution := [consoleInit.execution, niceProbe, busyProbe.execution]

theorem utilisations_niceCalls :
    (niceCalls.map (·.cpu)).IsChain CpuUsage.Grows ∧
      ∀ r ∈ parseDmesg (logText (niceCalls.flatMap Execution.lines)),
        InUnit r.cpuUtil ∧ InUnit r.memUtil := by
  have grows : (niceCalls.map (·.cpu)).IsChain CpuUsage.Grows := by
    refine .cons_cons ⟨?_, ?_, ?_, ?_, ?_⟩ (.cons_cons ⟨?_, ?_, ?_, ?_, ?_⟩ (.singleton _)) <;>
      decide
  have memory : ∀ e ∈ niceCalls, e.MemoryOk := by decide
  exact ⟨grows, utilisations_inUnit niceCalls (niceCalls.flatMap Execution.lines) (Woven.refl _)
    grows memory⟩

end OslabProfiler.Server
