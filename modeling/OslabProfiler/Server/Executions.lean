import OslabProfiler.Lib.Slot
import OslabProfiler.Server.LogLines

/-! # Executions and their records

What `parse_dmesg` makes of the lines of one execution, for every form of symbol, and
of the lines of several executions that run at the same time. The parser keeps a
single record under construction, so lines of overlapping calls end up in the
record of another call.
-/

namespace OslabProfiler.Server

open Lib

/-! ## One execution -/

/-- The log of the execution is read as one record with its name, its return value and
    its duration in seconds. -/
def Execution.Decoded (e : Execution) : Prop :=
  ∃ r, parseDmesg (logText e.lines) = [r] ∧
    r.deviceDriverName = some e.symbol.name ∧
    r.returnValue = some (.rat e.ret) ∧
    r.initTime = some (.rat (e.duration / 10 ^ 6))

namespace Execution

variable (e : Execution)

/-- A symbol with a word of another line in it gives no record: the return is taken for
    that other line. -/
theorem parseLines_of_not_silent (loud : ¬ e.symbol.Silent) (s : ParseState) :
    (parseLines e.lines s).infoArray = s.infoArray := by
  have returned : isClosing e.returnLine = false :=
    Bool.eq_false_iff.mpr (mt e.returnLine_isClosing.mp loud)
  rw [parseLines, lines]
  simp only [List.foldl_cons, List.foldl_nil, parseLine_open returned,
    parseLine_open e.memLine_isClosing, parseLine_open e.cpuLine_isClosing,
    parseLine_open e.callingLine_isClosing]

theorem parseLines_of_silent (silent : e.symbol.Silent) :
    ∃ r, (parseLines e.lines {}).infoArray = [r] ∧
      r.deviceDriverName = some e.symbol.name ∧
      r.returnValue = some (numberAt (tokens isSeparator e.returnLine) 5) ∧
      r.initTime = some (numberAt (tokens isSeparator e.returnLine) 7 / .rat 1000000) := by
  rw [parseLines, lines]
  simp only [List.foldl_cons, List.foldl_nil, e.parseLine_callingLine silent, e.parseLine_cpuLine,
    e.parseLine_memLine, e.parseLine_returnLine silent]
  exact ⟨_, rfl, rfl, rfl, rfl⟩

/-- Behind the name of a module, the word `returned` stands where the parser takes the
    return value from. -/
theorem returnValue_of_module {m : Text} (inModule : e.symbol.module = some m) :
    numberAt (tokens isSeparator e.returnLine) 5 = .nan := by
  rw [e.tokens_returnLine, Symbol.words, inModule]
  rfl

/-- A symbol is decoded when it is built in and its name contains neither of the words
    that the parser takes for other lines. -/
theorem decoded_iff :
    e.Decoded ↔ e.symbol.module = none ∧ occurs "nice" e.symbol.name = false ∧
      occurs "MemTotal" e.symbol.name = false := by
  have whole : parseDmesg (logText e.lines) = (parseLines e.lines {}).infoArray :=
    parseDmesg_logText e.newline_not_mem
  have plain : e.symbol.module = none → (e.symbol.Silent ↔
      occurs "nice" e.symbol.name = false ∧ occurs "MemTotal" e.symbol.name = false) := by
    intro builtin
    simp [Symbol.Silent, Symbol.mentions, builtin]
  constructor
  · rintro ⟨r, records, _, ret, _⟩
    have silent : e.symbol.Silent := by
      by_contra loud
      rw [whole, e.parseLines_of_not_silent loud] at records
      cases records
    obtain ⟨r', records', _, ret', _⟩ := e.parseLines_of_silent silent
    have same : r = r' := List.singleton_inj.mp (records.symm.trans (whole.trans records'))
    have builtin : e.symbol.module = none := by
      cases inModule : e.symbol.module with
      | none => rfl
      | some m =>
          rw [← same, ret, e.returnValue_of_module inModule] at ret'
          cases ret'
    exact ⟨builtin, (plain builtin).mp silent⟩
  · rintro ⟨builtin, quiet⟩
    obtain ⟨r, records, name, ret, duration⟩ := e.parseLines_of_silent ((plain builtin).mpr quiet)
    have million : (1000000 : ℚ) ≠ 0 := by norm_num
    obtain ⟨atFive, atSeven⟩ := e.numberAt_returnLine builtin
    rw [atFive] at ret
    rw [atSeven, Num.rat_div _ million] at duration
    refine ⟨r, whole.trans records, name, ret, ?_⟩
    rw [duration]
    norm_num

end Execution

/-- The initcall of a loadable module. -/
def moduleInit : Execution where
  symbol := ⟨"crc16_init".toList, 0, 4096, some "crc16".toList, by decide, by decide⟩
  pid := 211
  cpu := ⟨0, 0, 0, 0, 0, 0, 0⟩
  memTotal := 744152
  memFree := 726980
  ret := 0
  duration := 12
  callTime := ⟨3, 31207, by decide⟩
  cpuTime := ⟨3, 31219, by decide⟩
  memTime := ⟨3, 31226, by decide⟩
  returnTime := ⟨3, 31240, by decide⟩

example : moduleInit.returnLine =
    "[    3.031240] initcall crc16_init+0x0/0x1000 [crc16] returned 0 after 12 usecs".toList := by
  decide +kernel

theorem moduleInit_not_decoded : ¬ moduleInit.Decoded := by
  rintro ⟨r, records, _, ret, _⟩
  have read : (parseDmesg (logText moduleInit.lines)).map (·.returnValue) = [some .nan] := by
    decide +kernel
  rw [records, List.map_singleton, ret] at read
  cases read

/-! ## Several executions at a time -/

inductive LineKind where
  | calling
  | cpu
  | memory
  | returned
  deriving DecidableEq

def Execution.line (e : Execution) : LineKind → Text
  | .calling => e.callingLine
  | .cpu => e.cpuLine
  | .memory => e.memLine
  | .returned => e.returnLine

/-- An execution prints its four lines in this order. -/
def fourLines : Session LineKind where
  opening := .calling
  inner := [.cpu, .memory]
  closing := .returned
  opening_not_mem := by decide
  closing_not_mem := by decide
  apart := by decide

/-- The part of a record that says which call it is about. -/
def DriverInfo.label (r : DriverInfo) : Option Num × Option Text :=
  (r.startTime, r.deviceDriverName)

section Overlap

variable {ι : Type*} (calls : ι → Execution)

/-- The log of the events: line `k` of call `i`, one after the other. -/
def eventLog (events : List (ι × LineKind)) : List Text :=
  events.map fun event => (calls event.1).line event.2

/-- What the calling line of `i` says about the call; no call gives no label. -/
def callLabel : Option ι → Option Num × Option Text
  | none => (none, none)
  | some i => (some (.rat (calls i).callTime.value), some (calls i).symbol.name)

/-- There is one record for each return, with the start and the name of the call that
    returns. -/
def Attributed (events : List (ι × LineKind)) : Prop :=
  (parseDmesg (logText (eventLog calls events))).map DriverInfo.label =
    (fourLines.closed events).map fun i => callLabel calls (some i)

variable {calls}

theorem callLabel_injective
    (distinct : Function.Injective fun i => (calls i).symbol.name) :
    Function.Injective (callLabel calls) := by
  intro a b same
  cases a with
  | none =>
      cases b with
      | none => rfl
      | some j => simp [callLabel] at same
  | some i =>
      cases b with
      | none => simp [callLabel] at same
      | some j =>
          simp only [callLabel, Prod.mk.injEq, Option.some.injEq] at same
          exact congrArg some (distinct same.2)

theorem newline_not_mem_eventLog (events : List (ι × LineKind)) :
    ∀ l ∈ eventLog calls events, '\n' ∉ l := by
  intro l member
  obtain ⟨event, _, rfl⟩ := List.mem_map.mp member
  apply (calls event.1).newline_not_mem
  cases event.2 <;> simp [Execution.line, Execution.lines]

/-- A line that is no return is noted only if it is a call. -/
theorem label_parseLine (e : Execution) {k : LineKind} (stays : k ≠ .returned) (s : ParseState) :
    (parseLine s (e.line k)).infoArray = s.infoArray ∧
      (parseLine s (e.line k)).obj.label =
        if k = .calling then (some (.rat e.callTime.value), some e.symbol.name)
        else s.obj.label := by
  cases k with
  | calling =>
      obtain ⟨records, start, name⟩ := parseLine_open (s := s) e.callingLine_isClosing
      rw [e.called_callingLine] at start name
      rw [Execution.line, DriverInfo.label, start, name]
      exact ⟨records, rfl⟩
  | cpu =>
      rw [Execution.line, e.parseLine_cpuLine]
      exact ⟨rfl, rfl⟩
  | memory =>
      rw [Execution.line, e.parseLine_memLine]
      exact ⟨rfl, rfl⟩
  | returned => exact (stays rfl).elim

/-- A return makes a record with the label noted last, and leaves none, -/
theorem label_returnLine (e : Execution) (silent : e.symbol.Silent) (s : ParseState) :
    (parseLine s (e.line .returned)).infoArray.map DriverInfo.label =
        s.infoArray.map DriverInfo.label ++ [s.obj.label] ∧
      (parseLine s (e.line .returned)).obj.label = (none, none) := by
  rw [Execution.line, e.parseLine_returnLine silent, List.map_append, List.map_singleton]
  exact ⟨rfl, rfl⟩

/-- unless it is taken for another line. -/
theorem label_returnLine_of_not_silent (e : Execution) (loud : ¬ e.symbol.Silent)
    (s : ParseState) :
    (parseLine s (e.line .returned)).infoArray = s.infoArray ∧
      (parseLine s (e.line .returned)).obj.label = s.obj.label := by
  have quiet : isClosing e.returnLine = false :=
    Bool.eq_false_iff.mpr (mt e.returnLine_isClosing.mp loud)
  obtain ⟨records, start, name⟩ := parseLine_open (s := s) quiet
  rw [called_startTime, e.returnLine_isCalling, if_neg (by decide)] at start
  rw [called_deviceDriverName, e.returnLine_isCalling, if_neg (by decide)] at name
  rw [Execution.line, DriverInfo.label, DriverInfo.label, start, name]
  exact ⟨records, rfl⟩

/-- Returns that close a record. -/
def audible (calls : ι → Execution) (event : ι × LineKind) : Bool :=
  event.2 ≠ .returned || (calls event.1).symbol.Silent

/-- The parser is an observer with one slot, which passes over some of the returns. -/
theorem labels_parseLines (events : List (ι × LineKind)) (slot : Option ι) (s : ParseState)
    (holds : s.obj.label = callLabel calls slot) :
    (parseLines (eventLog calls events) s).infoArray.map DriverInfo.label =
      s.infoArray.map DriverInfo.label ++
        (fourLines.held slot (events.filter (audible calls))).map (callLabel calls) := by
  induction events generalizing slot s with
  | nil => simp [parseLines, eventLog, Session.held]
  | cons event events ih =>
      obtain ⟨i, k⟩ := event
      have turn : parseLines (eventLog calls ((i, k) :: events)) s =
          parseLines (eventLog calls events) (parseLine s ((calls i).line k)) := rfl
      rw [turn]
      by_cases returns : k = .returned
      · subst returns
        by_cases silent : (calls i).symbol.Silent
        · obtain ⟨records, label⟩ := label_returnLine (calls i) silent s
          have closes : fourLines.held slot ((i, .returned) :: events.filter (audible calls)) =
              slot :: fourLines.held none (events.filter (audible calls)) :=
            Session.held_closing slot i _
          rw [List.filter_cons_of_pos (by simp [audible, silent]), closes, ih none _ label, records,
            holds, List.map_cons, List.append_assoc, List.singleton_append]
        · obtain ⟨records, label⟩ := label_returnLine_of_not_silent (calls i) silent s
          rw [List.filter_cons_of_neg (by simp [audible, silent]), ih slot _ (label.trans holds),
            records]
      · obtain ⟨records, label⟩ := label_parseLine (calls i) returns s
        rw [List.filter_cons_of_pos (by simp [audible, returns])]
        by_cases starts : k = .calling
        · subst starts
          rw [ih (some i) _ (label.trans (if_pos rfl)), records]
          rfl
        · rw [if_neg starts] at label
          have inner : k ∈ fourLines.inner := by
            cases k with
            | calling => exact (starts rfl).elim
            | cpu => decide
            | memory => decide
            | returned => exact (returns rfl).elim
          rw [ih slot _ (label.trans holds), records, Session.held_inner inner]

/-- All records come out only if every return closes one. -/
theorem silent_of_closed [DecidableEq ι] {events : List (ι × LineKind)}
    (interleaved : fourLines.Interleaved events)
    (all : (fourLines.closed (events.filter (audible calls))).length =
      (fourLines.closed events).length) :
    ∀ event ∈ events, (calls event.1).symbol.Silent := by
  intro event member
  have returns : (event.1, fourLines.closing) ∈ events := by
    have present : event.2 ∈ own event.1 events := mem_own.mpr member
    have whole := (interleaved event.1).resolve_left (List.ne_nil_of_mem present)
    exact mem_own.mp (by simp [whole, Session.block])
  have kept := fourLines.mem_filter_of_length all returns rfl
  simpa [audible, fourLines] using kept

/-- The records carry the labels of their own calls exactly when the calls follow one
    another and no symbol hides its return. -/
theorem attributed_iff [DecidableEq ι]
    (distinct : Function.Injective fun i => (calls i).symbol.name)
    {events : List (ι × LineKind)} (interleaved : fourLines.Interleaved events) :
    Attributed calls events ↔
      (∀ event ∈ events, (calls event.1).symbol.Silent) ∧
        ∃ order : List ι, events = order.flatMap fun i =>
          [(i, .calling), (i, .cpu), (i, .memory), (i, .returned)] := by
  have read : (parseDmesg (logText (eventLog calls events))).map DriverInfo.label =
      (fourLines.held none (events.filter (audible calls))).map (callLabel calls) := by
    rw [parseDmesg_logText (newline_not_mem_eventLog events), labels_parseLines events none {} rfl]
    rfl
  have want : (fourLines.closed events).map (fun i => callLabel calls (some i)) =
      ((fourLines.closed events).map some).map (callLabel calls) := by
    rw [List.map_map]
    rfl
  have heard : (∀ event ∈ events, (calls event.1).symbol.Silent) →
      events.filter (audible calls) = events := by
    intro silent
    exact List.filter_eq_self.mpr fun event member => by simp [audible, silent event member]
  rw [Attributed, read, want, (List.map_injective_iff.mpr (callLabel_injective distinct)).eq_iff]
  constructor
  · intro right
    have silent : ∀ event ∈ events, (calls event.1).symbol.Silent := by
      apply silent_of_closed interleaved
      rw [← Session.length_held none, right, List.length_map]
    rw [heard silent] at right
    exact ⟨silent, (Session.held_iff_sequential interleaved).mp right⟩
  · rintro ⟨silent, sequential⟩
    rw [heard silent]
    exact (Session.held_iff_sequential interleaved).mpr sequential

end Overlap

/-- Two calls in different tasks, the second one starting before the first returns. -/
def slowInit (second : Bool) : Execution where
  symbol :=
    if second then ⟨"sd_init".toList, 0, 64, none, by decide, by decide⟩
    else ⟨"hub_init".toList, 0, 64, none, by decide, by decide⟩
  pid := if second then 72 else 71
  cpu := ⟨0, 0, 0, 0, 0, 0, 0⟩
  memTotal := 744152
  memFree := 726980
  ret := 0
  duration := 400
  callTime := ⟨2, if second then 200 else 100, by split <;> decide⟩
  cpuTime := ⟨2, 300, by decide⟩
  memTime := ⟨2, 400, by decide⟩
  returnTime := ⟨2, 500, by decide⟩
  words := by cases second <;> decide

theorem slowInit_distinct : Function.Injective fun second => (slowInit second).symbol.name := by
  intro a b same
  cases a <;> cases b <;> first | rfl | exact absurd same (by decide)

def overlappingInits : List (Bool × LineKind) :=
  [(false, .calling), (false, .cpu), (false, .memory), (true, .calling), (true, .cpu),
    (true, .memory), (false, .returned), (true, .returned)]

def followingInits : List (Bool × LineKind) :=
  [(false, .calling), (false, .cpu), (false, .memory), (false, .returned), (true, .calling),
    (true, .cpu), (true, .memory), (true, .returned)]

theorem followingInits_attributed : Attributed slowInit followingInits := by
  apply (attributed_iff slowInit_distinct fun i => by cases i <;> decide).mpr
  exact ⟨by decide, [false, true], rfl⟩

theorem overlappingInits_not_attributed :
    fourLines.Interleaved overlappingInits ∧ ¬ Attributed slowInit overlappingInits := by
  refine ⟨fun i => by cases i <;> decide, fun right => ?_⟩
  have names : (parseDmesg (logText (eventLog slowInit overlappingInits))).map (·.deviceDriverName) =
      [some "sd_init".toList, none] := by
    decide +kernel
  have wanted := congrArg (List.map Prod.snd) right
  rw [List.map_map] at wanted
  exact absurd (names.symm.trans wanted) (by decide)

end OslabProfiler.Server
