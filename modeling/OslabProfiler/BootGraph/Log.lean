import OslabProfiler.Lib.Text
import Mathlib.Data.List.AList
import Mathlib.Data.List.ReduceOption
import Mathlib.Data.Rat.Defs

/-! # The kernel log as the boot graph script reads it

Every line is matched against a few patterns: an initcall is called or returns, a process
waits for asynchronous calls or goes on, or the boot ends. The script keeps the start and
the end of every call under its name, the earliest start and the last end. What is read
after the end of the boot is ignored by some of the patterns only.
-/

namespace OslabProfiler.BootGraph

open Lib

/-! ## The patterns -/

/-- `[0-9\.]`. -/
def isTimeChar (c : Char) : Bool := c.isDigit || c = '.'

/-- `[a-zA-Z0-9\_\.]`. -/
def isNameChar (c : Char) : Bool := c.isAlphanum || c = '_' || c = '.'

/-- A literal part of a pattern: what follows it. -/
def literal (pat : String) (l : Text) : Option Text :=
  if pat.toList <+: l then some (l.drop pat.toList.length) else none

/-- `([0-9\.]+)` and what `rest` finds behind it, at the first place where both match. The
    next character of `rest` is not one of a time, so the whole run is taken. -/
def searchTime {α : Type} (rest : Text → Option α) : Text → Option (Text × α)
  | [] => none
  | c :: l =>
      if isTimeChar c then
        match rest ((c :: l).dropWhile isTimeChar) with
        | some found => some ((c :: l).takeWhile isTimeChar, found)
        | none => searchTime rest l
      else searchTime rest l

/-- `([a-zA-Z0-9\_\.]+)\+`: the name and what follows. -/
def callName (l : Text) : Option (Text × Text) :=
  let name := l.takeWhile isNameChar
  if name = [] then none
  else (literal "+" (l.dropWhile isNameChar)).map fun rest => (name, rest)

/-- `([0-9]+)`. -/
def pidNumber (l : Text) : Option Text :=
  let pid := l.takeWhile Char.isDigit
  if pid = [] then none else some pid

/-- `/\@ ([0-9]+)/`. -/
def searchPid : Text → Option Text
  | [] => none
  | c :: l => ((literal "@ " (c :: l)).bind pidNumber).or (searchPid l)

/-- The digits of a number. -/
def digitsValue (l : Text) : Nat := l.foldl (fun n c => 10 * n + (c.toNat - '0'.toNat)) 0

/-- A text of digits and points as a number: it is read up to a second point. -/
def timeValue (l : Text) : ℚ :=
  let whole := l.takeWhile Char.isDigit
  let fraction := ((l.dropWhile Char.isDigit).drop 1).takeWhile Char.isDigit
  digitsValue (whole ++ fraction) / 10 ^ fraction.length

theorem timeValue_nonneg (l : Text) : 0 ≤ timeValue l := by
  unfold timeValue
  positivity

/-! ## What a line says -/

inductive Event where
  | calling (time : ℚ) (func : Text) (pid : Option Text)
  | waiting (time : ℚ) (pid : Text)
  | returned (time : ℚ) (func : Text)
  | continuing (time : ℚ) (pid : Text)
  /-- The end of the boot. -/
  | finished
  deriving DecidableEq

def Event.time? : Event → Option ℚ
  | .calling time _ _ | .waiting time _ | .returned time _ | .continuing time _ => some time
  | .finished => none

def callingEvent (line : Text) : Option Event :=
  (searchTime (fun l => (literal "] calling  " l).bind callName) line).map fun found =>
    .calling (timeValue found.1) found.2.1 (searchPid line)

def waitingEvent (line : Text) : Option Event :=
  (searchTime (fun l => (literal "] async_waiting @ " l).bind pidNumber) line).map fun found =>
    .waiting (timeValue found.1) found.2

def returnedEvent (line : Text) : Option Event :=
  (searchTime (fun l => ((literal "] initcall " l).bind callName).filter fun found =>
    "returned".toList <:+: found.2) line).map fun found =>
    .returned (timeValue found.1) found.2.1

def continuingEvent (line : Text) : Option Event :=
  (searchTime (fun l => (literal "] async_continuing @ " l).bind pidNumber) line).map fun found =>
    .continuing (timeValue found.1) found.2

def isFinished (line : Text) : Bool :=
  decide ("Write protecting the".toList <:+: line) ||
    decide ("Freeing unused kernel memory".toList <:+: line)

def finishedEvent (line : Text) : Option Event := if isFinished line then some .finished else none

/-- What a line says, in the order of the tests. -/
def lineEvents (line : Text) : List Event :=
  [callingEvent line, waitingEvent line, returnedEvent line, continuingEvent line,
    finishedEvent line].reduceOption

/-! ## What the script keeps -/

structure State where
  start : AList fun _ : Text => ℚ := ∅
  /-- `%end`. -/
  ends : AList fun _ : Text => ℚ := ∅
  type : AList fun _ : Text => Nat := ∅
  pids : AList fun _ : Text => Text := ∅
  pidctr : AList fun _ : Text => Nat := ∅
  firsttime : ℚ := 99999
  maxtime : ℚ := 0
  count : Nat := 0
  done : Bool := false

def waitName (pid : Text) (ctr : Option Nat) : Text :=
  "wait_".toList ++ pid ++ '_' :: ctr.elim [] (Nat.toDigits 10)

/-- A start, before the end of the boot. -/
def State.setStart (s : State) (func : Text) (time : ℚ) (type : Nat) : State :=
  if s.done then s
  else
    { s with
      start := s.start.insert func time
      type := s.type.insert func type
      firsttime := if time < s.firsttime then time else s.firsttime }

def State.setEnd (s : State) (func : Text) (time : ℚ) : State :=
  { s with ends := s.ends.insert func time, maxtime := time }

def State.step (s : State) : Event → State
  | .calling time func pid =>
      let s := s.setStart func time 0
      { s with pids := pid.elim s.pids fun pid => s.pids.insert func pid, count := s.count + 1 }
  | .waiting time pid =>
      let ctr := (s.pidctr.lookup pid).elim 1 (· + 1)
      let func := waitName pid (some ctr)
      let s := { s with pidctr := s.pidctr.insert pid ctr }.setStart func time 1
      { s with pids := s.pids.insert func pid, count := s.count + 1 }
  | .returned time func => if s.done then s else s.setEnd func time
  | .continuing time pid => s.setEnd (waitName pid (s.pidctr.lookup pid)) time
  | .finished => { s with done := true }

/-- The state when the log has been read. -/
def readLog (lines : List Text) : State := (lines.flatMap lineEvents).foldl State.step {}

/-- The times that are read in the log, in their order. -/
def logTimes (lines : List Text) : List ℚ := (lines.flatMap lineEvents).filterMap Event.time?

/-! ## The bounds of the times -/

/-- Every start is at `firsttime` or later, and every end at `maxtime` or earlier. No time
    that was read is later than `now`. -/
structure Bounded (now : ℚ) (s : State) : Prop where
  starts : ∀ func time, s.start.lookup func = some time → s.firsttime ≤ time
  ends : ∀ func time, s.ends.lookup func = some time → time ≤ s.maxtime
  nonneg : 0 ≤ s.maxtime
  past : s.maxtime ≤ now

section Step

variable {now time : ℚ} {s : State}

theorem Bounded.mono (bounded : Bounded now s) (later : now ≤ time) : Bounded time s :=
  { bounded with past := bounded.past.trans later }

theorem Bounded.setStart (bounded : Bounded now s) (func : Text) (time : ℚ) (type : Nat) :
    Bounded now (s.setStart func time type) := by
  rw [State.setStart]
  by_cases closed : s.done = true
  · rwa [if_pos closed]
  · rw [if_neg closed]
    refine { bounded with starts := fun name t there => ?_ }
    have earlier : (if time < s.firsttime then time else s.firsttime) ≤ s.firsttime ∧
        (if time < s.firsttime then time else s.firsttime) ≤ time := by
      split_ifs with first
      · exact ⟨first.le, le_rfl⟩
      · exact ⟨le_rfl, not_lt.mp first⟩
    by_cases own : name = func
    · subst own
      simp only [AList.lookup_insert, Option.some.injEq] at there
      rw [← there]
      exact earlier.2
    · simp only [AList.lookup_insert_ne own] at there
      exact earlier.1.trans (bounded.starts name t there)

theorem Bounded.setEnd (bounded : Bounded now s) (func : Text) (later : now ≤ time) :
    Bounded time (s.setEnd func time) := by
  refine { bounded with ends := fun name t there => ?_, nonneg := ?_, past := le_rfl }
  · by_cases own : name = func
    · subst own
      simp only [State.setEnd, AList.lookup_insert, Option.some.injEq] at there
      exact there.symm.le
    · simp only [State.setEnd, AList.lookup_insert_ne own] at there
      exact ((bounded.ends name t there).trans bounded.past).trans later
  · exact (bounded.nonneg.trans bounded.past).trans later

/-- An event that does not come before the present moves it on. -/
theorem Bounded.step (bounded : Bounded now s) (e : Event)
    (later : ∀ time, e.time? = some time → now ≤ time) :
    Bounded (e.time?.getD now) (s.step e) := by
  cases e with
  | calling time func pid =>
      have moved := (bounded.mono (later time rfl)).setStart func time 0
      exact ⟨moved.starts, moved.ends, moved.nonneg, moved.past⟩
  | waiting time pid =>
      let ctr := (s.pidctr.lookup pid).elim 1 (· + 1)
      have counted : Bounded time { s with pidctr := s.pidctr.insert pid ctr } :=
        { bounded.mono (later time rfl) with }
      have moved := counted.setStart (waitName pid (some ctr)) time 1
      exact ⟨moved.starts, moved.ends, moved.nonneg, moved.past⟩
  | returned time func =>
      rw [State.step]
      split_ifs
      · exact bounded.mono (later time rfl)
      · exact bounded.setEnd func (later time rfl)
  | continuing time pid => exact bounded.setEnd _ (later time rfl)
  | finished => exact { bounded with }

end Step

theorem Bounded.run {now : ℚ} {s : State} (events : List Event) (bounded : Bounded now s)
    (sorted : (now :: events.filterMap Event.time?).Pairwise (· ≤ ·)) :
    ∃ last, Bounded last (events.foldl State.step s) := by
  induction events generalizing now s with
  | nil => exact ⟨now, bounded⟩
  | cons e events ih =>
      obtain ⟨later, rest⟩ := List.pairwise_cons.mp sorted
      refine ih (bounded.step e fun time here => later time (by simp [here])) ?_
      cases time : e.time? with
      | none => simpa [time] using sorted
      | some t => simpa [time] using rest

theorem finishedEvent_eq {line : Text} {e : Event} (found : finishedEvent line = some e) :
    e = .finished := by
  rw [finishedEvent, Option.ite_none_right_eq_some] at found
  exact (Option.some.inj found.2).symm

theorem time_nonneg {line : Text} {e : Event} {time : ℚ} (member : e ∈ lineEvents line)
    (here : e.time? = some time) : 0 ≤ time := by
  rw [lineEvents, List.reduceOption_mem_iff] at member
  simp only [List.mem_cons, List.not_mem_nil, or_false, callingEvent, waitingEvent, returnedEvent,
    continuingEvent] at member
  obtain found | found | found | found | finished := member
  -- the four patterns with a time read it in the same way
  iterate 4
    · obtain ⟨_, -, rfl⟩ := Option.map_eq_some_iff.mp found.symm
      rw [← Option.some.inj here]
      exact timeValue_nonneg _
  · rw [finishedEvent_eq finished.symm] at here
    cases here

theorem readLog_bounded {lines : List Text} (sorted : (logTimes lines).Pairwise (· ≤ ·)) :
    ∃ last, Bounded last (readLog lines) := by
  have initial : Bounded 0 ({} : State) := by
    refine ⟨fun _ _ there => ?_, fun _ _ there => ?_, le_rfl, le_rfl⟩ <;> cases there
  refine initial.run _ (List.pairwise_cons.mpr ⟨fun time member => ?_, sorted⟩)
  obtain ⟨e, event, here⟩ := List.mem_filterMap.mp member
  obtain ⟨line, -, own⟩ := List.mem_flatMap.mp event
  exact time_nonneg own here

end OslabProfiler.BootGraph
