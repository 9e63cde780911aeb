import OslabProfiler.Server.RequestStats

/-! # Statistics when a read or a write fails

`readStats` and `dumpStats` catch every error. A read that fails yields an empty object,
and the handler then goes on and writes it. Here each finish has its own outcome of the
two operations, and the losses of a whole run are traced back to them.
-/

namespace OslabProfiler.Server

open Lib

/-- What becomes of a write with the flag `w+`, which empties the file when it opens it. -/
inductive WriteOutcome where
  | done
  /-- The file could not be opened. -/
  | untouched
  /-- The file was emptied, and not written as a whole. -/
  | damaged
  deriving DecidableEq

/-- What happens to `report.json` at one finish. -/
structure Faults where
  readFails : Bool
  write : WriteOutcome

/-- The files as `readStats` shows them. -/
def Faults.shown (faults : Faults) (files : Files) : Files :=
  if faults.readFails then { files with report := none } else files

/-- The `finish` handler when its read and its write may fail. -/
def Files.finishWith (files : Files) (faults : Faults) (event : Text) (time : Int) : Files :=
  let written := (faults.shown files).finish event time
  match faults.write with
  | .done => written
  | .untouched => { written with report := files.report }
  | .damaged => { written with report := none }

inductive FaultyEvent where
  | enter (now : Int)
  | finish (req : Request) (statusCode : Nat) (now : Int) (faults : Faults)

def Middleware.faultyStep (σ : Middleware) : FaultyEvent → Middleware
  | .enter now => { σ with sTime := now }
  | .finish req statusCode now faults =>
      { σ with files := σ.files.finishWith faults (eventKey req statusCode) (now - σ.sTime) }

def Middleware.faultyRun (σ : Middleware) (events : List FaultyEvent) : Middleware :=
  events.foldl Middleware.faultyStep σ

/-- Nothing fails. -/
def noFaults : Faults := ⟨false, .done⟩

/-- Without a fault the handler is the one of the statistics. -/
theorem finishWith_noFaults (files : Files) (event : Text) (time : Int) :
    files.finishWith noFaults event time = files.finish event time := rfl

/-! ## What is lost at one finish -/

/-- No key is dropped and no `Count` goes down. -/
def Files.Keeps (before after : Files) : Prop :=
  ∀ key, (key ∈ before.readStats → key ∈ after.readStats) ∧ before.count key ≤ after.count key

/-- A finish that cannot lose anything: the write does not reach the file, or it follows
    a read that worked, or nothing but the event itself was there. -/
def Faults.Harmless (faults : Faults) (files : Files) (event : Text) : Prop :=
  match faults.write with
  | .untouched => True
  | .damaged => ∀ key, key ∉ files.readStats
  | .done => faults.readFails = false ∨
      (∀ key ∈ files.readStats, key = event) ∧ files.count event ≤ 1

theorem Files.count_of_not_mem {files : Files} {key : Text} (absent : key ∉ files.readStats) :
    files.count key = 0 := by
  rw [Files.count, AList.lookup_eq_none.mpr absent]

theorem Files.keeps_of_readStats {before after : Files}
    (same : after.readStats = before.readStats) : before.Keeps after := by
  intro key
  rw [Files.count, Files.count, same]
  exact ⟨fun h => h, le_rfl⟩

theorem TimeLog.length_le_add (log : TimeLog) (event : Text) (time : Int) (key : Text) :
    ((log key).getD []).length ≤ ((log.add event time key).getD []).length := by
  rw [TimeLog.length_add]
  omega

/-- A report that could not be read is the empty one. -/
theorem Faults.shown_readStats_of_fails {faults : Faults} (fails : faults.readFails = true)
    (files : Files) : (faults.shown files).readStats = ∅ := by
  rw [Faults.shown, if_pos fails]
  rfl

theorem Faults.shown_logs_of_fails {faults : Faults} (fails : faults.readFails = true)
    (files : Files) : (faults.shown files).Logs (fun _ => none) := by
  intro key
  rw [Faults.shown_readStats_of_fails fails]
  rfl

theorem Faults.shown_of_reads {faults : Faults} (reads : faults.readFails = false)
    (files : Files) : faults.shown files = files := by
  rw [Faults.shown, reads]
  rfl

namespace Files.Logs

variable {files : Files} {log : TimeLog}

/-- The report that is written holds a log again, whatever failed. -/
theorem finishWith (logs : files.Logs log) (faults : Faults) (event : Text) (time : Int) :
    ∃ log', (files.finishWith faults event time).Logs log' := by
  have shown : ∃ seen, (faults.shown files).Logs seen := by
    cases fails : faults.readFails with
    | true => exact ⟨_, Faults.shown_logs_of_fails fails files⟩
    | false => exact ⟨log, (Faults.shown_of_reads fails files).symm ▸ logs⟩
  obtain ⟨seen, seenLogs⟩ := shown
  rw [Files.finishWith]
  cases faults.write with
  | done => exact ⟨_, seenLogs.finish event time⟩
  | untouched => exact ⟨log, logs⟩
  | damaged => exact ⟨fun _ => none, fun _ => rfl⟩

/-- A finish that reads its report keeps everything. -/
theorem keeps_finish (logs : files.Logs log) (event : Text) (time : Int) :
    files.Keeps (files.finish event time) := by
  intro key
  constructor
  · intro present
    rw [logs.readStats_finish, AList.mem_insert]
    exact .inr present
  · rw [logs.count, (logs.finish event time).count]
    exact log.length_le_add event time key

/-- A finish that could not read the report leaves the event alone in it, with one time. -/
theorem keeps_after_failed_read {faults : Faults} (fails : faults.readFails = true)
    (event : Text) (time : Int) :
    files.Keeps ((faults.shown files).finish event time) ↔
      (∀ key ∈ files.readStats, key = event) ∧ files.count event ≤ 1 := by
  have seen := Faults.shown_logs_of_fails fails files
  have written := seen.finish event time
  have keys : ∀ key, key ∈ ((faults.shown files).finish event time).readStats ↔ key = event := by
    intro key
    rw [seen.readStats_finish, AList.mem_insert, Faults.shown_readStats_of_fails fails]
    exact or_iff_left (AList.notMem_empty key)
  have count : ((faults.shown files).finish event time).count event = 1 := by
    rw [written.count, TimeLog.length_add]
    simp
  constructor
  · intro keeps
    exact ⟨fun key present => (keys key).mp ((keeps key).1 present), count ▸ (keeps event).2⟩
  · intro alone key
    refine ⟨fun present => (keys key).mpr (alone.1 key present), ?_⟩
    by_cases same : key = event
    · rw [same, count]
      exact alone.2
    · rw [Files.count_of_not_mem fun present => same (alone.1 key present)]
      exact Nat.zero_le _

/-- One finish keeps the statistics exactly when its faults are harmless. -/
theorem keeps_finishWith_iff (logs : files.Logs log) (faults : Faults) (event : Text)
    (time : Int) :
    files.Keeps (files.finishWith faults event time) ↔ faults.Harmless files event := by
  rw [Files.finishWith, Faults.Harmless]
  cases faults.write with
  | untouched => exact iff_of_true (Files.keeps_of_readStats rfl) trivial
  | damaged =>
      constructor
      · intro keeps key present
        exact AList.notMem_empty key ((keeps key).1 present)
      · intro empty key
        rw [Files.count_of_not_mem (empty key)]
        exact ⟨fun present => (empty key present).elim, Nat.zero_le _⟩
  | done =>
      cases fails : faults.readFails with
      | true =>
          rw [keeps_after_failed_read fails]
          simp
      | false =>
          rw [Faults.shown_of_reads fails]
          exact iff_of_true (logs.keeps_finish event time) (.inl rfl)

end Files.Logs

/-! ## Whole runs -/

theorem Files.Logs.faultyRun {σ : Middleware} {log : TimeLog} (logs : σ.files.Logs log)
    (events : List FaultyEvent) : ∃ log', (σ.faultyRun events).files.Logs log' := by
  induction events generalizing σ log with
  | nil => exact ⟨log, logs⟩
  | cons event events ih =>
      cases event with
      | enter now => exact ih (σ := { σ with sTime := now }) logs
      | finish req statusCode now faults =>
          obtain ⟨log', logs'⟩ := logs.finishWith faults (eventKey req statusCode) (now - σ.sTime)
          exact ih (σ := σ.faultyStep (.finish req statusCode now faults)) logs'

/-- From one step of a run to the next, nothing is lost. -/
def NeverLoses (σ : Middleware) (events : List FaultyEvent) : Prop :=
  ∀ earlier event later, events = earlier ++ event :: later →
    (σ.faultyRun earlier).files.Keeps ((σ.faultyRun earlier).faultyStep event).files

/-- A run from a report of the handler never loses statistics exactly when the faults of
    each of its finishes are harmless. -/
theorem neverLoses_iff (σ : Middleware)
    (numbered : ∀ key entry, σ.files.readStats.lookup key = some entry → entry.Numbered)
    (events : List FaultyEvent) :
    NeverLoses σ events ↔
      ∀ earlier req statusCode now faults later,
        events = earlier ++ .finish req statusCode now faults :: later →
          faults.Harmless (σ.faultyRun earlier).files (eventKey req statusCode) := by
  obtain ⟨log, logs⟩ := Files.exists_log numbered
  constructor
  · intro never earlier req statusCode now faults later split
    obtain ⟨log', logs'⟩ := logs.faultyRun earlier
    exact (logs'.keeps_finishWith_iff faults _ _).mp (never earlier _ later split)
  · intro harmless earlier event later split
    cases event with
    | enter now => exact Files.keeps_of_readStats rfl
    | finish req statusCode now faults =>
        obtain ⟨log', logs'⟩ := logs.faultyRun earlier
        exact (logs'.keeps_finishWith_iff faults _ _).mpr
          (harmless earlier req statusCode now faults later split)

/-- A server whose report has entries. -/
def filledReport : Middleware := (⟨0, noFiles⟩ : Middleware).run threeFinishes

/-- Finishes of which two do not get to write the report, and one of these cannot read it. -/
def unwrittenTwice : List FaultyEvent :=
  [.enter 200, .finish pageRequest 200 230 noFaults,
    .finish missingRequest 404 231 ⟨false, .untouched⟩, .enter 240,
    .finish pageRequest 200 250 ⟨true, .untouched⟩, .finish pageRequest 200 260 noFaults]

theorem neverLoses_unwrittenTwice :
    filledReport.files.count (eventKey pageRequest 200) = 2 ∧
    filledReport.files.count (eventKey missingRequest 404) = 1 ∧
    NeverLoses filledReport unwrittenTwice ∧
    (filledReport.faultyRun unwrittenTwice).files.count (eventKey pageRequest 200) = 4 ∧
    (filledReport.faultyRun unwrittenTwice).files.count (eventKey missingRequest 404) = 1 := by
  obtain ⟨log, represents⟩ := consistent_noFiles.represents
  have start : (⟨0, noFiles⟩ : Middleware).files.Represents log := represents
  have numbered := (start.run threeFinishes).consistent.numbered
  refine ⟨by decide +kernel, by decide +kernel, ?_, by decide +kernel, by decide +kernel⟩
  refine (neverLoses_iff filledReport numbered unwrittenTwice).mpr ?_
  intro earlier req statusCode now faults later split
  have member : FaultyEvent.finish req statusCode now faults ∈ unwrittenTwice := by simp [split]
  have outcomes : faults = noFaults ∨ faults.write = .untouched := by
    simp only [unwrittenTwice, List.mem_cons, List.not_mem_nil, or_false, reduceCtorEq, false_or,
      FaultyEvent.finish.injEq] at member
    rcases member with ⟨-, -, -, rfl⟩ | ⟨-, -, -, rfl⟩ | ⟨-, -, -, rfl⟩ | ⟨-, -, -, rfl⟩
    · exact .inl rfl
    · exact .inr rfl
    · exact .inr rfl
    · exact .inl rfl
  rw [Faults.Harmless]
  rcases outcomes with rfl | untouched
  · exact .inl rfl
  · rw [untouched]
    trivial

/-- The report exists, and cannot be read at the second finish. -/
def unreadableOnce : List FaultyEvent :=
  [.enter 100, .finish pageRequest 200 130 noFaults, .finish missingRequest 404 141 ⟨true, .done⟩]

/-- The first event was counted once, and is gone after the second. -/
theorem failed_read_erases :
    ((⟨0, noFiles⟩ : Middleware).faultyRun (unreadableOnce.take 2)).files.count
      (eventKey pageRequest 200) = 1 ∧
    ((⟨0, noFiles⟩ : Middleware).faultyRun unreadableOnce).files.count
      (eventKey pageRequest 200) = 0 ∧
    ¬ NeverLoses ⟨0, noFiles⟩ unreadableOnce := by
  have before : ((⟨0, noFiles⟩ : Middleware).faultyRun (unreadableOnce.take 2)).files.count
      (eventKey pageRequest 200) = 1 := by decide +kernel
  have after : ((⟨0, noFiles⟩ : Middleware).faultyRun unreadableOnce).files.count
      (eventKey pageRequest 200) = 0 := by decide +kernel
  refine ⟨before, after, fun never => ?_⟩
  have kept := (never (unreadableOnce.take 2) _ [] rfl (eventKey pageRequest 200)).2
  have lost : ((⟨0, noFiles⟩ : Middleware).faultyRun (unreadableOnce.take 2)).files.count
      (eventKey pageRequest 200) ≤
      ((⟨0, noFiles⟩ : Middleware).faultyRun unreadableOnce).files.count
        (eventKey pageRequest 200) := kept
  omega

end OslabProfiler.Server
