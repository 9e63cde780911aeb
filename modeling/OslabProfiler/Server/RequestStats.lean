import OslabProfiler.Lib.Text
import Mathlib.Data.List.AList

/-! # Request statistics

The middleware of the server notes when a request comes in and, when its response
is finished, adds the time that passed to `report.json` and the name of the event
to `httpcodereport.json`. Both files are read, changed and written at every
finish. The start time is one variable of the server.

The purpose of the two files is a log of response times for each event. The
handler is proved to keep this log; what the second page relies on follows.
-/

namespace OslabProfiler.Server

open Lib

/-! ## The handler -/

structure Request where
  method : Text
  /-- `req.route.path`, if a route matched. -/
  route : Option Text
  baseUrl : Option Text

def getRoute (req : Request) : Text :=
  let route := req.route.getD []
  let baseUrl := req.baseUrl.getD []
  if route ≠ [] then (if baseUrl = "/".toList then [] else baseUrl) ++ route
  else "unknown route".toList

/-- The name of an event: method, route and status code. -/
def eventKey (req : Request) (statusCode : Nat) : Text :=
  req.method ++ "_".toList ++ getRoute req ++ "_".toList ++ Nat.toDigits 10 statusCode

/-- What `report.json` can hold for an event. The handler writes objects, and numbers
    or strings when it has caught an error; a field that is not there is `none`. -/
inductive Entry where
  | object (count : Option Nat) (time : Option (List (List (Text × Int))))
  | number (n : Int)
  | string (s : Text)
  deriving DecidableEq

abbrev Stats := AList fun _ : Text => Entry

/-- `httpcodereport.json`: the field `request_info` with its list, if it is there. -/
structure HttpCode where
  requestInfo : Option (List Text) := none

/-- The two files; `none` is a file that is missing or not readable as JSON. -/
structure Files where
  report : Option Stats
  httpCode : Option HttpCode

def Files.readStats (files : Files) : Stats := files.report.getD ∅

def Files.readHttpCode (files : Files) : HttpCode := files.httpCode.getD {}

/-- `request_info.list`, which is created empty. -/
def Files.list (files : Files) : List Text := files.readHttpCode.requestInfo.getD []

def responseTime (count : Nat) : Text := "Response_time_".toList ++ Nat.toDigits 10 count

/-- The body of the `try`; `none` when it throws. On a number or a string the
    assignment to `Count` is ignored, and `toString` of `undefined` throws. -/
def tryBlock : Option Entry → Int → Option Entry
  | some (.object count time), value =>
      let count := if count.getD 0 ≠ 0 then count.getD 0 + 1 else 1
      -- `push` of a missing array throws
      time.map fun time =>
        .object (some count) (some (time ++ [[(responseTime count, value)]]))
  | _, _ => none

/-- The `catch`: `stats[event] ? stats[event] + 1 : 1`. -/
def catchBlock : Option Entry → Entry
  | some (.object _ _) => .string "[object Object]1".toList
  | some (.number n) => if n ≠ 0 then .number (n + 1) else .number 1
  | some (.string s) => if s ≠ [] then .string (s ++ "1".toList) else .number 1
  | none => .number 1

/-- The statistics with the entry of the event, created if it was not there. -/
def Files.withEntry (files : Files) (event : Text) : Stats :=
  let stats := files.readStats
  if event ∉ stats then stats.insert event (.object (some 0) (some [])) else stats

/-- The `finish` handler for an event that took `time`. -/
def Files.finish (files : Files) (event : Text) (time : Int) : Files :=
  let stats := files.withEntry event
  let entry := stats.lookup event
  let stats := stats.insert event ((tryBlock entry time).getD (catchBlock entry))
  if event ∉ files.list then
    { report := some stats, httpCode := some { requestInfo := some (files.list ++ [event]) } }
  else { files with report := some stats }

/-- The `catch` branch is taken at this event. -/
def Files.Catches (files : Files) (event : Text) (time : Int) : Prop :=
  tryBlock ((files.withEntry event).lookup event) time = none

/-- The server as far as the middleware is concerned. -/
structure Middleware where
  sTime : Int := 0
  files : Files

inductive Event where
  /-- A request enters the middleware. -/
  | enter (now : Int)
  /-- The response to a request is finished. -/
  | finish (req : Request) (statusCode : Nat) (now : Int)

def Middleware.step (σ : Middleware) : Event → Middleware
  | .enter now => { σ with sTime := now }
  | .finish req statusCode now =>
      { σ with files := σ.files.finish (eventKey req statusCode) (now - σ.sTime) }

def Middleware.run (σ : Middleware) (events : List Event) : Middleware := events.foldl Middleware.step σ

/-! ## The log of response times -/

/-- The entry that stands for a list of response times. -/
def entryOf (times : List Int) : Entry :=
  .object (some times.length) (some (times.mapIdx fun i t => [(responseTime (i + 1), t)]))

/-- The response times of every event that was seen. -/
abbrev TimeLog := Text → Option (List Int)

def TimeLog.add (log : TimeLog) (event : Text) (time : Int) : TimeLog :=
  Function.update log event (some ((log event).getD [] ++ [time]))

structure Files.Represents (files : Files) (log : TimeLog) : Prop where
  entries : ∀ key, files.readStats.lookup key = (log key).map entryOf
  nodup : files.list.Nodup
  listed : ∀ key, key ∈ files.list ↔ key ∈ files.readStats

theorem tryBlock_entryOf (times : List Int) (time : Int) :
    tryBlock (some (entryOf times)) time = some (entryOf (times ++ [time])) := by
  have count : (if times.length ≠ 0 then times.length + 1 else 1) = times.length + 1 := by
    split <;> omega
  simp only [entryOf, tryBlock, Option.getD_some, count, Option.map_some, List.mapIdx_append,
    List.mapIdx_cons, List.mapIdx_nil, Nat.zero_add, List.length_append, List.length_singleton]

theorem Files.lookup_withEntry (files : Files) (event : Text) :
    (files.withEntry event).lookup event =
      some ((files.readStats.lookup event).getD (entryOf [])) := by
  by_cases known : event ∈ files.readStats
  · obtain ⟨entry, there⟩ := Option.isSome_iff_exists.mp (AList.lookup_isSome.mpr known)
    rw [withEntry, if_neg (not_not.mpr known), there, Option.getD_some]
  · rw [withEntry, if_pos known, AList.lookup_insert, AList.lookup_eq_none.mpr known]
    rfl

/-- Creating the entry first makes no difference to the statistics that are written. -/
theorem Files.insert_withEntry (files : Files) (event : Text) (entry : Entry) :
    (files.withEntry event).insert event entry = files.readStats.insert event entry := by
  simp only [withEntry]
  split
  case isTrue => exact AList.insert_insert _
  case isFalse => rfl

/-- The report holds the log. -/
def Files.Logs (files : Files) (log : TimeLog) : Prop :=
  ∀ key, files.readStats.lookup key = (log key).map entryOf

namespace Files.Logs

variable {files : Files} {log : TimeLog}

theorem lookup_withEntry (logs : files.Logs log) (event : Text) :
    (files.withEntry event).lookup event = some (entryOf ((log event).getD [])) := by
  rw [Files.lookup_withEntry, logs event]
  cases log event <;> rfl

theorem readStats_finish (logs : files.Logs log) (event : Text) (time : Int) :
    (files.finish event time).readStats =
      files.readStats.insert event (entryOf ((log event).getD [] ++ [time])) := by
  have written : ((files.finish event time).report) =
      some (files.readStats.insert event (entryOf ((log event).getD [] ++ [time]))) := by
    simp only [Files.finish, logs.lookup_withEntry, tryBlock_entryOf, Option.getD_some,
      insert_withEntry]
    split <;> rfl
  rw [readStats, written, Option.getD_some]

/-- The handler adds the time to the log of the event. -/
theorem finish (logs : files.Logs log) (event : Text) (time : Int) :
    (files.finish event time).Logs (log.add event time) := by
  intro key
  rw [logs.readStats_finish]
  by_cases same : key = event
  · rw [same, AList.lookup_insert, TimeLog.add, Function.update_self, Option.map_some]
  · rw [AList.lookup_insert_ne same, logs key, TimeLog.add, Function.update_of_ne same]

end Files.Logs

namespace Files.Represents

variable {files : Files} {log : TimeLog}

theorem not_catches (represents : files.Represents log) (event : Text) (time : Int) :
    ¬ files.Catches event time := by
  rw [Catches, Files.Logs.lookup_withEntry represents.entries, tryBlock_entryOf]
  exact Option.some_ne_none _

theorem list_finish (files : Files) (event : Text) (time : Int) :
    (files.finish event time).list =
      if event ∈ files.list then files.list else files.list ++ [event] := by
  by_cases known : event ∈ files.list
  · rw [Files.finish, if_neg (not_not.mpr known), if_pos known]
    rfl
  · rw [Files.finish, if_pos known, if_neg known]
    rfl

/-- The handler keeps the log and the list of its events. -/
theorem finish (represents : files.Represents log) (event : Text) (time : Int) :
    (files.finish event time).Represents (log.add event time) where
  entries := Files.Logs.finish represents.entries event time
  nodup := by
    rw [list_finish]
    split
    case isTrue => exact represents.nodup
    case isFalse unknown => exact List.concat_eq_append ▸ represents.nodup.concat unknown
  listed key := by
    rw [list_finish, Files.Logs.readStats_finish represents.entries, AList.mem_insert]
    split
    case isTrue known =>
        rw [represents.listed, or_iff_right_of_imp]
        intro same
        exact same ▸ (represents.listed event).mp known
    case isFalse =>
        rw [List.mem_append, List.mem_singleton, represents.listed, or_comm]

end Files.Represents

/-- The log after a run: the times of the finishes are added one after another. -/
def TimeLog.after (log : TimeLog) : Int → List Event → TimeLog
  | _, [] => log
  | _, .enter now :: events => log.after now events
  | sTime, .finish req statusCode now :: events =>
      (log.add (eventKey req statusCode) (now - sTime)).after sTime events

theorem Files.Represents.run {σ : Middleware} {log : TimeLog}
    (represents : σ.files.Represents log) (events : List Event) :
    (σ.run events).files.Represents (log.after σ.sTime events) := by
  induction events generalizing σ log with
  | nil => exact represents
  | cons event events ih =>
      cases event with
      | enter now => exact ih (σ := { σ with sTime := now }) represents
      | finish req statusCode now => exact ih (represents.finish _ _)

/-! ## What the files say -/

/-- The `Count` of an event; 0 if there is none. -/
def Files.count (files : Files) (key : Text) : Nat :=
  match files.readStats.lookup key with
  | some (.object (some n) _) => n
  | _ => 0

/-- `Count` is the length of `Time`, and the elements of `Time` are numbered. -/
def Entry.Numbered (entry : Entry) : Prop :=
  ∃ n time, entry = .object (some n) (some time) ∧ time.length = n ∧
    ∀ i, i < n → ∃ value, time[i]? = some [(responseTime (i + 1), value)]

/-- What the second page relies on: every entry is numbered, and the list names
    every key once. -/
structure Files.Consistent (files : Files) : Prop where
  numbered : ∀ key entry, files.readStats.lookup key = some entry → entry.Numbered
  nodup : files.list.Nodup
  listed : ∀ key, key ∈ files.list ↔ key ∈ files.readStats

theorem numbered_entryOf (times : List Int) : (entryOf times).Numbered := by
  refine ⟨times.length, _, rfl, List.length_mapIdx, fun i inside => ?_⟩
  exact ⟨times[i], by simp [inside]⟩

theorem Entry.Numbered.exists_entryOf {entry : Entry} (numbered : entry.Numbered) :
    ∃ times, entry = entryOf times := by
  obtain ⟨n, time, rfl, length, elements⟩ := numbered
  choose! value spec using elements
  refine ⟨(List.range n).map value, ?_⟩
  have same : time =
      ((List.range n).map value).mapIdx fun i t => [(responseTime (i + 1), t)] := by
    apply List.ext_getElem?
    intro i
    by_cases inside : i < n
    · simp [spec i inside, inside]
    · simp [inside, length]
  rw [entryOf, ← same, List.length_map, List.length_range]

theorem Files.Represents.consistent {files : Files} {log : TimeLog}
    (represents : files.Represents log) : files.Consistent where
  numbered key entry there := by
    rw [represents.entries] at there
    obtain ⟨times, _, rfl⟩ := Option.map_eq_some_iff.mp there
    exact numbered_entryOf times
  nodup := represents.nodup
  listed := represents.listed

theorem Files.exists_log {files : Files}
    (numbered : ∀ key entry, files.readStats.lookup key = some entry → entry.Numbered) :
    ∃ log, files.Logs log := by
  have entries : ∀ key, ∃ times : Option (List Int),
      files.readStats.lookup key = times.map entryOf := by
    intro key
    cases there : files.readStats.lookup key with
    | none => exact ⟨none, rfl⟩
    | some entry =>
        obtain ⟨times, rfl⟩ := (numbered key entry there).exists_entryOf
        exact ⟨some times, rfl⟩
  choose log entries using entries
  exact ⟨log, entries⟩

theorem Files.Consistent.represents {files : Files} (consistent : files.Consistent) :
    ∃ log, files.Represents log := by
  obtain ⟨log, entries⟩ := Files.exists_log consistent.numbered
  exact ⟨log, entries, consistent.nodup, consistent.listed⟩

theorem Files.Logs.count {files : Files} {log : TimeLog} (logs : files.Logs log) (key : Text) :
    files.count key = ((log key).getD []).length := by
  rw [Files.count, logs key]
  cases log key <;> rfl

theorem Files.Represents.count {files : Files} {log : TimeLog} (represents : files.Represents log)
    (key : Text) : files.count key = ((log key).getD []).length :=
  Files.Logs.count represents.entries key

/-- The event is a finish that is counted under `key`. -/
def Event.finishes (key : Text) : Event → Bool
  | .enter _ => false
  | .finish req statusCode _ => eventKey req statusCode = key

theorem TimeLog.length_add (log : TimeLog) (event : Text) (time : Int) (key : Text) :
    ((log.add event time key).getD []).length =
      ((log key).getD []).length + if event = key then 1 else 0 := by
  by_cases same : event = key
  · subst same
    simp [TimeLog.add]
  · simp [TimeLog.add, Function.update_of_ne (Ne.symm same), same]

theorem TimeLog.length_after (log : TimeLog) (sTime : Int) (events : List Event) (key : Text) :
    ((log.after sTime events key).getD []).length =
      ((log key).getD []).length + events.countP (Event.finishes key) := by
  induction events generalizing log sTime with
  | nil => rfl
  | cons event events ih =>
      cases event with
      | enter now => rw [TimeLog.after, ih, List.countP_cons_of_neg (by simp [Event.finishes])]
      | finish req statusCode now =>
          rw [TimeLog.after, ih, TimeLog.length_add, List.countP_cons]
          simp only [Event.finishes, decide_eq_true_eq]
          omega

/-- Nothing was requested yet. -/
def noFiles : Files := { report := none, httpCode := none }

theorem consistent_noFiles : noFiles.Consistent where
  numbered key entry there := by cases there
  nodup := List.nodup_nil
  listed key := by simp [noFiles, Files.list, Files.readHttpCode, Files.readStats]

/-- Whatever requests come in and finish, the two files stay consistent, every finish
    is counted once under its event, and the handler never falls back to a bare number. -/
theorem stats_consistent (σ : Middleware) (consistent : σ.files.Consistent)
    (events : List Event) :
    (σ.run events).files.Consistent ∧
      (∀ key, (σ.run events).files.count key =
        σ.files.count key + events.countP (Event.finishes key)) ∧
      ∀ earlier req statusCode now later,
        events = earlier ++ .finish req statusCode now :: later →
          ¬ (σ.run earlier).files.Catches (eventKey req statusCode)
            (now - (σ.run earlier).sTime) := by
  obtain ⟨log, represents⟩ := consistent.represents
  refine ⟨(represents.run events).consistent, fun key => ?_, ?_⟩
  · rw [(represents.run events).count, represents.count, TimeLog.length_after]
  · intro earlier req statusCode now later _
    exact (represents.run earlier).not_catches _ _

def pageRequest : Request where
  method := "GET".toList
  route := some "/bootgraph/kernel_1".toList
  baseUrl := some []

def missingRequest : Request where
  method := "GET".toList
  route := none
  baseUrl := some []

def threeFinishes : List Event :=
  [.enter 100, .finish pageRequest 200 130, .enter 140, .finish missingRequest 404 141,
    .enter 150, .finish pageRequest 200 190]

theorem stats_consistent_threeFinishes :
    ((⟨0, noFiles⟩ : Middleware).run threeFinishes).files.Consistent ∧
      ((⟨0, noFiles⟩ : Middleware).run threeFinishes).files.count
        "GET_/bootgraph/kernel_1_200".toList = 2 := by
  obtain ⟨consistent, counted, _⟩ := stats_consistent ⟨0, noFiles⟩ consistent_noFiles threeFinishes
  exact ⟨consistent, (counted _).trans (by decide +kernel)⟩

end OslabProfiler.Server
