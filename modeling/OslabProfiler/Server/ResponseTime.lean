import OslabProfiler.Server.RequestStats

/-! # Response times of overlapping requests

Requests overlap: several of them can be under way between the entry of one and
its finish. The middleware keeps a single start time, so what a finish writes is
measured from the entry that came last. It is the response time of the request
itself exactly when that entry has the time stamp of its own.
-/

namespace OslabProfiler.Server

open Lib

/-! ## Requests and their moments -/

/-- A request with the times at which it enters and is finished. -/
structure Visit where
  req : Request
  statusCode : Nat
  start : Int
  finish : Int
  ordered : start ≤ finish

def Visit.key (visit : Visit) : Text := eventKey visit.req visit.statusCode

inductive Moment (ι : Type) where
  | start (r : ι)
  | finish (r : ι)
  deriving DecidableEq

section Moments

variable {ι : Type} (visits : ι → Visit)

def Moment.event : Moment ι → Event
  | .start r => .enter (visits r).start
  | .finish r => .finish (visits r).req (visits r).statusCode (visits r).finish

/-- `P earlier r` holds whenever the request `r` is finished after the moments `earlier`. -/
def AtEveryFinish (moments : List (Moment ι)) (P : List (Moment ι) → ι → Prop) : Prop :=
  ∀ earlier r later, moments = earlier ++ .finish r :: later → P earlier r

theorem atEveryFinish_iff {moments : List (Moment ι)} {P : List (Moment ι) → ι → Prop} :
    AtEveryFinish moments P ↔
      ∀ i < moments.length, ∀ r, moments[i]? = some (.finish r) → P (moments.take i) r := by
  constructor
  · intro holds i inside r here
    apply holds _ r (moments.drop (i + 1))
    rw [← (List.getElem?_eq_some_iff.mp here).2, List.getElem_cons_drop, List.take_append_drop]
  · intro holds earlier r later split
    have here := holds earlier.length (by simp [split]) r (by simp [split])
    rwa [split, List.take_left] at here

/-- An order of the moments: each happens once, and a request is finished after it
    has started. -/
structure Interleaving (moments : List (Moment ι)) : Prop where
  once : moments.Nodup
  started : AtEveryFinish moments fun earlier r => .start r ∈ earlier

/-- The server after some moments. -/
def Middleware.pass (σ : Middleware) (moments : List (Moment ι)) : Middleware :=
  σ.run (moments.map (Moment.event visits))

/-- The time stamp of the entry that came last. -/
def latestStart : List (Moment ι) → Option Int
  | [] => none
  | .start r :: later => some ((latestStart later).getD (visits r).start)
  | .finish _ :: later => latestStart later

theorem Middleware.sTime_pass (σ : Middleware) (moments : List (Moment ι)) :
    (σ.pass visits moments).sTime = (latestStart visits moments).getD σ.sTime := by
  induction moments generalizing σ with
  | nil => rfl
  | cons moment moments ih =>
      cases moment with
      | start r => exact ih { σ with sTime := (visits r).start }
      | finish r => exact ih _

theorem latestStart_isSome {moments : List (Moment ι)} {r : ι} (member : .start r ∈ moments) :
    (latestStart visits moments).isSome = true := by
  induction moments with
  | nil => cases member
  | cons moment moments ih =>
      cases moment with
      | start q => rfl
      | finish q =>
          cases member with
          | tail _ later => exact ih later

/-! ## What a finish writes -/

/-- The `Time` array of an event. -/
def Files.times (files : Files) (key : Text) : List (List (Text × Int)) :=
  match files.readStats.lookup key with
  | some (.object _ (some time)) => time
  | _ => []

/-- The change from one pair of files to the next adds `value` to the times of `key`. -/
def Appends (files files' : Files) (key : Text) (value : Int) : Prop :=
  ∃ name, files'.times key = files.times key ++ [[(name, value)]]

theorem Appends.unique {files files' : Files} {key : Text} {v w : Int}
    (first : Appends files files' key v) (second : Appends files files' key w) : v = w := by
  obtain ⟨_, first⟩ := first
  obtain ⟨_, second⟩ := second
  have same := List.append_cancel_left (first.symm.trans second)
  simp only [List.cons.injEq, Prod.mk.injEq, and_true] at same
  exact same.2

theorem Files.Represents.times {files : Files} {log : TimeLog} (represents : files.Represents log)
    (key : Text) : files.times key =
      ((log key).getD []).mapIdx fun i t => [(responseTime (i + 1), t)] := by
  rw [Files.times, represents.entries]
  cases log key <;> rfl

theorem Files.Represents.appends {files : Files} {log : TimeLog}
    (represents : files.Represents log) (event : Text) (time : Int) :
    Appends files (files.finish event time) event time := by
  refine ⟨responseTime (((log event).getD []).length + 1), ?_⟩
  rw [(represents.finish event time).times, represents.times, TimeLog.add, Function.update_self,
    Option.getD_some, List.mapIdx_append]
  simp

/-- A finish writes the time since the entry that came last. -/
theorem appends_pass {σ : Middleware} (consistent : σ.files.Consistent)
    (earlier : List (Moment ι)) (r : ι) :
    Appends (σ.pass visits earlier).files (σ.pass visits (earlier ++ [.finish r])).files
      (visits r).key ((visits r).finish - (latestStart visits earlier).getD σ.sTime) := by
  obtain ⟨log, represents⟩ := consistent.represents
  rw [← Middleware.sTime_pass]
  have next : σ.pass visits (earlier ++ [.finish r]) =
      (σ.pass visits earlier).step (Moment.event visits (.finish r)) := by
    simp [Middleware.pass, Middleware.run]
  rw [next]
  exact (represents.run _).appends _ _

/-- The request `r`, finished after the moments `earlier`, has its own response time
    written to the file. -/
def WritesOwn (σ : Middleware) (earlier : List (Moment ι)) (r : ι) : Prop :=
  Appends (σ.pass visits earlier).files (σ.pass visits (earlier ++ [.finish r])).files
    (visits r).key ((visits r).finish - (visits r).start)

theorem writesOwn_iff {σ : Middleware} (consistent : σ.files.Consistent)
    {earlier : List (Moment ι)} {r : ι} (started : .start r ∈ earlier) :
    WritesOwn visits σ earlier r ↔ latestStart visits earlier = some (visits r).start := by
  have written := appends_pass visits consistent earlier r
  obtain ⟨latest, found⟩ := Option.isSome_iff_exists.mp (latestStart_isSome visits started)
  rw [found, Option.getD_some] at written
  rw [found, Option.some_inj]
  constructor
  · intro own
    have same := own.unique written
    omega
  · rintro rfl
    exact written

/-- Every request has its own response time written exactly when at every finish the
    entry that came last has the time stamp of the request that is finished. -/
theorem responseTimes_own_iff {σ : Middleware} (consistent : σ.files.Consistent)
    {moments : List (Moment ι)} (interleaving : Interleaving moments) :
    AtEveryFinish moments (WritesOwn visits σ) ↔
      AtEveryFinish moments fun earlier r =>
        latestStart visits earlier = some (visits r).start := by
  constructor
  · intro own earlier r later split
    have started := interleaving.started earlier r later split
    exact (writesOwn_iff visits consistent started).mp (own earlier r later split)
  · intro latest earlier r later split
    have started := interleaving.started earlier r later split
    exact (writesOwn_iff visits consistent started).mpr (latest earlier r later split)

end Moments

/-- Two requests, the second one in while the first is served or after it. -/
def twoVisits (second : Int) : Bool → Visit
  | true => ⟨pageRequest, 200, 0, 100, by decide⟩
  | false => ⟨missingRequest, 404, second, second + 5, by omega⟩

def inTurn : List (Moment Bool) := [.start true, .finish true, .start false, .finish false]

theorem responseTimes_own_inTurn :
    AtEveryFinish inTurn (WritesOwn (twoVisits 110) ⟨0, noFiles⟩) := by
  have interleaving : Interleaving inTurn := ⟨by decide, atEveryFinish_iff.mpr (by decide)⟩
  exact (responseTimes_own_iff (twoVisits 110) consistent_noFiles interleaving).mpr
    (atEveryFinish_iff.mpr (by decide))

def overlapping : List (Moment Bool) := [.start true, .start false, .finish false, .finish true]

/-- The first request took 100 and is written down with 10, the time since the second
    one came in. -/
theorem overlapping_time_wrong :
    Interleaving overlapping ∧
      Appends ((⟨0, noFiles⟩ : Middleware).pass (twoVisits 90) (overlapping.take 3)).files
        ((⟨0, noFiles⟩ : Middleware).pass (twoVisits 90) overlapping).files
        (twoVisits 90 true).key 10 ∧
      ¬ AtEveryFinish overlapping (WritesOwn (twoVisits 90) ⟨0, noFiles⟩) := by
  refine ⟨⟨by decide, atEveryFinish_iff.mpr (by decide)⟩, ?_, fun own => ?_⟩
  · exact appends_pass (twoVisits 90) (σ := ⟨0, noFiles⟩) consistent_noFiles
      (overlapping.take 3) true
  · have first := own (overlapping.take 3) true [] rfl
    rw [writesOwn_iff (twoVisits 90) consistent_noFiles (by decide)] at first
    exact absurd first (by decide)

end OslabProfiler.Server
