import OslabProfiler.BootGraph.Fitted
import OslabProfiler.BootGraph.KernelLog

/-! # From the kernel to the boot graph

The log of a boot that runs one initcall after the other is read twice: by the server, for the
chart of the drivers, and by the script, for the boot graph. The script keeps one start under a
name, so the two agree where no name is called again. Then the bars of the graph are the calls
that are long enough, one behind the other.
-/

namespace OslabProfiler.BootGraph

open Lib Server

/-! ## The log between other lines -/

/-- `QuietlyWoven own log`: the lines `own`, in order, between lines that neither reader takes
    notice of. The end of the boot may be reported behind them. -/
inductive QuietlyWoven : List Text → List Text → Prop where
  | nil : QuietlyWoven [] []
  | own {l : Text} {own log : List Text} (rest : QuietlyWoven own log) :
      QuietlyWoven (l :: own) (l :: log)
  | other {l : Text} {own log : List Text} (unmarked : Unmarked l) (oneLine : '\n' ∉ l)
      (quiet : lineEvents l = []) (rest : QuietlyWoven own log) : QuietlyWoven own (l :: log)
  | finished {l : Text} {log : List Text} (unmarked : Unmarked l) (oneLine : '\n' ∉ l)
      (ending : lineEvents l = [.finished]) (rest : QuietlyWoven [] log) : QuietlyWoven [] (l :: log)

theorem QuietlyWoven.woven {own log : List Text} (quietly : QuietlyWoven own log) :
    Woven own log := by
  induction quietly with
  | nil => exact .nil
  | own _ ih => exact .own ih
  | other unmarked oneLine _ _ ih => exact .other unmarked oneLine ih
  | finished unmarked oneLine _ _ ih => exact .other unmarked oneLine ih

/-- The other lines change nothing but that the boot may be over. -/
theorem QuietlyWoven.run {own log : List Text} (quietly : QuietlyWoven own log) (s : State) :
    ∃ done, (log.flatMap lineEvents).foldl State.step s =
      { (own.flatMap lineEvents).foldl State.step s with done := done } := by
  induction quietly generalizing s with
  | nil => exact ⟨s.done, rfl⟩
  | own _ ih =>
      rw [List.flatMap_cons, List.flatMap_cons, List.foldl_append, List.foldl_append]
      exact ih _
  | other _ _ quiet _ ih =>
      rw [List.flatMap_cons, quiet]
      exact ih s
  | finished _ _ ending _ ih =>
      rw [List.flatMap_cons, ending]
      exact ih { s with done := true }

theorem QuietlyWoven.logTimes_eq {own log : List Text} (quietly : QuietlyWoven own log) :
    logTimes log = logTimes own := by
  unfold logTimes
  induction quietly with
  | nil => rfl
  | own _ ih => simp only [List.flatMap_cons, List.filterMap_append, ih]
  | other _ _ quiet _ ih => simpa only [List.flatMap_cons, quiet, List.nil_append] using ih
  | finished _ _ ending _ ih =>
      rw [List.flatMap_cons, ending]
      exact ih

/-! ## What the script keeps -/

/-- The last call of a name. -/
def lastCall (calls : List Initcall) (name : Text) : Option Initcall :=
  calls.reverse.find? fun c => c.name = name

theorem lastCall_snoc (calls : List Initcall) (c : Initcall) (name : Text) :
    lastCall (calls ++ [c]) name = if name = c.name then some c else lastCall calls name := by
  simp only [lastCall, List.reverse_append, List.reverse_singleton, List.singleton_append,
    List.find?_cons]
  split_ifs with same
  · simp [same]
  · simp [Ne.symm same]

theorem lastCall_eq_some {calls : List Initcall} {name : Text} {c : Initcall}
    (last : lastCall calls name = some c) : c ∈ calls ∧ c.name = name :=
  ⟨List.mem_reverse.mp (List.mem_of_find?_eq_some last),
    by simpa using List.find?_some last⟩

theorem exists_lastCall {calls : List Initcall} {c : Initcall} (member : c ∈ calls) :
    ∃ last, lastCall calls c.name = some last := by
  rw [← Option.isSome_iff_exists, lastCall, List.find?_isSome]
  exact ⟨c, List.mem_reverse.mpr member, by simp⟩

/-- The state of the script behind some calls. -/
structure Keeps (calls : List Initcall) (s : State) : Prop where
  start : ∀ name, s.start.lookup name = (lastCall calls name).map fun c => c.callTime.value
  ends : ∀ name, s.ends.lookup name = (lastCall calls name).map fun c => c.returnTime.value
  first : s.firsttime = (calls.map fun c => c.callTime.value).foldl min 99999
  last : s.maxtime = (calls.getLast?.map fun c => c.returnTime.value).getD 0
  count : s.count = calls.length

theorem lookup_insert (m : AList fun _ : Text => ℚ) (a name : Text) (time : ℚ) :
    (m.insert a time).lookup name = if name = a then some time else m.lookup name := by
  split_ifs with same
  · rw [same, AList.lookup_insert]
  · rw [AList.lookup_insert_ne same]

theorem Keeps.step {calls : List Initcall} {s : State} (keeps : Keeps calls s)
    (going : s.done = false) (c : Initcall) (pid : Option Text) :
    let s' := (s.step (.calling c.callTime.value c.name pid)).step
      (.returned c.returnTime.value c.name)
    Keeps (calls ++ [c]) s' ∧ s'.done = false := by
  intro s'
  have eq : s' = { s with
      start := s.start.insert c.name c.callTime.value
      ends := s.ends.insert c.name c.returnTime.value
      type := s.type.insert c.name 0
      pids := pid.elim s.pids fun pid => s.pids.insert c.name pid
      firsttime := if c.callTime.value < s.firsttime then c.callTime.value else s.firsttime
      maxtime := c.returnTime.value
      count := s.count + 1 } := by
    simp [s', State.step, State.setStart, State.setEnd, going]
  rw [eq]
  refine ⟨⟨?_, ?_, ?_, ?_, ?_⟩, going⟩
  · intro name
    simp only [lookup_insert, lastCall_snoc, keeps.start]
    split <;> rfl
  · intro name
    simp only [lookup_insert, lastCall_snoc, keeps.ends]
    split <;> rfl
  · simp only [List.map_append, List.foldl_append, List.map_cons, List.map_nil, List.foldl_cons,
      List.foldl_nil, ← keeps.first]
    rw [min_comm, min_def_lt]
  · simp
  · simp [keeps.count]

theorem Initcall.lineEvents_lines (c : Initcall) :
    c.lines.flatMap lineEvents = [.calling c.callTime.value c.name (pidText c.execution),
      .returned c.returnTime.value c.name] := by
  rw [c.lines_eq]
  exact BootGraph.lineEvents_lines c.execution

theorem keeps_calls (calls : List Initcall) :
    Keeps calls (readLog (calls.flatMap Initcall.lines)) ∧
      (readLog (calls.flatMap Initcall.lines)).done = false := by
  induction calls using List.reverseRecOn with
  | nil => exact ⟨⟨fun _ => rfl, fun _ => rfl, rfl, rfl, rfl⟩, rfl⟩
  | append_singleton calls c ih =>
      have lines : (calls ++ [c]).flatMap Initcall.lines =
          calls.flatMap Initcall.lines ++ c.lines := by
        simp
      have events : readLog ((calls ++ [c]).flatMap Initcall.lines) =
          ((readLog (calls.flatMap Initcall.lines)).step (.calling c.callTime.value c.name
            (pidText c.execution))).step (.returned c.returnTime.value c.name) := by
        rw [lines, readLog, List.flatMap_append, List.foldl_append, Initcall.lineEvents_lines]
        rfl
      rw [events]
      exact ih.1.step ih.2 c _

theorem QuietlyWoven.keeps {calls : List Initcall} {log : List Text}
    (quietly : QuietlyWoven (calls.flatMap Initcall.lines) log) : Keeps calls (readLog log) := by
  obtain ⟨done, eq⟩ := quietly.run {}
  obtain ⟨keeps, -⟩ := keeps_calls calls
  rw [readLog, eq]
  exact ⟨keeps.start, keeps.ends, keeps.first, keeps.last, keeps.count⟩

/-! ## The two readers -/

/-- The script keeps the start of a record under its name. -/
def Agrees (s : State) (r : DriverInfo) : Prop :=
  ∃ name time, r.deviceDriverName = some name ∧ r.startTime = some (.rat time) ∧
    s.start.lookup name = some time

theorem forall_records {P : DriverInfo → Prop} {Q : Initcall → Prop} (before : Option CpuUsage)
    (calls : List Initcall) (each : ∀ before (c : Initcall), P (c.record before) ↔ Q c) :
    (∀ r ∈ records before calls, P r) ↔ ∀ c ∈ calls, Q c := by
  induction calls generalizing before with
  | nil => simp [records]
  | cons c calls ih => simp only [records, List.forall_mem_cons, each, ih]

theorem agrees_record (s : State) (before : Option CpuUsage) (c : Initcall) :
    Agrees s (c.record before) ↔ s.start.lookup c.name = some c.callTime.value := by
  constructor
  · rintro ⟨name, time, isName, isTime, there⟩
    cases isName
    cases isTime
    exact there
  · intro there
    exact ⟨c.name, c.callTime.value, rfl, rfl, there⟩

theorem quietlyWoven_twoCalls :
    QuietlyWoven ([consoleInit, busyProbe].flatMap Initcall.lines) twoCallsLog :=
  .other (by decide) (by decide) (by decide +kernel) (.own (.own (.own (.own (.other (by decide)
    (by decide) (by decide +kernel) (.own (.own (.own (.own .nil)))))))))

/-- The calls of a boot that makes one call at a time, each of them once. -/
structure Sequential (calls : List Initcall) : Prop where
  takes : ∀ c ∈ calls, c.callTime.value ≤ c.returnTime.value
  after : calls.Pairwise fun c c' => c.returnTime.value ≤ c'.callTime.value
  once : (calls.map Initcall.name).Nodup

section Boot

variable {calls : List Initcall} {log : List Text}

theorem Sequential.times (sequential : Sequential calls) :
    (logTimes (calls.flatMap Initcall.lines)).Pairwise (· ≤ ·) := by
  have eq : logTimes (calls.flatMap Initcall.lines) =
      calls.flatMap fun c => [c.callTime.value, c.returnTime.value] := by
    simp only [logTimes, List.flatMap_assoc, Initcall.lineEvents_lines, List.filterMap_flatMap]
    rfl
  rw [eq, List.pairwise_flatMap]
  constructor
  · intro c member
    simpa using sequential.takes c member
  · refine sequential.after.imp_of_mem fun {c c'} member member' later => ?_
    have takes := sequential.takes c member
    have takes' := sequential.takes c' member'
    intro x hx y hy
    simp only [List.mem_cons, List.not_mem_nil, or_false] at hx hy
    obtain rfl | rfl := hx <;> obtain rfl | rfl := hy <;> linarith

theorem lastCall_of_mem (once : (calls.map Initcall.name).Nodup) {c : Initcall} (member : c ∈ calls) :
    lastCall calls c.name = some c := by
  obtain ⟨last, found⟩ := exists_lastCall member
  obtain ⟨called, named⟩ := lastCall_eq_some found
  rw [found, List.inj_on_of_nodup_map once called member named]

theorem foldl_min_eq {a : ℚ} {l : List ℚ} (least : ∀ x ∈ l, a ≤ x) : l.foldl min a = a := by
  induction l with
  | nil => rfl
  | cons x l ih =>
      obtain ⟨here, later⟩ := List.forall_mem_cons.mp least
      rw [List.foldl_cons, min_eq_left here, ih later]

/-- The boot lasts from the first call to the last return. -/
theorem range_eq (sequential : Sequential calls) {s : State} (keeps : Keeps calls s)
    {first last : Initcall} (head : calls.head? = some first) (final : calls.getLast? = some last)
    (early : first.callTime.value ≤ 99999) :
    Fitted.range s = last.returnTime.value - first.callTime.value := by
  obtain ⟨rest, rfl⟩ := List.head?_eq_some_iff.mp head
  have takes := sequential.takes first List.mem_cons_self
  have least : ∀ x ∈ rest.map fun c => c.callTime.value, first.callTime.value ≤ x := by
    intro x member
    obtain ⟨c, called, rfl⟩ := List.mem_map.mp member
    exact takes.trans ((List.pairwise_cons.mp sequential.after).1 c called)
  rw [Fitted.range, keeps.last, final, keeps.first, List.map_cons, List.foldl_cons,
    min_eq_right early, foldl_min_eq least]
  rfl

/-- The calls that take a 1200th of the boot or more. -/
def longCalls (boot : ℚ) (calls : List Initcall) : List Initcall :=
  calls.filter fun c => boot / 1200 ≤ c.returnTime.value - c.callTime.value

theorem initcalls_sorted (order : HashOrder) (s : State) :
    (initcalls order s).Pairwise fun a b => Fitted.startOf s a ≤ Fitted.startOf s b := by
  have total : Std.Total fun a b : Text => (s.start.lookup a).getD 0 ≤ (s.start.lookup b).getD 0 :=
    ⟨fun a b => le_total _ _⟩
  have trans : IsTrans Text fun a b => (s.start.lookup a).getD 0 ≤ (s.start.lookup b).getD 0 :=
    ⟨fun a b c first second => first.trans second⟩
  exact List.pairwise_insertionSort _ _

/-- Calls that do not return at once start at different times, in their order. -/
theorem Sequential.longCalls_sorted (sequential : Sequential calls) {boot : ℚ} (positive : 0 < boot) :
    (longCalls boot calls).Pairwise fun c c' => c.returnTime.value ≤ c'.callTime.value ∧
      c.callTime.value < c'.callTime.value := by
  refine (sequential.after.filter _).imp_of_mem fun {c c'} member _ later => ?_
  have long : boot / 1200 ≤ c.returnTime.value - c.callTime.value := by
    simpa using (List.mem_filter.mp member).2
  have takes : 0 < boot / 1200 := by positivity
  exact ⟨later, by linarith⟩

theorem Keeps.times {s : State} (keeps : Keeps calls s) (once : (calls.map Initcall.name).Nodup) :
    ∀ c ∈ calls, Fitted.startOf s c.name = c.callTime.value ∧
      Fitted.endOf s c.name = c.returnTime.value := by
  intro c member
  rw [Fitted.startOf, Fitted.endOf, keeps.start, keeps.ends, lastCall_of_mem once member]
  exact ⟨rfl, rfl⟩

theorem initcalls_long (sequential : Sequential calls) (order : HashOrder) {s : State}
    (keeps : Keeps calls s) (positive : 0 < Fitted.range s) :
    (initcalls order s).filter (fun key => Fitted.threshold s ≤ Fitted.duration s key) =
      (longCalls (Fitted.range s) calls).map Initcall.name := by
  have times := keeps.times sequential.once
  have keys : (initcalls order s).Perm (calls.map Initcall.name) := by
    refine ((List.perm_insertionSort _ _).trans (order.perm _)).trans ?_
    refine (List.perm_ext_iff_of_nodup s.start.keys_nodup sequential.once).mpr fun name => ?_
    rw [← AList.mem_keys, ← AList.lookup_isSome, keeps.start, Option.isSome_map, lastCall,
      List.find?_isSome]
    simp
  have long : (calls.map Initcall.name).filter
      (fun key => Fitted.threshold s ≤ Fitted.duration s key) =
      (longCalls (Fitted.range s) calls).map Initcall.name := by
    rw [List.filter_map, longCalls]
    congr 1
    refine List.filter_congr fun c member => ?_
    simp only [Function.comp, Fitted.threshold, Fitted.threshold2, Fitted.duration, times c member]
    norm_num [div_div]
  have perm := (keys.filter _).trans (.of_eq long)
  -- two calls that are long enough do not start at the same time, so the order is fixed
  have strict : ((longCalls (Fitted.range s) calls).map Initcall.name).Pairwise fun a b =>
      Fitted.startOf s a < Fitted.startOf s b := by
    rw [List.pairwise_map]
    refine (sequential.longCalls_sorted positive).imp_of_mem fun {c c'} member member' later => ?_
    rw [(times c (List.mem_filter.mp member).1).1, (times c' (List.mem_filter.mp member').1).1]
    exact later.2
  have apart : (((longCalls (Fitted.range s) calls).map Initcall.name).map
      (Fitted.startOf s)).Nodup := List.pairwise_map.mpr (strict.imp fun less => less.ne)
  refine List.Perm.eq_of_pairwise (fun a b ha hb le ge => ?_) ((initcalls_sorted order s).filter _)
    (strict.imp fun less => less.le) perm
  exact List.inj_on_of_nodup_map apart (perm.mem_iff.mp ha) hb (le_antisymm le ge)

end Boot

def slowProbe : Initcall := { busyProbe with returnTime := ⟨1, 502866, by decide⟩ }

def slowLog : List Text :=
  consoleInit.lines ++ slowProbe.lines ++
    ["[    2.000000] Freeing unused kernel memory: 1024K".toList]

theorem quietlyWoven_slow :
    QuietlyWoven ([consoleInit, slowProbe].flatMap Initcall.lines) slowLog :=
  .own (.own (.own (.own (.own (.own (.own (.own
    (.finished (by decide) (by decide) (by decide +kernel) .nil))))))))

theorem sequential_slow : Sequential [consoleInit, slowProbe] :=
  ⟨by decide +kernel, by decide +kernel, by decide +kernel⟩

end OslabProfiler.BootGraph
