import OslabProfiler.Client.DriverChart
import OslabProfiler.Server.Utilisation

/-! # From a boot to its chart

The lines that the kernel prints about its initcalls become records in the server, the records
go to the page, and the page draws one point for each of them in two curves. The server
computes the load of a call from the counters of two readings. The page takes a load of 0 for
a missing one and draws the last other load instead, so the curve shows the load of the last
call that was measured to be busy.
-/

namespace OslabProfiler.Client

open Lib Command Server

/-! ## What the page receives -/

/-- A record of the server as the page receives it. Numbers come through as they are; there is
    no record if a field is missing or not a number. -/
def received : Server.DriverInfo → Option DriverRecord
  | ⟨some (.rat startTime), some name, some (.rat memUtil), some (.rat cpuUtil),
      some (.rat initTime), some (.rat returnValue)⟩ =>
      some {
        startTime := startTime
        initTime := initTime
        cpuUtil := cpuUtil
        memUtil := memUtil
        deviceDriverName := name
        returnValue := returnValue }
  | _ => none

/-- The part of the memory that was in use when the call was made. -/
def usedMemory (c : Initcall) : ℚ := (c.memTotal - c.memFree) / c.memTotal

def finishTime (c : Initcall) : ℚ := c.callTime.value + c.duration / 10 ^ 6

/-- A call, as the page knows it. -/
def recordOf (load : ℚ) (c : Initcall) : DriverRecord where
  startTime := c.callTime.value
  initTime := c.duration / 10 ^ 6
  cpuUtil := load
  memUtil := usedMemory c
  deviceDriverName := c.name
  returnValue := c.ret

/-- The loads of the calls, each between its reading and the one before. -/
def loads : Option CpuUsage → List Initcall → List ℚ
  | _, [] => []
  | before, c :: calls => before.elim 0 c.cpu.load :: loads (some c.cpu) calls

@[simp] theorem length_loads (before : Option CpuUsage) (calls : List Initcall) :
    (loads before calls).length = calls.length := by
  induction calls generalizing before with
  | nil => rfl
  | cons c calls ih => rw [loads, List.length_cons, ih, List.length_cons]

theorem received_records (before : Option CpuUsage) (calls : List Initcall) :
    (records before calls).mapM received = some (List.zipWith recordOf (loads before calls) calls) := by
  induction calls generalizing before with
  | nil => rfl
  | cons c calls ih =>
      rw [records, List.mapM_cons, ih, loads, List.zipWith_cons_cons]
      rfl

/-! ## What the page draws -/

/-- The last of the loads that is not 0, or `previous`. -/
def lastBusy (previous : ℚ) (loads : List ℚ) : ℚ := (loads.reverse.find? (· ≠ 0)).getD previous

theorem lastBusy_cons (previous load : ℚ) (later : List ℚ) :
    lastBusy previous (load :: later) = lastBusy (if load = 0 then previous else load) later := by
  rw [lastBusy, lastBusy, List.reverse_cons, List.find?_append]
  cases later.reverse.find? (· ≠ 0) with
  | some busy => rfl
  | none => by_cases idle : load = 0 <;> simp [idle]

theorem cpuUtil_carry (previous : ℚ) (r : DriverRecord) :
    (carry previous r).cpuUtil = if r.cpuUtil = 0 then previous else r.cpuUtil := by
  rw [carry]
  split <;> rfl

theorem carry_eq (previous : ℚ) (r : DriverRecord) :
    carry previous r = { r with cpuUtil := lastBusy previous [r.cpuUtil] } := by
  by_cases idle : r.cpuUtil = 0
  · simp [carry, lastBusy, idle]
  · simp [carry, lastBusy, idle]

/-- Carrying values on, seen from one record. -/
theorem getElem?_carryOn (previous : ℚ) (info : List DriverRecord) (i : Nat) :
    (carryOn previous info)[i]? = info[i]?.map fun r =>
      { r with cpuUtil := lastBusy previous ((info.map DriverRecord.cpuUtil).take (i + 1)) } := by
  induction info generalizing previous i with
  | nil => rfl
  | cons r rest ih =>
      cases i with
      | zero =>
          rw [carryOn, List.getElem?_cons_zero, List.getElem?_cons_zero, carry_eq]
          rfl
      | succ i =>
          rw [carryOn, List.getElem?_cons_succ, List.getElem?_cons_succ, ih, cpuUtil_carry,
            List.map_cons, List.take_succ_cons]
          simp only [lastBusy_cons]

theorem length_carryOn (previous : ℚ) (info : List DriverRecord) :
    (carryOn previous info).length = info.length := by
  induction info generalizing previous with
  | nil => rfl
  | cons r rest ih => rw [carryOn, List.length_cons, ih, List.length_cons]

theorem map_cpuUtil_zipWith {loads : List ℚ} {calls : List Initcall}
    (length : loads.length = calls.length) :
    (List.zipWith recordOf loads calls).map DriverRecord.cpuUtil = loads := by
  rw [List.map_zipWith]
  change List.zipWith (fun load _ => load) loads calls = loads
  induction loads generalizing calls with
  | nil => rfl
  | cons load loads ih =>
      cases calls with
      | nil => cases length
      | cons c calls => rw [List.zipWith_cons_cons, ih (Nat.succ.inj length)]

/-- The loop for one version draws all of it. -/
theorem drawChart_single (info : List DriverRecord) :
    Ends (drawChart none) { info1 := info } ()
      (Charts.drawn { info1 := info } (carryOn 0 info) [] []) := by
  have ends := @drawChart_ends info none fun _ member => by cases member
  rwa [Option.getD_none, List.take_nil] at ends

/-! ## The chart of a boot -/

/-- The tables show the calls: one point for each, at the time when it was done, with the load of
    the last busy call and the memory in use, and its name and return value in the tool tips. -/
structure BootShown (calls : List Initcall) (t : Charts) : Prop where
  length : (points t.cpu1 t.mem1).length = calls.length
  point : ∀ i c, calls[i]? = some c → (points t.cpu1 t.mem1)[i]? =
    some (finishTime c, lastBusy 0 ((loads none calls).take (i + 1)) * 100, usedMemory c * 100)
  cpuTips : t.cpu1.map (fun row => (row.toolTip.driverName, row.toolTip.returnValue)) =
    calls.map fun c => (c.name, (c.ret : ℚ))
  memTips : t.mem1.map (fun row => (row.toolTip.driverName, row.toolTip.returnValue)) =
    calls.map fun c => (c.name, (c.ret : ℚ))
  single : t.cpu2 = [] ∧ t.mem2 = []

/-- Carrying values on changes neither names nor return values. -/
theorem tips_carryOn {row : DriverRecord → Row}
    (tip : ∀ r, ((row r).toolTip.driverName, (row r).toolTip.returnValue) =
      (r.deviceDriverName, r.returnValue)) (previous : ℚ) (before : Option CpuUsage)
    (calls : List Initcall) :
    ((carryOn previous (List.zipWith recordOf (loads before calls) calls)).map row).map
      (fun row => (row.toolTip.driverName, row.toolTip.returnValue)) =
      calls.map fun c => (c.name, (c.ret : ℚ)) := by
  induction calls generalizing previous before with
  | nil => rfl
  | cons c calls ih =>
      rw [loads, List.zipWith_cons_cons, carryOn, List.map_cons, List.map_cons, List.map_cons, ih,
        tip, carry_eq]
      rfl

theorem bootShown (calls : List Initcall) :
    BootShown calls (Charts.drawn { info1 := List.zipWith recordOf (loads none calls) calls }
      (carryOn 0 (List.zipWith recordOf (loads none calls) calls)) [] []) := by
  have drawn := points_map (carryOn 0 (List.zipWith recordOf (loads none calls) calls))
  have seen := getElem?_carryOn 0 (List.zipWith recordOf (loads none calls) calls)
  rw [map_cpuUtil_zipWith (length_loads none calls)] at seen
  refine ⟨?_, fun i c here => ?_, tips_carryOn (fun _ => rfl) 0 none calls,
    tips_carryOn (fun _ => rfl) 0 none calls, rfl, rfl⟩
  · simp [points, Charts.drawn, length_carryOn]
  · have inside : i < (loads none calls).length := by
      rw [length_loads]
      exact (List.getElem?_eq_some_iff.mp here).1
    have record : (List.zipWith recordOf (loads none calls) calls)[i]? =
        some (recordOf (loads none calls)[i] c) := by
      rw [List.getElem?_zipWith, List.getElem?_eq_getElem inside, here]
    change (points _ _)[i]? = _
    simp only [Charts.drawn, List.nil_append]
    rw [drawn, List.getElem?_map, seen, record]
    rfl

/-- What a kernel measures: counters that never go back, and no more memory free than there is. -/
structure Measured (calls : List Initcall) : Prop where
  counters : calls.IsChain fun a b => CpuUsage.Grows a.cpu b.cpu
  memory : ∀ c ∈ calls, 0 ≤ c.memFree ∧ c.memFree ≤ c.memTotal

/-- The values of the two curves are percentages. -/
def InPercent (curve : List (ℚ × ℚ × ℚ)) : Prop :=
  ∀ p ∈ curve, (0 ≤ p.2.1 ∧ p.2.1 ≤ 100) ∧ 0 ≤ p.2.2 ∧ p.2.2 ≤ 100

theorem loads_inUnit {before : Option CpuUsage} {calls : List Initcall}
    (first : ∀ old ∈ before, ∀ c ∈ calls.head?, CpuUsage.Grows old c.cpu)
    (counters : calls.IsChain fun a b => CpuUsage.Grows a.cpu b.cpu) :
    ∀ load ∈ loads before calls, 0 ≤ load ∧ load ≤ 1 := by
  induction calls generalizing before with
  | nil => simp [loads]
  | cons c calls ih =>
      rw [loads, List.forall_mem_cons]
      constructor
      · cases before with
        | none => simp
        | some old => exact ⟨(first old rfl c rfl).load_nonneg, c.cpu.load_le_one old⟩
      · rw [List.isChain_cons] at counters
        refine ih (fun old isOld next isNext => ?_) counters.2
        cases isOld
        exact counters.1 next isNext

theorem lastBusy_inUnit {loads : List ℚ} (unit : ∀ load ∈ loads, 0 ≤ load ∧ load ≤ 1) :
    0 ≤ lastBusy 0 loads ∧ lastBusy 0 loads ≤ 1 := by
  rw [lastBusy]
  cases busy : loads.reverse.find? (· ≠ 0) with
  | none => simp
  | some load => exact unit load (List.mem_reverse.mp (List.mem_of_find?_eq_some busy))

theorem usedMemory_inUnit {c : Initcall} (low : 0 ≤ c.memFree) (high : c.memFree ≤ c.memTotal) :
    0 ≤ usedMemory c ∧ usedMemory c ≤ 1 := by
  have total : (0 : ℚ) < c.memTotal := by exact_mod_cast c.memPositive
  have low' : (0 : ℚ) ≤ c.memFree := by exact_mod_cast low
  have high' : (c.memFree : ℚ) ≤ c.memTotal := by exact_mod_cast high
  refine ⟨div_nonneg (by linarith) total.le, ?_⟩
  rw [usedMemory, div_le_one total]
  linarith

theorem BootShown.inPercent {calls : List Initcall} {t : Charts} (shown : BootShown calls t)
    (measured : Measured calls) : InPercent (points t.cpu1 t.mem1) := by
  intro p member
  obtain ⟨i, small, rfl⟩ := List.mem_iff_getElem.mp member
  have inside : i < calls.length := shown.length ▸ small
  have here := shown.point i calls[i] (List.getElem?_eq_getElem inside)
  rw [List.getElem?_eq_getElem small, Option.some.injEq] at here
  have all := @loads_inUnit none calls (by simp) measured.counters
  have load := lastBusy_inUnit fun load (taken : load ∈ (loads none calls).take (i + 1)) =>
    all load (List.mem_of_mem_take taken)
  obtain ⟨low, high⟩ := measured.memory calls[i] (List.getElem_mem inside)
  have memory := usedMemory_inUnit low high
  rw [here]
  constructor <;> constructor <;> linarith [load.1, load.2, memory.1, memory.2]

theorem measured_twoCalls : Measured [consoleInit, busyProbe] where
  counters := by
    refine .cons_cons ?_ (.singleton _)
    constructor <;> decide
  memory := by
    simp only [List.forall_mem_cons, List.not_mem_nil, false_implies, implies_true, and_true]
    decide

end OslabProfiler.Client
