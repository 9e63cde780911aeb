import OslabProfiler.Lib.Command
import OslabProfiler.Lib.Text

/-! # The chart of two boots

`drawChart` adds one row per initcall record to the tables of the first version and,
when two versions are compared, to those of the second one. One loop over the records
of the first version indexes both arrays. On its way it replaces a CPU value of 0 by the
value before, in the records of the first version only.
-/

namespace OslabProfiler.Client

open Lib Command

/-- A complete record of an initcall, as the page receives it. -/
structure DriverRecord where
  startTime : ℚ
  initTime : ℚ
  cpuUtil : ℚ
  memUtil : ℚ
  deviceDriverName : Text
  returnValue : ℚ
  /-- The functions traced during the call with their counts and times, if there are any. -/
  ftraceLog : Option (List (Text × ℚ × ℚ)) := none
  deriving DecidableEq

/-- The arguments of `createCustomChartToolTip`, which are put into a text. -/
structure ToolTip where
  category : Text
  initTime : ℚ
  util : ℚ
  driverName : Text
  returnValue : ℚ
  ftraceLog : Option (List (Text × ℚ × ℚ))
  deriving DecidableEq

structure Row where
  time : ℚ
  value : ℚ
  toolTip : ToolTip
  deriving DecidableEq

/-- `toFixed`, as a number again: the nearest number with so many digits behind the point,
    of two the one with the larger absolute value. -/
def toFixed (digits : Nat) (x : ℚ) : ℚ :=
  if 10 ^ 21 ≤ |x| then x
  else
    let n : ℚ := ⌊|x| * 10 ^ digits + 1 / 2⌋
    if x < 0 then -(n / 10 ^ digits) else n / 10 ^ digits

/-- The row of a record in a table of `util`. -/
def utilRow (category : Text) (util : ℚ) (r : DriverRecord) : Row where
  time := r.startTime + r.initTime
  value := util * 100
  toolTip := ⟨category, r.initTime, toFixed 4 util * 100, r.deviceDriverName, r.returnValue, r.ftraceLog⟩

def cpuRow (r : DriverRecord) : Row := utilRow "CPU Utilization : ".toList r.cpuUtil r

def memRow (r : DriverRecord) : Row := utilRow "Memory Utilization : ".toList r.memUtil r

/-- The four tables, and the records of the first version, which are changed in place. -/
structure Charts where
  info1 : List DriverRecord
  cpu1 : List Row := []
  mem1 : List Row := []
  cpu2 : List Row := []
  mem2 : List Row := []
  deriving DecidableEq

/-- A part of `drawChart`; it stops with a `TypeError`. -/
abbrev Drawing := Command Charts Unit

/-- `if (info_index > 0 && info_1[info_index].cpu_util == 0)` the value before is taken. -/
def replaceZero (info : List DriverRecord) (i : Nat) : List DriverRecord :=
  match info[i]?, info[i - 1]? with
  | some r, some previous =>
      if 0 < i ∧ r.cpuUtil = 0 then info.set i { r with cpuUtil := previous.cpuUtil } else info
  | _, _ => info

/-- An element whose fields are read; `undefined` has none. -/
def element (info : List DriverRecord) (i : Nat) : Drawing DriverRecord :=
  match info[i]? with
  | none => stop ()
  | some r => pure r

def addFirst (s : Charts) (r : DriverRecord) : Charts :=
  { s with cpu1 := s.cpu1 ++ [cpuRow r], mem1 := s.mem1 ++ [memRow r] }

def addSecond (s : Charts) (r : DriverRecord) : Charts :=
  { s with cpu2 := s.cpu2 ++ [cpuRow r], mem2 := s.mem2 ++ [memRow r] }

/-- One turn of the loop; `info2` is there when two versions are compared. -/
def drawIndex (info2 : Option (List DriverRecord)) (i : Nat) : Drawing Unit := do
  update fun s => { s with info1 := replaceZero s.info1 i }
  let info1 ← read Charts.info1
  let r1 ← element info1 i
  match info2 with
  | none => pure ()
  | some info2 => do
      let r2 ← element info2 i
      update fun s => addSecond s r2
  update fun s => addFirst s r1

/-- The loop of `drawChart`. -/
def drawChart (info2 : Option (List DriverRecord)) : Drawing Unit := do
  let length ← read fun s => s.info1.length
  fold (fun _ i => drawIndex info2 i) () (List.range length)

/-! ## What the loop does -/

/-- A record behind one with the CPU value `previous`. -/
def carry (previous : ℚ) (r : DriverRecord) : DriverRecord :=
  if r.cpuUtil = 0 then { r with cpuUtil := previous } else r

/-- The records with every CPU value of 0 replaced by the one before, if `previous` came
    before them. -/
def carryOn (previous : ℚ) : List DriverRecord → List DriverRecord
  | [] => []
  | r :: rest => carry previous r :: carryOn (carry previous r).cpuUtil rest

theorem carry_zero (r : DriverRecord) : carry 0 r = r := by
  by_cases zero : r.cpuUtil = 0
  · rw [carry, if_pos zero, ← zero]
  · rw [carry, if_neg zero]

/-- The CPU value of the last record, or 0. -/
def lastCpu (done : List DriverRecord) : ℚ := (done.getLast?.map DriverRecord.cpuUtil).getD 0

@[simp] theorem lastCpu_snoc (done : List DriverRecord) (r : DriverRecord) :
    lastCpu (done ++ [r]) = r.cpuUtil := by simp [lastCpu]

theorem replaceZero_append (done : List DriverRecord) (r : DriverRecord) (rest : List DriverRecord) :
    replaceZero (done ++ r :: rest) done.length = done ++ carry (lastCpu done) r :: rest := by
  have here : (done ++ r :: rest)[done.length]? = some r := by simp
  cases done using List.reverseRecOn with
  | nil =>
      -- the first record stays, and its 0 counts as the value before it
      rw [show lastCpu [] = 0 from rfl, carry_zero]
      simp [replaceZero]
  | append_singleton done last =>
      have before : (done ++ [last] ++ r :: rest)[(done ++ [last]).length - 1]? = some last := by
        simp
      rw [replaceZero, here, before, lastCpu_snoc, carry]
      by_cases zero : r.cpuUtil = 0 <;> simp [zero]

/-- The tables and records when the rest of the first array has been drawn, with the
    records `second` of the second one. -/
def Charts.drawn (s : Charts) (first second done : List DriverRecord) : Charts where
  info1 := done ++ first
  cpu1 := s.cpu1 ++ first.map cpuRow
  mem1 := s.mem1 ++ first.map memRow
  cpu2 := s.cpu2 ++ second.map cpuRow
  mem2 := s.mem2 ++ second.map memRow

/-- The loop from any index on: it draws the rest of the first array and, if there is a second
    one, as much of that, unless it is too short. -/
theorem drawIndex_run (info2 : Option (List DriverRecord)) (done todo : List DriverRecord)
    {s : Charts} (split : s.info1 = done ++ todo) :
    wp (fold (fun _ i => drawIndex info2 i) () (List.range' done.length todo.length))
      (fun _ t => (∀ second ∈ info2, todo.length ≤ (second.drop done.length).length) ∧
        t = s.drawn (carryOn (lastCpu done) todo)
          (((info2.getD []).drop done.length).take todo.length) done)
      (fun _ _ => ∃ second ∈ info2, (second.drop done.length).length < todo.length) s := by
  induction todo generalizing done s with
  | nil =>
      obtain ⟨info1, cpu1, mem1, cpu2, mem2⟩ := s
      refine ⟨fun _ _ => Nat.zero_le _, ?_⟩
      simpa [Charts.drawn, carryOn] using split
  | cons r rest ih =>
      have replaced := replaceZero_append done r rest
      rw [← split] at replaced
      have here : (replaceZero s.info1 done.length)[done.length]? =
          some (carry (lastCpu done) r) := by
        simp [replaced]
      rw [List.length_cons, List.range'_succ, fold, drawIndex]
      simp only [wp_bind, wp_update, wp_read, element, here, wp_pure]
      have next := @ih (done ++ [carry (lastCpu done) r])
      rw [List.length_append, lastCpu_snoc] at next
      cases info2 with
      | none =>
          simp only [wp_update]
          refine wp_mono (next (by simp [addFirst, replaced])) (fun _ t drawn => ⟨by simp, ?_⟩)
            fun _ _ short => by simp at short
          rw [drawn.2]
          simp [Charts.drawn, addFirst, carryOn]
      | some second =>
          simp only [Option.mem_some_iff, forall_eq', exists_eq_left', Option.getD_some, wp_bind]
            at next ⊢
          cases there : second[done.length]? with
          | none =>
              have beyond := List.getElem?_eq_none_iff.mp there
              simp only [wp_stop, List.drop_eq_nil_of_le beyond]
              exact Nat.succ_pos _
          | some r2 =>
              obtain ⟨inside, rfl⟩ := List.getElem?_eq_some_iff.mp there
              rw [List.drop_eq_getElem_cons inside]
              simp only [wp_pure, wp_update]
              refine wp_mono (next (by simp [addFirst, addSecond, replaced]))
                (fun _ t drawn => ⟨Nat.succ_le_succ drawn.1, ?_⟩) fun _ _ short =>
                  Nat.succ_lt_succ short
              rw [drawn.2, List.take_succ_cons]
              simp [Charts.drawn, addFirst, addSecond, carryOn]

theorem drawChart_wp (info1 : List DriverRecord) (info2 : Option (List DriverRecord)) :
    wp (drawChart info2)
      (fun _ t => (∀ second ∈ info2, info1.length ≤ second.length) ∧ t = Charts.drawn
        { info1 := info1 } (carryOn 0 info1) ((info2.getD []).take info1.length) [])
      (fun _ _ => ∃ second ∈ info2, second.length < info1.length) { info1 := info1 } := by
  rw [drawChart]
  simp only [wp_bind, wp_read, List.range_eq_range']
  exact drawIndex_run info2 [] info1 rfl

theorem drawChart_ends {info1 : List DriverRecord} {info2 : Option (List DriverRecord)}
    (enough : ∀ second ∈ info2, info1.length ≤ second.length) :
    Ends (drawChart info2) { info1 := info1 } () (Charts.drawn { info1 := info1 } (carryOn 0 info1)
      ((info2.getD []).take info1.length) []) := by
  obtain ⟨_, t, ends, _, rfl⟩ := ends_of_unstopped (drawChart_wp info1 info2) fun _ _ stopped => by
    obtain ⟨second, member, short⟩ := stopped
    exact absurd (enough second member) (Nat.not_le.mpr short)
  exact ends

/-- Two versions. -/
theorem drawChart_both {info1 info2 : List DriverRecord} (enough : info1.length ≤ info2.length) :
    Ends (drawChart (some info2)) { info1 := info1 } ()
      (Charts.drawn { info1 := info1 } (carryOn 0 info1) (info2.take info1.length) []) :=
  drawChart_ends fun _ member => Option.some_inj.mp member ▸ enough

/-! ## Both versions in full -/

/-- A row that belongs to a record. -/
def RowOf (r : DriverRecord) (row : Row) : Prop :=
  row.time = r.startTime + r.initTime ∧ row.toolTip.driverName = r.deviceDriverName

/-- The chart is drawn without an exception and has one row per record in every table. -/
def PlottedInFull (info1 info2 : List DriverRecord) : Prop :=
  ∃ t, Ends (drawChart (some info2)) { info1 := info1 } () t ∧
    List.Forall₂ RowOf info1 t.cpu1 ∧ List.Forall₂ RowOf info1 t.mem1 ∧
    List.Forall₂ RowOf info2 t.cpu2 ∧ List.Forall₂ RowOf info2 t.mem2

theorem rowOf_map {row : DriverRecord → Row} (own : ∀ r, RowOf r (row r)) (info : List DriverRecord) :
    List.Forall₂ RowOf info (info.map row) := by
  induction info with
  | nil => exact .nil
  | cons r rest ih => exact .cons (own r) ih

/-- Carrying CPU values on changes no time and no name. -/
theorem rowOf_carryOn {row : DriverRecord → Row} (own : ∀ r, RowOf r (row r)) (previous : ℚ)
    (info : List DriverRecord) : List.Forall₂ RowOf info ((carryOn previous info).map row) := by
  induction info generalizing previous with
  | nil => exact .nil
  | cons r rest ih =>
      refine .cons ?_ (ih _)
      rw [carry]
      split
      · exact own { r with cpuUtil := previous }
      · exact own r

/-- Both versions are plotted in full exactly when they have the same number of records. -/
theorem plottedInFull_iff (info1 info2 : List DriverRecord) :
    PlottedInFull info1 info2 ↔ info1.length = info2.length := by
  constructor
  · rintro ⟨t, ends, -, -, cpu2, -⟩
    obtain ⟨enough, rfl⟩ := wp_ends (drawChart_wp info1 (some info2)) ends
    have long := enough info2 rfl
    have rows := cpu2.length_eq
    simp only [Charts.drawn, List.nil_append, List.length_map, List.length_take,
      Option.getD_some] at rows
    omega
  · intro same
    refine ⟨_, drawChart_both same.le, ?_⟩
    have whole : info2.take info1.length = info2 := by simp [same]
    rw [whole]
    refine ⟨?_, ?_, ?_, ?_⟩
    · exact rowOf_carryOn (fun r => ⟨rfl, rfl⟩) 0 info1
    · exact rowOf_carryOn (fun r => ⟨rfl, rfl⟩) 0 info1
    · exact rowOf_map (fun r => ⟨rfl, rfl⟩) info2
    · exact rowOf_map (fun r => ⟨rfl, rfl⟩) info2

/-- An initcall at second `n` with the given CPU value. -/
def sampleRecord (n : ℚ) (cpuUtil : ℚ) : DriverRecord where
  startTime := n
  initTime := 1 / 10
  cpuUtil := cpuUtil
  memUtil := 1 / 4
  deviceDriverName := "probe".toList
  returnValue := 0

/-- With fewer records of the second version the chart is not drawn, and with more of them
    the last ones are missing. -/
theorem longer_boot_not_plotted :
    (drawChart (some []) { info1 := [sampleRecord 1 (1 / 2)] }).1 = .error () ∧
      ¬ PlottedInFull [sampleRecord 1 (1 / 2)] [] ∧
      (drawChart (some [sampleRecord 1 (1 / 2)]) { info1 := [] }).2.cpu2 = [] ∧
      ¬ PlottedInFull [] [sampleRecord 1 (1 / 2)] := by
  refine ⟨rfl, ?_, rfl, ?_⟩
  · rw [plottedInFull_iff]
    decide
  · rw [plottedInFull_iff]
    decide

/-! ## The two places of a version -/

/-- Time, CPU value and memory value of the rows of a version. -/
def points (cpu mem : List Row) : List (ℚ × ℚ × ℚ) :=
  List.zipWith (fun c m => (c.time, c.value, m.value)) cpu mem

/-- The curves of a version as the first one, drawn with `other`. -/
def firstCurve (info other : List DriverRecord) : List (ℚ × ℚ × ℚ) :=
  let t := (drawChart (some other) { info1 := info }).2
  points t.cpu1 t.mem1

/-- The curves of a version as the second one, drawn with `other`. -/
def secondCurve (other info : List DriverRecord) : List (ℚ × ℚ × ℚ) :=
  let t := (drawChart (some info) { info1 := other }).2
  points t.cpu2 t.mem2

def point (r : DriverRecord) : ℚ × ℚ × ℚ := (r.startTime + r.initTime, r.cpuUtil * 100, r.memUtil * 100)

theorem points_map (info : List DriverRecord) :
    points (info.map cpuRow) (info.map memRow) = info.map point := by
  induction info with
  | nil => rfl
  | cons r rest ih => exact congrArg (point r :: ·) ih

theorem firstCurve_eq {info other : List DriverRecord} (same : other.length = info.length) :
    firstCurve info other = (carryOn 0 info).map point := by
  have ends := drawChart_both same.ge
  rw [firstCurve, ends]
  exact points_map _

theorem secondCurve_eq {info other : List DriverRecord} (same : other.length = info.length) :
    secondCurve other info = info.map point := by
  have ends := drawChart_both same.le
  rw [secondCurve, ends]
  have whole : info.take other.length = info := by simp [same]
  simpa [Charts.drawn, whole] using points_map info

/-- A CPU value of 0 stands only behind another one. -/
def ZerosFirst (previous : ℚ) (info : List DriverRecord) : Prop :=
  List.IsChain (fun a b => b = 0 → a = 0) (previous :: info.map DriverRecord.cpuUtil)

theorem carryOn_points_iff (previous : ℚ) (info : List DriverRecord) :
    (carryOn previous info).map point = info.map point ↔ ZerosFirst previous info := by
  induction info generalizing previous with
  | nil => simp [carryOn, ZerosFirst]
  | cons r rest ih =>
      have chain : ZerosFirst previous (r :: rest) ↔
          (r.cpuUtil = 0 → previous = 0) ∧ ZerosFirst r.cpuUtil rest := List.isChain_cons_cons
      have here : point (carry previous r) = point r ↔ (r.cpuUtil = 0 → previous = 0) := by
        by_cases zero : r.cpuUtil = 0 <;> simp [carry, point, zero]
      rw [chain, carryOn, List.map_cons, List.map_cons, List.cons.injEq, here]
      refine and_congr_right fun still => ?_
      have same : (carry previous r).cpuUtil = r.cpuUtil := by
        by_cases zero : r.cpuUtil = 0
        · simp [carry, zero, still zero]
        · simp [carry, zero]
      rw [same, ih]

theorem zerosFirst_zero (info : List DriverRecord) :
    ZerosFirst 0 info ↔ info.IsChain fun a b => b.cpuUtil = 0 → a.cpuUtil = 0 := by
  have chain := List.isChain_map (R := fun a b : ℚ => b = 0 → a = 0) (l := info) DriverRecord.cpuUtil
  cases info with
  | nil => simp [ZerosFirst]
  | cons r rest =>
      rw [← chain, ZerosFirst, List.map_cons, List.isChain_cons_cons]
      exact and_iff_right fun _ => rfl

/-- The curves of a version are the same in both places exactly when each of its CPU values
    that is 0, but for the first, comes right behind another 0. -/
theorem curves_agree_iff {info other other' : List DriverRecord}
    (length : other.length = info.length) (length' : other'.length = info.length) :
    firstCurve info other = secondCurve other' info ↔
      info.IsChain fun a b => b.cpuUtil = 0 → a.cpuUtil = 0 := by
  rw [firstCurve_eq length, secondCurve_eq length', carryOn_points_iff, zerosFirst_zero]

/-- Zeros at the beginning, before any other value. -/
theorem curves_agree_idle_start :
    firstCurve [sampleRecord 1 0, sampleRecord 2 0, sampleRecord 3 (1 / 2)]
        [sampleRecord 1 1, sampleRecord 2 1, sampleRecord 3 1] =
      secondCurve [sampleRecord 4 1, sampleRecord 5 1, sampleRecord 6 1]
        [sampleRecord 1 0, sampleRecord 2 0, sampleRecord 3 (1 / 2)] := by
  have zeros : [sampleRecord 1 0, sampleRecord 2 0, sampleRecord 3 (1 / 2)].IsChain
      fun a b => b.cpuUtil = 0 → a.cpuUtil = 0 := by decide +kernel
  refine (curves_agree_iff ?_ ?_).mpr zeros <;> rfl

/-- A value of 0 behind another one is drawn in the second place only. -/
theorem curve_depends_on_place :
    firstCurve [sampleRecord 1 (1 / 2), sampleRecord 2 0] [sampleRecord 1 1, sampleRecord 2 1] =
        [(11 / 10, 50, 25), (21 / 10, 50, 25)] ∧
      secondCurve [sampleRecord 1 1, sampleRecord 2 1] [sampleRecord 1 (1 / 2), sampleRecord 2 0] =
        [(11 / 10, 50, 25), (21 / 10, 0, 25)] ∧
      firstCurve [sampleRecord 1 (1 / 2), sampleRecord 2 0] [sampleRecord 1 1, sampleRecord 2 1] ≠
        secondCurve [sampleRecord 1 1, sampleRecord 2 1]
          [sampleRecord 1 (1 / 2), sampleRecord 2 0] := by
  decide +kernel

end OslabProfiler.Client
