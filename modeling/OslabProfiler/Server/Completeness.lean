import OslabProfiler.Server.ParseDmesg

/-! # When a record is complete

A record is closed by any line with `] initcall` in it, whatever came before. What
the record holds then was gathered from the lines since the last such line: the
last call, the last memory line and the CPU lines among them. On a log that was
cut off, or behind one of the kernel's own warnings, some of them are missing.
-/

namespace OslabProfiler.Server

open Lib

/-! ## Records and what they are gathered from -/

/-- A record with all its fields, and numbers where it has numbers. -/
structure DriverInfo.Complete (r : DriverInfo) : Prop where
  startTime : ∃ n, r.startTime = some n ∧ n.isNaN = false
  deviceDriverName : ∃ name, r.deviceDriverName = some name
  memUtil : ∃ n, r.memUtil = some n ∧ n.isNaN = false
  cpuUtil : ∃ n, r.cpuUtil = some n ∧ n.isNaN = false
  initTime : ∃ n, r.initTime = some n ∧ n.isNaN = false
  returnValue : ∃ n, r.returnValue = some n ∧ n.isNaN = false

/-- The lines, cut behind every line that closes a record; `open_` has been read
    before them. What follows the last such line belongs to no record. -/
def segments (open_ : List Text) : List Text → List (List Text)
  | [] => []
  | str :: lines =>
      if isClosing str then (open_ ++ [str]) :: segments [] lines
      else segments (open_ ++ [str]) lines

def lastCalling (seg : List Text) : Option Text := (seg.filter isCalling).getLast?

def lastMemory (seg : List Text) : Option Text := (seg.filter isMemory).getLast?

/-- The lines hold what a complete record needs: the last call has a time and a name,
    the last memory line two numbers that can be divided, there is a CPU line, and the
    last line has a duration and a return value. -/
structure Supplied (seg : List Text) : Prop where
  calling : ∃ str, lastCalling seg = some str ∧
    (numberAt (tokens isSeparator str) 0).isNaN = false ∧ 2 < (tokens isSeparator str).length
  memory : ∃ str, lastMemory seg = some str ∧ (memoryUse str).isNaN = false
  cpu : ∃ str ∈ seg, isCpu str = true
  closing : ∃ str, seg.getLast? = some str ∧
    (numberAt (tokens isSeparator str) 7).isNaN = false ∧
    (numberAt (tokens isSeparator str) 5).isNaN = false

/-- The record `obj` as the lines `seg` have filled it. -/
structure Gathered (seg : List Text) (obj : DriverInfo) : Prop where
  startTime : obj.startTime =
    (lastCalling seg).map fun str => numberAt (tokens isSeparator str) 0
  deviceDriverName : obj.deviceDriverName =
    (lastCalling seg).bind fun str => (tokens isSeparator str)[2]?
  memUtil : obj.memUtil = (lastMemory seg).map memoryUse
  cpuUtil : (∃ n, obj.cpuUtil = some n) ↔ ∃ str ∈ seg, isCpu str = true
  number : ∀ n, obj.cpuUtil = some n → n.isNaN = false

theorem gathered_nil : Gathered [] {} where
  startTime := rfl
  deviceDriverName := rfl
  memUtil := rfl
  cpuUtil := by simp
  number := by simp

/-- The load is a number even where the counters are none. -/
theorem cpuUtil_isNaN (new old : List Num) : (cpuUtil new old).isNaN = false := by
  unfold cpuUtil
  extract_lets user system idle iowait aSum raw util
  have ofUtil : util.isNaN = false := by
    unfold util
    split
    case isTrue => rfl
    case isFalse isNumber => exact Bool.eq_false_iff.mpr isNumber
  split
  · rfl
  · exact ofUtil

theorem lastCalling_snoc (seg : List Text) (str : Text) :
    lastCalling (seg ++ [str]) = if isCalling str then some str else lastCalling seg := by
  unfold lastCalling
  split <;> simp_all

theorem lastMemory_snoc (seg : List Text) (str : Text) :
    lastMemory (seg ++ [str]) = if isMemory str then some str else lastMemory seg := by
  unfold lastMemory
  split <;> simp_all

/-- One more line: a call is noted on every line, and the line itself may be a memory
    line or a CPU line. -/
theorem Gathered.snoc {seg : List Text} {obj obj' : DriverInfo} (gathered : Gathered seg obj)
    {str : Text} (startTime : obj'.startTime = (called str obj).startTime)
    (deviceDriverName : obj'.deviceDriverName = (called str obj).deviceDriverName)
    (memUtil : obj'.memUtil = if isMemory str then some (memoryUse str) else obj.memUtil)
    (cpuUtil : if isCpu str then ∃ n, obj'.cpuUtil = some n ∧ n.isNaN = false
      else obj'.cpuUtil = obj.cpuUtil) : Gathered (seg ++ [str]) obj' := by
  constructor
  · rw [startTime, called_startTime, lastCalling_snoc, gathered.startTime]
    split <;> rfl
  · rw [deviceDriverName, called_deviceDriverName, lastCalling_snoc, gathered.deviceDriverName]
    split <;> rfl
  · rw [memUtil, lastMemory_snoc, gathered.memUtil]
    split <;> rfl
  · cases cpu : isCpu str with
    | true =>
        rw [cpu, if_pos rfl] at cpuUtil
        obtain ⟨n, value, _⟩ := cpuUtil
        simp [value, cpu]
    | false =>
        rw [cpu, if_neg (by decide)] at cpuUtil
        rw [cpuUtil]
        simpa [cpu] using gathered.cpuUtil
  · intro n value
    cases cpu : isCpu str with
    | true =>
        rw [cpu, if_pos rfl] at cpuUtil
        obtain ⟨m, value', isNumber⟩ := cpuUtil
        rw [value, Option.some_inj] at value'
        rwa [value']
    | false =>
        rw [cpu, if_neg (by decide)] at cpuUtil
        exact gathered.number n (cpuUtil ▸ value)

/-- A line that closes nothing adds itself to what is gathered. -/
theorem gathered_parseLine {seg : List Text} {s : ParseState} (gathered : Gathered seg s.obj)
    {str : Text} (stillOpen : isClosing str = false) :
    Gathered (seg ++ [str]) (parseLine s str).obj ∧
      (parseLine s str).infoArray = s.infoArray := by
  rw [parseLine_eq]
  cases memory : isMemory str with
  | true =>
      refine ⟨gathered.snoc rfl rfl ?_ ?_, rfl⟩
      · simp [memory]
      · simp [not_isCpu_of_isMemory memory, called_cpuUtil]
  | false =>
      cases cpu : isCpu str with
      | true =>
          refine ⟨gathered.snoc rfl rfl ?_ ?_, rfl⟩
          · simp [memory, called_memUtil]
          · rw [cpu, if_pos rfl]
            exact ⟨_, rfl, cpuUtil_isNaN _ _⟩
      | false =>
          rw [stillOpen]
          refine ⟨gathered.snoc rfl rfl ?_ ?_, rfl⟩
          · simp [memory, called_memUtil]
          · simp [cpu, called_cpuUtil]

/-- The record which the lines `seg` make, the last of them closing it. -/
structure MadeOf (seg : List Text) (r : DriverInfo) : Prop where
  gathered : Gathered seg r
  initTime : r.initTime = (seg.getLast?).map fun str =>
    numberAt (tokens isSeparator str) 7 / .rat 1000000
  returnValue : r.returnValue = (seg.getLast?).map fun str => numberAt (tokens isSeparator str) 5

theorem madeOf_parseLine {seg : List Text} {s : ParseState} (gathered : Gathered seg s.obj)
    {str : Text} (closing : isClosing str = true) :
    ∃ r, MadeOf (seg ++ [str]) r ∧
      parseLine s str = { s with obj := {}, infoArray := s.infoArray ++ [r] } := by
  refine ⟨_, ?_, parseLine_closing closing⟩
  refine ⟨gathered.snoc rfl rfl ?_ ?_, ?_, ?_⟩
  · simp [not_isMemory_of_isClosing closing, called_memUtil]
  · simp [not_isCpu_of_isClosing closing, called_cpuUtil]
  · simp
  · simp

/-- The records of a log are made of its segments, one by one. -/
theorem parseLines_segments (lines seg : List Text) (s : ParseState)
    (gathered : Gathered seg s.obj) :
    ∃ rs, (parseLines lines s).infoArray = s.infoArray ++ rs ∧
      List.Forall₂ MadeOf (segments seg lines) rs := by
  induction lines generalizing seg s with
  | nil => exact ⟨[], by simp [parseLines], .nil⟩
  | cons str lines ih =>
      rw [parseLines, List.foldl_cons, ← parseLines]
      cases closing : isClosing str with
      | true =>
          obtain ⟨r, made, closed⟩ := madeOf_parseLine gathered closing
          obtain ⟨rs, records, each⟩ := ih [] (parseLine s str) (by rw [closed]; exact gathered_nil)
          refine ⟨r :: rs, ?_, ?_⟩
          · rw [records, closed, List.append_assoc, List.singleton_append]
          · rw [segments, if_pos closing]
            exact .cons made each
      | false =>
          obtain ⟨more, same⟩ := gathered_parseLine gathered closing
          obtain ⟨rs, records, each⟩ := ih (seg ++ [str]) (parseLine s str) more
          refine ⟨rs, by rw [records, same], ?_⟩
          rw [segments, if_neg (by simp [closing])]
          exact each

theorem Num.div_million_isNaN (n : Num) : (n / .rat 1000000).isNaN = n.isNaN := by
  cases n with
  | nan => rfl
  | inf negative => rfl
  | rat q =>
      rw [Num.rat_div q (by norm_num)]
      rfl

/-- A record is complete when its lines supply all that it needs. -/
theorem MadeOf.complete_iff {seg : List Text} {r : DriverInfo} (made : MadeOf seg r) :
    r.Complete ↔ Supplied seg := by
  constructor
  · intro complete
    constructor
    · obtain ⟨n, start, isNumber⟩ := complete.startTime
      obtain ⟨name, named⟩ := complete.deviceDriverName
      rw [made.gathered.startTime, Option.map_eq_some_iff] at start
      obtain ⟨str, last, rfl⟩ := start
      rw [made.gathered.deviceDriverName, last, Option.bind_some] at named
      exact ⟨str, last, isNumber, (List.getElem?_eq_some_iff.mp named).1⟩
    · obtain ⟨n, value, isNumber⟩ := complete.memUtil
      rw [made.gathered.memUtil, Option.map_eq_some_iff] at value
      obtain ⟨str, last, rfl⟩ := value
      exact ⟨str, last, isNumber⟩
    · obtain ⟨n, value, _⟩ := complete.cpuUtil
      exact made.gathered.cpuUtil.mp ⟨n, value⟩
    · obtain ⟨n, value, isNumber⟩ := complete.initTime
      obtain ⟨m, returned, isNumber'⟩ := complete.returnValue
      rw [made.initTime, Option.map_eq_some_iff] at value
      obtain ⟨str, last, rfl⟩ := value
      rw [made.returnValue, last, Option.map_some, Option.some_inj] at returned
      subst returned
      rw [Num.div_million_isNaN] at isNumber
      exact ⟨str, last, isNumber, isNumber'⟩
  · intro supplied
    obtain ⟨callStr, lastCall, time, name⟩ := supplied.calling
    obtain ⟨memStr, lastMem, use⟩ := supplied.memory
    obtain ⟨closeStr, last, duration, value⟩ := supplied.closing
    obtain ⟨load, hasLoad⟩ := made.gathered.cpuUtil.mpr supplied.cpu
    constructor
    · exact ⟨_, by rw [made.gathered.startTime, lastCall, Option.map_some], time⟩
    · exact ⟨_, by rw [made.gathered.deviceDriverName, lastCall, Option.bind_some,
        List.getElem?_eq_getElem name]⟩
    · exact ⟨_, by rw [made.gathered.memUtil, lastMem, Option.map_some], use⟩
    · exact ⟨load, hasLoad, made.gathered.number load hasLoad⟩
    · exact ⟨_, by rw [made.initTime, last, Option.map_some], by
        rw [Num.div_million_isNaN, duration]⟩
    · exact ⟨_, by rw [made.returnValue, last, Option.map_some], value⟩

/-- On any text all records are complete exactly when every segment of it supplies what
    its record needs. -/
theorem records_complete_iff (data : Text) :
    (∀ r ∈ parseDmesg data, r.Complete) ↔
      ∀ seg ∈ segments [] (data.splitOn '\n'), Supplied seg := by
  obtain ⟨rs, records, each⟩ := parseLines_segments (data.splitOn '\n') [] {} gathered_nil
  rw [parseDmesg, records, List.nil_append]
  clear records
  generalize segments [] (data.splitOn '\n') = segs at each ⊢
  induction each with
  | nil => simp
  | cons made _ ih => rw [List.forall_mem_cons, List.forall_mem_cons, made.complete_iff, ih]

/-- A total beyond the range of the doubles cannot be divided by itself. -/
example : (memoryUse "[    1.302110] [OSLAB] MemTotal : 1e309, MemFree : 5".toList).isNaN = true := by
  decide +kernel

/-- A log whose beginning is lost. -/
def cutLog : Text :=
  "[    1.304213] initcall phy_init+0x0/0xa4 returned 0 after 976 usecs".toList

/-- The call of its first record is lost with it. -/
theorem cutLog_incomplete : ¬ ∀ r ∈ parseDmesg cutLog, r.Complete := by
  intro complete
  have returned : parseDmesg cutLog =
      [{ initTime := some (.rat (61 / 62500)), returnValue := some (.rat 0) }] := by
    decide +kernel
  rw [returned, List.forall_mem_singleton] at complete
  obtain ⟨n, start, _⟩ := complete.startTime
  cases start

end OslabProfiler.Server
