import OslabProfiler.Server.Number

/-! # Reading a boot log

`parse_dmesg` goes through the lines of a kernel log and collects one record per
initcall. A record is filled by up to four lines; the CPU counters of the line
before are carried along, so that a record holds the load between two of them.
-/

namespace OslabProfiler.Server

open Lib

/-- `str.search(pat) != -1`, for a pattern without special characters. -/
def occurs (pat : String) (str : Text) : Bool := decide (pat.toList <:+: str)

/-- The class `[\[\]+,: ]`. -/
def isSeparator (c : Char) : Bool :=
  c = '[' || c = ']' || c = '+' || c = ',' || c = ':' || c = ' '

/-- A record under construction; a field that was not assigned is `none`. -/
structure DriverInfo where
  startTime : Option Num := none
  deviceDriverName : Option Text := none
  memUtil : Option Num := none
  cpuUtil : Option Num := none
  initTime : Option Num := none
  returnValue : Option Num := none
  deriving DecidableEq

structure ParseState where
  cpuInfos : List Num := []
  obj : DriverInfo := {}
  infoArray : List DriverInfo := []

/-- An array element in arithmetic: `undefined` counts as `NaN`. -/
def elem (l : List Num) (i : Nat) : Num := (l[i]?).getD .nan

def cpuUtil (new old : List Num) : Num :=
  let user := (elem new 0 + elem new 1) - (elem old 0 + elem old 1)
  let system := (elem new 2 + elem new 5 + elem new 6) - (elem old 2 + elem old 5 + elem old 6)
  let idle := elem new 3 - elem old 3
  let iowait := elem new 4 - elem old 4
  let aSum := Num.max (user + system + idle + iowait) (.rat 1)
  let util := user / aSum + system / aSum
  let util := if util.isNaN then .rat 0 else util
  if util.gt (.rat 1) then .rat 1 else util

/-- One turn of the loop over the lines. -/
def parseLine (s : ParseState) (str : Text) : ParseState :=
  if !occurs "] initcall" str && !occurs "OSLAB" str && !occurs "] calling" str then s
  else
    let strList := tokens isSeparator str
    let obj :=
      if occurs "] calling" str then
        { s.obj with startTime := some (numberAt strList 0), deviceDriverName := strList[2]? }
      else s.obj
    if occurs "MemTotal" str then
      let memTotal := numberAt strList 3
      let memFree := numberAt strList 5
      { s with obj := { obj with memUtil := some ((memTotal - memFree) / memTotal) } }
    else if occurs "nice" str then
      let newCpuInfos := [3, 5, 7, 9, 11, 13, 15].map (numberAt strList)
      { s with
        cpuInfos := newCpuInfos
        obj := { obj with cpuUtil := some (cpuUtil newCpuInfos s.cpuInfos) } }
    else if occurs "] initcall" str then
      let done :=
        { obj with
          initTime := some (numberAt strList 7 / .rat 1000000)
          returnValue := some (numberAt strList 5) }
      { s with obj := {}, infoArray := s.infoArray ++ [done] }
    else { s with obj := obj }

def parseLines (lines : List Text) (s : ParseState) : ParseState := lines.foldl parseLine s

/-- The records of a log, from the text of its file. -/
def parseDmesg (data : Text) : List DriverInfo := (parseLines (data.splitOn '\n') {}).infoArray

/-! ## What a line is taken for -/

def isMarked (str : Text) : Bool :=
  occurs "] initcall" str || occurs "OSLAB" str || occurs "] calling" str

def isCalling (str : Text) : Bool := occurs "] calling" str

def isMemory (str : Text) : Bool := isMarked str && occurs "MemTotal" str

def isCpu (str : Text) : Bool := isMarked str && !occurs "MemTotal" str && occurs "nice" str

/-- A line that ends a record. -/
def isClosing (str : Text) : Bool :=
  !occurs "MemTotal" str && !occurs "nice" str && occurs "] initcall" str

def memoryUse (str : Text) : Num :=
  (numberAt (tokens isSeparator str) 3 - numberAt (tokens isSeparator str) 5) /
    numberAt (tokens isSeparator str) 3

/-- The record once the line is known to be, or not to be, a call. -/
def called (str : Text) (obj : DriverInfo) : DriverInfo :=
  if isCalling str then
    { obj with
      startTime := some (numberAt (tokens isSeparator str) 0)
      deviceDriverName := (tokens isSeparator str)[2]? }
  else obj

theorem called_startTime (str : Text) (obj : DriverInfo) : (called str obj).startTime =
    if isCalling str then some (numberAt (tokens isSeparator str) 0) else obj.startTime := by
  unfold called
  split <;> rfl

theorem called_deviceDriverName (str : Text) (obj : DriverInfo) :
    (called str obj).deviceDriverName =
      if isCalling str then (tokens isSeparator str)[2]? else obj.deviceDriverName := by
  unfold called
  split <;> rfl

theorem called_memUtil (str : Text) (obj : DriverInfo) : (called str obj).memUtil = obj.memUtil := by
  unfold called
  split <;> rfl

theorem called_cpuUtil (str : Text) (obj : DriverInfo) : (called str obj).cpuUtil = obj.cpuUtil := by
  unfold called
  split <;> rfl

theorem called_of_not_calling {str : Text} (noCalling : isCalling str = false)
    (obj : DriverInfo) : called str obj = obj := by
  rw [called, noCalling]
  rfl

/-- A line is taken for one thing at most, besides a call. -/
theorem not_isCpu_of_isMemory {str : Text} (memory : isMemory str = true) : isCpu str = false := by
  rw [isMemory, Bool.and_eq_true] at memory
  simp [isCpu, memory.2]

theorem not_isMemory_of_isClosing {str : Text} (closing : isClosing str = true) :
    isMemory str = false := by
  simp_all [isClosing, isMemory]

theorem not_isCpu_of_isClosing {str : Text} (closing : isClosing str = true) :
    isCpu str = false := by
  simp_all [isClosing, isCpu]

/-- What one turn of the loop can do, by what the line is taken for. -/
theorem parseLine_eq (s : ParseState) (str : Text) :
    parseLine s str =
      if isMemory str then
        { s with obj := { called str s.obj with memUtil := some (memoryUse str) } }
      else if isCpu str then
        let newCpuInfos := [3, 5, 7, 9, 11, 13, 15].map (numberAt (tokens isSeparator str))
        { s with
          cpuInfos := newCpuInfos
          obj := { called str s.obj with cpuUtil := some (cpuUtil newCpuInfos s.cpuInfos) } }
      else if isClosing str then
        { s with
          obj := {}
          infoArray := s.infoArray ++
            [{ called str s.obj with
               initTime := some (numberAt (tokens isSeparator str) 7 / .rat 1000000)
               returnValue := some (numberAt (tokens isSeparator str) 5) }] }
      else { s with obj := called str s.obj } := by
  cases initcall : occurs "] initcall" str <;> cases oslab : occurs "OSLAB" str <;>
    cases calling : occurs "] calling" str <;> cases mem : occurs "MemTotal" str <;>
    cases nice : occurs "nice" str <;>
    simp [parseLine, isMemory, isCpu, isClosing, isMarked, isCalling, called, memoryUse, initcall,
      oslab, calling, mem, nice]

/-- A line that closes nothing notes a call if it is one, and pushes no record. -/
theorem parseLine_open {s : ParseState} {str : Text} (stillOpen : isClosing str = false) :
    (parseLine s str).infoArray = s.infoArray ∧
      (parseLine s str).obj.startTime = (called str s.obj).startTime ∧
      (parseLine s str).obj.deviceDriverName = (called str s.obj).deviceDriverName := by
  rw [parseLine_eq, stillOpen]
  split
  · exact ⟨rfl, rfl, rfl⟩
  · split <;> exact ⟨rfl, rfl, rfl⟩

theorem parseLine_memory {s : ParseState} {str : Text} (memory : isMemory str = true) :
    parseLine s str =
      { s with obj := { called str s.obj with memUtil := some (memoryUse str) } } := by
  rw [parseLine_eq, memory]
  rfl

theorem parseLine_cpu {s : ParseState} {str : Text} (cpu : isCpu str = true) :
    parseLine s str =
      let newCpuInfos := [3, 5, 7, 9, 11, 13, 15].map (numberAt (tokens isSeparator str))
      { s with
        cpuInfos := newCpuInfos
        obj := { called str s.obj with cpuUtil := some (cpuUtil newCpuInfos s.cpuInfos) } } := by
  have noMemory : isMemory str = false := by
    cases memory : isMemory str with
    | false => rfl
    | true => simp [not_isCpu_of_isMemory memory] at cpu
  rw [parseLine_eq, noMemory, cpu]
  rfl

theorem parseLine_closing {s : ParseState} {str : Text} (closing : isClosing str = true) :
    parseLine s str =
      { s with
        obj := {}
        infoArray := s.infoArray ++
          [{ called str s.obj with
             initTime := some (numberAt (tokens isSeparator str) 7 / .rat 1000000)
             returnValue := some (numberAt (tokens isSeparator str) 5) }] } := by
  rw [parseLine_eq, not_isMemory_of_isClosing closing, not_isCpu_of_isClosing closing, closing]
  rfl

/-- A line the parser passes over. -/
def Unmarked (str : Text) : Prop :=
  occurs "] initcall" str = false ∧ occurs "OSLAB" str = false ∧ occurs "] calling" str = false

instance (str : Text) : Decidable (Unmarked str) := inferInstanceAs (Decidable (_ ∧ _))

theorem parseLine_unmarked {s : ParseState} {str : Text} (unmarked : Unmarked str) :
    parseLine s str = s := by
  simp [parseLine, unmarked.1, unmarked.2.1, unmarked.2.2]

end OslabProfiler.Server
