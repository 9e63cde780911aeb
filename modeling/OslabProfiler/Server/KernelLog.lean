import OslabProfiler.Server.LogLines

/-! # The log of the patched kernel

The log of a boot that runs one built-in initcall after the other: the four lines
of each call in order, between whatever else the kernel prints. This is the
writing side of the format that `parse_dmesg` reads; at the end the two are put
together.
-/

namespace OslabProfiler.Server

open Lib

/-! ## The lines -/

/-- A built-in initcall with all that its lines say. The name is a C identifier
    that contains none of the words the parser looks for. -/
structure Initcall where
  name : Text
  offset : Nat
  size : Nat
  pid : Int
  cpu : CpuUsage
  memTotal : Int
  memFree : Int
  ret : Int
  duration : Int
  callTime : Stamp
  cpuTime : Stamp
  memTime : Stamp
  returnTime : Stamp
  identifier : isIdentifier name = true
  noNice : occurs "nice" name = false
  noMem : occurs "MemTotal" name = false
  memPositive : 0 < memTotal
  /-- The numbers are of the 64-bit types of the kernel. -/
  words : ((callTime.seconds : Int) :: memTotal :: memFree :: ret :: duration ::
    cpu.counters).all isWord64 = true := by decide

/-- `+%#lx/%#lx` behind the name of a symbol, without the `+`. -/
def Initcall.offsets (c : Initcall) : Text :=
  "0x".toList ++ Nat.toDigits 16 c.offset ++ "/0x".toList ++ Nat.toDigits 16 c.size

/-- `calling  %pS @ %i`. -/
def Initcall.callingLine (c : Initcall) : Text :=
  c.callTime.text ++ "calling  ".toList ++ c.name ++ "+".toList ++ c.offsets ++ " @ ".toList ++
    printInt c.pid

/-- The line of `get_cpu_usage`. -/
def Initcall.cpuLine (c : Initcall) : Text :=
  c.cpuTime.text ++ "[OSLAB] ".toList ++ "user : ".toList ++ Nat.toDigits 10 c.cpu.user ++
    ", nice : ".toList ++ Nat.toDigits 10 c.cpu.nice ++
    ", system : ".toList ++ printInt c.cpu.system ++
    ", idle : ".toList ++ Nat.toDigits 10 c.cpu.idle ++
    ", iowait : ".toList ++ Nat.toDigits 10 c.cpu.iowait ++
    ", irq : ".toList ++ Nat.toDigits 10 c.cpu.irq ++
    ", softirq : ".toList ++ Nat.toDigits 10 c.cpu.softirq

/-- The line of `get_mem_usage`. -/
def Initcall.memLine (c : Initcall) : Text :=
  c.memTime.text ++ "[OSLAB] ".toList ++ "MemTotal : ".toList ++ printInt c.memTotal ++
    ", MemFree : ".toList ++ printInt c.memFree

/-- `initcall %pS returned %d after %lld usecs`. -/
def Initcall.returnLine (c : Initcall) : Text :=
  c.returnTime.text ++ "initcall ".toList ++ c.name ++ "+".toList ++ c.offsets ++
    " returned ".toList ++ printInt c.ret ++ " after ".toList ++ printInt c.duration ++
    " usecs".toList

def Initcall.lines (c : Initcall) : List Text :=
  [c.callingLine, c.cpuLine, c.memLine, c.returnLine]

/-- `Woven own log`: the lines `own`, in order, between other lines of no interest. -/
inductive Woven : List Text → List Text → Prop where
  | nil : Woven [] []
  | own {l : Text} {own log : List Text} (rest : Woven own log) : Woven (l :: own) (l :: log)
  | other {l : Text} {own log : List Text} (unmarked : Unmarked l) (oneLine : '\n' ∉ l)
      (rest : Woven own log) : Woven own (l :: log)

/-! ## What the records should be -/

/-- The share of the time between two readings that was not idle. -/
def CpuUsage.load (new old : CpuUsage) : ℚ :=
  let user : ℚ := (new.user + new.nice) - (old.user + old.nice)
  let system : ℚ := (new.system + new.irq + new.softirq) - (old.system + old.irq + old.softirq)
  let idle : ℚ := new.idle - old.idle
  let iowait : ℚ := new.iowait - old.iowait
  min ((user + system) / max (user + system + idle + iowait) 1) 1

/-- The record of a call, from the call and the counters of the call before it. -/
def Initcall.record (before : Option CpuUsage) (c : Initcall) : DriverInfo where
  startTime := some (.rat c.callTime.value)
  deviceDriverName := some c.name
  memUtil := some (.rat ((c.memTotal - c.memFree) / c.memTotal))
  cpuUtil := some (.rat (before.elim 0 c.cpu.load))
  initTime := some (.rat (c.duration / 10 ^ 6))
  returnValue := some (.rat c.ret)

def records : Option CpuUsage → List Initcall → List DriverInfo
  | _, [] => []
  | before, c :: calls => c.record before :: records (some c.cpu) calls

/-! ## One call -/

namespace Initcall

variable (c : Initcall)

/-- The call as one of the executions whose lines are known. -/
def execution : Execution where
  symbol := ⟨c.name, c.offset, c.size, none, c.identifier, rfl⟩
  pid := c.pid
  cpu := c.cpu
  memTotal := c.memTotal
  memFree := c.memFree
  ret := c.ret
  duration := c.duration
  callTime := c.callTime
  cpuTime := c.cpuTime
  memTime := c.memTime
  returnTime := c.returnTime
  words := c.words

/-- The function is built in, so no module is named behind it. -/
theorem symbol_text : c.execution.symbol.text = c.name ++ "+".toList ++ c.offsets :=
  List.append_nil _

theorem lines_eq : c.lines = c.execution.lines := by
  have calling : c.callingLine = c.execution.callingLine := by
    rw [Execution.callingLine, c.symbol_text, callingLine]
    simp only [List.append_assoc]
    rfl
  have returning : c.returnLine = c.execution.returnLine := by
    rw [Execution.returnLine, c.symbol_text, returnLine]
    simp only [List.append_assoc]
    rfl
  rw [lines, calling, returning]
  rfl

theorem silent : c.execution.symbol.Silent := by
  simp [Symbol.Silent, Symbol.mentions, execution, c.noNice, c.noMem]

end Initcall

/-- The counters carried from one reading to the next; none before the first one. -/
def carried (before : Option CpuUsage) : List Num := before.elim [] CpuUsage.infos

theorem cpuUtil_carried (new : CpuUsage) (before : Option CpuUsage) :
    cpuUtil new.infos (carried before) = .rat (before.elim 0 new.load) := by
  cases before with
  | none => rfl
  | some old =>
      have nonzero : ∀ q : ℚ, max q 1 ≠ 0 := fun q => (lt_max_of_lt_right one_pos).ne'
      simp only [cpuUtil, elem, carried, CpuUsage.infos, Option.elim, List.getElem?_cons_zero,
        List.getElem?_cons_succ, Option.getD_some, Num.rat_add, Num.rat_sub, Num.rat_max,
        Num.rat_div _ (nonzero _), Num.isNaN, Num.gt, Bool.false_eq_true, if_false,
        decide_eq_true_eq, ← add_div]
      split
      case isTrue above => exact congrArg Num.rat (min_eq_right above.le).symm
      case isFalse within => exact congrArg Num.rat (min_eq_left (not_lt.mp within)).symm

theorem parseLines_lines (c : Initcall) (before : Option CpuUsage) (done : List DriverInfo) :
    parseLines c.lines { cpuInfos := carried before, obj := {}, infoArray := done } =
      { cpuInfos := carried (some c.cpu), obj := {}, infoArray := done ++ [c.record before] } := by
  have nonzero : (c.memTotal : ℚ) ≠ 0 := Int.cast_ne_zero.mpr c.memPositive.ne'
  have million : (1000000 : ℚ) ≠ 0 := by norm_num
  obtain ⟨ret, duration⟩ := c.execution.numberAt_returnLine rfl
  rw [parseLines, c.lines_eq, Execution.lines]
  simp only [List.foldl_cons, List.foldl_nil, c.execution.parseLine_callingLine c.silent,
    c.execution.parseLine_cpuLine, c.execution.parseLine_memLine,
    c.execution.parseLine_returnLine c.silent, ret, duration]
  simp only [Initcall.execution, cpuUtil_carried, Num.rat_sub, Num.rat_div _ nonzero,
    Num.rat_div _ million]
  norm_num [carried, Initcall.record]

theorem parseLines_calls (calls : List Initcall) (before : Option CpuUsage)
    (done : List DriverInfo) :
    (parseLines (calls.flatMap Initcall.lines)
      { cpuInfos := carried before, obj := {}, infoArray := done }).infoArray =
      done ++ records before calls := by
  induction calls generalizing before done with
  | nil => simp [parseLines, records]
  | cons c calls ih =>
      rw [List.flatMap_cons, parseLines_append, parseLines_lines, ih, records, List.append_assoc]
      rfl

/-- Lines of no interest change nothing. -/
theorem parseLines_woven {own log : List Text} (woven : Woven own log) (s : ParseState) :
    parseLines log s = parseLines own s := by
  induction woven generalizing s with
  | nil => rfl
  | own _ ih => exact ih _
  | other unmarked _ _ ih =>
      rw [parseLines, List.foldl_cons, parseLine_unmarked unmarked]
      exact ih s

/-! ## Reading the log back -/

theorem Woven.newline_not_mem {own log : List Text} (woven : Woven own log)
    (oneLine : ∀ l ∈ own, '\n' ∉ l) : ∀ l ∈ log, '\n' ∉ l := by
  induction woven with
  | nil => exact oneLine
  | own _ ih =>
      rw [List.forall_mem_cons] at oneLine ⊢
      exact ⟨oneLine.1, ih oneLine.2⟩
  | other _ isLine _ ih => exact List.forall_mem_cons.mpr ⟨isLine, ih oneLine⟩

/-- The parser gives back the calls of a log: one record for each, in order, whatever
    other lines stand between theirs. -/
theorem parseDmesg_inverts_log (calls : List Initcall) {log : List Text}
    (woven : Woven (calls.flatMap Initcall.lines) log) :
    parseDmesg (logText log) = records none calls := by
  have oneLine : ∀ l ∈ calls.flatMap Initcall.lines, '\n' ∉ l := by
    intro l member
    obtain ⟨c, _, line⟩ := List.mem_flatMap.mp member
    exact c.execution.newline_not_mem l (c.lines_eq ▸ line)
  rw [parseDmesg_logText (woven.newline_not_mem oneLine), parseLines_woven woven]
  exact parseLines_calls calls none []

def consoleInit : Initcall where
  name := "univ8250_console_init".toList
  offset := 0
  size := 68
  pid := 0
  cpu := ⟨0, 0, 0, 0, 0, 0, 0⟩
  memTotal := 744152
  memFree := 726980
  ret := 0
  duration := 0
  callTime := ⟨0, 801, by decide⟩
  cpuTime := ⟨0, 813, by decide⟩
  memTime := ⟨0, 819, by decide⟩
  returnTime := ⟨0, 846, by decide⟩
  identifier := by decide
  noNice := by decide
  noMem := by decide
  memPositive := by decide

example : consoleInit.lines =
    ["[    0.000801] calling  univ8250_console_init+0x0/0x44 @ 0".toList,
      ("[    0.000813] [OSLAB] user : 0, nice : 0, system : 0, idle : 0, iowait : 0, " ++
        "irq : 0, softirq : 0").toList,
      "[    0.000819] [OSLAB] MemTotal : 744152, MemFree : 726980".toList,
      "[    0.000846] initcall univ8250_console_init+0x0/0x44 returned 0 after 0 usecs".toList] := by
  decide +kernel

def busyProbe : Initcall where
  name := "busy_probe".toList
  offset := 0
  size := 48
  pid := 1
  cpu := ⟨2, 0, 1, 1, 0, 0, 0⟩
  memTotal := 744152
  memFree := 372076
  ret := -19
  duration := 1500
  callTime := ⟨1, 2836, by decide⟩
  cpuTime := ⟨1, 2851, by decide⟩
  memTime := ⟨1, 2858, by decide⟩
  returnTime := ⟨1, 2866, by decide⟩
  identifier := by decide
  noNice := by decide
  noMem := by decide
  memPositive := by decide

def twoCallsLog : List Text :=
  "[    0.000000] Booting Linux on physical CPU 0xf00".toList :: consoleInit.lines ++
    "".toList :: busyProbe.lines

theorem parseDmesg_twoCalls :
    parseDmesg (logText twoCallsLog) = records none [consoleInit, busyProbe] :=
  parseDmesg_inverts_log [consoleInit, busyProbe]
    (.other (by decide) (by decide) (.own (.own (.own (.own (.other (by decide) (by decide)
      (.own (.own (.own (.own .nil))))))))))

example : (records none [consoleInit, busyProbe]).map (·.cpuUtil) =
    [some (.rat 0), some (.rat (3 / 4))] := by
  decide +kernel

end OslabProfiler.Server
