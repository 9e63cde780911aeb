import OslabProfiler.BootGraph.Log

/-! # The boot graph

The script draws one bar per call that takes long enough, in the row of its process, and a
time line on top. One second is 1500 units wide, and the canvas is a little wider than the
time from the first start to the last end. The width of the canvas may be negative, if no
end is read after the first start; then nothing is drawn on it.
-/

namespace OslabProfiler.BootGraph

open Lib

/-! ## The source -/

/-- What is printed between the tags of the `svg` element. -/
inductive Element where
  /-- A text of the header. -/
  | headerText (x y : ℚ) (content : Text)
  | rect (x width y height : ℚ) (style : Text)
  /-- The name of a call, rotated by 90 degrees. -/
  | callText (x y : ℚ) (fontSize : Nat) (key : Text)
  /-- A label of the time line. -/
  | timeText (x tm : ℚ)
  deriving DecidableEq

inductive Output where
  /-- No data: a message and the usage go to the error output. -/
  | usage
  | svg (width height : ℚ) (elements : List Element)
  deriving DecidableEq

def mult : ℚ := 1500

/-- `$mh_width`. -/
def State.width (s : State) : ℚ := (s.maxtime - s.firsttime) * mult * (1007 / 1000)

def State.threshold (s : State) : ℚ := (s.maxtime - s.firsttime) / 120 / 10

def fillStyle (red green blue strokeWidth : Nat) : Text :=
  "fill:rgb(".toList ++ Nat.toDigits 10 red ++ ',' :: Nat.toDigits 10 green ++
    ',' :: Nat.toDigits 10 blue ++ ");fill-opacity:0.5;stroke-width:".toList ++
    Nat.toDigits 10 strokeWidth ++ ";stroke:rgb(0,0,0)".toList

def styles : List Text :=
  [fillStyle 0 0 255 1, fillStyle 0 255 0 1, fillStyle 255 0 20 1, fillStyle 255 255 20 1,
    fillStyle 255 0 255 1, fillStyle 0 255 255 1, fillStyle 0 128 255 1, fillStyle 0 255 128 1,
    fillStyle 255 0 128 1, fillStyle 255 255 128 1, fillStyle 255 128 255 1, fillStyle 128 255 255 1]

def styleWait : Text := fillStyle 128 128 128 0

/-- The variables of the loop over the calls, and what it has printed. -/
structure Pen where
  rows : AList fun _ : Text => Nat := ∅
  rowscount : Nat := 1
  stylecounter : Nat := 0
  printed : List Element := []

/-- The row of a process, which may be a new one. -/
def Pen.row (pen : Pen) (pid : Text) : Nat := (pen.rows.lookup pid).getD pen.rowscount

def Pen.addRow (pen : Pen) (pid : Text) : Pen :=
  if (pen.rows.lookup pid).isSome then pen
  else { pen with rows := pen.rows.insert pid pen.rowscount, rowscount := pen.rowscount + 1 }

def Pen.print (pen : Pen) (elements : List Element) : Pen :=
  { pen with
    stylecounter := if 11 < pen.stylecounter + 1 then 0 else pen.stylecounter + 1
    printed := pen.printed ++ elements }

/-- The bar of a call, and its name if the call is long enough for it. -/
def bar (type : Nat) (style key : Text) (x width y duration : ℚ) : List Element :=
  if type = 1 then [.rect x width (y + 15) 325 styleWait]
  else
    .rect x width y 325 style ::
      if 2 / 100 ≤ duration then [.callText (x + 6) (y + 4) 30 key]
      else if 5 / 1000 < duration then [.callText (x + 1) (y + 4) 18 key]
      else []

/-- One turn of the loop over the calls; a value that is not defined counts as 0. -/
def drawCall (s : State) (pen : Pen) (key : Text) : Pen :=
  let start := (s.start.lookup key).getD 0
  let last := (s.ends.lookup key).getD 0
  let duration := last - start
  if s.threshold ≤ duration then
    let pid := (s.pids.lookup key).getD []
    let x := (start - s.firsttime) * mult
    let e := (last - s.firsttime) * mult
    (pen.addRow pid).print (bar ((s.type.lookup key).getD 0) ((styles[pen.stylecounter]?).getD [])
      key x (e - x) (pen.row pid * 150) duration)
  else pen

/-- The order in which the keys of a hash are enumerated. -/
structure HashOrder where
  keys : List Text → List Text
  perm : ∀ l, (keys l).Perm l

/-- `@initcalls`. -/
def initcalls (order : HashOrder) (s : State) : List Text :=
  (order.keys s.start.keys).insertionSort fun a b =>
    (s.start.lookup a).getD 0 ≤ (s.start.lookup b).getD 0

/-- `int`. -/
def truncate (q : ℚ) : ℚ := q.num.tdiv q.den

/-- The loop of the time line, in less than `n` turns. -/
def timeLine (s : State) : Nat → ℚ → Option (List Element)
  | 0, _ => none
  | n + 1, time =>
      if time < s.maxtime then
        (timeLine s n (time + 1 / 10)).map
          (.timeText ((time - s.firsttime) * mult) (truncate (time * 100) / 100) :: ·)
      else some []

/-- The texts for the option `-header`: version and date. -/
def headerTexts : Option (Text × Text) → List Element
  | none => []
  | some (version, date) =>
      [.headerText 15 25 ("Kernel version: ".toList ++ version),
        .headerText 15 45 ("Date: ".toList ++ date)]

/-- The script on a log; `none` if the time line takes `n` turns or more. -/
def bootgraph (order : HashOrder) (header : Option (Text × Text)) (n : Nat) (lines : List Text) :
    Option Output :=
  let s := readLog lines
  if s.count = 0 then some .usage
  else
    (timeLine s n s.firsttime).map fun labels =>
      .svg s.width 1000
        (headerTexts header ++ ((initcalls order s).foldl (drawCall s) {}).printed ++ labels)

/-! ## The bars -/

/-- A bar or a label of the time line is on a canvas of the given width. -/
def Element.Inside (canvas : ℚ) : Element → Prop
  | .rect x width _ _ _ => 0 ≤ x ∧ 0 ≤ width ∧ x + width ≤ canvas
  | .timeText x _ => 0 ≤ x ∧ x ≤ canvas
  | _ => True

def Output.Inside : Output → Prop
  | .usage => True
  | .svg width _ elements => ∀ e ∈ elements, e.Inside width

section Bars

variable {now : ℚ} {s : State}

/-- A bar that passes the threshold is on the canvas: its duration is at most that of the
    whole boot, which is not negative then. -/
theorem bar_bounds {start last : ℚ} (first : s.firsttime ≤ start) (final : last ≤ s.maxtime)
    (long : s.threshold ≤ last - start) :
    let x := (start - s.firsttime) * mult
    let width := (last - s.firsttime) * mult - x
    0 ≤ x ∧ 0 ≤ width ∧ x + width ≤ s.width := by
  intro x width
  rw [State.threshold] at long
  have whole : 0 ≤ s.maxtime - s.firsttime := by linarith
  have positive : 0 ≤ last - start := le_trans (by positivity) long
  simp only [x, width, State.width, mult]
  refine ⟨?_, ?_, ?_⟩ <;> linarith

theorem inside_bar {canvas x width : ℚ} (type : Nat) (style key : Text) (y duration : ℚ)
    (bounds : 0 ≤ x ∧ 0 ≤ width ∧ x + width ≤ canvas) :
    ∀ e ∈ bar type style key x width y duration, e.Inside canvas := by
  intro e member
  rw [bar] at member
  split_ifs at member
  all_goals
    simp only [List.mem_cons, List.not_mem_nil, or_false] at member
    first
      | subst member; exact bounds
      | obtain rfl | rfl := member
        · exact bounds
        · trivial

theorem Bounded.drawCall (bounded : Bounded now s) {key : Text} (called : key ∈ s.start) {pen : Pen}
    (inside : ∀ e ∈ pen.printed, e.Inside s.width) :
    ∀ e ∈ (drawCall s pen key).printed, e.Inside s.width := by
  obtain ⟨start, there⟩ := Option.isSome_iff_exists.mp (AList.lookup_isSome.mpr called)
  have final : (s.ends.lookup key).getD 0 ≤ s.maxtime := by
    cases last : s.ends.lookup key with
    | none => exact bounded.nonneg
    | some t => exact bounded.ends key t last
  rw [BootGraph.drawCall]
  dsimp only
  split_ifs with long
  · rw [there] at long ⊢
    intro e member
    have unchanged : (pen.addRow ((s.pids.lookup key).getD [])).printed = pen.printed := by
      rw [Pen.addRow]
      split <;> rfl
    rw [Pen.print, unchanged, List.mem_append] at member
    cases member with
    | inl earlier => exact inside e earlier
    | inr new => exact inside_bar _ _ _ _ _ (bar_bounds (bounded.starts key start there) final long) e new
  · exact inside

theorem Bounded.drawCalls (bounded : Bounded now s) (keys : List Text) (called : ∀ key ∈ keys, key ∈ s.start)
    {pen : Pen} (inside : ∀ e ∈ pen.printed, e.Inside s.width) :
    ∀ e ∈ (keys.foldl (BootGraph.drawCall s) pen).printed, e.Inside s.width := by
  induction keys generalizing pen with
  | nil => exact inside
  | cons key keys ih =>
      obtain ⟨here, later⟩ := List.forall_mem_cons.mp called
      exact ih later (bounded.drawCall here inside)

end Bars

/-! ## The time line -/

theorem timeLine_ends (s : State) (n : Nat) (time : ℚ) (near : s.maxtime - time ≤ n / 10) :
    (timeLine s (n + 1) time).isSome := by
  induction n generalizing time with
  | zero =>
      rw [timeLine, if_neg]
      · rfl
      · norm_num at near
        exact not_lt.mpr near
  | succ n ih =>
      rw [timeLine]
      split
      · rw [Option.isSome_map]
        apply ih
        push_cast at near
        linarith
      · rfl

theorem inside_timeLine {s : State} {n : Nat} {time : ℚ} {labels : List Element}
    (ends : timeLine s n time = some labels) (first : s.firsttime ≤ time) :
    ∀ e ∈ labels, e.Inside s.width := by
  induction n generalizing time labels with
  | zero => cases ends
  | succ n ih =>
      rw [timeLine] at ends
      split_ifs at ends with more
      · obtain ⟨rest, run, rfl⟩ := Option.map_eq_some_iff.mp ends
        rw [List.forall_mem_cons]
        refine ⟨?_, ih run (by linarith)⟩
        have left : 0 ≤ time - s.firsttime := by linarith
        have right : time - s.firsttime ≤ s.maxtime - s.firsttime := by linarith
        simp only [Element.Inside, State.width, mult]
        constructor <;> linarith
      · cases ends
        simp

/-! ## The whole graph -/

/-- For a log with times that do not decrease, the script ends and draws all bars and labels
    of the time line on its canvas. -/
theorem bootgraph_inside (order : HashOrder) (header : Option (Text × Text)) {lines : List Text}
    (sorted : (logTimes lines).Pairwise (· ≤ ·)) :
    (∃ n out, bootgraph order header n lines = some out) ∧
      ∀ n out, bootgraph order header n lines = some out → out.Inside := by
  obtain ⟨last, bounded⟩ := readLog_bounded sorted
  have called : ∀ key ∈ initcalls order (readLog lines), key ∈ (readLog lines).start := by
    intro key member
    rw [initcalls, List.mem_insertionSort, (order.perm _).mem_iff] at member
    exact AList.mem_keys.mp member
  constructor
  · obtain ⟨n, enough⟩ := exists_nat_ge (((readLog lines).maxtime - (readLog lines).firsttime) * 10)
    obtain ⟨labels, ends⟩ := Option.isSome_iff_exists.mp
      (timeLine_ends (readLog lines) n (readLog lines).firsttime (by linarith))
    by_cases empty : (readLog lines).count = 0
    · exact ⟨0, .usage, by simp only [bootgraph, empty, if_true]⟩
    · exact ⟨n + 1, _, by simp only [bootgraph, empty, if_false, ends, Option.map_some]; rfl⟩
  · intro n out run
    rw [bootgraph] at run
    split_ifs at run
    · cases run
      trivial
    · obtain ⟨labels, ends, rfl⟩ := Option.map_eq_some_iff.mp run
      intro e member
      rw [List.mem_append, List.mem_append] at member
      obtain (heading | drawn) | label := member
      · cases header with
        | none => cases heading
        | some texts =>
            obtain rfl | rfl := List.mem_pair.mp heading <;> trivial
      · exact bounded.drawCalls _ called (fun e none => by cases none) e drawn
      · exact inside_timeLine ends le_rfl e label

/-- Keys in the order in which they are kept. -/
def keptOrder : HashOrder := ⟨id, fun _ => .refl _⟩

def sampleLog : List Text :=
  ["[1.0] calling  probe+ @ 1", "[1.1] async_waiting @ 7", "[1.15] initcall probe+ returned",
    "[1.2] async_continuing @ 7", "[1.2] calling  late+ @ 1"].map String.toList

/-- A call, a process that waits, and a call that does not return. -/
theorem sampleLog_events : sampleLog.flatMap lineEvents =
    [.calling 1 "probe".toList (some ['1']), .waiting (11 / 10) ['7'],
      .returned (23 / 20) "probe".toList, .continuing (6 / 5) ['7'],
      .calling (6 / 5) "late".toList (some ['1'])] := by
  decide +kernel

theorem sampleLog_inside :
    bootgraph keptOrder none 4 sampleLog =
        some (.svg (3021 / 10) 1000
          [.rect 0 225 150 325 (fillStyle 0 0 255 1), .callText 6 154 30 "probe".toList,
            .rect 150 150 315 325 styleWait, .timeText 0 1, .timeText 150 (11 / 10)]) ∧
      ∀ n out, bootgraph keptOrder none n sampleLog = some out → out.Inside := by
  refine ⟨?_, (bootgraph_inside keptOrder none ?_).2⟩
  · rw [bootgraph, readLog, sampleLog_events]
    decide +kernel
  · rw [logTimes, sampleLog_events]
    decide +kernel

end OslabProfiler.BootGraph
