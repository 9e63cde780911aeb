import OslabProfiler.BootGraph.Drawing
import OslabProfiler.Lib.Numbering

/-! # The boot graph that fits its canvas

`bootgraph.pl`, the script that the server runs, reads the log as the other script does. It
scales the time from the first start to the last end to 1950 units. There is no such scale if
the two are equal: the division fails, when the head of the file is already printed.
-/

namespace OslabProfiler.BootGraph.Fitted

open Lib

/-! ## The source -/

/-- The name of a call, rotated by 90 degrees; without a font size where there is room. -/
structure Label where
  x : ℚ
  y : ℚ
  fontSize : Option Nat
  deriving DecidableEq

/-- The `rect` that is printed for a call, with the text behind it. -/
structure Bar where
  key : Text
  x : ℚ
  width : ℚ
  y : ℚ
  height : ℚ
  style : Text
  label : Option Label
  deriving DecidableEq

inductive Output where
  /-- No data: a message and the usage go to the error output. -/
  | usage
  /-- The script ends in the division, behind the header. -/
  | dies (header : List Element)
  | svg (header : List Element) (bars : List Bar) (labels : List Element)
  deriving DecidableEq

section Script

variable (s : State)

def range : ℚ := s.maxtime - s.firsttime

def mult : ℚ := 1950 / range s

def threshold2 : ℚ := range s / 120

def threshold : ℚ := threshold2 s / 10

/-- A value that is not defined counts as 0. -/
def startOf (key : Text) : ℚ := (s.start.lookup key).getD 0

def endOf (key : Text) : ℚ := (s.ends.lookup key).getD 0

def duration (key : Text) : ℚ := endOf s key - startOf s key

def pidOf (key : Text) : Text := (s.pids.lookup key).getD []

def position (time : ℚ) : ℚ := (time - s.firsttime) * mult s

/-- The bar of a call in a given row. -/
def bar (row : Nat) (style key : Text) : Bar :=
  let x := position s (startOf s key)
  let width := position s (endOf s key) - x
  let y : ℚ := row * 150
  if (s.type.lookup key).getD 0 = 1 then ⟨key, x, width, y + 15, 115, styleWait, none⟩
  else
    ⟨key, x, width, y, 145, style,
      some (if threshold2 s ≤ duration s key then ⟨x + 6, y + 4, none⟩ else ⟨x + 1, y + 4, some 3⟩)⟩

/-- The variables of the loop over the calls, and what it has printed. -/
structure Pen where
  rows : Numbering Text := .startAt 1
  stylecounter : Nat := 0
  bars : List Bar := []

/-- One turn of the loop over the calls. -/
def drawCall (pen : Pen) (key : Text) : Pen :=
  if threshold s ≤ duration s key then
    { rows := pen.rows.add (pidOf s key)
      stylecounter := if 11 < pen.stylecounter + 1 then 0 else pen.stylecounter + 1
      bars := pen.bars ++
        [bar s (pen.rows.number (pidOf s key)) ((styles[pen.stylecounter]?).getD []) key] }
  else pen

/-- The loop of the time line, in less than `n` turns. -/
def timeLine : Nat → ℚ → Option (List Element)
  | 0, _ => none
  | n + 1, time =>
      if time < s.maxtime then
        (timeLine n (time + range s / 15)).map
          (.timeText (position s time) (truncate (time * 100) / 100) :: ·)
      else some []

end Script

/-- The script on a log; `none` if the time line takes `n` turns or more. -/
def bootgraph (order : HashOrder) (header : Option (Text × Text)) (n : Nat) (lines : List Text) :
    Option Output :=
  let s := readLog lines
  if s.count = 0 then some .usage
  else if range s = 0 then some (.dies (headerTexts header))
  else
    (timeLine s n s.firsttime).map
      (.svg (headerTexts header) ((initcalls order s).foldl (drawCall s) {}).bars)

/-! ## The loop over the calls -/

/-- Each call that is long enough has one bar, in the row of its process. -/
structure Pen.Drawn (s : State) (keys : List Text) (pen : Pen) : Prop where
  each : pen.bars.map Bar.key = keys.filter fun key => threshold s ≤ duration s key
  own : ∀ b ∈ pen.bars, ∃ row style, pen.rows.numbers.lookup (pidOf s b.key) = some row ∧
    b = bar s row style b.key

@[simp] theorem bar_key (s : State) (row : Nat) (style key : Text) :
    (bar s row style key).key = key := by
  simp only [bar]
  split <;> rfl

theorem Pen.Drawn.step {s : State} {keys : List Text} {pen : Pen} (drawn : pen.Drawn s keys)
    (key : Text) : (drawCall s pen key).Drawn s (keys ++ [key]) := by
  unfold drawCall
  by_cases long : threshold s ≤ duration s key
  · rw [if_pos long]
    constructor
    · simp [drawn.each, long]
    · intro b member
      cases List.mem_append.mp member with
      | inl earlier =>
          obtain ⟨row, style, there, eq⟩ := drawn.own b earlier
          exact ⟨row, style, Numbering.lookup_add_of_some _ there, eq⟩
      | inr new =>
          rw [List.mem_singleton.mp new, bar_key]
          exact ⟨_, _, Numbering.lookup_add_self _ _, rfl⟩
  · rw [if_neg long]
    exact ⟨by simp [drawn.each, long], drawn.own⟩

theorem drawn_run (s : State) (keys : List Text) : (keys.foldl (drawCall s) {}).Drawn s keys := by
  induction keys using List.reverseRecOn with
  | nil => exact ⟨rfl, fun b member => absurd member List.not_mem_nil⟩
  | append_singleton keys key ih =>
      rw [List.foldl_append]
      exact ih.step key

/-! ## The bars on the canvas -/

/-- The two bars have a point in common, their edges apart. -/
def Bar.Overlaps (a b : Bar) : Prop :=
  (a.x < b.x + b.width ∧ b.x < a.x + a.width) ∧ a.y < b.y + b.height ∧ b.y < a.y + a.height

/-- The calls are of one process, and each of them starts before the other one ends. -/
def Collide (s : State) (key key' : Text) : Prop :=
  (startOf s key < endOf s key' ∧ startOf s key' < endOf s key) ∧ pidOf s key = pidOf s key'

section Bars

variable {s : State}

theorem bar_x (row : Nat) (style key : Text) :
    (bar s row style key).x = position s (startOf s key) ∧
      (bar s row style key).x + (bar s row style key).width = position s (endOf s key) := by
  simp only [bar]
  split <;> simp

/-- A bar lies in the upper 145 units of its row, and has the middle of them. -/
theorem bar_y (row : Nat) (style key : Text) :
    (row * 150 : ℚ) ≤ (bar s row style key).y ∧ (bar s row style key).y ≤ row * 150 + 15 ∧
      (row * 150 + 130 : ℚ) ≤ (bar s row style key).y + (bar s row style key).height ∧
      (bar s row style key).y + (bar s row style key).height ≤ row * 150 + 145 := by
  simp only [bar]
  split
  · norm_num [add_assoc]
  · norm_num

theorem position_lt (positive : 0 < range s) (a b : ℚ) : position s a < position s b ↔ a < b := by
  have scale : 0 < mult s := div_pos (by norm_num) positive
  rw [position, position, mul_lt_mul_iff_left₀ scale, sub_lt_sub_iff_right]

theorem position_le (positive : 0 < range s) (a b : ℚ) : position s a ≤ position s b ↔ a ≤ b := by
  rw [← not_lt, position_lt positive, not_lt]

/-- Bars of different rows lie above each other. -/
theorem rows_overlap_iff (row row' : Nat) (style style' key key' : Text) :
    ((bar s row style key).y < (bar s row' style' key').y + (bar s row' style' key').height ∧
      (bar s row' style' key').y < (bar s row style key).y + (bar s row style key).height) ↔
      row = row' := by
  obtain ⟨top, high, low, bottom⟩ := bar_y (s := s) row style key
  obtain ⟨top', high', low', bottom'⟩ := bar_y (s := s) row' style' key'
  constructor
  · intro common
    by_contra other
    cases Nat.lt_or_gt_of_ne other with
    | inl above =>
        have next : (row + 1 : ℚ) ≤ row' := by exact_mod_cast above
        linarith [common.2]
    | inr below =>
        have next : (row' + 1 : ℚ) ≤ row := by exact_mod_cast below
        linarith [common.1]
  · rintro rfl
    constructor <;> linarith

theorem Pen.Drawn.overlaps_iff {keys : List Text} {pen : Pen} (drawn : pen.Drawn s keys)
    (positive : 0 < range s) {a b : Bar} (ha : a ∈ pen.bars) (hb : b ∈ pen.bars) :
    a.Overlaps b ↔ Collide s a.key b.key := by
  obtain ⟨row, style, there, eq⟩ := drawn.own a ha
  obtain ⟨row', style', there', eq'⟩ := drawn.own b hb
  have sameRow : row = row' ↔ pidOf s a.key = pidOf s b.key := by
    constructor
    · rintro rfl
      exact pen.rows.injective _ _ row there there'
    · intro same
      rw [same, there'] at there
      exact (Option.some.inj there).symm
  rw [eq, eq', Bar.Overlaps, rows_overlap_iff, (bar_x _ _ _).2, (bar_x _ _ _).2, (bar_x _ _ _).1,
    (bar_x _ _ _).1, position_lt positive, position_lt positive, bar_key, bar_key, sameRow, Collide]

/-- The scale is that of the whole boot on 1950 units. -/
theorem position_mul (nonzero : range s ≠ 0) (time : ℚ) :
    position s time * range s = 1950 * (time - s.firsttime) := by
  rw [position, mult]
  field_simp

theorem position_maxtime (nonzero : range s ≠ 0) : position s s.maxtime = 1950 := by
  have whole := position_mul nonzero s.maxtime
  rw [← range] at whole
  exact mul_right_cancel₀ nonzero whole

theorem position_firsttime : position s s.firsttime = 0 := by
  rw [position, sub_self, zero_mul]

end Bars

section Bounds

variable {now : ℚ} {s : State}

theorem startOf_bounds (bounded : Bounded now s) {key : Text} (called : key ∈ s.start) :
    s.firsttime ≤ startOf s key ∧ endOf s key ≤ s.maxtime := by
  constructor
  · obtain ⟨start, there⟩ := Option.isSome_iff_exists.mp (AList.lookup_isSome.mpr called)
    simp only [startOf, there, Option.getD_some]
    exact bounded.starts key start there
  · unfold endOf
    cases last : s.ends.lookup key with
    | none => exact bounded.nonneg
    | some time => exact bounded.ends key time last

/-- A call that is long enough takes a part of the boot that is not empty. -/
theorem long_bounds (bounded : Bounded now s) (nonzero : range s ≠ 0) {key : Text}
    (called : key ∈ s.start) (long : threshold s ≤ duration s key) :
    0 < range s ∧ startOf s key < endOf s key := by
  obtain ⟨first, last⟩ := startOf_bounds bounded called
  simp only [threshold, threshold2, duration, range] at long nonzero ⊢
  have nonneg : 0 ≤ s.maxtime - s.firsttime := by linarith
  have positive := lt_of_le_of_ne nonneg nonzero.symm
  constructor <;> linarith

end Bounds

/-! ## The time line -/

/-- The labels from the `k`-th on, of which there are `m`. -/
def labelsFrom (s : State) (k m : Nat) : List Element :=
  (List.range' k m).map fun i =>
    .timeText (130 * i) (truncate ((s.firsttime + i * (range s / 15)) * 100) / 100)

theorem timeLine_eq {s : State} (positive : 0 < range s) (m n k : Nat) (count : k + m = 15) :
    timeLine s (m + 1 + n) (s.firsttime + k * (range s / 15)) = some (labelsFrom s k m) := by
  induction m generalizing k with
  | zero =>
      have last : s.firsttime + k * (range s / 15) = s.maxtime := by
        rw [show k = 15 by omega, range]
        push_cast
        ring
      rw [Nat.zero_add, Nat.add_comm, timeLine, last, if_neg (lt_irrefl _)]
      rfl
  | succ m ih =>
      have early : (k : ℚ) < 15 := by exact_mod_cast (by omega : k < 15)
      have before : s.firsttime + k * (range s / 15) < s.maxtime := by
        have part : k * (range s / 15) < 15 * (range s / 15) := by gcongr
        rw [range] at part ⊢
        linarith
      have next : s.firsttime + k * (range s / 15) + range s / 15 =
          s.firsttime + ((k + 1 : Nat) : ℚ) * (range s / 15) := by
        push_cast
        ring
      have place : position s (s.firsttime + k * (range s / 15)) = 130 * k := by
        have nonzero := positive.ne'
        rw [position, mult]
        field_simp
        ring
      rw [show m + 1 + 1 + n = m + 1 + n + 1 by omega, timeLine, if_pos before, next,
        ih (k + 1) (by omega), place]
      rfl

theorem timeLine_more {s : State} {n : Nat} {time : ℚ} {labels : List Element}
    (ends : timeLine s n time = some labels) (m : Nat) : timeLine s (n + m) time = some labels := by
  induction n generalizing time labels with
  | zero => cases ends
  | succ n ih =>
      rw [timeLine] at ends
      rw [Nat.succ_add, timeLine]
      split_ifs at ends ⊢ with more
      · obtain ⟨rest, run, rfl⟩ := Option.map_eq_some_iff.mp ends
        rw [ih run, Option.map_some]
      · exact ends

/-- The labels of the time line: 15 in equal distances, or none if no time passes. -/
def timeLabels (s : State) : List Element := if 0 < range s then labelsFrom s 0 15 else []

theorem timeLine_firsttime (s : State) (n : Nat) :
    timeLine s (16 + n) s.firsttime = some (timeLabels s) := by
  rw [timeLabels]
  split_ifs with positive
  · simpa using timeLine_eq positive 15 n 0 rfl
  · have late : ¬ s.firsttime < s.maxtime := by
      rw [range] at positive
      linarith
    rw [Nat.add_comm, timeLine, if_neg late]

/-! ## The whole graph -/

/-- What a reader may take from a graph. -/
structure Shown (order : HashOrder) (s : State) (bars : List Bar) (labels : List Element) :
    Prop where
  /-- One bar for each call that is long enough, by the time of the start. -/
  each : bars.map Bar.key = (initcalls order s).filter fun key => threshold s ≤ duration s key
  inside : ∀ b ∈ bars, 0 ≤ b.x ∧ 0 < b.width ∧ b.x + b.width ≤ 1950
  scaled : ∀ b ∈ bars, b.x * range s = 1950 * (startOf s b.key - s.firsttime) ∧
    b.width * range s = 1950 * duration s b.key
  /-- Bars lie over each other only where a process makes two calls at the same time. -/
  overlaps : ∀ a ∈ bars, ∀ b ∈ bars, a.Overlaps b ↔ Collide s a.key b.key
  timeline : labels = timeLabels s

def Output.Shows (order : HashOrder) (s : State) : Output → Prop
  | .usage => s.count = 0
  | .dies _ => s.count ≠ 0 ∧ s.maxtime = s.firsttime
  | .svg _ bars labels => (s.count ≠ 0 ∧ s.maxtime ≠ s.firsttime) ∧ Shown order s bars labels

theorem range_eq_zero {s : State} : range s = 0 ↔ s.maxtime = s.firsttime := sub_eq_zero

theorem shown_of_bounded {now : ℚ} {s : State} (bounded : Bounded now s) (nonzero : range s ≠ 0)
    (order : HashOrder) :
    Shown order s ((initcalls order s).foldl (drawCall s) {}).bars (timeLabels s) := by
  have drawn := drawn_run s (initcalls order s)
  have long : ∀ b ∈ ((initcalls order s).foldl (drawCall s) {}).bars,
      b.key ∈ s.start ∧ threshold s ≤ duration s b.key := by
    intro b member
    have key : b.key ∈ (initcalls order s).filter fun key => threshold s ≤ duration s key :=
      drawn.each ▸ List.mem_map_of_mem member
    rw [List.mem_filter, decide_eq_true_eq, initcalls, List.mem_insertionSort,
      (order.perm _).mem_iff] at key
    exact ⟨AList.mem_keys.mp key.1, key.2⟩
  refine ⟨drawn.each, ?_, ?_, ?_, rfl⟩
  · intro b member
    obtain ⟨positive, takes⟩ := long_bounds bounded nonzero (long b member).1 (long b member).2
    obtain ⟨first, last⟩ := startOf_bounds bounded (long b member).1
    obtain ⟨row, style, -, eq⟩ := drawn.own b member
    obtain ⟨left, right⟩ := bar_x (s := s) row style b.key
    rw [← eq] at left right
    have ordered := (position_lt positive _ _).mpr takes
    refine ⟨?_, by linarith, ?_⟩
    · rw [left, ← position_firsttime (s := s)]
      exact (position_le positive _ _).mpr first
    · rw [right, ← position_maxtime nonzero]
      exact (position_le positive _ _).mpr last
  · intro b member
    obtain ⟨row, style, -, eq⟩ := drawn.own b member
    obtain ⟨left, right⟩ := bar_x (s := s) row style b.key
    rw [← eq] at left right
    have start := position_mul nonzero (startOf s b.key)
    have last := position_mul nonzero (endOf s b.key)
    rw [← left] at start
    rw [← right, add_mul] at last
    exact ⟨start, by rw [duration]; linarith⟩
  · intro a ha b hb
    exact drawn.overlaps_iff (long_bounds bounded nonzero (long a ha).1 (long a ha).2).1 ha hb

/-- For a log with times that do not decrease, the script ends, and what it draws shows the
    calls as they were read. -/
theorem fitted_shows (order : HashOrder) (header : Option (Text × Text)) {lines : List Text}
    (sorted : (logTimes lines).Pairwise (· ≤ ·)) :
    (∃ out, bootgraph order header 16 lines = some out) ∧
      ∀ n out, bootgraph order header n lines = some out → out.Shows order (readLog lines) := by
  obtain ⟨last, bounded⟩ := readLog_bounded sorted
  constructor
  · rw [← Option.isSome_iff_exists, bootgraph]
    split_ifs
    · rfl
    · rfl
    · rw [timeLine_firsttime _ 0]
      rfl
  · intro n out run
    rw [bootgraph] at run
    split_ifs at run with empty zero
    · cases run
      exact empty
    · cases run
      exact ⟨empty, range_eq_zero.mp zero⟩
    · obtain ⟨labels, ends, rfl⟩ := Option.map_eq_some_iff.mp run
      have all := timeLine_more ends 16
      rw [Nat.add_comm, timeLine_firsttime, Option.some.injEq] at all
      rw [← all]
      exact ⟨⟨empty, mt range_eq_zero.mpr zero⟩, shown_of_bounded bounded zero order⟩

def sampleBars : List Bar :=
  [⟨"probe".toList, 0, 2925 / 2, 150, 145, fillStyle 0 0 255 1, some ⟨6, 154, none⟩⟩,
    ⟨"wait_7_1".toList, 975, 975, 315, 115, styleWait, none⟩]

theorem fitted_shows_sampleLog :
    (bootgraph keptOrder none 16 sampleLog).map (fun
      | .svg _ bars labels => (bars, labels.length)
      | _ => ([], 0)) = some (sampleBars, 15) ∧
      ∀ n out, bootgraph keptOrder none n sampleLog = some out →
        out.Shows keptOrder (readLog sampleLog) := by
  refine ⟨?_, (fitted_shows keptOrder none ?_).2⟩
  · rw [bootgraph, readLog, sampleLog_events]
    decide +kernel
  · rw [logTimes, sampleLog_events]
    decide +kernel

end OslabProfiler.BootGraph.Fitted
