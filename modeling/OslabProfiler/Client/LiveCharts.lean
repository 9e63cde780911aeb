import OslabProfiler.Lib.Command
import OslabProfiler.Lib.Window
import OslabProfiler.Server.Number

/-! # The live charts

Two charts of the second page show the last rows of a table that grows. Every tick of
a timer removes the first row if there are ten, and sends a request; the reply inserts
rows whenever it comes. The processor chart has buttons that insert a row as well, and
its initialisation, which inserts one more row with every reply, since it never gets
to the end: it refers to a variable that does not exist where it stands.
-/

namespace OslabProfiler.Client

open Lib Server Command Lib.Window

/-! ## The source -/

/-- A row of a chart; `none` is an empty cell. -/
structure LiveRow where
  time : Text
  value : Option Server.Num
  valueMem : Option Server.Num
  deriving DecidableEq

/-- The rows `drawChart` and `drawChart2` begin with. -/
def initialRows : List LiveRow :=
  [⟨[], some (.rat 0), some (.rat 0)⟩, ⟨[], some (.rat 1), some (.rat 1)⟩]

/-- The number of rows from which on a row is removed. -/
def maxRows : Nat := 10

/-- What a tick does to the table. -/
def removeFirst (rows : List LiveRow) : List LiveRow :=
  if maxRows ≤ rows.length then rows.tail else rows

/-- A field of a reply. -/
inductive Field where
  | number (n : Server.Num)
  | null
  | undefined
  /-- A text or an object, with what `Number` makes of it. -/
  | other (n : Server.Num)
  deriving DecidableEq

/-- `Math.floor`. -/
def Field.floor : Field → Server.Num
  | .number (.rat q) | .other (.rat q) => .rat q.floor
  | .number n | .other n => n
  | .null => .rat 0
  | .undefined => .nan

/-- A field as the value of a cell; `none` if `addRow` throws. -/
def Field.cell : Field → Option (Option Server.Num)
  | .number n => some (some n)
  | .null | .undefined => some none
  | .other _ => none

/-! ### cpuUsageChart.js -/

inductive CpuEvent where
  | tick
  | reply (now : Text) (usage memoryUsage : Field)
  deriving DecidableEq

/-- `animateRenewal` up to its request, and what is done with the reply. -/
def animateRenewal (rows : List LiveRow) : CpuEvent → List LiveRow
  | .tick => removeFirst rows
  | .reply now usage memoryUsage => rows ++ [⟨now, usage.floor, memoryUsage.floor⟩]

/-! ### processStatus.js -/

structure Processor where
  name : Text
  cpuUsage : Field
  memUsage : Field
  deriving DecidableEq

/-- A reply of `/process_info`, with its keys in the order of enumeration. -/
abbrev Processors := List (Text × Processor)

/-- A button with what its listener has captured. -/
structure Button where
  textContent : Text
  processorKey : Text
  data : Processors

structure ProcessChart where
  rows : List LiveRow
  selectedProcessor : Option Text
  initialized : Bool
  buttons : List Button

def ProcessChart.initial : ProcessChart := ⟨initialRows, none, false, []⟩

/-- What runs in one turn; an exception ends it. -/
abbrev Handler := Command ProcessChart Unit

def insertRow (row : LiveRow) : Handler Unit := update fun s => { s with rows := s.rows ++ [row] }

/-- The figures of the selected key. A key that is missing gives `undefined`; keys such as
    `toString`, under which every object inherits a function, are left out. -/
def updateChart (now selectedProcessor : Text) (data : Processors) : Handler Unit :=
  match data.lookup selectedProcessor with
  | some processorData =>
      insertRow ⟨now, processorData.cpuUsage.floor, processorData.memUsage.floor⟩
  | none => stop ()

/-- One turn of the loop of `createButtons`. -/
def createButton (now : Text) (data : Processors) (entry : Text × Processor) : Handler Unit := do
  update fun s => { s with buttons := s.buttons ++ [⟨entry.2.name, entry.1, data⟩] }
  if (← read ProcessChart.selectedProcessor) = none then do
    update fun s => { s with selectedProcessor := some entry.1 }
    updateChart now entry.1 data
  else pure ()

def createButtons (now : Text) (data : Processors) : Handler Unit := do
  update fun s => { s with buttons := [] }
  fold (fun _ entry => createButton now data entry) () data

def addRow (now : Text) (initialProcessor : Processor) : Handler Unit :=
  match initialProcessor.cpuUsage.cell, initialProcessor.memUsage.cell with
  | some value, some valueMem => insertRow ⟨now, value, valueMem⟩
  | _, _ => stop ()

def initializeChartAndButtons (now : Text) (data : Processors) : Handler Unit :=
  match data.head? with
  | none => stop ()
  | some first => do
      createButtons now data
      addRow now first.2
      -- `json` is not defined here
      if (← read ProcessChart.initialized) = false then stop () else pure ()

/-- `!selectedProcessor`. -/
def notSelected (selectedProcessor : Option Text) : Bool :=
  selectedProcessor = none || selectedProcessor = some []

/-- The key whose figures a reply shows. -/
def shownKey (selectedProcessor : Option Text) (json : Processors) : Option Text :=
  if notSelected selectedProcessor then json.head?.map (·.1) else selectedProcessor

/-- The name under which `json[selectedProcessor]` looks. -/
def keyName (selectedProcessor : Option Text) : Text := selectedProcessor.getD "undefined".toList

/-- What `animateRenewal2` does with a reply. -/
def showReply (now : Text) (json : Processors) : Handler Unit := do
  update fun s => { s with selectedProcessor := shownKey s.selectedProcessor json }
  let selected ← read ProcessChart.selectedProcessor
  -- the same lines as in `updateChart`
  updateChart now (keyName selected) json
  if (← read ProcessChart.initialized) = false then do
    initializeChartAndButtons now json
    update fun s => { s with initialized := true }
  else pure ()

/-- The listener of a button. -/
def clickButton (now : Text) (button : Button) : Handler Unit := do
  update fun s => { s with selectedProcessor := some button.processorKey }
  updateChart now button.processorKey button.data

inductive ProcessEvent where
  | tick
  | reply (now : Text) (json : Processors)
  | click (now : Text) (button : Nat)
  deriving DecidableEq

/-- `animateRenewal2`, its replies, and the buttons that are there. -/
def ProcessChart.step (s : ProcessChart) : ProcessEvent → ProcessChart
  | .tick => { s with rows := removeFirst s.rows }
  | .reply now json => (showReply now json s).2
  | .click now button =>
      match s.buttons[button]? with
      | some button => (clickButton now button s).2
      | none => s

/-! ## What the events do to the tables -/

/-- After every event of the sequence the chart has at most ten rows. -/
def CpuBounded (events : List CpuEvent) : Prop :=
  ∀ before, before <+: events → (before.foldl animateRenewal initialRows).length ≤ maxRows

def ProcessBounded (events : List ProcessEvent) : Prop :=
  ∀ before, before <+: events →
    (before.foldl ProcessChart.step ProcessChart.initial).rows.length ≤ maxRows

/-- A reply inserts a row. -/
def cpuChange : CpuEvent → Change
  | .tick => .tick
  | .reply _ _ _ => .insert 1

/-- The rows of a reply: none if there are no figures of the selected processor, else one
    for them and one for the first processor of the reply, if its figures are numbers. -/
def replyRows (s : ProcessChart) (json : Processors) : Nat :=
  if (json.lookup (keyName (shownKey s.selectedProcessor json))).isNone then 0
  else if json.head?.any fun first =>
    first.2.cpuUsage.cell.isSome && first.2.memUsage.cell.isSome then 2 else 1

def clickRows (s : ProcessChart) (button : Nat) : Nat :=
  if (s.buttons[button]?).any fun button => (button.data.lookup button.processorKey).isSome
    then 1 else 0

def processChange (s : ProcessChart) : ProcessEvent → Change
  | .tick => .tick
  | .reply _ json => .insert (replyRows s json)
  | .click _ button => .insert (clickRows s button)

def cpuChanges (events : List CpuEvent) : List Change :=
  changes animateRenewal (fun _ => cpuChange) initialRows events

def processChanges (events : List ProcessEvent) : List Change :=
  changes ProcessChart.step processChange ProcessChart.initial events

theorem length_removeFirst (rows : List LiveRow) :
    (removeFirst rows).length = grow maxRows rows.length .tick := by
  rw [removeFirst, grow]
  split_ifs <;> simp

theorem length_animateRenewal (rows : List LiveRow) (e : CpuEvent) :
    (animateRenewal rows e).length = grow maxRows rows.length (cpuChange e) := by
  cases e with
  | tick => exact length_removeFirst rows
  | reply now usage memoryUsage => simp [animateRenewal, cpuChange, grow]

section Process

variable {s : ProcessChart} {now : Text}

/-- The chart after `n` more rows, still not initialised. -/
def Grown (s : ProcessChart) (n : Nat) (t : ProcessChart) : Prop :=
  t.rows.length = s.rows.length + n ∧ t.initialized = s.initialized

theorem updateChart_wp (key : Text) (data : Processors) :
    wp (updateChart now key data)
      (fun _ t => (data.lookup key).isSome ∧ Grown s 1 t ∧
        t.selectedProcessor = s.selectedProcessor)
      (fun _ t => (data.lookup key).isNone ∧ Grown s 0 t) s := by
  rw [updateChart]
  cases data.lookup key with
  | none => exact ⟨rfl, rfl, rfl⟩
  | some processor => exact ⟨rfl, ⟨by simp, rfl⟩, rfl⟩

/-- With a selected processor the buttons are created without a new row. -/
theorem createButtons_wp (data : Processors) (selected : s.selectedProcessor ≠ none) :
    wp (createButtons now data) (fun _ t => Grown s 0 t) (fun _ _ => False) s := by
  rw [createButtons, wp_bind, wp_update]
  refine wp_mono (wp_fold
    (fun _ _ t => Grown s 0 t ∧ t.selectedProcessor = s.selectedProcessor) ?_ ⟨⟨rfl, rfl⟩, rfl⟩)
    (fun _ _ kept => kept.1) fun _ _ h => h
  intro _ entry rest t kept
  have still : t.selectedProcessor ≠ none := kept.2 ▸ selected
  simp only [createButton, wp_bind, wp_update, wp_read, wp_ite, still, false_implies, true_and,
    not_false_eq_true, wp_pure, true_implies]
  exact kept

theorem addRow_wp (first : Processor) :
    wp (addRow now first)
      (fun _ t => (first.cpuUsage.cell.isSome && first.memUsage.cell.isSome) = true ∧ Grown s 1 t)
      (fun _ t => (first.cpuUsage.cell.isSome && first.memUsage.cell.isSome) = false ∧
        Grown s 0 t) s := by
  rw [addRow]
  cases first.cpuUsage.cell <;> cases first.memUsage.cell
  all_goals first
    | exact ⟨rfl, rfl, rfl⟩
    | exact ⟨rfl, by simp, rfl⟩

theorem Grown.trans {t u : ProcessChart} {m n : Nat} (first : Grown s m t) (second : Grown t n u) :
    Grown s (m + n) u :=
  ⟨by rw [second.1, first.1, Nat.add_assoc], second.2.trans first.2⟩

/-- The initialisation never ends; it leaves one row, if the first processor has figures. -/
theorem initializeChartAndButtons_wp {json : Processors} {first : Text × Processor}
    (head : json.head? = some first) (selected : s.selectedProcessor ≠ none)
    (fresh : s.initialized = false) :
    wp (initializeChartAndButtons now json) (fun _ _ => False)
      (fun _ t => Grown s
        (if first.2.cpuUsage.cell.isSome && first.2.memUsage.cell.isSome then 1 else 0) t) s := by
  simp only [initializeChartAndButtons, head, wp_bind]
  refine wp_mono (createButtons_wp json selected) (fun _ t created => ?_) fun _ _ h => h.elim
  refine wp_mono (addRow_wp first.2) (fun _ u added => ?_) fun _ u added => ?_
  · have grown := created.trans added.2
    have still : u.initialized = false := grown.2.trans fresh
    simpa [still, added.1] using grown
  · simpa [added.1] using created.trans added.2

/-- A reply to a chart that is not initialised, which it is not afterwards either. -/
theorem showReply_wp (json : Processors) (fresh : s.initialized = false) :
    wp (showReply now json) (fun _ _ => False) (fun _ t => Grown s (replyRows s json) t) s := by
  simp only [showReply, wp_bind, wp_update, wp_read, replyRows]
  refine wp_mono (updateChart_wp _ _) (fun _ t shown => ?_) fun _ t missing => ?_
  · obtain ⟨there, grown, selected⟩ := shown
    have unset : t.initialized = false := grown.2.trans fresh
    cases head : json.head? with
    | none =>
        rw [List.head?_eq_none_iff.mp head] at there
        cases there
    | some first =>
        have chosen : t.selectedProcessor ≠ none := by
          rw [selected]
          simp only [shownKey, head, Option.map_some]
          split_ifs with falsy
          · simp
          · intro none
            simp [notSelected, none] at falsy
        simp only [wp_ite, unset, wp_bind, true_implies, not_true_eq_false, false_implies, and_true]
        refine wp_mono (initializeChartAndButtons_wp head chosen unset) (fun _ _ h => h.elim)
          fun _ u started => ?_
        have rows := grown.trans started
        rw [if_neg (by simpa using there), Option.any_some]
        split_ifs at rows ⊢ <;> exact rows
  · rw [if_pos missing.1]
    exact missing.2

theorem clickButton_wp (button : Button) :
    wp (clickButton now button)
      (fun _ t => (button.data.lookup button.processorKey).isSome ∧ Grown s 1 t)
      (fun _ t => (button.data.lookup button.processorKey).isNone ∧ Grown s 0 t) s := by
  simp only [clickButton, wp_bind, wp_update]
  exact wp_mono (updateChart_wp _ _) (fun _ _ shown => ⟨shown.1, shown.2.1⟩) fun _ _ missing => missing

theorem grown_click (s : ProcessChart) (now : Text) (button : Nat) :
    Grown s (clickRows s button) (s.step (.click now button)) := by
  rw [clickRows, ProcessChart.step]
  cases s.buttons[button]? with
  | none => exact ⟨rfl, rfl⟩
  | some button =>
      rw [Option.any_some]
      apply wp_final
      refine wp_mono (clickButton_wp button) (fun _ t shown => ?_) fun _ t missing => ?_
      · rw [if_pos shown.1]
        exact shown.2
      · rw [if_neg (by simp [Option.isNone_iff_eq_none.mp missing.1])]
        exact missing.2

/-- Every event grows the table as it should, and none of them completes the initialisation. -/
theorem step_grows (e : ProcessEvent) (fresh : s.initialized = false) :
    (s.step e).initialized = false ∧
      (s.step e).rows.length = grow maxRows s.rows.length (processChange s e) := by
  cases e with
  | tick => exact ⟨fresh, length_removeFirst s.rows⟩
  | reply now json =>
      have grown : Grown s (replyRows s json) (s.step (.reply now json)) :=
        wp_final (wp_mono (showReply_wp json fresh) (fun _ _ h => h.elim) fun _ _ grown => grown)
      exact ⟨grown.2.trans fresh, grown.1⟩
  | click now button =>
      have grown := grown_click s now button
      exact ⟨grown.2.trans fresh, grown.1⟩

end Process

/-! ## The bound of the charts -/

/-- Each chart keeps to ten rows exactly when every insertion finds room: as long as all the
    rows since the beginning fit it does, and later on it has to be of one row and come
    behind a tick since the insertion before. -/
theorem liveCharts_bounded_iff (cpuEvents : List CpuEvent) (processEvents : List ProcessEvent) :
    (CpuBounded cpuEvents ↔ Room maxRows 2 (cpuChanges cpuEvents)) ∧
      (ProcessBounded processEvents ↔ Room maxRows 2 (processChanges processEvents)) := by
  constructor
  · exact bounded_iff_room List.length (fun _ => True)
      (fun rows e _ => ⟨trivial, length_animateRenewal rows e⟩) trivial (by decide) (by decide)
      cpuEvents
  · exact bounded_iff_room (fun s : ProcessChart => s.rows.length) (fun s => s.initialized = false)
      (fun s e fresh => step_grows e fresh) rfl (by decide) (by decide) processEvents

/-- Every reply answers an earlier tick. -/
def Answered {ε : Type} (isTick isReply : ε → Bool) (events : List ε) : Prop :=
  ∀ before ∈ events.inits, before.countP isReply ≤ before.countP isTick

instance {ε : Type} (isTick isReply : ε → Bool) (events : List ε) :
    Decidable (Answered isTick isReply events) :=
  inferInstanceAs (Decidable (∀ before ∈ events.inits, _))

def CpuEvent.isTick : CpuEvent → Bool
  | .tick => true
  | _ => false

def CpuEvent.isReply : CpuEvent → Bool
  | .reply _ _ _ => true
  | _ => false

def ProcessEvent.isTick : ProcessEvent → Bool
  | .tick => true
  | _ => false

def ProcessEvent.isReply : ProcessEvent → Bool
  | .reply _ _ => true
  | _ => false

def cpuReply : CpuEvent := .reply "12:00:00".toList (.number (.rat (25 / 2))) (.number (.rat 40))

/-- The replies come in time until the table is full, and then one of them comes late. -/
def lateReply : List CpuEvent :=
  (List.replicate 8 [CpuEvent.tick, cpuReply]).flatten ++ [.tick, .tick, cpuReply, cpuReply]

def processReply : ProcessEvent :=
  .reply "12:00:00".toList
    [("0".toList, ⟨"bash".toList, .number (.rat (25 / 2)), .number (.rat 40)⟩)]

/-- Every reply comes before the next tick, and no button is clicked. -/
def promptReplies : List ProcessEvent := (List.replicate 5 [ProcessEvent.tick, processReply]).flatten

theorem charts_exceed_ten_rows :
    Answered CpuEvent.isTick CpuEvent.isReply lateReply ∧
      (lateReply.foldl animateRenewal initialRows).length = 11 ∧ ¬ CpuBounded lateReply ∧
      Answered ProcessEvent.isTick ProcessEvent.isReply promptReplies ∧
      (promptReplies.foldl ProcessChart.step ProcessChart.initial).rows.length = 11 ∧
      ¬ ProcessBounded promptReplies := by
  have cpu : (lateReply.foldl animateRenewal initialRows).length = 11 := by decide +kernel
  have process : (promptReplies.foldl ProcessChart.step ProcessChart.initial).rows.length = 11 := by
    decide +kernel
  refine ⟨by decide +kernel, cpu, fun bounded => ?_, by decide +kernel, process, fun bounded => ?_⟩
  · exact absurd (bounded _ List.prefix_rfl) (by rw [cpu]; decide)
  · exact absurd (bounded _ List.prefix_rfl) (by rw [process]; decide)

end OslabProfiler.Client
