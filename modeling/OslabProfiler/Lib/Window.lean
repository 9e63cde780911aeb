import OslabProfiler.Lib.Prefixes

/-! # A window that is trimmed at its own times

A window grows by the rows that are inserted and loses one row at a tick, if it is
full then. Ticks and insertions come in any order. The window stays within its capacity
exactly when every insertion that does not fit from the start is of a single row and
has a tick between itself and the insertion before it.
-/

namespace Lib.Window

inductive Change where
  | tick
  | insert (rows : Nat)
  deriving DecidableEq

variable (capacity : Nat)

def grow (size : Nat) : Change → Nat
  | .tick => if capacity ≤ size then size - 1 else size
  | .insert rows => size + rows

def sizeAfter (start : Nat) (changes : List Change) : Nat := changes.foldl (grow capacity) start

/-- The number of rows that are inserted altogether. -/
def inserted (changes : List Change) : Nat :=
  (changes.map fun change => match change with
    | .tick => 0
    | .insert rows => rows).sum

/-- There was a tick since the last insertion of a row. -/
def ticked (changes : List Change) : Bool :=
  changes.foldl (fun since change => match change with
    | .tick => true
    | .insert rows => since && rows = 0) false

def Within (start : Nat) (changes : List Change) : Prop :=
  ∀ before, before <+: changes → sizeAfter capacity start before ≤ capacity

/-- Every insertion finds room. -/
def Room (start : Nat) (changes : List Change) : Prop :=
  ∀ before rows, before ++ [.insert rows] <+: changes → rows ≠ 0 →
    start + inserted before + rows ≤ capacity ∨ rows = 1 ∧ ticked before = true

section Snoc

variable {capacity} {start : Nat} {changes : List Change}

theorem sizeAfter_snoc (change : Change) :
    sizeAfter capacity start (changes ++ [change]) =
      grow capacity (sizeAfter capacity start changes) change := by
  simp [sizeAfter]

@[simp] theorem inserted_snoc_tick : inserted (changes ++ [.tick]) = inserted changes := by
  simp [inserted]

@[simp] theorem inserted_snoc_insert (rows : Nat) :
    inserted (changes ++ [.insert rows]) = inserted changes + rows := by
  simp [inserted]

@[simp] theorem ticked_snoc_tick : ticked (changes ++ [.tick]) = true := by simp [ticked]

@[simp] theorem ticked_snoc_insert (rows : Nat) :
    ticked (changes ++ [.insert rows]) = (ticked changes && rows = 0) := by simp [ticked]

end Snoc

variable {capacity} {start : Nat}

/-- As long as the window is within its capacity, its size is known: all rows that were
    inserted, or the capacity, or one less after a tick. -/
theorem Within.size {changes : List Change} (positive : 0 < capacity) (low : start ≤ capacity)
    (within : Within capacity start changes) :
    sizeAfter capacity start changes =
      if start + inserted changes < capacity then start + inserted changes
      else if ticked changes = true then capacity - 1 else capacity := by
  induction changes using List.reverseRecOn with
  | nil =>
      simp only [sizeAfter, inserted, ticked, List.foldl_nil, List.map_nil, List.sum_nil,
        Bool.false_eq_true, if_false]
      split_ifs <;> omega
  | append_singleton changes change ih =>
      obtain ⟨earlier, last⟩ := forall_prefix_snoc.mp within
      have size := ih earlier
      cases change with
      | tick =>
          rw [sizeAfter_snoc, grow]
          simp only [inserted_snoc_tick, ticked_snoc_tick, if_true]
          split_ifs at size ⊢ <;> omega
      | insert rows =>
          rw [sizeAfter_snoc, grow] at last ⊢
          simp only [inserted_snoc_insert, ticked_snoc_insert]
          cases since : ticked changes <;>
            simp only [since, Bool.false_and, Bool.true_and, Bool.false_eq_true, if_false, if_true,
              decide_eq_true_eq] at size ⊢ <;>
            split_ifs at size ⊢ <;> omega

/-- What one change asks for. -/
theorem size_snoc_le_iff {before : List Change} (positive : 0 < capacity) (low : start ≤ capacity)
    (within : Within capacity start before) (change : Change) :
    sizeAfter capacity start (before ++ [change]) ≤ capacity ↔
      ∀ rows, change = .insert rows → rows ≠ 0 →
        start + inserted before + rows ≤ capacity ∨ rows = 1 ∧ ticked before = true := by
  rw [sizeAfter_snoc]
  cases change with
  | tick =>
      have size := within before List.prefix_rfl
      have still : grow capacity (sizeAfter capacity start before) .tick ≤ capacity := by
        rw [grow]
        split_ifs <;> omega
      simpa using still
  | insert rows =>
      simp only [Change.insert.injEq, forall_eq']
      rw [grow, within.size positive low]
      split_ifs with fits since
      · omega
      · simp only [since, and_true]
        omega
      · simp only [since, Bool.false_eq_true, and_false, or_false]
        omega

theorem within_iff_room (positive : 0 < capacity) (low : start ≤ capacity)
    (changes : List Change) : Within capacity start changes ↔ Room capacity start changes := by
  rw [Within, forall_prefix_iff_forall_event low
    fun before change _ within => size_snoc_le_iff positive low within change]
  constructor
  · intro each before rows along
    exact each before (.insert rows) along rows rfl
  · rintro room before _ along rows rfl
    exact room before rows along

/-! ## A machine that holds such a window -/

section Machine

variable {σ ε : Type} (step : σ → ε → σ) (change : σ → ε → Change)

/-- What the events do to the window. -/
def changes (s : σ) : List ε → List Change
  | [] => []
  | e :: events => change s e :: changes (step s e) events

theorem changes_append (s : σ) (a b : List ε) :
    changes step change s (a ++ b) =
      changes step change s a ++ changes step change (a.foldl step s) b := by
  induction a generalizing s with
  | nil => rfl
  | cons e a ih => rw [List.cons_append, changes, ih]; rfl

@[simp] theorem length_changes (s : σ) (events : List ε) :
    (changes step change s events).length = events.length := by
  induction events generalizing s with
  | nil => rfl
  | cons e events ih => rw [changes, List.length_cons, ih, List.length_cons]

/-- What is done first is done by the first events. -/
theorem prefix_changes_iff {s : σ} {events : List ε} {front : List Change} :
    front <+: changes step change s events ↔
      ∃ before, before <+: events ∧ changes step change s before = front := by
  constructor
  · intro along
    refine ⟨events.take front.length, List.take_prefix _ _, ?_⟩
    have enough : front.length ≤ events.length := by simpa using along.length_le
    have whole := changes_append step change s (events.take front.length) (events.drop front.length)
    rw [List.take_append_drop] at whole
    rw [whole] at along
    have length : (changes step change s (events.take front.length)).length = front.length := by
      simpa using enough
    exact (List.prefix_of_prefix_length_le (List.prefix_append _ _) along length.le).eq_of_length length
  · rintro ⟨before, ⟨later, rfl⟩, rfl⟩
    rw [changes_append]
    exact List.prefix_append _ _

variable {step change} (size : σ → Nat) (Inv : σ → Prop)
  (keeps : ∀ s e, Inv s → Inv (step s e) ∧ size (step s e) = grow capacity (size s) (change s e))

include keeps

theorem size_run {s : σ} (inv : Inv s) (events : List ε) :
    size (events.foldl step s) = sizeAfter capacity (size s) (changes step change s events) := by
  induction events generalizing s with
  | nil => rfl
  | cons e events ih =>
      obtain ⟨inv, grown⟩ := keeps s e inv
      rw [List.foldl_cons, ih inv, grown]
      rfl

/-- A machine stays within the capacity exactly when every insertion finds room. -/
theorem bounded_iff_room {s : σ} (inv : Inv s) (positive : 0 < capacity) (low : size s ≤ capacity)
    (events : List ε) :
    (∀ before, before <+: events → size (before.foldl step s) ≤ capacity) ↔
      Room capacity (size s) (changes step change s events) := by
  rw [← within_iff_room positive low, Within]
  simp only [prefix_changes_iff]
  constructor
  · rintro bounded _ ⟨before, along, rfl⟩
    rw [← size_run size Inv keeps inv]
    exact bounded before along
  · intro within before along
    rw [size_run size Inv keeps inv]
    exact within _ ⟨before, along, rfl⟩

end Machine

end Lib.Window
