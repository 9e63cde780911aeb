import Mathlib.Tactic
import Mathlib.Order.Defs.LinearOrder

/-! # The walk of a two-pointer merge join

Two lists are read from the front. Each turn looks at both heads and drops the
smaller one, or both when they are equal; the walk ends with the shorter list.
Which pairs are looked at depends on the lists alone, so a loop of this shape
is a loop over `mergeSteps`. On strictly increasing lists the walk meets every
common element, meets no element twice as the smaller head, and meets an
element of one list only as the smaller head exactly when the other list still
holds something larger.
-/

namespace Lib.MergeJoin

variable {α : Type}

/-- The turns taken while `x` heads the first list. -/
def row (cmp : α → α → Int) (rest : List α → List (α × α)) (x : α) : List α → List (α × α)
  | [] => []
  | y :: ys =>
      (x, y) ::
        if cmp x y = 0 then rest ys
        else if cmp x y < 0 then rest (y :: ys)
        else row cmp rest x ys

/-- The pairs of heads which the walk looks at, in order. -/
def mergeSteps (cmp : α → α → Int) : List α → List α → List (α × α)
  | [], _ => []
  | x :: xs, ys => row cmp (mergeSteps cmp xs) x ys

/-- A three-way comparison that decides the order. -/
structure Decides [LinearOrder α] (cmp : α → α → Int) : Prop where
  eq : ∀ x y, cmp x y = 0 ↔ x = y
  lt : ∀ x y, cmp x y < 0 ↔ x < y

@[simp] theorem mergeSteps_nil_left (cmp : α → α → Int) (ys : List α) :
    mergeSteps cmp [] ys = [] := rfl

@[simp] theorem mergeSteps_nil_right (cmp : α → α → Int) (xs : List α) :
    mergeSteps cmp xs [] = [] := by
  cases xs <;> rfl

section Ordered

variable [LinearOrder α] {cmp : α → α → Int} (decides : Decides cmp)

include decides

theorem mergeSteps_eq (x : α) (xs ys : List α) :
    mergeSteps cmp (x :: xs) (x :: ys) = (x, x) :: mergeSteps cmp xs ys := by
  simp only [mergeSteps, row, (decides.eq x x).mpr rfl, if_true]

theorem mergeSteps_lt {x y : α} (below : x < y) (xs ys : List α) :
    mergeSteps cmp (x :: xs) (y :: ys) = (x, y) :: mergeSteps cmp xs (y :: ys) := by
  have different : cmp x y ≠ 0 := fun h => below.ne ((decides.eq x y).mp h)
  simp only [mergeSteps, row, if_neg different, if_pos ((decides.lt x y).mpr below)]

theorem mergeSteps_gt {x y : α} (above : y < x) (xs ys : List α) :
    mergeSteps cmp (x :: xs) (y :: ys) = (x, y) :: mergeSteps cmp (x :: xs) ys := by
  have different : cmp x y ≠ 0 := fun h => above.ne' ((decides.eq x y).mp h)
  have notLess : ¬ cmp x y < 0 := fun h => above.not_gt ((decides.lt x y).mp h)
  simp only [mergeSteps, row, if_neg different, if_neg notLess]

omit decides in
/-- The walk's own induction: one case for each way a turn can go. -/
theorem walk_induction {motive : List α → List α → Prop}
    (left : ∀ ys, motive [] ys) (right : ∀ xs, motive xs [])
    (eq : ∀ x xs ys, motive xs ys → motive (x :: xs) (x :: ys))
    (lt : ∀ x xs y ys, x < y → motive xs (y :: ys) → motive (x :: xs) (y :: ys))
    (gt : ∀ x xs y ys, y < x → motive (x :: xs) ys → motive (x :: xs) (y :: ys)) :
    ∀ xs ys, motive xs ys := by
  intro xs
  induction xs with
  | nil => exact left
  | cons x xs outer =>
      intro ys
      induction ys with
      | nil => exact right _
      | cons y ys inner =>
          rcases lt_trichotomy x y with below | rfl | above
          · exact lt x xs y ys below (outer (y :: ys))
          · exact eq x xs ys (outer ys)
          · exact gt x xs y ys above inner

/-- Exchanging the lists exchanges the two heads of every turn. -/
theorem mergeSteps_swap (xs ys : List α) :
    mergeSteps cmp ys xs = (mergeSteps cmp xs ys).map Prod.swap := by
  induction xs, ys using walk_induction with
  | left ys => simp
  | right xs => simp
  | eq x xs ys ih => simp [mergeSteps_eq decides, ih]
  | lt x xs y ys below ih =>
      rw [mergeSteps_lt decides below, mergeSteps_gt decides below, ih]
      simp
  | gt x xs y ys above ih =>
      rw [mergeSteps_gt decides above, mergeSteps_lt decides above, ih]
      simp

theorem mergeSteps_mem {xs ys : List α} {p : α × α} (h : p ∈ mergeSteps cmp xs ys) :
    p.1 ∈ xs ∧ p.2 ∈ ys := by
  induction xs, ys using walk_induction with
  | left ys => simp at h
  | right xs => simp at h
  | eq x xs ys ih =>
      rw [mergeSteps_eq decides] at h
      rcases List.mem_cons.mp h with rfl | h
      · simp
      · exact ⟨List.mem_cons_of_mem _ (ih h).1, List.mem_cons_of_mem _ (ih h).2⟩
  | lt x xs y ys below ih =>
      rw [mergeSteps_lt decides below] at h
      rcases List.mem_cons.mp h with rfl | h
      · simp
      · exact ⟨List.mem_cons_of_mem _ (ih h).1, (ih h).2⟩
  | gt x xs y ys above ih =>
      rw [mergeSteps_gt decides above] at h
      rcases List.mem_cons.mp h with rfl | h
      · simp
      · exact ⟨(ih h).1, List.mem_cons_of_mem _ (ih h).2⟩

/-- No common element is skipped. -/
theorem mergeSteps_common {xs ys : List α} (sx : xs.Pairwise (· < ·)) (sy : ys.Pairwise (· < ·))
    {z : α} : (z, z) ∈ mergeSteps cmp xs ys ↔ z ∈ xs ∧ z ∈ ys := by
  refine ⟨mergeSteps_mem decides, ?_⟩
  rintro ⟨inX, inY⟩
  induction xs, ys using walk_induction with
  | left ys => simp at inX
  | right xs => simp at inY
  | eq x xs ys ih =>
      rw [List.pairwise_cons] at sx sy
      rw [mergeSteps_eq decides]
      rcases List.mem_cons.mp inX with rfl | inX
      · exact List.mem_cons_self
      · rcases List.mem_cons.mp inY with rfl | inY
        · exact List.mem_cons_self
        · exact List.mem_cons_of_mem _ (ih sx.2 sy.2 inX inY)
  | lt x xs y ys below ih =>
      rw [mergeSteps_lt decides below]
      -- the dropped head is smaller than everything in the second list
      have later : z ≠ x := by
        rintro rfl
        rcases List.mem_cons.mp inY with rfl | inY
        · exact lt_irrefl _ below
        · exact lt_asymm below ((List.pairwise_cons.mp sy).1 _ inY)
      rcases List.mem_cons.mp inX with rfl | inX
      · exact (later rfl).elim
      · exact List.mem_cons_of_mem _ (ih (List.pairwise_cons.mp sx).2 sy inX inY)
  | gt x xs y ys above ih =>
      rw [mergeSteps_gt decides above]
      have later : z ≠ y := by
        rintro rfl
        rcases List.mem_cons.mp inX with rfl | inX
        · exact lt_irrefl _ above
        · exact lt_asymm above ((List.pairwise_cons.mp sx).1 _ inX)
      rcases List.mem_cons.mp inY with rfl | inY
      · exact (later rfl).elim
      · exact List.mem_cons_of_mem _ (ih sx (List.pairwise_cons.mp sy).2 inX inY)

/-- An element is met as the smaller, first head exactly when only the first
    list has it and the second list still holds something larger. -/
theorem mergeSteps_left {xs ys : List α} (sx : xs.Pairwise (· < ·)) (sy : ys.Pairwise (· < ·))
    {z : α} : (∃ y, (z, y) ∈ mergeSteps cmp xs ys ∧ z < y) ↔
      z ∈ xs ∧ z ∉ ys ∧ ∃ y ∈ ys, z < y := by
  induction xs, ys using walk_induction with
  | left ys => simp
  | right xs => simp
  | eq x xs ys ih =>
      rw [List.pairwise_cons] at sx sy
      simp only [mergeSteps_eq decides, List.mem_cons, Prod.mk.injEq]
      have step := ih sx.2 sy.2
      constructor
      · rintro ⟨y, ⟨rfl, rfl⟩ | h, small⟩
        · exact (lt_irrefl _ small).elim
        · obtain ⟨inX, outY, y', inY, small'⟩ := step.mp ⟨y, h, small⟩
          refine ⟨.inr inX, ?_, y', .inr inY, small'⟩
          rintro (rfl | inY')
          · exact lt_irrefl _ (sx.1 _ inX)
          · exact outY inY'
      · rintro ⟨inX, outY, y, inY, small⟩
        have tailX : z ∈ xs := inX.resolve_left fun same => outY (.inl same)
        have tailY : y ∈ ys := by
          rcases inY with rfl | inY
          · exact (lt_asymm small (sx.1 _ tailX)).elim
          · exact inY
        obtain ⟨y', h, small'⟩ := step.mpr ⟨tailX, fun h => outY (.inr h), y, tailY, small⟩
        exact ⟨y', .inr h, small'⟩
  | lt x xs y ys below ih =>
      simp only [mergeSteps_lt decides below, List.mem_cons, Prod.mk.injEq]
      have step := ih (List.pairwise_cons.mp sx).2 sy
      simp only [List.mem_cons] at step
      rw [List.pairwise_cons] at sx sy
      constructor
      · rintro ⟨y', ⟨rfl, rfl⟩ | h, small⟩
        · refine ⟨.inl rfl, ?_, y', .inl rfl, small⟩
          rintro (rfl | inY)
          · exact lt_irrefl _ small
          · exact lt_asymm small (sy.1 _ inY)
        · obtain ⟨inX, outY, larger⟩ := step.mp ⟨y', h, small⟩
          exact ⟨.inr inX, outY, larger⟩
      · rintro ⟨inX, outY, larger⟩
        rcases inX with rfl | inX
        · exact ⟨y, .inl ⟨rfl, rfl⟩, below⟩
        · obtain ⟨y', h, small⟩ := step.mpr ⟨inX, outY, larger⟩
          exact ⟨y', .inr h, small⟩
  | gt x xs y ys above ih =>
      simp only [mergeSteps_gt decides above, List.mem_cons, Prod.mk.injEq]
      have step := ih sx (List.pairwise_cons.mp sy).2
      simp only [List.mem_cons] at step
      rw [List.pairwise_cons] at sx sy
      have aboveAll : z = x ∨ z ∈ xs → y < z := by
        rintro (rfl | inX)
        · exact above
        · exact above.trans (sx.1 _ inX)
      constructor
      · rintro ⟨y', ⟨rfl, rfl⟩ | h, small⟩
        · exact (lt_asymm above small).elim
        · obtain ⟨inX, outY, y'', inY, small'⟩ := step.mp ⟨y', h, small⟩
          refine ⟨inX, ?_, y'', .inr inY, small'⟩
          rintro (rfl | inY')
          · exact lt_irrefl _ (aboveAll inX)
          · exact outY inY'
      · rintro ⟨inX, outY, y', inY, small⟩
        have tailY : y' ∈ ys := inY.resolve_left fun same => by
          subst same
          exact lt_asymm small (aboveAll inX)
        obtain ⟨y'', h, small'⟩ := step.mpr ⟨inX, fun h => outY (.inr h), y', tailY, small⟩
        exact ⟨y'', .inr h, small'⟩

theorem mergeSteps_right {xs ys : List α} (sx : xs.Pairwise (· < ·)) (sy : ys.Pairwise (· < ·))
    {z : α} : (∃ x, (x, z) ∈ mergeSteps cmp xs ys ∧ z < x) ↔
      z ∈ ys ∧ z ∉ xs ∧ ∃ x ∈ xs, z < x := by
  rw [← mergeSteps_left decides sy sx, mergeSteps_swap decides xs ys]
  simp

/-- The smaller heads strictly increase, so no element is processed twice. -/
theorem mergeSteps_increasing {xs ys : List α} (sx : xs.Pairwise (· < ·))
    (sy : ys.Pairwise (· < ·)) :
    (mergeSteps cmp xs ys).Pairwise (fun p q => min p.1 p.2 < min q.1 q.2) := by
  induction xs, ys using walk_induction with
  | left ys => simp
  | right xs => simp
  | eq x xs ys ih =>
      rw [List.pairwise_cons] at sx sy
      rw [mergeSteps_eq decides, List.pairwise_cons]
      refine ⟨fun q h => ?_, ih sx.2 sy.2⟩
      obtain ⟨inX, inY⟩ := mergeSteps_mem decides h
      simpa using ⟨sx.1 _ inX, sy.1 _ inY⟩
  | lt x xs y ys below ih =>
      rw [mergeSteps_lt decides below, List.pairwise_cons]
      refine ⟨fun q h => ?_, ih (List.pairwise_cons.mp sx).2 sy⟩
      obtain ⟨inX, inY⟩ := mergeSteps_mem decides h
      have overY : x < q.2 := by
        rcases List.mem_cons.mp inY with same | inY
        · exact same ▸ below
        · exact below.trans ((List.pairwise_cons.mp sy).1 _ inY)
      simpa [min_eq_left below.le] using ⟨(List.pairwise_cons.mp sx).1 _ inX, overY⟩
  | gt x xs y ys above ih =>
      rw [mergeSteps_gt decides above, List.pairwise_cons]
      refine ⟨fun q h => ?_, ih sx (List.pairwise_cons.mp sy).2⟩
      obtain ⟨inX, inY⟩ := mergeSteps_mem decides h
      have overX : y < q.1 := by
        rcases List.mem_cons.mp inX with same | inX
        · exact same ▸ above
        · exact above.trans ((List.pairwise_cons.mp sx).1 _ inX)
      simpa [min_eq_right above.le] using ⟨overX, (List.pairwise_cons.mp sy).1 _ inY⟩

end Ordered

end Lib.MergeJoin
