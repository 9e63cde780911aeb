import Mathlib.Tactic

/-! # Breadth-first walks

A walk takes the first node of a queue, writes something about it and puts the nodes
below it at the end of the queue. If what is below every node is a finite tree, the
walk ends and has written what belongs to each node of the trees once, in some order.
-/

namespace Lib

open scoped List

/-- How a walk is going: the queue is empty, a visit failed, or there is more to do. -/
inductive Walked (β : Type) where
  | ended (written : List β)
  | failed
  | running
  deriving DecidableEq

section

variable {ν τ α β : Type}

/-- At most `n` turns of the loop. `visit` gives the nodes below one node and what is
    written about it, unless it fails. -/
def walk (visit : ν → Option (List ν × List β)) : Nat → List ν → List β → Walked β
  | 0, _, _ => .running
  | _ + 1, [], written => .ended written
  | n + 1, first :: queue, written =>
      match visit first with
      | none => .failed
      | some (below, lines) => walk visit n (queue ++ below) (written ++ lines)

variable (visit : ν → Option (List ν × List β)) (shows : ν → τ → Prop) (size : τ → Nat)
  (items : τ → List α) (write : α → β)

/-- A node shows a tree: the visit writes about the items at the top of it, and the nodes
    below show smaller trees that have the other items. -/
def Unfolds : Prop :=
  ∀ v t, shows v t → ∃ below trees here,
    visit v = some (below, here.map write) ∧ List.Forall₂ shows below trees ∧
      (trees.map size).sum < size t ∧ (here ++ trees.flatMap items).Perm (items t)

variable {visit shows size items write}

/-- With one turn for every unit of size the walk ends, and has written every item once. -/
theorem Unfolds.walk_ends (unfolds : Unfolds visit shows size items write) {queue : List ν}
    {trees : List τ} (shown : List.Forall₂ shows queue trees) (written : List β) :
    ∃ all : List α, all.Perm (trees.flatMap items) ∧
      ∀ n, (trees.map size).sum < n →
        walk visit n queue written = .ended (written ++ all.map write) := by
  -- the size of the trees in the queue gets smaller with every turn
  induction total : (trees.map size).sum using Nat.strong_induction_on
    generalizing queue trees written with
  | _ bound ih =>
      cases shown with
      | nil =>
          refine ⟨[], .refl _, fun n enough => ?_⟩
          obtain ⟨n, rfl⟩ := Nat.exists_eq_add_one_of_ne_zero (by omega : n ≠ 0)
          simp [walk]
      | @cons v t queue trees first rest =>
          obtain ⟨below, deeper, here, visited, shown, smaller, parts⟩ := unfolds v t first
          have next : ((trees ++ deeper).map size).sum < bound := by
            rw [← total]
            simp only [List.map_append, List.sum_append, List.map_cons, List.sum_cons]
            omega
          obtain ⟨all, perm, run⟩ := ih _ next (List.rel_append rest shown)
            (written ++ here.map write) rfl
          refine ⟨here ++ all, ?_, fun n enough => ?_⟩
          · calc here ++ all ~ here ++ (trees ++ deeper).flatMap items := perm.append_left here
              _ = here ++ (trees.flatMap items ++ deeper.flatMap items) := by
                  rw [List.flatMap_append]
              _ ~ here ++ (deeper.flatMap items ++ trees.flatMap items) :=
                  List.perm_append_comm.append_left here
              _ = here ++ deeper.flatMap items ++ trees.flatMap items := by
                  rw [List.append_assoc]
              _ ~ items t ++ trees.flatMap items := parts.append_right _
              _ = (t :: trees).flatMap items := List.flatMap_cons.symm
          · obtain ⟨n, rfl⟩ := Nat.exists_eq_add_one_of_ne_zero (by omega : n ≠ 0)
            rw [walk, visited, List.map_append, ← List.append_assoc]
            exact run n (by omega)

end

end Lib
