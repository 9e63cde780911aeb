import Mathlib.Tactic

/-! # What holds all along a sequence

A property of every beginning of a sequence of events is followed event by event. If each
event keeps the property exactly under a condition on it, then the property holds all along
exactly when every event meets its condition.
-/

namespace Lib

variable {ε : Type} {events : List ε} {e : ε}

theorem forall_prefix_snoc {P : List ε → Prop} :
    (∀ before, before <+: events ++ [e] → P before) ↔
      (∀ before, before <+: events → P before) ∧ P (events ++ [e]) := by
  constructor
  · intro along
    exact ⟨fun before start => along before (start.trans (List.prefix_append _ _)),
      along _ List.prefix_rfl⟩
  · rintro ⟨earlier, last⟩ before start
    cases List.prefix_concat_iff.mp start with
    | inl whole => rwa [whole]
    | inr shorter => exact earlier before shorter

theorem forall_event_snoc {Q : List ε → ε → Prop} :
    (∀ before d, before ++ [d] <+: events ++ [e] → Q before d) ↔
      (∀ before d, before ++ [d] <+: events → Q before d) ∧ Q events e := by
  constructor
  · intro each
    exact ⟨fun before d start => each before d (start.trans (List.prefix_append _ _)),
      each _ _ List.prefix_rfl⟩
  · rintro ⟨earlier, last⟩ before d start
    cases List.prefix_concat_iff.mp start with
    | inl whole =>
        obtain ⟨rfl, rfl⟩ := List.append_singleton_inj.mp whole
        exact last
    | inr shorter => exact earlier before d shorter

/-- A property that holds at the beginning holds all along exactly when every event keeps it,
    where only events after which it still holds have to be looked at. -/
theorem forall_prefix_iff_forall_event {P : List ε → Prop} {Q : List ε → ε → Prop} (start : P [])
    (keeps : ∀ before d, before ++ [d] <+: events → (∀ earlier, earlier <+: before → P earlier) →
      (P (before ++ [d]) ↔ Q before d)) :
    (∀ before, before <+: events → P before) ↔
      ∀ before d, before ++ [d] <+: events → Q before d := by
  induction events using List.reverseRecOn with
  | nil => simpa using start
  | append_singleton events e ih =>
      have earlier := ih fun before d along =>
        keeps before d (along.trans (List.prefix_append _ _))
      rw [forall_prefix_snoc, forall_event_snoc, ← earlier]
      exact and_congr_right (keeps events e List.prefix_rfl)

end Lib
