import Mathlib.Tactic

/-! # Texts cut at separators

A text is a list of characters. `tokens` are the pieces between separators that
are not empty; on a text which is written out as words and separators they are
the words. The second part says where a pattern can occur in a text that is
written out in the same way: a character that is not in the pattern cuts the
text in two, and a pattern can only begin where its first character is.
-/

namespace Lib

abbrev Text := List Char

section Tokens

variable {sep : Char → Bool}

/-- The nonempty pieces between separators. -/
def tokens (sep : Char → Bool) (l : Text) : List Text := (l.splitOnP sep).filter (· ≠ [])

/-- A nonempty text without separators. -/
def IsWord (sep : Char → Bool) (w : Text) : Prop := w ≠ [] ∧ ∀ c ∈ w, sep c = false

instance (sep : Char → Bool) (w : Text) : Decidable (IsWord sep w) :=
  decidable_of_iff (w ≠ [] ∧ w.all (fun c => !sep c) = true) (by simp [IsWord])

@[simp] theorem tokens_nil : tokens sep [] = [] := by simp [tokens, List.splitOnP_nil]

theorem tokens_append_cons (a b : Text) {c : Char} (hc : sep c = true) :
    tokens sep (a ++ c :: b) = tokens sep a ++ tokens sep b := by
  rw [tokens, List.splitOnP_append_cons a b hc, List.filter_append]
  rfl

theorem tokens_cons (b : Text) {c : Char} (hc : sep c = true) :
    tokens sep (c :: b) = tokens sep b := by
  simpa using tokens_append_cons [] b hc

theorem tokens_replicate_append (n : Nat) (b : Text) {c : Char} (hc : sep c = true) :
    tokens sep (List.replicate n c ++ b) = tokens sep b := by
  induction n with
  | zero => rfl
  | succ n ih => rw [List.replicate_succ, List.cons_append, tokens_cons _ hc, ih]

theorem tokens_word {w : Text} (hw : IsWord sep w) : tokens sep w = [w] := by
  simp [tokens, List.splitOnP_eq_singleton hw.2, hw.1]

/-- A text is cut in front of a separator, -/
theorem tokens_append_of_head (a : Text) {b : Text} (hb : b.head?.any sep = true) :
    tokens sep (a ++ b) = tokens sep a ++ tokens sep b := by
  cases b with
  | nil => cases hb
  | cons c b => rw [tokens_append_cons a b hb, tokens_cons b hb]

/-- and behind one. -/
theorem tokens_append_of_getLast {a : Text} (b : Text) (ha : a.getLast?.any sep = true) :
    tokens sep (a ++ b) = tokens sep a ++ tokens sep b := by
  cases a using List.reverseRecOn with
  | nil => cases ha
  | append_singleton a c =>
      have hc : sep c = true := by simpa using ha
      rw [List.append_assoc, List.singleton_append, tokens_append_cons a b hc,
        tokens_append_cons a [] hc, tokens_nil, List.append_nil]

end Tokens

section Patterns

variable {pat a b : Text} {c : Char}

theorem prefix_append_cons (absent : c ∉ pat) (h : pat <+: a ++ c :: b) : pat <+: a := by
  cases List.prefix_or_prefix_of_prefix h (List.prefix_append a (c :: b)) with
  | inl inside => exact inside
  | inr longer =>
      obtain ⟨r, rfl⟩ := longer
      cases r with
      | nil => simp
      | cons d r =>
          rw [List.prefix_append_right_inj, List.cons_prefix_cons] at h
          exact (absent (by simp [h.1])).elim

/-- A character that is not in the pattern separates what can match. -/
theorem infix_append_cons (absent : c ∉ pat) :
    pat <:+: a ++ c :: b ↔ pat <:+: a ∨ pat <:+: b := by
  constructor
  · intro h
    induction a with
    | nil =>
        cases List.infix_cons_iff.mp h with
        | inl here => exact .inl (prefix_append_cons absent (a := []) here).isInfix
        | inr later => exact .inr later
    | cons d a ih =>
        cases List.infix_cons_iff.mp h with
        | inl here => exact .inl (prefix_append_cons absent (a := d :: a) here).isInfix
        | inr later =>
            cases ih later with
            | inl left => exact .inl (List.infix_cons left)
            | inr right => exact .inr right
  · intro side
    cases side with
    | inl left => exact left.trans (List.prefix_append a _).isInfix
    | inr right => exact right.trans ((List.suffix_cons c b).trans (List.suffix_append a _)).isInfix

/-- A pattern whose first character occurs nowhere does not occur. -/
theorem not_infix_of_head (absent : c ∉ a) : ¬ c :: pat <:+: a := by
  intro h
  exact absent (h.subset (by simp))

/-- A pattern begins only where its first character is. -/
theorem infix_of_head (absent : c ∉ a) :
    c :: pat <:+: a ++ c :: b ↔ pat <+: b ∨ c :: pat <:+: b := by
  induction a with
  | nil => rw [List.nil_append, List.infix_cons_iff, List.cons_prefix_cons, eq_self, true_and]
  | cons d a ih =>
      have other : c ≠ d := fun h => absent (by simp [h])
      rw [List.cons_append, List.infix_cons_iff, List.cons_prefix_cons,
        ih fun h => absent (List.mem_cons_of_mem _ h)]
      simp [other]

/-- A word occurs in a text when it occurs in one of its tokens. -/
theorem infix_iff_tokens {sep : Char → Bool} (word : IsWord sep pat) (l : Text) :
    pat <:+: l ↔ ∃ t ∈ tokens sep l, pat <:+: t := by
  induction size : l.length using Nat.strong_induction_on generalizing l with
  | _ n ih =>
      by_cases cut : ∃ c ∈ l, sep c = true
      · obtain ⟨c, member, hc⟩ := cut
        obtain ⟨a, b, rfl⟩ := List.append_of_mem member
        have absent : c ∉ pat := fun h => by simp [word.2 c h] at hc
        have shorter : a.length < n ∧ b.length < n := by
          rw [List.length_append, List.length_cons] at size
          omega
        rw [infix_append_cons absent, tokens_append_cons a b hc, ih _ shorter.1 a rfl,
          ih _ shorter.2 b rfl]
        simp only [List.mem_append, or_and_right, exists_or]
      · cases l with
        | nil => simpa using word.1
        | cons d l =>
            have whole : IsWord sep (d :: l) := by
              refine ⟨by simp, fun c member => ?_⟩
              cases hc : sep c with
              | false => rfl
              | true => exact (cut ⟨c, member, hc⟩).elim
            simp [tokens_word whole]

end Patterns

/-- Lines that each end in a newline are split into these lines and an empty rest. -/
theorem splitOn_lines {α : Type} [DecidableEq α] {newline : α} {lines : List (List α)}
    (oneLine : ∀ l ∈ lines, newline ∉ l) :
    (lines.flatMap (· ++ [newline])).splitOn newline = lines ++ [[]] := by
  induction lines with
  | nil => rfl
  | cons l lines ih =>
      rw [List.forall_mem_cons] at oneLine
      rw [List.flatMap_cons, List.append_assoc, List.singleton_append,
        List.splitOn_append_cons_self_of_not_mem oneLine.1, ih oneLine.2, List.cons_append]

end Lib
