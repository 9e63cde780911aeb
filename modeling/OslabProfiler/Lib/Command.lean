import Mathlib.Tactic

/-! # Commands that change a state and may stop

A command runs on a state and either ends with a value or stops for a reason.
Both outcomes keep the state reached so far, so a statement about a stopped
process can still speak of what it left behind. Weakest preconditions turn a
program into a condition on its first state, one constructor at a time; the
loop rule carries an invariant over the elements that are still to come.
-/

namespace Lib

/-- A command on states `σ` that yields an `α` or stops with an `ε`. -/
def Command (σ ε α : Type) := σ → Except ε α × σ

namespace Command

variable {σ ε α β : Type}

instance : Monad (Command σ ε) where
  pure a := fun s => (.ok a, s)
  bind c f := fun s =>
    match c s with
    | (.ok a, t) => f a t
    | (.error e, t) => (.error e, t)

/-- Stop here; the state stays as it is. -/
def stop (e : ε) : Command σ ε α := fun s => (.error e, s)

/-- Look at the state. -/
def read (f : σ → α) : Command σ ε α := fun s => (.ok (f s), s)

/-- Change the state. -/
def update (f : σ → σ) : Command σ ε Unit := fun s => (.ok (), f s)

/-- A loop over a list whose body hands a value to the next turn. -/
def fold (body : β → α → Command σ ε β) : β → List α → Command σ ε β
  | b, [] => pure b
  | b, x :: xs => do fold body (← body b x) xs

/-- From `s` the command either ends in `Q` or stops in `E`. -/
def wp (c : Command σ ε α) (Q : α → σ → Prop) (E : ε → σ → Prop) (s : σ) : Prop :=
  match c s with
  | (.ok a, t) => Q a t
  | (.error e, t) => E e t

/-- The command ends normally, with `a`, in the state `t`. -/
def Ends (c : Command σ ε α) (s : σ) (a : α) (t : σ) : Prop := c s = (.ok a, t)

variable {Q Q' : α → σ → Prop} {R : β → σ → Prop} {E E' : ε → σ → Prop} {s t : σ}

@[simp] theorem wp_pure {a : α} : wp (pure a : Command σ ε α) Q E s ↔ Q a s := Iff.rfl

@[simp] theorem wp_stop {e : ε} : wp (stop e : Command σ ε α) Q E s ↔ E e s := Iff.rfl

@[simp] theorem wp_read {f : σ → α} : wp (read f : Command σ ε α) Q E s ↔ Q (f s) s := Iff.rfl

@[simp] theorem wp_update {f : σ → σ} {Q : Unit → σ → Prop} :
    wp (update f : Command σ ε Unit) Q E s ↔ Q () (f s) := Iff.rfl

@[simp] theorem wp_bind {c : Command σ ε α} {f : α → Command σ ε β} :
    wp (c >>= f) R E s ↔ wp c (fun a t => wp (f a) R E t) E s := by
  simp only [wp, bind]
  rcases c s with ⟨_ | _, _⟩ <;> rfl

@[simp] theorem wp_ite {p : Prop} [Decidable p] {c d : Command σ ε α} :
    wp (if p then c else d) Q E s ↔ (p → wp c Q E s) ∧ (¬p → wp d Q E s) := by
  by_cases h : p <;> simp [h]

theorem wp_mono {c : Command σ ε α} (h : wp c Q E s)
    (good : ∀ a t, Q a t → Q' a t) (bad : ∀ e t, E e t → E' e t) : wp c Q' E' s := by
  simp only [wp] at h ⊢
  rcases hc : c s with ⟨_ | _, _⟩ <;> rw [hc] at h
  · exact bad _ _ h
  · exact good _ _ h

theorem wp_and {c : Command σ ε α} (h : wp c Q E s) (h' : wp c Q' E' s) :
    wp c (fun a t => Q a t ∧ Q' a t) (fun e t => E e t ∧ E' e t) s := by
  simp only [wp] at h h' ⊢
  rcases hc : c s with ⟨_ | _, _⟩ <;> rw [hc] at h h' <;> exact ⟨h, h'⟩

/-- What holds however the run comes out holds of the state it leaves. -/
theorem wp_final {c : Command σ ε α} {P : σ → Prop} (h : wp c (fun _ => P) (fun _ => P) s) :
    P (c s).2 := by
  simp only [wp] at h
  rcases hc : c s with ⟨_ | _, _⟩ <;> rw [hc] at h <;> exact h

theorem wp_iff_of_ends {c : Command σ ε α} {a : α} (run : Ends c s a t) : wp c Q E s ↔ Q a t := by
  rw [wp, show c s = (.ok a, t) from run]

theorem wp_ends {c : Command σ ε α} {a : α} (h : wp c Q E s) (run : Ends c s a t) : Q a t := by
  simp only [wp] at h
  rw [show c s = (.ok a, t) from run] at h
  exact h

theorem wp_stops {c : Command σ ε α} {e : ε} (h : wp c Q E s) (run : (c s).1 = .error e) :
    E e (c s).2 := by
  simp only [wp] at h
  rw [show c s = (.error e, (c s).2) from Prod.ext run rfl] at h
  exact h

/-- A run that cannot stop ends. -/
theorem ends_of_wp {c : Command σ ε α} (h : wp c Q (fun _ _ => False) s) :
    ∃ a t, Ends c s a t ∧ Q a t := by
  simp only [wp] at h
  rcases hc : c s with ⟨_ | a, t⟩ <;> rw [hc] at h
  · exact h.elim
  · exact ⟨a, t, hc, h⟩

theorem ends_of_unstopped {c : Command σ ε α} (h : wp c Q E s) (unstopped : ∀ e t, ¬ E e t) :
    ∃ a t, Ends c s a t ∧ Q a t :=
  ends_of_wp (wp_mono h (fun _ _ done => done) unstopped)

theorem stops_of_wp {c : Command σ ε α} (h : wp c (fun _ _ => False) E s) :
    ∃ e, (c s).1 = .error e ∧ E e (c s).2 := by
  simp only [wp] at h
  rcases hc : c s with ⟨e | _, t⟩ <;> rw [hc] at h
  · exact ⟨e, rfl, h⟩
  · exact h.elim

theorem ends_of_ok {c : Command σ ε α} {a : α} (h : (c s).1 = .ok a) : Ends c s a (c s).2 :=
  Prod.ext h rfl

/-- The rule for `fold`: the invariant sees the value carried so far and the
    elements still to come. -/
theorem wp_fold {body : β → α → Command σ ε β} (I : β → List α → σ → Prop)
    (turn : ∀ b x xs s, I b (x :: xs) s → wp (body b x) (fun b' t => I b' xs t) E s)
    {b : β} {l : List α} (start : I b l s) : wp (fold body b l) (fun b' t => I b' [] t) E s := by
  induction l generalizing b s with
  | nil => exact start
  | cons x xs ih =>
      simp only [fold, wp_bind]
      exact wp_mono (turn b x xs s start) (fun _ _ next => ih next) (fun _ _ h => h)

/-! ## What every run keeps

`Always R c` relates the first state of a run to the last one, however the run
comes out. For a reflexive and transitive relation it follows the program text.
-/

def Always (R : σ → σ → Prop) (c : Command σ ε α) : Prop := ∀ s, R s (c s).2

section Always

variable {R : σ → σ → Prop} [Std.Refl R] [IsTrans σ R]

omit [Std.Refl R] [IsTrans σ R] in
theorem Always.wp {c : Command σ ε α} (h : Always R c) :
    c.wp (fun _ t => R s t) (fun _ t => R s t) s := by
  have reached := h s
  simp only [Command.wp]
  cases hc : c s with
  | mk result t =>
      rw [hc] at reached
      cases result <;> exact reached

omit [Std.Refl R] [IsTrans σ R] in
theorem Always.mono {R' : σ → σ → Prop} {c : Command σ ε α} (h : Always R c)
    (weaker : ∀ s t, R s t → R' s t) : Always R' c := fun s => weaker _ _ (h s)

omit [IsTrans σ R] in
theorem always_pure (a : α) : Always R (pure a : Command σ ε α) := fun s => refl_of R s

omit [IsTrans σ R] in
theorem always_stop (e : ε) : Always R (stop e : Command σ ε α) := fun s => refl_of R s

omit [IsTrans σ R] in
theorem always_read (f : σ → α) : Always R (read f : Command σ ε α) := fun s => refl_of R s

omit [Std.Refl R] in
theorem always_bind {c : Command σ ε α} {f : α → Command σ ε β} (first : Always R c)
    (next : ∀ a, Always R (f a)) : Always R (c >>= f) := by
  intro s
  have start := first s
  simp only [bind]
  cases hc : c s with
  | mk result t =>
      rw [hc] at start
      cases result with
      | error e => exact start
      | ok a => exact trans_of R start (next a t)

omit [Std.Refl R] [IsTrans σ R] in
theorem always_ite {p : Prop} [Decidable p] {c d : Command σ ε α} (yes : Always R c)
    (no : Always R d) : Always R (if p then c else d) := by
  split
  · exact yes
  · exact no

theorem always_fold {body : β → α → Command σ ε β} (turn : ∀ b x, Always R (body b x)) (b : β)
    (l : List α) : Always R (fold body b l) := by
  induction l generalizing b with
  | nil => exact always_pure b
  | cons x xs ih => exact always_bind (turn b x) ih

end Always

/-! ## Two runs side by side

`Paired S V c d` starts `c` and `d` in states related by `S`: both end, with values
related by `V`, or both stop for the same reason, and the states are related again.
-/

def Paired {α' : Type} (S : σ → σ → Prop) (V : α → α' → Prop) (c : Command σ ε α)
    (d : Command σ ε α') : Prop :=
  ∀ s t, S s t → S (c s).2 (d t).2 ∧
    match (c s).1, (d t).1 with
    | .ok a, .ok a' => V a a'
    | .error e, .error e' => e = e'
    | _, _ => False

section Paired

variable {α' β' : Type} {S : σ → σ → Prop} {V : α → α' → Prop} {U : β → β' → Prop}

theorem paired_pure {a : α} {a' : α'} (values : V a a') :
    Paired S V (pure a : Command σ ε α) (pure a') := fun _ _ related => ⟨related, values⟩

theorem paired_stop (e : ε) : Paired S V (stop e : Command σ ε α) (stop e) :=
  fun _ _ related => ⟨related, rfl⟩

theorem paired_read {f : σ → α} {f' : σ → α'} (values : ∀ s t, S s t → V (f s) (f' t)) :
    Paired S V (read f : Command σ ε α) (read f') :=
  fun s t related => ⟨related, values s t related⟩

theorem paired_update {f f' : σ → σ} {V : Unit → Unit → Prop} (values : V () ())
    (states : ∀ s t, S s t → S (f s) (f' t)) :
    Paired S V (update f : Command σ ε Unit) (update f') :=
  fun s t related => ⟨states s t related, values⟩

theorem paired_bind {c : Command σ ε α} {d : Command σ ε α'} {f : α → Command σ ε β}
    {g : α' → Command σ ε β'} (first : Paired S V c d)
    (next : ∀ a a', V a a' → Paired S U (f a) (g a')) : Paired S U (c >>= f) (d >>= g) := by
  intro s t related
  have start := first s t related
  simp only [bind]
  cases left : c s with
  | mk result s' =>
      cases right : d t with
      | mk result' t' =>
          rw [left, right] at start
          cases result with
          | ok a =>
              cases result' with
              | ok a' => exact next a a' start.2 s' t' start.1
              | error e' => exact start.2.elim
          | error e =>
              cases result' with
              | ok a' => exact start.2.elim
              | error e' => exact start

theorem paired_ite {p q : Prop} [Decidable p] [Decidable q] {c c' : Command σ ε α}
    {d d' : Command σ ε α'} (same : p ↔ q) (yes : p → Paired S V c d)
    (no : ¬ p → Paired S V c' d') :
    Paired S V (if p then c else c') (if q then d else d') := by
  by_cases holds : p
  · rw [if_pos holds, if_pos (same.mp holds)]
    exact yes holds
  · rw [if_neg holds, if_neg (mt same.mpr holds)]
    exact no holds

/-- The rule for two loops over lists that are related element by element. -/
theorem paired_fold {body : β → α → Command σ ε β} {body' : β' → α' → Command σ ε β'}
    {l : List α} {l' : List α'}
    (turn : ∀ b b' x x', U b b' → V x x' → Paired S U (body b x) (body' b' x'))
    (lists : List.Forall₂ V l l') {b : β} {b' : β'} (start : U b b') :
    Paired S U (fold body b l) (fold body' b' l') := by
  induction lists generalizing b b' with
  | nil => exact paired_pure start
  | cons head _ ih => exact paired_bind (turn b b' _ _ start head) fun _ _ next => ih next

end Paired

end Command

end Lib
