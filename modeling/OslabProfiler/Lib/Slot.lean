import Mathlib.Tactic

/-! # One slot for interleaved sessions

Sessions run at the same time, and each of them shows as an opening event, some
inner events and a closing event. An observer with a single slot stores who opened
last and reads the slot at every closing event. It reads the right session at all
of them exactly when the sessions do not overlap.
-/

namespace Lib

/-- The events of one session, in order. -/
structure Session (κ : Type*) where
  opening : κ
  inner : List κ
  closing : κ
  opening_not_mem : opening ∉ inner
  closing_not_mem : closing ∉ inner
  apart : opening ≠ closing

variable {ι κ : Type*}

def Session.block (σ : Session κ) : List κ := σ.opening :: (σ.inner ++ [σ.closing])

section Own

variable [DecidableEq ι]

/-- The events of the session `i`. -/
def own (i : ι) : List (ι × κ) → List κ
  | [] => []
  | (j, k) :: events => if j = i then k :: own i events else own i events

theorem mem_own {i : ι} {k : κ} {events : List (ι × κ)} : k ∈ own i events ↔ (i, k) ∈ events := by
  induction events with
  | nil => simp [own]
  | cons e events ih =>
      obtain ⟨j, m⟩ := e
      by_cases same : j = i
      · subst same
        simp [own, ih]
      · simp [own, same, ih, Ne.symm same]

/-- Every session has run from its opening to its closing, or not at all. -/
def Session.Interleaved (σ : Session κ) (events : List (ι × κ)) : Prop :=
  ∀ i, own i events = [] ∨ own i events = σ.block

theorem Session.own_block_append {σ : Session κ} (i j : ι) (events : List (ι × κ)) :
    own j (σ.block.map (Prod.mk i) ++ events) =
      if i = j then σ.block ++ own j events else own j events := by
  induction σ.block with
  | nil => simp
  | cons k block ih =>
      rw [List.map_cons, List.cons_append, own, ih]
      split <;> rfl

end Own

namespace Session

variable [DecidableEq κ] (σ : Session κ)

/-- What the slot holds at each closing event. -/
def held : Option ι → List (ι × κ) → List (Option ι)
  | _, [] => []
  | slot, (i, k) :: events =>
      if k = σ.opening then held (some i) events
      else if k = σ.closing then slot :: held none events
      else held slot events

/-- The sessions that close, in order. -/
def closed : List (ι × κ) → List ι
  | [] => []
  | (i, k) :: events => if k = σ.closing then i :: closed events else closed events

variable {σ}

theorem held_opening (slot : Option ι) (i : ι) (events : List (ι × κ)) :
    σ.held slot ((i, σ.opening) :: events) = σ.held (some i) events := by
  rw [held, if_pos rfl]

theorem held_closing (slot : Option ι) (i : ι) (events : List (ι × κ)) :
    σ.held slot ((i, σ.closing) :: events) = slot :: σ.held none events := by
  rw [held, if_neg σ.apart.symm, if_pos rfl]

theorem held_inner {k : κ} (inner : k ∈ σ.inner) (slot : Option ι) (i : ι)
    (events : List (ι × κ)) : σ.held slot ((i, k) :: events) = σ.held slot events := by
  have notOpening : k ≠ σ.opening := fun h => σ.opening_not_mem (h ▸ inner)
  have notClosing : k ≠ σ.closing := fun h => σ.closing_not_mem (h ▸ inner)
  rw [held, if_neg notOpening, if_neg notClosing]

theorem closed_closing (i : ι) (events : List (ι × κ)) :
    σ.closed ((i, σ.closing) :: events) = i :: σ.closed events := by
  rw [closed, if_pos rfl]

theorem closed_of_ne {k : κ} (other : k ≠ σ.closing) (i : ι) (events : List (ι × κ)) :
    σ.closed ((i, k) :: events) = σ.closed events := by
  rw [closed, if_neg other]

theorem held_block_append (slot : Option ι) (i : ι) (events : List (ι × κ)) :
    σ.held slot (σ.block.map (Prod.mk i) ++ events) = some i :: σ.held none events := by
  have inside : ∀ rest : List κ, (∀ k ∈ rest, k ∈ σ.inner) →
      σ.held (some i) ((rest ++ [σ.closing]).map (Prod.mk i) ++ events) =
        some i :: σ.held none events := by
    intro rest inner
    induction rest with
    | nil => exact held_closing (some i) i events
    | cons k rest ih =>
        rw [List.forall_mem_cons] at inner
        exact (held_inner inner.1 (some i) i _).trans (ih inner.2)
  exact (held_opening slot i _).trans (inside σ.inner fun _ h => h)

theorem closed_block_append (i : ι) (events : List (ι × κ)) :
    σ.closed (σ.block.map (Prod.mk i) ++ events) = i :: σ.closed events := by
  have inside : ∀ rest : List κ, (∀ k ∈ rest, k ∈ σ.inner) →
      σ.closed ((rest ++ [σ.closing]).map (Prod.mk i) ++ events) = i :: σ.closed events := by
    intro rest inner
    induction rest with
    | nil => exact closed_closing i events
    | cons k rest ih =>
        rw [List.forall_mem_cons] at inner
        exact (closed_of_ne (fun h => σ.closing_not_mem (h ▸ inner.1)) i _).trans (ih inner.2)
  exact (closed_of_ne σ.apart i _).trans (inside σ.inner fun _ h => h)

theorem length_held (slot : Option ι) (events : List (ι × κ)) :
    (σ.held slot events).length = (σ.closed events).length := by
  induction events generalizing slot with
  | nil => rfl
  | cons e events ih =>
      obtain ⟨i, k⟩ := e
      by_cases opening : k = σ.opening
      · subst opening
        rw [held_opening, closed_of_ne σ.apart, ih]
      · by_cases closing : k = σ.closing
        · subst closing
          rw [held_closing, closed_closing, List.length_cons, List.length_cons, ih]
        · rw [held, if_neg opening, if_neg closing, closed_of_ne closing, ih]

theorem length_closed (events : List (ι × κ)) :
    (σ.closed events).length = (events.filter fun e => e.2 = σ.closing).length := by
  induction events with
  | nil => rfl
  | cons e events ih =>
      obtain ⟨i, k⟩ := e
      by_cases closing : k = σ.closing
      · simp [closed, closing, ih]
      · simp [closed, closing, ih]

/-- If as many sessions close among the chosen events, then every closing event is chosen. -/
theorem mem_filter_of_length {events : List (ι × κ)} {p : ι × κ → Bool}
    (all : (σ.closed (events.filter p)).length = (σ.closed events).length) {e : ι × κ}
    (member : e ∈ events) (closing : e.2 = σ.closing) : p e = true := by
  rw [length_closed, length_closed] at all
  have sublist := (List.filter_sublist (p := p) (l := events)).filter fun e => e.2 = σ.closing
  have chosen : e ∈ (events.filter p).filter fun e => e.2 = σ.closing := by
    rw [sublist.eq_of_length all]
    exact List.mem_filter.mpr ⟨member, by simp [closing]⟩
  exact (List.mem_filter.mp (List.mem_filter.mp chosen).1).2

variable [DecidableEq ι]

/-- A session that has lost the slot is not read when it closes. -/
theorem held_ne_of_lost {i : ι} {events : List (ι × κ)} (closes : (i, σ.closing) ∈ events)
    (opened : (i, σ.opening) ∉ events) {slot : Option ι} (lost : slot ≠ some i) :
    σ.held slot events ≠ (σ.closed events).map some := by
  induction events generalizing slot with
  | nil => cases closes
  | cons e events ih =>
      obtain ⟨j, k⟩ := e
      have later : (i, σ.opening) ∉ events := fun h => opened (List.mem_cons_of_mem _ h)
      by_cases opening : k = σ.opening
      · subst opening
        have other : j ≠ i := fun h => opened (by simp [h])
        rw [held_opening, closed_of_ne σ.apart]
        have closesLater : (i, σ.closing) ∈ events := by simpa [other.symm] using closes
        exact ih closesLater later (by simpa using other)
      · by_cases closing : k = σ.closing
        · subst closing
          rw [held_closing, closed_closing, List.map_cons]
          intro same
          injection same with first rest
          by_cases own : j = i
          · exact lost (own ▸ first)
          · have closesLater : (i, σ.closing) ∈ events := by simpa [Ne.symm own] using closes
            exact ih closesLater later (by simp) rest
        · rw [held, if_neg opening, if_neg closing, closed_of_ne closing]
          have closesLater : (i, σ.closing) ∈ events := by simpa [Ne.symm closing] using closes
          exact ih closesLater later lost

/-- While a session has the slot and is read when it closes, nothing else happens. -/
theorem eq_of_held {i : ι} {rest : List κ} (inner : ∀ k ∈ rest, k ∈ σ.inner)
    {events : List (ι × κ)} (mine : own i events = rest ++ [σ.closing])
    (others : ∀ j, j ≠ i → own j events = [] ∨ own j events = σ.block)
    (right : σ.held (some i) events = (σ.closed events).map some) :
    ∃ later, events = (rest ++ [σ.closing]).map (Prod.mk i) ++ later ∧ own i later = [] := by
  induction events generalizing rest with
  | nil => simp [own] at mine
  | cons e events ih =>
      obtain ⟨j, k⟩ := e
      by_cases same : j = i
      · subst same
        rw [own, if_pos rfl] at mine
        have others' : ∀ m, m ≠ j → own m events = [] ∨ own m events = σ.block := by
          intro m other
          simpa [own, other.symm] using others m other
        cases rest with
        | nil =>
            obtain ⟨rfl, done⟩ := List.cons.inj mine
            exact ⟨events, rfl, done⟩
        | cons first rest =>
            obtain ⟨rfl, behind⟩ := List.cons.inj mine
            rw [List.forall_mem_cons] at inner
            have open_ : k ≠ σ.closing := fun h => σ.closing_not_mem (h ▸ inner.1)
            rw [held_inner inner.1, closed_of_ne open_] at right
            obtain ⟨later, eq, done⟩ := ih inner.2 behind others' right
            exact ⟨later, by rw [eq]; rfl, done⟩
      · -- Another session can only open here, and then `i` has lost the slot.
        have starts := others j same
        rw [own, if_pos rfl] at starts
        have opening : k = σ.opening := by
          cases starts with
          | inl none => cases none
          | inr all => exact (List.cons.inj all).1
        subst opening
        rw [own, if_neg same] at mine
        have closes : (i, σ.closing) ∈ events := mem_own.mp (by simp [mine])
        have opened : (i, σ.opening) ∉ events := by
          intro again
          have member := mem_own.mpr again
          rw [mine, List.mem_append, List.mem_singleton] at member
          cases member with
          | inl inside => exact σ.opening_not_mem (inner _ inside)
          | inr last => exact σ.apart last
        rw [held_opening, closed_of_ne σ.apart] at right
        exact (held_ne_of_lost closes opened (by simpa using same) right).elim

/-- One slot is enough exactly for sessions that follow one another. -/
theorem held_iff_sequential {events : List (ι × κ)} (interleaved : σ.Interleaved events) :
    σ.held none events = (σ.closed events).map some ↔
      ∃ order : List ι, events = order.flatMap fun i => σ.block.map (Prod.mk i) := by
  constructor
  · intro right
    induction size : events.length using Nat.strong_induction_on generalizing events with
    | _ n ih =>
        cases events with
        | nil => exact ⟨[], rfl⟩
        | cons e events =>
            obtain ⟨i, k⟩ := e
            have all := (interleaved i).resolve_left (by simp [own])
            rw [own, if_pos rfl] at all
            obtain ⟨rfl, mine⟩ := List.cons.inj all
            rw [held_opening, closed_of_ne σ.apart] at right
            have others : ∀ j, j ≠ i → own j events = [] ∨ own j events = σ.block := by
              intro j other
              simpa [own, other.symm] using interleaved j
            obtain ⟨later, rfl, done⟩ := eq_of_held (fun _ h => h) mine others right
            have whole : (i, σ.opening) :: ((σ.inner ++ [σ.closing]).map (Prod.mk i) ++ later) =
                σ.block.map (Prod.mk i) ++ later := rfl
            rw [whole] at interleaved size
            rw [← held_opening none, ← closed_of_ne σ.apart i, whole, held_block_append,
              closed_block_append] at right
            have rest : σ.Interleaved later := by
              intro j
              by_cases same : i = j
              · exact .inl (same ▸ done)
              · simpa [own_block_append, same] using interleaved j
            have shorter : later.length < n := by
              rw [List.length_append, List.length_map, block, List.length_cons] at size
              omega
            obtain ⟨order, eq⟩ := ih _ shorter rest (List.cons.inj right).2 rfl
            exact ⟨i :: order, by rw [whole, eq, List.flatMap_cons]⟩
  · rintro ⟨order, rfl⟩
    clear interleaved
    induction order with
    | nil => rfl
    | cons i order ih =>
        rw [List.flatMap_cons, held_block_append, closed_block_append, ih, List.map_cons]

end Session

end Lib
