import OslabProfiler.Lib.Prefixes
import OslabProfiler.Server.BootPage
import Mathlib.Data.List.Sort

/-! # The selection of versions

The boot page counts the checked versions in one variable and marks them in an array
of ten elements, while the number of buttons comes from the server. The two are
compared here over every sequence of clicks. A click beyond the tenth button writes a
`NaN` behind the end of the array and is counted all the same.
-/

namespace OslabProfiler.Client

open Lib Server

/-! ## The loop over the array -/

/-- The loop over `is_checked_version` from index `i` on, with `count` checked versions seen
    before; the second one ends it. -/
def selectLoop : List (Option Bool) → Nat → Nat → Option Nat × Option Nat → Option Nat × Option Nat
  | [], _, _, params => params
  | checked :: rest, i, count, params =>
      if checked = some true then
        if count + 1 = 1 then selectLoop rest (i + 1) (count + 1) (some (i + 1), params.2)
        else if count + 1 = 2 then (params.1, some (i + 1))
        else selectLoop rest (i + 1) (count + 1) params
      else selectLoop rest (i + 1) count params

/-- The indices that are checked, counted from `i` on. -/
def checkedFrom : Nat → List (Option Bool) → List Nat
  | _, [] => []
  | i, checked :: rest =>
      if checked = some true then i :: checkedFrom (i + 1) rest else checkedFrom (i + 1) rest

theorem mem_checkedFrom {i j : Nat} {l : List (Option Bool)} :
    j ∈ checkedFrom i l ↔ i ≤ j ∧ l[j - i]? = some (some true) := by
  induction l generalizing i with
  | nil => simp [checkedFrom]
  | cons checked rest ih =>
      by_cases here : j = i
      · subst here
        by_cases isChecked : checked = some true <;> simp [checkedFrom, isChecked, ih]
      · have shift : i ≤ j ∧ (checked :: rest)[j - i]? = some (some true) ↔
            i + 1 ≤ j ∧ rest[j - (i + 1)]? = some (some true) := by
          by_cases later : i + 1 ≤ j
          · rw [show j - i = j - (i + 1) + 1 by omega, List.getElem?_cons_succ]
            simp only [later, true_and, and_iff_right_iff_imp]
            omega
          · simp only [later, false_and, iff_false, not_and]
            omega
        rw [shift, ← ih]
        by_cases isChecked : checked = some true <;> simp [checkedFrom, isChecked, here]

theorem sortedLT_checkedFrom (i : Nat) (l : List (Option Bool)) : (checkedFrom i l).SortedLT := by
  induction l generalizing i with
  | nil => exact List.Pairwise.nil.sortedLT
  | cons checked rest ih =>
      rw [checkedFrom]
      split
      · refine (List.pairwise_cons.mpr ⟨fun j member => ?_, (ih (i + 1)).pairwise⟩).sortedLT
        have later := (mem_checkedFrom.mp member).1
        omega
      · exact ih (i + 1)

theorem mem_checkedIndices {i : Nat} {l : List (Option Bool)} :
    i ∈ checkedIndices l ↔ l[i]? = some (some true) := by
  simp only [checkedIndices, List.mem_filter, List.mem_range, decide_eq_true_eq,
    and_iff_right_iff_imp]
  intro checked
  exact (List.getElem?_eq_some_iff.mp checked).1

theorem sortedLT_checkedIndices (l : List (Option Bool)) : (checkedIndices l).SortedLT :=
  (List.pairwise_lt_range.filter _).sortedLT

/-- Two increasing lists with the same elements are equal. -/
theorem eq_checkedIndices {sorted : List Nat} {l : List (Option Bool)} (increasing : sorted.SortedLT)
    (same : ∀ i, i ∈ sorted ↔ l[i]? = some (some true)) : checkedIndices l = sorted :=
  (sortedLT_checkedIndices l).eq_of_mem_iff increasing fun i =>
    mem_checkedIndices.trans (same i).symm

theorem checkedFrom_zero (l : List (Option Bool)) : checkedIndices l = checkedFrom 0 l :=
  eq_checkedIndices (sortedLT_checkedFrom 0 l) fun i => by simp [mem_checkedFrom]

theorem selectLoop_one (l : List (Option Bool)) (i : Nat) (first : Option Nat) :
    selectLoop l i 1 (first, none) = (first, ((checkedFrom i l)[0]?).map (· + 1)) := by
  induction l generalizing i with
  | nil => rfl
  | cons checked rest ih =>
      by_cases isChecked : checked = some true <;> simp [selectLoop, checkedFrom, isChecked, ih]

theorem selectLoop_zero (l : List (Option Bool)) (i : Nat) :
    selectLoop l i 0 (none, none) =
      (((checkedFrom i l)[0]?).map (· + 1), ((checkedFrom i l)[1]?).map (· + 1)) := by
  induction l generalizing i with
  | nil => rfl
  | cons checked rest ih =>
      by_cases isChecked : checked = some true <;>
        simp [selectLoop, checkedFrom, isChecked, ih, selectLoop_one]

/-- `selected_1` and `selected_2` are the first two checked indices, counted from one. -/
theorem selectLoop_eq (l : List (Option Bool)) :
    selectLoop l 0 0 (none, none) =
      (((checkedIndices l)[0]?).map (· + 1), ((checkedIndices l)[1]?).map (· + 1)) := by
  rw [selectLoop_zero, checkedFrom_zero]

/-! ## One click -/

/-- A click that is not ignored. -/
def Accepts (page : Page) (liIndex : Nat) : Prop :=
  (page.isCheckedVersion[liIndex]?).join = some true ∨ page.versionCheckCount ≠ 2

instance (page : Page) (liIndex : Nat) : Decidable (Accepts page liIndex) :=
  inferInstanceAs (Decidable (_ ∨ _))

theorem click_of_not_accepts {page : Page} {i : Nat} (ignored : ¬ Accepts page i) :
    page.click i = (page, []) := by
  rw [Accepts, not_or, not_not] at ignored
  rw [Page.click, if_pos ignored]

theorem click_of_accepts {page : Page} {i : Nat} (accepted : Accepts page i) :
    (page.click i).1 =
      { isCheckedVersion := assignAt page.isCheckedVersion i
          ((page.isCheckedVersion[i]?).join.map (!·))
        versionCheckCount :=
          if (page.isCheckedVersion[i]?).join = some true then page.versionCheckCount - 1
          else page.versionCheckCount + 1 } := by
  have notIgnored : ¬ ((page.isCheckedVersion[i]?).join ≠ some true ∧ page.versionCheckCount = 2) := by
    rintro ⟨unchecked, full⟩
    cases accepted with
    | inl checked => exact unchecked checked
    | inr room => exact room full
  rw [Page.click, if_neg notIgnored]

theorem click_of_checked {page : Page} {i : Nat}
    (checked : page.isCheckedVersion[i]? = some (some true)) :
    (page.click i).1 =
      ⟨page.isCheckedVersion.set i (some false), page.versionCheckCount - 1⟩ := by
  have inside := (List.getElem?_eq_some_iff.mp checked).1
  rw [click_of_accepts (.inl (by rw [checked]; rfl)), checked]
  simp [assignAt, inside]

theorem click_of_unchecked {page : Page} {i : Nat}
    (unchecked : page.isCheckedVersion[i]? = some (some false)) (room : page.versionCheckCount ≠ 2) :
    (page.click i).1 =
      ⟨page.isCheckedVersion.set i (some true), page.versionCheckCount + 1⟩ := by
  have inside := (List.getElem?_eq_some_iff.mp unchecked).1
  rw [click_of_accepts (.inr room), unchecked]
  simp [assignAt, inside]

/-- The versions asked for are those that the loop finds on the page after the click. -/
theorem directoryJSON_click {page : Page} {i : Nat} {selected1 selected2 : Text}
    (sent : .getDirectoryJSON selected1 selected2 ∈ (page.click i).2) :
    (selected1, selected2) =
      Prod.map paramText paramText
        (selectLoop (page.click i).1.isCheckedVersion 0 0 (none, none)) := by
  by_cases accepted : Accepts page i
  · have charts : ∀ a b, PageRequest.getDirectoryJSON selected1 selected2 ∉ chartRequests a b := by
      intro a b
      cases a <;> cases b <;> simp [chartRequests]
    rw [selectLoop_eq, click_of_accepts accepted]
    rw [Page.click, if_neg (by rw [not_and_or, not_not]; exact accepted)] at sent
    simpa [charts] using sent
  · rw [click_of_not_accepts accepted] at sent
    cases sent

/-! ## What the page keeps -/

/-- The invariant of the selection. -/
structure Consistent (page : Page) : Prop where
  /-- The array holds only 0 and 1. -/
  bits : none ∉ page.isCheckedVersion
  count : page.versionCheckCount = (checkedIndices page.isCheckedVersion).length
  atMostTwo : page.versionCheckCount ≤ 2

/-- A click does what it should: it unchecks a checked button, and the versions asked for
    are all the checked ones in increasing order. -/
structure ClickRight (page : Page) (i : Nat) : Prop where
  unchecks : page.isCheckedVersion[i]? = some (some true) →
    (page.click i).1.isCheckedVersion[i]? = some (some false)
  requests : ∀ selected1 selected2, .getDirectoryJSON selected1 selected2 ∈ (page.click i).2 →
    ∃ checked : List Nat, checked.SortedLT ∧
      (∀ j, j ∈ checked ↔ (page.click i).1.isCheckedVersion[j]? = some (some true)) ∧
      checked.length ≤ 2 ∧ selected1 = paramText ((checked[0]?).map (· + 1)) ∧
      selected2 = paramText ((checked[1]?).map (· + 1))

/-- A consistent page whose array has its first length. -/
structure Sound (page : Page) : Prop extends Consistent page where
  length : page.isCheckedVersion.length = versionNumber

theorem sound_initial : Sound Page.initial where
  bits := by decide
  count := by decide
  atMostTwo := by decide
  length := by decide

theorem checkedIndices_check {l : List (Option Bool)} {i : Nat} (unchecked : l[i]? = some (some false)) :
    checkedIndices (l.set i (some true)) = (checkedIndices l).orderedInsert (· ≤ ·) i := by
  have inside := (List.getElem?_eq_some_iff.mp unchecked).1
  have absent : i ∉ checkedIndices l := by simp [mem_checkedIndices, unchecked]
  apply eq_checkedIndices
  · have increasing := (sortedLT_checkedIndices l).pairwise.imp le_of_lt
    have nodup : ((checkedIndices l).orderedInsert (· ≤ ·) i).Nodup :=
      (List.perm_orderedInsert (· ≤ ·) i _).nodup_iff.mpr
        (List.nodup_cons.mpr ⟨absent, (sortedLT_checkedIndices l).nodup⟩)
    have sorted : ((checkedIndices l).orderedInsert (· ≤ ·) i).SortedLE :=
      (increasing.orderedInsert i _).sortedLE
    exact sorted.sortedLT_of_nodup nodup
  · intro j
    rw [List.mem_orderedInsert, mem_checkedIndices]
    by_cases same : j = i
    · simp [same, inside]
    · simp [same, List.getElem?_set_ne (Ne.symm same)]

theorem checkedIndices_uncheck {l : List (Option Bool)} {i : Nat} (checked : l[i]? = some (some true)) :
    checkedIndices (l.set i (some false)) = (checkedIndices l).erase i := by
  have inside := (List.getElem?_eq_some_iff.mp checked).1
  have nodup := (sortedLT_checkedIndices l).nodup
  apply eq_checkedIndices
  · exact ((sortedLT_checkedIndices l).pairwise.sublist List.erase_sublist).sortedLT
  · intro j
    rw [nodup.mem_erase_iff, mem_checkedIndices]
    by_cases same : j = i
    · simp [same, inside]
    · simp [same, List.getElem?_set_ne (Ne.symm same)]

namespace Sound

variable {page : Page} {i : Nat}

/-- On a sound page a button among the first ten is checked or not. -/
theorem flag (sound : Sound page) (inside : i < versionNumber) :
    page.isCheckedVersion[i]? = some (some true) ∨ page.isCheckedVersion[i]? = some (some false) := by
  have there : i < page.isCheckedVersion.length := sound.length ▸ inside
  cases value : page.isCheckedVersion[i] with
  | none => exact (sound.bits (value ▸ List.getElem_mem there)).elim
  | some b => cases b <;> simp [List.getElem?_eq_getElem there, value]

theorem set (sound : Sound page) (b : Bool) : none ∉ page.isCheckedVersion.set i (some b) ∧
    (page.isCheckedVersion.set i (some b)).length = versionNumber := by
  refine ⟨fun member => ?_, by rw [List.length_set, sound.length]⟩
  cases List.mem_or_eq_of_mem_set member with
  | inl old => exact sound.bits old
  | inr new => cases new

/-- A click on one of the first ten buttons keeps the page sound. -/
theorem click (sound : Sound page) (inside : Accepts page i → i < versionNumber) :
    Sound (page.click i).1 := by
  by_cases accepted : Accepts page i
  · cases sound.flag (inside accepted) with
    | inl checked =>
        obtain ⟨bits, length⟩ := sound.set (i := i) false
        have member : i ∈ checkedIndices page.isCheckedVersion := mem_checkedIndices.mpr checked
        have positive := List.length_pos_of_mem member
        have count := sound.count
        have atMostTwo := sound.atMostTwo
        rw [click_of_checked checked]
        refine ⟨⟨bits, ?_, ?_⟩, length⟩
        · rw [checkedIndices_uncheck checked, List.length_erase_of_mem member]
          dsimp only
          omega
        · dsimp only
          omega
    | inr unchecked =>
        obtain ⟨bits, length⟩ := sound.set (i := i) true
        have room : page.versionCheckCount ≠ 2 := by
          cases accepted with
          | inl checked => simp [unchecked] at checked
          | inr room => exact room
        have count := sound.count
        have atMostTwo := sound.atMostTwo
        rw [click_of_unchecked unchecked room]
        refine ⟨⟨bits, ?_, ?_⟩, length⟩
        · rw [checkedIndices_check unchecked, List.orderedInsert_length]
          dsimp only
          omega
        · dsimp only
          omega
  · rw [click_of_not_accepts accepted]
    exact sound

theorem clickRight (sound : Sound page) (inside : Accepts page i → i < versionNumber) :
    ClickRight page i where
  unchecks checked := by
    have there := (List.getElem?_eq_some_iff.mp checked).1
    rw [click_of_checked checked]
    simp [there]
  requests selected1 selected2 sent := by
    have after := sound.click inside
    have short : (checkedIndices (page.click i).1.isCheckedVersion).length ≤ 2 := by
      have count := after.count
      have atMostTwo := after.atMostTwo
      omega
    have params := directoryJSON_click sent
    rw [selectLoop_eq, Prod.map_apply, Prod.mk.injEq] at params
    exact ⟨_, sortedLT_checkedIndices _, fun j => mem_checkedIndices, short, params⟩

end Sound

/-! ## All clicks -/

/-- The page after a sequence of clicks. -/
def pageAfter (clicks : List Nat) : Page := clicks.foldl (fun page i => (page.click i).1) Page.initial

theorem pageAfter_snoc (clicks : List Nat) (i : Nat) :
    pageAfter (clicks ++ [i]) = ((pageAfter clicks).click i).1 := by
  rw [pageAfter, List.foldl_append]
  rfl

/-- The page is consistent all the time, and every click does what it should. -/
def SelectionKept (clicks : List Nat) : Prop :=
  (∀ before, before <+: clicks → Consistent (pageAfter before)) ∧
    ∀ before i, before ++ [i] <+: clicks → ClickRight (pageAfter before) i

/-- Every click that is not ignored is on one of the first ten buttons. -/
def FirstTen (clicks : List Nat) : Prop :=
  ∀ before i, before ++ [i] <+: clicks → Accepts (pageAfter before) i → i < versionNumber

theorem FirstTen.of_prefix {clicks before : List Nat} (firstTen : FirstTen clicks)
    (start : before <+: clicks) : FirstTen before :=
  fun earlier i along => firstTen earlier i (along.trans start)

theorem FirstTen.sound {clicks : List Nat} (firstTen : FirstTen clicks) : Sound (pageAfter clicks) := by
  induction clicks using List.reverseRecOn with
  | nil => exact sound_initial
  | append_singleton clicks i ih =>
      rw [pageAfter_snoc]
      exact (ih (firstTen.of_prefix (List.prefix_append _ _))).click
        (firstTen clicks i List.prefix_rfl)

/-- An accepted click beyond the tenth button leaves a `NaN` in the array. -/
theorem not_consistent_beyond {page : Page} {i : Nat} (sound : Sound page) (accepted : Accepts page i)
    (beyond : versionNumber ≤ i) : ¬ Consistent (page.click i).1 := by
  intro consistent
  apply consistent.bits
  have outside : ¬ i < page.isCheckedVersion.length := by rw [sound.length]; omega
  have undefined : page.isCheckedVersion[i]? = none := List.getElem?_eq_none (not_lt.mp outside)
  rw [click_of_accepts accepted, undefined]
  simp [assignAt, outside]

/-- While the page is consistent, no click beyond the tenth button has been accepted. -/
theorem firstTen_of_consistent {clicks : List Nat}
    (kept : ∀ before, before <+: clicks → Consistent (pageAfter before)) : FirstTen clicks := by
  induction clicks using List.reverseRecOn with
  | nil => exact fun before i start => by simp at start
  | append_singleton clicks last ih =>
      obtain ⟨earlier, after⟩ := forall_prefix_snoc.mp kept
      have firstTen := ih earlier
      refine forall_event_snoc.mpr ⟨firstTen, fun accepted => ?_⟩
      by_contra beyond
      rw [pageAfter_snoc] at after
      exact not_consistent_beyond firstTen.sound accepted (not_lt.mp beyond) after

/-- The invariant of the selection holds over a sequence of clicks exactly when no click
    beyond the tenth button is accepted in it. -/
theorem selectionKept_iff (clicks : List Nat) : SelectionKept clicks ↔ FirstTen clicks := by
  constructor
  · intro kept
    exact firstTen_of_consistent kept.1
  · intro firstTen
    refine ⟨fun before start => (firstTen.of_prefix start).sound.toConsistent, fun before i start => ?_⟩
    have sound := (firstTen.of_prefix ((List.prefix_append before [i]).trans start)).sound
    exact sound.clickRight (firstTen before i start)

/-- With at most ten versions every sequence of clicks keeps the selection. -/
theorem firstTen_of_buttons {clicks : List Nat} (buttons : ∀ i ∈ clicks, i < versionNumber) :
    FirstTen clicks :=
  fun _ i start _ => buttons i (start.subset (by simp))

/-- Two clicks on an eleventh button lock the selection: nothing is checked, and no other
    version can be checked any more. -/
theorem eleventh_button_locks :
    ¬ SelectionKept [10] ∧ (pageAfter [10, 10]).versionCheckCount = 2 ∧
      checkedIndices (pageAfter [10, 10]).isCheckedVersion = [] ∧
      (pageAfter [10, 10]).click 0 = (pageAfter [10, 10], []) := by
  refine ⟨fun kept => ?_, by decide, by decide, click_of_not_accepts (by decide)⟩
  have inside := (selectionKept_iff [10]).mp kept [] 10 List.prefix_rfl (by decide)
  exact absurd inside (by decide)

end OslabProfiler.Client
