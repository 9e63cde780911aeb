import OslabProfiler.Client.Selection

/-! # The power figures of the boot page

Two fields show the power of the selected versions. The reply to a click changes them
from what they showed before: it moves the first figure to the second place, overwrites
one of them or clears them. The figure of the first version is not replaced when that
version is unchecked and the second one moves up.
-/

namespace OslabProfiler.Client

open Lib Server

/-- `v1_Power_usage` and `v2_Power_usage`. -/
structure Figures where
  v1 : Text
  v2 : Text
  deriving DecidableEq

/-- The two fields when the page is loaded. -/
def Figures.initial : Figures := ⟨"...".toList, "...".toList⟩

/-- What the reply to `/calc_dmesg_based_watt` does, with the selection of its click. -/
def Figures.reply (figures : Figures) (liIndex : Nat) (params : Option Nat × Option Nat)
    (watt : Text) : Figures :=
  let figures : Figures :=
    if params.1 = some (liIndex + 1) then ⟨watt, figures.v1⟩
    else if params.2 = some (liIndex + 1) then { figures with v2 := watt }
    else figures
  let figures := if params.1 = none then { figures with v1 := "0".toList } else figures
  if params.2 = none then { figures with v2 := "0".toList } else figures

structure View where
  page : Page
  figures : Figures

def View.initial : View := ⟨Page.initial, Figures.initial⟩

/-- `selected_1` and `selected_2` on a page. -/
def selection (page : Page) : Option Nat × Option Nat :=
  selectLoop page.isCheckedVersion 0 0 (none, none)

section Watt

-- `watt n` is the text of the power of version `n`, as the server replies
variable (watt : Nat → Text)

/-- A click and the reply to it, which comes before the next click. -/
def View.click (view : View) (liIndex : Nat) : View :=
  if Accepts view.page liIndex then
    let page := (view.page.click liIndex).1
    ⟨page, view.figures.reply liIndex (selection page) (watt (liIndex + 1))⟩
  else view

def viewAfter (clicks : List Nat) : View := clicks.foldl (View.click watt) View.initial

/-- The figures of the selected versions, and 0 where no version is selected. -/
def Right (view : View) : Prop :=
  view.figures.v1 = (selection view.page).1.elim "0".toList watt ∧
    view.figures.v2 = (selection view.page).2.elim "0".toList watt

/-- The figures are right after every click. -/
def FiguresFollow (clicks : List Nat) : Prop :=
  ∀ before, before <+: clicks → before ≠ [] → Right watt (viewAfter watt before)

variable {watt}

theorem page_viewAfter (clicks : List Nat) : (viewAfter watt clicks).page = pageAfter clicks := by
  induction clicks using List.reverseRecOn with
  | nil => rfl
  | append_singleton clicks i ih =>
      rw [pageAfter_snoc, ← ih, viewAfter, List.foldl_append, ← viewAfter]
      simp only [List.foldl_cons, List.foldl_nil, View.click]
      split
      case isTrue => rfl
      case isFalse ignored => rw [click_of_not_accepts ignored]

theorem viewAfter_snoc (clicks : List Nat) (i : Nat) :
    viewAfter watt (clicks ++ [i]) = (viewAfter watt clicks).click watt i := by
  rw [viewAfter, List.foldl_append]
  rfl

theorem selection_eq {page : Page} {indices : List Nat}
    (checked : checkedIndices page.isCheckedVersion = indices) :
    selection page = ((indices[0]?).map (· + 1), (indices[1]?).map (· + 1)) := by
  rw [selection, selectLoop_eq, checked]

theorem selection_click {page : Page} {i : Nat} {indices : List Nat}
    (checked : checkedIndices (page.click i).1.isCheckedVersion = indices) :
    selection (page.click i).1 = ((indices[0]?).map (· + 1), (indices[1]?).map (· + 1)) :=
  selection_eq checked

/-- A click that checks a version leaves the figures right. -/
theorem right_check {view : View} {i : Nat} (sound : Sound view.page)
    (unchecked : view.page.isCheckedVersion[i]? = some (some false))
    (room : view.page.versionCheckCount ≠ 2)
    (before : Right watt view ∨ checkedIndices view.page.isCheckedVersion = []) :
    Right watt (view.click watt i) := by
  have after := click_of_unchecked unchecked room
  have inserted : checkedIndices (view.page.click i).1.isCheckedVersion =
      (checkedIndices view.page.isCheckedVersion).orderedInsert (· ≤ ·) i := by
    rw [after]
    exact checkedIndices_check unchecked
  have absent : i ∉ checkedIndices view.page.isCheckedVersion := by
    simp [mem_checkedIndices, unchecked]
  have count := sound.count
  have atMostTwo := sound.atMostTwo
  rw [View.click, if_pos (.inr room)]
  match indices : checkedIndices view.page.isCheckedVersion with
  | [] =>
      rw [indices] at inserted
      simp [Right, Figures.reply, selection_click inserted]
  | [a] =>
      obtain ⟨v1, v2⟩ : Right watt view := by simpa [indices] using before
      rw [selection_eq indices] at v1
      have other : i ≠ a := by simpa [indices] using absent
      rw [indices] at inserted
      by_cases first : i ≤ a
      · have front : [a].orderedInsert (· ≤ ·) i = [i, a] := by simp [first]
        simp [Right, Figures.reply, selection_click (inserted.trans front), v1]
      · have behind : [a].orderedInsert (· ≤ ·) i = [a, i] := by simp [first]
        simp [Right, Figures.reply, selection_click (inserted.trans behind), v1, Ne.symm other]
  | a :: b :: rest =>
      rw [indices] at count
      simp only [List.length_cons] at count
      omega

/-- A click that unchecks a version leaves them right unless it was the first of two with
    another power. -/
theorem right_uncheck_iff {view : View} {i : Nat} (sound : Sound view.page)
    (checked : view.page.isCheckedVersion[i]? = some (some true)) (before : Right watt view) :
    Right watt (view.click watt i) ↔
      ∀ j, checkedIndices view.page.isCheckedVersion = [i, j] → watt (i + 1) = watt (j + 1) := by
  have erased : checkedIndices (view.page.click i).1.isCheckedVersion =
      (checkedIndices view.page.isCheckedVersion).erase i := by
    rw [click_of_checked checked]
    exact checkedIndices_uncheck checked
  have member : i ∈ checkedIndices view.page.isCheckedVersion := mem_checkedIndices.mpr checked
  have nodup := (sortedLT_checkedIndices view.page.isCheckedVersion).nodup
  have count := sound.count
  have atMostTwo := sound.atMostTwo
  obtain ⟨v1, v2⟩ := before
  rw [View.click, if_pos (.inl (by rw [checked]; rfl))]
  match indices : checkedIndices view.page.isCheckedVersion with
  | [] => simp [indices] at member
  | [a] =>
      obtain rfl : i = a := by simpa [indices] using member
      have empty : [i].erase i = [] := by simp
      rw [indices, empty] at erased
      simp [Right, Figures.reply, selection_click erased]
  | [a, b] =>
      have different : a ≠ b := by simpa [indices] using nodup
      rw [selection_eq indices] at v1
      by_cases first : i = a
      · -- the figure that stays is the one of the version that was unchecked
        subst first
        have second : [i, b].erase i = [b] := by simp
        rw [indices, second] at erased
        have other : ¬ b = i := Ne.symm different
        simp [Right, Figures.reply, selection_click erased, v1, other]
      · obtain rfl : i = b := by simpa [indices, first] using member
        have single : [a, i].erase i = [a] := by simp [different]
        rw [indices, single] at erased
        simp [Right, Figures.reply, selection_click erased, v1, different]
  | a :: b :: c :: rest =>
      rw [indices] at count
      simp only [List.length_cons] at count
      omega

/-- What one click does to figures that are right, or that nobody looks at yet. -/
theorem right_click_iff {view : View} {i : Nat} (sound : Sound view.page)
    (inside : i < versionNumber)
    (before : Right watt view ∨ view = View.initial) :
    Right watt (view.click watt i) ↔
      ∀ j, checkedIndices view.page.isCheckedVersion = [i, j] → watt (i + 1) = watt (j + 1) := by
  have fresh : view = View.initial → checkedIndices view.page.isCheckedVersion = [] := by
    rintro rfl
    decide
  cases sound.flag inside with
  | inl checked =>
      have shown : Right watt view := by
        cases before with
        | inl right => exact right
        | inr initial =>
            have member := mem_checkedIndices.mpr checked
            simp [fresh initial] at member
      exact right_uncheck_iff sound checked shown
  | inr unchecked =>
      have absent : i ∉ checkedIndices view.page.isCheckedVersion := by
        simp [mem_checkedIndices, unchecked]
      have never : ∀ j, checkedIndices view.page.isCheckedVersion ≠ [i, j] := by
        intro j indices
        simp [indices] at absent
      simp only [never, false_implies, implies_true, iff_true]
      by_cases room : view.page.versionCheckCount = 2
      · -- the click is ignored
        have ignored : ¬ Accepts view.page i := by simp [Accepts, unchecked, room]
        have count := sound.count
        rw [View.click, if_neg ignored]
        cases before with
        | inl right => exact right
        | inr initial =>
            rw [fresh initial] at count
            simp [room] at count
      · exact right_check sound unchecked room (before.imp_right fresh)

/-- On at most ten buttons the figures follow the selection exactly when every version that
    is unchecked as the first of two has the same power as the second one. -/
theorem figuresFollow_iff {clicks : List Nat} (buttons : ∀ i ∈ clicks, i < versionNumber) :
    FiguresFollow watt clicks ↔ ∀ before i j, before ++ [i] <+: clicks →
      checkedIndices (pageAfter before).isCheckedVersion = [i, j] →
        watt (i + 1) = watt (j + 1) := by
  have each : FiguresFollow watt clicks ↔ ∀ before i, before ++ [i] <+: clicks →
      ∀ j, checkedIndices (pageAfter before).isCheckedVersion = [i, j] →
        watt (i + 1) = watt (j + 1) := by
    refine forall_prefix_iff_forall_event (fun nonempty => absurd rfl nonempty)
      fun before i along follow => ?_
    have shorter : before <+: clicks := (List.prefix_append before [i]).trans along
    have inside : i < versionNumber := buttons i (along.subset (by simp))
    have sound := (firstTen_of_buttons fun i member => buttons i (shorter.subset member)).sound
    rw [← @page_viewAfter watt] at sound
    -- the page shows no figures before the first click
    have start : Right watt (viewAfter watt before) ∨ viewAfter watt before = View.initial := by
      by_cases empty : before = []
      · exact .inr (by rw [empty]; rfl)
      · exact .inl (follow before List.prefix_rfl empty)
    rw [viewAfter_snoc, right_click_iff sound inside start, page_viewAfter]
    simp
  rw [each]
  exact forall₂_congr fun before i => forall_comm

end Watt

/-- The figures of three versions. -/
def threeWatts (n : Nat) : Text :=
  if n = 1 then "95.1".toList else if n = 2 then "96.2".toList else "97.3".toList

/-- Selected in any order, and the second one unselected. -/
theorem figuresFollow_second : FiguresFollow threeWatts [1, 0, 1] := by
  refine (figuresFollow_iff (by decide)).mpr fun before i j along indices => ?_
  have parts := (List.mem_inits _ _).mpr along
  simp only [List.inits, List.map_cons, List.map_nil, List.mem_cons, List.append_eq_nil_iff,
    List.not_mem_nil, or_false, List.cons_ne_nil, and_false, false_or] at parts
  obtain first | second | third := parts
  · obtain ⟨rfl, rfl⟩ := List.append_singleton_inj.mp (show before ++ [i] = [] ++ [1] from first)
    simp [show checkedIndices (pageAfter []).isCheckedVersion = [] by decide] at indices
  · obtain ⟨rfl, rfl⟩ := List.append_singleton_inj.mp (show before ++ [i] = [1] ++ [0] from second)
    simp [show checkedIndices (pageAfter [1]).isCheckedVersion = [1] by decide] at indices
  · obtain ⟨rfl, rfl⟩ := List.append_singleton_inj.mp (show before ++ [i] = [1, 0] ++ [1] from third)
    simp [show checkedIndices (pageAfter [1, 0]).isCheckedVersion = [0, 1] by decide] at indices

/-- The first of two versions is unchecked: its figure stays and is shown as that of the
    second one. -/
theorem first_figure_stays :
    selection (pageAfter [0, 1, 0]) = (some 2, none) ∧
      (viewAfter threeWatts [0, 1, 0]).figures = ⟨"95.1".toList, "0".toList⟩ ∧
      ¬ FiguresFollow threeWatts [0, 1, 0] := by
  refine ⟨by decide, by decide, fun follow => ?_⟩
  have right := follow [0, 1, 0] List.prefix_rfl (by decide)
  exact absurd right.1 (by decide)

end OslabProfiler.Client
