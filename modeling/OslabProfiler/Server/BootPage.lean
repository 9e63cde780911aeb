import OslabProfiler.Lib.Text

/-! # The version buttons of the boot page

The boot page shows one button per registered version. A click checks or unchecks
a version and sends requests for the versions that are checked then: one version
is shown by itself, two are compared.
-/

namespace OslabProfiler.Server

open Lib

/-- The requests of a click, with the query parameters as the server receives them. -/
inductive PageRequest where
  | getDirectoryJSON (selected1 selected2 : Text)
  | getDeviceDriverInfo (kernelVersion : Text)
  | bootgraphCurrent
  | bootgraphCurDmesg
  | bootgraphKernel1 (selected1 selected2 : Text)
  | bootgraphKernel2 (selected1 selected2 : Text)
  | calcDmesgBasedWatt (kernelVersion : Text)
  deriving DecidableEq

structure Page where
  /-- `is_checked_version`: 0 or 1; `none` is `NaN`, or `undefined` in a hole. -/
  isCheckedVersion : List (Option Bool)
  versionCheckCount : Int

def versionNumber : Nat := 10

/-- The page when it is loaded. -/
def Page.initial : Page := ⟨List.replicate versionNumber (some false), 0⟩

/-- Assignment to an array element, which may lie behind the end. -/
def assignAt (l : List (Option Bool)) (i : Nat) (v : Option Bool) : List (Option Bool) :=
  if i < l.length then l.set i v else l ++ List.replicate (i - l.length) none ++ [v]

/-- The indices that are checked, in increasing order. -/
def checkedIndices (isChecked : List (Option Bool)) : List Nat :=
  (List.range isChecked.length).filter fun i => isChecked[i]? = some (some true)

/-- A parameter in a query: `null` or a number. -/
def paramText : Option Nat → Text
  | none => "null".toList
  | some n => Nat.toDigits 10 n

/-- The requests for the charts; `drawChart` asks for the boot graph of what it draws, and for
    the records of the current boot if it got none. -/
def chartRequests (selected1 selected2 : Option Nat) : List PageRequest :=
  match selected2 with
  | none =>
      match selected1 with
      | none => [.bootgraphCurrent, .bootgraphCurDmesg]
      | some _ =>
          [.getDeviceDriverInfo ("V".toList ++ paramText selected1),
            .bootgraphKernel1 (paramText selected1) (paramText selected2)]
  | some _ =>
      [.getDeviceDriverInfo ("V".toList ++ paramText selected1),
        .getDeviceDriverInfo ("V".toList ++ paramText selected2),
        .bootgraphKernel2 (paramText selected1) (paramText selected2)]

/-- `ul.onclick` for the button `liIndex`. -/
def Page.click (page : Page) (liIndex : Nat) : Page × List PageRequest :=
  let checked := (page.isCheckedVersion[liIndex]?).join
  -- a third version is not checked
  if checked ≠ some true ∧ page.versionCheckCount = 2 then (page, [])
  else
    let page : Page :=
      { isCheckedVersion := assignAt page.isCheckedVersion liIndex (checked.map (!·))
        versionCheckCount :=
          if checked = some true then page.versionCheckCount - 1
          else page.versionCheckCount + 1 }
    let selected := checkedIndices page.isCheckedVersion
    let selected1 := (selected[0]?).map (· + 1)
    let selected2 := (selected[1]?).map (· + 1)
    (page,
      .getDirectoryJSON (paramText selected1) (paramText selected2) ::
        chartRequests selected1 selected2 ++
        [.calcDmesgBasedWatt ("V".toList ++ Nat.toDigits 10 (liIndex + 1))])

/-! ## The first click -/

theorem checkedIndices_eq_nil {l : List (Option Bool)} (unchecked : some true ∉ l) :
    checkedIndices l = [] := by
  simp only [checkedIndices, List.filter_eq_nil_iff, decide_eq_true_eq]
  intro i _ checked
  exact unchecked (List.mem_of_getElem? checked)

/-- On a fresh page a click selects the version of the button, -/
theorem requests_click_initial {i : Nat} (inside : i < versionNumber) :
    (Page.initial.click i).2 =
      [.getDirectoryJSON (Nat.toDigits 10 (i + 1)) "null".toList,
        .getDeviceDriverInfo ("V".toList ++ Nat.toDigits 10 (i + 1)),
        .bootgraphKernel1 (Nat.toDigits 10 (i + 1)) "null".toList,
        .calcDmesgBasedWatt ("V".toList ++ Nat.toDigits 10 (i + 1))] := by
  have selected : checkedIndices
      (assignAt (List.replicate versionNumber (some false)) i (some true)) = [i] := by
    revert i
    decide
  have unchecked : ((List.replicate versionNumber (some false))[i]?).join = some false := by
    simp [inside]
  simp [Page.click, Page.initial, unchecked, selected, chartRequests, paramText]

/-- and none if there is no place for it in the array of checked versions. -/
theorem requests_click_initial_beyond {i : Nat} (beyond : versionNumber ≤ i) :
    (Page.initial.click i).2 =
      [.getDirectoryJSON "null".toList "null".toList, .bootgraphCurrent, .bootgraphCurDmesg,
        .calcDmesgBasedWatt ("V".toList ++ Nat.toDigits 10 (i + 1))] := by
  have selected : checkedIndices
      (assignAt (List.replicate versionNumber (some false)) i none) = [] := by
    apply checkedIndices_eq_nil
    rw [assignAt, if_neg (by simpa using beyond)]
    simp
  have undefined : ((List.replicate versionNumber (some false))[i]?).join = none := by
    simp [beyond]
  simp [Page.click, Page.initial, undefined, selected, chartRequests, paramText]

end OslabProfiler.Server
