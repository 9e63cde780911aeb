import OslabProfiler.Server.BootPage
import OslabProfiler.Server.SourceView

/-! # The mode of a listing and of a view

`/getDirectoryJSON` compares two versions when its second selection is a number, and
`/viewFile` shows differences when the second selection kept from the last listing is
true. The two tests are compared here over every sequence of requests. They disagree on
the text that the boot page sends when no second version is checked.
-/

namespace OslabProfiler.Server

open Lib

/-- How a file is shown: itself, or the differences found in it. -/
inductive ViewMode where
  | file
  | diff
  deriving DecidableEq

/-- The branch that `/viewFile` takes. -/
def viewMode (s : ServerState) : ViewMode := if !s.selected2.truthy then .file else .diff

/-- The view that a listing calls for. -/
def Shown.mode : Shown → ViewMode
  | .single => .file
  | .comparison _ => .diff

def fileView (env : Env) (path : FilePath) : Outcome :=
  match env.readFile path with
  | .throws => ⟨[.error500], false⟩
  | .error => ⟨[], true⟩
  | .data contents => ⟨[.str contents], false⟩

def diffView (diffLog : List DiffLog) (path : FilePath) : Outcome :=
  if diffLog.length < 1 then ⟨[.error500], false⟩ else ⟨sendMatching path diffLog, false⟩

/-- A file view depends on the file alone and a diff view on the last comparison alone. -/
theorem viewFile_eq_mode (env : Env) (s : ServerState) {path : FilePath}
    (data : path ≠ .noData) :
    viewFile env s path =
      match viewMode s with
      | .file => fileView env path
      | .diff => diffView s.diffLog path := by
  rw [viewFile, if_neg data, viewMode]
  cases s.selected2.truthy <;> rfl

/-- Neither test finds a second version, or both do. -/
def PlainSelection (selected2 : Query) : Prop :=
  selected2 = .missing ∨ (selected2.truthy = true ∧ IsComparison selected2)

theorem not_isComparison_missing : ¬ IsComparison .missing := by
  simp [IsComparison, Query.text, isNaNText]

/-- The empty text is the number 0. -/
theorem isComparison_empty : IsComparison (.one []) := by decide +kernel

/-- The two tests of the second selection agree exactly on the plain ones. -/
theorem plainSelection_iff (selected2 : Query) :
    (selected2.truthy = true ↔ IsComparison selected2) ↔ PlainSelection selected2 := by
  cases selected2 with
  | missing => simp [PlainSelection, Query.truthy, not_isComparison_missing]
  | one t =>
      by_cases empty : t = []
      · subst empty
        simp [PlainSelection, Query.truthy, isComparison_empty]
      · simp [PlainSelection, Query.truthy, empty]
  | many ts => simp [PlainSelection, Query.truthy]

section Sequences

variable {ι : Type}

/-- Every view is of the mode in which the last listing before it was answered. -/
def AgreeOnMode (events : List (ClientRequest ι)) : Prop :=
  EachView events fun before _ path => path ≠ .noData →
    ∀ listing ∈ (listings before).head?, viewMode (serverState before) = listing.2.mode

/-- The mode of a listing is decided by its second selection. -/
theorem mode_of_listed {events : List (ClientRequest ι)} {listing : Query × Shown}
    (listed : listing ∈ listings events) : listing.2.mode = .diff ↔ IsComparison listing.1 := by
  obtain ⟨e, _, shown⟩ := List.mem_filterMap.mp (List.mem_reverse.mp listed)
  cases request : e.request with
  | viewFile path => simp [ClientRequest.listing, request] at shown
  | getDirectoryJSON selected1 selected2 =>
      simp only [ClientRequest.listing, request, Option.some.injEq] at shown
      subst shown
      by_cases comparison : IsComparison selected2 <;> simp [shownBy, comparison, Shown.mode]

/-- The mode of a view is decided by the truth of the last second selection. -/
theorem viewMode_serverState {events : List (ClientRequest ι)} {listing : Query × Shown}
    (last : listing ∈ (listings events).head?) :
    viewMode (serverState events) = .diff ↔ listing.1.truthy = true := by
  have kept : (serverState events).selected2.truthy = listing.1.truthy := by
    rw [(serverState_remembers events).1, lastTruthy, Option.mem_def.mp last, Option.any_some]
  rw [viewMode, kept]
  cases listing.1.truthy <;> simp

theorem ViewMode.eq_iff_diff {a b : ViewMode} : a = b ↔ (a = .diff ↔ b = .diff) := by
  cases a <;> cases b <;> simp

theorem view_agrees_iff {before : List (ClientRequest ι)} {listing : Query × Shown}
    (last : listing ∈ (listings before).head?) :
    viewMode (serverState before) = listing.2.mode ↔ PlainSelection listing.1 := by
  have listed : listing ∈ listings before := List.mem_of_mem_head? last
  rw [ViewMode.eq_iff_diff, viewMode_serverState last, mode_of_listed listed, plainSelection_iff]

/-- Listing and viewing agree exactly when each viewed file comes after a listing whose
    second selection is missing, or is a non-empty text that reads as a number. -/
theorem agreeOnMode_iff (events : List (ClientRequest ι)) :
    AgreeOnMode events ↔ EachView events fun before _ path => path ≠ .noData →
      ∀ listing ∈ (listings before).head?, PlainSelection listing.1 := by
  constructor
  · intro agree before e after path split request data listing last
    exact (view_agrees_iff last).mp (agree before e after path split request data listing last)
  · intro plain before e after path split request data listing last
    exact (view_agrees_iff last).mpr (plain before e after path split request data listing last)

end Sequences

/-! ## The boot page -/

/-- The request for a listing which the page sends. -/
def PageRequest.source : PageRequest → Option SourceRequest
  | .getDirectoryJSON selected1 selected2 => some (.getDirectoryJSON (.one selected1) (.one selected2))
  | _ => none

/-- With less than two versions checked, the page asks for one version. -/
theorem not_isComparison_null : ¬ IsComparison (.one (paramText none)) := by decide +kernel

/-- A file opened after a listing whose second selection is not plain is shown in the wrong
    mode. -/
theorem wrong_mode_after {ι : Type} (before : List (ClientRequest ι)) {e view : ClientRequest ι}
    {selected1 selected2 : Query} {path : FilePath}
    (listing : e.request = .getDirectoryJSON selected1 selected2)
    (viewing : view.request = .viewFile path) (data : path ≠ .noData)
    (notPlain : ¬ PlainSelection selected2) : ¬ AgreeOnMode (before ++ [e, view]) := by
  have last : (selected2, shownBy e.env selected1 selected2) ∈ (listings (before ++ [e])).head? := by
    rw [listings_snoc]
    simp [ClientRequest.listing, listing]
  intro agree
  exact notPlain ((view_agrees_iff last).mp
    (agree (before ++ [e]) view [] path (by simp) viewing data _ last))

/-- The first click on a version lists that version by itself, and a file which is opened
    then is looked for among differences. The same goes, the other way round, for an empty
    second selection. -/
theorem boot_page_view_disagrees :
    (Page.initial.click 0).2.filterMap PageRequest.source =
      [.getDirectoryJSON (.one "1".toList) (.one "null".toList)] ∧
    ¬ AgreeOnMode
      [(⟨(), sameKernels, .getDirectoryJSON (.one "1".toList) (.one "null".toList)⟩ :
          ClientRequest Unit),
        ⟨(), sameKernels, .viewFile (.text "/a.c".toList)⟩] ∧
    ¬ AgreeOnMode
      [(⟨(), sameKernels, .getDirectoryJSON (.one "1".toList) (.one [])⟩ : ClientRequest Unit),
        ⟨(), sameKernels, .viewFile (.text "/a.c".toList)⟩] := by
  refine ⟨?_, ?_, ?_⟩
  · rw [requests_click_initial (by decide)]
    rfl
  · refine wrong_mode_after [] rfl rfl (by simp) ?_
    intro plain
    cases plain with
    | inl absent => cases absent
    | inr number => exact not_isComparison_null number.2
  · refine wrong_mode_after [] rfl rfl (by simp) ?_
    intro plain
    cases plain with
    | inl absent => cases absent
    | inr number => cases number.1

end OslabProfiler.Server
