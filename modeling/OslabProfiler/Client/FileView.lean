import OslabProfiler.Lib.Command
import OslabProfiler.Lib.Text

/-! # Selecting files

A click on a file asks the server for it, and what is done depends on `before_element` when the
answer comes, not when the click was made. The answer for the file that is selected takes the
selection back; any other one moves the mark and shows the text. The elements are looked up by
their ids in the listing that stands there at that time, and a new comparison replaces the
listing without taking the selection back. An element that is not found throws in the middle of
the work.
-/

namespace OslabProfiler.Client

open Lib Command

/-- The size and the colour of an entry of the listing. -/
inductive Look where
  /-- As the listing was made. -/
  | untouched
  /-- `17px`, `#888` -/
  | grey
  /-- `18px`, `red` -/
  | red
  deriving DecidableEq

structure FileView where
  /-- The ids of the entries in `code_view_left`, in order. -/
  listed : List (Text × Look) := []
  /-- The text of `code_view_right_div`. -/
  right : Text := []
  beforeElement : Option Text := none
  deriving DecidableEq

def FileView.ids (v : FileView) : List Text := v.listed.map Prod.fst

/-- A part of the callback; it stops with a `TypeError`. -/
abbrev Selecting := Command FileView Unit

/-- The first entry with the id gets a new look. -/
def restyle (id : Text) (look : Look) : List (Text × Look) → List (Text × Look)
  | [] => []
  | e :: rest => if e.1 = id then (id, look) :: rest else e :: restyle id look rest

/-- `document.getElementById(id).style` is assigned to. -/
def setStyle (id : Text) (look : Look) : Selecting Unit := do
  let ids ← read FileView.ids
  if ids.contains id then update fun v => { v with listed := restyle id look v.listed }
  else stop ()

/-- The callback of `selectFile`, when `json[0].str` is `str`. -/
def selectFile (id str : Text) : Selecting Unit := do
  let before ← read FileView.beforeElement
  if before = some id then do
    setStyle id .grey
    update fun v => { v with right := [] }
    update fun v => { v with beforeElement := none }
  else do
    match before with
    | none => pure ()
    | some b => setStyle b .grey
    setStyle id .red
    update fun v => { v with right := "\n\r".toList ++ str }
    update fun v => { v with beforeElement := some id }

/-- What happens to the page. -/
inductive ViewEvent where
  /-- The answer for a file comes in. -/
  | answer (id str : Text)
  /-- The listing is replaced. -/
  | listing (ids : List Text)
  /-- Another handler writes into the pane on the right. -/
  | notice (text : Text)

def FileView.step (v : FileView) : ViewEvent → FileView
  | .answer id str => (selectFile id str v).2
  | .listing ids => { v with listed := ids.map fun id => (id, .untouched) }
  | .notice text => { v with right := text }

def FileView.run (events : List ViewEvent) : FileView := events.foldl FileView.step {}

theorem FileView.run_snoc (events : List ViewEvent) (e : ViewEvent) :
    FileView.run (events ++ [e]) = (FileView.run events).step e := List.foldl_append

/-! ## One answer -/

theorem map_fst_restyle (id : Text) (look : Look) (listed : List (Text × Look)) :
    (restyle id look listed).map Prod.fst = listed.map Prod.fst := by
  induction listed with
  | nil => rfl
  | cons e rest ih =>
      rw [restyle]
      split
      case isTrue same => rw [List.map_cons, List.map_cons, same]
      case isFalse => rw [List.map_cons, List.map_cons, ih]

theorem wp_setStyle {id : Text} {look : Look} {v : FileView} {Q : Unit → FileView → Prop}
    {E : Unit → FileView → Prop} : wp (setStyle id look) Q E v ↔
      (id ∈ v.ids → Q () { v with listed := restyle id look v.listed }) ∧
      (id ∉ v.ids → E () v) := by
  simp only [setStyle, wp_bind, wp_read, wp_ite, wp_update, wp_stop, List.contains_iff_mem]

/-- The listing once the mark of the last selection is taken away. -/
def FileView.unmarked (v : FileView) : List (Text × Look) :=
  match v.beforeElement with
  | none => v.listed
  | some b => restyle b .grey v.listed

theorem ids_unmarked (v : FileView) : v.unmarked.map Prod.fst = v.ids := by
  rw [FileView.unmarked]
  cases v.beforeElement with
  | none => rfl
  | some b => exact map_fst_restyle b .grey v.listed

/-- Both the file and the last selection are in the listing. -/
def FileView.Finds (v : FileView) (id : Text) : Prop :=
  id ∈ v.ids ∧ ∀ b ∈ v.beforeElement, b ∈ v.ids

/-- What an answer can do. -/
inductive Selected (v : FileView) (id str : Text) : FileView → Prop
  | taken (selected : v.beforeElement = some id) (finds : v.Finds id) :
      Selected v id str ⟨restyle id .grey v.listed, [], none⟩
  | moved (other : v.beforeElement ≠ some id) (finds : v.Finds id) :
      Selected v id str ⟨restyle id .red v.unmarked, "\n\r".toList ++ str, some id⟩
  | lost (missing : ¬ v.Finds id) (listed : List (Text × Look))
      (stays : listed = v.listed ∨ listed = v.unmarked) :
      Selected v id str ⟨listed, v.right, v.beforeElement⟩

theorem selected_step (v : FileView) (id str : Text) :
    Selected v id str (v.step (.answer id str)) := by
  obtain ⟨listed, right, before⟩ := v
  refine wp_final (P := Selected ⟨listed, right, before⟩ id str) ?_
  simp only [selectFile, wp_bind, wp_read, wp_ite, wp_setStyle, wp_update]
  constructor
  · rintro rfl
    constructor
    · intro here
      refine .taken rfl ⟨here, fun b same => ?_⟩
      rwa [← Option.some.inj same]
    · intro missing
      exact .lost (fun finds => missing finds.1) _ (.inl rfl)
  · intro other
    cases before with
    | none =>
        simp only [wp_bind, wp_setStyle, wp_update]
        constructor
        · intro here
          exact .moved other ⟨here, by simp⟩
        · intro missing
          exact .lost (fun finds => missing finds.1) _ (.inl rfl)
    | some b =>
        simp only [wp_bind, wp_setStyle, wp_update]
        refine ⟨fun there => ⟨fun here => ?_, fun missing => ?_⟩, fun missing => ?_⟩
        · rw [FileView.ids, map_fst_restyle] at here
          refine .moved other ⟨here, fun c same => ?_⟩
          rwa [← Option.some.inj same]
        · rw [FileView.ids, map_fst_restyle] at missing
          exact .lost (fun finds => missing finds.1) _ (.inr rfl)
        · exact .lost (fun finds => missing (finds.2 b rfl)) _ (.inl rfl)

/-! ## The mark -/

def NoneMarked (listed : List (Text × Look)) : Prop := ∀ e ∈ listed, e.2 ≠ .red

/-- Of all entries only the first one with the id is red. -/
def OnlyMarked (id : Text) (listed : List (Text × Look)) : Prop :=
  ∃ front rest, listed = front ++ (id, .red) :: rest ∧ id ∉ front.map Prod.fst ∧
    NoneMarked front ∧ NoneMarked rest

/-- At most one entry is red, and then it is that of `before_element`. -/
def FileView.Marks (v : FileView) : Prop :=
  NoneMarked v.listed ∨ ∃ b ∈ v.beforeElement, OnlyMarked b v.listed

theorem restyle_append {id : Text} {front : List (Text × Look)} (first : id ∉ front.map Prod.fst)
    (look old : Look) (rest : List (Text × Look)) :
    restyle id look (front ++ (id, old) :: rest) = front ++ (id, look) :: rest := by
  induction front with
  | nil => simp [restyle]
  | cons e front ih =>
      rw [List.map_cons, List.mem_cons, not_or] at first
      rw [List.cons_append, restyle, if_neg (Ne.symm first.1), ih first.2, List.cons_append]

/-- The first entry with an id. -/
theorem exists_first {id : Text} {listed : List (Text × Look)} (here : id ∈ listed.map Prod.fst) :
    ∃ front look rest, listed = front ++ (id, look) :: rest ∧ id ∉ front.map Prod.fst := by
  induction listed with
  | nil => cases here
  | cons e listed ih =>
      by_cases same : e.1 = id
      · exact ⟨[], e.2, listed, by rw [← same, List.nil_append], List.not_mem_nil⟩
      · rw [List.map_cons, List.mem_cons] at here
        obtain ⟨front, look, rest, rfl, first⟩ := ih (here.resolve_left (Ne.symm same))
        exact ⟨e :: front, look, rest, rfl, List.not_mem_cons_of_ne_of_not_mem (Ne.symm same) first⟩

theorem NoneMarked.restyle_grey {listed : List (Text × Look)} (unmarked : NoneMarked listed)
    (id : Text) : NoneMarked (restyle id .grey listed) := by
  induction listed with
  | nil => exact unmarked
  | cons e listed ih =>
      have parts := List.forall_mem_cons.mp unmarked
      rw [restyle]
      split
      · exact List.forall_mem_cons.mpr ⟨by simp, parts.2⟩
      · exact List.forall_mem_cons.mpr ⟨parts.1, ih parts.2⟩

theorem OnlyMarked.restyle_grey {id : Text} {listed : List (Text × Look)}
    (marked : OnlyMarked id listed) : NoneMarked (restyle id .grey listed) := by
  obtain ⟨front, rest, rfl, first, before, behind⟩ := marked
  rw [restyle_append first]
  exact List.forall_mem_append.mpr ⟨before, List.forall_mem_cons.mpr ⟨by simp, behind⟩⟩

theorem NoneMarked.restyle_red {id : Text} {listed : List (Text × Look)} (unmarked : NoneMarked listed)
    (here : id ∈ listed.map Prod.fst) : OnlyMarked id (restyle id .red listed) := by
  obtain ⟨front, look, rest, rfl, first⟩ := exists_first here
  obtain ⟨before, behind⟩ := List.forall_mem_append.mp unmarked
  exact ⟨front, rest, restyle_append first _ _ _, first, before,
    (List.forall_mem_cons.mp behind).2⟩

/-- Without the mark of the last selection nothing is marked. -/
theorem FileView.Marks.unmarked {v : FileView} (marks : v.Marks) : NoneMarked v.unmarked := by
  rw [FileView.unmarked]
  cases before : v.beforeElement with
  | none =>
      cases marks with
      | inl none => exact none
      | inr one =>
          obtain ⟨b, same, _⟩ := one
          rw [before] at same
          cases same
  | some b =>
      cases marks with
      | inl none => exact none.restyle_grey b
      | inr one =>
          obtain ⟨c, same, marked⟩ := one
          rw [before] at same
          cases same
          exact marked.restyle_grey

theorem FileView.Marks.step {v : FileView} (marks : v.Marks) (e : ViewEvent) : (v.step e).Marks := by
  cases e with
  | notice text => exact marks
  | listing ids =>
      refine .inl fun e member => ?_
      obtain ⟨id, _, rfl⟩ := List.mem_map.mp member
      simp
  | answer id str =>
      have unmarked := marks.unmarked
      have outcome := selected_step v id str
      generalize v.step (.answer id str) = v' at outcome ⊢
      cases outcome with
      | taken selected finds =>
          rw [FileView.unmarked, selected] at unmarked
          exact .inl unmarked
      | moved other finds =>
          refine .inr ⟨id, rfl, unmarked.restyle_red ?_⟩
          rw [ids_unmarked]
          exact finds.1
      | lost missing listed stays =>
          cases stays with
          | inl same => exact same ▸ marks
          | inr taken => exact .inl (taken ▸ unmarked)

/-! ## What the page is for -/

/-- The file that is selected, and the text that is shown. -/
structure Pane where
  selected : Option Text := none
  text : Text := []
  deriving DecidableEq

/-- An answer shows its file, or takes it back if it is the one that is shown; a new listing
    changes nothing. -/
def Pane.step (pane : Pane) : ViewEvent → Pane
  | .answer id str =>
      if pane.selected = some id then ⟨none, []⟩ else ⟨some id, "\n\r".toList ++ str⟩
  | .listing _ => pane
  | .notice text => { pane with text := text }

def Pane.run (events : List ViewEvent) : Pane := events.foldl Pane.step {}

theorem Pane.run_snoc (events : List ViewEvent) (e : ViewEvent) :
    Pane.run (events ++ [e]) = (Pane.run events).step e := List.foldl_append

def FileView.pane (v : FileView) : Pane := ⟨v.beforeElement, v.right⟩

/-- The ids in the listing after an event. -/
def relist (ids : List Text) : ViewEvent → List Text
  | .listing new => new
  | .answer _ _ | .notice _ => ids

/-- The ids of the listing that stands there after the events. -/
def listedAfter (events : List ViewEvent) : List Text := events.foldl relist []

theorem listedAfter_snoc (events : List ViewEvent) (e : ViewEvent) :
    listedAfter (events ++ [e]) = relist (listedAfter events) e := List.foldl_append

/-- Whenever an answer comes, its file and the one selected are in the listing. -/
def AllFound (events : List ViewEvent) : Prop :=
  ∀ front id str, front ++ [.answer id str] <+: events →
    id ∈ listedAfter front ∧ ∀ b ∈ (Pane.run front).selected, b ∈ listedAfter front

/-- The page shows what it is for, at any time. -/
def Follows (events : List ViewEvent) : Prop :=
  ∀ front, front <+: events → (FileView.run front).pane = Pane.run front

theorem ids_step (v : FileView) (e : ViewEvent) : (v.step e).ids = relist v.ids e := by
  cases e with
  | notice text => rfl
  | listing ids => simp [FileView.step, FileView.ids, relist, Function.comp_def]
  | answer id str =>
      have outcome := selected_step v id str
      generalize v.step (.answer id str) = v' at outcome ⊢
      cases outcome with
      | taken => exact map_fst_restyle id .grey v.listed
      | moved => exact (map_fst_restyle id .red v.unmarked).trans (ids_unmarked v)
      | lost missing listed stays =>
          cases stays with
          | inl same => exact congrArg (List.map Prod.fst) same
          | inr same => exact (congrArg (List.map Prod.fst) same).trans (ids_unmarked v)

theorem ids_run (events : List ViewEvent) : (FileView.run events).ids = listedAfter events := by
  induction events using List.reverseRecOn with
  | nil => rfl
  | append_singleton events e ih =>
      rw [FileView.run_snoc, ids_step, ih, listedAfter_snoc]

/-- An answer does what it is for exactly when it finds its elements: the selection changes with
    every answer, and a lost one does not change it. -/
theorem pane_answer_iff (v : FileView) (id str : Text) :
    (v.step (.answer id str)).pane = v.pane.step (.answer id str) ↔ v.Finds id := by
  have outcome := selected_step v id str
  generalize v.step (.answer id str) = v' at outcome ⊢
  cases outcome with
  | taken selected finds =>
      rw [iff_true_right finds, Pane.step, FileView.pane, FileView.pane, if_pos selected]
  | moved other finds =>
      rw [iff_true_right finds, Pane.step, FileView.pane, FileView.pane, if_neg other]
  | lost missing listed stays =>
      rw [iff_false_right missing, Pane.step, FileView.pane, FileView.pane]
      intro same
      have selection := congrArg Pane.selected same
      by_cases selected : v.beforeElement = some id
      · rw [if_pos selected, selected] at selection
        cases selection
      · rw [if_neg selected] at selection
        exact selected selection

theorem finds_run {events : List ViewEvent}
    (follows : (FileView.run events).pane = Pane.run events) (id : Text) :
    (FileView.run events).Finds id ↔
      id ∈ listedAfter events ∧ ∀ b ∈ (Pane.run events).selected, b ∈ listedAfter events := by
  rw [← follows, ← ids_run]
  exact Iff.rfl

/-- The page shows what it is for, at any time, exactly when every answer finds its file and the
    selected one in the listing. -/
theorem fileView_follows_iff (events : List ViewEvent) : Follows events ↔ AllFound events := by
  constructor
  · intro follows front id str inside
    have before := follows front ((List.prefix_append front _).trans inside)
    have after := follows _ inside
    rw [FileView.run_snoc, Pane.run_snoc, ← before, pane_answer_iff] at after
    exact (finds_run before id).mp after
  · intro found front inside
    induction front using List.reverseRecOn with
    | nil => rfl
    | append_singleton front e ih =>
        have before := ih ((List.prefix_append front [e]).trans inside)
        rw [FileView.run_snoc, Pane.run_snoc, ← before]
        cases e with
        | notice text => rfl
        | listing ids => rfl
        | answer id str =>
            rw [pane_answer_iff, finds_run before id]
            exact found front id str inside

/-! ## A selection that is gone -/

theorem marks_run (events : List ViewEvent) : (FileView.run events).Marks := by
  induction events using List.reverseRecOn with
  | nil => exact .inl fun e member => by cases member
  | append_singleton events e ih =>
      rw [FileView.run_snoc]
      exact ih.step e

/-- An entry that is not there is not marked. -/
theorem FileView.Marks.unmarked_of_gone {v : FileView} (marks : v.Marks) {b : Text}
    (selected : v.beforeElement = some b) (gone : b ∉ v.ids) : NoneMarked v.listed := by
  cases marks with
  | inl none => exact none
  | inr one =>
      obtain ⟨c, same, front, rest, listed, _⟩ := one
      rw [selected] at same
      cases same
      exact (gone (by simp [FileView.ids, listed])).elim

/-- What the other handlers leave in the pane. -/
def noticed (text : Text) : ViewEvent → Text
  | .notice new => new
  | .answer _ _ | .listing _ => text

/-- No listing has the file. -/
def NeverListed (b : Text) (events : List ViewEvent) : Prop :=
  ∀ ids, ViewEvent.listing ids ∈ events → b ∉ ids

theorem stuck_step {v : FileView} {b : Text} (selected : v.beforeElement = some b)
    (gone : b ∉ v.ids) (e : ViewEvent) :
    (v.step e).beforeElement = some b ∧ (v.step e).right = noticed v.right e := by
  cases e with
  | notice text => exact ⟨selected, rfl⟩
  | listing ids => exact ⟨selected, rfl⟩
  | answer id str =>
      have missing : ¬ v.Finds id := fun finds => gone (finds.2 b selected)
      have outcome := selected_step v id str
      generalize v.step (.answer id str) = v' at outcome ⊢
      cases outcome with
      | taken _ finds => exact (missing finds).elim
      | moved _ finds => exact (missing finds).elim
      | lost => exact ⟨selected, rfl⟩

/-- Once the selected file is not in the listing, no answer is shown and no file is marked any
    more, whichever file is clicked on, until a listing with that file comes. -/
theorem fileView_stuck (events more : List ViewEvent) (b : Text)
    (selected : (FileView.run events).beforeElement = some b) (gone : b ∉ listedAfter events)
    (never : NeverListed b more) :
    (FileView.run (events ++ more)).beforeElement = some b ∧
      (FileView.run (events ++ more)).right = more.foldl noticed (FileView.run events).right ∧
      NoneMarked (FileView.run (events ++ more)).listed := by
  have stays : (FileView.run (events ++ more)).beforeElement = some b ∧
      (FileView.run (events ++ more)).right = more.foldl noticed (FileView.run events).right ∧
      b ∉ listedAfter (events ++ more) := by
    induction more using List.reverseRecOn with
    | nil =>
        rw [List.append_nil]
        exact ⟨selected, rfl, gone⟩
    | append_singleton more e ih =>
        obtain ⟨same, text, away⟩ := ih fun ids member => never ids (by simp [member])
        obtain ⟨still, right⟩ := stuck_step same (by rwa [ids_run]) e
        rw [← List.append_assoc, FileView.run_snoc, List.foldl_append, ← text, listedAfter_snoc]
        refine ⟨still, right, ?_⟩
        cases e with
        | answer id str => exact away
        | notice text => exact away
        | listing ids => exact never ids (by simp)
  refine ⟨stays.1, stays.2.1, (marks_run _).unmarked_of_gone stays.1 ?_⟩
  rw [ids_run]
  exact stays.2.2

/-- The file `a` is selected when a listing without it comes. -/
def goneEvents : List ViewEvent :=
  [.listing ["a".toList, "b".toList], .answer "a".toList "old".toList, .listing ["b".toList]]

theorem fileView_stuck_gone :
    (FileView.run (goneEvents ++ [.answer "b".toList "new".toList, .notice "stats".toList,
        .answer "b".toList "new".toList])).beforeElement = some "a".toList ∧
      (FileView.run (goneEvents ++ [.answer "b".toList "new".toList, .notice "stats".toList,
        .answer "b".toList "new".toList])).right = "stats".toList ∧
      NoneMarked (FileView.run (goneEvents ++ [.answer "b".toList "new".toList,
        .notice "stats".toList, .answer "b".toList "new".toList])).listed :=
  fileView_stuck goneEvents _ "a".toList (by decide) (by decide)
    (fun ids member => by simp at member)

end OslabProfiler.Client
