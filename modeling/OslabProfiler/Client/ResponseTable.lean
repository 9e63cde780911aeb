import OslabProfiler.Server.RequestStats

/-! # The table of response times

The second page turns the statistics into a table: the response times of every event are
padded with 0 to the longest list, the matrix is rotated and the rows are numbered. The
rotation goes over a square with as many rows as there are events, whatever the number of
response times is, and it reverses the order of the events.
-/

namespace OslabProfiler.Client

open Lib Server

/-- A value in a row; `none` is `undefined`. -/
abbrev Cell := Option Int

/-! ## The source -/

/-- `report_json[0][event]['Time']` as a list of values, each under the name of its place;
    `none` is a field of `undefined`, which throws. -/
def rowsArr (stats : Stats) (event : Text) : Option (List Cell) :=
  match stats.lookup event with
  | some (.object _ (some time)) =>
      some (time.mapIdx fun i fields =>
        (fields.find? fun field => field.1 = responseTime (i + 1)).map (·.2))
  | _ => none

/-- `MAX_count`. -/
def maxCount (rows : List (List Cell)) : Nat :=
  rows.foldl (fun count row => if count < row.length then row.length else count) 0

/-- Zeros are pushed until the row is as long as the longest one. -/
def padRow (count : Nat) (row : List Cell) : List Cell :=
  row ++ List.replicate (count - row.length) (some 0)

/-- `matrix[i][j]`. -/
def cell (matrix : List (List Cell)) (i j : Nat) : Cell := (((matrix[i]?).getD [])[j]?).join

/-- `result[i][j] = value`. -/
def setCell (result : List (List Cell)) (i j : Nat) (value : Cell) : List (List Cell) :=
  result.modify i fun row => row.set j value

def rotateMatrix (matrix : List (List Cell)) : List (List Cell) :=
  let n := matrix.length
  let result := List.replicate n (List.replicate n (some 0))
  (List.range n).foldl (fun result i =>
    (List.range n).foldl (fun result j => setCell result j (n - 1 - i) (cell matrix i j)) result)
    result

/-- The rows get their numbers in front. -/
def numberRows (kindOfRequest : Nat) (rows : List (List Cell)) : List (List Cell) :=
  rows.mapIdx fun n row => if n < kindOfRequest then some ((n : Int) + 1) :: row else row

/-- `finally_rowArr` when it is added to the table; `none` if `drawChart` throws before. -/
def finallyRowArr (files : Files) : Option (List (List Cell)) := do
  let rows ← files.list.mapM (rowsArr files.readStats)
  let rows := rows.map (padRow (maxCount rows))
  pure (numberRows files.list.length (rotateMatrix rows))

/-- The columns that are added before those of the events. -/
def fixedColumns : List Text :=
  ["ResponseTime", "Guardians of the Galaxy", "The Avengers",
    "Transformers: Age of Extinction"].map String.toList

def columns (files : Files) : List Text := fixedColumns ++ files.list

/-! ## What the table should be -/

/-- The response times of an event. -/
def recorded (files : Files) (event : Text) : List Int :=
  match files.readStats.lookup event with
  | some (.object _ (some time)) => time.map fun fields => (fields.head?.map (·.2)).getD 0
  | _ => []

/-- The `j`-th response time of an event, and 0 behind the end. -/
def time (files : Files) (event : Text) (j : Nat) : Int := (recorded files event).getD j 0

/-- The length of the longest list of response times. -/
def longest (files : Files) : Nat :=
  (files.list.map fun event => (recorded files event).length).foldl max 0

/-- The response times with the number `j`, in the order of the events. -/
def timesAt (files : Files) (j : Nat) : List Int := files.list.map fun event => time files event j

def wantedRows (files : Files) : List (List Cell) :=
  (List.range (longest files)).map fun (j : Nat) =>
    some ((j : Int) + 1) :: (timesAt files j).map some

/-- The rows are the response times, number by number. -/
def RowsRight (files : Files) : Prop := finallyRowArr files = some (wantedRows files)

/-- Every response time stands in the column of its event. -/
def Aligned (files : Files) : Prop :=
  ∀ rows, finallyRowArr files = some rows → ∀ j, j < longest files →
    ∀ i event, files.list[i]? = some event →
      (columns files)[fixedColumns.length + i]? = some event ∧
        cell rows j (fixedColumns.length + i) = some (time files event j)

/-! ## The rotation -/

section Table

variable (n : Nat)

/-- A square matrix, given by its elements. -/
def table (f : Nat → Nat → Cell) : List (List Cell) :=
  (List.range n).map fun a => (List.range n).map (f a)

variable {n}

theorem table_congr {f g : Nat → Nat → Cell} (same : ∀ a < n, ∀ b < n, f a b = g a b) :
    table n f = table n g := by
  refine List.map_congr_left fun a ha => List.map_congr_left fun b hb => ?_
  exact same a (List.mem_range.mp ha) b (List.mem_range.mp hb)

theorem set_map_range {α : Type} (f : Nat → α) (i : Nat) (value : α) :
    ((List.range n).map f).set i value = (List.range n).map fun a => if a = i then value else f a := by
  refine List.ext_getElem (by simp) fun k _ _ => ?_
  simp [List.getElem_set, eq_comm]

theorem modify_map_range {α : Type} (f : Nat → α) (i : Nat) (g : α → α) :
    ((List.range n).map f).modify i g =
      (List.range n).map fun a => if a = i then g (f a) else f a := by
  refine List.ext_getElem (by simp) fun k _ _ => ?_
  simp [List.getElem_modify, eq_comm]

theorem setCell_table (f : Nat → Nat → Cell) (i j : Nat) (value : Cell) :
    setCell (table n f) i j value =
      table n fun a b => if a = i ∧ b = j then value else f a b := by
  rw [setCell, table, modify_map_range]
  refine List.map_congr_left fun a _ => ?_
  by_cases row : a = i
  · simp only [row, if_true, true_and, set_map_range]
  · simp only [row, if_false, false_and]

/-- A loop down a column. -/
theorem foldl_column (rows : List Nat) (f : Nat → Nat → Cell) (c : Nat) (value : Nat → Cell) :
    rows.foldl (fun result j => setCell result j c (value j)) (table n f) =
      table n fun a b => if b = c ∧ a ∈ rows then value a else f a b := by
  induction rows generalizing f with
  | nil => simp
  | cons j rows ih =>
      rw [List.foldl_cons, setCell_table, ih]
      apply table_congr
      intro a _ b _
      by_cases column : b = c <;> by_cases here : a = j <;> by_cases later : a ∈ rows <;>
        simp [column, here, later]

/-- The loop over the columns, from the last one to the first. -/
theorem foldl_columns (cols : List Nat) (inside : ∀ i ∈ cols, i < n) (f : Nat → Nat → Cell)
    (value : Nat → Nat → Cell) :
    cols.foldl (fun result i =>
        (List.range n).foldl (fun result j => setCell result j (n - 1 - i) (value i j)) result)
      (table n f) =
      table n fun a b => if n - 1 - b ∈ cols then value (n - 1 - b) a else f a b := by
  induction cols generalizing f with
  | nil => simp
  | cons i cols ih =>
      obtain ⟨here, later⟩ := List.forall_mem_cons.mp inside
      rw [List.foldl_cons, foldl_column, ih later]
      apply table_congr
      intro a ha b hb
      have column : b = n - 1 - i ↔ n - 1 - b = i := by omega
      by_cases own : n - 1 - b = i <;> by_cases other : n - 1 - b ∈ cols <;>
        simp [column, own, other, ha]

end Table

theorem replicate_eq_table : List.replicate n (List.replicate n (some 0)) = table n fun _ _ => some 0 := by
  simp [table]

/-- Row `j` of the result is column `j` of the matrix, read from the last row to the first. -/
theorem rotateMatrix_eq (matrix : List (List Cell)) :
    rotateMatrix matrix = (List.range matrix.length).map fun j =>
      matrix.reverse.map fun row => (row[j]?).join := by
  have rotated : rotateMatrix matrix = table matrix.length fun a b =>
      cell matrix (matrix.length - 1 - b) a := by
    rw [rotateMatrix, replicate_eq_table, foldl_columns _ fun i member => List.mem_range.mp member]
    apply table_congr
    intro a _ b hb
    have inside : matrix.length - 1 - b < matrix.length := by omega
    simp [inside]
  rw [rotated, table]
  refine List.map_congr_left fun j _ => List.ext_getElem (by simp) fun k h _ => ?_
  have inside : matrix.length - 1 - k < matrix.length := by simp at h; omega
  simp [cell, inside]

/-! ## The rows that are built -/

/-- With a log of response times behind the files, the rows of the events are their times. -/
theorem rowsArr_of_logs {files : Files} {log : TimeLog} (logs : files.Logs log) {event : Text}
    (known : event ∈ files.readStats) :
    rowsArr files.readStats event = some ((recorded files event).map some) := by
  obtain ⟨entry, there⟩ := Option.isSome_iff_exists.mp (AList.lookup_isSome.mpr known)
  have entries := logs event
  rw [there] at entries
  obtain ⟨times, _, rfl⟩ := Option.map_eq_some_iff.mp entries.symm
  rw [rowsArr, recorded, there]
  simp only [entryOf, Option.some.injEq]
  apply List.ext_getElem?
  intro i
  cases value : times[i]? <;> simp [value]

theorem maxCount_eq (rows : List (List Cell)) :
    maxCount rows = (rows.map List.length).foldl max 0 := by
  rw [maxCount, List.foldl_map]
  congr 1
  funext count row
  split <;> omega

theorem padRow_get (count : Nat) (row : List Int) {j : Nat} (inside : j < count) :
    ((padRow count (row.map some))[j]?).join = some (row.getD j 0) := by
  rw [padRow]
  by_cases given : j < row.length
  · rw [List.getElem?_append_left (by simpa using given)]
    simp [given]
  · have zero : j - row.length < count - row.length := by omega
    rw [List.getElem?_append_right (by simpa using given)]
    simp [given, zero]

theorem mapM_eq_map {α β : Type} {l : List α} {f : α → Option β} {g : α → β}
    (each : ∀ a ∈ l, f a = some (g a)) : l.mapM f = some (l.map g) := by
  induction l with
  | nil => rfl
  | cons a l ih =>
      obtain ⟨here, later⟩ := List.forall_mem_cons.mp each
      rw [List.mapM_cons, here, ih later]
      rfl

section Rows

variable {files : Files}

/-- The rows that are added: one per event, with the events in reverse order. -/
theorem finallyRowArr_eq (consistent : files.Consistent) :
    finallyRowArr files = some ((List.range files.list.length).map fun (j : Nat) =>
      some ((j : Int) + 1) :: (files.list.map fun event =>
        ((padRow (longest files) ((recorded files event).map some))[j]?).join).reverse) := by
  obtain ⟨log, logs⟩ := Files.exists_log consistent.numbered
  have rows : files.list.mapM (rowsArr files.readStats) =
      some (files.list.map fun event => (recorded files event).map some) :=
    mapM_eq_map fun event member => rowsArr_of_logs logs ((consistent.listed event).mp member)
  have count : maxCount (files.list.map fun event => (recorded files event).map some) =
      longest files := by
    simp only [maxCount_eq, longest, List.map_map, Function.comp_def, List.length_map]
  rw [finallyRowArr, rows]
  simp only [Option.bind_eq_bind, Option.bind_some, Option.pure_def, Option.some.injEq, count,
    rotateMatrix_eq, numberRows, List.length_map]
  refine List.ext_getElem (by simp) fun j h _ => ?_
  have inside : j < files.list.length := by simpa using h
  simp [inside, Function.comp_def]

/-- The rows are right exactly when there are as many events as response times of the
    longest list, and each row reads the same backwards. -/
theorem rowsRight_iff (consistent : files.Consistent) :
    RowsRight files ↔ files.list.length = longest files ∧
      ∀ j, j < longest files → (timesAt files j).reverse = timesAt files j := by
  have row : ∀ j, j < longest files →
      (files.list.map fun event =>
        ((padRow (longest files) ((recorded files event).map some))[j]?).join) =
        (timesAt files j).map some := by
    intro j inside
    simp only [padRow_get _ _ inside, timesAt, time, List.map_map, Function.comp_def]
  rw [RowsRight, finallyRowArr_eq consistent, Option.some.injEq, wantedRows]
  constructor
  · intro same
    have length : files.list.length = longest files := by simpa using congrArg List.length same
    refine ⟨length, fun j inside => ?_⟩
    have own := List.map_inj_left.mp (length ▸ same) j (List.mem_range.mpr inside)
    rw [row j inside, List.cons.injEq, ← List.map_reverse] at own
    exact List.map_injective_iff.mpr (Option.some_injective _) own.2
  · rintro ⟨length, backwards⟩
    rw [length]
    refine List.map_congr_left fun j member => ?_
    have inside := List.mem_range.mp member
    rw [row j inside, ← List.map_reverse, backwards j inside]

theorem longest_of_ne_nil (nonempty : files.list ≠ []) (rows : RowsRight files)
    (consistent : files.Consistent) : 0 < longest files := by
  have length := ((rowsRight_iff consistent).mp rows).1
  rw [← length]
  exact List.length_pos_of_ne_nil nonempty

/-- The last event has no value in its column, since the fixed columns come before. -/
theorem not_aligned (consistent : files.Consistent) (nonempty : files.list ≠ [])
    (positive : 0 < longest files) : ¬ Aligned files := by
  intro aligned
  have last : files.list[files.list.length - 1]? = some (files.list.getLast nonempty) := by
    rw [← List.getLast?_eq_getElem?, List.getLast?_eq_some_getLast nonempty]
  have rows := finallyRowArr_eq consistent
  have value := (aligned _ rows 0 positive _ _ last).2
  have count := List.length_pos_of_ne_nil nonempty
  simp only [cell, List.getElem?_map, List.getElem?_range count, Option.map_some,
    Option.getD_some] at value
  rw [List.getElem?_eq_none (by simp [fixedColumns]; omega)] at value
  cases value

end Rows

/-- The table of response times: its rows are right exactly when there are as many events as
    response times of the longest list and each row reads the same backwards, and the values
    are then in the columns of their events exactly when there is no event at all. -/
theorem responseTable_iff {files : Files} (consistent : files.Consistent) :
    (RowsRight files ↔ files.list.length = longest files ∧
      ∀ j, j < longest files → (timesAt files j).reverse = timesAt files j) ∧
    (RowsRight files ∧ Aligned files ↔ files.list = []) := by
  refine ⟨rowsRight_iff consistent, fun right => ?_, fun empty => ⟨?_, ?_⟩⟩
  · by_contra nonempty
    exact not_aligned consistent nonempty (longest_of_ne_nil nonempty right.1 consistent) right.2
  · have none : longest files = 0 := by simp [longest, empty]
    rw [rowsRight_iff consistent, none, empty]
    simp
  · intro rows _ j inside
    simp [longest, empty] at inside

theorem consistent_finish {files : Files} (consistent : files.Consistent) (event : Text)
    (time : Int) : (files.finish event time).Consistent := by
  obtain ⟨log, represents⟩ := consistent.represents
  exact (represents.finish event time).consistent

def getRoot : Text := "GET_/_200".toList

def getList : Text := "GET_/getHttpCodeList_200".toList

/-- Two events that were answered in the same times. -/
def twinEvents : Files :=
  (((noFiles.finish getRoot 30).finish getList 30).finish getRoot 45).finish getList 45

theorem consistent_twinEvents : twinEvents.Consistent :=
  consistent_finish (consistent_finish (consistent_finish
    (consistent_finish consistent_noFiles _ _) _ _) _ _) _ _

theorem rowsRight_twinEvents :
    RowsRight twinEvents ∧ ¬ (RowsRight twinEvents ∧ Aligned twinEvents) := by
  obtain ⟨rows, whole⟩ := responseTable_iff consistent_twinEvents
  refine ⟨rows.mpr ⟨by decide +kernel, by decide +kernel⟩, fun right => ?_⟩
  exact absurd (whole.mp right) (by decide +kernel)

/-- Two events that were answered twice each. -/
def twoEvents : Files :=
  (((noFiles.finish getRoot 1).finish getRoot 2).finish getList 3).finish getList 4

/-- The response times of the two events change places, and with a third event there is a
    row of undefined values. -/
theorem events_change_places :
    twoEvents.Consistent ∧ wantedRows twoEvents = [[some 1, some 1, some 3], [some 2, some 2, some 4]] ∧
      finallyRowArr twoEvents = some [[some 1, some 3, some 1], [some 2, some 4, some 2]] ∧
      finallyRowArr (twoEvents.finish [] 5) =
        some [[some 1, some 5, some 3, some 1], [some 2, some 0, some 4, some 2],
          [some 3, none, none, none]] ∧
      ¬ RowsRight twoEvents := by
  have consistent : twoEvents.Consistent :=
    consistent_finish (consistent_finish (consistent_finish
      (consistent_finish consistent_noFiles _ _) _ _) _ _) _ _
  refine ⟨consistent, by decide +kernel, by decide +kernel, by decide +kernel, fun right => ?_⟩
  exact absurd right (by unfold RowsRight; decide +kernel)

end OslabProfiler.Client
