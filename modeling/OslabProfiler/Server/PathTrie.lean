import OslabProfiler.Lib.PathMap
import OslabProfiler.Server.PathTree
import OslabProfiler.Server.Versions

/-! # The tree of changed files is a trie

As a nested map, the tree is known by what stands at the end of each list of property
names. One turn of `createPathTree` is then an insertion at the parts of a path. The
paths of a comparison lead to files of one file system, so none of them leads through
another, and the tree is the same for every order of the entries.
-/

namespace OslabProfiler.Server

open Lib Lib.PathMap

/-- A value without what is below it. -/
inductive Shape where
  | text (t : Text)
  | flag
  | lines (ls : List Text)
  | object
  deriving DecidableEq

namespace TreeValue

def shape : TreeValue → Shape
  | .text t => .text t
  | .flag => .flag
  | .lines ls => .lines ls
  | .object _ => .object

/-- The value at the end of a list of property names. -/
def follow : TreeValue → List Text → Option TreeValue
  | value, [] => some value
  | .object props, key :: rest => (property props key).bind fun value => value.follow rest
  | .text _, _ :: _ => none
  | .flag, _ :: _ => none
  | .lines _, _ :: _ => none

/-- A value as a nested map: what stands at each list of property names. -/
def nested (value : TreeValue) (names : List Text) : Option Shape := (value.follow names).map shape

@[simp] theorem nested_nil (value : TreeValue) : value.nested [] = some value.shape := by
  cases value <;> rfl

theorem nested_object_cons (props : List (Text × TreeValue)) (key : Text) (rest : List Text) :
    (TreeValue.object props).nested (key :: rest) =
      (property props key).bind fun value => value.nested rest := by
  rw [nested, follow]
  cases property props key <;> rfl

end TreeValue

@[simp] theorem property_nil (key : Text) : property [] key = none := rfl

theorem property_setProperty (props : List (Text × TreeValue)) (key key' : Text)
    (value : TreeValue) :
    property (setProperty props key value) key' =
      if key' = key then some value else property props key' := by
  induction props with
  | nil => by_cases same : key' = key <;> simp [setProperty, property, same, eq_comm]
  | cons p props ih =>
      obtain ⟨k, old⟩ := p
      by_cases here : k = key
      · subst here
        by_cases same : key' = k <;> simp [setProperty, property, same, eq_comm]
      · rw [setProperty, if_neg here]
        by_cases found : k = key'
        · subst found
          simp [property, here]
        · simpa [property, found] using ih

theorem nested_setProperty (props : List (Text × TreeValue)) (part key : Text)
    (value : TreeValue) (rest : List Text) :
    (TreeValue.object (setProperty props part value)).nested (key :: rest) =
      if key = part then value.nested rest else (TreeValue.object props).nested (key :: rest) := by
  rw [TreeValue.nested_object_cons, TreeValue.nested_object_cons, property_setProperty]
  by_cases same : key = part <;> simp [same]

/-! ## One path -/

/-- Below a property that was set, the tree is what was put there. -/
theorem nested_setProperty_eq_insert {props : List (Text × TreeValue)} {part : Text}
    {rest : List Text} {value : TreeValue} {sub : List Text → Option Shape}
    (inner : value.nested =
      insert .object (fun q => (TreeValue.object props).nested (part :: q)) rest sub) :
    (TreeValue.object (setProperty props part value)).nested =
      insert .object (TreeValue.object props).nested (part :: rest) sub := by
  funext q
  cases q with
  | nil => rw [TreeValue.nested_nil, insert_cons_nil]; rfl
  | cons key q => rw [nested_setProperty, insert_cons_cons, inner]

/-- As a nested map, `place` is an insertion. -/
theorem nested_place (file : TreeValue) {parts : List Text} (nonempty : parts ≠ [])
    {props props' : List (Text × TreeValue)} (placed : place file parts props = some props') :
    (TreeValue.object props').nested =
      insert .object (TreeValue.object props).nested parts file.nested := by
  induction parts generalizing props props' with
  | nil => exact (nonempty rfl).elim
  | cons part rest ih =>
      cases rest with
      | nil =>
          simp only [place, Option.some.injEq] at placed
          subst placed
          apply nested_setProperty_eq_insert
          funext q
          rw [insert_nil]
      | cons next rest =>
          rw [place] at placed
          swap
          · simp
          cases there : property props part with
          | none =>
              simp only [there, Option.map_eq_some_iff] at placed
              obtain ⟨inner, innerPlaced, rfl⟩ := placed
              apply nested_setProperty_eq_insert
              rw [ih (by simp) innerPlaced]
              apply insert_congr (by simp)
              intro q below
              cases q with
              | nil => exact (below rfl).elim
              | cons key q => simp [TreeValue.nested_object_cons, there]
          | some value =>
              cases value with
              | object old =>
                  simp only [there, Option.map_eq_some_iff] at placed
                  obtain ⟨inner, innerPlaced, rfl⟩ := placed
                  apply nested_setProperty_eq_insert
                  rw [ih (by simp) innerPlaced]
                  congr 1
                  funext q
                  simp [TreeValue.nested_object_cons, there]
              | text t => simp [there] at placed
              | flag => simp [there] at placed
              | lines ls => simp [there] at placed

/-- Nothing but objects stands on the way to a place. -/
def Free (m : List Text → Option Shape) (parts : List Text) : Prop :=
  ∀ q s, q <+: parts → q ≠ parts → m q = some s → s = .object

/-- A path finds its place when only objects stand on the way. -/
theorem place_of_free (file : TreeValue) {parts : List Text}
    {props : List (Text × TreeValue)} (free : Free (TreeValue.object props).nested parts) :
    ∃ props', place file parts props = some props' := by
  induction parts generalizing props with
  | nil => exact ⟨props, rfl⟩
  | cons part rest ih =>
      cases rest with
      | nil => exact ⟨_, rfl⟩
      | cons next rest =>
          rw [place]
          swap
          · simp
          -- what stands at `part` is on the way
          have below : ∀ value, property props part = some value →
              Free value.nested (next :: rest) := by
            intro value there q s above proper found
            refine free (part :: q) s (by simpa using above) (by simpa using proper) ?_
            simpa [TreeValue.nested_object_cons, there] using found
          cases there : property props part with
          | none =>
              have empty : Free (TreeValue.object []).nested (next :: rest) := by
                intro q s _ _ found
                cases q with
                | nil => simpa [TreeValue.shape] using found.symm
                | cons key q => simp [TreeValue.nested_object_cons] at found
              obtain ⟨inner, innerPlaced⟩ := ih empty
              simp [innerPlaced]
          | some value =>
              have isObject := below value there [] value.shape List.nil_prefix (by simp)
                (TreeValue.nested_nil value)
              cases value with
              | object old =>
                  obtain ⟨inner, innerPlaced⟩ := ih (below _ there)
                  simp [innerPlaced]
              | text t => cases isObject
              | flag => cases isObject
              | lines ls => cases isObject

/-! ## All paths -/

/-- The nested map that a list of entries describes. -/
noncomputable def entriesMap (m : List Text → Option Shape) (logs : List DiffLog) :
    List Text → Option Shape :=
  insertAll .object (fun log => shownParts log.path) (fun log => (fileEntry log).nested) m logs

/-- The loop of `createPathTree` inserts every entry, from any tree in which the way to
    each of them is free. -/
theorem nested_foldlM_place {logs : List DiffLog} (distinct : logs.Nodup)
    (scattered : Scattered (fun log => shownParts log.path) logs)
    (nonempty : ∀ log ∈ logs, shownParts log.path ≠ []) {tree : List (Text × TreeValue)}
    (free : ∀ log ∈ logs, Free (TreeValue.object tree).nested (shownParts log.path)) :
    ∃ tree', logs.foldlM (fun tree log => place (fileEntry log) (shownParts log.path) tree) tree =
        some tree' ∧
      (TreeValue.object tree').nested = entriesMap (TreeValue.object tree).nested logs := by
  induction logs generalizing tree with
  | nil => exact ⟨tree, rfl, rfl⟩
  | cons log logs ih =>
      obtain ⟨fresh, distinct⟩ := List.nodup_cons.mp distinct
      obtain ⟨placed, isPlaced⟩ := place_of_free (fileEntry log) (free log List.mem_cons_self)
      have nested := nested_place (fileEntry log) (nonempty log List.mem_cons_self) isPlaced
      have stillFree : ∀ log' ∈ logs,
          Free (TreeValue.object placed).nested (shownParts log'.path) := by
        intro log' member q s above proper found
        have apart := scattered log List.mem_cons_self log' (List.mem_cons_of_mem _ member)
          (fun h => fresh (h ▸ member))
        rw [nested] at found
        by_cases own : q = shownParts log.path
        · subst own
          exact (apart.1 above).elim
        · cases insert_eq_some found with
          | inl below =>
              obtain ⟨r, rfl, _⟩ := below
              exact (apart.1 ((List.prefix_append _ r).trans above)).elim
          | inr rest =>
              cases rest with
              | inl toward =>
                  rw [insert_above toward own] at found
                  exact (Option.some.inj found).symm
              | inr kept =>
                  exact free log' (List.mem_cons_of_mem _ member) q s above proper kept
      obtain ⟨tree', built, result⟩ := ih distinct scattered.tail
        (fun a ha => nonempty a (List.mem_cons_of_mem _ ha)) stillFree
      refine ⟨tree', ?_, ?_⟩
      · rw [List.foldlM_cons, isPlaced]
        exact built
      · rw [result, nested]
        rfl

/-- A list of paths as a comparison yields them: different files in the directory of the
    kernels, none of them a directory on the way to another. -/
structure DiffPaths (logs : List DiffLog) : Prop where
  distinct : (logs.map DiffLog.path).Nodup
  inside : ∀ log ∈ logs, kernelDirPath ++ ['/'] <+: log.path
  files : ∀ a ∈ logs, ∀ b ∈ logs, ¬ a.path ++ ['/'] <+: b.path

theorem DiffPaths.perm {logs logs' : List DiffLog} (h : DiffPaths logs)
    (perm : logs'.Perm logs) : DiffPaths logs' where
  distinct := (perm.map DiffLog.path).nodup_iff.mpr h.distinct
  inside log member := h.inside log (perm.subset member)
  files a ha b hb := h.files a (perm.subset ha) b (perm.subset hb)

/-- `split` and the first `kernel_management` on the way; later ones are parts like any
    other. -/
theorem shownParts_inside (rest : Text) :
    shownParts (kernelDirPath ++ '/' :: rest) = rest.splitOn '/' := by
  have upTo : (kernelDirPath.splitOn '/').dropWhile (· ≠ "kernel_management".toList) =
      ["kernel_management".toList] := by decide +kernel
  have cut : (kernelDirPath ++ '/' :: rest).splitOn '/' =
      kernelDirPath.splitOn '/' ++ rest.splitOn '/' :=
    List.splitOnP_append_cons kernelDirPath rest (by simp)
  rw [shownParts, cut, List.dropWhile_append, upTo]
  rfl

theorem intercalate_append_cons (sep : Text) (xs : List Text) (y : Text) (ys : List Text)
    (nonempty : xs ≠ []) :
    sep.intercalate (xs ++ y :: ys) = sep.intercalate xs ++ sep ++ sep.intercalate (y :: ys) := by
  induction xs with
  | nil => exact (nonempty rfl).elim
  | cons x xs ih =>
      cases xs with
      | nil => simp [List.intercalate_cons_cons]
      | cons x' xs =>
          have step := ih (by simp)
          simp only [List.cons_append] at step ⊢
          rw [List.intercalate_cons_cons, step, List.intercalate_cons_cons]
          simp

/-- A path whose parts begin another one is that path or a directory on the way to it. -/
theorem prefix_of_splitOn_prefix {a b : Text} (h : a.splitOn '/' <+: b.splitOn '/') :
    a = b ∨ a ++ ['/'] <+: b := by
  obtain ⟨rest, same⟩ := h
  have joinA : List.intercalate ['/'] (a.splitOn '/') = a := List.intercalate_splitOn '/'
  have joinB : List.intercalate ['/'] (b.splitOn '/') = b := List.intercalate_splitOn '/'
  cases rest with
  | nil =>
      left
      rw [← joinA, ← joinB, ← same, List.append_nil]
  | cons part rest =>
      right
      rw [← same, intercalate_append_cons _ _ _ _ (List.splitOn_ne_nil '/' a), joinA] at joinB
      exact ⟨_, joinB⟩

theorem DiffPaths.parts {logs : List DiffLog} (h : DiffPaths logs) {log : DiffLog}
    (member : log ∈ logs) :
    ∃ rest, log.path = kernelDirPath ++ '/' :: rest ∧ shownParts log.path = rest.splitOn '/' := by
  obtain ⟨rest, path⟩ := h.inside log member
  rw [List.append_assoc] at path
  exact ⟨rest, path.symm, path ▸ shownParts_inside rest⟩

theorem DiffPaths.nodup {logs : List DiffLog} (h : DiffPaths logs) : logs.Nodup :=
  h.distinct.of_map _

theorem DiffPaths.nonempty {logs : List DiffLog} (h : DiffPaths logs) {log : DiffLog}
    (member : log ∈ logs) : shownParts log.path ≠ [] := by
  obtain ⟨rest, _, parts⟩ := h.parts member
  rw [parts]
  exact List.splitOn_ne_nil '/' rest

/-- Two files of a comparison have parts that do not lead through each other. -/
theorem DiffPaths.not_prefix {logs : List DiffLog} (h : DiffPaths logs) {a b : DiffLog}
    (ha : a ∈ logs) (hb : b ∈ logs) (other : a.path ≠ b.path) :
    ¬ shownParts a.path <+: shownParts b.path := by
  obtain ⟨restA, pathA, partsA⟩ := h.parts ha
  obtain ⟨restB, pathB, partsB⟩ := h.parts hb
  intro through
  rw [partsA, partsB] at through
  cases prefix_of_splitOn_prefix through with
  | inl same => exact other (by rw [pathA, pathB, same])
  | inr below =>
      apply h.files a ha b hb
      rw [pathA, pathB, List.append_assoc, List.cons_append]
      exact (List.prefix_append_right_inj _).mpr (List.cons_prefix_cons.mpr ⟨rfl, below⟩)

theorem DiffPaths.scattered {logs : List DiffLog} (h : DiffPaths logs) :
    Scattered (fun log => shownParts log.path) logs := by
  intro a ha b hb other
  have paths : a.path ≠ b.path := fun same => other (List.inj_on_of_nodup_map h.distinct ha hb same)
  exact ⟨h.not_prefix ha hb paths, h.not_prefix hb ha paths.symm⟩

theorem nested_emptyTree (q : List Text) :
    (TreeValue.object []).nested q = if q = [] then some .object else none := by
  cases q with
  | nil => rfl
  | cons key q => simp [TreeValue.nested_object_cons]

theorem DiffPaths.createPathTree {logs : List DiffLog} (h : DiffPaths logs) :
    ∃ tree, createPathTree logs = some tree ∧
      (TreeValue.object tree).nested = entriesMap (TreeValue.object []).nested logs := by
  refine nested_foldlM_place h.nodup h.scattered (fun log member => h.nonempty member) ?_
  intro log _ q s _ _ found
  rw [nested_emptyTree] at found
  split at found
  · exact (Option.some.inj found).symm
  · cases found

theorem mem_of_property {props : List (Text × TreeValue)} {key : Text} {value : TreeValue}
    (found : property props key = some value) : (key, value) ∈ props := by
  obtain ⟨p, isP, rfl⟩ := Option.map_eq_some_iff.mp found
  have name : p.1 = key := by simpa using List.find?_some isP
  rw [← name]
  exact List.mem_of_find?_eq_some isP

/-- A file entry has fields, which are not objects, and nothing below them. -/
theorem nested_fileEntry_some {log : DiffLog} {r : List Text} {s : Shape}
    (found : (fileEntry log).nested r = some s) : r = [] ∨ ∃ field, r = [field] ∧ s ≠ .object := by
  cases r with
  | nil => exact .inl rfl
  | cons key r =>
      rw [fileEntry, TreeValue.nested_object_cons] at found
      obtain ⟨value, there, below⟩ := Option.bind_eq_some_iff.mp found
      have field := mem_of_property there
      simp only [List.mem_cons, Prod.mk.injEq, List.not_mem_nil, or_false] at field
      right
      cases r with
      | nil =>
          rw [TreeValue.nested_nil] at below
          refine ⟨key, rfl, ?_⟩
          obtain ⟨_, rfl⟩ | ⟨_, rfl⟩ | ⟨_, rfl⟩ := field <;> cases below <;> simp [TreeValue.shape]
      | cons key' r =>
          obtain ⟨_, rfl⟩ | ⟨_, rfl⟩ | ⟨_, rfl⟩ := field <;> cases below

theorem nested_fileEntry_fields (log : DiffLog) :
    (fileEntry log).nested ["isFile".toList] = some .flag ∧
    (fileEntry log).nested ["path".toList] = some (.text log.path) ∧
    (fileEntry log).nested ["diffData".toList] = some (.lines log.diffdata) := by
  refine ⟨?_, ?_, ?_⟩ <;> rfl

/-- The tree of a comparison: every entry is found at the parts of its path, with its path
    and its lines; everything lies on the way to an entry or is a field of it; and another
    order of the entries yields the same nested map. -/
theorem createPathTree_trie (logs : List DiffLog) (paths : DiffPaths logs) :
    ∃ tree, createPathTree logs = some tree ∧
      (∀ log ∈ logs,
        (TreeValue.object tree).nested (shownParts log.path) = some .object ∧
        (TreeValue.object tree).nested (shownParts log.path ++ ["isFile".toList]) = some .flag ∧
        (TreeValue.object tree).nested (shownParts log.path ++ ["path".toList]) =
          some (.text log.path) ∧
        (TreeValue.object tree).nested (shownParts log.path ++ ["diffData".toList]) =
          some (.lines log.diffdata)) ∧
      (∀ q s, q ≠ [] → (TreeValue.object tree).nested q = some s →
        ∃ log ∈ logs, q <+: shownParts log.path ∨
          ∃ field, q = shownParts log.path ++ [field] ∧ s ≠ .object) ∧
      ∀ logs', logs'.Perm logs → ∃ tree', createPathTree logs' = some tree' ∧
        (TreeValue.object tree').nested = (TreeValue.object tree).nested := by
  obtain ⟨tree, built, nested⟩ := paths.createPathTree
  refine ⟨tree, built, fun log member => ?_, fun q s below node => ?_, fun logs' perm => ?_⟩
  · have entry : ∀ r, (TreeValue.object tree).nested (shownParts log.path ++ r) =
        (fileEntry log).nested r := by
      intro r
      rw [nested, entriesMap]
      exact insertAll_found paths.nodup paths.scattered _ member r
    obtain ⟨isFile, path, diffData⟩ := nested_fileEntry_fields log
    refine ⟨?_, (entry _).trans isFile, (entry _).trans path, (entry _).trans diffData⟩
    simpa [fileEntry, TreeValue.shape] using entry []
  · rw [nested, entriesMap] at node
    cases insertAll_eq_some node with
    | inl before =>
        rw [nested_emptyTree, if_neg below] at before
        cases before
    | inr found =>
        obtain ⟨log, member, place⟩ := found
        refine ⟨log, member, ?_⟩
        cases place with
        | inl onTheWay => exact .inl onTheWay
        | inr own =>
            obtain ⟨r, rfl, inEntry⟩ := own
            cases nested_fileEntry_some inEntry with
            | inl root => exact .inl (by rw [root, List.append_nil])
            | inr field =>
                obtain ⟨field, rfl, leaf⟩ := field
                exact .inr ⟨field, rfl, leaf⟩
  · obtain ⟨tree', built', nested'⟩ := (paths.perm perm).createPathTree
    refine ⟨tree', built', ?_⟩
    rw [nested', nested]
    exact insertAll_perm perm paths.scattered _

/-- Two files below one directory; one of them has `kernel_management` in its path again. -/
def twoLogs : List DiffLog :=
  [⟨kernelDirPath ++ "/V1/a.c".toList, ["1c1".toList]⟩,
    ⟨kernelDirPath ++ "/V1/kernel_management/a.c".toList, []⟩]

theorem diffPaths_twoLogs : DiffPaths twoLogs where
  distinct := by decide +kernel
  inside := by decide +kernel
  files := by decide +kernel

theorem createPathTree_trie_twoLogs :
    ∃ tree, createPathTree twoLogs = some tree ∧
      (TreeValue.object tree).nested ["V1".toList, "a.c".toList, "path".toList] =
        some (.text (kernelDirPath ++ "/V1/a.c".toList)) ∧
      ∀ logs', logs'.Perm twoLogs → ∃ tree', createPathTree logs' = some tree' ∧
        (TreeValue.object tree').nested = (TreeValue.object tree).nested := by
  obtain ⟨tree, built, found, _, order⟩ := createPathTree_trie twoLogs diffPaths_twoLogs
  have first := (found _ List.mem_cons_self).2.2.1
  rw [show shownParts (kernelDirPath ++ "/V1/a.c".toList) = ["V1".toList, "a.c".toList] from
    shownParts_inside "V1/a.c".toList] at first
  exact ⟨tree, built, first, order⟩

end OslabProfiler.Server
