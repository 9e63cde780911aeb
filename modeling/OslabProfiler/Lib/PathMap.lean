import OslabProfiler.Lib.FileTree

/-! # Nested maps as functions of paths

A nested map is known by what stands at each path. Putting something at a path makes
nodes on the way there, replaces what stood at and below the path, and changes nothing
else. When no path of a collection leads through another one, the order in which they
are put does not matter.
-/

namespace Lib.PathMap

open FileTree

variable {κ S : Type}

open Classical in
/-- Put `sub` at a path, with a `node` at each place above. -/
noncomputable def insert (node : S) (m : List κ → Option S) (path : List κ)
    (sub : List κ → Option S) : List κ → Option S :=
  fun q => if path <+: q then sub (q.drop path.length)
    else if q <+: path then some node else m q

section Insert

variable {node : S} {m : List κ → Option S} {path q : List κ} {sub : List κ → Option S}

theorem insert_below (r : List κ) : insert node m path sub (path ++ r) = sub r := by
  simp [insert]

theorem insert_above (above : q <+: path) (proper : q ≠ path) :
    insert node m path sub q = some node := by
  have notBelow : ¬ path <+: q := fun below =>
    proper (above.eq_of_length_le below.length_le)
  rw [insert, if_neg notBelow, if_pos above]

theorem insert_apart (apart : Apart path q) : insert node m path sub q = m q := by
  rw [insert, if_neg apart.1, if_neg apart.2]

@[simp] theorem insert_cons_nil (a : κ) : insert node m (a :: path) sub [] = some node :=
  insert_above (List.nil_prefix) (by simp)

/-- An insertion goes down along its path and leaves the other branches alone. -/
theorem insert_cons_cons [DecidableEq κ] (a b : κ) :
    insert node m (a :: path) sub (b :: q) =
      if b = a then insert node (fun q => m (a :: q)) path sub q else m (b :: q) := by
  by_cases same : b = a
  · subst same
    simp [insert]
  · have other : ¬ a = b := fun h => same h.symm
    simp [insert, same, other]

@[simp] theorem insert_nil : insert node m [] sub q = sub q := by simp [insert]

/-- Below the root only what is there counts; the root becomes a node anyway. -/
theorem insert_congr {m' : List κ → Option S} (nonempty : path ≠ [])
    (same : ∀ q, q ≠ [] → m q = m' q) : insert node m path sub = insert node m' path sub := by
  funext q
  by_cases root : q = []
  · subst root
    rw [insert_above List.nil_prefix nonempty.symm, insert_above List.nil_prefix nonempty.symm]
  · simp only [insert, same q root]

/-- Where something stands after an insertion. -/
theorem insert_eq_some {s : S} (h : insert node m path sub q = some s) :
    (∃ r, q = path ++ r ∧ sub r = some s) ∨ q <+: path ∨ m q = some s := by
  by_cases below : path <+: q
  · obtain ⟨r, rfl⟩ := below
    rw [insert_below] at h
    exact .inl ⟨r, rfl, h⟩
  · by_cases above : q <+: path
    · exact .inr (.inl above)
    · rw [insert_apart ⟨below, above⟩] at h
      exact .inr (.inr h)

/-- What lies at or below a path is apart from every path that is apart from it. -/
theorem apart_below {p p' : List κ} (apart : Apart p p') (r : List κ) : Apart p' (p ++ r) :=
  ⟨apart.symm.outside r, fun under => apart.1 ((List.prefix_append p r).trans under)⟩

/-- Insertions at paths that are apart may be swapped. -/
theorem insert_comm {p p' : List κ} {s s' : List κ → Option S} (apart : Apart p p') :
    insert node (insert node m p s) p' s' = insert node (insert node m p' s') p s := by
  funext q
  by_cases below : p <+: q
  · obtain ⟨r, rfl⟩ := below
    rw [insert_below, insert_apart (apart_below apart r), insert_below]
  · by_cases below' : p' <+: q
    · obtain ⟨r, rfl⟩ := below'
      rw [insert_below, insert_apart (apart_below apart.symm r), insert_below]
    · simp only [insert, if_neg below, if_neg below']
      by_cases above : q <+: p <;> by_cases above' : q <+: p' <;> simp [above, above']

end Insert

section Entries

variable {ε : Type} (node : S) (path : ε → List κ) (sub : ε → List κ → Option S)

/-- Put a list of entries, one after the other. -/
noncomputable def insertAll (m : List κ → Option S) (entries : List ε) : List κ → Option S :=
  entries.foldl (fun m e => insert node m (path e) (sub e)) m

/-- The entries lead to places that are apart from each other. -/
def Scattered (entries : List ε) : Prop :=
  ∀ e ∈ entries, ∀ e' ∈ entries, e ≠ e' → Apart (path e) (path e')

variable {node path sub}

theorem Scattered.tail {e : ε} {entries : List ε} (h : Scattered path (e :: entries)) :
    Scattered path entries :=
  fun a ha b hb => h a (List.mem_cons_of_mem _ ha) b (List.mem_cons_of_mem _ hb)

theorem Scattered.perm {entries entries' : List ε} (h : Scattered path entries)
    (perm : entries'.Perm entries) : Scattered path entries' :=
  fun a ha b hb => h a (perm.subset ha) b (perm.subset hb)

theorem insertAll_perm {entries entries' : List ε} (perm : entries'.Perm entries)
    (scattered : Scattered path entries) (m : List κ → Option S) :
    insertAll node path sub m entries' = insertAll node path sub m entries := by
  apply perm.foldl_eq'
  intro e he e' he' m
  by_cases same : e = e'
  · rw [same]
  · exact insert_comm (scattered.perm perm e he e' he' same)

/-- A path that is apart from all entries keeps what it had. -/
theorem insertAll_apart {entries : List ε} {q : List κ} (apart : ∀ e ∈ entries, Apart (path e) q)
    (m : List κ → Option S) : insertAll node path sub m entries q = m q := by
  induction entries generalizing m with
  | nil => rfl
  | cons e entries ih =>
      have later := ih (fun a ha => apart a (List.mem_cons_of_mem _ ha))
        (insert node m (path e) (sub e))
      exact later.trans (insert_apart (apart e List.mem_cons_self))

/-- Every entry is found at its path, whatever was put after it. -/
theorem insertAll_found {entries : List ε} (distinct : entries.Nodup)
    (scattered : Scattered path entries) (m : List κ → Option S) {e : ε} (member : e ∈ entries)
    (r : List κ) : insertAll node path sub m entries (path e ++ r) = sub e r := by
  induction entries generalizing m with
  | nil => cases member
  | cons a entries ih =>
      obtain ⟨fresh, distinct⟩ := List.nodup_cons.mp distinct
      cases List.mem_cons.mp member with
      | inl same =>
          subst same
          -- nothing that comes later leads to this place or through it
          have later : ∀ b ∈ entries, Apart (path b) (path e ++ r) := by
            intro b hb
            have other : e ≠ b := fun h => fresh (h ▸ hb)
            exact apart_below (scattered e List.mem_cons_self b (List.mem_cons_of_mem _ hb) other) r
          exact (insertAll_apart later _).trans (insert_below r)
      | inr inTail => exact ih distinct scattered.tail _ inTail

/-- Whatever stands somewhere afterwards was there before, is on the way to an entry or
    belongs to one. -/
theorem insertAll_eq_some {entries : List ε} {m : List κ → Option S} {q : List κ} {s : S}
    (h : insertAll node path sub m entries q = some s) :
    m q = some s ∨ ∃ e ∈ entries, q <+: path e ∨ ∃ r, q = path e ++ r ∧ sub e r = some s := by
  induction entries generalizing m with
  | nil => exact .inl h
  | cons a entries ih =>
      cases ih h with
      | inr later =>
          obtain ⟨e, member, place⟩ := later
          exact .inr ⟨e, List.mem_cons_of_mem _ member, place⟩
      | inl before =>
          cases insert_eq_some before with
          | inl below => exact .inr ⟨a, List.mem_cons_self, .inr below⟩
          | inr rest =>
              cases rest with
              | inl above => exact .inr ⟨a, List.mem_cons_self, .inl above⟩
              | inr kept => exact .inl kept

end Entries

end Lib.PathMap
