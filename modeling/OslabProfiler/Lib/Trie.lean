import OslabProfiler.Lib.FileTree

/-! # Tries with lists of children

A trie has its entries at the leaves. A node keeps its children in a list, each under a
key of its own, and has at least one of them. A trie is known by its entries, and its
inner nodes are the proper beginnings of the places of the entries.
-/

namespace Lib

inductive Trie (κ α : Type) where
  | leaf (a : α)
  | node (children : List (κ × Trie κ α))

namespace Trie

variable {κ α : Type}

/-- What holds of a node when it holds of its children holds of all tries. -/
@[elab_as_elim]
theorem induct {motive : Trie κ α → Prop} (leaf : ∀ a, motive (.leaf a))
    (node : ∀ children, (∀ p ∈ children, motive p.2) → motive (.node children)) (t : Trie κ α) :
    motive t :=
  match t with
  | .leaf a => leaf a
  | .node children => node children fun p _member => induct leaf node p.2
termination_by sizeOf t
decreasing_by
  have smaller := List.sizeOf_lt_of_mem _member
  obtain ⟨k, t⟩ := p
  simp only [Prod.mk.sizeOf_spec, Trie.node.sizeOf_spec] at smaller ⊢
  omega

mutual

/-- The entries with their places. -/
def entries : Trie κ α → List (List κ × α)
  | .leaf a => [([], a)]
  | .node children => entriesBelow children

def entriesBelow : List (κ × Trie κ α) → List (List κ × α)
  | [] => []
  | (k, t) :: children => t.entries.map (fun e => (k :: e.1, e.2)) ++ entriesBelow children

end

mutual

/-- The places of the inner nodes. -/
def nodes : Trie κ α → List (List κ)
  | .leaf _ => []
  | .node children => [] :: nodesBelow children

def nodesBelow : List (κ × Trie κ α) → List (List κ)
  | [] => []
  | (k, t) :: children => t.nodes.map (k :: ·) ++ nodesBelow children

end

theorem entriesBelow_eq (children : List (κ × Trie κ α)) :
    entriesBelow children = children.flatMap fun p => p.2.entries.map fun e => (p.1 :: e.1, e.2) := by
  induction children with
  | nil => simp [entriesBelow]
  | cons p children ih =>
      obtain ⟨k, t⟩ := p
      rw [entriesBelow, ih, List.flatMap_cons]

theorem nodesBelow_eq (children : List (κ × Trie κ α)) :
    nodesBelow children = children.flatMap fun p => p.2.nodes.map (p.1 :: ·) := by
  induction children with
  | nil => simp [nodesBelow]
  | cons p children ih =>
      obtain ⟨k, t⟩ := p
      rw [nodesBelow, ih, List.flatMap_cons]

theorem entriesBelow_append (front back : List (κ × Trie κ α)) :
    entriesBelow (front ++ back) = entriesBelow front ++ entriesBelow back := by
  simp only [entriesBelow_eq, List.flatMap_append]

theorem mem_entriesBelow {children : List (κ × Trie κ α)} {e : List κ × α} :
    e ∈ entriesBelow children ↔
      ∃ k t r, (k, t) ∈ children ∧ (r, e.2) ∈ t.entries ∧ e.1 = k :: r := by
  obtain ⟨place, a⟩ := e
  simp only [entriesBelow_eq, List.mem_flatMap, List.mem_map, Prod.mk.injEq, Prod.exists]
  constructor
  · rintro ⟨k, t, child, r, b, entry, rfl, rfl⟩
    exact ⟨k, t, r, child, entry, rfl⟩
  · rintro ⟨k, t, r, child, entry, rfl⟩
    exact ⟨k, t, child, r, a, entry, rfl, rfl⟩

theorem mem_nodesBelow {children : List (κ × Trie κ α)} {place : List κ} :
    place ∈ nodesBelow children ↔ ∃ k t r, (k, t) ∈ children ∧ r ∈ t.nodes ∧ place = k :: r := by
  simp only [nodesBelow_eq, List.mem_flatMap, List.mem_map, Prod.exists]
  constructor
  · rintro ⟨k, t, child, r, inner, rfl⟩
    exact ⟨k, t, r, child, inner, rfl⟩
  · rintro ⟨k, t, r, child, inner, rfl⟩
    exact ⟨k, t, child, r, inner, rfl⟩

/-! ## Sound tries -/

/-- Every node has children, with different keys. -/
inductive Sound : Trie κ α → Prop where
  | leaf (a : α) : Sound (.leaf a)
  | node {children : List (κ × Trie κ α)} (nonempty : children ≠ [])
      (distinct : (children.map Prod.fst).Nodup) (each : ∀ p ∈ children, Sound p.2) :
      Sound (.node children)

/-- Sound children of a root, which may be empty. -/
structure SoundBelow (children : List (κ × Trie κ α)) : Prop where
  distinct : (children.map Prod.fst).Nodup
  each : ∀ p ∈ children, Sound p.2

theorem Sound.soundBelow {children : List (κ × Trie κ α)} (sound : Sound (.node children)) :
    SoundBelow children := by
  cases sound with
  | node _ distinct each => exact ⟨distinct, each⟩

theorem Sound.exists_entry {t : Trie κ α} (sound : t.Sound) : ∃ e, e ∈ t.entries := by
  induction sound with
  | leaf a => exact ⟨_, List.mem_singleton_self _⟩
  | node nonempty _ _ ih =>
      obtain ⟨p, child⟩ := List.exists_mem_of_ne_nil _ nonempty
      obtain ⟨e, entry⟩ := ih p child
      exact ⟨(p.1 :: e.1, e.2), mem_entriesBelow.mpr ⟨p.1, p.2, e.1, child, entry, rfl⟩⟩

/-- The inner nodes are on the way to the entries. -/
theorem Sound.mem_nodes {t : Trie κ α} (sound : t.Sound) {place : List κ} :
    place ∈ t.nodes ↔ ∃ e ∈ t.entries, place <+: e.1 ∧ place ≠ e.1 := by
  induction sound generalizing place with
  | leaf a => simp [nodes, entries]
  | node nonempty distinct each ih =>
      rw [nodes, entries, List.mem_cons, mem_nodesBelow]
      constructor
      · rintro (rfl | ⟨k, t, r, child, inner, rfl⟩)
        · obtain ⟨p, child⟩ := List.exists_mem_of_ne_nil _ nonempty
          obtain ⟨e, entry⟩ := (each p child).exists_entry
          exact ⟨(p.1 :: e.1, e.2), mem_entriesBelow.mpr ⟨p.1, p.2, e.1, child, entry, rfl⟩,
            List.nil_prefix, by simp⟩
        · obtain ⟨e, entry, above, proper⟩ := (ih (k, t) child).mp inner
          exact ⟨(k :: e.1, e.2), mem_entriesBelow.mpr ⟨k, t, e.1, child, entry, rfl⟩,
            List.cons_prefix_cons.mpr ⟨rfl, above⟩, by simpa using proper⟩
      · rintro ⟨e, entry, above, proper⟩
        obtain ⟨k, t, r, child, inner, place_eq⟩ := mem_entriesBelow.mp entry
        rw [place_eq] at above proper
        cases place with
        | nil => exact .inl rfl
        | cons k' place =>
            obtain ⟨rfl, rest⟩ := List.cons_prefix_cons.mp above
            exact .inr ⟨k', t, place, child,
              (ih (k', t) child).mpr ⟨_, inner, rest, by simpa using proper⟩, rfl⟩

theorem SoundBelow.mem_nodes {children : List (κ × Trie κ α)} (sound : SoundBelow children)
    {place : List κ} :
    place ∈ nodesBelow children ↔
      place ≠ [] ∧ ∃ e ∈ entriesBelow children, place <+: e.1 ∧ place ≠ e.1 := by
  by_cases empty : children = []
  · subst empty
    simp [nodesBelow, entriesBelow]
  · have inner := @Sound.mem_nodes _ _ _ (.node empty sound.distinct sound.each) place
    rw [nodes, entries, List.mem_cons] at inner
    rw [← inner]
    constructor
    · intro below
      obtain ⟨k, t, r, -, -, rfl⟩ := mem_nodesBelow.mp below
      exact ⟨by simp, .inr below⟩
    · rintro ⟨nonempty, root | below⟩
      · exact absurd root nonempty
      · exact below

theorem nodup_nodesBelow {children : List (κ × Trie κ α)} (distinct : (children.map Prod.fst).Nodup)
    (each : ∀ p ∈ children, p.2.nodes.Nodup) : (nodesBelow children).Nodup := by
  rw [nodesBelow_eq, List.nodup_flatMap]
  refine ⟨fun p child => (each p child).map (List.cons_injective), ?_⟩
  refine (List.pairwise_map.mp distinct).imp fun {p q} other => ?_
  intro place left right
  obtain ⟨_, _, rfl⟩ := List.mem_map.mp left
  obtain ⟨_, _, same⟩ := List.mem_map.mp right
  exact other (List.cons.inj same).1.symm

theorem Sound.nodup_nodes {t : Trie κ α} (sound : t.Sound) : t.nodes.Nodup := by
  induction sound with
  | leaf a => exact List.nodup_nil
  | node _ distinct _ ih =>
      rw [nodes, List.nodup_cons]
      refine ⟨fun root => ?_, nodup_nodesBelow distinct ih⟩
      obtain ⟨_, _, _, _, _, impossible⟩ := mem_nodesBelow.mp root
      cases impossible

theorem SoundBelow.nodup_nodes {children : List (κ × Trie κ α)} (sound : SoundBelow children) :
    (nodesBelow children).Nodup :=
  nodup_nodesBelow sound.distinct fun p child => (sound.each p child).nodup_nodes

/-! ## Insertion -/

section Insertion

variable [DecidableEq κ]

def child (children : List (κ × Trie κ α)) (key : κ) : Option (Trie κ α) :=
  (children.find? fun p => p.1 = key).map (·.2)

/-- Put a child under a key; a new one comes last. -/
def setChild : List (κ × Trie κ α) → κ → Trie κ α → List (κ × Trie κ α)
  | [], key, t => [(key, t)]
  | (k, old) :: children, key, t =>
      if k = key then (key, t) :: children else (k, old) :: setChild children key t

/-- Go down along a path, making the nodes that are missing; `none` if a leaf is in the way. -/
def insertBelow (a : α) : List κ → List (κ × Trie κ α) → Option (List (κ × Trie κ α))
  | [], children => some children
  | [key], children => some (setChild children key (.leaf a))
  | key :: rest, children =>
      match child children key with
      | none => (insertBelow a rest []).map fun inner => setChild children key (.node inner)
      | some (.node old) =>
          (insertBelow a rest old).map fun inner => setChild children key (.node inner)
      | some (.leaf _) => none

variable {children : List (κ × Trie κ α)} {key : κ}

theorem child_cons (p : κ × Trie κ α) :
    child (p :: children) key = if p.1 = key then some p.2 else child children key := by
  by_cases here : p.1 = key <;> simp [child, here]

theorem setChild_of_absent (t : Trie κ α) (absent : child children key = none) :
    setChild children key t = children ++ [(key, t)] := by
  induction children with
  | nil => rfl
  | cons p children ih =>
      rw [child_cons] at absent
      split_ifs at absent with here
      rw [setChild, if_neg here, ih absent, List.cons_append]

/-- A child stands under its key, and no earlier one does. -/
theorem exists_split_of_child {old : Trie κ α} (there : child children key = some old) :
    ∃ front back, children = front ++ (key, old) :: back ∧
      ∀ t, setChild children key t = front ++ (key, t) :: back := by
  induction children with
  | nil => cases there
  | cons p children ih =>
      rw [child_cons] at there
      split_ifs at there with here
      · cases there
        subst here
        exact ⟨[], children, rfl, fun t => by simp [setChild]⟩
      · obtain ⟨front, back, rfl, set⟩ := ih there
        exact ⟨p :: front, back, rfl, fun t => by rw [setChild, if_neg here, set, List.cons_append]⟩

theorem key_not_mem_of_absent (absent : child children key = none) : key ∉ children.map Prod.fst := by
  intro member
  obtain ⟨p, there, rfl⟩ := List.mem_map.mp member
  rw [child, Option.map_eq_none_iff, List.find?_eq_none] at absent
  simpa using absent p there

/-- A new child adds its entries. -/
theorem SoundBelow.add (sound : SoundBelow children) {t : Trie κ α} (absent : child children key = none)
    (new : t.Sound) :
    SoundBelow (setChild children key t) ∧
      (entriesBelow (setChild children key t)).Perm
        (t.entries.map (fun e => (key :: e.1, e.2)) ++ entriesBelow children) := by
  rw [setChild_of_absent t absent]
  refine ⟨⟨?_, ?_⟩, ?_⟩
  · rw [List.map_append, List.map_singleton, List.nodup_append]
    refine ⟨sound.distinct, List.nodup_singleton _, fun k member k' single => ?_⟩
    rw [List.mem_singleton.mp single]
    rintro rfl
    exact key_not_mem_of_absent absent member
  · intro p member
    cases List.mem_append.mp member with
    | inl old => exact sound.each p old
    | inr single => rwa [List.mem_singleton.mp single]
  · rw [entriesBelow_append, entriesBelow, entriesBelow, List.append_nil]
    exact List.perm_append_comm

/-- A child that takes the place of an old one brings its entries in. -/
theorem SoundBelow.replace (sound : SoundBelow children) {t old : Trie κ α}
    (there : child children key = some old) (new : t.Sound) {e : List κ × α}
    (entries : t.entries.Perm (e :: old.entries)) :
    SoundBelow (setChild children key t) ∧
      (entriesBelow (setChild children key t)).Perm ((key :: e.1, e.2) :: entriesBelow children) := by
  obtain ⟨front, back, rfl, set⟩ := exists_split_of_child there
  rw [set]
  refine ⟨⟨?_, ?_⟩, ?_⟩
  · simpa using sound.distinct
  · intro p member
    rw [List.mem_append, List.mem_cons] at member
    obtain before | rfl | behind := member
    · exact sound.each p (by simp [before])
    · exact new
    · exact sound.each p (by simp [behind])
  · rw [entriesBelow_append, entriesBelow_append, entriesBelow, entriesBelow]
    have inner := (entries.map fun e => (key :: e.1, e.2)).append_right (entriesBelow back)
    exact (inner.append_left _).trans List.perm_middle

/-- What stands under a key has entries that are apart from the rest of the path. -/
theorem SoundBelow.apart_child {key : κ} {rest : List κ} {old : Trie κ α} (sound : SoundBelow children)
    (apart : ∀ e ∈ entriesBelow children, FileTree.Apart e.1 (key :: rest))
    (there : child children key = some old) :
    old.Sound ∧ ∀ e ∈ old.entries, FileTree.Apart e.1 rest := by
  obtain ⟨front, back, rfl, -⟩ := exists_split_of_child there
  refine ⟨sound.each (key, old) (by simp), fun e entry => ?_⟩
  have whole := apart (key :: e.1, e.2)
    (mem_entriesBelow.mpr ⟨key, old, e.1, by simp, entry, rfl⟩)
  simpa [FileTree.Apart, List.cons_prefix_cons] using whole

/-- Nothing stands at a place apart from all entries. -/
theorem SoundBelow.child_eq_none {key : κ} (sound : SoundBelow children)
    (apart : ∀ e ∈ entriesBelow children, FileTree.Apart e.1 [key]) : child children key = none := by
  cases there : child children key with
  | none => rfl
  | some old =>
      obtain ⟨soundOld, old_apart⟩ := sound.apart_child apart there
      obtain ⟨e, entry⟩ := soundOld.exists_entry
      exact absurd List.nil_prefix (old_apart e entry).2

/-- At a place apart from all entries an insertion adds its entry. -/
theorem insertBelow_spec (a : α) {path : List κ} (nonempty : path ≠ []) (sound : SoundBelow children)
    (apart : ∀ e ∈ entriesBelow children, FileTree.Apart e.1 path) :
    ∃ children', insertBelow a path children = some children' ∧ children' ≠ [] ∧
      SoundBelow children' ∧ (entriesBelow children').Perm ((path, a) :: entriesBelow children) := by
  induction path generalizing children with
  | nil => exact absurd rfl nonempty
  | cons key rest ih =>
      cases rest with
      | nil =>
          have absent := sound.child_eq_none apart
          obtain ⟨sound', entries⟩ := sound.add absent (Sound.leaf a)
          exact ⟨_, rfl, by simp [setChild_of_absent _ absent], sound',
            by simpa [Trie.entries] using entries⟩
      | cons next rest =>
          rw [insertBelow]
          swap
          · simp
          cases there : child children key with
          | none =>
              have empty : SoundBelow ([] : List (κ × Trie κ α)) := ⟨List.nodup_nil, by simp⟩
              obtain ⟨inner, run, some, soundInner, entriesInner⟩ :=
                ih (by simp) empty (by simp [entriesBelow])
              obtain ⟨sound', entries⟩ :=
                sound.add there (Sound.node some soundInner.distinct soundInner.each)
              refine ⟨_, by simp only [run, Option.map_some], by simp [setChild_of_absent _ there],
                sound', ?_⟩
              rw [Trie.entries] at entries
              exact entries.trans ((entriesInner.map _).append_right _)
          | some old =>
              obtain ⟨soundOld, old_apart⟩ := sound.apart_child apart there
              cases old with
              | leaf b => exact absurd List.nil_prefix (old_apart ([], b) (by simp [Trie.entries])).1
              | node old =>
                  obtain ⟨inner, run, some, soundInner, entriesInner⟩ :=
                    ih (by simp) soundOld.soundBelow old_apart
                  obtain ⟨sound', entries⟩ := sound.replace there
                    (Sound.node some soundInner.distinct soundInner.each)
                    (e := (next :: rest, a)) entriesInner
                  obtain ⟨front, back, -, set⟩ := exists_split_of_child there
                  exact ⟨_, by simp only [run, Option.map_some], by simp [set], sound', entries⟩

/-- Entries whose places are apart from each other are all put, in any trie that they are
    apart from. -/
theorem foldlM_insertBelow {path : α → List κ} {l : List α} (nonempty : ∀ a ∈ l, path a ≠ [])
    (scattered : l.Pairwise fun a b => FileTree.Apart (path a) (path b)) (sound : SoundBelow children)
    (apart : ∀ e ∈ entriesBelow children, ∀ a ∈ l, FileTree.Apart e.1 (path a)) :
    ∃ children', l.foldlM (fun children a => insertBelow a (path a) children) children = some children' ∧
      SoundBelow children' ∧
      (entriesBelow children').Perm (l.map (fun a => (path a, a)) ++ entriesBelow children) := by
  induction l generalizing children with
  | nil => exact ⟨children, rfl, sound, .refl _⟩
  | cons a l ih =>
      obtain ⟨own, others⟩ := List.pairwise_cons.mp scattered
      obtain ⟨here, later⟩ := List.forall_mem_cons.mp nonempty
      obtain ⟨next, run, -, sound', entries⟩ :=
        insertBelow_spec a here sound fun e entry => apart e entry a List.mem_cons_self
      have stillApart : ∀ e ∈ entriesBelow next, ∀ b ∈ l, FileTree.Apart e.1 (path b) := by
        intro e entry b member
        cases List.mem_cons.mp (entries.subset entry) with
        | inl new => rw [new]; exact own b member
        | inr old => exact apart e old b (List.mem_cons_of_mem _ member)
      obtain ⟨result, runs, soundResult, all⟩ := ih later others sound' stillApart
      refine ⟨result, ?_, soundResult, ?_⟩
      · rw [List.foldlM_cons, run]
        exact runs
      · refine all.trans ((entries.append_left _).trans ?_)
        exact List.perm_middle

end Insertion

end Trie

end Lib
