import OslabProfiler.Lib.Text

/-! # Objects

An object is the list of its fields in the order in which they were made, with no name
twice. Assigning to a field keeps its place, and a new field comes last.
-/

namespace Lib

def setField {α : Type*} (key : Text) (value : α) : List (Text × α) → List (Text × α)
  | [] => [(key, value)]
  | (k, old) :: fields =>
      if k = key then (key, value) :: fields else (k, old) :: setField key value fields

section SetField

variable {α : Type*} (key : Text) (value : α)

theorem lookup_setField (fields : List (Text × α)) (k : Text) :
    (setField key value fields).lookup k = if k = key then some value else fields.lookup k := by
  induction fields with
  | nil => by_cases same : k = key <;> simp [setField, List.lookup_cons, beq_eq_decide, same]
  | cons f fields ih =>
      obtain ⟨k', old⟩ := f
      by_cases here : k' = key
      · subst here
        by_cases same : k = k' <;> simp [setField, List.lookup_cons, beq_eq_decide, same]
      · by_cases same : k = k'
        · subst same
          simp [setField, here]
        · simp [setField, here, List.lookup_cons, beq_eq_decide, same, ih]

theorem mem_names_setField (fields : List (Text × α)) (k : Text) :
    k ∈ (setField key value fields).map Prod.fst ↔ k = key ∨ k ∈ fields.map Prod.fst := by
  induction fields with
  | nil => simp [setField]
  | cons f fields ih =>
      obtain ⟨k', old⟩ := f
      by_cases here : k' = key
      · simp [setField, here]
      · simp only [setField, if_neg here, List.map_cons, List.mem_cons, ih]
        tauto

theorem nodup_setField {fields : List (Text × α)} (nodup : (fields.map Prod.fst).Nodup) :
    ((setField key value fields).map Prod.fst).Nodup := by
  induction fields with
  | nil => simp [setField]
  | cons f fields ih =>
      obtain ⟨k', old⟩ := f
      rw [List.map_cons, List.nodup_cons] at nodup
      by_cases here : k' = key
      · simp only [setField, if_pos here, List.map_cons, List.nodup_cons]
        exact here ▸ nodup
      · simp only [setField, if_neg here, List.map_cons, List.nodup_cons, mem_names_setField]
        exact ⟨not_or.mpr ⟨here, nodup.1⟩, ih nodup.2⟩

theorem setField_new {fields : List (Text × α)} (new : key ∉ fields.map Prod.fst) :
    setField key value fields = fields ++ [(key, value)] := by
  induction fields with
  | nil => rfl
  | cons f fields ih =>
      obtain ⟨other, rest⟩ := not_or.mp (mt List.mem_cons.mpr new)
      rw [setField, if_neg (Ne.symm other), ih rest, List.cons_append]

end SetField

/-- An object; no two fields have one name. -/
structure Fields (α : Type*) where
  list : List (Text × α)
  nodup : (list.map Prod.fst).Nodup

namespace Fields

variable {α : Type*}

@[ext] theorem ext {o o' : Fields α} (same : o.list = o'.list) : o = o' := by
  cases o
  cases o'
  congr

def empty : Fields α := ⟨[], List.nodup_nil⟩

def get (o : Fields α) (key : Text) : Option α := o.list.lookup key

def set (o : Fields α) (key : Text) (value : α) : Fields α :=
  ⟨setField key value o.list, nodup_setField key value o.nodup⟩

@[simp] theorem get_empty (key : Text) : (empty : Fields α).get key = none := rfl

@[simp] theorem get_set (o : Fields α) (key : Text) (value : α) (k : Text) :
    (o.set key value).get k = if k = key then some value else o.get k :=
  lookup_setField key value o.list k

/-- All values of the object have the property. -/
def All (P : α → Prop) (o : Fields α) : Prop := ∀ f ∈ o.list, P f.2

theorem forall_setField {P : α → Prop} {key : Text} {value : α} (here : P value)
    {fields : List (Text × α)} (all : ∀ f ∈ fields, P f.2) :
    ∀ f ∈ setField key value fields, P f.2 := by
  induction fields with
  | nil => simpa [setField] using here
  | cons f fields ih =>
      obtain ⟨first, rest⟩ := List.forall_mem_cons.mp all
      simp only [setField]
      split
      · exact List.forall_mem_cons.mpr ⟨here, rest⟩
      · exact List.forall_mem_cons.mpr ⟨first, ih rest⟩

theorem All.set {P : α → Prop} {o : Fields α} (all : o.All P) {value : α} (here : P value)
    (key : Text) : (o.set key value).All P :=
  forall_setField here all

/-- The object with these fields; a later field replaces an earlier one of its name. -/
def ofList (fields : List (Text × α)) : Fields α :=
  fields.foldl (fun o f => o.set f.1 f.2) empty

theorem all_foldl_set {P : α → Prop} {fields : List (Text × α)} (all : ∀ f ∈ fields, P f.2)
    {o : Fields α} (before : o.All P) : (fields.foldl (fun o f => o.set f.1 f.2) o).All P := by
  induction fields generalizing o with
  | nil => exact before
  | cons f fields ih =>
      obtain ⟨first, rest⟩ := List.forall_mem_cons.mp all
      exact ih rest (before.set first f.1)

theorem all_ofList {P : α → Prop} {fields : List (Text × α)} (all : ∀ f ∈ fields, P f.2) :
    (ofList fields).All P :=
  all_foldl_set all fun _ none => absurd none List.not_mem_nil

theorem foldl_set (fields : List (Text × α)) (o : Fields α)
    (nodup : ((o.list ++ fields).map Prod.fst).Nodup) :
    (fields.foldl (fun o f => o.set f.1 f.2) o).list = o.list ++ fields := by
  induction fields generalizing o with
  | nil => simp
  | cons f fields ih =>
      have new : f.1 ∉ o.list.map Prod.fst := by
        rw [List.map_append, List.map_cons] at nodup
        exact fun member => (List.nodup_append.mp nodup).2.2 _ member _ List.mem_cons_self rfl
      have here : (o.set f.1 f.2).list = o.list ++ [f] := setField_new f.1 f.2 new
      rw [List.foldl_cons, ih, here, List.append_assoc, List.singleton_append]
      rwa [here, List.append_assoc, List.singleton_append]

/-- The fields of an object make it up again. -/
theorem ofList_list (o : Fields α) : ofList o.list = o := by
  ext1
  exact foldl_set o.list empty o.nodup

theorem list_ofList {fields : List (Text × α)} (nodup : (fields.map Prod.fst).Nodup) :
    (ofList fields).list = fields :=
  congrArg list (ofList_list ⟨fields, nodup⟩)

theorem lookup_eq_some_iff {fields : List (Text × α)} (nodup : (fields.map Prod.fst).Nodup)
    {key : Text} {value : α} : fields.lookup key = some value ↔ (key, value) ∈ fields := by
  induction fields with
  | nil => simp
  | cons f fields ih =>
      obtain ⟨k, old⟩ := f
      rw [List.map_cons, List.nodup_cons] at nodup
      by_cases here : key = k
      · subst here
        have fresh : ∀ v, (key, v) ∉ fields := fun v member =>
          nodup.1 (List.mem_map.mpr ⟨_, member, rfl⟩)
        simp [fresh, eq_comm]
      · simp [List.lookup_cons, beq_eq_decide, here, ih nodup.2]

theorem get_eq_none_iff {o : Fields α} {key : Text} :
    o.get key = none ↔ key ∉ o.list.map Prod.fst := by
  rw [get, List.lookup_eq_none_iff, List.mem_map]
  constructor
  · rintro absent ⟨p, member, rfl⟩
    simpa using absent p member
  · intro absent p member
    simpa using fun same => absent ⟨p, member, same.symm⟩

/-- The order of the fields does not matter for what they hold. -/
theorem get_ofList_perm {fields fields' : List (Text × α)} (nodup : (fields.map Prod.fst).Nodup)
    (same : fields'.Perm fields) (key : Text) :
    (ofList fields').get key = (ofList fields).get key := by
  have nodup' := (same.map Prod.fst).nodup_iff.mpr nodup
  rw [get, get, list_ofList nodup, list_ofList nodup']
  ext value
  rw [lookup_eq_some_iff nodup, lookup_eq_some_iff nodup', same.mem_iff]

theorem lookup_map {β : Type*} (f : α → β) (fields : List (Text × α)) (key : Text) :
    (fields.map fun p => (p.1, f p.2)).lookup key = (fields.lookup key).map f := by
  induction fields with
  | nil => rfl
  | cons p fields ih =>
      obtain ⟨k, old⟩ := p
      by_cases here : key = k <;> simp [List.lookup_cons, beq_eq_decide, here, ih]

end Fields

end Lib
