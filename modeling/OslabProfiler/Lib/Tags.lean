import OslabProfiler.Lib.Text

/-! # The tags of a text

A reader goes over a text once and tells what stands between `<` and `>` from the rest; a
quoted value in a tag may contain these characters. Texts that end outside of a tag are read
one after the other, and each tag can be taken with the text behind it. The elements of given
names are nested when every tag that closes one closes the last one that was opened and is
still open.
-/

namespace Lib.Tags

/-- Where the reader is, with what it has read of a tag. -/
inductive Mode where
  | outside
  | inside (tag : Text)
  | quoted (tag : Text)
  deriving DecidableEq

/-- What the reader hands on. -/
inductive Piece where
  /-- A character outside of the tags. -/
  | char (c : Char)
  | tag (text : Text)
  deriving DecidableEq

def Piece.asTag : Piece → Option Text
  | .char _ => none
  | .tag text => some text

/-- The pieces of a text from a given mode on, and the mode at its end. -/
def read : Mode → Text → List Piece × Mode
  | mode, [] => ([], mode)
  | .outside, c :: l =>
      if c = '<' then read (.inside []) l
      else (.char c :: (read .outside l).1, (read .outside l).2)
  | .inside tag, c :: l =>
      if c = '>' then (.tag tag :: (read .outside l).1, (read .outside l).2)
      else read (if c = '"' then .quoted (tag ++ [c]) else .inside (tag ++ [c])) l
  | .quoted tag, c :: l => read (if c = '"' then .inside (tag ++ [c]) else .quoted (tag ++ [c])) l

def tags (html : Text) : List Text := (read .outside html).1.filterMap Piece.asTag

theorem read_append (mode : Mode) (a b : Text) :
    read mode (a ++ b) =
      ((read mode a).1 ++ (read (read mode a).2 b).1, (read (read mode a).2 b).2) := by
  induction a generalizing mode with
  | nil => simp [read]
  | cons c a ih =>
      cases mode with
      | outside =>
          rw [List.cons_append, read, read]
          split
          · rw [ih]
          · rw [ih, List.cons_append]
      | inside tag =>
          rw [List.cons_append, read, read]
          split
          · rw [ih, List.cons_append]
          · rw [ih]
      | quoted tag => rw [List.cons_append, read, read, ih]

/-- A text without `<` has no tags. -/
theorem read_plain {text : Text} (plain : '<' ∉ text) :
    read .outside text = (text.map .char, .outside) := by
  induction text with
  | nil => rfl
  | cons c text ih =>
      obtain ⟨other, rest⟩ := not_or.mp (mt List.mem_cons.mpr plain)
      rw [read, if_neg (Ne.symm other), ih rest, List.map_cons]

theorem read_quoted {tag text : Text} (clean : '"' ∉ text) :
    read (.quoted tag) text = ([], .quoted (tag ++ text)) := by
  induction text generalizing tag with
  | nil => simp [read]
  | cons c text ih =>
      obtain ⟨other, rest⟩ := not_or.mp (mt List.mem_cons.mpr clean)
      rw [read, if_neg (Ne.symm other), ih rest, List.append_assoc, List.singleton_append]

/-- The mode in a tag of which more was read before. -/
def Mode.after (front : Text) : Mode → Mode
  | .outside => .outside
  | .inside tag => .inside (front ++ tag)
  | .quoted tag => .quoted (front ++ tag)

/-- What was read of a tag before only comes in front of it. -/
theorem read_after {mode : Mode} {text tag : Text} (front : Text) (inTag : mode ≠ .outside)
    (closes : read mode text = ([.tag tag], .outside)) :
    read (mode.after front) text = ([.tag (front ++ tag)], .outside) := by
  induction text generalizing mode with
  | nil =>
      rw [read] at closes
      cases closes
  | cons c text ih =>
      cases mode with
      | outside => exact absurd rfl inTag
      | inside before =>
          rw [read] at closes
          rw [Mode.after, read]
          split_ifs at closes ⊢ with ends quote
          · obtain ⟨pieces, mode⟩ := Prod.mk.inj closes
            obtain ⟨own, none⟩ := List.cons.inj pieces
            rw [none, mode, Piece.tag.inj own]
          · exact List.append_assoc front before _ ▸ ih (by simp) closes
          · exact List.append_assoc front before _ ▸ ih (by simp) closes
      | quoted before =>
          rw [read] at closes
          rw [Mode.after, read]
          split_ifs at closes ⊢ with quote
          · exact List.append_assoc front before _ ▸ ih (by simp) closes
          · exact List.append_assoc front before _ ▸ ih (by simp) closes

/-- A tag with a quoted value in the middle. -/
theorem read_tag {front value back tag tag' : Text}
    (opens : read .outside front = ([], .quoted tag)) (clean : '"' ∉ value)
    (closes : read (.quoted []) back = ([.tag tag'], .outside)) :
    read .outside (front ++ value ++ back) = ([.tag (tag ++ value ++ tag')], .outside) := by
  have rest := read_after (tag ++ value) (by simp) closes
  rw [Mode.after, List.append_nil] at rest
  rw [List.append_assoc, read_append, opens, read_append, read_quoted clean, rest]
  rfl

/-- No character that is read outside of the tags is a `<`. -/
theorem ne_of_mem_read {mode : Mode} {text : Text} {c : Char}
    (member : .char c ∈ (read mode text).1) : c ≠ '<' := by
  induction text generalizing mode with
  | nil => simp [read] at member
  | cons d text ih =>
      cases mode with
      | outside =>
          rw [read] at member
          split at member
          · exact ih member
          · rename_i other
            cases List.mem_cons.mp member with
            | inl same => exact Piece.char.inj same ▸ other
            | inr later => exact ih later
      | inside tag =>
          rw [read] at member
          split at member
          · exact ih ((List.mem_cons.mp member).resolve_left (by simp))
          · exact ih member
      | quoted tag => exact ih member

/-- The quoted value is found again. -/
theorem takeWhile_quoted (front : Text) {value : Text} (back : Text) (clean : '"' ∉ value) :
    ((front ++ value ++ '"' :: back).drop front.length).takeWhile (· ≠ '"') = value := by
  rw [List.append_assoc, List.drop_left, List.takeWhile_append_of_pos, List.takeWhile_cons_of_neg,
    List.append_nil]
  · simp
  · intro c member
    simpa using fun (quote : c = '"') => clean (quote ▸ member)

/-- A name that is read as it is written, in a tag and outside of one. -/
def PlainName (name : Text) : Prop := '<' ∉ name ∧ '"' ∉ name

instance (name : Text) : Decidable (PlainName name) := inferInstanceAs (Decidable (_ ∧ _))

/-! ## The tags of a text -/

/-- A text with these tags that ends outside of a tag. -/
def Whole (text : Text) (found : List Text) : Prop :=
  ((read .outside text).1.filterMap Piece.asTag, (read .outside text).2) = (found, .outside)

instance (text : Text) (found : List Text) : Decidable (Whole text found) :=
  inferInstanceAs (Decidable (_ = _))

theorem Whole.tags_eq {text : Text} {found : List Text} (whole : Whole text found) :
    tags text = found := congrArg Prod.fst whole

theorem Whole.append {a b : Text} {ts us : List Text} (first : Whole a ts) (second : Whole b us) :
    Whole (a ++ b) (ts ++ us) := by
  obtain ⟨tagsA, modeA⟩ := Prod.mk.inj first
  obtain ⟨tagsB, modeB⟩ := Prod.mk.inj second
  rw [Whole, read_append, modeA, List.filterMap_append, tagsA, tagsB, modeB]

theorem Whole.nil : Whole [] [] := rfl

theorem whole_plain {text : Text} (plain : '<' ∉ text) : Whole text [] := by
  rw [Whole, read_plain plain, List.filterMap_map]
  exact congrArg (·, Mode.outside) (List.filterMap_eq_nil_iff.mpr fun _ _ => rfl)

theorem whole_quoted {front value back tag tag' : Text}
    (opens : read .outside front = ([], .quoted tag)) (clean : '"' ∉ value)
    (closes : read (.quoted []) back = ([.tag tag'], .outside)) :
    Whole (front ++ value ++ back) [tag ++ value ++ tag'] := by
  rw [Whole, read_tag opens clean closes]
  rfl

/-! ## The texts behind the tags -/

/-- The text before the first tag, and the tags, each with the text behind it. -/
def behind : List Piece → Text × List (Text × Text)
  | [] => ([], [])
  | .char c :: pieces => (c :: (behind pieces).1, (behind pieces).2)
  | .tag tag :: pieces => ([], (tag, (behind pieces).1) :: (behind pieces).2)

theorem behind_append {a b : List Piece} (starts : (behind b).1 = []) :
    behind (a ++ b) = ((behind a).1, (behind a).2 ++ (behind b).2) := by
  induction a with
  | nil => exact Prod.ext starts rfl
  | cons piece a ih => cases piece <;> rw [List.cons_append, behind, ih] <;> rfl

theorem behind_chars (text : Text) : behind (text.map .char) = (text, []) := by
  induction text with
  | nil => rfl
  | cons c text ih => rw [List.map_cons, behind, ih]

/-- The texts are made of the characters that were read outside of the tags. -/
theorem mem_of_mem_behind {pieces : List Piece} {c : Char} :
    (c ∈ (behind pieces).1 → .char c ∈ pieces) ∧
      ∀ mark ∈ (behind pieces).2, c ∈ mark.2 → .char c ∈ pieces := by
  induction pieces with
  | nil => simp [behind]
  | cons piece pieces ih =>
      cases piece with
      | char d =>
          refine ⟨fun member => ?_, fun mark there member => ?_⟩
          · cases List.mem_cons.mp member with
            | inl same => exact same ▸ List.mem_cons_self
            | inr later => exact List.mem_cons_of_mem _ (ih.1 later)
          · exact List.mem_cons_of_mem _ (ih.2 mark there member)
      | tag tag =>
          refine ⟨fun member => absurd member List.not_mem_nil, fun mark there member => ?_⟩
          cases List.mem_cons.mp there with
          | inl first => exact List.mem_cons_of_mem _ (ih.1 (by rwa [first] at member))
          | inr later => exact List.mem_cons_of_mem _ (ih.2 mark later member)

/-- A text that begins with a tag and ends outside of one, by its tags and the texts behind
    them. -/
def Marked (text : Text) (found : List (Text × Text)) : Prop :=
  (behind (read .outside text).1, (read .outside text).2) = (([], found), .outside)

instance (text : Text) (found : List (Text × Text)) : Decidable (Marked text found) :=
  inferInstanceAs (Decidable (_ = _))

theorem Marked.nil : Marked [] [] := rfl

theorem Marked.append {a b : Text} {ms ns : List (Text × Text)} (first : Marked a ms)
    (second : Marked b ns) : Marked (a ++ b) (ms ++ ns) := by
  obtain ⟨marksA, modeA⟩ := Prod.mk.inj first
  obtain ⟨marksB, modeB⟩ := Prod.mk.inj second
  rw [Marked, read_append, modeA, behind_append (by rw [marksB]), marksA, marksB, modeB]

theorem Marked.unique {text : Text} {ms ns : List (Text × Text)} (first : Marked text ms)
    (second : Marked text ns) : ms = ns :=
  congrArg (·.1.2) (first.symm.trans second)

/-- The texts behind the tags have no `<` in them. -/
theorem Marked.plain {text : Text} {found : List (Text × Text)} (marked : Marked text found)
    {mark : Text × Text} (member : mark ∈ found) : '<' ∉ mark.2 := by
  intro inside
  have pieces := (Prod.mk.inj marked).1
  have there : mark ∈ (behind (read .outside text).1).2 := by rwa [pieces]
  exact ne_of_mem_read (mem_of_mem_behind.2 mark there inside) rfl

/-- One tag and a text without `<` behind it. -/
theorem marked_tag {front text tag : Text} (opens : read .outside front = ([.tag tag], .outside))
    (plain : '<' ∉ text) : Marked (front ++ text) [(tag, text)] := by
  rw [Marked, read_append, opens, read_plain plain, List.singleton_append, behind, behind_chars]

/-! ## Nesting -/

/-- The part of a tag that names its element. -/
def tagName (tag : Text) : Text := tag.takeWhile (· ≠ ' ')

/-- The id of an `li`, its first attribute. -/
def liId (tag : Text) : Option Text :=
  if tagName tag = "li".toList then some ((tag.drop "li id=\"".toList.length).takeWhile (· ≠ '"'))
  else none

theorem quote_not_mem_liId {tag id : Text} (found : liId tag = some id) : '"' ∉ id := by
  rw [liId, Option.ite_none_right_eq_some, Option.some.injEq] at found
  rw [← found.2]
  intro member
  simpa using List.all_eq_true.mp List.all_takeWhile _ member

/-- The last element open is closed, if it has the name. -/
def closeTop (name : Text) : List Text → Option (List Text)
  | [] => none
  | top :: stack => if name = '/' :: top then some stack else none

/-- What a tag does to the open elements among those with the given names. -/
def nestStep (names stack : List Text) (tag : Text) : Option (List Text) :=
  if names.contains (tagName tag) then some (tagName tag :: stack)
  else if (names.map ('/' :: ·)).contains (tagName tag) then closeTop (tagName tag) stack
  else some stack

def nest (names stack tags : List Text) : Option (List Text) := tags.foldlM (nestStep names) stack

def Nested (names tags : List Text) : Prop := nest names [] tags = some []

instance (names tags : List Text) : Decidable (Nested names tags) :=
  inferInstanceAs (Decidable (_ = _))

theorem nest_append (names stack a b : List Text) :
    nest names stack (a ++ b) = (nest names stack a).bind fun stack => nest names stack b :=
  List.foldlM_append

end Lib.Tags
