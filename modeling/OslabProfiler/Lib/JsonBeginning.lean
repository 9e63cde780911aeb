import OslabProfiler.Lib.JsonRoundTrip

/-! # Beginnings of a printed value

What is read from the beginning of a text is read from the whole text too, unless a word was
cut off at its end. So a value that is no word cannot be read from a part of its own text:
the rest of the text would be left over.
-/

namespace Lib.Json

/-- Words end where another character comes; at the end of a text they might go on. -/
def Token.isWord : Token → Bool
  | .null | .bool _ | .number _ => true
  | _ => false

def isWord : Json → Bool
  | .null | .bool _ | .number _ => true
  | _ => false

theorem rawString_append {escaped : Bool} {text s rest : Text} (more : Text)
    (read : rawString escaped text = some (s, rest)) :
    rawString escaped (text ++ more) = some (s, rest ++ more) := by
  induction text generalizing escaped s with
  | nil => cases escaped <;> cases read
  | cons c text ih =>
      cases escaped with
      | true =>
          simp only [rawString, Option.map_eq_some_iff, Prod.mk.injEq] at read
          obtain ⟨r, inner, rfl, rfl⟩ := read
          simp only [List.cons_append, rawString, ih inner, Option.map_some]
      | false =>
          simp only [rawString] at read
          split_ifs at read with quote
          · obtain ⟨rfl, rfl⟩ := Prod.mk.inj (Option.some.inj read)
            simp only [List.cons_append, rawString, if_pos quote]
          · simp only [Option.map_eq_some_iff, Prod.mk.injEq] at read
            obtain ⟨r, inner, rfl, rfl⟩ := read
            simp only [List.cons_append, rawString, if_neg quote, ih inner, Option.map_some]

theorem readString_append {text s rest : Text} (more : Text)
    (read : readString text = some (s, rest)) :
    readString (text ++ more) = some (s, rest ++ more) := by
  simp only [readString, Option.bind_eq_some_iff, Option.map_eq_some_iff, Prod.mk.injEq] at read ⊢
  obtain ⟨r, raw, s', codes, rfl, rfl⟩ := read
  exact ⟨_, rawString_append more raw, s', codes, rfl, rfl⟩

theorem skip_append {text l : Text} {c : Char} (first : skip text = c :: l) (more : Text) :
    skip (text ++ more) = c :: (l ++ more) := by
  rw [skip] at first
  rw [skip, List.dropWhile_append, first]
  rfl

theorem isWord_of_word {w : Text} {token : Token} (found : word w = some token) :
    token.isWord = true := by
  unfold word at found
  split_ifs at found
  all_goals
    obtain rfl := Option.some.inj found
    rfl

theorem takeWhile_append_of_dropWhile {w : Text} (more : Text)
    (behind : w.dropWhile isWordChar ≠ []) :
    (w ++ more).takeWhile isWordChar = w.takeWhile isWordChar ∧
      (w ++ more).dropWhile isWordChar = w.dropWhile isWordChar ++ more := by
  rw [List.takeWhile_append, List.dropWhile_append]
  have short : (w.takeWhile isWordChar).length ≠ w.length := by
    intro same
    apply behind
    have split := congrArg List.length (List.takeWhile_append_dropWhile (p := isWordChar) (l := w))
    rw [List.length_append] at split
    exact List.length_eq_zero_iff.mp (by omega)
  rw [if_neg short, if_neg (by simpa using behind)]
  exact ⟨rfl, rfl⟩

theorem next_append {text rest : Text} {token : Token} (more : Text)
    (read : next text = some (token, rest)) (ends : token.isWord = true → rest ≠ []) :
    next (text ++ more) = some (token, rest ++ more) := by
  unfold next at read
  split at read
  · cases read
  · rename_i c l first
    rw [next, skip_append first more]
    cases found : sign c with
    | some token' =>
        simp only [found, Option.some.injEq, Prod.mk.injEq] at read ⊢
        exact ⟨read.1, read.2 ▸ rfl⟩
    | none =>
        simp only [found] at read ⊢
        split_ifs at read ⊢ with quote
        · simp only [Option.map_eq_some_iff, Prod.mk.injEq] at read
          obtain ⟨r, string, rfl, rfl⟩ := read
          simp only [readString_append more string, Option.map_some]
        · simp only [Option.map_eq_some_iff, Prod.mk.injEq] at read
          obtain ⟨token', isWord, rfl, rfl⟩ := read
          obtain ⟨taken, dropped⟩ :=
            takeWhile_append_of_dropWhile more (ends (isWord_of_word isWord))
          rw [List.cons_append] at taken dropped
          rw [taken, dropped, isWord]
          rfl

/-- What is read from the beginning of a text is read from the text, with more rounds too. -/
structure Extends (n m : Nat) (more : Text) : Prop where
  value : ∀ text v rest, Json.value n text = some (v, rest) → (v.isWord = true → rest ≠ []) →
    Json.value m (text ++ more) = some (v, rest ++ more)
  items : ∀ text vs rest, Json.items n text = some (vs, rest) →
    Json.items m (text ++ more) = some (vs, rest ++ more)
  fields : ∀ text fs rest, Json.fields n text = some (fs, rest) →
    Json.fields m (text ++ more) = some (fs, rest ++ more)

theorem next_ne_nil {text : Text} {r : Token × Text} (read : next text = some r) : text ≠ [] := by
  rintro rfl
  cases read

/-- What a value was read from begins with a token that is no closing bracket. -/
theorem value_first {n : Nat} {text rest : Text} {v : Json}
    (read : value n text = some (v, rest)) :
    ∃ token l, next text = some (token, l) ∧ token ≠ .closeBracket ∧
      token.isWord = v.isWord ∧ (token.isWord = true → l = rest) := by
  cases n with
  | zero => cases read
  | succ n =>
      simp only [value] at read
      split at read
      · rename_i l first
        obtain ⟨rfl, rfl⟩ := Prod.mk.inj (Option.some.inj read)
        exact ⟨_, _, first, by simp, rfl, fun _ => rfl⟩
      · rename_i b l first
        obtain ⟨rfl, rfl⟩ := Prod.mk.inj (Option.some.inj read)
        exact ⟨_, _, first, by simp, rfl, fun _ => rfl⟩
      · rename_i literal l first
        obtain ⟨rfl, rfl⟩ := Prod.mk.inj (Option.some.inj read)
        exact ⟨_, _, first, by simp, rfl, fun _ => rfl⟩
      · rename_i s l first
        obtain ⟨rfl, rfl⟩ := Prod.mk.inj (Option.some.inj read)
        exact ⟨_, _, first, by simp, rfl, fun _ => rfl⟩
      · rename_i l first
        refine ⟨_, _, first, by simp, ?_, by simp [Token.isWord]⟩
        split at read
        · obtain ⟨rfl, rfl⟩ := Prod.mk.inj (Option.some.inj read)
          rfl
        · simp only [Option.map_eq_some_iff, Prod.mk.injEq] at read
          obtain ⟨r, -, rfl, -⟩ := read
          rfl
      · rename_i l first
        refine ⟨_, _, first, by simp, ?_, by simp [Token.isWord]⟩
        split at read
        · obtain ⟨rfl, rfl⟩ := Prod.mk.inj (Option.some.inj read)
          rfl
        · simp only [Option.map_eq_some_iff, Prod.mk.injEq] at read
          obtain ⟨r, -, rfl, -⟩ := read
          rfl
      · cases read

theorem items_first {n : Nat} {text rest : Text} {vs : List Json}
    (read : items n text = some (vs, rest)) :
    ∃ token l, next text = some (token, l) ∧ token ≠ .closeBracket ∧
      (token.isWord = true → l ≠ []) := by
  cases n with
  | zero => cases read
  | succ n =>
      simp only [items, Option.bind_eq_some_iff] at read
      obtain ⟨⟨v, l⟩, first, others⟩ := read
      obtain ⟨token, l', begins, inside, -, same⟩ := value_first first
      refine ⟨token, l', begins, inside, fun isWord => ?_⟩
      rw [same isWord]
      rintro rfl
      cases others

theorem fields_first {n : Nat} {text rest : Text} {fs : List (Text × Json)}
    (read : fields n text = some (fs, rest)) : ∃ key l, next text = some (.string key, l) := by
  cases n with
  | zero => cases read
  | succ n =>
      simp only [fields] at read
      split at read
      · rename_i key l first
        exact ⟨key, l, first⟩
      · cases read

section Longer

variable {n m : Nat} {more : Text}

theorem value_extends (ih : Extends n m more) {text rest : Text} {v : Json}
    (read : value (n + 1) text = some (v, rest)) (ends : v.isWord = true → rest ≠ []) :
    value (m + 1) (text ++ more) = some (v, rest ++ more) := by
  simp only [value] at read
  split at read
  · rename_i l first
    obtain ⟨rfl, rfl⟩ := Prod.mk.inj (Option.some.inj read)
    simp only [value, next_append more first (fun _ => ends rfl)]
  · rename_i b l first
    obtain ⟨rfl, rfl⟩ := Prod.mk.inj (Option.some.inj read)
    simp only [value, next_append more first (fun _ => ends rfl)]
  · rename_i literal l first
    obtain ⟨rfl, rfl⟩ := Prod.mk.inj (Option.some.inj read)
    simp only [value, next_append more first (fun _ => ends rfl)]
  · rename_i s l first
    obtain ⟨rfl, rfl⟩ := Prod.mk.inj (Option.some.inj read)
    simp only [value, next_append more first (by simp [Token.isWord])]
  · rename_i l opens
    have opens' := next_append more opens (by simp [Token.isWord])
    split at read
    · rename_i l' closes
      obtain ⟨rfl, rfl⟩ := Prod.mk.inj (Option.some.inj read)
      simp only [value, opens', next_append more closes (by simp [Token.isWord])]
    · simp only [Option.map_eq_some_iff, Prod.mk.injEq] at read
      obtain ⟨r, inner, rfl, rfl⟩ := read
      obtain ⟨token, l', first, inside, behind⟩ := items_first inner
      rw [value_items opens' (next_append more first behind) inside, ih.items _ _ _ inner]
      rfl
  · rename_i l opens
    have opens' := next_append more opens (by simp [Token.isWord])
    split at read
    · rename_i l' closes
      obtain ⟨rfl, rfl⟩ := Prod.mk.inj (Option.some.inj read)
      simp only [value, opens', next_append more closes (by simp [Token.isWord])]
    · simp only [Option.map_eq_some_iff, Prod.mk.injEq] at read
      obtain ⟨r, inner, rfl, rfl⟩ := read
      obtain ⟨key, l', first⟩ := fields_first inner
      rw [value_fields opens' (next_append more first (by simp [Token.isWord])) (by simp),
        ih.fields _ _ _ inner]
      rfl
  · cases read

theorem items_extends (ih : Extends n m more) {text rest : Text} {vs : List Json}
    (read : items (n + 1) text = some (vs, rest)) :
    items (m + 1) (text ++ more) = some (vs, rest ++ more) := by
  simp only [items, Option.bind_eq_some_iff] at read
  obtain ⟨⟨v, l⟩, first, others⟩ := read
  split at others
  · rename_i l' comma
    have value := ih.value _ _ _ first fun _ => next_ne_nil comma
    simp only [Option.map_eq_some_iff, Prod.mk.injEq] at others
    obtain ⟨q, inner, rfl, rfl⟩ := others
    simp only [items, value, Option.bind_some, next_append more comma (by simp [Token.isWord]),
      ih.items _ _ _ inner, Option.map_some]
  · rename_i l' closes
    have value := ih.value _ _ _ first fun _ => next_ne_nil closes
    obtain ⟨rfl, rfl⟩ := Prod.mk.inj (Option.some.inj others)
    simp only [items, value, Option.bind_some, next_append more closes (by simp [Token.isWord])]
  · cases others

theorem fields_extends (ih : Extends n m more) {text rest : Text} {fs : List (Text × Json)}
    (read : fields (n + 1) text = some (fs, rest)) :
    fields (m + 1) (text ++ more) = some (fs, rest ++ more) := by
  simp only [fields] at read
  split at read
  · rename_i key l name
    split at read
    · rename_i l' colon
      simp only [Option.bind_eq_some_iff] at read
      obtain ⟨⟨v, l''⟩, first, others⟩ := read
      have named := next_append more name (by simp [Token.isWord])
      have behind := next_append more colon (by simp [Token.isWord])
      split at others
      · rename_i l₃ comma
        have value := ih.value _ _ _ first fun _ => next_ne_nil comma
        simp only [Option.map_eq_some_iff, Prod.mk.injEq] at others
        obtain ⟨q, inner, rfl, rfl⟩ := others
        simp only [fields, named, behind, value, Option.bind_some,
          next_append more comma (by simp [Token.isWord]), ih.fields _ _ _ inner, Option.map_some]
      · rename_i l₃ closes
        have value := ih.value _ _ _ first fun _ => next_ne_nil closes
        obtain ⟨rfl, rfl⟩ := Prod.mk.inj (Option.some.inj others)
        simp only [fields, named, behind, value, Option.bind_some,
          next_append more closes (by simp [Token.isWord])]
      · cases others
    · cases read
  · cases read

end Longer

theorem extends_of_le {n m : Nat} (enough : n ≤ m) (more : Text) : Extends n m more := by
  induction n generalizing m with
  | zero => constructor <;> simp [value, items, fields]
  | succ n ih =>
      obtain ⟨m, rfl⟩ := Nat.exists_eq_add_one_of_ne_zero (n := m) (by omega)
      have before := ih (m := m) (by omega)
      exact ⟨fun _ _ _ => value_extends before, fun _ _ _ => items_extends before,
        fun _ _ _ => fields_extends before⟩

/-- A value that is no word begins with a character that no word begins with. -/
theorem stringify_first (gap indent : Text) {v : Json} (noWord : v.isWord = false) :
    ∃ c l, v.stringify gap indent = c :: l ∧ (c = '"' ∨ c = '[' ∨ c = '\x7b') := by
  cases v with
  | null | bool | number => cases noWord
  | string s => exact ⟨_, _, rfl, .inl rfl⟩
  | array vs =>
      cases vs with
      | nil => exact ⟨_, _, rfl, .inr (.inl rfl)⟩
      | cons v vs => exact ⟨_, _, rfl, .inr (.inl rfl)⟩
  | object fs =>
      cases fs with
      | nil => exact ⟨_, _, rfl, .inr (.inr rfl)⟩
      | cons f fs => exact ⟨_, _, rfl, .inr (.inr rfl)⟩

theorem next_no_word {c : Char} {l rest : Text} {token : Token}
    (first : c = '"' ∨ c = '[' ∨ c = '\x7b') (read : next (c :: l) = some (token, rest)) :
    token.isWord = false := by
  rcases first with rfl | rfl | rfl
  · have here : skip ('"' :: l) = '"' :: l := rfl
    have noSign : sign '"' = none := rfl
    simp only [next, here, noSign, ↓reduceIte, Option.map_eq_some_iff, Prod.mk.injEq] at read
    obtain ⟨r, -, rfl, -⟩ := read
    rfl
  · rw [next_sign rfl] at read
    obtain ⟨rfl, -⟩ := Prod.mk.inj (Option.some.inj read)
    rfl
  · rw [next_sign rfl] at read
    obtain ⟨rfl, -⟩ := Prod.mk.inj (Option.some.inj read)
    rfl

/-- No proper beginning of a printed value can be read, unless the value is a word: what was
    read would also be read from the whole text, and leave the rest of it. -/
theorem parse_beginning (gap : Text) (gaps : gap.all isSpace = true) {v : Json}
    (noWord : v.isWord = false) {start more : Text} (whole : start ++ more = v.stringify gap [])
    (proper : more ≠ []) : parse start = none := by
  by_contra readable
  obtain ⟨w, read⟩ := Option.ne_none_iff_exists'.mp readable
  simp only [parse, Option.bind_eq_some_iff] at read
  obtain ⟨⟨w, rest⟩, begun, -⟩ := read
  have wordless : w.isWord = false := by
    obtain ⟨token, l, first, -, same, -⟩ := value_first begun
    obtain ⟨c, l', begins, signs⟩ := stringify_first gap [] noWord
    cases start with
    | nil => exact absurd rfl (next_ne_nil first)
    | cons d start =>
        rw [← whole, List.cons_append] at begins
        obtain ⟨rfl, -⟩ := List.cons.inj begins
        rw [← same]
        exact next_no_word signs first
  have enough : start.length ≤ (v.stringify gap []).length := by
    rw [← whole, List.length_append]
    omega
  have again := (extends_of_le enough more).value _ _ _ begun (by simp [wordless])
  have all := (value_stringify gap gaps v).value_eq [] rfl (need_le_length gap v [])
    stops_nil
  rw [List.append_nil] at all
  rw [whole, all] at again
  have left : [] = rest ++ more := congrArg Prod.snd (Option.some.inj again)
  exact proper (List.append_eq_nil_iff.mp left.symm).2

end Lib.Json
