import OslabProfiler.Lib.Json

/-! # A printed value is read back

The parts of a printed value are read back one by one: the characters of a string, the
tokens, and the values themselves, whatever stands behind them. The rounds a value needs
are bounded by the length of its text, so the whole text can be read.
-/

namespace Lib.Json

/-! ## Strings are read back -/

theorem hexValue_hexDigit {n : Nat} (small : n < 16) : hexValue (hexDigit n) = some n := by
  interval_cases n <;> decide

/-- What an escaped character looks like. -/
theorem escapeChar_cases (c : Char) :
    (escapeChar c = [c] ∧ c ≠ '"' ∧ c ≠ '\\' ∧ 32 ≤ c.toNat) ∨
    (∃ e, escapeChar c = ['\\', e] ∧ e ≠ 'u' ∧ simpleEscape e = some c.toNat) ∨
    (escapeChar c =
        ['\\', 'u', '0', '0', hexDigit (c.toNat / 16), hexDigit (c.toNat % 16)] ∧
      c.toNat < 32) := by
  unfold escapeChar
  split_ifs with quote backslash b t n f r control
  · exact .inr (.inl ⟨_, rfl, by decide, by rw [quote]; rfl⟩)
  · exact .inr (.inl ⟨_, rfl, by decide, by rw [backslash]; rfl⟩)
  · exact .inr (.inl ⟨_, rfl, by decide, b ▸ rfl⟩)
  · exact .inr (.inl ⟨_, rfl, by decide, t ▸ rfl⟩)
  · exact .inr (.inl ⟨_, rfl, by decide, n ▸ rfl⟩)
  · exact .inr (.inl ⟨_, rfl, by decide, f ▸ rfl⟩)
  · exact .inr (.inl ⟨_, rfl, by decide, r ▸ rfl⟩)
  · exact .inr (.inr ⟨rfl, control⟩)
  · exact .inl ⟨rfl, quote, backslash, not_lt.mp control⟩

theorem escape_cons (c : Char) (s : Text) : escape (c :: s) = escapeChar c ++ escape s :=
  List.flatMap_cons

theorem hexDigit_plain {n : Nat} (small : n < 16) : hexDigit n ≠ '"' ∧ hexDigit n ≠ '\\' := by
  interval_cases n <;> decide

theorem rawString_escape (s rest : Text) :
    rawString false (escape s ++ '"' :: rest) = some (escape s, rest) := by
  induction s with
  | nil => simp [escape, rawString]
  | cons c s ih =>
      rw [escape_cons, List.append_assoc]
      obtain ⟨plain, noQuote, noBackslash, -⟩ | ⟨e, two, -, -⟩ | ⟨six, control⟩ :=
        escapeChar_cases c
      · simp [plain, rawString, noQuote, noBackslash, ih]
      · simp [two, rawString, ih]
      · have high := hexDigit_plain (n := c.toNat / 16) (by omega)
        have low := hexDigit_plain (n := c.toNat % 16) (by omega)
        simp [six, rawString, high, low, ih]

theorem unescape_escape (s : Text) : unescape .none (escape s) = some (s.map Char.toNat) := by
  induction s with
  | nil => simp [escape, unescape]
  | cons c s ih =>
      rw [escape_cons]
      obtain ⟨plain, -, noBackslash, visible⟩ | ⟨e, two, noHex, code⟩ | ⟨six, control⟩ :=
        escapeChar_cases c
      · simp [plain, unescape, noBackslash, ih, not_lt.mpr visible]
      · simp [two, unescape, noHex, code, ih]
      · have zero : hexValue '0' = some 0 := rfl
        have high := hexValue_hexDigit (n := c.toNat / 16) (by omega)
        have low := hexValue_hexDigit (n := c.toNat % 16) (by omega)
        simp only [six, List.cons_append, List.nil_append, unescape, ↓reduceIte, zero, high, low,
          Option.bind_some, ih, Option.map_some, List.map_cons]
        congr 2
        omega

theorem ofCodes_toNat (s : Text) : ofCodes none (s.map Char.toNat) = some s := by
  induction s with
  | nil => rfl
  | cons c s ih =>
      have valid : c.toNat < 0xD800 ∨ (0xDFFF < c.toNat ∧ c.toNat < 0x110000) := c.valid
      have notHigh : isHigh c.toNat = false := by
        simp only [isHigh, Bool.and_eq_false_iff, decide_eq_false_iff_not]
        omega
      have notLow : isLow c.toNat = false := by
        simp only [isLow, Bool.and_eq_false_iff, decide_eq_false_iff_not]
        omega
      simp [ofCodes, notHigh, notLow, ih]

theorem readString_escape (s rest : Text) :
    readString (escape s ++ '"' :: rest) = some (s, rest) := by
  simp [readString, rawString_escape, unescape_escape, ofCodes_toNat]

/-! ## Tokens are read back -/

/-- A text that does not go on with a character of a word. -/
def Stops (rest : Text) : Prop := rest.head?.any isWordChar = false

theorem stops_nil : Stops [] := rfl

theorem stops_cons {c : Char} (other : isWordChar c = false) (rest : Text) : Stops (c :: rest) :=
  other

theorem next_space {w : Text} (space : w.all isSpace = true) (text : Text) :
    next (w ++ text) = next text := by
  have same : skip (w ++ text) = skip text :=
    List.dropWhile_append_of_pos (List.all_eq_true.mp space)
  simp only [next, same]

theorem space_of_sign {c : Char} {token : Token} (found : sign c = some token) :
    isSpace c = false := by
  unfold sign at found
  split_ifs at found with h₁ h₂ h₃ h₄ h₅ h₆
  all_goals subst c; rfl

theorem next_sign {c : Char} {token : Token} (found : sign c = some token) (rest : Text) :
    next (c :: rest) = some (token, rest) := by
  have here : skip (c :: rest) = c :: rest :=
    List.dropWhile_cons_of_neg (by rw [space_of_sign found]; exact Bool.false_ne_true)
  simp only [next, here, found]

theorem next_quote (s rest : Text) : next (quote s ++ rest) = some (.string s, rest) := by
  have here : skip (quote s ++ rest) = '"' :: (escape s ++ '"' :: rest) := by
    simp [skip, quote, isSpace]
  have noSign : sign '"' = none := rfl
  simp only [next, here, noSign, ↓reduceIte, readString_escape, Option.map_some]

/-- A character of a word is none of the others. -/
theorem wordChar_apart {c : Char} (inWord : isWordChar c = true) :
    isSpace c = false ∧ sign c = none ∧ c ≠ '"' := by
  have others : ∀ d ∈ [' ', '\t', '\n', '\r', '[', ']', '\x7b', '\x7d', ',', ':', '"'],
      c ≠ d := by
    intro d member same
    subst same
    simp only [List.mem_cons, List.not_mem_nil, or_false] at member
    rcases member with rfl | rfl | rfl | rfl | rfl | rfl | rfl | rfl | rfl | rfl | rfl
    all_goals exact absurd inWord (by decide)
  simp only [List.forall_mem_cons, List.not_mem_nil, false_implies, implies_true, and_true]
    at others
  simp [isSpace, sign, others]

theorem takeWhile_stops {w rest : Text} (inWord : w.all isWordChar = true) (stops : Stops rest) :
    (w ++ rest).takeWhile isWordChar = w ∧ (w ++ rest).dropWhile isWordChar = rest := by
  have all := List.all_eq_true.mp inWord
  rw [List.takeWhile_append_of_pos all, List.dropWhile_append_of_pos all]
  cases rest with
  | nil => simp
  | cons c rest =>
      have other : isWordChar c = false := stops
      simp [other]

theorem next_word {w rest : Text} {token : Token} (found : word w = some token)
    (inWord : w.all isWordChar = true) (nonempty : w ≠ []) (stops : Stops rest) :
    next (w ++ rest) = some (token, rest) := by
  obtain ⟨taken, dropped⟩ := takeWhile_stops inWord stops
  cases w with
  | nil => exact absurd rfl nonempty
  | cons c w =>
      rw [List.cons_append] at taken dropped
      obtain ⟨noSpace, noSign, noQuote⟩ := wordChar_apart (c := c) (by simp_all)
      have here : skip (c :: w ++ rest) = c :: (w ++ rest) :=
        List.dropWhile_cons_of_neg (by rw [noSpace]; exact Bool.false_ne_true)
      simp only [next, here, noSign, if_neg noQuote, taken, dropped, found, Option.map_some]

theorem word_literal (l : JsonLiteral) : word l.text = some (.number l) := by
  obtain ⟨text, valid, wordChars⟩ := l
  have other : ∀ w, JsonNumber.isLiteral w = false → text ≠ w := by
    intro w invalid same
    rw [same, invalid] at valid
    cases valid
  have noNull := other "null".toList (by decide)
  have noTrue := other "true".toList (by decide)
  have noFalse := other "false".toList (by decide)
  simp only [word, if_neg noNull, if_neg noTrue, if_neg noFalse]
  exact dif_pos ⟨valid, wordChars⟩

theorem literal_ne_nil (l : JsonLiteral) : l.text ≠ [] := by
  intro empty
  have valid := l.valid
  rw [empty] at valid
  cases valid

/-! ## Values are read back -/

mutual

/-- Rounds that are enough to read a value. -/
def need : Json → Nat
  | .array vs => needItems vs + 1
  | .object fields => needFields fields + 1
  | _ => 1

def needItems : List Json → Nat
  | [] => 0
  | v :: vs => v.need + needItems vs + 1

def needFields : List (Text × Json) → Nat
  | [] => 0
  | (_, v) :: fields => v.need + needFields fields + 1

end

theorem stops_space {w : Text} (space : w.all isSpace = true) {c : Char}
    (other : isWordChar c = false) (rest : Text) : Stops (w ++ c :: rest) := by
  cases w with
  | nil => exact other
  | cons d w =>
      apply stops_cons
      by_contra inWord
      have apart := (wordChar_apart (Bool.not_eq_false _ ▸ inWord)).1
      simp [apart] at space

theorem value_space {w : Text} (space : w.all isSpace = true) (n : Nat) (text : Text) :
    value n (w ++ text) = value n text := by
  cases n with
  | zero => rfl
  | succ n => simp only [value, next_space space]

theorem items_space {w : Text} (space : w.all isSpace = true) (n : Nat) (text : Text) :
    items n (w ++ text) = items n text := by
  cases n with
  | zero => rfl
  | succ n => simp only [items, value_space space]

theorem fields_space {w : Text} (space : w.all isSpace = true) (n : Nat) (text : Text) :
    fields n (w ++ text) = fields n text := by
  cases n with
  | zero => rfl
  | succ n => simp only [fields, next_space space]

section Indented

variable {gap indent : Text}

theorem space_line (gap : Text) (spaces : indent.all isSpace = true) :
    (line gap indent).all isSpace = true := by
  unfold line
  split
  · rfl
  · simpa [isSpace] using spaces

theorem next_colon (gap rest : Text) :
    ∃ w : Text, w.all isSpace = true ∧ next (colon gap ++ rest) = some (.colon, w ++ rest) := by
  unfold colon
  split
  · exact ⟨[], rfl, next_sign rfl rest⟩
  · exact ⟨[' '], rfl, next_sign rfl _⟩

theorem stops_moreItems (vs : List Json) {rest : Text} (stops : Stops rest) :
    Stops (moreItems gap indent vs ++ rest) := by
  cases vs with
  | nil => exact stops
  | cons v vs => exact stops_cons rfl _

end Indented

/-- What a value begins with is not a closing bracket or brace. -/
theorem next_stringify (gap indent : Text) (v : Json) {rest : Text} (stops : Stops rest) :
    ∃ token l, next (v.stringify gap indent ++ rest) = some (token, l) ∧
      token ≠ .closeBracket ∧ token ≠ .closeBrace := by
  cases v with
  | null => exact ⟨_, _, next_word rfl rfl (by simp [stringify]) stops, by simp, by simp⟩
  | bool b =>
      cases b with
      | true => exact ⟨_, _, next_word rfl rfl (by simp [stringify]) stops, by simp, by simp⟩
      | false => exact ⟨_, _, next_word rfl rfl (by simp [stringify]) stops, by simp, by simp⟩
  | number l =>
      exact ⟨_, _, next_word (word_literal l) l.wordChars (literal_ne_nil l) stops, by simp, by simp⟩
  | string s => exact ⟨_, _, next_quote s rest, by simp, by simp⟩
  | array vs =>
      cases vs with
      | nil => exact ⟨_, _, next_sign rfl _, by simp, by simp⟩
      | cons v vs => exact ⟨_, _, next_sign rfl _, by simp, by simp⟩
  | object fs =>
      cases fs with
      | nil => exact ⟨_, _, next_sign rfl _, by simp, by simp⟩
      | cons f fs => exact ⟨_, _, next_sign rfl _, by simp, by simp⟩

theorem value_items {n : Nat} {text l l' : Text} {token : Token}
    (opens : next text = some (.openBracket, l)) (first : next l = some (token, l'))
    (inside : token ≠ .closeBracket) :
    value (n + 1) text = (items n l).map fun r => (.array r.1, r.2) := by
  simp only [value, opens, first]
  split
  · rename_i same
    exact absurd (congrArg Prod.fst (Option.some.inj same)) inside
  · rfl

theorem value_fields {n : Nat} {text l l' : Text} {token : Token}
    (opens : next text = some (.openBrace, l)) (first : next l = some (token, l'))
    (inside : token ≠ .closeBrace) :
    value (n + 1) text = (fields n l).map fun r => (.object r.1, r.2) := by
  simp only [value, opens, first]
  split
  · rename_i same
    exact absurd (congrArg Prod.fst (Option.some.inj same)) inside
  · rfl

theorem need_pos (v : Json) : 0 < v.need := by
  cases v <;> simp [need]

/-- A printed value is read back, and nothing of what comes behind it is taken. -/
def ReadBack (gap : Text) (v : Json) : Prop :=
  ∀ (indent : Text), indent.all isSpace = true → ∀ n, v.need ≤ n + 1 → ∀ rest, Stops rest →
    value (n + 1) (v.stringify gap indent ++ rest) = some (v, rest)

theorem ReadBack.value_eq {gap : Text} {v : Json} (back : ReadBack gap v) (indent : Text)
    (indents : indent.all isSpace = true) {n : Nat} (enough : v.need ≤ n) {rest : Text}
    (stops : Stops rest) : value n (v.stringify gap indent ++ rest) = some (v, rest) := by
  have pos := need_pos v
  obtain ⟨n, rfl⟩ := Nat.exists_eq_add_one_of_ne_zero (n := n) (by omega)
  exact back indent indents n enough rest stops

section Back

variable {gap indent close : Text}

theorem items_stringify (indents : indent.all isSpace = true) (closes : close.all isSpace = true)
    {v : Json} {vs : List Json} (back : ∀ u ∈ v :: vs, ReadBack gap u) {n : Nat}
    (enough : needItems (v :: vs) ≤ n) (rest : Text) :
    items n (v.stringify gap indent ++ (moreItems gap indent vs ++ (close ++ ']' :: rest))) =
      some (v :: vs, rest) := by
  induction vs generalizing v n with
  | nil =>
      have bound : v.need + 0 + 1 ≤ n := enough
      obtain ⟨n, rfl⟩ := Nat.exists_eq_add_one_of_ne_zero (n := n) (by omega)
      have read := (back v (by simp)).value_eq indent indents (n := n) (by omega)
        (stops_space closes (c := ']') rfl rest)
      simp only [items, moreItems, List.nil_append, read, Option.bind_some, next_space closes,
        next_sign (c := ']') rfl]
  | cons v' vs ih =>
      have bound : v.need + needItems (v' :: vs) + 1 ≤ n := enough
      obtain ⟨n, rfl⟩ := Nat.exists_eq_add_one_of_ne_zero (n := n) (by omega)
      have stops : Stops (moreItems gap indent (v' :: vs) ++ (close ++ ']' :: rest)) :=
        stops_cons rfl _
      have read := (back v (by simp)).value_eq indent indents (n := n) (by omega) stops
      have more := ih (List.forall_mem_cons.mp back).2 (n := n) (by omega)
      rw [← items_space (space_line gap indents)] at more
      rw [items, read, Option.bind_some]
      simp only [moreItems, List.cons_append, List.append_assoc, next_sign (c := ',') rfl, more,
        Option.map_some]

theorem fields_stringify (indents : indent.all isSpace = true) (closes : close.all isSpace = true)
    {key : Text} {v : Json} {fs : List (Text × Json)}
    (back : ∀ f ∈ (key, v) :: fs, ReadBack gap f.2) {n : Nat}
    (enough : needFields ((key, v) :: fs) ≤ n) (rest : Text) :
    fields n (quote key ++ (colon gap ++ (v.stringify gap indent ++
      (moreFields gap indent fs ++ (close ++ '\x7d' :: rest))))) = some ((key, v) :: fs, rest) := by
  induction fs generalizing key v n with
  | nil =>
      have bound : v.need + 0 + 1 ≤ n := enough
      obtain ⟨n, rfl⟩ := Nat.exists_eq_add_one_of_ne_zero (n := n) (by omega)
      obtain ⟨w, space, named⟩ := next_colon gap (v.stringify gap indent ++
        (moreFields gap indent [] ++ (close ++ '\x7d' :: rest)))
      have read := (back (key, v) (by simp)).value_eq indent indents (n := n) (by simp only; omega)
        (stops_space closes (c := '\x7d') rfl rest)
      rw [← value_space space] at read
      simp only [fields, next_quote, named]
      simp only [moreFields, List.nil_append, read, Option.bind_some, next_space closes,
        next_sign (c := '\x7d') rfl]
  | cons f fs ih =>
      obtain ⟨key', v'⟩ := f
      have bound : v.need + needFields ((key', v') :: fs) + 1 ≤ n := enough
      obtain ⟨n, rfl⟩ := Nat.exists_eq_add_one_of_ne_zero (n := n) (by omega)
      obtain ⟨w, space, named⟩ := next_colon gap (v.stringify gap indent ++
        (moreFields gap indent ((key', v') :: fs) ++ (close ++ '\x7d' :: rest)))
      have stops : Stops (moreFields gap indent ((key', v') :: fs) ++ (close ++ '\x7d' :: rest)) :=
        stops_cons rfl _
      have read := (back (key, v) (by simp)).value_eq indent indents (n := n) (by simp only; omega) stops
      rw [← value_space space] at read
      have more := ih (List.forall_mem_cons.mp back).2 (n := n) (by omega)
      rw [← fields_space (space_line gap indents)] at more
      simp only [fields, next_quote, named, read, Option.bind_some]
      simp only [moreFields, List.cons_append, List.append_assoc, next_sign (c := ',') rfl, more,
        Option.map_some]

theorem value_stringify (gap : Text) (gaps : gap.all isSpace = true) (v : Json) : ReadBack gap v := by
  induction v using Json.induct with
  | null =>
      intro indent indents n enough rest stops
      simp only [value, stringify, next_word (w := "null".toList) rfl rfl (by simp) stops]
  | bool b =>
      intro indent indents n enough rest stops
      cases b with
      | true => simp only [value, stringify, next_word (w := "true".toList) rfl rfl (by simp) stops]
      | false =>
          simp only [value, stringify, next_word (w := "false".toList) rfl rfl (by simp) stops]
  | number l =>
      intro indent indents n enough rest stops
      simp only [value, stringify,
        next_word (word_literal l) l.wordChars (literal_ne_nil l) stops]
  | string s =>
      intro indent indents n enough rest stops
      simp only [value, stringify, next_quote]
  | array vs back =>
      intro indent indents n enough rest stops
      have inner : (indent ++ gap).all isSpace = true := by simp [indents, gaps]
      cases vs with
      | nil =>
          have first := next_sign (c := '[') rfl (']' :: rest)
          have last := next_sign (c := ']') rfl rest
          simp only [stringify, value, List.cons_append, List.nil_append]
          simp only [first, last]
      | cons v vs =>
          have stop := stops_space (space_line gap indents) (c := ']') rfl rest
          obtain ⟨token, l, first, inside, -⟩ :=
            next_stringify gap (indent ++ gap) v (stops_moreItems vs stop)
          rw [← next_space (space_line gap inner)] at first
          have read := items_stringify inner (space_line gap indents) back
            (n := n) (by simp only [need] at enough; omega) rest
          rw [← items_space (space_line gap inner)] at read
          simp only [stringify, List.cons_append, List.append_assoc, List.nil_append] at first read ⊢
          rw [value_items (next_sign rfl _) first inside, read]
          rfl
  | object fs back =>
      intro indent indents n enough rest stops
      have inner : (indent ++ gap).all isSpace = true := by simp [indents, gaps]
      cases fs with
      | nil =>
          have first := next_sign (c := '\x7b') rfl ('\x7d' :: rest)
          have last := next_sign (c := '\x7d') rfl rest
          simp only [stringify, value, List.cons_append, List.nil_append]
          simp only [first, last]
      | cons f fs =>
          obtain ⟨key, v⟩ := f
          have read := fields_stringify inner (space_line gap indents) back
            (n := n) (by simp only [need] at enough; omega) rest
          rw [← fields_space (space_line gap inner)] at read
          have first := next_quote key (colon gap ++ (v.stringify gap (indent ++ gap) ++
            (moreFields gap (indent ++ gap) fs ++ (line gap indent ++ '\x7d' :: rest))))
          rw [← next_space (space_line gap inner)] at first
          simp only [stringify, List.cons_append, List.append_assoc, List.nil_append] at read ⊢
          rw [value_fields (next_sign rfl _) first (by simp), read]
          rfl

end Back

theorem needItems_le {gap indent : Text} {vs : List Json}
    (shorter : ∀ v ∈ vs, v.need ≤ (v.stringify gap indent).length) :
    needItems vs ≤ (moreItems gap indent vs).length := by
  induction vs with
  | nil => simp [needItems]
  | cons v vs ih =>
      obtain ⟨first, more⟩ := List.forall_mem_cons.mp shorter
      have rest := ih more
      simp only [needItems, moreItems, List.length_append, List.length_cons]
      omega

theorem needFields_le {gap indent : Text} {fs : List (Text × Json)}
    (shorter : ∀ f ∈ fs, f.2.need ≤ (f.2.stringify gap indent).length) :
    needFields fs ≤ (moreFields gap indent fs).length := by
  induction fs with
  | nil => simp [needFields]
  | cons f fs ih =>
      obtain ⟨first, more⟩ := List.forall_mem_cons.mp shorter
      have rest := ih more
      simp only [needFields, moreFields, List.length_append, List.length_cons]
      omega

/-- A text is long enough for its own rounds. -/
theorem need_le_length (gap : Text) (v : Json) :
    ∀ indent, v.need ≤ (v.stringify gap indent).length := by
  induction v using Json.induct with
  | null => intro indent; simp [need, stringify]
  | bool b => intro indent; cases b <;> simp [need, stringify]
  | number l =>
      intro indent
      exact List.length_pos_iff.mpr (literal_ne_nil l)
  | string s => intro indent; simp [need, stringify, quote]
  | array vs shorter =>
      intro indent
      cases vs with
      | nil => simp [need, needItems, stringify]
      | cons v vs =>
          have bound := needItems_le fun u member => shorter u member (indent ++ gap)
          simp only [needItems, moreItems, List.length_append, List.length_cons] at bound
          simp only [need, needItems, stringify, List.length_append, List.length_cons]
          omega
  | object fs shorter =>
      intro indent
      cases fs with
      | nil => simp [need, needFields, stringify]
      | cons f fs =>
          have bound := needFields_le fun u member => shorter u member (indent ++ gap)
          simp only [needFields, moreFields, List.length_append, List.length_cons] at bound
          simp only [need, needFields, stringify, List.length_append, List.length_cons]
          omega

/-- `JSON.parse` inverts `JSON.stringify`. -/
theorem parse_stringify (gap : Text) (gaps : gap.all isSpace = true) (v : Json) :
    parse (v.stringify gap []) = some v := by
  have read := (value_stringify gap gaps v).value_eq [] rfl (need_le_length gap v [])
    stops_nil
  rw [List.append_nil] at read
  rw [parse, read, Option.bind_some]
  exact if_pos rfl

end Lib.Json
