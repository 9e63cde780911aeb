import Mathlib.Tactic

/-! # How a shell reads a word

The part of the POSIX shell language that decides which words a line is made of: blanks
separate words, quotes and backslashes are taken away, operators and newlines end a command,
`$(` starts a command of its own, and every other expansion is left open. A line is a list
of character codes. Reading it either finds one simple command that is made of words only,
or it finds none.

A text that stands on a line is read back as it is exactly when it has no special character
in it: read in any other way it loses a character, and what the word may take from behind
the end of the text has the separator in it.
-/

namespace Lib.Shell

/-- What a character is to the shell where it is not quoted. -/
inductive Class where
  | blank
  | newline
  | operator
  | backslash
  | single
  | double
  | dollar
  /-- A backquote, which starts an expansion, or a NUL, which no line has. -/
  | refused
  | ordinary
  deriving DecidableEq

def classify (c : Nat) : Class :=
  if c = 32 ∨ c = 9 then .blank
  else if c = 10 then .newline
  else if c = 124 ∨ c = 38 ∨ c = 59 ∨ c = 60 ∨ c = 62 ∨ c = 40 ∨ c = 41 then .operator
  else if c = 92 then .backslash
  else if c = 39 then .single
  else if c = 34 then .double
  else if c = 36 then .dollar
  else if c = 96 ∨ c = 0 then .refused
  else .ordinary

/-- The pieces of a word. -/
inductive Piece where
  | char (c : Nat)
  | quoted (c : Nat)
  /-- What a command prints, in the place of `$(...)`. -/
  | output (command : List (List Piece))

abbrev Word := List Piece

/-! ## Reading -/

section Reading

variable {α β : Type}

def prepend (front : List α) (result : Option (List α × β)) : Option (List α × β) :=
  result.map fun r => (front ++ r.1, r.2)

theorem prepend_eq_some {front text : List α} {result : Option (List α × β)} {rest : β} :
    prepend front result = some (text, rest) ↔
      ∃ more, result = some (more, rest) ∧ text = front ++ more := by
  cases result with
  | none => simp [prepend]
  | some r =>
      obtain ⟨more, rest'⟩ := r
      simp only [prepend, Option.map_some, Option.some.injEq, Prod.mk.injEq]
      constructor
      · rintro ⟨rfl, rfl⟩
        exact ⟨more, ⟨rfl, rfl⟩, rfl⟩
      · rintro ⟨_, ⟨rfl, rfl⟩, rfl⟩
        exact ⟨rfl, rfl⟩

end Reading

/-- Up to the closing single quote. -/
def readSingle : List Nat → Option (List Nat × List Nat)
  | [] => none
  | c :: rest => if classify c = .single then some ([], rest) else prepend [c] (readSingle rest)

/-- What a backslash and the next character mean between double quotes. -/
def unescape (d : Nat) : List Nat :=
  match classify d with
  | .newline => []
  | .dollar | .refused | .double | .backslash => [d]
  | _ => [92, d]

/-- Up to the closing double quote; an expansion is left open. -/
def readDouble : List Nat → Option (List Nat × List Nat)
  | [] => none
  | c :: rest =>
      match classify c with
      | .double => some ([], rest)
      | .backslash =>
          match rest with
          | [] => none
          | d :: rest => prepend (unescape d) (readDouble rest)
      | .dollar | .refused => none
      | _ => prepend [c] (readDouble rest)

/-- What may stand behind a command that a newline has ended. -/
def afterNewline (rest : List Nat) : Option (List Word × List Nat) :=
  match rest.dropWhile fun c => classify c = .blank ∨ classify c = .newline with
  | [] => some ([], [])
  | c :: rest => if c = 41 then some ([], c :: rest) else none

mutual

/-- The word that a text starts with, and what is behind it. The number bounds the depth of
    the recursion. -/
def readWord : Nat → List Nat → Option (Word × List Nat)
  | 0, _ => none
  | _ + 1, [] => some ([], [])
  | n + 1, c :: rest =>
      match classify c with
      | .blank | .newline | .operator => some ([], c :: rest)
      | .backslash =>
          match rest with
          | [] => none
          | d :: rest =>
              if classify d = .newline then readWord n rest
              else prepend [.quoted d] (readWord n rest)
      | .single =>
          match readSingle rest with
          | none => none
          | some (text, rest) => prepend (text.map .quoted) (readWord n rest)
      | .double =>
          match readDouble rest with
          | none => none
          | some (text, rest) => prepend (text.map .quoted) (readWord n rest)
      | .dollar =>
          match rest with
          | [] => none
          | d :: rest =>
              if d = 40 then
                match readCommand n rest with
                | some (command, e :: rest) =>
                    if e = 41 then prepend [.output command] (readWord n rest) else none
                | _ => none
              else none
      | .refused => none
      | .ordinary => prepend [.char c] (readWord n rest)

/-- The words of one simple command, up to the end of the text or to a closing bracket.
    Operators, comments that more text follows, and words that a tilde starts are given up. -/
def readCommand : Nat → List Nat → Option (List Word × List Nat)
  | 0, _ => none
  | _ + 1, [] => some ([], [])
  | n + 1, c :: rest =>
      match classify c with
      | .blank => readCommand n rest
      | .newline => afterNewline rest
      | .operator => if c = 41 then some ([], c :: rest) else none
      | _ =>
          -- a backslash before a newline is as if neither were there
          if (c :: rest.take 1).map classify = [.backslash, .newline] then
            readCommand n (rest.drop 1)
          else if c = 35 then if rest.any (classify · = .newline) then none else some ([], [])
          else if c = 126 then none
          else
            match readWord n (c :: rest) with
            | none => none
            | some (word, rest) => prepend [word] (readCommand n rest)

end

/-! ## What a word stands for -/

/-- The characters of a word without substitutions. -/
def codes : Word → Option (List Nat)
  | [] => some []
  | .char c :: w => (codes w).map (c :: ·)
  | .quoted c :: w => (codes w).map (c :: ·)
  | .output _ :: _ => none

/-- A text that is read as it stands. -/
def plain (text : List Nat) : Word := text.map .char

@[simp] theorem codes_plain (text : List Nat) : codes (plain text) = some text := by
  induction text with
  | nil => rfl
  | cons c text ih =>
      rw [plain, List.map_cons, codes, ← plain, ih]
      rfl

theorem codes_quoted_append (text : List Nat) (w : Word) :
    codes (text.map .quoted ++ w) = (codes w).map (text ++ ·) := by
  induction text with
  | nil => simp
  | cons c text ih =>
      rw [List.map_cons, List.cons_append, codes, ih, Option.map_map]
      rfl

/-- The piece is the character `c`, and it is not quoted. -/
def Piece.isChar (c : Nat) : Piece → Bool
  | .char d => d == c
  | _ => false

def Piece.isSlash : Piece → Bool
  | .char d | .quoted d => d == 47
  | .output _ => false

/-- Behind a `[`: a bracket expression is closed before the next slash. A `!` and the first
    character behind it do not close it. -/
def closesBracket (rest : Word) : Bool :=
  let body := if rest.head?.any (Piece.isChar 33) then rest.drop 1 else rest
  ((body.takeWhile fun p => !p.isSlash).drop 1).any (Piece.isChar 93)

def hasBracket : Word → Bool
  | [] => false
  | p :: rest => (p.isChar 91 && closesBracket rest) || hasBracket rest

/-- The word is a pattern, so that what it stands for depends on the files there are. -/
def isPattern (w : Word) : Bool :=
  w.any (fun p => p.isChar 42 || p.isChar 63) || hasBracket w

/-- The one text that a word stands for, whatever the files and the variables are. -/
def value (w : Word) : Option (List Nat) := if isPattern w then none else codes w

/-- The fields into which the output of a command is split. -/
def fields (output : List Nat) : Option (List (List Nat)) :=
  let found := (output.splitOnP fun c => classify c = .blank ∨ classify c = .newline).filter
    fun field => !field.isEmpty
  if found.any fun field => isPattern (plain field) then none else some found

/-- A text without special characters. -/
def PlainText (text : List Nat) : Prop :=
  (∀ c ∈ text, classify c = .ordinary) ∧ isPattern (plain text) = false

instance (text : List Nat) : Decidable (PlainText text) := inferInstanceAs (Decidable (_ ∧ _))

theorem value_eq_some {w : Word} {text : List Nat} :
    value w = some text ↔ isPattern w = false ∧ codes w = some text := by
  rw [value]
  cases isPattern w <;> simp

section Prefix

theorem closesBracket_append {w : Word} (u : Word) (closes : closesBracket w = true) :
    closesBracket (w ++ u) = true := by
  have further : ∀ body : Word,
      ((body.takeWhile fun p => !p.isSlash).drop 1).any (Piece.isChar 93) = true →
      (((body ++ u).takeWhile fun p => !p.isSlash).drop 1).any (Piece.isChar 93) = true := by
    intro body found
    have longer : (body.takeWhile fun p => !p.isSlash) <+:
        ((body ++ u).takeWhile fun p => !p.isSlash) := by
      rw [List.takeWhile_append]
      split
      · rename_i whole
        rw [(List.takeWhile_prefix _).eq_of_length whole]
        exact List.prefix_append _ _
      · exact List.prefix_rfl
    rw [List.any_eq_true] at found ⊢
    obtain ⟨p, member, isBracket⟩ := found
    exact ⟨p, (List.IsPrefix.drop longer 1).subset member, isBracket⟩
  cases w with
  | nil => cases closes
  | cons p w =>
      by_cases negated : Option.any (Piece.isChar 33) (some p) = true
      · simp only [closesBracket, List.cons_append, List.head?_cons, negated, if_true] at closes ⊢
        exact further w closes
      · simp only [closesBracket, List.cons_append, List.head?_cons, negated, if_false,
          Bool.false_eq_true] at closes ⊢
        exact further (p :: w) closes

theorem hasBracket_append {w : Word} (u : Word) (bracket : hasBracket w = true) :
    hasBracket (w ++ u) = true := by
  induction w with
  | nil => cases bracket
  | cons p w ih =>
      simp only [hasBracket, List.cons_append, Bool.or_eq_true, Bool.and_eq_true] at bracket ⊢
      rcases bracket with ⟨opens, closes⟩ | later
      · exact .inl ⟨opens, closesBracket_append u closes⟩
      · exact .inr (ih later)

/-- The front part of a text without special characters has none either. -/
theorem PlainText.front {text more : List Nat} (h : PlainText (text ++ more)) : PlainText text := by
  refine ⟨fun c member => h.1 c (List.mem_append_left _ member), ?_⟩
  rw [← Bool.not_eq_true]
  intro pattern
  have whole : isPattern (plain (text ++ more)) = true := by
    rw [plain, List.map_append]
    simp only [isPattern, Bool.or_eq_true, List.any_append] at pattern ⊢
    rcases pattern with star | bracket
    · exact .inl (.inl star)
    · exact .inr (hasBracket_append _ bracket)
  rw [h.2] at whole
  cases whole

theorem fields_plain {text : List Nat} (h : PlainText text) (nonempty : text ≠ []) :
    fields text = some [text] := by
  have together : (text.splitOnP fun c => classify c = .blank ∨ classify c = .newline) = [text] := by
    apply List.splitOnP_eq_singleton
    intro c member
    simp [h.1 c member]
  simp only [fields, together]
  simp [nonempty, h.2]

end Prefix

/-! ## How much of the text a word takes -/

/-- Where it is not quoted, the character ends a word; it is never taken away. -/
def Closing (t : Nat) : Prop := classify t = .blank ∨ classify t = .operator

/-- `v` can be what is left of the stretch `r` of a line: nothing is added, and what could
    have ended the word is still there. -/
structure LeftOf (v r : List Nat) : Prop where
  short : v.length ≤ r.length
  counts : ∀ t, Closing t → v.count t = r.count t

namespace LeftOf

theorem refl (v : List Nat) : LeftOf v v := ⟨le_rfl, fun _ _ => rfl⟩

theorem append {v v' r r' : List Nat} (h : LeftOf v r) (h' : LeftOf v' r') :
    LeftOf (v ++ v') (r ++ r') := by
  refine ⟨?_, fun t closing => ?_⟩
  · rw [List.length_append, List.length_append]
    exact Nat.add_le_add h.short h'.short
  · rw [List.count_append, List.count_append, h.counts t closing, h'.counts t closing]

/-- A character that could not have ended the word is taken away. -/
theorem drop {c : Nat} (inner : ¬ Closing c) : LeftOf [] [c] := by
  refine ⟨Nat.zero_le _, fun t closing => ?_⟩
  have other : c ≠ t := by
    rintro rfl
    exact inner closing
  simp [other]

end LeftOf

theorem not_closing {c : Nat} {k : Class} (kind : classify c = k)
    (inner : k ≠ .blank ∧ k ≠ .operator) : ¬ Closing c := by
  rintro (blank | operator)
  · exact inner.1 (kind.symm.trans blank)
  · exact inner.2 (kind.symm.trans operator)

theorem eq_of_backslash {c : Nat} (kind : classify c = .backslash) : c = 92 := by
  unfold classify at kind
  split_ifs at kind
  assumption

theorem leftOf_unescape {c : Nat} (kind : classify c = .backslash) (d : Nat) :
    LeftOf (unescape d) [c, d] := by
  have taken : LeftOf [] [c] := .drop (not_closing kind (by decide))
  unfold unescape
  split
  · rename_i newline
    exact taken.append (.drop (not_closing newline (by decide)))
  · exact taken.append (.refl [d])
  · exact taken.append (.refl [d])
  · exact taken.append (.refl [d])
  · exact taken.append (.refl [d])
  · rw [eq_of_backslash kind]
    exact .refl [92, d]

/-- A quoted stretch and what is left of it, which is less. -/
structure Quotes (out r : List Nat) : Prop where
  left : LeftOf out r
  shorter : out.length < r.length

theorem Quotes.after {front stretch out r : List Nat} (first : LeftOf front stretch)
    (behind : Quotes out r) : Quotes (front ++ out) (stretch ++ r) := by
  refine ⟨first.append behind.left, ?_⟩
  rw [List.length_append, List.length_append]
  exact Nat.add_lt_add_of_le_of_lt first.short behind.shorter

theorem Quotes.close {q : Nat} {k : Class} (kind : classify q = k)
    (inner : k ≠ .blank ∧ k ≠ .operator) : Quotes [] [q] :=
  ⟨.drop (not_closing kind inner), Nat.one_pos⟩

theorem readSingle_eq {text out rest : List Nat} (read : readSingle text = some (out, rest)) :
    ∃ r, text = r ++ rest ∧ Quotes out r := by
  induction text generalizing out with
  | nil => cases read
  | cons c text ih =>
      rw [readSingle] at read
      split at read
      case isTrue closes =>
        cases read
        exact ⟨[c], rfl, .close closes (by decide)⟩
      case isFalse =>
        obtain ⟨more, inner, rfl⟩ := prepend_eq_some.mp read
        obtain ⟨r, rfl, quotes⟩ := ih inner
        exact ⟨[c] ++ r, rfl, quotes.after (.refl [c])⟩

theorem readDouble_eq {text out rest : List Nat} (read : readDouble text = some (out, rest)) :
    ∃ r, text = r ++ rest ∧ Quotes out r := by
  fun_induction readDouble text generalizing out with
  | case1 => cases read
  | case2 c text closes =>
      cases read
      exact ⟨[c], rfl, .close closes (by decide)⟩
  | case3 => cases read
  | case4 c kind d text ih =>
      obtain ⟨more, inner, rfl⟩ := prepend_eq_some.mp read
      obtain ⟨r, rfl, quotes⟩ := ih inner
      exact ⟨[c, d] ++ r, rfl, quotes.after (leftOf_unescape kind d)⟩
  | case5 => cases read
  | case6 => cases read
  | case7 c text _ _ _ _ ih =>
      obtain ⟨more, inner, rfl⟩ := prepend_eq_some.mp read
      obtain ⟨r, rfl, quotes⟩ := ih inner
      exact ⟨[c] ++ r, rfl, quotes.after (.refl [c])⟩

/-- A quoted stretch at the beginning of a word, whichever quotes enclose it. -/
theorem read_quoted {n c : Nat} {k : Class} {text rest : List Nat} {w : Word}
    {result : Option (List Nat × List Nat)} (kind : classify c = k)
    (inner : k ≠ .blank ∧ k ≠ .operator)
    (read : (match result with
      | none => none
      | some (out, text') => prepend (out.map .quoted) (readWord n text')) = some (w, rest))
    (stretch : ∀ out text', result = some (out, text') → ∃ r, text = r ++ text' ∧ Quotes out r) :
    ∃ out r text' w', c :: text = r ++ text' ∧ Quotes out r ∧ w = out.map .quoted ++ w' ∧
      readWord n text' = some (w', rest) := by
  cases result with
  | none => cases read
  | some pair =>
      obtain ⟨out, text'⟩ := pair
      obtain ⟨r, rfl, quotes⟩ := stretch out text' rfl
      obtain ⟨w', behind, rfl⟩ := prepend_eq_some.mp read
      exact ⟨out, [c] ++ r, text', w', rfl, quotes.after (.drop (not_closing kind inner)), rfl,
        behind⟩

/-- What reading a word begins with: its end, an ordinary character, a quoted stretch, or a
    substitution. -/
theorem readWord_cases {n : Nat} {text rest : List Nat} {w : Word}
    (read : readWord (n + 1) text = some (w, rest)) :
    (w = [] ∧ rest = text) ∨
    (∃ c text' w', text = c :: text' ∧ classify c = .ordinary ∧ w = .char c :: w' ∧
      readWord n text' = some (w', rest)) ∨
    (∃ out r text' w', text = r ++ text' ∧ Quotes out r ∧ w = out.map .quoted ++ w' ∧
      readWord n text' = some (w', rest)) ∨
    ∃ c text' command text'' w', text = c :: 40 :: text' ∧ classify c = .dollar ∧
      w = .output command :: w' ∧ readCommand n text' = some (command, 41 :: text'') ∧
      readWord n text'' = some (w', rest) := by
  cases text with
  | nil =>
      simp only [readWord] at read
      cases read
      exact .inl ⟨rfl, rfl⟩
  | cons c text =>
      cases kind : classify c with
      | blank | newline | operator =>
          simp only [readWord, kind] at read
          cases read
          exact .inl ⟨rfl, rfl⟩
      | backslash =>
          simp only [readWord, kind] at read
          cases text with
          | nil => cases read
          | cons d text =>
              refine .inr (.inr (.inl ?_))
              dsimp only at read
              split at read
              case isTrue newline =>
                exact ⟨[], [c, d], text, w, rfl, (Quotes.close newline (by decide)).after
                  (.drop (not_closing kind (by decide))), rfl, read⟩
              case isFalse =>
                obtain ⟨w', inner, rfl⟩ := prepend_eq_some.mp read
                exact ⟨[d], [c, d], text, w', rfl, ⟨(LeftOf.drop (not_closing kind (by decide))).append
                  (.refl [d]), by simp⟩, rfl, inner⟩
      | single =>
          simp only [readWord, kind] at read
          exact .inr (.inr (.inl (read_quoted kind (by decide) read fun _ _ => readSingle_eq)))
      | double =>
          simp only [readWord, kind] at read
          exact .inr (.inr (.inl (read_quoted kind (by decide) read fun _ _ => readDouble_eq)))
      | dollar =>
          simp only [readWord, kind] at read
          cases text with
          | nil => cases read
          | cons d text =>
              dsimp only at read
              split at read
              case isFalse => cases read
              case isTrue opens =>
                split at read
                case h_2 => cases read
                case h_1 command e text' inside =>
                  split at read
                  case isFalse => cases read
                  case isTrue closes =>
                    obtain ⟨w', inner, rfl⟩ := prepend_eq_some.mp read
                    exact .inr (.inr (.inr ⟨c, text, command, text', w', by rw [opens], kind, rfl,
                      by rw [inside, closes], inner⟩))
      | refused =>
          simp only [readWord, kind] at read
          cases read
      | ordinary =>
          simp only [readWord, kind] at read
          obtain ⟨w', inner, rfl⟩ := prepend_eq_some.mp read
          exact .inr (.inl ⟨c, text, w', rfl, kind, rfl, inner⟩)

/-- What a word without substitutions was read from. Unless something was taken away, the
    stretch is the word, and it has only ordinary characters. -/
theorem readWord_eq {n : Nat} {text rest v : List Nat} {w : Word}
    (read : readWord n text = some (w, rest)) (here : codes w = some v) :
    ∃ r, text = r ++ rest ∧ LeftOf v r ∧
      (r.length ≤ v.length → w = plain r ∧ ∀ c ∈ r, classify c = .ordinary) := by
  induction n generalizing text w v with
  | zero => simp [readWord] at read
  | succ n ih =>
      rcases readWord_cases read with ⟨rfl, rfl⟩ | ⟨c, text', w', rfl, kind, rfl, inner⟩ |
        ⟨out, r, text', w', rfl, quotes, rfl, inner⟩ | ⟨c, text', command, text'', w', _, _, rfl, _⟩
      · cases here
        exact ⟨[], rfl, .refl [], fun _ => ⟨rfl, by simp⟩⟩
      · obtain ⟨v', behind, rfl⟩ := Option.map_eq_some_iff.mp here
        obtain ⟨r, rfl, left, whole⟩ := ih inner behind
        refine ⟨c :: r, rfl, (LeftOf.refl [c]).append left, fun long => ?_⟩
        obtain ⟨rfl, ordinary⟩ := whole (Nat.le_of_succ_le_succ long)
        exact ⟨rfl, List.forall_mem_cons.mpr ⟨kind, ordinary⟩⟩
      · rw [codes_quoted_append] at here
        obtain ⟨v', behind, rfl⟩ := Option.map_eq_some_iff.mp here
        obtain ⟨r', rfl, left, _⟩ := ih inner behind
        refine ⟨r ++ r', by rw [List.append_assoc], quotes.left.append left, fun long => ?_⟩
        -- the quotes themselves are missing in what is left
        have missing := quotes.shorter
        have short := left.short
        simp only [List.length_append] at long
        omega
      · cases here

/-- What stands behind a text on a line. -/
def Separated (rest : List Nat) : Prop := rest = [] ∨ ∃ t more, rest = t :: more ∧ Closing t

/-- A text that is read back as it stands has only ordinary characters, and exactly that
    text has been read. -/
theorem readWord_whole {n : Nat} {text rest rest' : List Nat} {w : Word}
    (separated : Separated rest) (read : readWord n (text ++ rest) = some (w, rest'))
    (here : codes w = some text) :
    w = plain text ∧ (∀ c ∈ text, classify c = .ordinary) ∧ rest' = rest := by
  obtain ⟨r, split, left, whole⟩ := readWord_eq read here
  -- a longer stretch has the separator in it, a shorter one has less than the text
  have inside : r <+: text := by
    rcases List.append_eq_append_iff.mp split with ⟨more, rfl, tail⟩ | ⟨more, rfl, _⟩
    · cases more with
      | nil => simp
      | cons t more =>
          exfalso
          rcases separated with rfl | ⟨t', _, rfl, closing⟩
          · simp at tail
          · cases tail
            have counts := left.counts t closing
            simp [List.count_append] at counts
    · exact List.prefix_append _ _
  have same : r = text := inside.eq_of_length (Nat.le_antisymm inside.length_le left.short)
  subst same
  obtain ⟨plainly, ordinary⟩ := whole le_rfl
  exact ⟨plainly, ordinary, (List.append_cancel_left split).symm⟩

theorem readWord_separated {n : Nat} {rest : List Nat} (separated : Separated rest) :
    readWord (n + 1) rest = some ([], rest) := by
  rcases separated with rfl | ⟨t, more, rfl, blank | operator⟩
  · simp [readWord]
  · simp [readWord, blank]
  · simp [readWord, operator]

theorem readWord_plain {n : Nat} {text rest : List Nat} (enough : text.length < n)
    (ordinary : ∀ c ∈ text, classify c = .ordinary) (separated : Separated rest) :
    readWord n (text ++ rest) = some (plain text, rest) := by
  induction text generalizing n with
  | nil =>
      obtain ⟨n, rfl⟩ := Nat.exists_eq_succ_of_ne_zero (Nat.ne_of_gt enough)
      exact readWord_separated separated
  | cons c text ih =>
      obtain ⟨n, rfl⟩ := Nat.exists_eq_succ_of_ne_zero (Nat.ne_of_gt (Nat.zero_lt_of_lt enough))
      obtain ⟨here, behind⟩ := List.forall_mem_cons.mp ordinary
      simp only [List.cons_append, readWord, here]
      rw [ih (Nat.lt_of_succ_lt_succ enough) behind]
      rfl

/-! ## What a command starts with -/

/-- The character starts a word, and neither a comment nor a tilde. -/
def StartsWord (c : Nat) : Prop :=
  (classify c = .ordinary ∨ classify c = .dollar) ∧ c ≠ 35 ∧ c ≠ 126

theorem readCommand_start {n c : Nat} {rest : List Nat} (starts : StartsWord c) :
    readCommand (n + 1) (c :: rest) =
      match readWord n (c :: rest) with
      | none => none
      | some (word, rest) => prepend [word] (readCommand n rest) := by
  obtain ⟨kind | kind, noComment, noTilde⟩ := starts
  · simp [readCommand, kind, noComment, noTilde]
  · simp [readCommand, kind, noComment, noTilde]

theorem readWord_dollar (n : Nat) (text : List Nat) :
    readWord (n + 1) (36 :: 40 :: text) =
      match readCommand n text with
      | some (command, e :: rest) =>
          if e = 41 then prepend [.output command] (readWord n rest) else none
      | _ => none := by
  simp only [readWord, show classify 36 = .dollar from rfl, if_true]

end Lib.Shell
