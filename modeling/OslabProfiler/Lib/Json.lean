import OslabProfiler.Lib.Text
import Mathlib.Data.List.TakeWhile

/-! # JSON texts

Values are printed as `JSON.stringify` prints them, with any indentation, and read as
`JSON.parse` reads them: a lexical part takes the next token from a text, and a syntactic
part puts values together from tokens.

A number is kept as its literal. A `\u` escape of half a surrogate pair is no character
and is not read.
-/

namespace Lib

/-! ## Number literals -/

namespace JsonNumber

/-- A nonempty run of digits is passed. -/
def digits (l : Text) : Option Text :=
  if l.takeWhile Char.isDigit = [] then none else some (l.dropWhile Char.isDigit)

/-- An integer part has no zero in front of other digits. -/
def integer : Text → Option Text
  | '0' :: l => some l
  | l => digits l

def fraction : Text → Option Text
  | '.' :: l => digits l
  | l => some l

def exponent : Text → Option Text
  | c :: l =>
      if c = 'e' || c = 'E' then
        match l with
        | '+' :: l | '-' :: l => digits l
        | l => digits l
      else some (c :: l)
  | [] => some []

def unsigned (l : Text) : Bool := ((integer l).bind fraction).bind exponent = some []

def isLiteral : Text → Bool
  | '-' :: l => unsigned l
  | l => unsigned l

end JsonNumber

/-- The characters of numbers and of `null`, `true` and `false`. -/
def isWordChar (c : Char) : Bool := c.isAlphanum || c = '-' || c = '+' || c = '.'

structure JsonLiteral where
  text : Text
  valid : JsonNumber.isLiteral text = true
  wordChars : text.all isWordChar = true
  deriving DecidableEq

inductive Json where
  | null
  | bool (b : Bool)
  | number (l : JsonLiteral)
  | string (s : Text)
  | array (items : List Json)
  | object (fields : List (Text × Json))

namespace Json

/-- Induction over values: arrays and objects have what holds for all their values. -/
@[elab_as_elim]
theorem induct {motive : Json → Prop} (null : motive .null) (bool : ∀ b, motive (.bool b))
    (number : ∀ l, motive (.number l)) (string : ∀ s, motive (.string s))
    (array : ∀ vs, (∀ v ∈ vs, motive v) → motive (.array vs))
    (object : ∀ fs, (∀ f ∈ fs, motive f.2) → motive (.object fs)) (v : Json) : motive v :=
  @Json.rec motive (fun vs => ∀ v ∈ vs, motive v) (fun fs => ∀ f ∈ fs, motive f.2)
    (fun f => motive f.2)
    null bool number string array object
    (fun _ member => absurd member List.not_mem_nil)
    (fun _ _ first more => List.forall_mem_cons.mpr ⟨first, more⟩)
    (fun _ member => absurd member List.not_mem_nil)
    (fun _ _ first more => List.forall_mem_cons.mpr ⟨first, more⟩)
    (fun _ _ h => h) v

/-! ## Printing -/

def hexDigit (n : Nat) : Char := Char.ofNat (if n < 10 then 48 + n else 87 + n)

/-- A character of a string: quotes, backslashes and control characters are escaped. -/
def escapeChar (c : Char) : Text :=
  if c = '"' then ['\\', '"']
  else if c = '\\' then ['\\', '\\']
  else if c.toNat = 8 then ['\\', 'b']
  else if c.toNat = 9 then ['\\', 't']
  else if c.toNat = 10 then ['\\', 'n']
  else if c.toNat = 12 then ['\\', 'f']
  else if c.toNat = 13 then ['\\', 'r']
  else if c.toNat < 32 then
    ['\\', 'u', '0', '0', hexDigit (c.toNat / 16), hexDigit (c.toNat % 16)]
  else [c]

def escape (s : Text) : Text := s.flatMap escapeChar

def quote (s : Text) : Text := '"' :: escape s ++ ['"']

/-- A new line, if the text is indented at all. -/
def line (gap indent : Text) : Text := if gap = [] then [] else '\n' :: indent

/-- Between a name and its value. -/
def colon (gap : Text) : Text := if gap = [] then [':'] else [':', ' ']

mutual

/-- `JSON.stringify(value, null, gap)` at an indentation. -/
def stringify (gap indent : Text) : Json → Text
  | .null => "null".toList
  | .bool true => "true".toList
  | .bool false => "false".toList
  | .number l => l.text
  | .string s => quote s
  | .array [] => ['[', ']']
  | .array (v :: vs) =>
      '[' :: line gap (indent ++ gap) ++ v.stringify gap (indent ++ gap) ++
        moreItems gap (indent ++ gap) vs ++ line gap indent ++ [']']
  | .object [] => ['\x7b', '\x7d']
  | .object ((key, v) :: fields) =>
      '\x7b' :: line gap (indent ++ gap) ++ quote key ++ colon gap ++
        v.stringify gap (indent ++ gap) ++ moreFields gap (indent ++ gap) fields ++
        line gap indent ++ ['\x7d']

def moreItems (gap indent : Text) : List Json → Text
  | [] => []
  | v :: vs => ',' :: line gap indent ++ v.stringify gap indent ++ moreItems gap indent vs

def moreFields (gap indent : Text) : List (Text × Json) → Text
  | [] => []
  | (key, v) :: fields =>
      ',' :: line gap indent ++ quote key ++ colon gap ++ v.stringify gap indent ++
        moreFields gap indent fields

end

/-! ## Reading tokens -/

inductive Token where
  | openBracket
  | closeBracket
  | openBrace
  | closeBrace
  | comma
  | colon
  | null
  | bool (b : Bool)
  | number (l : JsonLiteral)
  | string (s : Text)
  deriving DecidableEq

def isSpace (c : Char) : Bool := c = ' ' || c = '\t' || c = '\n' || c = '\r'

def skip (text : Text) : Text := text.dropWhile isSpace

def sign (c : Char) : Option Token :=
  if c = '[' then some .openBracket
  else if c = ']' then some .closeBracket
  else if c = '\x7b' then some .openBrace
  else if c = '\x7d' then some .closeBrace
  else if c = ',' then some .comma
  else if c = ':' then some .colon
  else none

/-- The characters up to the closing quote, and what comes behind it. -/
def rawString : (escaped : Bool) → Text → Option (Text × Text)
  | _, [] => none
  | true, c :: l => (rawString false l).map fun r => (c :: r.1, r.2)
  | false, c :: l =>
      if c = '"' then some ([], l) else (rawString (c = '\\') l).map fun r => (c :: r.1, r.2)

def hexValue (c : Char) : Option Nat :=
  if c.isDigit then some (c.toNat - 48)
  else if 'a' ≤ c ∧ c ≤ 'f' then some (c.toNat - 87)
  else if 'A' ≤ c ∧ c ≤ 'F' then some (c.toNat - 55)
  else none

/-- The code of an escaped character. -/
def simpleEscape (c : Char) : Option Nat :=
  if c = '"' || c = '\\' || c = '/' then some c.toNat
  else if c = 'b' then some 8
  else if c = 't' then some 9
  else if c = 'n' then some 10
  else if c = 'f' then some 12
  else if c = 'r' then some 13
  else none

/-- How far an escape has been read. -/
inductive Escape where
  | none
  | backslash
  /-- More digits are to come behind this one. -/
  | hex (more code : Nat)

/-- The codes of the characters between two quotes. -/
def unescape : Escape → Text → Option (List Nat)
  | .none, [] => some []
  | .backslash, [] | .hex _ _, [] => none
  | .none, c :: l =>
      if c = '\\' then unescape .backslash l
      else if c.toNat < 32 then none
      else (unescape .none l).map (c.toNat :: ·)
  | .backslash, c :: l =>
      if c = 'u' then unescape (.hex 3 0) l
      else (simpleEscape c).bind fun n => (unescape .none l).map (n :: ·)
  | .hex 0 code, c :: l =>
      (hexValue c).bind fun d => (unescape .none l).map ((16 * code + d) :: ·)
  | .hex (more + 1) code, c :: l =>
      (hexValue c).bind fun d => unescape (.hex more (16 * code + d)) l

def isHigh (n : Nat) : Bool := 0xD800 ≤ n && n < 0xDC00

def isLow (n : Nat) : Bool := 0xDC00 ≤ n && n < 0xE000

/-- The text with these codes; two halves of a surrogate pair are one character. -/
def ofCodes : (high : Option Nat) → List Nat → Option Text
  | none, [] => some []
  | some _, [] => none
  | none, n :: l =>
      if isHigh n then ofCodes (some n) l
      else if isLow n then none
      else (ofCodes none l).map (Char.ofNat n :: ·)
  | some high, n :: l =>
      if isLow n then
        (ofCodes none l).map (Char.ofNat (0x10000 + (high - 0xD800) * 0x400 + (n - 0xDC00)) :: ·)
      else none

/-- A string behind its opening quote. -/
def readString (text : Text) : Option (Text × Text) :=
  (rawString false text).bind fun r =>
    ((unescape .none r.1).bind (ofCodes none)).map fun s => (s, r.2)

def word (w : Text) : Option Token :=
  if w = "null".toList then some .null
  else if w = "true".toList then some (.bool true)
  else if w = "false".toList then some (.bool false)
  else if h : JsonNumber.isLiteral w = true ∧ w.all isWordChar = true then
    some (.number ⟨w, h.1, h.2⟩)
  else none

/-- The next token, and the text behind it. -/
def next (text : Text) : Option (Token × Text) :=
  match skip text with
  | [] => none
  | c :: l =>
      match sign c with
      | some token => some (token, l)
      | none =>
          if c = '"' then (readString l).map fun r => (.string r.1, r.2)
          else (word ((c :: l).takeWhile isWordChar)).map fun token =>
            (token, (c :: l).dropWhile isWordChar)

/-! ## Reading values -/

mutual

def value : Nat → Text → Option (Json × Text)
  | 0, _ => none
  | n + 1, text =>
      match next text with
      | some (.null, l) => some (.null, l)
      | some (.bool b, l) => some (.bool b, l)
      | some (.number literal, l) => some (.number literal, l)
      | some (.string s, l) => some (.string s, l)
      | some (.openBracket, l) =>
          match next l with
          | some (.closeBracket, l) => some (.array [], l)
          | _ => (items n l).map fun r => (.array r.1, r.2)
      | some (.openBrace, l) =>
          match next l with
          | some (.closeBrace, l) => some (.object [], l)
          | _ => (fields n l).map fun r => (.object r.1, r.2)
      | _ => none

/-- The items of an array, with its closing bracket. -/
def items : Nat → Text → Option (List Json × Text)
  | 0, _ => none
  | n + 1, text =>
      (value n text).bind fun r =>
        match next r.2 with
        | some (.comma, l) => (items n l).map fun q => (r.1 :: q.1, q.2)
        | some (.closeBracket, l) => some ([r.1], l)
        | _ => none

/-- The fields of an object, with its closing brace. -/
def fields : Nat → Text → Option (List (Text × Json) × Text)
  | 0, _ => none
  | n + 1, text =>
      match next text with
      | some (.string key, l) =>
          match next l with
          | some (.colon, l) =>
              (value n l).bind fun r =>
                match next r.2 with
                | some (.comma, l) => (fields n l).map fun q => ((key, r.1) :: q.1, q.2)
                | some (.closeBrace, l) => some ([(key, r.1)], l)
                | _ => none
          | _ => none
      | _ => none

end

/-- `JSON.parse`; `none` when it throws. -/
def parse (text : Text) : Option Json :=
  (value text.length text).bind fun r => if skip r.2 = [] then some r.1 else none

end Json

end Lib
