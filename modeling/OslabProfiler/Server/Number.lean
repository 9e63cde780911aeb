import OslabProfiler.Lib.Text
import Mathlib.Data.List.TakeWhile
import Mathlib.Data.Rat.Defs
import Mathlib.Algebra.Order.Field.Rat
import Mathlib.Tactic.Linarith

/-! # Numbers of the server

Numbers are exact rationals with the two infinities and a `NaN`; the sign of zero
is not kept. `Number` reads a text as JavaScript does: white space around it is
dropped, an empty text is 0, and anything that is not a numeral is `NaN`. A numeral
beyond the range of the doubles is read as an infinity or as 0.
-/

namespace OslabProfiler.Server

open Lib

inductive Num where
  | nan
  | inf (negative : Bool)
  | rat (q : ℚ)
  deriving DecidableEq

namespace Num

def add : Num → Num → Num
  | .nan, _ | _, .nan => .nan
  | .inf s, .inf t => if s = t then .inf s else .nan
  | .inf s, .rat _ | .rat _, .inf s => .inf s
  | .rat a, .rat b => .rat (a + b)

def neg : Num → Num
  | .nan => .nan
  | .inf s => .inf (!s)
  | .rat a => .rat (-a)

def div : Num → Num → Num
  | .nan, _ | _, .nan | .inf _, .inf _ => .nan
  | .inf s, .rat b => .inf (s != decide (b < 0))
  | .rat _, .inf _ => .rat 0
  | .rat a, .rat b => if b ≠ 0 then .rat (a / b) else if a = 0 then .nan else .inf (a < 0)

instance : Add Num := ⟨add⟩

instance : Neg Num := ⟨neg⟩

instance : Sub Num := ⟨fun a b => a + -b⟩

instance : Div Num := ⟨div⟩

/-- `Math.max`. -/
def max : Num → Num → Num
  | .nan, _ | _, .nan => .nan
  | .inf false, _ | _, .inf false => .inf false
  | .inf true, b => b
  | a, .inf true => a
  | .rat a, .rat b => .rat (Max.max a b)

def isNaN : Num → Bool
  | .nan => true
  | _ => false

/-- The comparison `>`, which is false for `NaN`. -/
def gt : Num → Num → Bool
  | .rat a, .rat b => decide (b < a)
  | .inf s, .inf t => !s && t
  | .inf s, .rat _ => !s
  | .rat _, .inf t => t
  | _, _ => false

@[simp] theorem rat_add (a b : ℚ) : rat a + rat b = rat (a + b) := rfl

@[simp] theorem rat_sub (a b : ℚ) : rat a - rat b = rat (a - b) :=
  congrArg rat (sub_eq_add_neg a b).symm

theorem rat_div (a : ℚ) {b : ℚ} (nonzero : b ≠ 0) : rat a / rat b = rat (a / b) := if_pos nonzero

@[simp] theorem rat_max (a b : ℚ) : max (rat a) (rat b) = rat (Max.max a b) := rfl

@[simp] theorem nan_add (a : Num) : nan + a = nan := rfl

@[simp] theorem sub_nan (a : Num) : a - nan = nan := by
  cases a <;> rfl

@[simp] theorem nan_div (a : Num) : nan / a = nan := rfl

end Num

/-- The digits of a numeral in base `b`, if all of them are digits. -/
def digits? (b : Nat) (isDigit : Char → Bool) (value : Char → Nat) (l : Text) : Option Nat :=
  if l ≠ [] ∧ l.all isDigit = true then some (l.foldl (fun n c => b * n + value c) 0) else none

def decDigits (l : Text) : Option Nat := digits? 10 Char.isDigit (fun c => c.toNat - 48) l

def hexValue (c : Char) : Nat :=
  if c.isDigit then c.toNat - 48 else if c.isLower then c.toNat - 87 else c.toNat - 55

def isHexDigit (c : Char) : Bool :=
  c.isDigit || (97 ≤ c.toNat && c.toNat ≤ 102) || (65 ≤ c.toNat && c.toNat ≤ 70)

def ofOption : Option ℚ → Num
  | none => .nan
  | some q => .rat q

/-- The part behind `e`: an optional sign and digits. -/
def exponent : Text → Option Int
  | '-' :: l => (decDigits l).map fun n : Nat => -(n : Int)
  | '+' :: l => (decDigits l).map fun n : Nat => (n : Int)
  | l => (decDigits l).map fun n : Nat => (n : Int)

/-- Digits with an optional fraction; one of the two parts must be there. -/
def mantissa (l : Text) : Option ℚ :=
  let whole := l.takeWhile Char.isDigit
  match l.dropWhile Char.isDigit with
  | [] => (decDigits whole).map fun n : Nat => (n : ℚ)
  | '.' :: fraction =>
      if whole = [] then (decDigits fraction).map fun m : Nat => (m : ℚ) / 10 ^ fraction.length
      else if fraction = [] then (decDigits whole).map fun n : Nat => (n : ℚ)
      else do
        let n ← decDigits whole
        let m ← decDigits fraction
        pure ((n : ℚ) + (m : ℚ) / 10 ^ fraction.length)
  | _ => none

/-- A decimal numeral without a sign. -/
def unsigned (l : Text) : Option ℚ :=
  let isE := fun c : Char => c = 'e' || c = 'E'
  match l.dropWhile (fun c => !isE c) with
  | [] => mantissa l
  | _ :: e => do
      let q ← mantissa (l.takeWhile fun c => !isE c)
      let n ← exponent e
      pure (q * (10 : ℚ) ^ n)

/-- The numeral behind an optional sign. -/
def numeral (l : Text) : Num :=
  if l = "Infinity".toList then .inf false else ofOption (unsigned l)

/-- White space and line ends of JavaScript. -/
def isSpace (c : Char) : Bool :=
  c.isWhitespace || c.toNat ∈ [0x0B, 0x0C, 0xA0, 0x1680, 0x2028, 0x2029, 0x202F, 0x205F, 0x3000,
    0xFEFF] || (0x2000 ≤ c.toNat && c.toNat ≤ 0x200A)

def trim (text : Text) : Text := ((text.dropWhile isSpace).reverse.dropWhile isSpace).reverse

/-- The value of the numeral in a text. -/
def literal (text : Text) : Num :=
  let l := trim text
  match l with
  | [] => .rat 0
  | '0' :: 'x' :: h | '0' :: 'X' :: h =>
      ofOption ((digits? 16 isHexDigit hexValue h).map fun n : Nat => (n : ℚ))
  | '0' :: 'o' :: h | '0' :: 'O' :: h =>
      ofOption ((digits? 8 (fun c => 48 ≤ c.toNat && c.toNat ≤ 55) hexValue h).map fun n : Nat => (n : ℚ))
  | '0' :: 'b' :: h | '0' :: 'B' :: h =>
      ofOption ((digits? 2 (fun c => c = '0' || c = '1') hexValue h).map fun n : Nat => (n : ℚ))
  | '-' :: h => -numeral h
  | '+' :: h => numeral h
  | h => numeral h

/-- Halfway from the largest double to the next power of two. -/
def overflowBound : ℚ := 2 ^ 1024 - 2 ^ 970

/-- Half of the smallest positive double. -/
def underflowBound : ℚ := 1 / 2 ^ 1075

/-- The number as a double, of which only the range is kept. -/
def Num.double : Num → Num
  | .rat q =>
      if overflowBound ≤ q then .inf false
      else if q ≤ -overflowBound then .inf true
      else if -underflowBound ≤ q ∧ q ≤ underflowBound then .rat 0
      else .rat q
  | n => n

/-- `Number` of a text. -/
def number (text : Text) : Num := (literal text).double

/-- `Number` of an array element, which may be `undefined`. -/
def numberAt (l : List Text) (i : Nat) : Num :=
  match l[i]? with
  | none => .nan
  | some text => number text

/-- `isNaN` of a query parameter, which may be `undefined`. -/
def isNaNText : Option Text → Bool
  | none => true
  | some text => (number text).isNaN

/-! ## Reading what was printed -/

/-- `%d` and its relatives. -/
def printInt : Int → Text
  | .ofNat n => Nat.toDigits 10 n
  | .negSucc n => '-' :: Nat.toDigits 10 (n + 1)

/-- `%06lu`, zero padded. -/
def sixDigits (n : Nat) : Text := (Nat.toDigits 10 n).leftpad 6 '0'

theorem digit_of_mem {n : Nat} {c : Char} (h : c ∈ Nat.toDigits 10 n) : c.isDigit = true :=
  Nat.isDigit_of_mem_toDigits (by decide) (by decide) h

theorem digit_of_mem_sixDigits {n : Nat} {c : Char} (h : c ∈ sixDigits n) : c.isDigit = true := by
  cases List.mem_append.mp h with
  | inl padding => rw [List.eq_of_mem_replicate padding]; rfl
  | inr digits => exact digit_of_mem digits

theorem length_sixDigits {n : Nat} (small : n < 10 ^ 6) : (sixDigits n).length = 6 := by
  have short := (Nat.length_toDigits_le_iff (by decide : 1 < 10) (by decide : 0 < 6)).mpr small
  simp only [sixDigits, List.leftpad, List.length_append, List.length_replicate]
  omega

theorem ofDigitChars_sixDigits (n : Nat) : Nat.ofDigitChars 10 (sixDigits n) 0 = n := by
  rw [sixDigits, List.leftpad, Nat.ofDigitChars_append, Nat.ofDigitChars_replicate_zero,
    Nat.mul_zero, Nat.ofDigitChars_ten_toDigits]

/-- The characters of a decimal numeral without exponent. -/
def isPlain (c : Char) : Bool := c.isDigit || c = '.' || c = '-'

theorem isPlain_of_isDigit {c : Char} (h : c.isDigit = true) : isPlain c = true := by
  simp [isPlain, h]

theorem not_space_of_visible {c : Char} (low : 33 ≤ c.toNat) (high : c.toNat ≤ 126) :
    ¬ isSpace c = true := by
  have notWhite : c.isWhitespace = false := by
    cases white : c.isWhitespace with
    | false => rfl
    | true =>
        simp only [Char.isWhitespace, Bool.or_eq_true, decide_eq_true_eq] at white
        rcases white with ((rfl | rfl) | rfl) | rfl <;> exact absurd low (by decide)
  simp only [isSpace, notWhite, List.mem_cons, List.not_mem_nil, Bool.or_eq_true,
    decide_eq_true_eq, Bool.and_eq_true, Bool.false_eq_true, false_or, or_false]
  omega

theorem not_space {c : Char} (plain : isPlain c = true) : ¬ isSpace c = true := by
  have range : 45 ≤ c.toNat ∧ c.toNat ≤ 57 := by
    simp only [isPlain, Bool.or_eq_true, decide_eq_true_eq, Char.isDigit, Bool.and_eq_true] at plain
    rcases plain with (⟨low, high⟩ | rfl) | rfl
    · have low' : 48 ≤ c.toNat := low
      have high' : c.toNat ≤ 57 := high
      omega
    · decide
    · decide
  exact not_space_of_visible (by omega) (by omega)

theorem dropWhile_space {l : Text} (noSpace : ∀ c ∈ l, ¬ isSpace c = true) :
    l.dropWhile isSpace = l := by
  cases l with
  | nil => rfl
  | cons c l => exact List.dropWhile_cons_of_neg (noSpace c List.mem_cons_self)

theorem trim_of_not_space {l : Text} (noSpace : ∀ c ∈ l, ¬ isSpace c = true) : trim l = l := by
  rw [trim, dropWhile_space noSpace, dropWhile_space fun c h => noSpace c (List.mem_reverse.mp h),
    List.reverse_reverse]

theorem trim_plain {l : Text} (plain : ∀ c ∈ l, isPlain c = true) : trim l = l :=
  trim_of_not_space fun c h => not_space (plain c h)

/-- Without an exponent the mantissa is the numeral. -/
theorem unsigned_plain {l : Text} (plain : ∀ c ∈ l, isPlain c = true) :
    unsigned l = mantissa l := by
  have noE : l.dropWhile (fun c => !(decide (c = 'e') || decide (c = 'E'))) = [] := by
    rw [List.dropWhile_eq_nil_iff]
    intro c member
    have cPlain := plain c member
    simp only [Bool.not_eq_true', Bool.or_eq_false_iff, decide_eq_false_iff_not]
    constructor <;> (rintro rfl; exact absurd cPlain (by decide))
  simp only [unsigned, noE]

theorem numeral_plain {l : Text} (plain : ∀ c ∈ l, isPlain c = true) :
    numeral l = ofOption (mantissa l) := by
  have finite : l ≠ "Infinity".toList := by
    rintro rfl
    exact absurd (plain 'I' (by simp)) (by decide)
  rw [numeral, if_neg finite, unsigned_plain plain]

theorem literal_unsigned {c : Char} {l : Text} (digit : c.isDigit = true)
    (plain : ∀ d ∈ l, isPlain d = true) : literal (c :: l) = ofOption (mantissa (c :: l)) := by
  have all : ∀ d ∈ c :: l, isPlain d = true :=
    List.forall_mem_cons.mpr ⟨isPlain_of_isDigit digit, plain⟩
  rw [← numeral_plain all]
  simp only [literal, trim_plain all]
  -- a second character that is plain excludes the other bases, a digit in front the signs
  split
  all_goals first
    | rfl
    | cases ‹c :: l = _› <;> first
        | exact absurd digit (by decide)
        | exact absurd (plain _ List.mem_cons_self) (by decide)

theorem literal_negative {l : Text} (plain : ∀ c ∈ l, isPlain c = true) :
    literal ('-' :: l) = -ofOption (mantissa l) := by
  have all : ∀ c ∈ '-' :: l, isPlain c = true := List.forall_mem_cons.mpr ⟨rfl, plain⟩
  simp only [literal, trim_plain all, numeral_plain plain]

theorem decDigits_of_digits {l : Text} (nonempty : l ≠ []) (digits : ∀ c ∈ l, c.isDigit = true) :
    decDigits l = some (Nat.ofDigitChars 10 l 0) := by
  rw [decDigits, digits?, if_pos ⟨nonempty, List.all_eq_true.mpr digits⟩,
    Nat.ofDigitChars_eq_foldl]
  rfl

theorem mantissa_toDigits (n : Nat) : mantissa (Nat.toDigits 10 n) = some (n : ℚ) := by
  have digits : ∀ c ∈ Nat.toDigits 10 n, c.isDigit = true := fun c h => digit_of_mem h
  simp only [mantissa, List.takeWhile_eq_self_iff.mpr digits, List.dropWhile_eq_nil_iff.mpr digits,
    decDigits_of_digits Nat.toDigits_ne_nil digits, Nat.ofDigitChars_ten_toDigits, Option.map_some]

theorem mantissa_stamp (seconds : Nat) {micros : Nat} (small : micros < 10 ^ 6) :
    mantissa (Nat.toDigits 10 seconds ++ '.' :: sixDigits micros) =
      some (seconds + (micros : ℚ) / 10 ^ 6) := by
  have whole : ∀ c ∈ Nat.toDigits 10 seconds, c.isDigit = true := fun c h => digit_of_mem h
  have fraction : ∀ c ∈ sixDigits micros, c.isDigit = true := fun c h => digit_of_mem_sixDigits h
  have long := length_sixDigits small
  have nonempty : sixDigits micros ≠ [] := fun empty => by simp [empty] at long
  have dot : ¬ ('.' : Char).isDigit = true := by decide
  simp only [mantissa, List.takeWhile_append_of_pos whole, List.dropWhile_append_of_pos whole,
    List.takeWhile_cons_of_neg dot, List.dropWhile_cons_of_neg dot, List.append_nil,
    Nat.toDigits_ne_nil, nonempty, if_false, decDigits_of_digits Nat.toDigits_ne_nil whole,
    decDigits_of_digits nonempty fraction, Nat.ofDigitChars_ten_toDigits, ofDigitChars_sixDigits,
    long]
  rfl

theorem literal_toDigits_append (n : Nat) {l : Text} (plain : ∀ c ∈ l, isPlain c = true) :
    literal (Nat.toDigits 10 n ++ l) = ofOption (mantissa (Nat.toDigits 10 n ++ l)) := by
  cases digits : Nat.toDigits 10 n with
  | nil => exact (Nat.toDigits_ne_nil digits).elim
  | cons c rest =>
      have isDigit : ∀ d ∈ c :: rest, d.isDigit = true := fun d h => digit_of_mem (digits ▸ h)
      apply literal_unsigned (isDigit c List.mem_cons_self)
      intro d member
      cases List.mem_append.mp member with
      | inl left => exact isPlain_of_isDigit (isDigit d (List.mem_cons_of_mem _ left))
      | inr right => exact plain d right

theorem literal_toDigits (n : Nat) : literal (Nat.toDigits 10 n) = .rat n := by
  have read := literal_toDigits_append n (l := []) (by simp)
  rw [List.append_nil, mantissa_toDigits] at read
  exact read

theorem literal_printInt (z : Int) : literal (printInt z) = .rat z := by
  cases z with
  | ofNat n => exact literal_toDigits n
  | negSucc n =>
      rw [printInt, literal_negative fun c h => isPlain_of_isDigit (digit_of_mem h),
        mantissa_toDigits, Int.cast_negSucc]
      rfl

theorem literal_stamp (seconds : Nat) {micros : Nat} (small : micros < 10 ^ 6) :
    literal (Nat.toDigits 10 seconds ++ '.' :: sixDigits micros) =
      .rat (seconds + (micros : ℚ) / 10 ^ 6) := by
  rw [literal_toDigits_append, mantissa_stamp seconds small]
  · rfl
  · exact List.forall_mem_cons.mpr
      ⟨rfl, fun c h => isPlain_of_isDigit (digit_of_mem_sixDigits h)⟩

/-! ## Numbers in range -/

theorem isNaN_number (text : Text) : (number text).isNaN = (literal text).isNaN := by
  rw [number]
  cases literal text with
  | rat q =>
      rw [Num.double]
      split_ifs <;> rfl
  | _ => rfl

/-- A number that the types of the kernel can hold, or with a few digits behind the point. -/
theorem Num.double_rat {q : ℚ} (low : -2 ^ 64 ≤ q) (high : q ≤ 2 ^ 64)
    (apart : q = 0 ∨ q ≤ -(1 / 10 ^ 6) ∨ 1 / 10 ^ 6 ≤ q) : Num.double (.rat q) = .rat q := by
  have large : (2 : ℚ) ^ 64 < overflowBound := by decide +kernel
  have tiny : underflowBound < 1 / 10 ^ 6 := by decide +kernel
  rw [double, if_neg (by linarith), if_neg (by linarith)]
  rcases apart with rfl | negative | positive
  · split_ifs <;> rfl
  · rw [if_neg fun between => by linarith [between.1]]
  · rw [if_neg fun between => by linarith [between.2]]

/-- An integer of one of the 64-bit types, signed or unsigned. -/
def isWord64 (z : Int) : Bool := -2 ^ 63 ≤ z && z < 2 ^ 64

theorem double_int {z : Int} (word : isWord64 z = true) : Num.double (.rat z) = .rat z := by
  simp only [isWord64, Bool.and_eq_true, decide_eq_true_eq] at word
  have low : (-2 ^ 64 : ℚ) ≤ z := by exact_mod_cast (by omega : -2 ^ 64 ≤ z)
  have high : (z : ℚ) ≤ 2 ^ 64 := by exact_mod_cast word.2.le
  refine Num.double_rat low high ?_
  rcases lt_trichotomy z 0 with negative | rfl | positive
  · have : (z : ℚ) ≤ -1 := by exact_mod_cast (by omega : z ≤ -1)
    exact .inr (.inl (by linarith))
  · exact .inl Int.cast_zero
  · have : (1 : ℚ) ≤ z := by exact_mod_cast positive
    exact .inr (.inr (by linarith))

theorem number_printInt {z : Int} (word : isWord64 z = true) : number (printInt z) = .rat z := by
  rw [number, literal_printInt, double_int word]

theorem number_toDigits {n : Nat} (word : isWord64 n = true) :
    number (Nat.toDigits 10 n) = .rat n := number_printInt word

/-- A time stamp `seconds.microseconds` is read as what it says. -/
theorem number_stamp {seconds micros : Nat} (word : isWord64 seconds = true)
    (small : micros < 10 ^ 6) :
    number (Nat.toDigits 10 seconds ++ '.' :: sixDigits micros) =
      .rat (seconds + (micros : ℚ) / 10 ^ 6) := by
  simp only [isWord64, Bool.and_eq_true, decide_eq_true_eq] at word
  have whole : (seconds : ℚ) ≤ 2 ^ 64 - 1 := by
    have := word.2
    exact_mod_cast (by omega : (seconds : Int) ≤ 2 ^ 64 - 1)
  have micro : (micros : ℚ) < 10 ^ 6 := by exact_mod_cast small
  have part : (micros : ℚ) / 10 ^ 6 < 1 := (div_lt_one (by norm_num)).mpr micro
  have wholePos : (0 : ℚ) ≤ seconds := Nat.cast_nonneg seconds
  have partPos : (0 : ℚ) ≤ (micros : ℚ) / 10 ^ 6 := by positivity
  rw [number, literal_stamp seconds small]
  refine Num.double_rat (by linarith) (by linarith) ?_
  rcases Nat.eq_zero_or_pos seconds with rfl | positive
  · rcases Nat.eq_zero_or_pos micros with rfl | positive
    · exact .inl (by simp)
    · have : (1 : ℚ) / 10 ^ 6 ≤ micros / 10 ^ 6 := by
        gcongr
        exact_mod_cast positive
      exact .inr (.inr (by linarith))
  · have : (1 : ℚ) ≤ seconds := by exact_mod_cast positive
    exact .inr (.inr (by linarith))

end OslabProfiler.Server
