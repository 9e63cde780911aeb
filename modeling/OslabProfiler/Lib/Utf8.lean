import OslabProfiler.Lib.Text

/-! # Decoding UTF-8

Bytes as text, in the way of the decoders that never fail: bytes that are no
character become the replacement character. What the users of a decoded text rely
on is that ASCII bytes stand for themselves wherever they are, and that no other
byte gives an ASCII character; so a text can be cut at ASCII characters before or
after decoding.
-/

namespace Lib.Utf8

/-- What stands for bytes that are no character. -/
def replacement : Char := '�'

/-- Inside a sequence: the bytes to come after the next one, the value so far and the
    range of the next byte. -/
structure Pending where
  needed : Nat
  value : Nat
  lower : Nat
  upper : Nat
  high : 128 ≤ lower

/-- A byte outside of a sequence. -/
def lead (b : Fin 256) : Text × Option Pending :=
  if b.val < 128 then ([Char.ofNat b.val], none)
  else if 0xC2 ≤ b.val ∧ b.val ≤ 0xDF then ([], some ⟨0, b.val % 32, 0x80, 0xBF, le_rfl⟩)
  else if 0xE0 ≤ b.val ∧ b.val ≤ 0xEF then
    let upper := if b.val = 0xED then 0x9F else 0xBF
    if b.val = 0xE0 then ([], some ⟨1, b.val % 16, 0xA0, upper, by omega⟩)
    else ([], some ⟨1, b.val % 16, 0x80, upper, le_rfl⟩)
  else if 0xF0 ≤ b.val ∧ b.val ≤ 0xF4 then
    let upper := if b.val = 0xF4 then 0x8F else 0xBF
    if b.val = 0xF0 then ([], some ⟨2, b.val % 8, 0x90, upper, by omega⟩)
    else ([], some ⟨2, b.val % 8, 0x80, upper, le_rfl⟩)
  else ([replacement], none)

/-- The character of a sequence. The ranges of the bytes leave only values that are
    characters beyond ASCII. -/
def scalar (value : Nat) : Char :=
  if value.isValidChar ∧ 128 ≤ value then Char.ofNat value else replacement

/-- A byte inside of a sequence; one that does not belong there ends the sequence and is
    looked at again. -/
def next (p : Pending) (b : Fin 256) : Text × Option Pending :=
  if p.lower ≤ b.val ∧ b.val ≤ p.upper then
    let value := p.value * 64 + b.val % 64
    match p.needed with
    | 0 => ([scalar value], none)
    | n + 1 => ([], some ⟨n, value, 0x80, 0xBF, le_rfl⟩)
  else (replacement :: (lead b).1, (lead b).2)

def step : Option Pending → Fin 256 → Text × Option Pending
  | none, b => lead b
  | some p, b => next p b

def run : Option Pending → List (Fin 256) → Text
  | none, [] => []
  | some _, [] => [replacement]
  | state, b :: l => (step state b).1 ++ run (step state b).2 l

def decode (l : List (Fin 256)) : Text := run none l

@[simp] theorem decode_nil : decode [] = [] := rfl

theorem run_cons (state : Option Pending) (b : Fin 256) (l : List (Fin 256)) :
    run state (b :: l) = (step state b).1 ++ run (step state b).2 l := by
  cases state <;> rfl

theorem lead_ascii {b : Fin 256} (ascii : b.val < 128) :
    lead b = ([Char.ofNat b.val], none) := if_pos ascii

theorem next_ascii (p : Pending) {b : Fin 256} (ascii : b.val < 128) :
    next p b = ([replacement, Char.ofNat b.val], none) := by
  have outside : ¬ (p.lower ≤ b.val ∧ b.val ≤ p.upper) := by
    have high := p.high
    omega
  rw [next, if_neg outside, lead_ascii ascii]

/-- An ASCII byte ends whatever comes before it. -/
theorem run_append_ascii (state : Option Pending) (a : List (Fin 256)) {b : Fin 256}
    (ascii : b.val < 128) (l : List (Fin 256)) :
    run state (a ++ b :: l) = run state a ++ Char.ofNat b.val :: run none l := by
  induction a generalizing state with
  | nil =>
      rw [List.nil_append, run_cons]
      cases state with
      | none => rw [step, lead_ascii ascii]; rfl
      | some p => rw [step, next_ascii p ascii]; rfl
  | cons x a ih => rw [List.cons_append, run_cons, run_cons, ih, List.append_assoc]

theorem decode_append_ascii (a : List (Fin 256)) {b : Fin 256} (ascii : b.val < 128)
    (l : List (Fin 256)) : decode (a ++ b :: l) = decode a ++ Char.ofNat b.val :: decode l :=
  run_append_ascii none a ascii l

theorem decode_cons_ascii {b : Fin 256} (ascii : b.val < 128) (l : List (Fin 256)) :
    decode (b :: l) = Char.ofNat b.val :: decode l :=
  run_append_ascii none [] ascii l

/-! ## ASCII characters come from ASCII bytes -/

theorem toNat_valid {n : Nat} (valid : n.isValidChar) : (Char.ofNat n).toNat = n := by
  rw [Char.ofNat, dif_pos valid]
  rfl

theorem toNat_ascii {n : Nat} (ascii : n < 128) : (Char.ofNat n).toNat = n := by
  apply toNat_valid
  left
  omega

theorem toNat_scalar (value : Nat) : 128 ≤ (scalar value).toNat := by
  unfold scalar
  split
  case isTrue valid =>
      rw [toNat_valid valid.1]
      exact valid.2
  case isFalse => decide

theorem mem_lead {b : Fin 256} {c : Char} (member : c ∈ (lead b).1) (ascii : c.toNat < 128) :
    b.val = c.toNat := by
  by_cases low : b.val < 128
  · rw [lead_ascii low, List.mem_singleton] at member
    rw [member, toNat_ascii low]
  · have other : (lead b).1 = [] ∨ (lead b).1 = [replacement] := by
      unfold lead
      grind
    cases other with
    | inl none => simp [none] at member
    | inr one =>
        rw [one, List.mem_singleton] at member
        subst member
        exact absurd ascii (by decide)

theorem mem_step {state : Option Pending} {b : Fin 256} {c : Char}
    (member : c ∈ (step state b).1) (ascii : c.toNat < 128) : b.val = c.toNat := by
  cases state with
  | none => exact mem_lead member ascii
  | some p =>
      rw [step, next] at member
      split at member
      · dsimp only at member
        split at member
        · rw [List.mem_singleton] at member
          have beyond := toNat_scalar (p.value * 64 + b.val % 64)
          rw [← member] at beyond
          omega
        · cases member
      · cases List.mem_cons.mp member with
        | inl same =>
            subst same
            exact absurd ascii (by decide)
        | inr later => exact mem_lead later ascii

theorem mem_run {state : Option Pending} {l : List (Fin 256)} {c : Char}
    (member : c ∈ run state l) (ascii : c.toNat < 128) : ∃ b ∈ l, b.val = c.toNat := by
  induction l generalizing state with
  | nil =>
      cases state with
      | none => cases member
      | some p =>
          rw [run, List.mem_singleton] at member
          subst member
          exact absurd ascii (by decide)
  | cons b l ih =>
      rw [run_cons, List.mem_append] at member
      cases member with
      | inl here => exact ⟨b, List.mem_cons_self, mem_step here ascii⟩
      | inr later =>
          obtain ⟨x, inside, value⟩ := ih later
          exact ⟨x, List.mem_cons_of_mem _ inside, value⟩

/-- An ASCII character is in the text when its byte is in the bytes. -/
theorem mem_decode {b : Fin 256} (ascii : b.val < 128) (l : List (Fin 256)) :
    Char.ofNat b.val ∈ decode l ↔ b ∈ l := by
  have value := toNat_ascii ascii
  constructor
  · intro member
    obtain ⟨x, inside, same⟩ := mem_run member (by rw [value]; exact ascii)
    rw [value] at same
    rwa [← Fin.ext same]
  · intro member
    obtain ⟨a, l', rfl⟩ := List.append_of_mem member
    simp [decode_append_ascii a ascii l']

/-! ## ASCII at the beginning -/

/-- A sequence that has begun gives a character beyond ASCII first. -/
theorem run_some (p : Pending) (l : List (Fin 256)) :
    ∃ c rest, run (some p) l = c :: rest ∧ 128 ≤ c.toNat := by
  induction l generalizing p with
  | nil => exact ⟨replacement, [], rfl, by decide⟩
  | cons b l ih =>
      rw [run_cons, step, next]
      split
      · dsimp only
        split
        · exact ⟨_, _, rfl, toNat_scalar _⟩
        · exact ih _
      · exact ⟨replacement, _, rfl, by decide⟩

theorem decode_cons_high {b : Fin 256} (high : 128 ≤ b.val) (l : List (Fin 256)) :
    ∃ c rest, decode (b :: l) = c :: rest ∧ 128 ≤ c.toNat := by
  have begins : (∃ p, lead b = ([], some p)) ∨ lead b = ([replacement], none) := by
    unfold lead
    grind
  rw [decode, run_cons, step]
  cases begins with
  | inl sequence =>
      obtain ⟨p, eq⟩ := sequence
      rw [eq]
      exact run_some p l
  | inr alone =>
      rw [alone]
      exact ⟨replacement, _, rfl, by decide⟩

/-- The byte of an ASCII character. -/
def byteOf (c : Char) : Fin 256 := ⟨c.toNat % 256, Nat.mod_lt _ (Nat.succ_pos 255)⟩

theorem byteOf_val {c : Char} (ascii : c.toNat < 128) : (byteOf c).val = c.toNat :=
  Nat.mod_eq_of_lt (by omega)

theorem ofNat_byteOf {c : Char} (ascii : c.toNat < 128) : Char.ofNat (byteOf c).val = c := by
  rw [byteOf_val ascii, Char.ofNat_toNat]

theorem prefix_decode {pat : Text} (ascii : ∀ c ∈ pat, c.toNat < 128) (l : List (Fin 256)) :
    pat <+: decode l ↔ pat.map byteOf <+: l := by
  induction pat generalizing l with
  | nil => simp
  | cons c pat ih =>
      rw [List.forall_mem_cons] at ascii
      cases l with
      | nil => simp
      | cons b l =>
          by_cases low : b.val < 128
          · rw [decode_cons_ascii low, List.map_cons, List.cons_prefix_cons, List.cons_prefix_cons,
              ih ascii.2]
            have same : c = Char.ofNat b.val ↔ byteOf c = b := by
              constructor
              · intro eq
                apply Fin.ext
                rw [byteOf_val ascii.1, eq, toNat_ascii low]
              · rintro rfl
                exact (ofNat_byteOf ascii.1).symm
            rw [same]
          · obtain ⟨first, rest, eq, high⟩ := decode_cons_high (not_lt.mp low) l
            rw [eq, List.map_cons, List.cons_prefix_cons, List.cons_prefix_cons]
            constructor
            · rintro ⟨rfl, _⟩
              omega
            · rintro ⟨rfl, _⟩
              exact absurd (byteOf_val ascii.1 ▸ ascii.1) low

theorem decode_map_byteOf_append {a : Text} (ascii : ∀ c ∈ a, c.toNat < 128)
    (l : List (Fin 256)) : decode (a.map byteOf ++ l) = a ++ decode l := by
  induction a with
  | nil => rfl
  | cons c a ih =>
      rw [List.forall_mem_cons] at ascii
      have low : (byteOf c).val < 128 := by
        rw [byteOf_val ascii.1]
        exact ascii.1
      rw [List.map_cons, List.cons_append, decode_cons_ascii low, ofNat_byteOf ascii.1, ih ascii.2,
        List.cons_append]

end Lib.Utf8
