import OslabProfiler.Lib.Shell

/-! # Command lines put together from texts

A program that builds a command line writes texts one behind the other with a blank between
them, and means each of them to be one word. The line then means that exactly when every
text is plain. The same holds for a command in `$(...)`, whose output is to be one word.
-/

namespace Lib.Shell

/-- Texts with one blank between them. -/
def unwords : List (List Nat) → List Nat
  | [] => []
  | [t] => t
  | t :: ts => t ++ 32 :: unwords ts

/-- What stands behind the last word of a command. -/
def Finished (tail : List Nat) : Prop := tail = [] ∨ ∃ more, tail = 41 :: more

theorem Finished.separated {tail : List Nat} (finished : Finished tail) : Separated tail := by
  rcases finished with rfl | ⟨more, rfl⟩
  · exact .inl rfl
  · exact .inr ⟨41, more, rfl, .inr rfl⟩

theorem readCommand_finished {n : Nat} {tail : List Nat} (finished : Finished tail) :
    readCommand (n + 1) tail = some ([], tail) := by
  rcases finished with rfl | ⟨more, rfl⟩
  · simp [readCommand]
  · simp [readCommand, show classify 41 = .operator from rfl]

section Lines

variable {ι : Type} {render : ι → List Nat} {Is : Word → ι → Prop} {Good : ι → Prop}

/-- A kind of item that is read back, whatever stands behind it, exactly when it is good. -/
structure Reads (render : ι → List Nat) (Is : Word → ι → Prop) (Good : ι → Prop) (i : ι) : Prop where
  starts : ∃ c rest, render i = c :: rest ∧ StartsWord c
  whole : ∀ {n : Nat} {rest rest' : List Nat} {w : Word}, Separated rest →
    readWord n (render i ++ rest) = some (w, rest') → Is w i → Good i ∧ rest' = rest
  good : Good i → ∀ {rest : List Nat}, Separated rest →
    ∃ w m, Is w i ∧ ∀ n, m ≤ n → readWord n (render i ++ rest) = some (w, rest)

/-- What follows an item on a line of items. -/
def behind (texts : List (List Nat)) (tail : List Nat) : List Nat :=
  match texts with
  | [] => tail
  | _ => 32 :: unwords texts ++ tail

theorem unwords_cons_append (t : List Nat) (ts : List (List Nat)) (tail : List Nat) :
    unwords (t :: ts) ++ tail = t ++ behind ts tail := by
  cases ts with
  | nil => rfl
  | cons t' ts => simp [unwords, behind]

theorem separated_behind {tail : List Nat} (finished : Finished tail) (texts : List (List Nat)) :
    Separated (behind texts tail) := by
  cases texts with
  | nil => exact finished.separated
  | cons t ts => exact .inr ⟨32, _, rfl, .inl rfl⟩

/-- The blank before the next item is passed over. -/
theorem readCommand_behind (n : Nat) (texts : List (List Nat)) (tail : List Nat) :
    ∃ m, n ≤ m + 1 ∧
      (n ≠ 0 → readCommand n (behind texts tail) = readCommand m (unwords texts ++ tail)) := by
  cases texts with
  | nil => exact ⟨n, Nat.le_succ n, fun _ => rfl⟩
  | cons t ts =>
      cases n with
      | zero => exact ⟨0, Nat.zero_le _, fun positive => (positive rfl).elim⟩
      | succ n =>
          refine ⟨n, le_rfl, fun _ => ?_⟩
          simp [behind, readCommand, show classify 32 = .blank from rfl]

/-- A line that is read back as its items has good items only. -/
theorem readCommand_whole {items : List ι} (reads : ∀ i ∈ items, Reads render Is Good i) {n : Nat}
    {tail tail' : List Nat} {words : List Word} (finished : Finished tail)
    (read : readCommand n (unwords (items.map render) ++ tail) = some (words, tail'))
    (same : List.Forall₂ Is words items) : (∀ i ∈ items, Good i) ∧ tail' = tail := by
  induction items generalizing n words with
  | nil =>
      cases same
      cases n with
      | zero => simp [readCommand] at read
      | succ n =>
          rw [List.map_nil, unwords, List.nil_append, readCommand_finished finished] at read
          cases read
          exact ⟨by simp, rfl⟩
  | cons i items ih =>
      cases same with
      | cons here later =>
          obtain ⟨readsI, readsItems⟩ := List.forall_mem_cons.mp reads
          obtain ⟨c, r, shape, starts⟩ := readsI.starts
          rw [List.map_cons, unwords_cons_append] at read
          cases n with
          | zero => simp [readCommand] at read
          | succ n =>
              rw [shape, List.cons_append, readCommand_start starts, ← List.cons_append,
                ← shape] at read
              cases first : readWord n (render i ++ behind (items.map render) tail) with
              | none => simp [first] at read
              | some result =>
                  obtain ⟨word, rest⟩ := result
                  simp only [first] at read
                  obtain ⟨more, next, split⟩ := prepend_eq_some.mp read
                  cases split
                  obtain ⟨good, rfl⟩ := readsI.whole (separated_behind finished _) first here
                  obtain ⟨m, _, passed⟩ := readCommand_behind n (items.map render) tail
                  have positive : n ≠ 0 := by
                    rintro rfl
                    simp [readCommand] at next
                  rw [passed positive] at next
                  obtain ⟨goods, rfl⟩ := ih readsItems next later
                  exact ⟨List.forall_mem_cons.mpr ⟨good, goods⟩, rfl⟩

/-- A line of good items is read back. -/
theorem readCommand_good {items : List ι} (reads : ∀ i ∈ items, Reads render Is Good i)
    {tail : List Nat} (finished : Finished tail) (good : ∀ i ∈ items, Good i) :
    ∃ words m, List.Forall₂ Is words items ∧
      ∀ n, m ≤ n → readCommand n (unwords (items.map render) ++ tail) = some (words, tail) := by
  induction items with
  | nil =>
      refine ⟨[], 1, .nil, fun n enough => ?_⟩
      obtain ⟨n, rfl⟩ := Nat.exists_eq_succ_of_ne_zero (Nat.ne_of_gt enough)
      exact readCommand_finished finished
  | cons i items ih =>
      obtain ⟨readsI, readsItems⟩ := List.forall_mem_cons.mp reads
      obtain ⟨goodI, goodItems⟩ := List.forall_mem_cons.mp good
      obtain ⟨c, r, shape, starts⟩ := readsI.starts
      obtain ⟨words, m, same, later⟩ := ih readsItems goodItems
      obtain ⟨w, k, here, first⟩ := readsI.good goodI (separated_behind finished (items.map render))
      refine ⟨w :: words, max k (m + 1) + 1, .cons here same, fun n enough => ?_⟩
      obtain ⟨n, rfl⟩ := Nat.exists_eq_succ_of_ne_zero (Nat.ne_of_gt (Nat.zero_lt_of_lt enough))
      have enoughK : k ≤ n := by omega
      obtain ⟨m', close, passed⟩ := readCommand_behind n (items.map render) tail
      rw [List.map_cons, unwords_cons_append, shape, List.cons_append,
        readCommand_start starts, ← List.cons_append, ← shape, first n enoughK]
      dsimp only
      rw [passed (by omega), later m' (by omega)]
      rfl

end Lines

/-- The text starts like a word. -/
def Starts (text : List Nat) : Prop :=
  ∃ c rest, text = c :: rest ∧ classify c = .ordinary ∧ c ≠ 35 ∧ c ≠ 126

/-- A text is read back as one word exactly when it is plain. -/
theorem reads_text {text : List Nat} (starts : Starts text) :
    Reads id (fun w t => value w = some t) PlainText text where
  starts := by
    obtain ⟨c, rest, shape, ordinary, others⟩ := starts
    exact ⟨c, rest, shape, .inl ordinary, others⟩
  whole separated read here := by
    obtain ⟨noPattern, same⟩ := value_eq_some.mp here
    obtain ⟨rfl, ordinary, rest⟩ := readWord_whole separated read same
    exact ⟨⟨ordinary, noPattern⟩, rest⟩
  good plainText rest separated := by
    refine ⟨plain text, text.length + 1, ?_, fun n enough => ?_⟩
    · exact value_eq_some.mpr ⟨plainText.2, codes_plain text⟩
    · exact readWord_plain enough plainText.1 separated

/-- A command in `$(...)` is read back exactly when its words are plain. -/
theorem readWord_output {words : List (List Nat)} (starts : ∀ t ∈ words, Starts t) {n : Nat}
    {rest rest' : List Nat} {command : List Word} (separated : Separated rest)
    (read : readWord n (36 :: 40 :: unwords words ++ 41 :: rest) = some ([.output command], rest'))
    (same : List.Forall₂ (fun u t => value u = some t) command words) :
    (∀ t ∈ words, PlainText t) ∧ rest' = rest := by
  cases n with
  | zero => simp [readWord] at read
  | succ n =>
      rw [List.cons_append, List.cons_append, readWord_dollar] at read
      split at read
      case h_2 => cases read
      case h_1 command' e more inside =>
        split at read
        case isFalse => cases read
        case isTrue closes =>
          obtain ⟨w, after, split⟩ := prepend_eq_some.mp read
          cases split
          subst closes
          rw [← List.map_id words] at inside
          obtain ⟨plainly, tail⟩ := readCommand_whole (fun t member => reads_text (starts t member))
            (.inr ⟨rest, rfl⟩) inside same
          cases tail
          cases n with
          | zero => simp [readWord] at after
          | succ n =>
              rw [readWord_separated separated] at after
              cases after
              exact ⟨plainly, rfl⟩

/-- What a word on a line is meant to be: a text, or the output of a command, given by the
    words of the command and what it prints. -/
inductive Item where
  | text (t : List Nat)
  | output (words : List (List Nat)) (printed : List Nat)

namespace Item

def render : Item → List Nat
  | .text t => t
  | .output words _ => 36 :: 40 :: unwords words ++ [41]

/-- The word is what is meant: one text, or one substitution whose command is read as it is
    meant and whose output is one field. -/
def Is (w : Word) : Item → Prop
  | .text t => value w = some t
  | .output words printed =>
      (∃ command, w = [.output command] ∧
        List.Forall₂ (fun u t => value u = some t) command words) ∧
      fields printed = some [printed]

def Plain : Item → Prop
  | .text t => PlainText t
  | .output words printed => (∀ t ∈ words, PlainText t) ∧ fields printed = some [printed]

def Starts : Item → Prop
  | .text t => Shell.Starts t
  | .output words _ => ∀ t ∈ words, Shell.Starts t

theorem reads {item : Item} (starts : item.Starts) : Reads render Is Plain item := by
  cases item with
  | text t =>
      have readsT := reads_text starts
      exact ⟨readsT.starts, readsT.whole, readsT.good⟩
  | output words printed =>
      refine ⟨⟨36, _, rfl, .inr rfl, by decide, by decide⟩, ?_, ?_⟩
      · rintro n rest rest' w separated read ⟨⟨command, rfl, same⟩, one⟩
        rw [render, List.append_assoc, List.singleton_append] at read
        obtain ⟨plainly, behind⟩ := readWord_output starts separated read same
        exact ⟨⟨plainly, one⟩, behind⟩
      · rintro ⟨plainly, one⟩ rest separated
        obtain ⟨command, m, same, read⟩ := readCommand_good
          (fun t member => reads_text (starts t member)) (.inr ⟨rest, rfl⟩) plainly
        refine ⟨[.output command], max m 1 + 1, ⟨⟨command, rfl, same⟩, one⟩, fun n enough => ?_⟩
        obtain ⟨k, rfl⟩ : ∃ k, n = k + 1 + 1 := ⟨n - 2, by omega⟩
        rw [List.map_id] at read
        rw [render, List.append_assoc, List.singleton_append, List.cons_append, List.cons_append,
          readWord_dollar, read (k + 1) (by omega)]
        dsimp only
        rw [if_pos rfl, readWord_separated separated]
        rfl

end Item

/-- The line is one simple command, with the words that are meant. -/
def Means (line : List Nat) (items : List Item) : Prop :=
  ∃ n words, readCommand n line = some (words, []) ∧ List.Forall₂ Item.Is words items

/-- A line of items means what it is meant to exactly when all of them are plain. -/
theorem means_iff {items : List Item} (starts : ∀ item ∈ items, item.Starts) :
    Means (unwords (items.map Item.render)) items ↔ ∀ item ∈ items, item.Plain := by
  have reads : ∀ item ∈ items, Reads Item.render Item.Is Item.Plain item :=
    fun item member => Item.reads (starts item member)
  constructor
  · rintro ⟨n, words, read, same⟩
    rw [← List.append_nil (unwords _)] at read
    exact (readCommand_whole reads (.inl rfl) read same).1
  · intro plainly
    obtain ⟨words, m, same, read⟩ := readCommand_good reads (.inl rfl) plainly
    refine ⟨m, words, ?_, same⟩
    have whole := read m le_rfl
    rwa [List.append_nil] at whole

end Lib.Shell
