import Mathlib.Data.List.AList

/-! # Numbers given on first use

Keys get numbers in the order in which they are first seen. No two keys have the same number,
and a number that was given stays.
-/

namespace Lib

structure Numbering (α : Type) [DecidableEq α] where
  numbers : AList fun _ : α => Nat
  next : Nat
  below : ∀ a n, numbers.lookup a = some n → n < next
  injective : ∀ a b n, numbers.lookup a = some n → numbers.lookup b = some n → a = b

namespace Numbering

variable {α : Type} [DecidableEq α]

/-- No key has a number, and the first one will be `first`. -/
def startAt (first : Nat) : Numbering α where
  numbers := ∅
  next := first
  below := fun _ _ there => by cases there
  injective := fun _ _ _ there => by cases there

/-- The number of a key, or the one that it would get. -/
def number (s : Numbering α) (a : α) : Nat := (s.numbers.lookup a).getD s.next

/-- The numbering with the next number for a key without one. -/
def insertNext (s : Numbering α) (a : α) : Numbering α where
  numbers := s.numbers.insert a s.next
  next := s.next + 1
  below := by
    intro b n there
    by_cases own : b = a
    · subst own
      rw [AList.lookup_insert, Option.some.injEq] at there
      omega
    · rw [AList.lookup_insert_ne own] at there
      exact Nat.lt_succ_of_lt (s.below b n there)
  injective := by
    intro b c n hb hc
    by_cases first : b = a <;> by_cases second : c = a
    · rw [first, second]
    · subst first
      rw [AList.lookup_insert, Option.some.injEq] at hb
      rw [AList.lookup_insert_ne second] at hc
      exact absurd (s.below c n hc) (by omega)
    · subst second
      rw [AList.lookup_insert, Option.some.injEq] at hc
      rw [AList.lookup_insert_ne first] at hb
      exact absurd (s.below b n hb) (by omega)
    · rw [AList.lookup_insert_ne first] at hb
      rw [AList.lookup_insert_ne second] at hc
      exact s.injective b c n hb hc

def add (s : Numbering α) (a : α) : Numbering α :=
  if (s.numbers.lookup a).isSome then s else s.insertNext a

theorem lookup_add_self (s : Numbering α) (a : α) :
    (s.add a).numbers.lookup a = some (s.number a) := by
  rw [add, number]
  cases there : s.numbers.lookup a with
  | some n => exact there
  | none => exact AList.lookup_insert s.numbers

theorem lookup_add_of_some {s : Numbering α} {b : α} {n : Nat} (a : α)
    (there : s.numbers.lookup b = some n) : (s.add a).numbers.lookup b = some n := by
  rw [add]
  split_ifs with known
  · exact there
  · have other : b ≠ a := fun same => known (by rw [← same, there]; rfl)
    exact (AList.lookup_insert_ne other).trans there

end Numbering

end Lib
