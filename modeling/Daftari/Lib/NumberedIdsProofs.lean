import Mathlib.Data.List.Induction
import Mathlib.Data.Nat.Digits.Defs
import Mathlib.Tactic.Common

/-! # Numbered ids — a prefix and a padded decimal number

    An allocator of ids scans what is in use for the highest number and takes the next one.  What it
    needs of the text of an id is that the number can be read back.

    * `padded`, `numberOf`: a number as text, and back (`numberOf_padded`);
    * `nextNumber`: one past the highest number in use;
    * `nextNumber_fresh`: **the id it gives is not in use**;
    * `nextNumber_append`: how it moves when one more id is in use. -/

namespace NumberedIds

/-! ## Numbers as text -/

/-- A number in decimal, padded to three places. -/
def padded (n : Nat) : List Char :=
  List.replicate (3 - (Nat.toDigits 10 n).length) '0' ++ Nat.toDigits 10 n

def numberOf (s : List Char) : Option Nat :=
  if s ≠ [] ∧ s.all Char.isDigit then some (Nat.ofDigitChars 10 s 0) else none

theorem padded_ne_nil (n : Nat) : padded n ≠ [] := by
  intro h
  exact Nat.toDigits_ne_nil (List.append_eq_nil_iff.mp h).2

theorem isDigit_padded (n : Nat) : ∀ c ∈ padded n, c.isDigit = true := by
  intro c hc
  rcases List.mem_append.mp hc with hc | hc
  · rw [List.eq_of_mem_replicate hc]
    rfl
  · exact Nat.isDigit_of_mem_toDigits (by omega) (by omega) hc

theorem ofDigitChars_padded (n : Nat) : Nat.ofDigitChars 10 (padded n) 0 = n := by
  unfold padded
  rw [Nat.ofDigitChars_append, Nat.ofDigitChars_replicate_zero, Nat.mul_zero,
    Nat.ofDigitChars_toDigits (by omega) (by omega)]

/-- **A number reads back.** -/
theorem numberOf_padded (n : Nat) : numberOf (padded n) = some n := by
  have hall : (padded n).all Char.isDigit = true :=
    List.all_eq_true.mpr (isDigit_padded n)
  unfold numberOf
  rw [if_pos ⟨padded_ne_nil n, hall⟩, ofDigitChars_padded]

/-! ## The next number -/

variable {α : Type*} (number : α → Option Nat)

/-- One past the highest number in use. -/
def nextNumber (ids : List α) : Nat := (ids.filterMap number).foldl max 0 + 1

variable {number}

theorem nextNumber_append (ids : List α) (id : α) : nextNumber number (ids ++ [id]) =
      max (nextNumber number ids) ((number id).elim 0 (· + 1)) := by
  unfold nextNumber
  rw [List.filterMap_append, List.foldl_append]
  cases hid : number id with
  | none => simp [hid]
  | some n =>
      simp only [List.filterMap_cons, hid, List.filterMap_nil, List.foldl_cons,
        List.foldl_nil, Option.elim_some]
      omega

theorem lt_nextNumber {ids : List α} {id : α} {n : Nat} (hid : id ∈ ids)
    (hn : number id = some n) : n < nextNumber number ids := by
  induction ids using List.reverseRecOn with
  | nil => cases hid
  | append_singleton ids last ih =>
      rw [nextNumber_append]
      rcases List.mem_append.mp hid with hid | hid
      · have := ih hid
        omega
      · obtain rfl := List.mem_singleton.mp hid
        rw [hn, Option.elim_some]
        omega

/-- **The id with the next number is not in use.** -/
theorem nextNumber_fresh {ids : List α} {make : Nat → α}
    (hmake : ∀ n, number (make n) = some n) : make (nextNumber number ids) ∉ ids := by
  intro hmem
  exact Nat.lt_irrefl _ (lt_nextNumber hmem (hmake _))

end NumberedIds
