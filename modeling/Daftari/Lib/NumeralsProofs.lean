import Daftari.Lib.TextProofs
import Mathlib.Algebra.Ring.Nat

/-! # Numerals — fixed-width digits sort by value

    Strings are compared unit by unit.  Written in decimal digits, and in as many of them, numbers
    come in the order of their values; so do lists of such fields, first field first.

    * `lex_append`: texts that start with parts of one length;
    * `units_eq_map`: the units of a plain text are its characters;
    * `map_lt_iff`: **digits of one length compare as the numbers they write**. -/

namespace Numerals

/-! ## Unit by unit -/

theorem lex_append {a b s t : List Nat} (h : a.length = b.length) :
    a ++ s < b ++ t ↔ a < b ∨ a = b ∧ s < t := by
  induction a generalizing b with
  | nil =>
      obtain rfl := List.length_eq_zero_iff.mp h.symm
      simp
  | cons x a ih =>
      cases b with
      | nil => cases h
      | cons y b =>
          have hlen : a.length = b.length := Nat.succ.inj h
          rw [List.cons_append, List.cons_append, List.cons_lt_cons_iff, List.cons_lt_cons_iff,
            ih hlen, List.cons.injEq]
          constructor
          · rintro (hxy | ⟨hxy, hab | ⟨hab, hst⟩⟩)
            · exact Or.inl (Or.inl hxy)
            · exact Or.inl (Or.inr ⟨hxy, hab⟩)
            · exact Or.inr ⟨⟨hxy, hab⟩, hst⟩
          · rintro ((hxy | ⟨hxy, hab⟩) | ⟨⟨hxy, hab⟩, hst⟩)
            · exact Or.inl hxy
            · exact Or.inr ⟨hxy, Or.inl hab⟩
            · exact Or.inr ⟨hxy, Or.inr ⟨hab, hst⟩⟩

theorem units_eq_map {s : List Char} (h : ∀ c ∈ s, c.toNat < 0x10000) :
    Text.units s = s.map Char.toNat := by
  induction s with
  | nil => rfl
  | cons c s ih =>
      have hc : Text.unitsOf c = [c.toNat] := if_pos (h c List.mem_cons_self)
      show Text.unitsOf c ++ Text.units s = _
      rw [hc, ih fun d hd => h d (List.mem_cons_of_mem _ hd)]
      rfl

/-! ## Digits -/

/-- The number a run of digits writes. -/
def value (s : List Char) : Nat := Nat.ofDigitChars 10 s 0

/-- Digits only. -/
def Digits (s : List Char) : Prop := ∀ c ∈ s, c.isDigit = true

theorem toNat_of_isDigit {c : Char} (h : c.isDigit = true) :
    '0'.toNat ≤ c.toNat ∧ c.toNat < '0'.toNat + 10 := by
  unfold Char.isDigit at h
  rw [Bool.and_eq_true, decide_eq_true_eq, decide_eq_true_eq] at h
  have hlo : (48 : Nat) ≤ c.toNat := UInt32.le_iff_toNat_le.mp h.1
  have hhi : c.toNat ≤ 57 := UInt32.le_iff_toNat_le.mp h.2
  exact ⟨hlo, by show c.toNat < 48 + 10; omega⟩

theorem value_cons (c : Char) (s : List Char) :
    value (c :: s) = 10 ^ s.length * (c.toNat - '0'.toNat) + value s := by
  unfold value
  rw [Nat.ofDigitChars_cons, Nat.ofDigitChars_eq_ofDigitChars_zero, Nat.mul_zero, Nat.zero_add]

theorem value_lt {s : List Char} (h : Digits s) : value s < 10 ^ s.length := by
  induction s with
  | nil => exact Nat.one_pos
  | cons c s ih =>
      have hs := ih fun d hd => h d (List.mem_cons_of_mem _ hd)
      obtain ⟨_, hhi⟩ := toNat_of_isDigit (h c List.mem_cons_self)
      have hdigit : c.toNat - '0'.toNat ≤ 9 := by omega
      have hmul := Nat.mul_le_mul_left (10 ^ s.length) hdigit
      rw [value_cons, List.length_cons, Nat.pow_succ]
      omega

theorem place_lt_iff {base x y u v : Nat} (hu : u < base) (hv : v < base) :
    base * x + u < base * y + v ↔ x < y ∨ x = y ∧ u < v := by
  rcases Nat.lt_trichotomy x y with hxy | rfl | hxy
  · refine iff_of_true ?_ (Or.inl hxy)
    have hmul := Nat.mul_le_mul_left base (Nat.succ_le_of_lt hxy)
    rw [Nat.mul_succ] at hmul
    omega
  · simp
  · refine iff_of_false ?_ ?_
    · have hmul := Nat.mul_le_mul_left base (Nat.succ_le_of_lt hxy)
      rw [Nat.mul_succ] at hmul
      omega
    · rintro (h | ⟨rfl, _⟩)
      · exact Nat.lt_asymm hxy h
      · exact Nat.lt_irrefl _ hxy

/-- **Digits of one length compare as the numbers they write.** -/
theorem map_lt_iff {a b : List Char} (ha : Digits a) (hb : Digits b)
    (h : a.length = b.length) : a.map Char.toNat < b.map Char.toNat ↔ value a < value b := by
  induction a generalizing b with
  | nil =>
      obtain rfl := List.length_eq_zero_iff.mp h.symm
      simp
  | cons c a ih =>
      cases b with
      | nil => cases h
      | cons d b =>
          have hlen : a.length = b.length := Nat.succ.inj h
          have ha' : Digits a := fun x hx => ha x (List.mem_cons_of_mem _ hx)
          have hb' : Digits b := fun x hx => hb x (List.mem_cons_of_mem _ hx)
          obtain ⟨hclo, _⟩ := toNat_of_isDigit (ha c List.mem_cons_self)
          obtain ⟨hdlo, _⟩ := toNat_of_isDigit (hb d List.mem_cons_self)
          rw [List.map_cons, List.map_cons, List.cons_lt_cons_iff, ih ha' hb' hlen, value_cons,
            value_cons, hlen, place_lt_iff (hlen ▸ value_lt ha') (value_lt hb')]
          omega

theorem eq_of_value {a b : List Char} (ha : Digits a) (hb : Digits b)
    (h : a.length = b.length) (hv : value a = value b) : a = b := by
  have hab : ¬ a.map Char.toNat < b.map Char.toNat := by
    rw [map_lt_iff ha hb h, hv]
    exact Nat.lt_irrefl _
  have hba : ¬ b.map Char.toNat < a.map Char.toNat := by
    rw [map_lt_iff hb ha h.symm, hv]
    exact Nat.lt_irrefl _
  have hmap := List.le_antisymm (List.not_lt.mp hba) (List.not_lt.mp hab)
  exact List.map_injective_iff.mpr (fun c d hcd => Char.toNat_inj.mp hcd) hmap

end Numerals
