import Daftari.Frontmatter.SchemaProofs
import Daftari.Lib.NumeralsProofs
import Mathlib.Data.Prod.Lex

/-! # Dates as texts and as days

    The code keeps dates as texts and compares them as strings.  A canonical
    date is padded to fixed widths, so that is the order of the calendar.

    * `Names.lt_iff`: **canonical dates compare as the days they name.** -/

namespace Frontmatter

/-- A day of the calendar: year, month and day of the month, in that order. -/
abbrev Day := Nat ×ₗ Nat ×ₗ Nat

def canonicalDay (t : String) : Day :=
  toLex (Numerals.value (t.toList.take 4),
    toLex (Numerals.value ((t.toList.drop 5).take 2), Numerals.value (t.toList.drop 8)))

/-- The day a text names, its month and day with or without a leading zero. -/
def dayOf (s : String) : Option Day := (normalizeIsoDate s).map canonicalDay

/-- The text is `x`, written in four, two and two digits. -/
def Names (t : String) (x : Day) : Prop :=
  ∃ y m d : List Char, t = String.ofList (y ++ '-' :: m ++ '-' :: d)
    ∧ (Numerals.Digits y ∧ Numerals.Digits m ∧ Numerals.Digits d)
    ∧ (y.length = 4 ∧ m.length = 2 ∧ d.length = 2)
    ∧ x = toLex (Numerals.value y, toLex (Numerals.value m, Numerals.value d))

theorem digits_eq_some {s : List Char} {n : Nat} (h : digits s = some n) :
    Numerals.Digits s ∧ s ≠ [] := by
  unfold digits at h
  split at h
  · rename_i hall
    exact ⟨fun c hc => List.all_eq_true.mp hall.2 c hc, hall.1⟩
  · cases h

theorem padTwo_spec {s : List Char} {n : Nat} (h : digits s = some n) (hlen : s.length ≤ 2) :
    Numerals.Digits (padTwo s) ∧ (padTwo s).length = 2 := by
  obtain ⟨hdigits, hne⟩ := digits_eq_some h
  have hpos := List.length_pos_iff.mpr hne
  unfold padTwo
  split
  · rename_i hone
    refine ⟨?_, by rw [List.length_cons, hone]⟩
    intro c hc
    rcases List.mem_cons.mp hc with rfl | hc
    · decide
    · exact hdigits c hc
  · exact ⟨hdigits, by omega⟩

theorem names_canonicalDay {y m d : List Char}
    (hdigits : Numerals.Digits y ∧ Numerals.Digits m ∧ Numerals.Digits d)
    (hlen : y.length = 4 ∧ m.length = 2 ∧ d.length = 2) :
    Names (String.ofList (y ++ '-' :: m ++ '-' :: d))
      (canonicalDay (String.ofList (y ++ '-' :: m ++ '-' :: d))) := by
  obtain ⟨hy, hm, hd⟩ := hlen
  refine ⟨y, m, d, rfl, hdigits, ⟨hy, hm, hd⟩, ?_⟩
  unfold canonicalDay
  rw [String.toList_ofList]
  have hyear : (y ++ '-' :: m ++ '-' :: d).take 4 = y := by
    rw [List.append_assoc, List.take_append_of_le_length (by omega),
      List.take_of_length_le (by omega)]
  have hmonth : ((y ++ '-' :: m ++ '-' :: d).drop 5).take 2 = m := by
    have hdrop : (y ++ '-' :: m ++ '-' :: d).drop 5 = m ++ '-' :: d := by
      rw [List.append_assoc, List.drop_append, List.drop_of_length_le (by omega), hy]
      rfl
    rw [hdrop, List.take_append_of_le_length (by omega), List.take_of_length_le (by omega)]
  have hday : (y ++ '-' :: m ++ '-' :: d).drop 8 = d := by
    rw [List.drop_append, List.drop_of_length_le (by simp; omega)]
    simp [hy, hm]
  rw [hyear, hmonth, hday]

/-- **Normalising finds the canonical text** of a day. -/
theorem normalizeIsoDate_eq_some {s t : String} (h : normalizeIsoDate s = some t) :
    Names t (canonicalDay t) := by
  unfold normalizeIsoDate at h
  split at h
  · split at h
    · split at h
      · rename_i y m d _ _ _ _ year month day hy hm hd hreal
        obtain rfl := Option.some.inj h
        obtain ⟨hylen, hmlen, hdlen, _⟩ := hreal
        obtain ⟨hmdigits, hmtwo⟩ := padTwo_spec hm hmlen
        obtain ⟨hddigits, hdtwo⟩ := padTwo_spec hd hdlen
        exact names_canonicalDay ⟨(digits_eq_some hy).1, hmdigits, hddigits⟩
          ⟨hylen, hmtwo, hdtwo⟩
      · cases h
    · cases h
  · cases h

theorem plain_of_isDigit {c : Char} (h : c.isDigit = true) : c.toNat < 0x10000 := by
  obtain ⟨_, hhi⟩ := Numerals.toNat_of_isDigit h
  have hzero : '0'.toNat = 48 := rfl
  omega

theorem units_names {y m d : List Char} (hy : Numerals.Digits y) (hm : Numerals.Digits m)
    (hd : Numerals.Digits d) : Text.units (String.ofList (y ++ '-' :: m ++ '-' :: d)).toList
      = y.map Char.toNat ++ (['-'.toNat] ++ (m.map Char.toNat
        ++ (['-'.toNat] ++ d.map Char.toNat))) := by
  rw [String.toList_ofList, Numerals.units_eq_map]
  · simp
  · intro c hc
    rw [List.mem_append, List.mem_append, List.mem_cons, List.mem_cons] at hc
    rcases hc with (hc | rfl | hc) | rfl | hc
    · exact plain_of_isDigit (hy c hc)
    · decide
    · exact plain_of_isDigit (hm c hc)
    · decide
    · exact plain_of_isDigit (hd c hc)

/-- **Canonical dates compare as the days they name.** -/
theorem Names.lt_iff {s t : String} {x z : Day} (hs : Names s x) (ht : Names t z) :
    Text.lt s t = true ↔ x < z := by
  obtain ⟨y, m, d, rfl, ⟨hy, hm, hd⟩, ⟨hylen, hmlen, hdlen⟩, rfl⟩ := hs
  obtain ⟨y', m', d', rfl, ⟨hy', hm', hd'⟩, ⟨hylen', hmlen', hdlen'⟩, rfl⟩ := ht
  have hyears := hylen.trans hylen'.symm
  have hmonths := hmlen.trans hmlen'.symm
  have hdays := hdlen.trans hdlen'.symm
  have hsame : ∀ {a b : List Char}, Numerals.Digits a → Numerals.Digits b →
      a.length = b.length → (a.map Char.toNat = b.map Char.toNat ↔
        Numerals.value a = Numerals.value b) := by
    intro a b ha hb hlen
    constructor
    · intro h
      rw [List.map_injective_iff.mpr (fun c d hcd => Char.toNat_inj.mp hcd) h]
    · intro h
      rw [Numerals.eq_of_value ha hb hlen h]
  unfold Text.lt
  rw [decide_eq_true_eq, units_names hy hm hd, units_names hy' hm' hd',
    Numerals.lex_append (by simpa using hyears), Numerals.lex_append rfl,
    Numerals.lex_append (by simpa using hmonths), Numerals.lex_append rfl,
    Numerals.map_lt_iff hy hy' hyears, Numerals.map_lt_iff hm hm' hmonths,
    Numerals.map_lt_iff hd hd' hdays, hsame hy hy' hyears, hsame hm hm' hmonths,
    Prod.Lex.toLex_lt_toLex, Prod.Lex.toLex_lt_toLex]
  have hdash : ¬ ['-'.toNat] < ['-'.toNat] := List.lt_irrefl _
  simp only [hdash, false_or, true_and]

end Frontmatter
