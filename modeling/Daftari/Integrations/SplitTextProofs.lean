import Mathlib.Data.List.Basic
import Mathlib.Order.MinMax

/-! # Splitting a source — parts no longer than the limit

    `splitNormalizedText` cuts a text where it last has a newline or a space before the limit.  It
    looks for them up to the unit at the limit itself, and takes the one it finds into the part.

    * `split_within_iff`: **the parts are within the limit exactly if the text fits.** -/

namespace SplitText

/-- A text, as its UTF-16 code units. -/
abbrev Units := List Nat

/-- `text.lastIndexOf(u, start)`. -/
def lastIndexOf (text : Units) (u : Nat) : Nat → Int
  | 0 => if text[0]? = some u then 0 else -1
  | start + 1 => if text[start + 1]? = some u then ↑(start + 1) else lastIndexOf text u start

/-- The `end` of the part that begins at an offset. -/
def endOf (text : Units) (limit offset : Nat) : Nat :=
  let hardEnd := min (offset + limit) text.length
  if hardEnd < text.length then
    let newline := lastIndexOf text 0x0A hardEnd
    let space := lastIndexOf text 0x20 hardEnd
    let boundary := max newline space
    if offset < boundary then boundary.toNat + 1 else hardEnd
  else hardEnd

/-- The loop from an offset on; none if it has not ended after so many steps. -/
def splitLoop (text : Units) (limit : Nat) : Nat → Nat → Option (List Units)
  | 0, _ => none
  | steps + 1, offset =>
      if offset < text.length then
        (splitLoop text limit steps (endOf text limit offset)).map fun parts =>
          (text.take (endOf text limit offset)).drop offset :: parts
      else some []

def splitNormalizedText (text : Units) (limit : Nat) : Option (List Units) :=
  if text = [] then some [[]] else splitLoop text limit (text.length + 1) 0

/-! ## Boundaries -/

/-- There is a newline or a space at this place. -/
def Blank (text : Units) (i : Nat) : Prop := text[i]? = some 0x0A ∨ text[i]? = some 0x20

variable (text : Units)

theorem lastIndexOf_spec (u start : Nat) :
    (lastIndexOf text u start = -1 ∧ ∀ j ≤ start, text[j]? ≠ some u) ∨
      ∃ b ≤ start, lastIndexOf text u start = b ∧ text[b]? = some u ∧
        ∀ j, b < j → j ≤ start → text[j]? ≠ some u := by
  induction start with
  | zero =>
      rw [lastIndexOf]
      by_cases h : text[0]? = some u
      · rw [if_pos h]
        exact .inr ⟨0, le_rfl, rfl, h, fun j hj hj' => by omega⟩
      · rw [if_neg h]
        refine .inl ⟨rfl, fun j hj => ?_⟩
        obtain rfl := Nat.le_zero.mp hj
        exact h
  | succ start ih =>
      rw [lastIndexOf]
      by_cases h : text[start + 1]? = some u
      · rw [if_pos h]
        exact .inr ⟨start + 1, le_rfl, rfl, h, fun j hj hj' => by omega⟩
      · rw [if_neg h]
        have hlast : ∀ j ≤ start + 1, start < j → text[j]? ≠ some u := by
          intro j hj hlt
          obtain rfl : j = start + 1 := by omega
          exact h
        rcases ih with ⟨hnone, hall⟩ | ⟨b, hb, heq, hat, hall⟩
        · refine .inl ⟨hnone, fun j hj => ?_⟩
          rcases Nat.lt_or_ge start j with hlt | hle
          · exact hlast j hj hlt
          · exact hall j hle
        · refine .inr ⟨b, Nat.le_succ_of_le hb, heq, hat, fun j hlo hj => ?_⟩
          rcases Nat.lt_or_ge start j with hlt | hle
          · exact hlast j hj hlt
          · exact hall j hlo hle

theorem boundary_spec (start : Nat) :
    (max (lastIndexOf text 0x0A start) (lastIndexOf text 0x20 start) = -1 ∧
      ∀ j ≤ start, ¬ Blank text j) ∨
      ∃ b ≤ start, max (lastIndexOf text 0x0A start) (lastIndexOf text 0x20 start) = b ∧
        Blank text b ∧ ∀ j, b < j → j ≤ start → ¬ Blank text j := by
  rcases lastIndexOf_spec text 0x0A start with ⟨hn, hnall⟩ | ⟨n, hnle, hn, hnat, hnall⟩ <;>
    rcases lastIndexOf_spec text 0x20 start with ⟨hs, hsall⟩ | ⟨s, hsle, hs, hsat, hsall⟩ <;>
    rw [hn, hs]
  · exact .inl ⟨max_self _, fun j hj => not_or.mpr ⟨hnall j hj, hsall j hj⟩⟩
  · exact .inr ⟨s, hsle, max_eq_right (by omega), .inr hsat, fun j hlo hj =>
      not_or.mpr ⟨hnall j hj, hsall j hlo hj⟩⟩
  · exact .inr ⟨n, hnle, max_eq_left (by omega), .inl hnat, fun j hlo hj =>
      not_or.mpr ⟨hnall j hlo hj, hsall j hj⟩⟩
  · rcases le_total n s with hle | hle
    · exact .inr ⟨s, hsle, max_eq_right (by omega), .inr hsat, fun j hlo hj =>
        not_or.mpr ⟨hnall j (by omega) hj, hsall j hlo hj⟩⟩
    · exact .inr ⟨n, hnle, max_eq_left (by omega), .inl hnat, fun j hlo hj =>
        not_or.mpr ⟨hnall j hlo hj, hsall j (by omega) hj⟩⟩

/-- **Where a part ends**: with the text, after the last blank up to the limit, or at the limit
    if there is none. -/
theorem endOf_spec (limit offset : Nat) :
    (text.length ≤ offset + limit ∧ endOf text limit offset = text.length) ∨
    (offset + limit < text.length ∧ (∀ j, offset < j → j ≤ offset + limit → ¬ Blank text j) ∧
      endOf text limit offset = offset + limit) ∨
    ∃ b, offset + limit < text.length ∧ offset < b ∧ b ≤ offset + limit ∧ Blank text b ∧
      (∀ j, b < j → j ≤ offset + limit → ¬ Blank text j) ∧ endOf text limit offset = b + 1 := by
  rcases Nat.lt_or_ge (offset + limit) text.length with hlt | hge
  · right
    have hmin : min (offset + limit) text.length = offset + limit := min_eq_left hlt.le
    simp only [endOf, hmin, if_pos hlt]
    rcases boundary_spec text (offset + limit) with ⟨heq, hall⟩ | ⟨b, hb, heq, hat, hall⟩
    · rw [heq, if_neg (by omega)]
      exact .inl ⟨hlt, fun j _ hj => hall j hj, rfl⟩
    · rw [heq]
      rcases Nat.lt_or_ge offset b with hin | hout
      · rw [if_pos (by omega)]
        exact .inr ⟨b, hlt, hin, hb, hat, hall, rfl⟩
      · rw [if_neg (by omega)]
        exact .inl ⟨hlt, fun j hlo hj => hall j (by omega) hj, rfl⟩
  · refine .inl ⟨hge, ?_⟩
    have hmin : min (offset + limit) text.length = text.length := min_eq_right hge
    simp only [endOf, hmin, if_neg (lt_irrefl _)]

theorem endOf_bounds {limit offset : Nat} (hlimit : 1 ≤ limit) (h : offset < text.length) :
    offset < endOf text limit offset ∧ endOf text limit offset ≤ text.length := by
  rcases endOf_spec text limit offset with ⟨-, heq⟩ | ⟨hlt, -, heq⟩ | ⟨b, hlt, hin, hb, -, -, heq⟩
    <;> omega

/-! ## Parts -/

/-- **The loop ends**, and its parts are not empty and make up what is left of the text. -/
theorem splitLoop_spec {limit : Nat} (hlimit : 1 ≤ limit) {steps offset : Nat}
    (h : text.length - offset < steps) : ∃ parts, splitLoop text limit steps offset = some parts ∧
      parts.flatten = text.drop offset ∧ ∀ part ∈ parts, part ≠ [] := by
  induction steps generalizing offset with
  | zero => omega
  | succ steps ih =>
      rw [splitLoop]
      by_cases hin : offset < text.length
      · obtain ⟨hlo, hhi⟩ := endOf_bounds text hlimit hin
        have hleft : text.length - endOf text limit offset < steps := by omega
        obtain ⟨parts, heq, hflat, hne⟩ := ih hleft
        rw [if_pos hin, heq]
        refine ⟨_, rfl, ?_, List.forall_mem_cons.mpr ⟨?_, hne⟩⟩
        · rw [List.flatten_cons, hflat, ← List.drop_append_of_le_length (by
            rw [List.length_take]
            omega), List.take_append_drop]
        · rw [← List.length_pos_iff, List.length_drop, List.length_take]
          omega
      · rw [if_neg hin]
        refine ⟨[], rfl, ?_, fun part hpart => (nomatch hpart)⟩
        rw [List.flatten_nil, List.drop_of_length_le (by omega)]

/-- Cut from the front, no stretch of `limit` units is followed by a blank: what is left fits, or is
    cut after the last blank among the units up to the limit, or at the limit if there is none. -/
inductive Fits (text : Units) (limit : Nat) : Nat → Prop
  | rest {offset : Nat} : text.length ≤ offset + limit → Fits text limit offset
  | blank {offset b : Nat} : offset + limit < text.length → offset < b → b < offset + limit →
      Blank text b → (∀ j, b < j → j ≤ offset + limit → ¬ Blank text j) →
      Fits text limit (b + 1) → Fits text limit offset
  | hard {offset : Nat} : offset + limit < text.length →
      (∀ j, offset < j → j ≤ offset + limit → ¬ Blank text j) →
      Fits text limit (offset + limit) → Fits text limit offset

theorem fits_iff (limit offset : Nat) : Fits text limit offset ↔
      endOf text limit offset ≤ offset + limit ∧ Fits text limit (endOf text limit offset) := by
  rcases endOf_spec text limit offset with ⟨hrest, heq⟩ | ⟨hlt, hnone, heq⟩ |
    ⟨b, hlt, hin, hb, hat, hlast, heq⟩ <;> rw [heq]
  · exact ⟨fun _ => ⟨hrest, .rest (by omega)⟩, fun _ => .rest hrest⟩
  · refine ⟨fun hfits => ⟨le_rfl, ?_⟩, fun hfits => .hard hlt hnone hfits.2⟩
    cases hfits with
    | rest hrest => omega
    | blank _ hin hb hat _ _ => exact absurd hat (hnone _ hin hb.le)
    | hard _ _ hfits => exact hfits
  · constructor
    · intro hfits
      cases hfits with
      | rest hrest => omega
      | hard _ hnone _ => exact absurd hat (hnone b hin hb)
      | @blank _ b' _ hin' hb' hat' hlast' hfits =>
          -- both are the last blank
          obtain rfl : b' = b := by
            by_contra hne
            rcases Nat.lt_or_gt_of_ne hne with hlt' | hgt'
            · exact hlast' b hlt' hb hat
            · exact hlast b' hgt' hb'.le hat'
          exact ⟨hb', hfits⟩
    · rintro ⟨hle, hfits⟩
      exact .blank hlt hin hle hat hlast hfits

theorem splitLoop_within_iff {limit : Nat} (hlimit : 1 ≤ limit) {steps offset : Nat}
    {parts : List Units} (h : splitLoop text limit steps offset = some parts) :
    (∀ part ∈ parts, part.length ≤ limit) ↔ Fits text limit offset := by
  induction steps generalizing offset parts with
  | zero => cases h
  | succ steps ih =>
      rw [splitLoop] at h
      by_cases hin : offset < text.length
      · rw [if_pos hin, Option.map_eq_some_iff] at h
        obtain ⟨later, hlater, rfl⟩ := h
        obtain ⟨hlo, hhi⟩ := endOf_bounds text hlimit hin
        have hlen : ((text.take (endOf text limit offset)).drop offset).length ≤ limit ↔
            endOf text limit offset ≤ offset + limit := by
          rw [List.length_drop, List.length_take]
          omega
        rw [List.forall_mem_cons, ih hlater, hlen]
        exact (fits_iff text limit offset).symm
      · rw [if_neg hin] at h
        obtain rfl := Option.some.inj h
        exact ⟨fun _ => .rest (by omega), fun _ part hpart => (nomatch hpart)⟩

/-- **THE PARTS ARE A PARTITION WITHIN THE LIMIT** exactly if the text fits. -/
theorem split_within_iff (text : Units) (limit : Nat) (htext : text ≠ []) (hlimit : 1 ≤ limit) :
    (∃ parts, splitNormalizedText text limit = some parts ∧ parts.flatten = text ∧
      ∀ part ∈ parts, part ≠ [] ∧ part.length ≤ limit) ↔ Fits text limit 0 := by
  obtain ⟨parts, hparts, hflat, hne⟩ := splitLoop_spec text hlimit (Nat.lt_succ_self _)
  have hsplit : splitNormalizedText text limit = some parts := (if_neg htext).trans hparts
  rw [← splitLoop_within_iff text hlimit hparts, hsplit]
  constructor
  · rintro ⟨parts', heq, -, hwithin⟩ part hpart
    obtain rfl := Option.some.inj heq
    exact (hwithin part hpart).2
  · intro hwithin
    exact ⟨parts, rfl, hflat, fun part hpart => ⟨hne part hpart, hwithin part hpart⟩⟩

/-- `a b`, in parts of at most two units. -/
theorem split_within_two : ∃ parts, splitNormalizedText [97, 32, 98] 2 = some parts ∧
    parts.flatten = [97, 32, 98] ∧ ∀ part ∈ parts, part ≠ [] ∧ part.length ≤ 2 := by
  refine (split_within_iff [97, 32, 98] 2 (by decide) (by decide)).mpr ?_
  refine .blank (b := 1) (by decide) (by decide) (by decide) (.inr rfl) (fun j hlo hj => ?_)
    (.rest (by decide))
  obtain rfl : j = 2 := by omega
  exact not_or.mpr ⟨by decide, by decide⟩

/-- **A blank at the limit** is one too many: `ab c` in parts of at most two. -/
theorem blank_at_limit : splitNormalizedText [97, 98, 32, 99] 2 = some [[97, 98, 32], [99]] ∧
    ¬ ∃ parts, splitNormalizedText [97, 98, 32, 99] 2 = some parts ∧
      parts.flatten = [97, 98, 32, 99] ∧ ∀ part ∈ parts, part ≠ [] ∧ part.length ≤ 2 := by
  have hsplit : splitNormalizedText [97, 98, 32, 99] 2 = some [[97, 98, 32], [99]] := by decide
  refine ⟨hsplit, ?_⟩
  rintro ⟨parts, heq, -, hwithin⟩
  obtain rfl := Option.some.inj heq
  exact absurd (hwithin _ List.mem_cons_self).2 (by decide)

end SplitText
