import Mathlib.Algebra.Ring.Nat
import Mathlib.Data.List.Infix
import Mathlib.Data.List.Nodup
import Mathlib.Data.List.Perm.Subperm
import Mathlib.Tactic.Common

/-! # Windows — how much of a text is copied from another

    A place of a text is copied when it lies in a part of the text, of at least a given width, that
    is part of a source as well.  It is enough to look at the parts of exactly that width: they are
    collected from the source, looked up at every offset, and what they cover is marked.

    * `Covered`, `covered`: what is copied, and how many places are;
    * `covered_iff_window`: **a place is copied when some window over it is**;
    * `covered_anti`: smaller windows see no less;
    * `spans`, `marks`: the windows of a source, and the marks they leave;
    * `marks_sum`: **the marks count what is copied**. -/

namespace Windows

variable {α : Type*}

/-- The part of a list from one place up to another. -/
def slice (l : List α) (a b : Nat) : List α := (l.take b).drop a

/-- All windows of a width. -/
def spans (source : List α) (width : Nat) : List (List α) :=
  (List.range (source.length + 1 - width)).map fun offset => slice source offset (offset + width)

/-- Marks from one place up to another. -/
def fill (marks : List Nat) (a b : Nat) : List Nat :=
  marks.mapIdx fun i mark => if a ≤ i ∧ i < b then 1 else mark

theorem slice_infix (l : List α) (a b : Nat) : slice l a b <:+: l :=
  (List.drop_suffix a _).isInfix.trans (List.take_prefix b l).isInfix

theorem slice_infix_slice {l : List α} {a b o e : Nat} (ha : a ≤ o) (hb : e ≤ b) :
    slice l o e <:+: slice l a b := by
  have htake : l.take e <+: l.take b := List.take_prefix_take_left hb
  have hdrop : (l.take e).drop o <:+ (l.take e).drop a := by
    obtain ⟨k, rfl⟩ := Nat.exists_eq_add_of_le ha
    rw [← List.drop_drop]
    exact List.drop_suffix k _
  exact hdrop.isInfix.trans (htake.drop a).isInfix

theorem length_slice {l : List α} {a b : Nat} (hb : b ≤ l.length) :
    (slice l a b).length = b - a := by
  unfold slice
  rw [List.length_drop, List.length_take, Nat.min_eq_left hb]

theorem exists_slice_of_infix {t l : List α} (h : t <:+: l) :
    ∃ a, a + t.length ≤ l.length ∧ slice l a (a + t.length) = t := by
  obtain ⟨s, u, rfl⟩ := h
  refine ⟨s.length, by simp, ?_⟩
  unfold slice
  rw [List.take_append_of_le_length (by simp), ← List.length_append, List.take_length,
    List.drop_left]

variable {source : List α} {width : Nat}

theorem mem_spans {t : List α} : t ∈ spans source width ↔ t.length = width ∧ t <:+: source := by
  unfold spans
  rw [List.mem_map]
  constructor
  · rintro ⟨offset, hoffset, rfl⟩
    rw [List.mem_range] at hoffset
    refine ⟨?_, slice_infix _ _ _⟩
    rw [length_slice (by omega)]
    omega
  · rintro ⟨rfl, hpart⟩
    obtain ⟨a, ha, hslice⟩ := exists_slice_of_infix hpart
    exact ⟨a, List.mem_range.mpr (by omega), hslice⟩

/-! ## What is copied -/

variable [DecidableEq α]

/-- Place `i` of the text lies in a part of at least the width that the source has. -/
def Covered (source text : List α) (width i : Nat) : Prop :=
  ∃ a ∈ List.range (i + 1), ∃ b ∈ List.range (text.length + 1),
    i < b ∧ width ≤ b - a ∧ slice text a b <:+: source

instance (source text : List α) (width i : Nat) : Decidable (Covered source text width i) :=
  inferInstanceAs (Decidable (∃ a ∈ List.range (i + 1), ∃ b ∈ List.range (text.length + 1),
    i < b ∧ width ≤ b - a ∧ slice text a b <:+: source))

/-- How many places of the text are copied. -/
def covered (source text : List α) (width : Nat) : Nat :=
  ((List.range text.length).filter fun i => Covered source text width i).length

omit [DecidableEq α] in
/-- **A place is copied when some window over it is.** -/
theorem covered_iff_window {text : List α} {i : Nat} (hwidth : 1 ≤ width) :
    Covered source text width i ↔
      ∃ offset, offset ≤ i ∧ i < offset + width ∧ offset + width ≤ text.length ∧
        slice text offset (offset + width) <:+: source := by
  constructor
  · rintro ⟨a, ha, b, hb, hi, hw, hpart⟩
    rw [List.mem_range] at ha hb
    -- the window that starts at the place, or the last one of the part
    rcases Nat.le_total (i + width) b with h | h
    · exact ⟨i, Nat.le_refl i, by omega, by omega,
        (slice_infix_slice (by omega) h).trans hpart⟩
    · refine ⟨b - width, by omega, by omega, by omega, ?_⟩
      exact (slice_infix_slice (by omega) (by omega)).trans hpart
  · rintro ⟨offset, hle, hlt, hlen, hpart⟩
    exact ⟨offset, List.mem_range.mpr (by omega), offset + width, List.mem_range.mpr (by omega),
      hlt, by omega, hpart⟩

theorem covered_anti (source text : List α) {width' : Nat} (h : width' ≤ width) :
    covered source text width ≤ covered source text width' := by
  refine (List.monotone_filter_right _ fun i hi => ?_).length_le
  obtain ⟨a, ha, b, hb, hib, hw, hpart⟩ := of_decide_eq_true hi
  exact decide_eq_true ⟨a, ha, b, hb, hib, h.trans hw, hpart⟩

theorem covered_le_length (source text : List α) (width : Nat) :
    covered source text width ≤ text.length :=
  (List.length_filter_le _ _).trans_eq List.length_range

theorem length_le_covered {text t : List α} (ht : t <:+: text) (hs : t <:+: source)
    (hwidth : width ≤ t.length) : t.length ≤ covered source text width := by
  obtain ⟨a, ha, hslice⟩ := exists_slice_of_infix ht
  have hsub : (List.range t.length).map (a + ·) ⊆
      (List.range text.length).filter fun i => Covered source text width i := by
    intro i hi
    obtain ⟨j, hj, rfl⟩ := List.mem_map.mp hi
    rw [List.mem_range] at hj
    refine List.mem_filter.mpr ⟨List.mem_range.mpr (by omega), decide_eq_true ?_⟩
    exact ⟨a, List.mem_range.mpr (by omega), a + t.length, List.mem_range.mpr (by omega),
      by omega, by omega, by rw [hslice]; exact hs⟩
  have hnodup : ((List.range t.length).map (a + ·)).Nodup :=
    List.Nodup.map (fun i j hij => Nat.add_left_cancel hij) List.nodup_range
  have hlen := (List.subperm_of_subset hnodup hsub).length_le
  rwa [List.length_map, List.length_range] at hlen

/-! ## The marks -/

/-- The marks that the windows of `found` leave on a text. -/
def marks (found : List (List α)) (text : List α) (width : Nat) : List Nat :=
  (List.range (text.length + 1 - width)).foldl
    (fun copied offset =>
      if slice text offset (offset + width) ∈ found then fill copied offset (offset + width)
      else copied)
    (List.replicate text.length 0)

/-- Place `i` lies in a window at one of the offsets that is found. -/
def Marked (found : List (List α)) (text : List α) (width : Nat) (offsets : List Nat)
    (i : Nat) : Prop :=
  ∃ offset ∈ offsets, slice text offset (offset + width) ∈ found ∧ offset ≤ i ∧ i < offset + width

instance (found : List (List α)) (text : List α) (width : Nat) (offsets : List Nat) (i : Nat) :
    Decidable (Marked found text width offsets i) :=
  inferInstanceAs (Decidable (∃ offset ∈ offsets, slice text offset (offset + width) ∈ found ∧
    offset ≤ i ∧ i < offset + width))

theorem mapIdx_map_range (n : Nat) (f : Nat → Nat) (g : Nat → Nat → Nat) :
    ((List.range n).map f).mapIdx g = (List.range n).map fun i => g i (f i) := by
  refine List.ext_getElem (by simp) fun i h₁ h₂ => ?_
  simp

theorem marks_foldl (found : List (List α)) (text : List α) (width : Nat) (offsets : List Nat) :
    offsets.foldl (fun copied offset =>
        if slice text offset (offset + width) ∈ found then fill copied offset (offset + width)
        else copied) (List.replicate text.length 0) = (List.range text.length).map fun i =>
          if Marked found text width offsets i then 1 else 0 := by
  induction offsets using List.reverseRecOn with
  | nil =>
      refine List.ext_getElem (by simp) fun i h₁ h₂ => ?_
      have hnone : ¬ Marked found text width [] i := by
        rintro ⟨offset, hoffset, -⟩
        cases hoffset
      simp [hnone]
  | append_singleton offsets offset ih =>
      rw [List.foldl_append, List.foldl_cons, List.foldl_nil, ih]
      have hiff : ∀ i, Marked found text width (offsets ++ [offset]) i ↔
          Marked found text width offsets i ∨
            slice text offset (offset + width) ∈ found ∧ offset ≤ i ∧ i < offset + width := by
        intro i
        constructor
        · rintro ⟨o, ho, h⟩
          rcases List.mem_append.mp ho with ho | ho
          · exact Or.inl ⟨o, ho, h⟩
          · rw [List.mem_singleton.mp ho] at h
            exact Or.inr h
        · rintro (⟨o, ho, h⟩ | h)
          · exact ⟨o, List.mem_append_left _ ho, h⟩
          · exact ⟨offset, List.mem_append_right _ (List.mem_singleton_self _), h⟩
      by_cases hfound : slice text offset (offset + width) ∈ found
      · rw [if_pos hfound]
        unfold fill
        rw [mapIdx_map_range]
        refine List.map_congr_left fun i _ => ?_
        by_cases hin : offset ≤ i ∧ i < offset + width
        · rw [if_pos hin, if_pos ((hiff i).mpr (Or.inr ⟨hfound, hin⟩))]
        · rw [if_neg hin]
          have hsame : Marked found text width (offsets ++ [offset]) i ↔
              Marked found text width offsets i := by
            rw [hiff]
            exact or_iff_left fun h => hin h.2
          simp only [hsame]
      · rw [if_neg hfound]
        refine List.map_congr_left fun i _ => ?_
        have hsame : Marked found text width (offsets ++ [offset]) i ↔
            Marked found text width offsets i := by
          rw [hiff]
          exact or_iff_left fun h => hfound h.1
        simp only [hsame]

theorem sum_map_ite (P : Nat → Prop) [DecidablePred P] (l : List Nat) :
    (l.map fun i => if P i then 1 else 0).sum = (l.filter fun i => P i).length := by
  induction l with
  | nil => rfl
  | cons i l ih =>
      rw [List.map_cons, List.sum_cons, ih]
      by_cases h : P i
      · rw [if_pos h, List.filter_cons_of_pos (by simpa using h), List.length_cons]
        omega
      · rw [if_neg h, List.filter_cons_of_neg (by simpa using h)]
        omega

/-- **The marks count what is copied.** -/
theorem marks_sum {text : List α} (hwidth : 1 ≤ width) :
    (marks (spans source width) text width).sum = covered source text width := by
  unfold marks covered
  rw [marks_foldl, sum_map_ite]
  congr 1
  refine List.filter_congr fun i _ => decide_eq_decide.mpr ?_
  rw [covered_iff_window hwidth]
  constructor
  · rintro ⟨offset, hoffset, hfound, hle, hlt⟩
    rw [List.mem_range] at hoffset
    exact ⟨offset, hle, hlt, by omega, (mem_spans.mp hfound).2⟩
  · rintro ⟨offset, hle, hlt, hlen, hpart⟩
    refine ⟨offset, List.mem_range.mpr (by omega), mem_spans.mpr ⟨?_, hpart⟩, hle, hlt⟩
    rw [length_slice hlen]
    omega

end Windows
