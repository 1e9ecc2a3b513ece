import Daftari.Lib.TextProofs
import Daftari.Lib.WindowsProofs

/-! # The verbatim fence — how much of a source a distilled batch repeats

    Statements and source are compared with their white space squeezed.  A batch is over the fence
    when a statement has the whole source in it, or when all that the statements copy, in windows of
    four characters or of one more than is allowed, comes to more than is allowed.

    * `copiedSpanCharacters_eq`: what is counted of a statement;
    * `verbatimFence_sound`: **a batch within the fence copies no part longer than is allowed, nor
      more in all**, and no batch comes within it by another claim or a lower allowance. -/

namespace VerbatimFence

open Windows

/-- A text, as its UTF-16 code units. -/
abbrev Units := List Nat

/-- What `\s` matches, as units. -/
def isSpaceUnit (u : Nat) : Bool :=
  u == 0x20 || (0x09 ≤ u && u ≤ 0x0D) || u == 0xA0 || u == 0x1680
    || (0x2000 ≤ u && u ≤ 0x200A) || u == 0x2028 || u == 0x2029 || u == 0x202F
    || u == 0x205F || u == 0x3000 || u == 0xFEFF

/-- `replace(/\s+/g, " ")`: `inMatch` within a run of white space. -/
def squeeze : Bool → Units → Units
  | _, [] => []
  | inMatch, u :: rest =>
      if isSpaceUnit u then
        if inMatch then squeeze true rest else 0x20 :: squeeze true rest
      else u :: squeeze false rest

def normalizedVerbatim (value : Units) : Units :=
  ((squeeze false value).dropWhile isSpaceUnit).rdropWhile isSpaceUnit

/-- `copiedSpanCharacters`, with `sourceSpanIndex` as the windows of the source. -/
def copiedSpanCharacters (source candidate : Units) (spanLength : Nat)
    (sourceSpans : List Units) : Nat :=
  if candidate <:+: source then candidate.length
  else if candidate.length < spanLength ∨ source.length < spanLength then 0
  else (marks sourceSpans candidate spanLength).sum

/-- The loop of `exceedsVerbatimFence` over the statements of the claims, with what has
    been copied so far. -/
def fenceLoop (source : Units) (spanLength : Nat) (sourceSpans : List Units)
    (maxVerbatimChars : Nat) : Nat → List Units → Bool
  | _, [] => false
  | copied, claim :: claims =>
      let statement := normalizedVerbatim claim
      if statement.length = 0 then
        fenceLoop source spanLength sourceSpans maxVerbatimChars copied claims
      else if statement = source then true
      else if source <:+: statement then true
      else
        let copied := copied + copiedSpanCharacters source statement spanLength sourceSpans
        if maxVerbatimChars < copied then true
        else fenceLoop source spanLength sourceSpans maxVerbatimChars copied claims

/-- `spanLength`. -/
def spanLengthFor (maxVerbatimChars : Nat) : Nat := max 1 (min 4 (maxVerbatimChars + 1))

def exceedsVerbatimFence (source : Units) (claims : List Units) (maxVerbatimChars : Nat) : Bool :=
  let normalizedSource := normalizedVerbatim source
  if normalizedSource.length = 0 then false
  else
    let spanLength := spanLengthFor maxVerbatimChars
    fenceLoop normalizedSource spanLength (spans normalizedSource spanLength) maxVerbatimChars 0
      claims

/-! ## What is counted -/

theorem spanLength_pos (n : Nat) : 1 ≤ spanLengthFor n := le_max_left _ _

theorem spanLength_eq (n : Nat) : spanLengthFor n = min 4 (n + 1) := by
  unfold spanLengthFor
  omega

variable {width : Nat}

variable (source : Units)

theorem copiedSpanCharacters_eq (candidate : Units) (hwidth : 1 ≤ width) :
    copiedSpanCharacters source candidate width (spans source width)
      = if candidate <:+: source then candidate.length else covered source candidate width := by
  unfold copiedSpanCharacters
  by_cases hin : candidate <:+: source
  · rw [if_pos hin, if_pos hin]
  · rw [if_neg hin, if_neg hin]
    by_cases hshort : candidate.length < width ∨ source.length < width
    · rw [if_pos hshort]
      unfold covered
      symm
      rw [List.length_eq_zero_iff, List.filter_eq_nil_iff]
      intro i _ hi
      obtain ⟨offset, -, -, hlen, hpart⟩ := (covered_iff_window hwidth).mp (of_decide_eq_true hi)
      have hle := hpart.length_le
      rw [length_slice hlen] at hle
      omega
    · rw [if_neg hshort]
      exact marks_sum hwidth

/-- What a claim adds. -/
def copiedOf (source claim : Units) (width : Nat) : Nat :=
  if normalizedVerbatim claim <:+: source then (normalizedVerbatim claim).length
  else covered source (normalizedVerbatim claim) width

theorem covered_le_copiedOf (claim : Units) (width : Nat) :
    covered source (normalizedVerbatim claim) width ≤ copiedOf source claim width := by
  unfold copiedOf
  split
  · exact covered_le_length _ _ _
  · exact Nat.le_refl _

theorem copiedOf_anti (claim : Units) {width' : Nat} (h : width' ≤ width) :
    copiedOf source claim width ≤ copiedOf source claim width' := by
  unfold copiedOf
  split
  · exact Nat.le_refl _
  · exact covered_anti _ _ h

/-- A statement has the whole source in it. -/
def HoldsSource (source claim : Units) : Prop :=
  normalizedVerbatim claim ≠ [] ∧ source <:+: normalizedVerbatim claim

/-- **When a run over the claims ends over the fence.** -/
theorem fenceLoop_iff {n : Nat} (hwidth : 1 ≤ width) (claims : List Units) {copied : Nat}
    (hcopied : copied ≤ n) : fenceLoop source width (spans source width) n copied claims = true ↔
      (∃ claim ∈ claims, HoldsSource source claim) ∨
        n < copied + (claims.map fun claim => copiedOf source claim width).sum := by
  induction claims generalizing copied with
  | nil =>
      refine iff_of_false (fun h => by cases h) ?_
      rintro (⟨claim, hclaim, -⟩ | h)
      · cases hclaim
      · simp only [List.map_nil, List.sum_nil] at h
        omega
  | cons claim claims ih =>
      rw [fenceLoop, List.map_cons, List.sum_cons]
      by_cases hempty : (normalizedVerbatim claim).length = 0
      · rw [if_pos hempty, ih hcopied]
        have hnil : normalizedVerbatim claim = [] := List.length_eq_zero_iff.mp hempty
        have hnone : copiedOf source claim width = 0 := by
          unfold copiedOf
          rw [hnil, if_pos (List.nil_infix)]
          rfl
        have hnot : ¬ HoldsSource source claim := fun h => h.1 hnil
        rw [hnone, Nat.zero_add]
        refine or_congr_left ?_
        rw [List.exists_mem_cons_iff]
        exact (or_iff_right hnot).symm
      rw [if_neg hempty]
      have hne : normalizedVerbatim claim ≠ [] := fun h => hempty (List.length_eq_zero_iff.mpr h)
      by_cases hwhole : source <:+: normalizedVerbatim claim
      · have hholds : ∃ c ∈ claim :: claims, HoldsSource source c :=
          ⟨claim, List.mem_cons_self, hne, hwhole⟩
        refine iff_of_true ?_ (Or.inl hholds)
        split
        · rfl
        · rfl
      have hsame : normalizedVerbatim claim ≠ source := fun h => hwhole (h ▸ List.infix_rfl)
      have hcount : copiedSpanCharacters source (normalizedVerbatim claim) width
          (spans source width) = copiedOf source claim width :=
        copiedSpanCharacters_eq source _ hwidth
      rw [if_neg hsame, if_neg hwhole, hcount]
      have hiff : (∃ c ∈ claim :: claims, HoldsSource source c) ↔
          ∃ c ∈ claims, HoldsSource source c := by
        rw [List.exists_mem_cons_iff]
        exact or_iff_right fun h => hwhole h.2
      rw [hiff]
      by_cases hover : n < copied + copiedOf source claim width
      · rw [if_pos hover]
        exact iff_of_true rfl (Or.inr (by omega))
      · rw [if_neg hover, ih (Nat.not_lt.mp hover), Nat.add_assoc]

/-- **When a batch is over the fence.** -/
theorem exceeds_iff (claims : List Units) (n : Nat) : exceedsVerbatimFence source claims n = true ↔
      normalizedVerbatim source ≠ [] ∧
        ((∃ claim ∈ claims, HoldsSource (normalizedVerbatim source) claim) ∨
          n < (claims.map fun claim =>
            copiedOf (normalizedVerbatim source) claim (spanLengthFor n)).sum) := by
  unfold exceedsVerbatimFence
  by_cases hempty : (normalizedVerbatim source).length = 0
  · rw [if_pos hempty]
    exact iff_of_false (fun h => by cases h) fun h => h.1 (List.length_eq_zero_iff.mp hempty)
  · rw [if_neg hempty, fenceLoop_iff _ (spanLength_pos n) claims (Nat.zero_le n), Nat.zero_add]
    exact (and_iff_right fun h => hempty (List.length_eq_zero_iff.mpr h)).symm

/-! ## The fence -/

/-- **A batch within the allowance**: no statement has a part of the source longer than the
    allowance, none has the whole source in it unless the source is empty, and what all statements
    copy in parts of four or of one more than the allowance comes to no more than it. -/
structure Within (source : Units) (claims : List Units) (n : Nat) : Prop where
  short : ∀ claim ∈ claims, ∀ part, part <:+: normalizedVerbatim claim →
    part <:+: normalizedVerbatim source → part.length ≤ n
  notWhole : normalizedVerbatim source ≠ [] → ∀ claim ∈ claims, normalizedVerbatim claim ≠ [] →
    normalizedVerbatim claim ≠ normalizedVerbatim source ∧
      ¬ normalizedVerbatim source <:+: normalizedVerbatim claim
  total : (claims.map fun claim =>
    covered (normalizedVerbatim source) (normalizedVerbatim claim) (min 4 (n + 1))).sum ≤ n

variable {claims : List Units}

theorem sum_le_sum {f g : Units → Nat} (h : ∀ claim, f claim ≤ g claim) :
    (claims.map f).sum ≤ (claims.map g).sum := by
  induction claims with
  | nil => exact Nat.le_refl _
  | cons claim claims ih =>
      exact Nat.add_le_add (h claim) ih

theorem le_sum_of_mem {f : Units → Nat} {claim : Units} (h : claim ∈ claims) :
    f claim ≤ (claims.map f).sum := by
  induction claims with
  | nil => cases h
  | cons c claims ih =>
      rcases List.mem_cons.mp h with rfl | h
      · exact Nat.le_add_right _ _
      · exact (ih h).trans (Nat.le_add_left _ _)

theorem sum_le_of_sublist {claims' : List Units} (f : Units → Nat) (h : claims.Sublist claims') :
    (claims.map f).sum ≤ (claims'.map f).sum := by
  induction h with
  | slnil => exact Nat.le_refl _
  | cons claim _ ih =>
      exact ih.trans (Nat.le_add_left _ _)
  | cons_cons claim _ ih =>
      exact Nat.add_le_add_left ih _

theorem covered_nil (text : Units) (hwidth : 1 ≤ width) : covered ([] : Units) text width = 0 := by
  unfold covered
  rw [List.length_eq_zero_iff, List.filter_eq_nil_iff]
  intro i _ hi
  obtain ⟨offset, -, -, hlen, hpart⟩ := (covered_iff_window hwidth).mp (of_decide_eq_true hi)
  have hle := hpart.length_le
  rw [length_slice hlen, List.length_nil] at hle
  omega

theorem within_of_not_exceeds {source : Units} {n : Nat}
    (h : exceedsVerbatimFence source claims n = false) : Within source claims n := by
  have hnot : ¬ exceedsVerbatimFence source claims n = true := by
    rw [h]
    exact Bool.false_ne_true
  rw [exceeds_iff] at hnot
  by_cases hempty : normalizedVerbatim source = []
  · refine ⟨?_, fun hne => absurd hempty hne, ?_⟩
    · intro claim _ part _ hpart
      rw [hempty] at hpart
      rw [List.infix_nil.mp hpart]
      exact Nat.zero_le n
    · have hzero : (claims.map fun claim => covered (normalizedVerbatim source)
          (normalizedVerbatim claim) (min 4 (n + 1))) = claims.map fun _ => 0 := by
        refine List.map_congr_left fun claim _ => ?_
        rw [hempty]
        exact covered_nil _ (by omega)
      rw [hzero]
      simp
  have hnot := not_or.mp fun h => hnot ⟨hempty, h⟩
  obtain ⟨hholds, hsum⟩ := hnot
  rw [spanLength_eq] at hsum
  have hsum := Nat.not_lt.mp hsum
  refine ⟨?_, ?_, ?_⟩
  · intro claim hclaim part hpart hsource
    by_contra hlong
    have hwidth : min 4 (n + 1) ≤ part.length := by omega
    have hcovered := length_le_covered hpart hsource hwidth
    have hone := covered_le_copiedOf (normalizedVerbatim source) claim (min 4 (n + 1))
    have hall := le_sum_of_mem
      (f := fun claim => copiedOf (normalizedVerbatim source) claim (min 4 (n + 1))) hclaim
    omega
  · intro _ claim hclaim hne
    have hpart : ¬ normalizedVerbatim source <:+: normalizedVerbatim claim :=
      fun hpart => hholds ⟨claim, hclaim, hne, hpart⟩
    exact ⟨fun hsame => hpart (hsame ▸ List.infix_rfl), hpart⟩
  · exact (sum_le_sum fun claim => covered_le_copiedOf _ claim _).trans hsum

/-- **The verbatim fence is sound**, and no batch comes within it by another claim or by
    a lower allowance. -/
theorem verbatimFence_sound (source : Units) (claims : List Units) (n : Nat) :
    (exceedsVerbatimFence source claims n = false → Within source claims n) ∧
    (∀ claims', claims.Sublist claims' → exceedsVerbatimFence source claims n = true →
      exceedsVerbatimFence source claims' n = true) ∧
    (∀ n' ≤ n, exceedsVerbatimFence source claims n = true →
      exceedsVerbatimFence source claims n' = true) := by
  refine ⟨within_of_not_exceeds, ?_, ?_⟩
  · intro claims' hsub h
    obtain ⟨hne, h⟩ := (exceeds_iff source claims n).mp h
    refine (exceeds_iff source claims' n).mpr ⟨hne, h.imp ?_ ?_⟩
    · rintro ⟨claim, hclaim, hholds⟩
      exact ⟨claim, hsub.subset hclaim, hholds⟩
    · exact fun hsum => hsum.trans_le (sum_le_of_sublist _ hsub)
  · intro n' hn h
    obtain ⟨hne, h⟩ := (exceeds_iff source claims n).mp h
    refine (exceeds_iff source claims n').mpr ⟨hne, h.imp id fun hsum => ?_⟩
    have hwidth : spanLengthFor n' ≤ spanLengthFor n := by
      rw [spanLength_eq, spanLength_eq]
      omega
    calc n' ≤ n := hn
      _ < (claims.map fun claim =>
            copiedOf (normalizedVerbatim source) claim (spanLengthFor n)).sum := hsum
      _ ≤ _ := sum_le_sum fun claim => copiedOf_anti _ claim hwidth

def plain (text : String) : Units := text.toList.map Char.toNat

/-- An empty source fences nothing, though every statement has it in it. -/
theorem emptySource_contained :
    ¬ ∀ (source : Units) (claims : List Units) (n : Nat),
      exceedsVerbatimFence source claims n = false →
        ∀ claim ∈ claims, normalizedVerbatim claim ≠ [] →
          normalizedVerbatim claim ≠ normalizedVerbatim source ∧
            ¬ normalizedVerbatim source <:+: normalizedVerbatim claim := by
  intro h
  refine (h (plain "") [plain "Prices rose."] 200 (by decide +kernel) _
    (List.mem_singleton_self _) (by decide +kernel)).2 ?_
  exact List.nil_infix

/-- Seven characters in common are within an allowance of twelve. -/
theorem verbatimFence_sound_reworded :
    Within (plain "Prices  rose in May.") [plain "In May they rose"] 12 :=
  (verbatimFence_sound _ _ _).1 (by decide +kernel)

end VerbatimFence
