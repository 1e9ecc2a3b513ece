import Daftari.Distill.StateProofs
import Mathlib.Data.List.Pairwise

/-! # The join — whom a claim overwrites

    A claim whose key has landed is skipped.  Any other is aimed at the landed document that shares
    its stem, the key without its hash, if there is exactly one.  Claims are joined one by one, so
    two claims of one stem are aimed at the same document, and so is a claim beside a skipped one.

    * `joinClaims`, `ClaimAction.landedPath`: what is aimed at what;
    * `landedPath_eq_some_iff`: when a claim is aimed at a path;
    * `joinClaims_apart_iff`: **no two claims are aimed at one document exactly where no two share
      such a stem**. -/

namespace Distill

def joinClaims (landed : Table String String) (claims : List ExtractedClaim) : List ClaimAction :=
  claims.map (joinClaim landed)

def ClaimAction.landedPath : ClaimAction → Option String
  | .skip _ path => some path
  | .update _ path => some path
  | .new _ => none

def ClaimAction.overwrites : ClaimAction → Option String
  | .skip _ _ => none
  | .update _ path => some path
  | .new _ => none

/-- **No two claims are aimed at one document**: the assigned paths are distinct, so
    each document is overwritten by one claim at most and that of a skipped claim by
    none; and what has landed is skipped. -/
structure AimsApart (landed : Table String String) (claims : List ExtractedClaim) : Prop where
  apart : ((joinClaims landed claims).filterMap ClaimAction.landedPath).Nodup
  once : ∀ path, ((joinClaims landed claims).filter
    fun action => action.overwrites = some path).length ≤ 1
  kept : ∀ claim path, .skip claim path ∈ joinClaims landed claims →
    ∀ action ∈ joinClaims landed claims, action.overwrites ≠ some path
  exact : ∀ claim ∈ claims, ∀ path, landed.find claim.key = some path →
    joinClaim landed claim = .skip claim path

/-- No two claims share a stem that exactly one landed key has. -/
def StemsApart (landed : Table String String) (claims : List ExtractedClaim) : Prop :=
  ∀ c ∈ claims, ∀ c' ∈ claims, c.key ≠ c'.key → claimKeyStem c.key = claimKeyStem c'.key →
    (siblings landed c.key).length ≠ 1

variable {landed : Table String String}

variable {claim : ExtractedClaim} {path : String}

theorem joinClaim_of_landed (h : landed.find claim.key = some path) :
    joinClaim landed claim = .skip claim path := by
  unfold joinClaim
  rw [h]

theorem joinClaim_of_sibling (h : landed.find claim.key = none)
    (hs : siblings landed claim.key = [path]) : joinClaim landed claim = .update claim path := by
  unfold joinClaim
  rw [h]
  rw [hs]

theorem joinClaim_of_others (h : landed.find claim.key = none)
    (hs : ∀ path, siblings landed claim.key ≠ [path]) : joinClaim landed claim = .new claim := by
  unfold joinClaim
  rw [h]
  dsimp only
  split
  · rename_i path hpath
    exact absurd hpath (hs path)
  · rfl

theorem joinClaim_cases (landed : Table String String) (claim : ExtractedClaim) :
    (∃ path, landed.find claim.key = some path ∧ joinClaim landed claim = .skip claim path) ∨
    (∃ path, landed.find claim.key = none ∧ siblings landed claim.key = [path] ∧
      joinClaim landed claim = .update claim path) ∨
    (landed.find claim.key = none ∧ (∀ path, siblings landed claim.key ≠ [path]) ∧
      joinClaim landed claim = .new claim) := by
  cases hfind : landed.find claim.key with
  | some path => exact Or.inl ⟨path, rfl, joinClaim_of_landed hfind⟩
  | none =>
      right
      by_cases hs : ∃ path, siblings landed claim.key = [path]
      · obtain ⟨path, hs⟩ := hs
        exact Or.inl ⟨path, rfl, hs, joinClaim_of_sibling hfind hs⟩
      · have hs : ∀ path, siblings landed claim.key ≠ [path] := fun path h => hs ⟨path, h⟩
        exact Or.inr ⟨rfl, hs, joinClaim_of_others hfind hs⟩

theorem landedPath_eq_some_iff : (joinClaim landed claim).landedPath = some path ↔
      landed.find claim.key = some path ∨
        landed.find claim.key = none ∧ siblings landed claim.key = [path] := by
  rcases joinClaim_cases landed claim with ⟨p, hfind, hjoin⟩ | ⟨p, hfind, hs, hjoin⟩ |
    ⟨hfind, hs, hjoin⟩
  · rw [hjoin, hfind]
    simp [ClaimAction.landedPath]
  · rw [hjoin, hfind, hs]
    simp [ClaimAction.landedPath]
  · rw [hjoin, hfind]
    simp [ClaimAction.landedPath, hs path]

theorem landedPath_of_overwrites {action : ClaimAction} (h : action.overwrites = some path) :
    action.landedPath = some path := by
  cases action with
  | skip claim p => cases h
  | update claim p => exact h
  | new claim => cases h

theorem mem_siblings {key : String} : path ∈ siblings landed key ↔
      ∃ k, (k, path) ∈ landed.entries ∧ claimKeyStem k = claimKeyStem key := by
  unfold siblings
  rw [List.mem_map]
  constructor
  · rintro ⟨⟨k, p⟩, hmem, rfl⟩
    obtain ⟨hmem, hstem⟩ := List.mem_filter.mp hmem
    exact ⟨k, hmem, of_decide_eq_true hstem⟩
  · rintro ⟨k, hmem, hstem⟩
    exact ⟨(k, path), List.mem_filter.mpr ⟨hmem, decide_eq_true hstem⟩, rfl⟩

theorem siblings_congr {key key' : String} (h : claimKeyStem key = claimKeyStem key') :
    siblings landed key = siblings landed key' := by
  unfold siblings
  rw [h]

theorem key_of_path (hpaths : (landed.entries.map Prod.snd).Nodup) {k k' : String}
    (h : (k, path) ∈ landed.entries) (h' : (k', path) ∈ landed.entries) : k = k' :=
  (Prod.mk.inj (List.inj_on_of_nodup_map hpaths h h' rfl)).1

theorem exists_key_of_path (h : (joinClaim landed claim).landedPath = some path) :
    ∃ k, (k, path) ∈ landed.entries ∧ claimKeyStem k = claimKeyStem claim.key ∧
      (k = claim.key ∨ siblings landed claim.key = [path]) := by
  rcases landedPath_eq_some_iff.mp h with hfind | ⟨-, hs⟩
  · exact ⟨claim.key, Table.mem_entries.mpr hfind, rfl, Or.inl rfl⟩
  · obtain ⟨k, hk, hstem⟩ := mem_siblings.mp (hs ▸ List.mem_singleton_self path)
    exact ⟨k, hk, hstem, Or.inr hs⟩

/-- **Two claims aimed at one path share a stem that one landed key has.** -/
theorem stem_of_same_path (hpaths : (landed.entries.map Prod.snd).Nodup) {c c' : ExtractedClaim}
    (hne : c.key ≠ c'.key) (h : (joinClaim landed c).landedPath = some path)
    (h' : (joinClaim landed c').landedPath = some path) :
    claimKeyStem c.key = claimKeyStem c'.key ∧ siblings landed c.key = [path] := by
  obtain ⟨k, hk, hstem, hsib⟩ := exists_key_of_path h
  obtain ⟨k', hk', hstem', hsib'⟩ := exists_key_of_path h'
  obtain rfl := key_of_path hpaths hk hk'
  have hsame : claimKeyStem c.key = claimKeyStem c'.key := hstem.symm.trans hstem'
  refine ⟨hsame, ?_⟩
  rcases hsib with rfl | hsib
  · rcases hsib' with hk' | hsib'
    · exact absurd hk' hne
    · rw [siblings_congr hsame]
      exact hsib'
  · exact hsib

theorem landedPath_of_sibling (h : siblings landed claim.key = [path]) :
    (joinClaim landed claim).landedPath = some path := by
  refine landedPath_eq_some_iff.mpr ?_
  cases hfind : landed.find claim.key with
  | none => exact Or.inr ⟨rfl, h⟩
  | some p =>
      have hmem : p ∈ siblings landed claim.key :=
        mem_siblings.mpr ⟨claim.key, Table.mem_entries.mpr hfind, rfl⟩
      rw [h] at hmem
      exact Or.inl (congrArg some (List.mem_singleton.mp hmem))

theorem apart_of_nodup_filterMap {α β : Type*} {f : α → Option β} {l : List α}
    (h : (l.filterMap f).Nodup) {a a' : α} (ha : a ∈ l) (ha' : a' ∈ l) (hne : a ≠ a') {b : β}
    (hb : f a = some b) : f a' ≠ some b := by
  unfold List.Nodup at h
  rw [List.pairwise_filterMap] at h
  have hsymm : Std.Symm fun x y => ∀ u, f x = some u → ∀ v, f y = some v → u ≠ v :=
    ⟨fun _ _ hxy u hu v hv => (hxy v hv u hu).symm⟩
  exact fun hb' => h.forall ha ha' hne b hb b hb' rfl

theorem nodup_landedPaths_iff {claims : List ExtractedClaim}
    (hpaths : (landed.entries.map Prod.snd).Nodup) (hkeys : (claims.map ExtractedClaim.key).Nodup) :
    ((joinClaims landed claims).filterMap ClaimAction.landedPath).Nodup
      ↔ StemsApart landed claims := by
  have hdistinct : claims.Pairwise fun c c' => c.key ≠ c'.key := List.pairwise_map.mp hkeys
  unfold joinClaims
  rw [List.filterMap_map]
  constructor
  · intro h c hc c' hc' hne hstem hone
    obtain ⟨path, hpath⟩ := List.length_eq_one_iff.mp hone
    have hpath' : siblings landed c'.key = [path] := siblings_congr hstem ▸ hpath
    have hclaims : c ≠ c' := fun heq => hne (congrArg ExtractedClaim.key heq)
    exact apart_of_nodup_filterMap h hc hc' hclaims (landedPath_of_sibling hpath)
      (landedPath_of_sibling hpath')
  · intro h
    rw [List.Nodup, List.pairwise_filterMap]
    refine hdistinct.imp_of_mem fun {c c'} hc hc' hne path hpath path' hpath' heq => ?_
    subst heq
    obtain ⟨hstem, hs⟩ := stem_of_same_path hpaths hne hpath hpath'
    exact h c hc c' hc' hne hstem (by rw [hs]; rfl)

/-- **When no two claims are aimed at one document.** -/
theorem joinClaims_apart_iff (landed : Table String String) (claims : List ExtractedClaim)
    (hpaths : (landed.entries.map Prod.snd).Nodup)
    (hkeys : (claims.map ExtractedClaim.key).Nodup) :
    AimsApart landed claims ↔ StemsApart landed claims := by
  rw [← nodup_landedPaths_iff hpaths hkeys]
  refine ⟨AimsApart.apart, fun h => ⟨h, fun path => ?_, ?_, fun c _ path => joinClaim_of_landed⟩⟩
  · unfold List.Nodup at h
    rw [List.pairwise_filterMap] at h
    cases hl : (joinClaims landed claims).filter fun action => action.overwrites = some path with
    | nil => exact Nat.zero_le _
    | cons x rest =>
        cases rest with
        | nil => exact Nat.le_refl _
        | cons y rest =>
            have hover : ∀ action ∈ x :: y :: rest, action.landedPath = some path := by
              intro action haction
              rw [← hl] at haction
              exact landedPath_of_overwrites (of_decide_eq_true (List.mem_filter.mp haction).2)
            have hsub := h.sublist (hl ▸ List.filter_sublist)
            have hapart := (List.pairwise_cons.mp hsub).1 y List.mem_cons_self
            exact absurd rfl (hapart path (hover x List.mem_cons_self) path
              (hover y (List.mem_cons_of_mem _ List.mem_cons_self)))
  · intro claim path hskip action haction hover
    have hne : ClaimAction.skip claim path ≠ action := by
      rintro rfl
      cases hover
    exact apart_of_nodup_filterMap h hskip haction hne rfl (landedPath_of_overwrites hover)

def landedPrice : Table String String :=
  Table.set .empty "1:1:prices-rose-11111111" "notes/prices-rose.md"

def statedClaim (key statement : String) : ExtractedClaim := ⟨key, statement, statement, none⟩

/-- Two wordings of one slug overwrite the same document. -/
theorem twice_overwritten : ¬ AimsApart landedPrice
    [statedClaim "1:1:prices-rose-22222222" "Prices rose.",
      statedClaim "1:1:prices-rose-33333333" "Prices rose!"] := by
  intro h
  exact absurd (h.once "notes/prices-rose.md") (by decide +kernel)

/-- One wording beside another claim does not. -/
theorem joinClaims_apart_iff_once : AimsApart landedPrice
    [statedClaim "1:1:prices-rose-22222222" "Prices rose.",
      statedClaim "1:1:wages-fell-33333333" "Wages fell."] := by
  refine (joinClaims_apart_iff landedPrice _ (by decide +kernel) (by decide +kernel)).mpr ?_
  unfold StemsApart
  decide +kernel

end Distill
