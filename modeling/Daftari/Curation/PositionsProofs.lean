import Daftari.Frontmatter.SchemaProofs
import Daftari.Lib.SortProofs

/-! # Positions — one document, many principals

    A claim document carries one entry per position taken on it.  An entry is
    never edited by anyone but its principal: a principal revises a position by
    appending a new entry, and the old one is marked as superseded by it.

    * `kept_of_no_violation`, `applyAssert_kept`: **both rules keep it**. -/

namespace Positions

open Frontmatter

/-! ## Ids -/

/-- `/^pos-(\d+)$/`: the number of an id. -/
def idNumber (id : String) : Option Nat :=
  if isPositionId id then digits (id.toList.drop 4) else none

/-- `pos-NNN`, padded to three digits. -/
def positionId (n : Nat) : String :=
  let ds := Nat.toDigits 10 n
  String.ofList ("pos-".toList ++ List.replicate (3 - ds.length) '0' ++ ds)

/-- `nextPositionId`: one more than the highest number in use. -/
def nextPositionId (existing : List Position) : String :=
  positionId ((existing.filterMap fun p => idNumber p.id).foldl max 0 + 1)

/-! ## The live set -/

def unsuperseded (positions : List Position) : List Position :=
  positions.filter fun p => p.supersededBy.isNone

/-- `legacySnapshot`: the belief a document held before its first position. -/
def legacySnapshot (fm : Fields) : Position where
  id := "pos-000"
  principal := "unknown"
  stance := .assert
  statement := none
  confidence := fm.confidence
  provenance := fm.provenance
  validFrom := fm.validFrom
  supersededBy := none
  created := fm.updated
  sources := []

def isContested (positions : List Position) : Bool :=
  let live := unsuperseded positions
  live.any (fun p => p.stance = .assert) && live.any (fun p => p.stance = .dispute)

/-- The stance a stance opposes; `qualify` opposes nothing. -/
def opposite : Stance → Option Stance
  | .assert => some .dispute
  | .dispute => some .assert
  | .qualify => none

/-- `CONFIDENCES.indexOf`. -/
def confidenceIndex : Confidence → Nat
  | .low => 0
  | .medium => 1
  | .high => 2

/-- `comparePositions`: confidence first, then the newer, then by id. -/
def comparePositions (a b : Position) : Ordering :=
  if confidenceIndex a.confidence ≠ confidenceIndex b.confidence then
    compare (confidenceIndex b.confidence) (confidenceIndex a.confidence)
  else if a.created ≠ b.created then
    if Text.lt a.created b.created then .gt else .lt
  else if Text.lt a.id b.id then .lt
  else if Text.lt b.id a.id then .gt
  else .eq

def dissentIds (positions : List Position) (stance : Stance) : List String :=
  match opposite stance with
  | none => []
  | some other =>
      (Stable.sort comparePositions
        ((unsuperseded positions).filter fun p => p.stance = other)).map Position.id

/-! ## Asserting -/

structure AssertInput where
  principal : String
  stance : Stance
  statement : Option String
  confidence : Confidence
  provenance : Provenance
  validFrom : Option String
  sources : List String
  created : String

def newPosition (existing : List Position) (input : AssertInput) : Position where
  id := nextPositionId existing
  principal := input.principal
  stance := input.stance
  statement := input.statement
  confidence := input.confidence
  provenance := input.provenance
  validFrom := input.validFrom
  supersededBy := none
  created := input.created
  sources := input.sources

def revise (existing : List Position) (input : AssertInput) (p : Position) : Position :=
  if p.principal = input.principal ∧ p.supersededBy = none then
    { p with supersededBy := some (nextPositionId existing) }
  else p

def applyAssert (existing : List Position) (input : AssertInput) : List Position :=
  existing.map (revise existing input) ++ [newPosition existing input]

/-! ## The guard -/

/-- `new Map(incoming.map((p) => [p.id, p]))`: of two entries with one id the later one wins. -/
def byId (positions : List Position) (id : String) : Option Position :=
  positions.reverse.find? fun p => p.id = id

theorem mem_of_byId {positions : List Position} {id : String} {p : Position}
    (h : byId positions id = some p) : p ∈ positions ∧ p.id = id :=
  Assoc.mem_of_lastBy h

/-- What the guard says about one entry. -/
def violation (incoming : List Position) (old : Position) : Option String :=
  match byId incoming old.id with
  | none =>
      some ("update removes position " ++ old.id ++ " held by '" ++ old.principal ++ "'")
  | some next =>
      let successor := next.supersededBy.bind (byId incoming)
      if old = next then none
      else if old = { next with supersededBy := old.supersededBy }
          ∧ old.supersededBy = none
          ∧ successor.any (fun q => q.principal = old.principal) then none
      else
        some ("update alters position " ++ old.id ++ " held by '" ++ old.principal
          ++ "'")

/-- `foreignPositionViolation`: the first violation of another principal's entries, or none. -/
def foreignPositionViolation (before : List Position) (after : Option (List Position))
    (user : String) : Option String :=
  (before.filter fun p => p.principal ≠ user).findSome? (violation (after.getD []))

/-! ## What the rules are for -/

/-- An entry is still present unchanged, or its only change is that it is now
    superseded by an entry of its own principal. -/
def Kept (user : String) (before after : List Position) : Prop :=
  ∀ p ∈ before, p.principal ≠ user →
    p ∈ after ∨ (p.supersededBy = none ∧ ∃ q ∈ after, q.principal = p.principal
      ∧ { p with supersededBy := some q.id } ∈ after)

theorem Kept.refl (user : String) (l : List Position) : Kept user l l := by
  intro p hp _
  exact Or.inl hp

theorem Kept.nil (user : String) (l : List Position) : Kept user [] l := by
  intro p hp
  cases hp

theorem kept_of_violation_none {incoming : List Position} {old : Position}
    (h : violation incoming old = none) :
    old ∈ incoming ∨ (old.supersededBy = none ∧ ∃ q ∈ incoming, q.principal = old.principal
        ∧ { old with supersededBy := some q.id } ∈ incoming) := by
  unfold violation at h
  cases hnext : byId incoming old.id with
  | none =>
      rw [hnext] at h
      cases h
  | some next =>
      obtain ⟨hmem, _⟩ := mem_of_byId hnext
      rw [hnext] at h
      dsimp only at h
      split at h
      · rename_i hsame
        left
        rw [hsame]
        exact hmem
      · split at h
        · rename_i hne hrule
          obtain ⟨honly, hnull, hsucc⟩ := hrule
          right
          refine ⟨hnull, ?_⟩
          cases hs : next.supersededBy with
          | none =>
              rw [hs] at hsucc
              simp at hsucc
          | some sid =>
              rw [hs, Option.bind_some] at hsucc
              cases hq : byId incoming sid with
              | none =>
                  rw [hq] at hsucc
                  simp at hsucc
              | some q =>
                  obtain ⟨hqmem, hqid⟩ := mem_of_byId hq
                  rw [hq] at hsucc
                  refine ⟨q, hqmem, by simpa using hsucc, ?_⟩
                  have hnew : { old with supersededBy := some q.id } = next := by
                    rw [honly, hqid, ← hs]
                  rw [hnew]
                  exact hmem
        · cases h

/-- **An update the guard lets pass keeps every foreign entry.** -/
theorem kept_of_no_violation {before : List Position} {after : Option (List Position)}
    {user : String} (h : foreignPositionViolation before after user = none) :
    Kept user before (after.getD []) := by
  intro p hp hforeign
  unfold foreignPositionViolation at h
  rw [List.findSome?_eq_none_iff] at h
  refine kept_of_violation_none (h p ?_)
  exact List.mem_filter.mpr ⟨hp, decide_eq_true hforeign⟩

/-- **An assert keeps every entry of the other principals**, and a reader that
    drops ill-formed entries still finds them. -/
theorem applyAssert_kept (existing : List Position) (input : AssertInput)
    (keep : Position → Bool) (hkeep : ∀ p ∈ existing, keep p = true) :
    Kept input.principal existing ((applyAssert existing input).filter keep) := by
  intro p hp hforeign
  left
  refine List.mem_filter.mpr ⟨?_, hkeep p hp⟩
  refine List.mem_append_left _ (List.mem_map.mpr ⟨p, hp, ?_⟩)
  unfold revise
  rw [if_neg]
  rintro ⟨he, _⟩
  exact hforeign he

/-! ## Over a run of writes -/

/-- Every entry is still there up to its superseded-by mark. -/
def Carried (before after : List Position) : Prop :=
  ∀ p ∈ before, ∃ p' ∈ after, { p' with supersededBy := p.supersededBy } = p

theorem Carried.refl (l : List Position) : Carried l l := by
  intro p hp
  exact ⟨p, hp, rfl⟩

theorem Carried.trans {a b c : List Position} (hab : Carried a b) (hbc : Carried b c) :
    Carried a c := by
  intro p hp
  obtain ⟨q, hq, hpq⟩ := hab p hp
  obtain ⟨r, hr, hqr⟩ := hbc q hq
  refine ⟨r, hr, ?_⟩
  rw [← hpq, ← hqr]

/-- **An assert carries every entry on**, its own principal's included. -/
theorem applyAssert_carried (existing : List Position) (input : AssertInput)
    (keep : Position → Bool)
    (hmark : ∀ p s, keep { p with supersededBy := s } = keep p)
    (hkeep : ∀ p ∈ existing, keep p = true) :
    Carried existing ((applyAssert existing input).filter keep) := by
  intro p hp
  refine ⟨revise existing input p, List.mem_filter.mpr ⟨?_, ?_⟩, ?_⟩
  · exact List.mem_append_left _ (List.mem_map_of_mem hp)
  · unfold revise
    split
    · rw [hmark]
      exact hkeep p hp
    · exact hkeep p hp
  · unfold revise
    split <;> rfl

end Positions
