import Daftari.Curation.PositionsProofs
import Daftari.Lib.NumberedIdsProofs

/-! # Runs of asserts — what the position set of a document is always like

    `applyAssert` allocates an id, supersedes the caller's live entry and
    appends a new one; `chainEnd` walks the superseded-by links; `isContested`
    reads the live entries.  They agree because of one invariant.

    * `applyAssert_ok`: **one assert keeps `PositionsOk`**;
    * `chainEnd_ok`, `isContested_ok`: what the readers make of it;
    * `assertRun_standing`: **every run of asserts**. -/

namespace Positions

open Frontmatter

/-! ## Following a chain of revisions -/

/-- The loop of `chainEnd` at `cur`; `seen` are the ids it has been at. -/
def chainWalk (positions : List Position) : Nat → List String → Position → Option Position
  | 0, _, _ => none
  | fuel + 1, seen, cur =>
      -- an empty id is falsy, so the walk stops at it as at no id
      match cur.supersededBy.filter (· ≠ "") with
      | none => some cur
      | some id =>
          match byId positions id with
          | none => none
          | some next =>
              if next.id ∈ seen then none
              else chainWalk positions fuel (next.id :: seen) next

/-- `chainEnd`: the unsuperseded end of an entry's chain; nothing on an unknown
    id, a dangling link or a loop. -/
def chainEnd (positions : List Position) (id : String) : Option Position :=
  (byId positions id).bind fun cur =>
    chainWalk positions (positions.length + 1) [cur.id] cur

/-- **The fuel of `chainEnd` is enough**: every round sees an id more, and there
    are only as many as there are entries. -/
theorem chainWalk_enough (positions : List Position) (more fuel : Nat)
    (seen : List String) (cur : Position) (hseen : seen.Nodup)
    (hsub : seen ⊆ positions.map Position.id) (hfuel : positions.length < fuel + seen.length) :
    chainWalk positions (fuel + more) seen cur = chainWalk positions fuel seen cur := by
  induction fuel generalizing seen cur with
  | zero =>
      have hle := (List.subperm_of_subset hseen hsub).length_le
      rw [List.length_map] at hle
      omega
  | succ fuel ih =>
      rw [Nat.add_right_comm]
      unfold chainWalk
      cases hs : cur.supersededBy.filter (· ≠ "") with
      | none => rfl
      | some id =>
          cases hn : byId positions id with
          | none => simp only [hn]
          | some next =>
              simp only [hn]
              by_cases hmem : next.id ∈ seen
              · rw [if_pos hmem, if_pos hmem]
              · rw [if_neg hmem, if_neg hmem]
                refine ih _ _ (List.nodup_cons.mpr ⟨hmem, hseen⟩) ?_ ?_
                · refine List.cons_subset.mpr ⟨?_, hsub⟩
                  exact List.mem_map_of_mem (mem_of_byId hn).1
                · rw [List.length_cons]
                  omega

/-! ## Ids -/

theorem toList_positionId (n : Nat) :
    (positionId n).toList = "pos-".toList ++ NumberedIds.padded n := by
  unfold positionId NumberedIds.padded
  rw [String.toList_ofList, List.append_assoc]

theorem isPositionId_positionId (n : Nat) : isPositionId (positionId n) = true := by
  have hlist : (positionId n).toList = 'p' :: 'o' :: 's' :: '-' :: NumberedIds.padded n :=
    toList_positionId n
  have hall : (NumberedIds.padded n).all Char.isDigit = true :=
    List.all_eq_true.mpr (NumberedIds.isDigit_padded n)
  unfold isPositionId
  rw [hlist]
  simp [NumberedIds.padded_ne_nil, hall]

theorem idNumber_positionId (n : Nat) : idNumber (positionId n) = some n := by
  unfold idNumber
  rw [if_pos (isPositionId_positionId n), toList_positionId]
  exact NumberedIds.numberOf_padded n

theorem nextPositionId_eq (existing : List Position) : nextPositionId existing =
      positionId (NumberedIds.nextNumber idNumber (existing.map Position.id)) := by
  unfold nextPositionId NumberedIds.nextNumber
  rw [List.filterMap_map]
  rfl

/-- **A new id is not in use.** -/
theorem nextPositionId_fresh (existing : List Position) :
    nextPositionId existing ∉ existing.map Position.id := by
  rw [nextPositionId_eq]
  exact NumberedIds.nextNumber_fresh idNumber_positionId

theorem nextPositionId_ne_empty (existing : List Position) :
    nextPositionId existing ≠ "" := by
  intro h
  have hid := isPositionId_positionId
    (NumberedIds.nextNumber idNumber (existing.map Position.id))
  rw [← nextPositionId_eq, h] at hid
  cases hid

/-! ## What one assert does -/

section Assert

variable (existing : List Position) (input : AssertInput)

@[simp] theorem revise_id (p : Position) : (revise existing input p).id = p.id := by
  unfold revise
  split <;> rfl

@[simp] theorem revise_principal (p : Position) :
    (revise existing input p).principal = p.principal := by
  unfold revise
  split <;> rfl

/-- **An assert changes no field** of an entry of another principal. -/
theorem revise_foreign {p : Position} (h : p.principal ≠ input.principal) :
    revise existing input p = p := by
  unfold revise
  rw [if_neg]
  rintro ⟨hp, _⟩
  exact h hp

theorem applyAssert_foreign {i : Nat} {p : Position} (hi : existing[i]? = some p)
    (h : p.principal ≠ input.principal) : (applyAssert existing input)[i]? = some p := by
  obtain ⟨hlt, _⟩ := List.getElem?_eq_some_iff.mp hi
  unfold applyAssert
  rw [List.getElem?_append_left (by rw [List.length_map]; exact hlt), List.getElem?_map, hi,
    Option.map_some, revise_foreign existing input h]

theorem ids_applyAssert : (applyAssert existing input).map Position.id =
    existing.map Position.id ++ [nextPositionId existing] := by
  unfold applyAssert
  rw [List.map_append, List.map_map]
  congr 1
  refine List.map_congr_left ?_
  intro p _
  exact revise_id existing input p

theorem filter_revise {keep : Position → Bool}
    (hkeep : ∀ p, keep p = true → p.principal ≠ input.principal) (l : List Position) :
    (l.map (revise existing input)).filter keep = l.filter keep := by
  induction l with
  | nil => rfl
  | cons p l ih =>
      rw [List.map_cons, List.filter_cons, List.filter_cons, ih]
      by_cases hp : p.principal = input.principal
      · have hold : keep p = false := by
          by_contra h
          exact hkeep p (by simpa using h) hp
        have hnew : keep (revise existing input p) = false := by
          by_contra h
          refine hkeep _ (by simpa using h) ?_
          rw [revise_principal, hp]
        rw [hold, hnew, if_neg Bool.false_ne_true, if_neg Bool.false_ne_true]
      · rw [revise_foreign existing input hp]

end Assert

/-! ## The invariant -/

def latest (positions : List Position) (who : String) : Option Position :=
  (positions.filter fun p => p.principal = who).getLast?

def liveOf (positions : List Position) (who : String) : List Position :=
  (unsuperseded positions).filter fun p => p.principal = who

/-- Ids are distinct, links go forward within a principal, and what is live of
    a principal is its latest entry. -/
structure PositionsOk (positions : List Position) : Prop where
  distinct : (positions.map Position.id).Nodup
  named : ∀ p ∈ positions, p.id ≠ ""
  linked : ∀ (i : Nat) (p : Position) (id : String), positions[i]? = some p →
    p.supersededBy = some id →
    ∃ j q, i < j ∧ positions[j]? = some q ∧ q.id = id ∧ q.principal = p.principal
  live : ∀ who, liveOf positions who = (latest positions who).toList

theorem positionsOk_nil : PositionsOk [] where
  distinct := List.nodup_nil
  named _ h := nomatch h
  linked _ _ _ h := nomatch h
  live _ := rfl

theorem positionsOk_legacy (fm : Fields) : PositionsOk [legacySnapshot fm] where
  distinct := List.nodup_singleton _
  named p h := by
    obtain rfl := List.mem_singleton.mp h
    simp [legacySnapshot]
  linked i p id hi hs := by
    obtain rfl := List.mem_singleton.mp (List.mem_of_getElem? hi)
    cases hs
  live who := by
    have hlive : unsuperseded [legacySnapshot fm] = [legacySnapshot fm] := rfl
    unfold liveOf latest
    rw [hlive]
    by_cases h : (legacySnapshot fm).principal = who
    · simp [h]
    · simp [h]

section Step

variable {existing : List Position} (input : AssertInput)

theorem latest_self :
    latest (applyAssert existing input) input.principal = some (newPosition existing input) := by
  unfold latest applyAssert
  simp [newPosition]

theorem latest_foreign {who : String} (h : who ≠ input.principal) :
    latest (applyAssert existing input) who = latest existing who := by
  unfold latest applyAssert
  rw [List.filter_append, filter_revise existing input]
  · simp [newPosition, Ne.symm h]
  · intro p hp
    rw [of_decide_eq_true hp]
    exact h

theorem liveOf_self :
    liveOf (applyAssert existing input) input.principal = [newPosition existing input] := by
  unfold liveOf unsuperseded applyAssert
  rw [List.filter_append, List.filter_append]
  have hold : ((existing.map (revise existing input)).filter fun p =>
      p.supersededBy.isNone).filter (fun p => p.principal = input.principal) = [] := by
    rw [List.filter_filter, List.filter_eq_nil_iff]
    intro p hp
    obtain ⟨q, _, rfl⟩ := List.mem_map.mp hp
    by_cases hq : q.principal = input.principal ∧ q.supersededBy = none
    · simp [revise, hq]
    · simp only [revise, if_neg hq]
      simpa using hq
  rw [hold, List.nil_append]
  simp [newPosition]

theorem liveOf_foreign {who : String} (h : who ≠ input.principal) :
    liveOf (applyAssert existing input) who = liveOf existing who := by
  unfold liveOf unsuperseded applyAssert
  rw [List.filter_append, List.filter_append, List.filter_filter, List.filter_filter,
    filter_revise existing input]
  · simp [newPosition, Ne.symm h]
  · intro p hp
    simp only [Bool.and_eq_true, decide_eq_true_eq] at hp
    rw [hp.1]
    exact h

/-- **One assert keeps the invariant.** -/
theorem applyAssert_ok (hok : PositionsOk existing) :
    PositionsOk (applyAssert existing input) where
  distinct := by
    rw [ids_applyAssert, List.nodup_append]
    refine ⟨hok.distinct, List.nodup_singleton _, ?_⟩
    rintro a ha b hb rfl
    rw [List.mem_singleton.mp hb] at ha
    exact nextPositionId_fresh existing ha
  named := by
    intro p hp
    have hid : p.id ∈ (applyAssert existing input).map Position.id := List.mem_map_of_mem hp
    rw [ids_applyAssert] at hid
    rcases List.mem_append.mp hid with hid | hid
    · obtain ⟨q, hq, hqp⟩ := List.mem_map.mp hid
      rw [← hqp]
      exact hok.named q hq
    · rw [List.mem_singleton.mp hid]
      exact nextPositionId_ne_empty existing
  linked := by
    intro i p id hi hs
    have hnew : (applyAssert existing input)[existing.length]? =
        some (newPosition existing input) := by
      unfold applyAssert
      rw [List.getElem?_append_right (by rw [List.length_map]), List.length_map, Nat.sub_self]
      rfl
    rcases Nat.lt_trichotomy i existing.length with hlt | rfl | hgt
    · -- an entry that was there: its link is new, or was there as well
      obtain ⟨q, hq⟩ : ∃ q, existing[i]? = some q := ⟨existing[i], List.getElem?_eq_getElem hlt⟩
      have hp : revise existing input q = p := by
        unfold applyAssert at hi
        rw [List.getElem?_append_left (by rw [List.length_map]; exact hlt), List.getElem?_map,
          hq] at hi
        exact Option.some.inj hi
      by_cases hrev : q.principal = input.principal ∧ q.supersededBy = none
      · refine ⟨existing.length, newPosition existing input, hlt, hnew, ?_, ?_⟩
        · rw [← hp] at hs
          simp only [revise, if_pos hrev] at hs
          exact Option.some.inj hs
        · rw [← hp, revise_principal, hrev.1]
          rfl
      · rw [revise, if_neg hrev] at hp
        subst hp
        obtain ⟨j, r, hij, hj, hr, hwho⟩ := hok.linked i q id hq hs
        obtain ⟨hjlt, _⟩ := List.getElem?_eq_some_iff.mp hj
        refine ⟨j, revise existing input r, hij, ?_, ?_, ?_⟩
        · unfold applyAssert
          rw [List.getElem?_append_left (by rw [List.length_map]; exact hjlt),
            List.getElem?_map, hj]
          rfl
        · rw [revise_id, hr]
        · rw [revise_principal, hwho]
    · rw [hnew] at hi
      rw [← Option.some.inj hi] at hs
      cases hs
    · have hlen : (applyAssert existing input).length ≤ i := by
        simp only [applyAssert, List.length_append, List.length_map, List.length_singleton]
        omega
      rw [List.getElem?_eq_none hlen] at hi
      cases hi
  live := by
    intro who
    by_cases hwho : who = input.principal
    · rw [hwho, liveOf_self, latest_self]
      rfl
    · rw [liveOf_foreign input hwho, latest_foreign input hwho]
      exact hok.live who

end Step

/-! ## What the readers make of it -/

theorem byId_of_mem {positions : List Position} (h : (positions.map Position.id).Nodup)
    {p : Position} (hp : p ∈ positions) : byId positions p.id = some p :=
  Assoc.lastBy_of_mem h hp

theorem latest_isSome {positions : List Position} {p : Position} (hp : p ∈ positions) :
    ∃ q, latest positions p.principal = some q := by
  have hmem : p ∈ positions.filter fun q => q.principal = p.principal := by
    simp [hp]
  unfold latest
  rw [List.getLast?_eq_some_getLast (List.ne_nil_of_mem hmem)]
  exact ⟨_, rfl⟩

namespace PositionsOk

variable {positions : List Position} (hok : PositionsOk positions)

include hok

theorem latest_of_live {p : Position} (hp : p ∈ positions) (hs : p.supersededBy = none) :
    latest positions p.principal = some p := by
  have hmem : p ∈ liveOf positions p.principal := by
    simp [liveOf, unsuperseded, hp, hs]
  rw [hok.live, Option.mem_toList] at hmem
  exact hmem

theorem live_of_latest {who : String} {p : Position} (h : latest positions who = some p) :
    p ∈ unsuperseded positions ∧ p.principal = who := by
  have hmem : p ∈ liveOf positions who := by
    rw [hok.live, h]
    simp
  obtain ⟨hlive, hwho⟩ := List.mem_filter.mp hmem
  exact ⟨hlive, of_decide_eq_true hwho⟩

theorem chainWalk_eq (fuel i : Nat) (seen : List String) (cur : Position)
    (hcur : positions[i]? = some cur) (hfuel : positions.length < fuel + i)
    (hseen : ∀ id ∈ seen, ∃ j p, j ≤ i ∧ positions[j]? = some p ∧ p.id = id) :
    chainWalk positions fuel seen cur = latest positions cur.principal := by
  induction fuel generalizing i seen cur with
  | zero =>
      obtain ⟨hlt, _⟩ := List.getElem?_eq_some_iff.mp hcur
      omega
  | succ fuel ih =>
      unfold chainWalk
      cases hs : cur.supersededBy with
      | none =>
          rw [hok.latest_of_live (List.mem_of_getElem? hcur) hs]
          rfl
      | some id =>
          obtain ⟨j, q, hij, hj, rfl, hwho⟩ := hok.linked i cur id hcur hs
          have hq : q ∈ positions := List.mem_of_getElem? hj
          have hnew : q.id ∉ seen := by
            -- the seen entries are at other indices, so their ids differ
            intro hmem
            obtain ⟨k, r, hki, hk, hr⟩ := hseen _ hmem
            obtain ⟨hklt, hkr⟩ := List.getElem?_eq_some_iff.mp hk
            obtain ⟨hjlt, hjq⟩ := List.getElem?_eq_some_iff.mp hj
            have hkj : k = j := by
              refine (@List.Nodup.getElem_inj_iff _ _ hok.distinct k (by simpa using hklt) j
                (by simpa using hjlt)).mp ?_
              simp only [List.getElem_map]
              rw [hkr, hjq, hr]
            omega
          have hname : (some q.id).filter (· ≠ "") = some q.id := by
            simp [hok.named q hq]
          rw [hname]
          simp only [byId_of_mem hok.distinct hq]
          rw [if_neg hnew, ← hwho]
          refine ih j _ q hj (by omega) ?_
          intro id' hid'
          rcases List.mem_cons.mp hid' with rfl | hid'
          · exact ⟨j, q, Nat.le_refl _, hj, rfl⟩
          · obtain ⟨k, r, hki, hk, hr⟩ := hseen _ hid'
            exact ⟨k, r, by omega, hk, hr⟩

/-- **From any entry `chainEnd` comes to the live entry of its principal.** -/
theorem chainEnd_eq {p : Position} (hp : p ∈ positions) :
    chainEnd positions p.id = latest positions p.principal := by
  obtain ⟨i, hi⟩ := List.getElem?_of_mem hp
  unfold chainEnd
  rw [byId_of_mem hok.distinct hp, Option.bind_some]
  refine hok.chainWalk_eq _ i _ p hi (by omega) ?_
  intro id hid
  exact ⟨i, p, Nat.le_refl _, hi, (List.mem_singleton.mp hid).symm⟩

theorem any_live_iff (stance : Stance) :
    (unsuperseded positions).any (fun p => p.stance = stance) = true ↔
      ∃ who p, latest positions who = some p ∧ p.stance = stance := by
  rw [List.any_eq_true]
  constructor
  · rintro ⟨p, hp, hstance⟩
    obtain ⟨hmem, hs⟩ := List.mem_filter.mp hp
    rw [Option.isNone_iff_eq_none] at hs
    exact ⟨p.principal, p, hok.latest_of_live hmem hs, of_decide_eq_true hstance⟩
  · rintro ⟨who, p, hlatest, hstance⟩
    exact ⟨p, (hok.live_of_latest hlatest).1, decide_eq_true hstance⟩

end PositionsOk

/-! ## Every run of asserts -/

/-- One assert on a document that holds `positions`, or none yet. -/
def assertStep (fm : Fields) (positions : Option (List Position)) (input : AssertInput) :
    Option (List Position) :=
  some (applyAssert (positions.getD [legacySnapshot fm]) input)

/-- The position set a run of asserts finds at its end, as the next assert would read it. -/
def assertRun (fm : Fields) (start : Option (List Position)) (inputs : List AssertInput) :
    List Position :=
  (inputs.foldl (assertStep fm) start).getD [legacySnapshot fm]

theorem assertRun_snoc (fm : Fields) (start : Option (List Position))
    (inputs : List AssertInput) (input : AssertInput) : assertRun fm start (inputs ++ [input]) =
      applyAssert (assertRun fm start inputs) input := by
  unfold assertRun
  rw [List.foldl_append]
  rfl

theorem assertRun_ok (fm : Fields) {start : Option (List Position)}
    (hstart : start.getD [] = []) (inputs : List AssertInput) :
    PositionsOk (assertRun fm start inputs) := by
  induction inputs using List.reverseRecOn with
  | nil =>
      cases start with
      | none => exact positionsOk_legacy fm
      | some ps =>
          obtain rfl : ps = [] := hstart
          exact positionsOk_nil
  | append_singleton inputs input ih =>
      rw [assertRun_snoc]
      exact applyAssert_ok input ih

theorem ids_assertRun_grow (fm : Fields) (start : Option (List Position))
    (earlier later : List AssertInput) : (assertRun fm start earlier).map Position.id <+:
      (assertRun fm start (earlier ++ later)).map Position.id := by
  induction later using List.reverseRecOn with
  | nil => simp
  | append_singleton later input ih =>
      rw [← List.append_assoc, assertRun_snoc, ids_applyAssert]
      exact ih.trans (List.prefix_append _ _)

/-- What a position set says, as its readers find it. -/
structure Standing (positions : List Position) : Prop where
  /-- ids are pairwise distinct -/
  distinct : (positions.map Position.id).Nodup
  /-- a principal's only unsuperseded entry is its latest -/
  live : ∀ p ∈ positions, ∃ q, latest positions p.principal = some q ∧
    liveOf positions p.principal = [q]
  /-- a superseded entry names a later one of its principal -/
  linked : ∀ (i : Nat) (p : Position) (id : String), positions[i]? = some p →
    p.supersededBy = some id →
    ∃ j q, i < j ∧ positions[j]? = some q ∧ q.id = id ∧ q.principal = p.principal
  /-- the chain of any id ends, at the live entry of its principal -/
  ends : ∀ p ∈ positions, ∃ q, chainEnd positions p.id = some q ∧
    latest positions p.principal = some q ∧ q.supersededBy = none
  /-- contested is: the latest stances include an assert and a dispute -/
  contested : isContested positions = true ↔
    (∃ who p, latest positions who = some p ∧ p.stance = .assert) ∧
      ∃ who p, latest positions who = some p ∧ p.stance = .dispute

theorem PositionsOk.standing {positions : List Position} (hok : PositionsOk positions) :
    Standing positions where
  distinct := hok.distinct
  live := by
    intro p hp
    obtain ⟨q, hq⟩ := latest_isSome hp
    exact ⟨q, hq, by rw [hok.live, hq]; rfl⟩
  linked := hok.linked
  ends := by
    intro p hp
    obtain ⟨q, hq⟩ := latest_isSome hp
    refine ⟨q, by rw [hok.chainEnd_eq hp, hq], hq, ?_⟩
    have hlive := (hok.live_of_latest hq).1
    exact Option.isNone_iff_eq_none.mp (List.mem_filter.mp hlive).2
  contested := by
    unfold isContested
    rw [Bool.and_eq_true, hok.any_live_iff, hok.any_live_iff]

def plainAssert (principal : String) (stance : Stance) : AssertInput where
  principal := principal
  stance := stance
  statement := none
  confidence := .medium
  provenance := .direct
  validFrom := none
  sources := []
  created := "2026-01-01"

end Positions
