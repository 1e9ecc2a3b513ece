import Daftari.Curation.PositionsProofs

/-! # The position guard and entries that share an id

    The guard looks the entries of another principal up in the incoming list through a map, which
    keeps the last entry of each id.  Ids are not checked to be distinct, neither in a document nor
    in a caller's list: an entry that a later one of the same id hides is not looked at, and in a
    document with such entries the guard takes one for an alteration of the other.

    * `foreignPositionViolation_exact`: **the guard is sound for the incoming lists of the first
      kind, and lets own changes pass in the documents of the second, and no others.** -/

namespace Positions

open Frontmatter

/-! ## What is promised -/

/-- The entry is the old one, or the old one superseded by an entry of the list that its
    own principal holds. -/
def StillIs (incoming : List Position) (old p : Position) : Prop :=
  p = old ∨ old.supersededBy = none ∧ ∃ q ∈ incoming, q.principal = old.principal
    ∧ p = { old with supersededBy := some q.id }

/-- Every entry of the other principals is there, and nothing else under its id. -/
def Sound (user : String) (before after : List Position) : Prop :=
  ∀ old ∈ before, old.principal ≠ user →
    (∃ p ∈ after, p.id = old.id) ∧ ∀ p ∈ after, p.id = old.id → StillIs after old p

/-- What may become of one entry: the user's own is changed in any way, under its id or a
    fresh one; another principal's stays. -/
def Revised (user : String) (ids : List String) (old p : Position) : Prop :=
  if old.principal = user then p.id = old.id ∨ p.id ∉ ids else p = old

/-- The user changes own entries, and new ones come in under fresh ids. -/
def OwnChange (user : String) (before after : List Position) : Prop :=
  ∃ changed new, after = changed ++ new
    ∧ List.Forall₂ (Revised user (before.map Position.id)) before changed
    ∧ ∀ q ∈ new, q.id ∉ before.map Position.id

/-! ## What the map shows -/

/-- An entry that a later one of its id hides is that later one, or it superseded: no
    entry under a foreign id is hidden that the guard would refuse. -/
def Unforged (user : String) (incoming : List Position) : Prop :=
  ∀ p ∈ incoming, ∀ n, byId incoming p.id = some n → n.principal ≠ user → StillIs incoming n p

/-- The entry the guard takes for the old one is it, superseded or not. -/
def Recognised (incoming : List Position) (old n : Position) : Prop :=
  n = old ∨ old.supersededBy = none ∧ ∃ q, byId incoming q.id = some q
    ∧ q.principal = old.principal ∧ n = { old with supersededBy := some q.id }

/-- The last entry under the id of another principal's entry is that entry, or it
    superseded by its own principal. -/
def Unambiguous (user : String) (before : List Position) : Prop :=
  ∀ old ∈ before, old.principal ≠ user →
    ∀ n, byId before old.id = some n → Recognised before old n

section Map

variable {incoming : List Position} {old n : Position} {id : String}

theorem byId_append (l₁ l₂ : List Position) (id : String) :
    byId (l₁ ++ l₂) id = (byId l₂ id).or (byId l₁ id) := by
  unfold byId
  rw [List.reverse_append, List.find?_append]

theorem byId_cons (p : Position) (l : List Position) (id : String) :
    byId (p :: l) id = (byId l id).or (if p.id = id then some p else none) := by
  rw [← List.singleton_append, byId_append]
  unfold byId
  simp

theorem byId_eq_none {l : List Position} : byId l id = none ↔ ∀ p ∈ l, p.id ≠ id := by
  unfold byId
  simp

theorem exists_byId (h : ∃ p ∈ incoming, p.id = id) : ∃ n, byId incoming id = some n := by
  obtain ⟨p, hp, hid⟩ := h
  cases hn : byId incoming id with
  | none => exact absurd hid (byId_eq_none.mp hn p hp)
  | some n => exact ⟨n, rfl⟩

theorem successor_iff {holder : String} :
    (n.supersededBy.bind (byId incoming)).any (fun q => q.principal = holder) = true ↔
      ∃ q, byId incoming q.id = some q ∧ q.principal = holder ∧ n.supersededBy = some q.id := by
  constructor
  · intro h
    cases hs : n.supersededBy with
    | none =>
        rw [hs] at h
        cases h
    | some sid =>
        rw [hs, Option.bind_some] at h
        cases hq : byId incoming sid with
        | none =>
            rw [hq] at h
            cases h
        | some q =>
            rw [hq] at h
            obtain ⟨_, rfl⟩ := mem_of_byId hq
            exact ⟨q, hq, of_decide_eq_true h, rfl⟩
  · rintro ⟨q, hq, hholder, hs⟩
    rw [hs, Option.bind_some, hq]
    exact decide_eq_true hholder

/-- **One entry passes the guard** when it is recognised. -/
theorem violation_eq_none : violation incoming old = none ↔
      ∃ n, byId incoming old.id = some n ∧ Recognised incoming old n := by
  unfold violation
  cases hn : byId incoming old.id with
  | none => simp
  | some n =>
      dsimp only
      constructor
      · intro h
        refine ⟨n, rfl, ?_⟩
        by_cases hsame : old = n
        · exact Or.inl hsame.symm
        · rw [if_neg hsame] at h
          split at h
          · rename_i hrule
            obtain ⟨honly, hnull, hsucc⟩ := hrule
            obtain ⟨q, hq, hholder, hs⟩ := successor_iff.mp hsucc
            refine Or.inr ⟨hnull, q, hq, hholder, ?_⟩
            rw [honly, ← hs]
          · cases h
      · rintro ⟨m, hm, hrec⟩
        obtain rfl := Option.some.inj hm
        rcases hrec with rfl | ⟨hnull, q, hq, hholder, rfl⟩
        · rw [if_pos rfl]
        · split
          · rfl
          · rw [if_pos ⟨rfl, hnull, successor_iff.mpr ⟨q, hq, hholder, rfl⟩⟩]

theorem Recognised.stillIs (h : Recognised incoming old n) : StillIs incoming old n := by
  rcases h with rfl | ⟨hnull, q, hq, hholder, rfl⟩
  · exact Or.inl rfl
  · exact Or.inr ⟨hnull, q, (mem_of_byId hq).1, hholder, rfl⟩

theorem StillIs.principal_eq (h : StillIs incoming old n) : n.principal = old.principal := by
  rcases h with rfl | ⟨_, q, _, _, rfl⟩
  · rfl
  · rfl

/-- **The guard lets pass** what it recognises, entry by entry. -/
theorem foreignPositionViolation_eq_none {before : List Position}
    {after : Option (List Position)} {user : String} :
    foreignPositionViolation before after user = none ↔ ∀ old ∈ before, old.principal ≠ user →
        ∃ n, byId (after.getD []) old.id = some n ∧ Recognised (after.getD []) old n := by
  unfold foreignPositionViolation
  rw [List.findSome?_eq_none_iff]
  constructor
  · intro h old hold hforeign
    exact violation_eq_none.mp (h old (List.mem_filter.mpr ⟨hold, decide_eq_true hforeign⟩))
  · intro h old hold
    obtain ⟨hmem, hforeign⟩ := List.mem_filter.mp hold
    exact violation_eq_none.mpr (h old hmem (of_decide_eq_true hforeign))

end Map

/-! ## Soundness -/

section Exactness

variable {user : String}

variable {before : List Position}

/-- **What passes is sound, when nothing is hidden.** -/
theorem sound_of_unforged {after : Option (List Position)} (hun : Unforged user (after.getD []))
    (h : foreignPositionViolation before after user = none) :
    Sound user before (after.getD []) := by
  intro old hold hforeign
  obtain ⟨n, hn, hrec⟩ := foreignPositionViolation_eq_none.mp h old hold hforeign
  obtain ⟨hmem, hid⟩ := mem_of_byId hn
  refine ⟨⟨n, hmem, hid⟩, ?_⟩
  intro p hp hpid
  have hholder : n.principal ≠ user := by
    rw [hrec.stillIs.principal_eq]
    exact hforeign
  rcases hun p hp n (hpid ▸ hn) hholder with rfl | ⟨hnull, q, hq, hsame, rfl⟩
  · exact hrec.stillIs
  · -- the later entry is not superseded: it is the old one
    rcases hrec with rfl | ⟨_, _, _, _, rfl⟩
    · exact Or.inr ⟨hnull, q, hq, hsame, rfl⟩
    · cases hnull

theorem unforged_of_sound {after : Option (List Position)}
    (h : ∀ before, foreignPositionViolation before after user = none →
      Sound user before (after.getD [])) : Unforged user (after.getD []) := by
  intro p hp n hn hholder
  obtain ⟨_, hid⟩ := mem_of_byId hn
  have hpass : foreignPositionViolation [n] after user = none := by
    rw [foreignPositionViolation_eq_none]
    intro old hold _
    obtain rfl := List.mem_singleton.mp hold
    exact ⟨old, hid ▸ hn, Or.inl rfl⟩
  exact (h [n] hpass n List.mem_cons_self hholder).2 p hp hid.symm

/-! ## Completeness -/

theorem byId_revised {ids : List String} {changed : List Position} {id : String}
    (h : List.Forall₂ (Revised user ids) before changed) (hid : id ∈ ids) :
    (byId before id = none → byId changed id = none) ∧
      ∀ n, byId before id = some n → n.principal ≠ user → byId changed id = some n := by
  induction h with
  | nil => exact ⟨fun hnone => hnone, fun n hn => by cases hn⟩
  | @cons old p before changed hrev _ ih =>
      obtain ⟨hnone, hsome⟩ := ih
      have hkeeps : old.id ≠ id → p.id ≠ id := by
        intro hne hp
        unfold Revised at hrev
        split at hrev
        · rcases hrev with hsame | hfresh
          · exact hne (hsame ▸ hp)
          · exact hfresh (hp ▸ hid)
        · exact hne (hrev ▸ hp)
      refine ⟨?_, ?_⟩
      · intro hboth
        rw [byId_cons, Option.or_eq_none_iff] at hboth ⊢
        obtain ⟨hrest, hhead⟩ := hboth
        refine ⟨hnone hrest, if_neg (hkeeps ?_)⟩
        rintro hold
        rw [if_pos hold] at hhead
        cases hhead
      · intro n hn hholder
        rw [byId_cons] at hn ⊢
        cases hrest : byId before id with
        | some m =>
            rw [hrest, Option.some_or] at hn
            obtain rfl := Option.some.inj hn
            rw [hsome m hrest hholder, Option.some_or]
        | none =>
            rw [hrest, Option.none_or] at hn
            rw [hnone hrest, Option.none_or]
            split at hn
            · rename_i hold
              obtain rfl := Option.some.inj hn
              unfold Revised at hrev
              rw [if_neg hholder] at hrev
              rw [hrev, if_pos hold]
            · cases hn

/-- **Own changes of an unambiguous document pass.** -/
theorem passes_of_unambiguous {after : List Position} (hun : Unambiguous user before)
    (h : OwnChange user before after) :
    foreignPositionViolation before (some after) user = none := by
  obtain ⟨changed, new, rfl, hrev, hfresh⟩ := h
  have hkept : ∀ n, n.id ∈ before.map Position.id → byId before n.id = some n →
      n.principal ≠ user → byId (changed ++ new) n.id = some n := by
    intro n hid hn hholder
    have hnew : byId new n.id = none := by
      rw [byId_eq_none]
      intro q hq he
      exact hfresh q hq (he ▸ hid)
    rw [byId_append, hnew, Option.none_or]
    exact (byId_revised hrev hid).2 n hn hholder
  rw [foreignPositionViolation_eq_none]
  intro old hold hforeign
  obtain ⟨n, hn⟩ := exists_byId ⟨old, hold, rfl⟩
  obtain ⟨hmem, hid⟩ := mem_of_byId hn
  have hrec := hun old hold hforeign n hn
  refine ⟨n, ?_, ?_⟩
  · have hsame := hkept n (List.mem_map_of_mem hmem) (hid ▸ hn) (by
      rw [hrec.stillIs.principal_eq]
      exact hforeign)
    rwa [hid] at hsame
  · rcases hrec with he | ⟨hnull, q, hq, hholder, he⟩
    · exact Or.inl he
    · refine Or.inr ⟨hnull, q, ?_, hholder, he⟩
      exact hkept q (List.mem_map_of_mem (mem_of_byId hq).1) hq (hholder ▸ hforeign)

theorem OwnChange.refl (user : String) (before : List Position) : OwnChange user before before := by
  refine ⟨before, [], (List.append_nil before).symm, ?_, ?_⟩
  · refine List.forall₂_same.mpr fun p _ => ?_
    unfold Revised
    split
    · exact Or.inl rfl
    · rfl
  · intro q hq
    cases hq

theorem unambiguous_of_passes (h : foreignPositionViolation before (some before) user = none) :
    Unambiguous user before := by
  intro old hold hforeign n hn
  obtain ⟨m, hm, hrec⟩ := foreignPositionViolation_eq_none.mp h old hold hforeign
  obtain rfl := Option.some.inj (hn.symm.trans hm)
  exact hrec

end Exactness

/-- **When the guard does what it promises**: for an incoming list, every update of it that
    passes is sound, whatever was there, exactly when no entry under a foreign id is hidden
    in it; for a document, every own change of it passes exactly when the last entry
    under each foreign id is the one meant. -/
theorem foreignPositionViolation_exact (user : String) :
    (∀ after : Option (List Position),
      (∀ before, foreignPositionViolation before after user = none →
        Sound user before (after.getD [])) ↔ Unforged user (after.getD [])) ∧
    ∀ before : List Position,
      (∀ after, OwnChange user before after →
        foreignPositionViolation before (some after) user = none) ↔ Unambiguous user before := by
  refine ⟨fun after => ⟨unforged_of_sound, fun hun before h => sound_of_unforged hun h⟩, ?_⟩
  intro before
  constructor
  · intro h
    exact unambiguous_of_passes (h before (OwnChange.refl user before))
  · intro hun after h
    exact passes_of_unambiguous hun h

def firstEntry (principal statement : String) : Position where
  id := "pos-001"
  principal := principal
  stance := .assert
  statement := some statement
  confidence := .high
  provenance := .direct
  validFrom := none
  supersededBy := none
  created := "2026-01-01"
  sources := []

/-- **Two entries under one id**: a forged copy before the original passes, and a document
    with two holders of one id cannot be handed on unchanged. -/
theorem namesakes_mislead :
    (foreignPositionViolation [firstEntry "alice" "yes"]
        (some [firstEntry "alice" "no", firstEntry "alice" "yes"]) "carol" = none ∧
      ¬ Sound "carol" [firstEntry "alice" "yes"]
        [firstEntry "alice" "no", firstEntry "alice" "yes"]) ∧
    OwnChange "carol" [firstEntry "alice" "yes", firstEntry "bob" "no"]
        [firstEntry "alice" "yes", firstEntry "bob" "no"] ∧
      foreignPositionViolation [firstEntry "alice" "yes", firstEntry "bob" "no"]
        (some [firstEntry "alice" "yes", firstEntry "bob" "no"]) "carol" ≠ none := by
  refine ⟨⟨by decide +kernel, ?_⟩, OwnChange.refl _ _, by decide +kernel⟩
  intro hsound
  have hstill := (hsound _ List.mem_cons_self (by decide)).2 (firstEntry "alice" "no")
    List.mem_cons_self rfl
  rcases hstill with hsame | ⟨_, q, _, _, hmarked⟩
  · revert hsame
    decide +kernel
  · have hstatement : some "no" = some "yes" := congrArg Position.statement hmarked
    revert hstatement
    decide

end Positions
