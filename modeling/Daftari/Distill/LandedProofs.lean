import Daftari.Distill.StateProofs
import Daftari.Lib.MachineProofs

/-! # The landed maps — ratifications against runs in flight

    The state file is rewritten whole from a copy.  A run of `distillUpsert` holds its copy while
    its emitter stages; `recordLandedClaim` reads, changes one map and writes.  Whatever another
    call has written in between is lost with the next write.

    * `System.step?`: the reads and the writes as atomic steps;
    * `landed_of_calm`: **in every interleaving of calm steps every landed claim stays, until a
      later one takes its key or its path**. -/

namespace Distill

/-- A `recordLandedClaim` that returned ok. -/
structure Landing where
  sourceId : String
  key : String
  path : String
deriving DecidableEq

/-- A call between its read and its write. -/
inductive Op where
  | upserting (copy : DistillState) (sourceId : String) (plan : Plan)
  | landing (copy : DistillState) (landing : Landing)

/-- The state file, the calls in flight and the landings so far. -/
structure System where
  file : DistillState
  ops : Table Nat Op
  landed : List Landing

/-- One atomic step of call `id`. -/
inductive Action where
  /-- `distillUpsert` reads the state and offers its claims, or returns. -/
  | beginUpsert (id : Nat) (sourceId : String) (input : Input)
  /-- Its emitter is done and it writes the state. -/
  | endUpsert (id : Nat) (attempted : Attempt)
  /-- `recordLandedClaim` reads the state. -/
  | beginLand (id : Nat) (landing : Landing)
  | endLand (id : Nat)

variable (hash : List Char → String)

/-- One step; `none` where the action does not fit the state. -/
def System.step? (s : System) : Action → Option System
  | .beginUpsert id sourceId input =>
      if s.ops.find id = none then
        match openRun hash (s.file.find sourceId) input with
        | .returns _ => some s
        | .offers plan => some { s with ops := s.ops.set id (.upserting s.file sourceId plan) }
      else none
  | .endUpsert id attempted =>
      match s.ops.find id with
      | some (.upserting copy sourceId plan) =>
          some
            { s with
              file := copy.set sourceId (closeRun (copy.find sourceId) plan attempted).1
              ops := s.ops.erase id }
      | _ => none
  | .beginLand id landing =>
      if s.ops.find id = none then
        some { s with ops := s.ops.set id (.landing s.file landing) }
      else none
  | .endLand id =>
      match s.ops.find id with
      | some (.landing copy landing) =>
          some
            { file := recordLanded copy landing.sourceId landing.key landing.path
              ops := s.ops.erase id
              landed := s.landed ++ [landing] }
      | _ => none

def landMachine : Machine System Action where
  enabled s a := (s.step? hash a).isSome = true
  next s a := (s.step? hash a).getD s

def claimsAt (state : DistillState) (sourceId : String) : Table String String :=
  landedOf (state.find sourceId)

/-- The copy a call is about to write from. -/
def Op.copy : Op → DistillState
  | .upserting copy _ _ => copy
  | .landing copy _ => copy

/-- **The condition on one step**: a call that writes has read the landed maps
    that are in the file. -/
def CalmLand (s : System) (a : Action) : Prop :=
  ∀ id, (∃ attempted, a = .endUpsert id attempted) ∨ a = .endLand id →
    ∀ op, s.ops.find id = some op → ∀ sourceId key,
      (claimsAt op.copy sourceId).find key = (claimsAt s.file sourceId).find key

/-! ## Landing one claim -/

theorem find_foldl_erase {claims : Table String String} {P : String → Prop} [DecidablePred P]
    (ks : List String) (k : String) :
    (ks.foldl (fun m k => if P k then m.erase k else m) claims).find k =
      if k ∈ ks ∧ P k then none else claims.find k := by
  induction ks generalizing claims with
  | nil => rw [if_neg (fun h => nomatch h.1)]; rfl
  | cons k' ks ih =>
      rw [List.foldl_cons, ih]
      by_cases hk : k ∈ ks ∧ P k
      · rw [if_pos hk, if_pos ⟨List.mem_cons_of_mem _ hk.1, hk.2⟩]
      · rw [if_neg hk]
        by_cases hP : P k'
        · rw [if_pos hP, Table.find_erase]
          by_cases he : k = k'
          · rw [if_pos he, if_pos ⟨by rw [he]; exact List.mem_cons_self, he ▸ hP⟩]
          · rw [if_neg he, if_neg]
            rintro ⟨hmem, hPk⟩
            exact hk ⟨(List.mem_cons.mp hmem).resolve_left he, hPk⟩
        · rw [if_neg hP, if_neg]
          rintro ⟨hmem, hPk⟩
          rcases List.mem_cons.mp hmem with rfl | hmem
          · exact hP hPk
          · exact hk ⟨hmem, hPk⟩

/-- **Landing a claim** maps its key to its path and takes the path from every other key. -/
theorem find_landClaim (claims : Table String String) (key path k : String) :
    (landClaim claims key path).find k = if k = key then some path
      else if claims.find k = some path then none else claims.find k := by
  unfold landClaim
  rw [Table.find_set]
  by_cases hk : k = key
  · rw [if_pos hk, if_pos hk]
  · rw [if_neg hk, if_neg hk, find_foldl_erase]
    by_cases hp : claims.find k = some path
    · rw [if_pos hp, if_pos ⟨Table.mem_keys.mpr (by rw [hp]; exact nofun), hp, hk⟩]
    · rw [if_neg hp, if_neg fun h => hp h.2.1]

theorem claimsAt_recordLanded (state : DistillState) (l : Landing) (sourceId : String) :
    claimsAt (recordLanded state l.sourceId l.key l.path) sourceId =
      if sourceId = l.sourceId then landClaim (claimsAt state l.sourceId) l.key l.path
      else claimsAt state sourceId := by
  unfold claimsAt recordLanded
  rw [Table.find_set]
  by_cases hs : sourceId = l.sourceId
  · rw [if_pos hs, if_pos hs]
    cases state.find l.sourceId with
    | none => rfl
    | some st => rfl
  · rw [if_neg hs, if_neg hs]

theorem claimsAt_closeRun (copy : DistillState) (sourceId : String) (plan : Plan)
    (attempted : Attempt) (sourceId' : String) :
    claimsAt (copy.set sourceId (closeRun (copy.find sourceId) plan attempted).1) sourceId'
      = claimsAt copy sourceId' := by
  unfold claimsAt
  rw [Table.find_set]
  by_cases hs : sourceId' = sourceId
  · rw [if_pos hs, hs]
    exact claims_closeRun plan attempted
  · rw [if_neg hs]

/-! ## The invariant -/

/-- Every landing is in its source's map, unless a later one took its key or its path. -/
def Kept (s : System) : Prop :=
  ∀ pre l post, s.landed = pre ++ l :: post →
    (claimsAt s.file l.sourceId).find l.key = some l.path
      ∨ ∃ l' ∈ post, l'.sourceId = l.sourceId ∧ (l'.key = l.key ∨ l'.path = l.path)

/-- No two keys of one source map to the same path. -/
def OnePathEach (state : DistillState) : Prop :=
  ∀ sourceId k k' p, (claimsAt state sourceId).find k = some p →
    (claimsAt state sourceId).find k' = some p → k = k'

variable {hash} {s t : System}

theorem Kept.same (h : Kept s) (hfile : ∀ sourceId k,
      (claimsAt t.file sourceId).find k = (claimsAt s.file sourceId).find k)
    (hlanded : t.landed = s.landed) : Kept t := by
  intro pre l post hsplit
  rw [hlanded] at hsplit
  rw [hfile]
  exact h pre l post hsplit

theorem OnePathEach.same {state state' : DistillState} (h : OnePathEach state)
    (hfile : ∀ sourceId k, (claimsAt state' sourceId).find k = (claimsAt state sourceId).find k) :
    OnePathEach state' := by
  intro sourceId k k' p hk hk'
  rw [hfile] at hk hk'
  exact h sourceId k k' p hk hk'

variable {copy : DistillState}

theorem find_land {l : Landing}
    (hcopy : ∀ sourceId k, (claimsAt copy sourceId).find k = (claimsAt s.file sourceId).find k)
    (sourceId k : String) : (claimsAt (recordLanded copy l.sourceId l.key l.path) sourceId).find k =
      if sourceId = l.sourceId then if k = l.key then some l.path
        else if (claimsAt s.file sourceId).find k = some l.path then none
        else (claimsAt s.file sourceId).find k else (claimsAt s.file sourceId).find k := by
  rw [claimsAt_recordLanded]
  by_cases hs : sourceId = l.sourceId
  · rw [if_pos hs, if_pos hs, find_landClaim, hcopy, hs]
  · rw [if_neg hs, if_neg hs, hcopy]

theorem Kept.land (h : Kept s) {l : Landing} {ops : Table Nat Op}
    (hcopy : ∀ sourceId k, (claimsAt copy sourceId).find k = (claimsAt s.file sourceId).find k) :
    Kept ⟨recordLanded copy l.sourceId l.key l.path, ops, s.landed ++ [l]⟩ := by
  intro pre e post hsplit
  show (claimsAt (recordLanded copy l.sourceId l.key l.path) e.sourceId).find e.key = _ ∨ _
  rw [find_land hcopy]
  rcases Machine.split_append hsplit with ⟨-, rfl, -⟩ | ⟨post', rfl, hold⟩
  · -- the new landing itself
    rw [if_pos rfl, if_pos rfl]
    exact Or.inl rfl
  · rcases h pre e post' hold with hfind | ⟨l', hl', hrest⟩
    · by_cases hs : e.sourceId = l.sourceId
      · by_cases hk : l.key = e.key ∨ l.path = e.path
        · exact Or.inr ⟨l, List.mem_append_right _ (List.mem_singleton_self _), hs.symm, hk⟩
        · obtain ⟨hkey, hpath⟩ := not_or.mp hk
          rw [if_pos hs, if_neg (Ne.symm hkey), hfind, if_neg]
          · exact Or.inl rfl
          · intro hp
            exact hpath (Option.some.inj hp).symm
      · rw [if_neg hs]
        exact Or.inl hfind
    · exact Or.inr ⟨l', List.mem_append_left _ hl', hrest⟩

theorem OnePathEach.land (h : OnePathEach s.file) {l : Landing}
    (hcopy : ∀ sourceId k, (claimsAt copy sourceId).find k = (claimsAt s.file sourceId).find k) :
    OnePathEach (recordLanded copy l.sourceId l.key l.path) := by
  intro sourceId k k' p hk hk'
  rw [find_land hcopy] at hk hk'
  by_cases hs : sourceId = l.sourceId
  · rw [if_pos hs] at hk hk'
    -- a key that keeps its path does not have the landed one
    have hother : ∀ {k}, (if k = l.key then some l.path
        else if (claimsAt s.file sourceId).find k = some l.path then none
        else (claimsAt s.file sourceId).find k) = some p → k ≠ l.key →
        (claimsAt s.file sourceId).find k = some p ∧ p ≠ l.path := by
      intro k hk hne
      rw [if_neg hne] at hk
      split at hk
      · cases hk
      · rename_i hp
        refine ⟨hk, ?_⟩
        rintro rfl
        exact hp hk
    by_cases h1 : k = l.key
    · by_cases h2 : k' = l.key
      · rw [h1, h2]
      · rw [if_pos h1] at hk
        exact absurd (Option.some.inj hk).symm (hother hk' h2).2
    · by_cases h2 : k' = l.key
      · rw [if_pos h2] at hk'
        exact absurd (Option.some.inj hk').symm (hother hk h1).2
      · exact h sourceId k k' p (hother hk h1).1 (hother hk' h2).1
  · rw [if_neg hs] at hk hk'
    exact h sourceId k k' p hk hk'

/-- **One calm step.** -/
theorem landed_step {a : Action} (hstep : s.step? hash a = some t) (hcalm : CalmLand s a)
    (h : Kept s ∧ OnePathEach s.file) : Kept t ∧ OnePathEach t.file := by
  cases a with
  | beginUpsert id sourceId input =>
      obtain ⟨_, ht⟩ := Option.ite_none_right_eq_some.mp hstep
      split at ht
      · obtain rfl := Option.some.inj ht
        exact h
      · obtain rfl := Option.some.inj ht
        exact h
  | endUpsert id attempted =>
      simp only [System.step?] at hstep
      split at hstep
      · rename_i copy sourceId plan hop
        obtain rfl := Option.some.inj hstep
        have hsame : ∀ sourceId' k, (claimsAt (copy.set sourceId
            (closeRun (copy.find sourceId) plan attempted).1) sourceId').find k
            = (claimsAt s.file sourceId').find k := by
          intro sourceId' k
          rw [claimsAt_closeRun]
          exact hcalm id (Or.inl ⟨attempted, rfl⟩) _ hop sourceId' k
        exact ⟨h.1.same hsame rfl, h.2.same hsame⟩
      · cases hstep
  | beginLand id landing =>
      obtain ⟨_, ht⟩ := Option.ite_none_right_eq_some.mp hstep
      obtain rfl := Option.some.inj ht
      exact h
  | endLand id =>
      simp only [System.step?] at hstep
      split at hstep
      · rename_i copy l hop
        obtain rfl := Option.some.inj hstep
        have hcopy := hcalm id (Or.inr rfl) _ hop
        exact ⟨h.1.land hcopy, h.2.land hcopy⟩
      · cases hstep

/-- **A LANDED CLAIM IS NEVER FORGOTTEN, IN CALM INTERLEAVINGS.**  From any state file with one key
    per path, in every interleaving of runs and landings in which a call that writes has the file's
    landed maps: every landing that returned ok is in its source's map unless a later one of that
    source took its key or its path, and no two keys of a source map to one path. -/
theorem landed_of_calm (hash : List Char → String) (file : DistillState)
    (hfile : OnePathEach file) (s : System)
    (hrun : ((landMachine hash).restrict CalmLand).Reach ⟨file, .empty, []⟩ s) :
    (∀ pre l post, s.landed = pre ++ l :: post →
        (claimsAt s.file l.sourceId).find l.key = some l.path
          ∨ ∃ l' ∈ post, l'.sourceId = l.sourceId ∧ (l'.key = l.key ∨ l'.path = l.path))
      ∧ ∀ sourceId k k' p, (claimsAt s.file sourceId).find k = some p →
        (claimsAt s.file sourceId).find k' = some p → k = k' := by
  refine Machine.reach_invariant (I := fun s => Kept s ∧ OnePathEach s.file) ?_ ⟨?_, hfile⟩ hrun
  · intro s a h ha
    obtain ⟨t, ht⟩ := Option.isSome_iff_exists.mp ha.1
    have hnext : ((landMachine hash).restrict CalmLand).next s a = t := by
      show (s.step? hash a).getD s = t
      rw [ht]
      rfl
    rw [hnext]
    exact landed_step ht ha.2 h
  · intro pre l post hsplit
    exact absurd hsplit.symm (List.append_ne_nil_of_right_ne_nil _ (List.cons_ne_nil _ _))

/-! ## Two interleavings -/

instance (s : System) (a : Action) : Decidable ((landMachine hash).enabled s a) :=
  inferInstanceAs (Decidable ((s.step? hash a).isSome = true))

def plainHash (c : List Char) : String := String.ofList ('#' :: c)

def landingOf : Landing := ⟨"s", "a", "p"⟩

/-- A landing whose file nobody touches. -/
theorem landed_of_calm_single : ∃ s : System, s.landed = [landingOf]
    ∧ ∀ pre l post, s.landed = pre ++ l :: post →
      (claimsAt s.file l.sourceId).find l.key = some l.path
        ∨ ∃ l' ∈ post, l'.sourceId = l.sourceId ∧ (l'.key = l.key ∨ l'.path = l.path) := by
  refine ⟨⟨recordLanded .empty "s" "a" "p", _, [landingOf]⟩, rfl,
    (landed_of_calm plainHash .empty nofun _
      ⟨[.beginLand 0 landingOf, .endLand 0], .cons ⟨by decide, ?_⟩
        (.cons ⟨by decide, ?_⟩ (.nil _))⟩).1⟩
  · rintro id (⟨_, h⟩ | h)
    · cases h
    · cases h
  · rintro id (⟨_, h⟩ | h) op hop
    · cases h
    · obtain rfl := Action.endLand.inj h
      obtain rfl : Op.landing .empty landingOf = op := Option.some.inj hop
      exact fun _ _ => rfl

/-- A claim lands while a run over its source awaits its emitter. -/
def overwritten : List Action :=
  [.beginUpsert 0 "s" ⟨['x'], [⟨"b", "", "", none⟩], none, 0⟩, .beginLand 1 landingOf,
    .endLand 1, .endUpsert 0 ⟨["b"], []⟩]

/-- **LANDED, THEN LOST.**  The run writes the state it read before the landing. -/
theorem landed_then_lost : ∃ s, (landMachine plainHash).Reach ⟨.empty, .empty, []⟩ s
    ∧ s.landed = [landingOf]
    ∧ (claimsAt s.file landingOf.sourceId).find landingOf.key = none := by
  obtain ⟨s, hrun, hs⟩ := Machine.reach_of_runs_any (M := landMachine plainHash)
    (s := ⟨.empty, .empty, []⟩) (l := overwritten)
    (Q := fun s => decide (s.landed = [landingOf])
      && decide ((claimsAt s.file landingOf.sourceId).find landingOf.key = none))
    (by decide +kernel)
  rw [Bool.and_eq_true, decide_eq_true_eq, decide_eq_true_eq] at hs
  exact ⟨s, hrun, hs.1, hs.2⟩

end Distill
