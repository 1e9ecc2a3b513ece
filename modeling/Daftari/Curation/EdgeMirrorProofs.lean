import Daftari.Curation.EdgeVotesProofs
import Mathlib.Tactic.NormNum

/-! # Mirrored records — an edge has no orientation of its own

    A record says which of its two paths derives from the other, and the same sighting can
    be written down the other way about.  The store keys an edge by its sorted pair and
    moves every premise vote to the sorted endpoints, so that it should not matter.

    * `RawEdgeRecord.mirror`, `turned`: a record and a state the other way about;
    * `orientation_free_iff`: **which logs an edge has one identity in**. -/

namespace Edges

/-! ## The strength model -/

def edgeHalfLifeDays : ℚ := 90

def edgeTriggerStrength : ℚ := 1 / 2

/-- What is left to the language and the libraries once the strength model is filled in. -/
structure Engine where
  parseLine : String → Option Fields
  stringify : Fields → String
  dateParse : String → Option Int
  /-- `0.5 ** x`. -/
  halved : ℚ → ℚ
  localeCompare : String → String → Ordering
  toSecondISO : Int → String
  bindText : JsonValue → Except String (Option String)

namespace Engine

variable (engine : Engine)

/-- `daysBetween`; every record that is read has an instant. -/
def daysBetween (iso : String) (now : Int) : ℚ :=
  (now - (engine.dateParse iso).getD 0 : Int) / 86400000

def agedStrength (kSurvived : Nat) (lastRederived : String) (now : Int) : ℚ :=
  let k := min (max kSurvived 0) edgeKCap
  if k = 0 then 0
  else k * engine.halved (max 0 (engine.daysBetween lastRederived now) / edgeHalfLifeDays)

/-- The store on this engine. -/
def host : Host Int ℚ where
  parseLine := engine.parseLine
  stringify := engine.stringify
  dateParse := engine.dateParse
  agedStrength := engine.agedStrength
  zero := 0
  triggerStrength := edgeTriggerStrength
  localeCompare := engine.localeCompare
  toSecondISO := engine.toSecondISO
  bindText := engine.bindText

theorem agedStrength_zero (last : String) (now : Int) : engine.agedStrength 0 last now = 0 := rfl

theorem liveStatus_ne_of_zero (revoked : Bool) (last : String) (now : Int) :
    liveStatus engine.host revoked (liveStrength engine.host revoked 0 last now)
      ≠ .triggerBearing := by
  cases revoked with
  | true =>
      intro h
      cases h
  | false =>
      have hstrength : liveStrength engine.host false 0 last now = 0 :=
        engine.agedStrength_zero last now
      show (if edgeTriggerStrength ≤ 0 then EdgeStatus.triggerBearing else .candidate) ≠ _
      have hnot : ¬ edgeTriggerStrength ≤ 0 := by
        unfold edgeTriggerStrength
        norm_num
      rw [if_neg hnot]
      intro h
      cases h

end Engine

variable {T S : Type}

/-! ## Records the other way about -/

def PremiseVote.swapped : PremiseVote → PremiseVote
  | .fromEnd => .toEnd
  | .toEnd => .fromEnd
  | .symmetric => .symmetric

/-- A premise vote with the two ends exchanged; what is no vote stays as it is. -/
def mirrorVote : Option JsonValue → Option JsonValue
  | some (.str "from") => some (.str "to")
  | some (.str "to") => some (.str "from")
  | vote => vote

def RawEdgeRecord.mirror (r : RawEdgeRecord) : RawEdgeRecord :=
  { r with fromPath := r.toPath, toPath := r.fromPath, premiseVote := mirrorVote r.premiseVote }

/-- A log in which any records stand the other way about. -/
def Mirrored : List RawEdgeRecord → List RawEdgeRecord → Prop :=
  List.Forall₂ fun r r' => r' = r ∨ r' = r.mirror

@[simp] theorem mirror_pair (r : RawEdgeRecord) : r.mirror.pair = r.pair :=
  canonPair_comm r.toPath r.fromPath

@[simp] theorem mirror_key (r : RawEdgeRecord) : r.mirror.key = r.key :=
  pairKey_comm r.toPath r.fromPath

@[simp] theorem mirror_attestation (r : RawEdgeRecord) : r.mirror.attestation = r.attestation :=
  rfl

theorem validPremiseVote_mirror (vote : Option JsonValue) :
    validPremiseVote (mirrorVote vote) = (validPremiseVote vote).map PremiseVote.swapped := by
  unfold mirrorVote
  split
  · rfl
  · rfl
  · rename_i hfrom hto
    unfold validPremiseVote
    split
    · exact absurd rfl hfrom
    · exact absurd rfl hto
    · rfl
    · rfl

@[simp] theorem mirror_canonVote (r : RawEdgeRecord) : r.mirror.canonVote = r.canonVote := by
  have hvote : r.mirror.premiseVote = mirrorVote r.premiseVote := rfl
  have hfrom : r.mirror.fromPath = r.toPath := rfl
  have hto : r.mirror.toPath = r.fromPath := rfl
  unfold RawEdgeRecord.canonVote
  rw [mirror_pair, hvote, hfrom, hto, validPremiseVote_mirror]
  cases validPremiseVote r.premiseVote with
  | none => rfl
  | some v => cases v <;> rfl

variable {recs : List RawEdgeRecord}

theorem trail_mirrored {recs' : List RawEdgeRecord} (h : Mirrored recs recs') (key : String) :
    Mirrored (trail recs key) (trail recs' key) := by
  induction h with
  | nil => exact List.Forall₂.nil
  | @cons r r' recs recs' hr hrest ih =>
      have hkey : r'.key = r.key := by
        rcases hr with rfl | rfl
        · rfl
        · exact mirror_key r
      unfold trail
      by_cases hk : r.key = key
      · rw [List.filter_cons_of_pos (by simpa using hk),
          List.filter_cons_of_pos (by simpa using hkey.trans hk)]
        exact List.Forall₂.cons hr ih
      · rw [List.filter_cons_of_neg (by simpa using hk),
          List.filter_cons_of_neg (by simpa [hkey] using hk)]
        exact ih

/-! ## States the other way about -/

/-- A state seeded the other way about. -/
def EdgeState.turned (st : EdgeState) : EdgeState :=
  { st with seedFrom := st.seedTo, seedTo := st.seedFrom }

/-- Two states, the same but for the way the seed stood. -/
def Turned (e e' : Option EdgeState) : Prop := e' = e ∨ e' = e.map EdgeState.turned

theorem Turned.trans {e e' e'' : Option EdgeState} (h : Turned e e') (h' : Turned e' e'') :
    Turned e e'' := by
  rcases h with rfl | rfl
  · exact h'
  · rcases h' with rfl | rfl
    · exact Or.inr rfl
    · left
      cases e <;> rfl

variable (host : Host T S)

theorem observeAgain_mirror (st : EdgeState) (r : RawEdgeRecord) :
    observeAgain host st r.mirror = observeAgain host st r := by
  unfold observeAgain
  rw [mirror_canonVote, mirror_attestation]
  rfl

theorem observeAgain_turned (st : EdgeState) (r : RawEdgeRecord) :
    observeAgain host st.turned r = (observeAgain host st r).turned := by
  unfold observeAgain
  cases r.attestation with
  | none => rfl
  | some voted =>
      show (if voted ∉ st.votedPairs ∨ gapReached host r.atISO st.lastRederived = true
        then countVote _ r voted else _) = EdgeState.turned
        (if voted ∉ st.votedPairs ∨ gapReached host r.atISO st.lastRederived = true
          then countVote _ r voted else _)
      by_cases hcounts : voted ∉ st.votedPairs ∨ gapReached host r.atISO st.lastRederived = true
      · rw [if_pos hcounts, if_pos hcounts]
        rfl
      · rw [if_neg hcounts, if_neg hcounts]
        rfl

theorem seed_mirror (r : RawEdgeRecord) : seed r.mirror = (seed r).turned := by
  unfold seed EdgeState.turned
  rw [mirror_pair, mirror_canonVote]
  rfl

/-- **Step lemma: a mirrored record does to a state what the record does.** -/
theorem turned_nextState_mirror (e : Option EdgeState) (r : RawEdgeRecord) :
    Turned (nextState host e r) (nextState host e r.mirror) := by
  have hkind : r.mirror.kind = r.kind := rfl
  unfold nextState
  rw [hkind]
  cases r.kind with
  | contest => cases e <;> exact Or.inl rfl
  | observe =>
      cases e with
      | none => exact Or.inr (congrArg some (seed_mirror r))
      | some st =>
          dsimp only
          by_cases hrev : st.revoked = true
          · rw [if_pos hrev, if_pos hrev]
            exact Or.inr (congrArg some (seed_mirror r))
          · rw [if_neg hrev, if_neg hrev]
            exact Or.inl (congrArg some (observeAgain_mirror host st r))

theorem turned_nextState {e e' : Option EdgeState} (h : Turned e e') (r : RawEdgeRecord) :
    Turned (nextState host e r) (nextState host e' r) := by
  rcases h with rfl | rfl
  · exact Or.inl rfl
  · cases e with
    | none => exact Or.inl rfl
    | some st =>
        have hsame : st.turned.revoked = st.revoked := rfl
        unfold nextState
        rw [Option.map_some]
        cases r.kind with
        | contest =>
            dsimp only
            rw [hsame]
            by_cases hrev : st.revoked = true
            · rw [if_pos hrev, if_pos hrev]
              exact Or.inr rfl
            · rw [if_neg hrev, if_neg hrev]
              exact Or.inr rfl
        | observe =>
            dsimp only
            rw [hsame]
            by_cases hrev : st.revoked = true
            · rw [if_pos hrev, if_pos hrev]
              exact Or.inl rfl
            · rw [if_neg hrev, if_neg hrev]
              exact Or.inr (congrArg some (observeAgain_turned host st r))

variable {rs : List RawEdgeRecord}

theorem turned_stateOf {rs' : List RawEdgeRecord} (h : Mirrored rs rs') :
    Turned (stateOf host rs) (stateOf host rs') := by
  have hfold : ∀ e e', Turned e e' →
      Turned (rs.foldl (nextState host) e) (rs'.foldl (nextState host) e') := by
    induction h with
    | nil => exact fun _ _ he => he
    | @cons r r' rs rs' hr hrest ih =>
        intro e e' he
        refine ih _ _ ?_
        rcases hr with rfl | rfl
        · exact turned_nextState host he r'
        · exact (turned_nextState host he r).trans (turned_nextState_mirror host e' r)
  exact hfold none none (Or.inl rfl)

/-! ## The latest cycle -/

/-- The sightings of the latest cycle of a trail: those since the last contest, or before
    it when none has come since. -/
def latestCycle (rs : List RawEdgeRecord) : List RawEdgeRecord :=
  ((rs.reverse.dropWhile fun r => r.kind = .contest).takeWhile fun r => r.kind = .observe).reverse

variable {r : RawEdgeRecord}

theorem latestCycle_contest (rs : List RawEdgeRecord) (h : r.kind = .contest) :
    latestCycle (rs ++ [r]) = latestCycle rs := by
  unfold latestCycle
  rw [List.reverse_append, List.reverse_singleton, List.singleton_append,
    List.dropWhile_cons_of_pos (by simpa using h)]

theorem latestCycle_observe (h : r.kind = .observe)
    (hlast : ∀ before c, rs = before ++ [c] → c.kind = .contest) :
    latestCycle (rs ++ [r]) = [r] := by
  have hnot : r.kind ≠ .contest := by rw [h]; exact RecordKind.noConfusion
  unfold latestCycle
  rw [List.reverse_append, List.reverse_singleton, List.singleton_append,
    List.dropWhile_cons_of_neg (by simpa using hnot),
    List.takeWhile_cons_of_pos (by simpa using h)]
  cases rs using List.reverseRecOn with
  | nil => rfl
  | append_singleton before c =>
      have hc : c.kind ≠ .observe := by
        rw [hlast before c rfl]
        exact RecordKind.noConfusion
      rw [List.reverse_append, List.reverse_singleton, List.singleton_append,
        List.takeWhile_cons_of_neg (by simpa using hc)]
      rfl

theorem latestCycle_observe_again {before : List RawEdgeRecord} {o : RawEdgeRecord}
    (ho : o.kind = .observe) (h : r.kind = .observe) :
    latestCycle (before ++ [o] ++ [r]) = latestCycle (before ++ [o]) ++ [r] := by
  have hnot : ∀ x : RawEdgeRecord, x.kind = .observe → x.kind ≠ .contest := by
    intro x hx
    rw [hx]
    exact RecordKind.noConfusion
  unfold latestCycle
  rw [List.reverse_append, List.reverse_singleton, List.singleton_append,
    List.dropWhile_cons_of_neg (by simpa using hnot r h),
    List.takeWhile_cons_of_pos (by simpa using h), List.reverse_cons,
    List.reverse_append, List.reverse_singleton, List.singleton_append,
    List.dropWhile_cons_of_neg (by simpa using hnot o ho)]

theorem mem_of_mem_latestCycle (h : r ∈ latestCycle rs) : r ∈ rs ∧ r.kind = .observe := by
  unfold latestCycle at h
  rw [List.mem_reverse] at h
  refine ⟨?_, by simpa using List.mem_takeWhile_imp h⟩
  exact List.mem_reverse.mp ((List.dropWhile_sublist _).subset
    ((List.takeWhile_sublist _).subset h))

/-- How the state of a trail stands tells how the trail ends: in a sighting when it is live,
    in a contest or not at all when it is not. -/
theorem ends_of_stateOf (rs : List RawEdgeRecord) :
    (∀ st, stateOf host rs = some st → st.revoked = false →
      ∃ before o, rs = before ++ [o] ∧ o.kind = .observe) ∧
    ((∀ st, stateOf host rs = some st → st.revoked = true) →
      ∀ before c, rs = before ++ [c] → c.kind = .contest) := by
  constructor
  · intro st hst hrev
    have hends := stateOf_endsAs host rs st hst
    unfold EndsAs at hends
    rw [hrev, if_neg Bool.false_ne_true] at hends
    exact hends.2
  · rintro hstands before c rfl
    cases hkind : c.kind with
    | contest => rfl
    | observe =>
        have hmem : c ∈ before ++ [c] := by simp
        obtain ⟨st, hst⟩ := stateOf_isSome host hmem hkind
        have hlive := (nextState_observe host hkind (stateOf_endsAs host before)
          (stateOf_append host before c ▸ hst)).1
        rw [hstands st hst] at hlive
        cases hlive

theorem mem_observeAgain_premiseVotes (st : EdgeState) (r : RawEdgeRecord) (v : PremiseVote) :
    v ∈ (observeAgain host st r).premiseVotes ↔ v ∈ st.premiseVotes ∨ r.canonVote = some v := by
  have hvotes : (observeAgain host st r).premiseVotes =
      (r.canonVote.map (insertNew st.premiseVotes)).getD st.premiseVotes := by
    unfold observeAgain
    split
    · rfl
    · split <;> rfl
  rw [hvotes]
  cases r.canonVote with
  | none => simp
  | some w =>
      show v ∈ insertNew st.premiseVotes w ↔ _
      unfold insertNew
      split
      · rename_i hmem
        constructor
        · exact Or.inl
        · rintro (hv | hv)
          · exact hv
          · exact Option.some.inj hv ▸ hmem
      · rw [List.mem_append, List.mem_singleton, Option.some.injEq, eq_comm (a := v)]

variable {st : EdgeState}

/-- **The votes of a state are those of its latest cycle.** -/
theorem mem_premiseVotes (rs : List RawEdgeRecord) (h : stateOf host rs = some st)
    (v : PremiseVote) : v ∈ st.premiseVotes ↔ ∃ r ∈ latestCycle rs, r.canonVote = some v := by
  induction rs using List.reverseRecOn generalizing st with
  | nil => cases h
  | append_singleton rs r ih =>
      rw [stateOf_append] at h
      have hends := ends_of_stateOf host rs
      cases hkind : r.kind with
      | contest =>
          rw [latestCycle_contest rs hkind]
          unfold nextState at h
          cases hs : stateOf host rs with
          | none => simp only [hkind, hs, reduceCtorEq] at h
          | some old =>
              simp only [hkind, hs, Option.some.injEq] at h
              have hvotes : st.premiseVotes = old.premiseVotes := by
                rw [← h]
                split <;> rfl
              rw [hvotes]
              exact ih hs
      | observe =>
          by_cases hlive : ∃ old, stateOf host rs = some old ∧ old.revoked = false
          · obtain ⟨old, hold, hrev⟩ := hlive
            obtain ⟨before, o, rfl, ho⟩ := hends.1 old hold hrev
            rw [latestCycle_observe_again ho hkind]
            unfold nextState at h
            simp only [hkind, hold, hrev, Option.some.injEq] at h
            subst h
            rw [if_neg Bool.false_ne_true, mem_observeAgain_premiseVotes, ih hold]
            simp [or_and_right, exists_or]
          · have hstands : ∀ old, stateOf host rs = some old → old.revoked = true := by
              intro old hold
              by_contra hrev
              exact hlive ⟨old, hold, by simpa using hrev⟩
            rw [latestCycle_observe hkind (hends.2 hstands)]
            have hseed : st = seed r := by
              unfold nextState at h
              cases hs : stateOf host rs with
              | none => simpa [hkind, hs, eq_comm] using h
              | some old => simpa [hkind, hs, hstands old hs, eq_comm] using h
            rw [hseed]
            show v ∈ r.canonVote.toList ↔ _
            simp

/-! ## The edge of a pair -/

def RawEdgeRecord.premisePath (r : RawEdgeRecord) : Option String :=
  match validPremiseVote r.premiseVote with
  | some .toEnd => some r.toPath
  | some .fromEnd => some r.fromPath
  | _ => none

def RawEdgeRecord.dependentPath (r : RawEdgeRecord) : Option String :=
  match validPremiseVote r.premiseVote with
  | some .toEnd => some r.fromPath
  | some .fromEnd => some r.toPath
  | _ => none

theorem paths_of_canonVote : (r.canonVote = some .fromEnd →
      r.premisePath = some r.pair.1 ∧ r.dependentPath = some r.pair.2) ∧
    (r.canonVote = some .toEnd →
      r.premisePath = some r.pair.2 ∧ r.dependentPath = some r.pair.1) := by
  have hpair : r.pair = (r.fromPath, r.toPath) ∨ r.pair = (r.toPath, r.fromPath) :=
    canonPair_eq r.fromPath r.toPath
  unfold RawEdgeRecord.canonVote RawEdgeRecord.premisePath RawEdgeRecord.dependentPath
  cases validPremiseVote r.premiseVote with
  | none => simp
  | some v =>
      rcases hpair with hpair | hpair <;> rw [hpair] <;> cases v <;> simp <;> grind

def edgeOf (host : Host T S) [LinearOrder S] (now : T) (recs : List RawEdgeRecord)
    (fromPath toPath : String) : Option (DerivesFromEdge S) :=
  ((collapse host recs).lookup (pairKey fromPath toPath)).map (deriveEdge host now)

/-- An edge shown the other way about. -/
def DerivesFromEdge.flipped (e : DerivesFromEdge S) : DerivesFromEdge S :=
  { e with fromPath := e.toPath, toPath := e.fromPath }

variable [LinearOrder S]

theorem deriveEdge_turned (now : T) (st : EdgeState) :
    deriveEdge host now st.turned = deriveEdge host now st ∨ (st.premiseVotes = [] ∧
        deriveEdge host now st.turned = (deriveEdge host now st).flipped) := by
  by_cases hvotes : st.premiseVotes = []
  · right
    refine ⟨hvotes, ?_⟩
    have horient : st.orientation = (st.seedFrom, st.seedTo) := by
      unfold EdgeState.orientation
      rw [hvotes]
      rfl
    have hturned : st.turned.orientation = (st.seedTo, st.seedFrom) := by
      have hsame : st.turned.premiseVotes = [] := hvotes
      unfold EdgeState.orientation
      rw [hsame]
      rfl
    unfold deriveEdge DerivesFromEdge.flipped
    rw [hturned, horient]
    rfl
  · left
    have horient : st.turned.orientation = st.orientation := by
      have hsame : st.turned.premiseVotes = st.premiseVotes := rfl
      unfold EdgeState.orientation
      rw [hsame]
      cases directionVerdictOf st.premiseVotes with
      | symmetric => rfl
      | directed =>
          rw [if_neg hvotes, if_neg hvotes]
          rfl
    unfold deriveEdge
    rw [horient]
    rfl

/-- **A mirrored log has the same edges, but for the way a pair without votes is shown.** -/
theorem edgeOf_mirrored (now : T) {recs' : List RawEdgeRecord} (h : Mirrored recs recs')
    (fromPath toPath : String) :
    edgeOf host now recs' fromPath toPath = edgeOf host now recs fromPath toPath ∨
      ((∀ r ∈ latestCycle (trail recs (pairKey fromPath toPath)), r.canonVote = none) ∧
        edgeOf host now recs' fromPath toPath
          = (edgeOf host now recs fromPath toPath).map DerivesFromEdge.flipped) := by
  unfold edgeOf
  rw [lookup_collapse, lookup_collapse]
  generalize pairKey fromPath toPath = key
  rcases turned_stateOf host (trail_mirrored h key) with hsame | hturned
  · rw [hsame]
    exact Or.inl rfl
  · rw [hturned]
    cases hst : stateOf host (trail recs key) with
    | none => exact Or.inl rfl
    | some st =>
        rcases deriveEdge_turned host now st with hedge | ⟨hvotes, hedge⟩
        · exact Or.inl (congrArg some hedge)
        · right
          refine ⟨?_, congrArg some hedge⟩
          intro r hr
          cases hvote : r.canonVote with
          | none => rfl
          | some v =>
              have hmem := (mem_premiseVotes host _ hst v).mpr ⟨r, hr, hvote⟩
              rw [hvotes] at hmem
              cases hmem

/-! ## Pairs that share a key -/

/-- No two observed pairs are kept under one key. -/
def KeysApart (recs : List RawEdgeRecord) : Prop :=
  ∀ r ∈ recs, ∀ r' ∈ recs, r.kind = .observe → r'.kind = .observe → r.key = r'.key →
    r.pair = r'.pair

theorem keysApart_of_no_newline
    (h : ∀ r ∈ recs, '\n' ∉ r.fromPath.toList ∧ '\n' ∉ r.toPath.toList) : KeysApart recs :=
  fun _ _ r' hr' _ _ hkey => canonPair_of_pairKey (h r' hr').1 (h r' hr').2 hkey

omit [LinearOrder S] in
theorem born_of_lookup {key : String} (h : (collapse host recs).lookup key = some st) :
    ∃ r ∈ recs, r.key = key ∧ Born r st := by
  rw [lookup_collapse] at h
  obtain ⟨r, hr, hborn⟩ := stateOf_born host _ h
  obtain ⟨hmem, hkey⟩ := List.mem_filter.mp hr
  exact ⟨r, hmem, by simpa using hkey, hborn⟩

omit [LinearOrder S] in
theorem lookup_of_observed (hr : r ∈ recs) (hkind : r.kind = .observe) :
    ∃ st, (collapse host recs).lookup r.key = some st := by
  rw [lookup_collapse]
  exact stateOf_isSome host (List.mem_filter.mpr ⟨hr, by simp⟩) hkind

theorem orientation_of_votes {v : PremiseVote} (hpair : (st.fromPath, st.toPath) = r.pair)
    (hvote : r.canonVote = some v) (hmem : v ∈ st.premiseVotes)
    (hdirected : directionVerdictOf st.premiseVotes = .directed) :
    r.premisePath = some st.orientation.2 ∧ r.dependentPath = some st.orientation.1 := by
  have hne : st.premiseVotes ≠ [] := List.ne_nil_of_mem hmem
  have hfrom : st.fromPath = r.pair.1 := congrArg Prod.fst hpair
  have hto : st.toPath = r.pair.2 := congrArg Prod.snd hpair
  unfold EdgeState.orientation
  rw [hdirected]
  rw [if_neg hne]
  unfold directionVerdictOf at hdirected
  have hnosym : PremiseVote.symmetric ∉ st.premiseVotes := by
    intro hsym
    rw [if_pos hsym] at hdirected
    cases hdirected
  rw [if_neg hnosym] at hdirected
  have hunanimous :
      ¬ (PremiseVote.fromEnd ∈ st.premiseVotes ∧ PremiseVote.toEnd ∈ st.premiseVotes) := by
    intro hboth
    rw [if_pos hboth] at hdirected
    cases hdirected
  cases v with
  | symmetric => exact absurd hmem hnosym
  | fromEnd =>
      rw [if_pos hmem, hfrom, hto]
      exact paths_of_canonVote.1 hvote
  | toEnd =>
      have hnot : PremiseVote.fromEnd ∉ st.premiseVotes := fun h => hunanimous ⟨h, hmem⟩
      rw [if_neg hnot, hfrom, hto]
      exact paths_of_canonVote.2 hvote

def edgesOfPair (host : Host T S) (now : T) (recs : List RawEdgeRecord)
    (pair : String × String) : List (DerivesFromEdge S) :=
  (edgesAt host now recs).filter fun e => canonPair e.fromPath e.toPath = pair

omit [LinearOrder S] in
theorem key_of_shown {key : String} (h : (key, st) ∈ collapse host recs)
    (hshown : canonPair st.orientation.1 st.orientation.2 = r.pair) : key = r.key := by
  obtain ⟨r₀, -, hkey, hborn⟩ :=
    born_of_lookup host (Assoc.lookup_of_mem (nodup_collapse host recs) h)
  rw [canonPair_orientation hborn] at hshown
  rw [← hkey]
  show edgeKey r₀.pair.1 r₀.pair.2 = edgeKey r.pair.1 r.pair.2
  rw [hshown]

theorem edgesOfPair_eq (now : T) (happart : KeysApart recs) (hr : r ∈ recs)
    (hkind : r.kind = .observe) : ∃ e, edgesOfPair host now recs r.pair = [e] := by
  obtain ⟨st, hst⟩ := lookup_of_observed host hr hkind
  refine ⟨deriveEdge host now st, ?_⟩
  have hsame : ∀ entry ∈ collapse host recs,
      decide (canonPair entry.2.orientation.1 entry.2.orientation.2 = r.pair)
        = decide (entry.1 = r.key) := by
    rintro ⟨key, st'⟩ hmem
    refine decide_eq_decide.mpr ⟨key_of_shown host hmem, ?_⟩
    rintro rfl
    obtain ⟨r₀, hr₀, hkey, hborn⟩ :=
      born_of_lookup host (Assoc.lookup_of_mem (nodup_collapse host recs) hmem)
    exact (canonPair_orientation hborn).trans (happart r₀ hr₀ r hr hborn.kind hkind hkey)
  have honly : (collapse host recs).filter (fun entry => entry.1 = r.key) = [(r.key, st)] :=
    Assoc.filter_eq_of_lookup (nodup_collapse host recs) hst
  unfold edgesOfPair edgesAt
  rw [List.filter_map]
  show List.map _ ((collapse host recs).filter fun entry =>
    decide (canonPair entry.2.orientation.1 entry.2.orientation.2 = r.pair)) = _
  rw [List.filter_congr hsame, honly]
  rfl

/-! ## After a contest -/

def votesFrom (host : Host T S) : Option EdgeState → List RawEdgeRecord → List RawEdgeRecord
  | _, [] => []
  | e, r :: rest =>
      (if e.any fun st => r.kind = .observe ∧ ¬ st.revoked ∧ counts host st r then [r] else [])
        ++ votesFrom host (nextState host e r) rest

omit [LinearOrder S] in
theorem kSurvived_of_no_votes {rest : List RawEdgeRecord} (hk : st.kSurvived = 0)
    (hvotes : votesFrom host (some st) rest = []) :
    ∃ st', rest.foldl (nextState host) (some st) = some st' ∧ st'.kSurvived = 0 := by
  induction rest generalizing st with
  | nil => exact ⟨st, rfl, hk⟩
  | cons r rest ih =>
      obtain ⟨hnow, hlater⟩ := List.append_eq_nil_iff.mp hvotes
      have hstep : ∃ st', nextState host (some st) r = some st' ∧ st'.kSurvived = 0 := by
        unfold nextState
        cases hkind : r.kind with
        | contest =>
            refine ⟨_, rfl, ?_⟩
            split
            · exact hk
            · exact hk
        | observe =>
            refine ⟨_, rfl, ?_⟩
            by_cases hrev : st.revoked = true
            · rw [if_pos hrev]
              rfl
            · rw [if_neg hrev]
              have hnot : counts host st r = false := by
                by_contra hcounts
                rw [if_pos (by simp [hkind, hrev, hcounts])] at hnow
                cases hnow
              rw [(observeAgain_of_not_counts hnot).1]
              exact hk
      obtain ⟨st', hnext, hk'⟩ := hstep
      rw [List.foldl_cons, hnext]
      rw [hnext] at hlater
      exact ih hk' hlater

/-! ## One identity -/

/-- Every edge of a log has one identity, whichever way its records stand, and a contest sticks. -/
structure OrientationFree (engine : Engine) (recs : List RawEdgeRecord) : Prop where
  /-- Records the other way about leave the edge of every pair as it is, or, when its cycle
      carries no vote, show it the other way about. -/
  mirrored : ∀ recs', Mirrored recs recs' → ∀ now a b,
    edgeOf engine.host now recs' a b = edgeOf engine.host now recs a b ∨
      ((∀ r ∈ latestCycle (trail recs (pairKey a b)), r.canonVote = none) ∧
        edgeOf engine.host now recs' a b
          = (edgeOf engine.host now recs a b).map DerivesFromEdge.flipped)
  /-- An observed pair has one edge. -/
  oneEdge : ∀ now, ∀ r ∈ recs, r.kind = .observe →
    (edgesOfPair engine.host now recs r.pair).length = 1
  /-- Every edge is that of an observed pair. -/
  observed : ∀ now, ∀ e ∈ edgesAt engine.host now recs,
    ∃ r ∈ recs, r.kind = .observe ∧ canonPair e.fromPath e.toPath = r.pair
  /-- A directed edge whose cycle carries votes points from the path that every vote of the
      cycle judged dependent to the one they all judged the premise. -/
  points : ∀ now a b e, edgeOf engine.host now recs a b = some e →
    e.directionVerdict = .directed →
    ∀ r ∈ latestCycle (trail recs (pairKey a b)), r.canonVote ≠ none →
      r.premisePath = some e.toPath ∧ r.dependentPath = some e.fromPath
  /-- A contest of a live edge revokes it, until it is observed again. -/
  revoked : ∀ a b before c contests, trail recs (pairKey a b) = before ++ c :: contests →
    c.kind = .contest → (∃ st, stateOf engine.host before = some st ∧ st.revoked = false) →
    (∀ r ∈ contests, r.kind = .contest) → ∀ now,
    ∃ e, edgeOf engine.host now recs a b = some e ∧ e.status = .revoked ∧ e.strength = 0
  /-- Observed again, it has survived nothing and bears no trigger until a vote counts. -/
  afresh : ∀ a b before c contests o later,
    trail recs (pairKey a b) = before ++ c :: (contests ++ o :: later) →
    c.kind = .contest → (∃ st, stateOf engine.host before = some st ∧ st.revoked = false) →
    (∀ r ∈ contests, r.kind = .contest) → o.kind = .observe →
    votesFrom engine.host (stateOf engine.host (before ++ c :: (contests ++ [o]))) later = [] →
    ∀ now, ∃ e, edgeOf engine.host now recs a b = some e ∧ e.kSurvived = 0 ∧
      e.status ≠ .triggerBearing

theorem edgeOf_of_stateOf {host : Host T S} {a b : String}
    (h : stateOf host (trail recs (pairKey a b)) = some st) (now : T) :
    edgeOf host now recs a b = some (deriveEdge host now st) := by
  unfold edgeOf
  rw [lookup_collapse, h]
  rfl

omit [LinearOrder S] in
theorem stateOf_contest {before contests : List RawEdgeRecord} {c : RawEdgeRecord}
    (hst : stateOf host before = some st) (hlive : st.revoked = false) (hc : c.kind = .contest)
    (hcontests : ∀ r ∈ contests, r.kind = .contest) :
    stateOf host (before ++ c :: contests) = some (contested st c) := by
  have hnext : nextState host (some st) c = some (contested st c) := by
    unfold nextState
    rw [hc]
    dsimp only
    rw [hlive, if_neg Bool.false_ne_true]
  have hbefore : before.foldl (nextState host) none = some st := hst
  unfold stateOf
  rw [List.foldl_append, List.foldl_cons, hbefore, hnext]
  exact foldl_contests host rfl hcontests

theorem orientationFree_of_keysApart (engine : Engine) (happart : KeysApart recs) :
    OrientationFree engine recs where
  mirrored := fun _ h now a b => edgeOf_mirrored engine.host now h a b
  oneEdge := by
    intro now r hr hkind
    obtain ⟨e, he⟩ := edgesOfPair_eq engine.host now happart hr hkind
    rw [he]
    rfl
  observed := by
    intro now e he
    obtain ⟨⟨key, st⟩, hmem, rfl⟩ := List.mem_map.mp he
    obtain ⟨r, hr, -, hborn⟩ := born_of_lookup engine.host
      (Assoc.lookup_of_mem (nodup_collapse engine.host recs) hmem)
    exact ⟨r, hr, hborn.kind, canonPair_orientation hborn⟩
  points := by
    intro now a b e he hdirected r hr hvote
    obtain ⟨st, hst, rfl⟩ := Option.map_eq_some_iff.mp he
    obtain ⟨r₀, hr₀, hkey, hborn⟩ := born_of_lookup engine.host hst
    rw [lookup_collapse] at hst
    obtain ⟨htrail, hkind⟩ := mem_of_mem_latestCycle hr
    obtain ⟨hmem, hrkey⟩ := List.mem_filter.mp htrail
    have hpair : (st.fromPath, st.toPath) = r.pair :=
      hborn.pair.trans (happart r₀ hr₀ r hmem hborn.kind hkind
        (hkey.trans (of_decide_eq_true hrkey).symm))
    obtain ⟨v, hv⟩ := Option.ne_none_iff_exists'.mp hvote
    exact orientation_of_votes hpair hv
      ((mem_premiseVotes engine.host _ hst v).mpr ⟨r, hr, hv⟩) hdirected
  revoked := by
    rintro a b before c contests htrail hc ⟨st, hst, hlive⟩ hcontests now
    have hstate := stateOf_contest engine.host hst hlive hc hcontests
    rw [← htrail] at hstate
    exact ⟨_, edgeOf_of_stateOf hstate now, rfl, rfl⟩
  afresh := by
    rintro a b before c contests o later htrail hc ⟨st, hst, hlive⟩ hcontests ho hvotes now
    have hstate := stateOf_contest engine.host hst hlive hc hcontests
    have hseed : stateOf engine.host (before ++ c :: (contests ++ [o])) = some (seed o) := by
      have hsplit : before ++ c :: (contests ++ [o]) = (before ++ c :: contests) ++ [o] := by simp
      rw [hsplit, stateOf_append, hstate]
      unfold nextState
      rw [ho]
      rfl
    rw [hseed] at hvotes
    obtain ⟨st', hfold, hk⟩ := kSurvived_of_no_votes engine.host rfl hvotes
    have hend : stateOf engine.host (trail recs (pairKey a b)) = some st' := by
      have hsplit : before ++ c :: (contests ++ o :: later)
          = (before ++ c :: (contests ++ [o])) ++ later := by simp
      have hseed' : (before ++ c :: (contests ++ [o])).foldl (nextState engine.host) none
          = some (seed o) := hseed
      rw [htrail, hsplit]
      unfold stateOf
      rw [List.foldl_append, hseed']
      exact hfold
    refine ⟨_, edgeOf_of_stateOf hend now, hk, ?_⟩
    show liveStatus engine.host st'.revoked
      (liveStrength engine.host st'.revoked st'.kSurvived st'.lastRederived now) ≠ _
    rw [hk]
    exact engine.liveStatus_ne_of_zero st'.revoked st'.lastRederived now

theorem keysApart_of_oneEdge (engine : Engine)
    (h : ∀ r ∈ recs, r.kind = .observe → (edgesOfPair engine.host 0 recs r.pair).length = 1) :
    KeysApart recs := by
  intro r hr r' hr' hkind hkind' hkey
  have hshown : ∀ x ∈ recs, x.kind = .observe → ∃ st,
      (collapse engine.host recs).lookup x.key = some st ∧
        canonPair st.orientation.1 st.orientation.2 = x.pair := by
    intro x hx hxkind
    obtain ⟨e, he⟩ := List.length_eq_one_iff.mp (h x hx hxkind)
    have hmem : e ∈ edgesOfPair engine.host 0 recs x.pair := he ▸ List.mem_singleton_self e
    obtain ⟨hedge, hpair⟩ := List.mem_filter.mp hmem
    obtain ⟨⟨key, st⟩, hentry, rfl⟩ := List.mem_map.mp hedge
    have hends : canonPair st.orientation.1 st.orientation.2 = x.pair := of_decide_eq_true hpair
    obtain rfl := key_of_shown engine.host hentry hends
    exact ⟨st, Assoc.lookup_of_mem (nodup_collapse engine.host recs) hentry, hends⟩
  obtain ⟨st, hst, hpair⟩ := hshown r hr hkind
  obtain ⟨st', hst', hpair'⟩ := hshown r' hr' hkind'
  rw [hkey, hst'] at hst
  obtain rfl := Option.some.inj hst
  exact hpair.symm.trans hpair'

/-- **Edge identity is orientation-free and revocation sticks in a log exactly when no two
    observed pairs share a key: each pair then has its one edge, whichever way the records
    stand, and it points where its votes say.** -/
theorem orientation_free_iff (engine : Engine) (log : Option String) :
    OrientationFree engine (readRawRecords engine.host log) ↔
      KeysApart (readRawRecords engine.host log) :=
  ⟨fun h => keysApart_of_oneEdge engine (h.oneEdge 0), orientationFree_of_keysApart engine⟩

/-- An engine that reads two lines: sightings of two pairs of paths with line breaks. -/
def brokenPaths : Engine where
  parseLine line :=
    if line = "first" then
      some [("kind", .str "observe"), ("from", .str "a\nb"), ("to", .str "c"), ("at", .str "t")]
    else if line = "second" then
      some [("kind", .str "observe"), ("from", .str "a"), ("to", .str "b\nc"), ("at", .str "t")]
    else none
  stringify _ := ""
  dateParse _ := some 0
  halved _ := 1
  localeCompare := compare
  toSecondISO _ := ""
  bindText _ := .ok none

/-- **Two pairs, one edge**: a line break inside a path makes two pairs share a key, and the
    pair that is observed second has no edge of its own. -/
theorem two_pairs_one_edge :
    ¬ OrientationFree brokenPaths (readRawRecords brokenPaths.host (some "first\nsecond")) := by
  intro h
  have hpair := h.oneEdge 0 ⟨.observe, "a", "b\nc", "t", none, none, none, none, none, none⟩
  revert hpair
  decide +kernel

end Edges
