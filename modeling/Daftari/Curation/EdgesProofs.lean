import Daftari.Lib.AssocProofs
import Daftari.Lib.TextProofs
import Daftari.Lib.SortProofs

/-! # The edge log — records, collapse, the derived edges

    `.daftari/edges.jsonl` is append-only and canonical: one JSON record a line, an `observe` for a
    sighting of `from derives_from to`, a `contest` for a failed re-derivation.  This module embeds
    how the log is read: which lines count (`readRawRecords`), how they collapse to one state per
    pair (`collapse`), what edge a state stands for at an instant (`deriveEdge`), and the answers
    computed straight from the log (`listEdgesFromLog`, `getEdgeFromLog`).

    The collapse is a fold over the log into a map; a key's own records decide its state
    (`lookup_collapse`), so what a state says is read off its trail: `reason_iff_stands` finds the
    one contest that stands. -/

namespace Edges

/-! ## Values and records -/

/-- A JSON value as the store tells them apart; a number is kept by its
    shortest text and an array or an object by its rendering. -/
inductive JsonValue where
  | null
  | bool (b : Bool)
  | num (lit : String)
  | str (s : String)
  | composite (text : String)
deriving DecidableEq, Repr

/-- The fields of a parsed object; a missing one is `undefined`. -/
abbrev Fields := List (String × JsonValue)

/-- `${v ?? ""}`. -/
def interpolated : Option JsonValue → String
  | none | some .null => ""
  | some (.bool b) => if b then "true" else "false"
  | some (.num lit) => lit
  | some (.str s) => s
  | some (.composite text) => text

/-- `typeof v === "string"`, with the string. -/
def stringOf : Option JsonValue → Option String
  | some (.str s) => some s
  | _ => none

def edgeKCap : Nat := 5

/-- `EDGE_REPLAY_GAP_DAYS`, in milliseconds. -/
def edgeReplayGapMs : Int := 1 * 86400000

def edgeAxes : List String := ["prompt", "input-neighborhood", "model"]

/-- `EDGE_STATUSES`. -/
inductive EdgeStatus where
  | candidate
  | triggerBearing
  | revoked
deriving DecidableEq, Repr

/-- `PREMISE_VOTES`: the endpoint an observation judged the premise. -/
inductive PremiseVote where
  | fromEnd
  | toEnd
  | symmetric
deriving DecidableEq, Repr

inductive DirectionVerdict where
  | directed
  | symmetric
deriving DecidableEq, Repr

inductive RecordKind where
  | observe
  | contest
deriving DecidableEq, Repr

/-- One record that survived the read filter.  The fields the filter does not
    check are still whatever the line held. -/
structure RawEdgeRecord where
  kind : RecordKind
  fromPath : String
  toPath : String
  atISO : String
  observer : Option JsonValue
  blind : Option JsonValue
  axis : Option JsonValue
  premiseVote : Option JsonValue
  model : Option JsonValue
  reason : Option JsonValue
deriving DecidableEq, Repr

/-- What the store takes from its host and its libraries.  `T` is the type of
    instants and `S` the type of strengths. -/
structure Host (T S : Type) where
  /-- `JSON.parse` of a line, where it gives an object. -/
  parseLine : String → Option Fields
  /-- `JSON.stringify` of a record. -/
  stringify : Fields → String
  /-- `Date.parse`, in milliseconds; `none` where it is not a number. -/
  dateParse : String → Option Int
  /-- `agedStrength`, the one function every reader shares. -/
  agedStrength : Nat → String → T → S
  /-- The strength of a revoked edge. -/
  zero : S
  /-- `EDGE_TRIGGER_STRENGTH`. -/
  triggerStrength : S
  localeCompare : String → String → Ordering
  /-- `toSecondISO`. -/
  toSecondISO : T → String
  /-- How the database binds a value to a text column: the text or null it
      holds afterwards, or the error it throws. -/
  bindText : JsonValue → Except String (Option String)

variable {T S : Type}

/-! ## Reading the log -/

/-- `raw.split("\n")`, each line trimmed, the empty ones skipped. -/
def trimmedLines (raw : String) : List String :=
  ((raw.toList.splitOn '\n').map fun l => String.ofList (Text.trim l)).filter
    fun l => l ≠ ""

/-- The kind of a record, if it is one of the two. -/
def kindOf : Option JsonValue → Option RecordKind
  | some (.str "observe") => some .observe
  | some (.str "contest") => some .contest
  | _ => none

/-- One line: a record of a known kind with string endpoints and a time that
    parses; anything else is a corrupt line. -/
def readLine (host : Host T S) (line : String) : Option RawEdgeRecord := do
  let fields ← host.parseLine line
  let kind ← kindOf (fields.lookup "kind")
  let fromPath ← stringOf (fields.lookup "from")
  let toPath ← stringOf (fields.lookup "to")
  let atISO ← stringOf (fields.lookup "at")
  let _ ← host.dateParse atISO
  return { kind := kind, fromPath := fromPath, toPath := toPath, atISO := atISO,
           observer := fields.lookup "by", blind := fields.lookup "blind",
           axis := fields.lookup "axis",
           premiseVote := fields.lookup "premiseVote",
           model := fields.lookup "model", reason := fields.lookup "reason" }

/-- `readRawRecords`; an absent log has no records. -/
def readRawRecords (host : Host T S) : Option String → List RawEdgeRecord
  | none => []
  | some raw => (trimmedLines raw).filterMap (readLine host)

/-! ## Pairs and keys -/

def edgeKey (fromPath toPath : String) : String := fromPath ++ "\n" ++ toPath

/-- `canonPair`: the pair in string order. -/
def canonPair (fromPath toPath : String) : String × String :=
  if Text.lt toPath fromPath then (toPath, fromPath) else (fromPath, toPath)

/-- The durable key of a pair in either order. -/
def pairKey (fromPath toPath : String) : String :=
  edgeKey (canonPair fromPath toPath).1 (canonPair fromPath toPath).2

def RawEdgeRecord.pair (r : RawEdgeRecord) : String × String :=
  canonPair r.fromPath r.toPath

def RawEdgeRecord.key (r : RawEdgeRecord) : String := pairKey r.fromPath r.toPath

variable (a : String)

theorem canonPair_eq (b : String) : canonPair a b = (a, b) ∨ canonPair a b = (b, a) := by
  unfold canonPair
  split
  · exact Or.inr rfl
  · exact Or.inl rfl

theorem canonPair_comm (b : String) : canonPair a b = canonPair b a :=
  Text.sorted_comm Prod.mk a b

theorem canonPair_canonPair (b : String) :
    canonPair (canonPair a b).1 (canonPair a b).2 = canonPair a b := by
  rcases canonPair_eq a b with h | h
  · rw [h]
    exact h
  · rw [h]
    exact (canonPair_comm b a).trans h

theorem pairKey_comm (b : String) : pairKey a b = pairKey b a := by
  unfold pairKey
  rw [canonPair_comm]

theorem edgeKey_inj {a b c d : String} (hc : '\n' ∉ c.toList) (hd : '\n' ∉ d.toList)
    (h : edgeKey a b = edgeKey c d) : a = c ∧ b = d := by
  have hl : a.toList ++ '\n' :: b.toList = c.toList ++ '\n' :: d.toList := by
    have h' := congrArg String.toList h
    simpa [edgeKey] using h'
  obtain ⟨hac, -, hbd⟩ := (List.append_cons_inj_of_notMem hc hd).mp hl.symm
  exact ⟨String.toList_inj.mp hac.symm, String.toList_inj.mp hbd.symm⟩

theorem canonPair_of_pairKey {a b c d : String} (hc : '\n' ∉ c.toList)
    (hd : '\n' ∉ d.toList) (h : pairKey a b = pairKey c d) : canonPair a b = canonPair c d := by
  have hcd : '\n' ∉ (canonPair c d).1.toList ∧ '\n' ∉ (canonPair c d).2.toList := by
    rcases canonPair_eq c d with he | he
    · rw [he]
      exact ⟨hc, hd⟩
    · rw [he]
      exact ⟨hd, hc⟩
  obtain ⟨h₁, h₂⟩ := edgeKey_inj hcd.1 hcd.2 h
  exact Prod.ext h₁ h₂

theorem canonPair_eq_iff (b c d : String) :
    canonPair a b = canonPair c d ↔ (a = c ∧ b = d) ∨ (a = d ∧ b = c) := by
  constructor
  · intro h
    rcases canonPair_eq a b with h₁ | h₁ <;> rcases canonPair_eq c d with h₂ | h₂ <;>
      · rw [h₁, h₂, Prod.mk.injEq] at h
        obtain ⟨rfl, rfl⟩ := h
        simp
  · rintro (⟨rfl, rfl⟩ | ⟨rfl, rfl⟩)
    · rfl
    · exact canonPair_comm a b

/-! ## Collapse -/

/-- `EdgeState`: what the collapse accumulates for one pair. -/
structure EdgeState where
  fromPath : String
  toPath : String
  seedFrom : String
  seedTo : String
  kSurvived : Nat
  firstObserved : String
  lastRederived : String
  observations : Nat
  revoked : Bool
  contestedAt : Option String
  contestReason : JsonValue
  votedPairs : List String
  premiseVotes : List PremiseVote
deriving DecidableEq, Repr

/-- Adding to a set kept as a list. -/
def insertNew {α : Type} [DecidableEq α] (l : List α) (a : α) : List α :=
  if a ∈ l then l else l ++ [a]

def directionVerdictOf (votes : List PremiseVote) : DirectionVerdict :=
  if .symmetric ∈ votes then .symmetric
  else if .fromEnd ∈ votes ∧ .toEnd ∈ votes then .symmetric
  else .directed

def validPremiseVote : Option JsonValue → Option PremiseVote
  | some (.str "from") => some .fromEnd
  | some (.str "to") => some .toEnd
  | some (.str "symmetric") => some .symmetric
  | _ => none

/-- A record's premise vote, moved to the canonical endpoints. -/
def RawEdgeRecord.canonVote (r : RawEdgeRecord) : Option PremiseVote :=
  match validPremiseVote r.premiseVote with
  | none => none
  | some .symmetric => some .symmetric
  | some .toEnd => some (if r.toPath = r.pair.1 then .fromEnd else .toEnd)
  | some .fromEnd => some (if r.fromPath = r.pair.1 then .fromEnd else .toEnd)

/-- The attestation of a record that may count as a vote: blind, on a known
    axis, by a named observer. -/
def RawEdgeRecord.attestation (r : RawEdgeRecord) : Option String :=
  match r.blind, stringOf r.axis, stringOf r.observer with
  | some (.bool true), some axis, some observer =>
      if axis ∈ edgeAxes ∧ 0 < observer.length then
        some (observer ++ "\n" ++ axis ++ "\n" ++ interpolated r.model)
      else none
  | _, _, _ => none

/-- `rec.reason ?? null`. -/
def RawEdgeRecord.reasonOrNull (r : RawEdgeRecord) : JsonValue :=
  r.reason.getD .null

/-- Seed, or re-seed after a contest: a fresh earning cycle. -/
def seed (r : RawEdgeRecord) : EdgeState where
  fromPath := r.pair.1
  toPath := r.pair.2
  seedFrom := r.fromPath
  seedTo := r.toPath
  kSurvived := 0
  firstObserved := r.atISO
  lastRederived := r.atISO
  observations := 1
  revoked := false
  contestedAt := none
  contestReason := .null
  votedPairs := r.attestation.toList
  premiseVotes := r.canonVote.toList

/-- `gapDays >= EDGE_REPLAY_GAP_DAYS`; false when a date does not parse. -/
def gapReached (host : Host T S) (atISO last : String) : Bool :=
  match host.dateParse atISO, host.dateParse last with
  | some a, some l => edgeReplayGapMs ≤ a - l
  | _, _ => false

/-- A counted vote: one more survival up to the cap, and a fresh clock. -/
def countVote (st : EdgeState) (r : RawEdgeRecord) (voted : String) : EdgeState :=
  { st with votedPairs := insertNew st.votedPairs voted,
            kSurvived := min (st.kSurvived + 1) edgeKCap,
            lastRederived := r.atISO }

/-- A later observation of a live edge: it is counted unless it does not
    qualify or replays an attestation within the gap. -/
def observeAgain (host : Host T S) (st : EdgeState) (r : RawEdgeRecord) : EdgeState :=
  let seen := { st with
    observations := st.observations + 1,
    premiseVotes := (r.canonVote.map (insertNew st.premiseVotes)).getD
      st.premiseVotes }
  match r.attestation with
  | none => seen
  | some voted =>
      if voted ∉ st.votedPairs ∨ gapReached host r.atISO st.lastRederived then
        countVote seen r voted
      else seen

def contested (st : EdgeState) (r : RawEdgeRecord) : EdgeState :=
  { st with revoked := true, contestedAt := some r.atISO,
            contestReason := r.reasonOrNull }

/-- What one record makes of the state of its key. -/
def nextState (host : Host T S) (existing : Option EdgeState)
    (r : RawEdgeRecord) : Option EdgeState :=
  match r.kind, existing with
  -- a contest of an edge that was never observed cannot stand alone
  | .contest, none => none
  | .contest, some st => some (if st.revoked then st else contested st r)
  | .observe, none => some (seed r)
  | .observe, some st =>
      some (if st.revoked then seed r else observeAgain host st r)

abbrev States := List (String × EdgeState)

def collapseStep (host : Host T S) (byKey : States) (r : RawEdgeRecord) : States :=
  match nextState host (byKey.lookup r.key) r with
  | none => byKey
  | some st => Assoc.set byKey r.key st

/-- `collapse`: the log to one state per pair, in file order. -/
def collapse (host : Host T S) (recs : List RawEdgeRecord) : States :=
  recs.foldl (collapseStep host) []

/-! ## A key's trail decides its state -/

/-- The records of one key, in file order. -/
def trail (recs : List RawEdgeRecord) (key : String) : List RawEdgeRecord :=
  recs.filter fun r => r.key = key

theorem trail_append (recs : List RawEdgeRecord) (r : RawEdgeRecord) (key : String) :
    trail (recs ++ [r]) key = if r.key = key then trail recs key ++ [r] else trail recs key := by
  unfold trail
  rw [List.filter_append]
  by_cases hk : r.key = key
  · rw [if_pos hk, List.filter_cons_of_pos (by simpa using hk), List.filter_nil]
  · rw [if_neg hk, List.filter_cons_of_neg (by simpa using hk), List.filter_nil,
      List.append_nil]

def stateOf (host : Host T S) (rs : List RawEdgeRecord) : Option EdgeState :=
  rs.foldl (nextState host) none

variable (host : Host T S)

theorem stateOf_append (rs : List RawEdgeRecord) (r : RawEdgeRecord) :
    stateOf host (rs ++ [r]) = nextState host (stateOf host rs) r := by
  unfold stateOf
  rw [List.foldl_append]
  rfl

theorem collapse_append (recs : List RawEdgeRecord) (r : RawEdgeRecord) :
    collapse host (recs ++ [r]) = collapseStep host (collapse host recs) r := by
  unfold collapse
  rw [List.foldl_append]
  rfl

theorem lookup_collapseStep (m : States) (r : RawEdgeRecord) (key : String) :
    (collapseStep host m r).lookup key
      = if r.key = key then nextState host (m.lookup key) r else m.lookup key := by
  unfold collapseStep
  cases hn : nextState host (m.lookup r.key) r with
  | none =>
      show m.lookup key = _
      by_cases hk : r.key = key
      · subst hk
        rw [if_pos rfl, hn]
        -- only a contest of an absent edge leaves no state behind
        unfold nextState at hn
        cases hm : m.lookup r.key with
        | none => rfl
        | some st =>
            rw [hm] at hn
            cases hkind : r.kind <;> simp [hkind] at hn
      · rw [if_neg hk]
  | some st =>
      show (Assoc.set m r.key st).lookup key = _
      by_cases hk : r.key = key
      · subst hk
        rw [Assoc.lookup_set_self, if_pos rfl, hn]
      · rw [Assoc.lookup_set_of_ne _ _ (Ne.symm hk), if_neg hk]

/-- **A key's state is the collapse of its own records.** -/
theorem lookup_collapse (recs : List RawEdgeRecord) (key : String) :
    (collapse host recs).lookup key = stateOf host (trail recs key) := by
  induction recs using List.reverseRecOn with
  | nil => rfl
  | append_singleton recs r ih =>
      rw [collapse_append, lookup_collapseStep, ih, trail_append]
      by_cases hk : r.key = key
      · rw [if_pos hk, if_pos hk, stateOf_append]
      · rw [if_neg hk, if_neg hk]

theorem nodup_collapse (recs : List RawEdgeRecord) : (Assoc.keys (collapse host recs)).Nodup := by
  induction recs using List.reverseRecOn with
  | nil => exact List.nodup_nil
  | append_singleton recs r ih =>
      rw [collapse_append]
      unfold collapseStep
      cases nextState host ((collapse host recs).lookup r.key) r with
      | none => exact ih
      | some st => exact Assoc.nodup_set _ _ ih

theorem mem_collapse_iff (recs : List RawEdgeRecord) (key : String) (st : EdgeState) :
    (key, st) ∈ collapse host recs ↔ stateOf host (trail recs key) = some st := by
  rw [← lookup_collapse]
  exact ⟨Assoc.lookup_of_mem (nodup_collapse host recs), Assoc.mem_of_lookup⟩

/-! ## What a state remembers -/

/-- A state goes back to an observation: its endpoints are that record's. -/
structure Born (r : RawEdgeRecord) (st : EdgeState) : Prop where
  kind : r.kind = .observe
  pair : (st.fromPath, st.toPath) = r.pair
  seeded : (st.seedFrom, st.seedTo) = (r.fromPath, r.toPath)

variable {r : RawEdgeRecord}

theorem born_seed (h : r.kind = .observe) : Born r (seed r) :=
  ⟨h, rfl, rfl⟩

variable {st : EdgeState}

theorem Born.contested {r' : RawEdgeRecord} (h : Born r st) : Born r (contested st r') :=
  ⟨h.kind, h.pair, h.seeded⟩

theorem Born.observeAgain {r' : RawEdgeRecord} (h : Born r st) (host : Host T S) :
    Born r (observeAgain host st r') := by
  unfold Edges.observeAgain
  split
  · exact ⟨h.kind, h.pair, h.seeded⟩
  · split
    · exact ⟨h.kind, h.pair, h.seeded⟩
    · exact ⟨h.kind, h.pair, h.seeded⟩

/-- **Every state was born of an observation on its trail.** -/
theorem stateOf_born (rs : List RawEdgeRecord) (h : stateOf host rs = some st) :
    ∃ r ∈ rs, Born r st := by
  induction rs using List.reverseRecOn generalizing st with
  | nil => cases h
  | append_singleton rs r ih =>
      rw [stateOf_append] at h
      unfold nextState at h
      have hr : r ∈ rs ++ [r] := by simp
      cases hkind : r.kind with
      | observe =>
          cases hs : stateOf host rs with
          | none =>
              simp only [hkind, hs, Option.some.injEq] at h
              subst h
              exact ⟨r, hr, born_seed hkind⟩
          | some old =>
              simp only [hkind, hs, Option.some.injEq] at h
              subst h
              obtain ⟨r₀, hr₀, hborn⟩ := ih hs
              by_cases hrev : old.revoked = true
              · rw [if_pos hrev]
                exact ⟨r, hr, born_seed hkind⟩
              · rw [if_neg hrev]
                exact ⟨r₀, List.mem_append_left _ hr₀, hborn.observeAgain host⟩
      | contest =>
          cases hs : stateOf host rs with
          | none => simp only [hkind, hs, reduceCtorEq] at h
          | some old =>
              simp only [hkind, hs, Option.some.injEq] at h
              subst h
              obtain ⟨r₀, hr₀, hborn⟩ := ih hs
              refine ⟨r₀, List.mem_append_left _ hr₀, ?_⟩
              by_cases hrev : old.revoked = true
              · rw [if_pos hrev]
                exact hborn
              · rw [if_neg hrev]
                exact hborn.contested

variable {rs : List RawEdgeRecord}

theorem stateOf_isSome (hr : r ∈ rs) (hkind : r.kind = .observe) :
    ∃ st, stateOf host rs = some st := by
  induction rs using List.reverseRecOn with
  | nil => cases hr
  | append_singleton rs x ih =>
      rw [stateOf_append]
      rcases List.mem_append.mp hr with hr | hr
      · obtain ⟨st, hst⟩ := ih hr
        rw [hst]
        unfold nextState
        cases x.kind with
        | observe => exact ⟨_, rfl⟩
        | contest => exact ⟨_, rfl⟩
      · obtain rfl := List.mem_singleton.mp hr
        unfold nextState
        rw [hkind]
        cases stateOf host rs with
        | none => exact ⟨_, rfl⟩
        | some st => exact ⟨_, rfl⟩

/-! ## The contest that stands -/

/-- `c` stands at the end of a trail: it follows an observation, and only contests follow it. -/
def StandsIn (rs : List RawEdgeRecord) (c : RawEdgeRecord) : Prop :=
  ∃ before o after, rs = before ++ o :: c :: after ∧ o.kind = .observe
    ∧ c.kind = .contest ∧ ∀ x ∈ after, x.kind = .contest

/-- How a trail ends tells how its state stands: live after an observation,
    revoked by the first contest after one. -/
def EndsAs (rs : List RawEdgeRecord) (st : EdgeState) : Prop :=
  if st.revoked then ∃ c, StandsIn rs c ∧ st.contestReason = c.reasonOrNull
  else st.contestReason = .null ∧ ∃ before o, rs = before ++ [o] ∧ o.kind = .observe

theorem observeAgain_revoked (st : EdgeState) (r : RawEdgeRecord) :
    (observeAgain host st r).revoked = st.revoked := by
  unfold observeAgain
  split
  · rfl
  · split <;> rfl

theorem observeAgain_contestReason (st : EdgeState) (r : RawEdgeRecord) :
    (observeAgain host st r).contestReason = st.contestReason := by
  unfold observeAgain
  split
  · rfl
  · split <;> rfl

theorem nextState_observe (hkind : r.kind = .observe)
    (ih : ∀ st, stateOf host rs = some st → EndsAs rs st)
    (h : nextState host (stateOf host rs) r = some st) :
    st.revoked = false ∧ st.contestReason = .null := by
  unfold nextState at h
  cases hs : stateOf host rs with
  | none =>
      simp only [hkind, hs, Option.some.injEq] at h
      subst h
      exact ⟨rfl, rfl⟩
  | some old =>
      simp only [hkind, hs, Option.some.injEq] at h
      subst h
      have hold := ih old hs
      by_cases hrev : old.revoked = true
      · rw [if_pos hrev]
        exact ⟨rfl, rfl⟩
      · rw [if_neg hrev, observeAgain_revoked, observeAgain_contestReason]
        unfold EndsAs at hold
        rw [if_neg hrev] at hold
        exact ⟨by simpa using hrev, hold.1⟩

/-- **What the end of a trail says is what its state says.** -/
theorem stateOf_endsAs (rs : List RawEdgeRecord) :
    ∀ st, stateOf host rs = some st → EndsAs rs st := by
  induction rs using List.reverseRecOn with
  | nil =>
      intro st h
      cases h
  | append_singleton rs r ih =>
      intro st h
      rw [stateOf_append] at h
      cases hkind : r.kind with
      | observe =>
          obtain ⟨hrev, hreason⟩ := nextState_observe host hkind ih h
          unfold EndsAs
          rw [hrev, if_neg Bool.false_ne_true]
          exact ⟨hreason, rs, r, rfl, hkind⟩
      | contest =>
          unfold nextState at h
          cases hs : stateOf host rs with
          | none => simp only [hkind, hs, reduceCtorEq] at h
          | some old =>
              simp only [hkind, hs, Option.some.injEq] at h
              subst h
              have hold := ih old hs
              unfold EndsAs at hold
              by_cases hrev : old.revoked = true
              · -- the standing contest keeps standing
                rw [if_pos hrev] at hold
                obtain ⟨c, ⟨before, o, after, rfl, ho, hc, hafter⟩, hreason⟩ := hold
                rw [if_pos hrev, EndsAs, if_pos hrev]
                refine ⟨c, ⟨before, o, after ++ [r], by simp, ho, hc, ?_⟩, hreason⟩
                exact List.forall_mem_append.mpr ⟨hafter, List.forall_mem_singleton.mpr hkind⟩
              · -- the first contest after an observation
                rw [if_neg hrev] at hold
                obtain ⟨-, before, o, rfl, ho⟩ := hold
                rw [if_neg hrev]
                show if true = true then _ else _
                refine ⟨r, ⟨before, o, [], by simp, ho, hkind, ?_⟩, rfl⟩
                intro x hx
                cases hx

theorem foldl_contests (h : st.revoked = true) {after : List RawEdgeRecord}
    (hafter : ∀ x ∈ after, x.kind = .contest) :
    after.foldl (nextState host) (some st) = some st := by
  induction after with
  | nil => rfl
  | cons x after ih =>
      have hx : nextState host (some st) x = some st := by
        unfold nextState
        rw [hafter x List.mem_cons_self]
        show some (if st.revoked then st else contested st x) = some st
        rw [if_pos h]
      rw [List.foldl_cons, hx]
      exact ih fun y hy => hafter y (List.mem_cons_of_mem _ hy)

theorem reason_of_standsIn {c : RawEdgeRecord} (h : StandsIn rs c) :
    ∃ st, stateOf host rs = some st ∧ st.contestReason = c.reasonOrNull := by
  obtain ⟨before, o, after, rfl, ho, hc, hafter⟩ := h
  have hmem : o ∈ before ++ [o] := by simp
  obtain ⟨live, hlive⟩ := stateOf_isSome host hmem ho
  have hrev : live.revoked = false := by
    rw [stateOf_append] at hlive
    exact (nextState_observe host ho (stateOf_endsAs host before) hlive).1
  refine ⟨contested live c, ?_, rfl⟩
  have hsplit : before ++ o :: c :: after = (before ++ [o]) ++ c :: after := by simp
  unfold stateOf at hlive ⊢
  rw [hsplit, List.foldl_append, hlive, List.foldl_cons]
  have hstep : nextState host (some live) c = some (contested live c) := by
    unfold nextState
    rw [hc]
    show some (if live.revoked then live else contested live c) = _
    rw [hrev, if_neg Bool.false_ne_true]
  rw [hstep]
  exact foldl_contests host rfl hafter

/-- **A reason is remembered exactly when its contest stands.** -/
theorem reason_iff_stands (recs : List RawEdgeRecord) (j : JsonValue) (hj : j ≠ .null) :
    (∃ key st, (key, st) ∈ collapse host recs ∧ st.contestReason = j)
      ↔ ∃ c, StandsIn (trail recs c.key) c ∧ c.reasonOrNull = j := by
  constructor
  · rintro ⟨key, st, hmem, hreason⟩
    have hst := (mem_collapse_iff host recs key st).mp hmem
    have hends := stateOf_endsAs host _ st hst
    unfold EndsAs at hends
    by_cases hrev : st.revoked = true
    · rw [if_pos hrev] at hends
      obtain ⟨c, hc, hcr⟩ := hends
      have hkey : c.key = key := by
        obtain ⟨before, o, after, htrail, -⟩ := hc
        have hmem' : c ∈ trail recs key := by
          rw [htrail]
          simp
        simpa using (List.mem_filter.mp hmem').2
      exact ⟨c, hkey ▸ hc, hcr.symm.trans hreason⟩
    · rw [if_neg hrev] at hends
      exact absurd (hreason.symm.trans hends.1) hj
  · rintro ⟨c, hc, hreason⟩
    obtain ⟨st, hst, hstr⟩ := reason_of_standsIn host hc
    exact ⟨c.key, st, (mem_collapse_iff host recs c.key st).mpr hst, hstr.trans hreason⟩

/-! ## Derived edges -/

structure DerivesFromEdge (S : Type) where
  fromPath : String
  toPath : String
  strength : S
  kSurvived : Nat
  firstObserved : String
  lastRederived : String
  status : EdgeStatus
  directionVerdict : DirectionVerdict
  observations : Nat
  contestedAt : Option String
  contestReason : JsonValue
deriving DecidableEq, Repr

/-- The endpoints an edge is shown with: dependent first, premise second. -/
def EdgeState.orientation (st : EdgeState) : String × String :=
  match directionVerdictOf st.premiseVotes with
  | .symmetric => (st.fromPath, st.toPath)
  | .directed =>
      if st.premiseVotes = [] then (st.seedFrom, st.seedTo)
      else if .fromEnd ∈ st.premiseVotes then (st.toPath, st.fromPath)
      else (st.fromPath, st.toPath)

/-- Whatever the votes say, an edge is shown between the endpoints of its pair. -/
theorem canonPair_orientation (h : Born r st) :
    canonPair st.orientation.1 st.orientation.2 = r.pair := by
  have hpair : canonPair st.fromPath st.toPath = r.pair := by
    have h₁ : st.fromPath = r.pair.1 := congrArg Prod.fst h.pair
    have h₂ : st.toPath = r.pair.2 := congrArg Prod.snd h.pair
    rw [h₁, h₂]
    exact canonPair_canonPair _ _
  have hseed : canonPair st.seedFrom st.seedTo = r.pair := by
    have h₁ : st.seedFrom = r.fromPath := congrArg Prod.fst h.seeded
    have h₂ : st.seedTo = r.toPath := congrArg Prod.snd h.seeded
    rw [h₁, h₂]
    rfl
  unfold EdgeState.orientation
  split
  · exact hpair
  · split
    · exact hseed
    · split
      · exact (canonPair_comm _ _).trans hpair
      · exact hpair

variable [LinearOrder S]

/-- Aged strength and live status, the way both read paths compute them. -/
def liveStrength (host : Host T S) (revoked : Bool) (k : Nat) (last : String) (now : T) : S :=
  if revoked then host.zero else host.agedStrength k last now

def liveStatus (host : Host T S) (revoked : Bool) (strength : S) : EdgeStatus :=
  if revoked then .revoked
  else if host.triggerStrength ≤ strength then .triggerBearing
  else .candidate

def deriveEdge (host : Host T S) (now : T) (st : EdgeState) : DerivesFromEdge S :=
  let strength := liveStrength host st.revoked st.kSurvived st.lastRederived now
  { fromPath := st.orientation.1
    toPath := st.orientation.2
    strength := strength
    kSurvived := st.kSurvived
    firstObserved := st.firstObserved
    lastRederived := st.lastRederived
    status := liveStatus host st.revoked strength
    directionVerdict := directionVerdictOf st.premiseVotes
    observations := st.observations
    contestedAt := st.contestedAt
    contestReason := st.contestReason }

/-- Every edge of a log at an instant, in the order of the map. -/
def edgesAt (host : Host T S) (now : T) (recs : List RawEdgeRecord) : List (DerivesFromEdge S) :=
  (collapse host recs).map fun e => deriveEdge host now e.2

/-! ## Answers from the log -/

structure ListEdgesFilter where
  fromPath : Option String
  toPath : Option String
  status : Option EdgeStatus

/-- `if (filter.x)`: an empty string filters nothing. -/
def truthy (v : Option String) : Option String := v.filter (· ≠ "")

def passes (filter : Option String) (path : String) : Bool :=
  match truthy filter with
  | none => true
  | some p => path = p

def passesStatus (filter : Option EdgeStatus) (status : EdgeStatus) : Bool :=
  match filter with
  | none => true
  | some s => status = s

def compareEdges (host : Host T S) : DerivesFromEdge S → DerivesFromEdge S → Ordering :=
  compareLex (fun a b => compare b.strength a.strength)
    (compareLex (fun a b => host.localeCompare a.fromPath b.fromPath)
      (fun a b => host.localeCompare a.toPath b.toPath))

def listEdgesFromLog (host : Host T S) (log : Option String)
    (filter : ListEdgesFilter) (now : T) : List (DerivesFromEdge S) :=
  let edges := edgesAt host now (readRawRecords host log)
  let edges := edges.filter fun e => passes filter.fromPath e.fromPath
  let edges := edges.filter fun e => passes filter.toPath e.toPath
  let edges := edges.filter fun e => passesStatus filter.status e.status
  Stable.sort (compareEdges host) edges

/-- The log fallback of `getEdge`. -/
def getEdgeFromLog (host : Host T S) (log : Option String)
    (fromPath toPath : String) (now : T) : Option (DerivesFromEdge S) :=
  ((collapse host (readRawRecords host log)).lookup (pairKey fromPath toPath)).map
    (deriveEdge host now)

end Edges
