import Daftari.Curation.EdgesProofs
import Mathlib.Data.List.Dedup
import Mathlib.Data.List.Perm.Subperm
import Mathlib.Tactic.Linarith

/-! # Earning cycles — how many votes a cycle can count

    A cycle of an edge begins with the observation that seeds it and goes on to the next contest.
    Within it a vote is counted when its attestation is new, or when the replay gap has passed since
    the last counted vote.  So the count is paid for twice over: by distinct attestations, and by
    gaps of time.

    * `Paid.step`, `paid_foldl`: one observation, and the whole cycle;
    * `no_cramming`: **trust cannot be pumped in one sitting**. -/

namespace Edges

variable {T S : Type}

/-! ## Attestations -/

/-- Observer, axis and model of an observation that may count as a vote. -/
def RawEdgeRecord.triple (r : RawEdgeRecord) : Option (String × String × String) :=
  match r.blind, stringOf r.axis, stringOf r.observer with
  | some (.bool true), some axis, some observer =>
      if axis ∈ edgeAxes ∧ 0 < observer.length then
        some (observer, axis, interpolated r.model)
      else none
  | _, _, _ => none

/-- The text a triple is registered under. -/
def tripleKey (t : String × String × String) : String :=
  t.1 ++ "\n" ++ t.2.1 ++ "\n" ++ t.2.2

theorem attestation_eq (r : RawEdgeRecord) : r.attestation = r.triple.map tripleKey := by
  unfold RawEdgeRecord.attestation RawEdgeRecord.triple
  generalize r.blind = blind
  generalize stringOf r.axis = axis
  generalize stringOf r.observer = observer
  by_cases hblind : blind = some (.bool true)
  · rw [hblind]
    rcases axis with _ | axis
    · rfl
    rcases observer with _ | observer
    · rfl
    show (if axis ∈ edgeAxes ∧ 0 < observer.length then _ else none) =
      Option.map tripleKey (if axis ∈ edgeAxes ∧ 0 < observer.length then _ else none)
    by_cases hvalid : axis ∈ edgeAxes ∧ 0 < observer.length
    · rw [if_pos hvalid, if_pos hvalid]
      rfl
    · rw [if_neg hvalid, if_neg hvalid]
      rfl
  · rcases blind with _ | _ | b | _ | _ | _
    · rfl
    · rfl
    · cases b with
      | true => exact (hblind rfl).elim
      | false => rfl
    · rfl
    · rfl
    · rfl

def instant (host : Host T S) (r : RawEdgeRecord) : Int := (host.dateParse r.atISO).getD 0

/-! ## Votes -/

def counts (host : Host T S) (st : EdgeState) (r : RawEdgeRecord) : Bool :=
  r.attestation.any fun voted =>
    voted ∉ st.votedPairs ∨ gapReached host r.atISO st.lastRederived

/-- The observations that are counted, one after another. -/
def countedVotes (host : Host T S) : EdgeState → List RawEdgeRecord → List RawEdgeRecord
  | _, [] => []
  | st, r :: rest =>
      (if counts host st r then [r] else []) ++ countedVotes host (observeAgain host st r) rest

/-- The distinct triples of a cycle after its seed, but for the seed's own. -/
def freshTriples (s : RawEdgeRecord) (cycle : List RawEdgeRecord) :
    List (String × String × String) :=
  ((cycle.filterMap RawEdgeRecord.triple).dedup).filter fun t => s.triple ≠ some t

/-- A seed and what is observed from it on: the seed starts afresh, and no contest lies between. -/
structure EarningCycle (host : Host T S) (recs : List RawEdgeRecord) (key : String)
    (s : RawEdgeRecord) (cycle : List RawEdgeRecord) : Prop where
  split : ∃ pre post, trail recs key = pre ++ s :: (cycle ++ post) ∧
    ∀ st, stateOf host pre = some st → st.revoked = true
  seeds : s.kind = .observe
  observes : ∀ r ∈ cycle, r.kind = .observe

def cycleState (host : Host T S) (s : RawEdgeRecord) (cycle : List RawEdgeRecord) : EdgeState :=
  cycle.foldl (observeAgain host) (seed s)

/-! ## One observation -/

variable {host : Host T S} {r : RawEdgeRecord} {st : EdgeState}

theorem observeAgain_of_not_counts (h : counts host st r = false) :
    (observeAgain host st r).kSurvived = st.kSurvived ∧
      (observeAgain host st r).lastRederived = st.lastRederived ∧
      (observeAgain host st r).votedPairs = st.votedPairs := by
  unfold counts at h
  unfold observeAgain
  cases hatt : r.attestation with
  | none => exact ⟨rfl, rfl, rfl⟩
  | some voted =>
      rw [hatt] at h
      have hno : ¬ (voted ∉ st.votedPairs ∨
          gapReached host r.atISO st.lastRederived = true) := of_decide_eq_false h
      dsimp only
      rw [if_neg hno]
      exact ⟨rfl, rfl, rfl⟩

theorem observeAgain_of_counts (h : counts host st r = true) : ∃ voted, r.attestation = some voted ∧
      (voted ∉ st.votedPairs ∨ gapReached host r.atISO st.lastRederived = true) ∧
      (observeAgain host st r).kSurvived = min (st.kSurvived + 1) edgeKCap ∧
      (observeAgain host st r).lastRederived = r.atISO ∧
      (observeAgain host st r).votedPairs = insertNew st.votedPairs voted := by
  unfold counts at h
  unfold observeAgain
  cases hatt : r.attestation with
  | none =>
      rw [hatt] at h
      cases h
  | some voted =>
      rw [hatt] at h
      have hyes : voted ∉ st.votedPairs ∨ gapReached host r.atISO st.lastRederived = true :=
        of_decide_eq_true h
      refine ⟨voted, rfl, hyes, ?_⟩
      dsimp only
      rw [if_pos hyes]
      exact ⟨rfl, rfl, rfl⟩

theorem counts_of_triple_none (host : Host T S) (st : EdgeState) (h : r.triple = none) :
    counts host st r = false := by
  unfold counts
  rw [attestation_eq, h]
  rfl

theorem gap_of_gapReached {last : String} {at₀ : Int} (hlast : host.dateParse last = some at₀)
    (h : gapReached host r.atISO last = true) : at₀ + edgeReplayGapMs ≤ instant host r := by
  unfold gapReached at h
  unfold instant
  rw [hlast] at h
  cases hat : host.dateParse r.atISO with
  | none =>
      rw [hat] at h
      cases h
  | some at₁ =>
      rw [hat] at h
      have hle : edgeReplayGapMs ≤ at₁ - at₀ := of_decide_eq_true h
      show at₀ + edgeReplayGapMs ≤ at₁
      omega

theorem length_insertNew {l : List String} {a : String} :
    (insertNew l a).length = if a ∈ l then l.length else l.length + 1 := by
  unfold insertNew
  split
  · rfl
  · rw [List.length_append]
    rfl

theorem nodup_insertNew {l : List String} (a : String) (h : l.Nodup) : (insertNew l a).Nodup := by
  unfold insertNew
  split
  · exact h
  · rename_i hnot
    rw [List.nodup_append]
    refine ⟨h, List.nodup_singleton a, ?_⟩
    intro x hx y hy heq
    rw [List.mem_singleton.mp hy] at heq
    exact hnot (heq ▸ hx)

theorem mem_insertNew {l : List String} {a x : String} : x ∈ insertNew l a ↔ x ∈ l ∨ x = a := by
  unfold insertNew
  split
  · rename_i hmem
    constructor
    · exact Or.inl
    · rintro (hx | rfl)
      · exact hx
      · exact hmem
  · rw [List.mem_append, List.mem_singleton]

/-! ## The whole cycle -/

/-- What some observations have made of a state: every vote more is paid for by an
    attestation more or by a replay, and every replay by a gap. -/
structure Paid (host : Host T S) (before after : EdgeState) (seen : List RawEdgeRecord)
    (at₀ : Int) : Prop where
  paid : ∃ (replays : Nat) (at₁ : Int), host.dateParse after.lastRederived = some at₁ ∧
    after.kSurvived + before.votedPairs.length ≤
      before.kSurvived + after.votedPairs.length + replays ∧
    at₀ + replays * edgeReplayGapMs ≤ at₁ ∧
    (at₁ = at₀ ∨ ∃ v ∈ countedVotes host before seen, instant host v = at₁)
  nodup : before.votedPairs.Nodup → after.votedPairs.Nodup
  voted : ∀ voted ∈ after.votedPairs, voted ∈ before.votedPairs ∨
    ∃ r ∈ seen, r.attestation = some voted

/-- **One observation.** -/
theorem paid_step {at₀ : Int} (hlast : host.dateParse st.lastRederived = some at₀)
    (hparse : host.dateParse r.atISO = some (instant host r)) (hlater : at₀ ≤ instant host r) :
    Paid host st (observeAgain host st r) [r] at₀ := by
  cases hcounts : counts host st r with
  | false =>
      obtain ⟨hk, hl, hv⟩ := observeAgain_of_not_counts hcounts
      refine ⟨⟨0, at₀, by rw [hl]; exact hlast, by rw [hk, hv]; omega, by simp, Or.inl rfl⟩,
        ?_, ?_⟩
      · rw [hv]
        exact fun h => h
      · intro voted hmem
        rw [hv] at hmem
        exact Or.inl hmem
  | true =>
      obtain ⟨voted, hatt, hwhy, hk, hl, hv⟩ := observeAgain_of_counts hcounts
      have hcounted : ∃ v ∈ countedVotes host st [r], instant host v = instant host r := by
        refine ⟨r, ?_, rfl⟩
        show r ∈ (if counts host st r then [r] else []) ++ []
        rw [if_pos hcounts]
        exact List.mem_cons_self
      refine ⟨?_, ?_, ?_⟩
      · by_cases hmem : voted ∈ st.votedPairs
        · -- a replay: the gap pays for it
          have hgap : gapReached host r.atISO st.lastRederived = true := by
            rcases hwhy with hnot | hgap
            · exact absurd hmem hnot
            · exact hgap
          have hle := gap_of_gapReached hlast hgap
          refine ⟨1, instant host r, by rw [hl]; exact hparse, ?_, by simpa using hle,
            Or.inr hcounted⟩
          rw [hk, hv, length_insertNew, if_pos hmem]
          omega
        · refine ⟨0, instant host r, by rw [hl]; exact hparse, ?_, by simpa using hlater,
            Or.inr hcounted⟩
          rw [hk, hv, length_insertNew, if_neg hmem]
          omega
      · rw [hv]
        exact nodup_insertNew voted
      · intro x hx
        rw [hv, mem_insertNew] at hx
        rcases hx with hx | rfl
        · exact Or.inl hx
        · exact Or.inr ⟨r, List.mem_cons_self, hatt⟩

variable {cycle : List RawEdgeRecord}

/-- **A whole cycle: the observations come in time order, and what was paid adds up.** -/
theorem paid_foldl {at₀ : Int} (hlast : host.dateParse st.lastRederived = some at₀)
    (hparse : ∀ r ∈ cycle, host.dateParse r.atISO = some (instant host r))
    (hlater : ∀ r ∈ cycle, at₀ ≤ instant host r)
    (hsorted : cycle.Pairwise fun a b => instant host a ≤ instant host b) :
    Paid host st (cycle.foldl (observeAgain host) st) cycle at₀ := by
  induction cycle generalizing st at₀ with
  | nil =>
      refine ⟨⟨0, at₀, hlast, by simp, by simp, Or.inl rfl⟩, fun h => h, ?_⟩
      intro voted hmem
      exact Or.inl hmem
  | cons r cycle ih =>
      obtain ⟨hhead, htail⟩ := List.pairwise_cons.mp hsorted
      have hstep := paid_step hlast (hparse r List.mem_cons_self) (hlater r List.mem_cons_self)
      obtain ⟨replays, at₁, hlast₁, hk₁, hgap₁, hwhen₁⟩ := hstep.paid
      have hat₁ : at₁ ≤ instant host r := by
        rcases hwhen₁ with heq | ⟨v, hv, hvat⟩
        · rw [heq]
          exact hlater r List.mem_cons_self
        · have hvr : v ∈ (if counts host st r then [r] else []) ++ ([] : List _) := hv
          split at hvr
          · rw [← hvat, List.mem_singleton.mp hvr]
          · cases hvr
      have hrest := ih hlast₁ (fun q hq => hparse q (List.mem_cons_of_mem r hq))
        (fun q hq => hat₁.trans (hhead q hq)) htail
      obtain ⟨replays', at₂, hlast₂, hk₂, hgap₂, hwhen₂⟩ := hrest.paid
      have hcounted : ∀ v ∈ countedVotes host st [r] ++
          countedVotes host (observeAgain host st r) cycle,
          v ∈ countedVotes host st (r :: cycle) := by
        intro v hv
        show v ∈ (if counts host st r then [r] else []) ++ countedVotes host _ cycle
        have hv' : v ∈ ((if counts host st r then [r] else []) ++ []) ++
          countedVotes host (observeAgain host st r) cycle := hv
        rw [List.append_nil] at hv'
        exact hv'
      refine ⟨⟨replays + replays', at₂, hlast₂, ?_, ?_, ?_⟩,
        fun h => hrest.nodup (hstep.nodup h), ?_⟩
      · show (cycle.foldl (observeAgain host) (observeAgain host st r)).kSurvived + _ ≤ _ +
          (cycle.foldl (observeAgain host) (observeAgain host st r)).votedPairs.length + _
        omega
      · rw [Nat.cast_add, add_mul]
        linarith
      · rcases hwhen₂ with heq | ⟨v, hv, hvat⟩
        · rcases hwhen₁ with heq₁ | ⟨v, hv, hvat⟩
          · exact Or.inl (heq.trans heq₁)
          · exact Or.inr ⟨v, hcounted v (List.mem_append_left _ hv), hvat.trans heq.symm⟩
        · exact Or.inr ⟨v, hcounted v (List.mem_append_right _ hv), hvat⟩
      · intro voted hmem
        rcases hrest.voted voted hmem with hin | ⟨q, hq, hatt⟩
        · rcases hstep.voted voted hin with hin' | ⟨q, hq, hatt⟩
          · exact Or.inl hin'
          · rw [List.mem_singleton] at hq
            exact Or.inr ⟨r, List.mem_cons_self, hq ▸ hatt⟩
        · exact Or.inr ⟨q, List.mem_cons_of_mem r hq, hatt⟩

variable {s : RawEdgeRecord}

theorem length_votedPairs_le {at₀ : Int}
    (h : Paid host (seed s) (cycleState host s cycle) cycle at₀) :
    (cycleState host s cycle).votedPairs.length ≤
      s.attestation.toList.length + (freshTriples s cycle).length := by
  have hnodup : (seed s).votedPairs.Nodup := by
    show s.attestation.toList.Nodup
    cases s.attestation with
    | none => exact List.nodup_nil
    | some voted => exact List.nodup_singleton voted
  have hsub : ∀ voted ∈ (cycleState host s cycle).votedPairs,
      voted ∈ s.attestation.toList ++ (freshTriples s cycle).map tripleKey := by
    intro voted hmem
    rw [List.mem_append]
    rcases h.voted voted hmem with hin | ⟨r, hr, hatt⟩
    · exact Or.inl hin
    · rw [attestation_eq] at hatt
      obtain ⟨t, ht, rfl⟩ := Option.map_eq_some_iff.mp hatt
      by_cases hown : s.triple = some t
      · left
        rw [attestation_eq, hown]
        exact List.mem_cons_self
      · right
        refine List.mem_map_of_mem (List.mem_filter.mpr ⟨?_, by simpa using hown⟩)
        exact List.mem_dedup.mpr (List.mem_filterMap.mpr ⟨r, hr, ht⟩)
  have hle := ((h.nodup hnodup).subperm hsub).length_le
  rw [List.length_append, List.length_map] at hle
  exact hle

theorem kSurvived_le_cap (host : Host T S) (st : EdgeState) (cycle : List RawEdgeRecord)
    (h : st.kSurvived ≤ edgeKCap) : (cycle.foldl (observeAgain host) st).kSurvived ≤ edgeKCap := by
  induction cycle generalizing st with
  | nil => exact h
  | cons r cycle ih =>
      refine ih (observeAgain host st r) ?_
      cases hcounts : counts host st r with
      | false =>
          rw [(observeAgain_of_not_counts hcounts).1]
          exact h
      | true =>
          obtain ⟨-, -, -, hk, -, -⟩ := observeAgain_of_counts hcounts
          rw [hk]
          exact min_le_right _ _

/-! ## The log -/

theorem dateParse_of_mem {log : Option String} (h : r ∈ readRawRecords host log) :
    host.dateParse r.atISO = some (instant host r) := by
  cases log with
  | none => cases h
  | some raw =>
      obtain ⟨line, -, hread⟩ := List.mem_filterMap.mp h
      unfold readLine at hread
      simp only [Option.bind_eq_bind, Option.bind_eq_some_iff] at hread
      obtain ⟨fields, -, kind, -, fromPath, -, toPath, -, atISO, -, at₀, hat, hrecord⟩ := hread
      cases hrecord
      show host.dateParse atISO = some ((host.dateParse atISO).getD 0)
      rw [hat]
      rfl

theorem stateOf_cycle {recs : List RawEdgeRecord} {key : String}
    (h : EarningCycle host recs key s cycle) :
    ∃ pre post, trail recs key = pre ++ s :: (cycle ++ post) ∧
      stateOf host (pre ++ s :: cycle) = some (cycleState host s cycle) := by
  obtain ⟨pre, post, hsplit, hstart⟩ := h.split
  refine ⟨pre, post, hsplit, ?_⟩
  have hseed : nextState host (stateOf host pre) s = some (seed s) := by
    unfold nextState
    cases hpre : stateOf host pre with
    | none => rw [h.seeds]
    | some st =>
        rw [h.seeds]
        show some (if st.revoked then seed s else _) = _
        rw [if_pos (hstart st hpre)]
  have hlive : ∀ (rest : List RawEdgeRecord) (st : EdgeState), st.revoked = false →
      (∀ r ∈ rest, r.kind = .observe) →
      rest.foldl (nextState host) (some st) = some (rest.foldl (observeAgain host) st) := by
    intro rest
    induction rest with
    | nil =>
        intro st _ _
        rfl
    | cons r rest ih =>
        intro st hrev hobs
        have hnext : nextState host (some st) r = some (observeAgain host st r) := by
          unfold nextState
          rw [hobs r List.mem_cons_self]
          show some (if st.revoked then seed r else _) = _
          rw [if_neg (by rw [hrev]; exact Bool.false_ne_true)]
        rw [List.foldl_cons, hnext]
        refine ih (observeAgain host st r) ?_ fun q hq => hobs q (List.mem_cons_of_mem r hq)
        rw [observeAgain_revoked]
        exact hrev
  show (pre ++ s :: cycle).foldl (nextState host) none = _
  rw [List.foldl_append, List.foldl_cons]
  show cycle.foldl (nextState host) (nextState host (stateOf host pre) s) = _
  rw [hseed]
  exact hlive cycle (seed s) rfl h.observes

theorem kSurvived_le {log : Option String} {key : String}
    (hsorted : (readRawRecords host log).Pairwise fun a b => instant host a ≤ instant host b)
    (hcycle : EarningCycle host (readRawRecords host log) key s cycle) {window : Int}
    (hwindow : 0 ≤ window)
    (hwithin : ∀ v ∈ countedVotes host (seed s) cycle, instant host v ≤ instant host s + window) :
    ((cycleState host s cycle).kSurvived : Int) ≤
      (freshTriples s cycle).length + window / edgeReplayGapMs := by
  obtain ⟨pre, post, htrail, -⟩ := stateOf_cycle hcycle
  -- the cycle is part of the log, so its records are read and in order
  have hsub : (s :: cycle).Sublist (readRawRecords host log) := by
    have h₁ : (s :: cycle).Sublist (pre ++ s :: (cycle ++ post)) :=
      ((List.sublist_append_left cycle post).cons_cons s).trans
        (List.sublist_append_right pre _)
    exact (htrail ▸ h₁).trans List.filter_sublist
  have hordered := List.pairwise_cons.mp (hsorted.sublist hsub)
  have hparse : ∀ r ∈ s :: cycle, host.dateParse r.atISO = some (instant host r) :=
    fun r hr => dateParse_of_mem (hsub.subset hr)
  have hlast : host.dateParse (seed s).lastRederived = some (instant host s) :=
    hparse s List.mem_cons_self
  have hpaid := paid_foldl hlast (fun r hr => hparse r (List.mem_cons_of_mem s hr))
    hordered.1 hordered.2
  have hvoted := length_votedPairs_le hpaid
  obtain ⟨replays, at₁, -, hk, hgap, hwhen⟩ := hpaid.paid
  have hat₁ : at₁ ≤ instant host s + window := by
    rcases hwhen with heq | ⟨v, hv, hvat⟩
    · omega
    · exact hvat ▸ hwithin v hv
  have hreplays : (replays : Int) ≤ window / edgeReplayGapMs := by
    refine (Int.le_ediv_iff_mul_le (by decide)).mpr ?_
    omega
  have hseed : (seed s).kSurvived = 0 := rfl
  have hown : (seed s).votedPairs.length = s.attestation.toList.length := rfl
  have hbound : (cycleState host s cycle).kSurvived ≤
      (freshTriples s cycle).length + replays := by
    unfold cycleState at hvoted ⊢
    omega
  omega

/-- **No cramming: in an earning cycle of a log in time order, votes that all fall within
    the replay gap after the seed are no more than the distinct fresh triples; within a
    window they are no more than these and the gaps in it, and never more than the cap; and
    what has no attestation moves nothing.** -/
theorem no_cramming (host : Host T S) (log : Option String) (key : String)
    (s : RawEdgeRecord) (cycle : List RawEdgeRecord)
    (hsorted : (readRawRecords host log).Pairwise fun a b => instant host a ≤ instant host b)
    (hcycle : EarningCycle host (readRawRecords host log) key s cycle) :
    ((∀ v ∈ countedVotes host (seed s) cycle, instant host v < instant host s + edgeReplayGapMs) →
      (cycleState host s cycle).kSurvived ≤ (freshTriples s cycle).length) ∧
    (∀ window : Int, 0 ≤ window →
      (∀ v ∈ countedVotes host (seed s) cycle, instant host v ≤ instant host s + window) →
      ((cycleState host s cycle).kSurvived : Int) ≤
        (freshTriples s cycle).length + window / edgeReplayGapMs) ∧
    (cycleState host s cycle).kSurvived ≤ edgeKCap ∧
    (∀ done r rest, cycle = done ++ r :: rest → r.triple = none →
      (cycleState host s (done ++ [r])).kSurvived = (cycleState host s done).kSurvived ∧
        (cycleState host s (done ++ [r])).lastRederived =
          (cycleState host s done).lastRederived) := by
  refine ⟨?_, fun _ => kSurvived_le hsorted hcycle, ?_, ?_⟩
  · intro hwithin
    have hinside : ∀ v ∈ countedVotes host (seed s) cycle,
        instant host v ≤ instant host s + (edgeReplayGapMs - 1) := by
      intro v hv
      have hlt := hwithin v hv
      omega
    have hbound := kSurvived_le hsorted hcycle (by decide) hinside
    have hnone : (edgeReplayGapMs - 1) / edgeReplayGapMs = 0 := by decide
    omega
  · exact kSurvived_le_cap host (seed s) cycle (Nat.zero_le _)
  · intro done r rest _ hnone
    have hlast :
        cycleState host s (done ++ [r]) = observeAgain host (cycleState host s done) r := by
      unfold cycleState
      rw [List.foldl_append]
      rfl
    rw [hlast]
    obtain ⟨hk, hl, -⟩ := observeAgain_of_not_counts
      (counts_of_triple_none host (cycleState host s done) hnone)
    exact ⟨hk, hl⟩

def sightingLine (atISO axis : String) : Fields :=
  [("kind", .str "observe"), ("from", .str "a.md"), ("to", .str "b.md"), ("at", .str atISO),
   ("by", .str "ann"), ("blind", .bool true), ("axis", .str axis)]

/-- A host that reads two lines: a seed, and a sighting on another axis an hour later. -/
def sittingHost : Host Nat Nat where
  parseLine line :=
    if line = "seed" then some (sightingLine "10:00" "prompt")
    else if line = "again" then some (sightingLine "11:00" "model")
    else none
  stringify _ := ""
  dateParse text :=
    if text = "10:00" then some 36000000 else if text = "11:00" then some 39600000 else none
  agedStrength k _ _ := k
  zero := 0
  triggerStrength := 1
  localeCompare := compare
  toSecondISO _ := ""
  bindText _ := .ok none

def sighting (atISO axis : String) : RawEdgeRecord where
  kind := .observe
  fromPath := "a.md"
  toPath := "b.md"
  atISO := atISO
  observer := some (.str "ann")
  blind := some (.bool true)
  axis := some (.str axis)
  premiseVote := none
  model := none
  reason := none

/-- The seed, the fresh sighting twice: one vote is counted. -/
theorem no_cramming_sitting :
    (cycleState sittingHost (sighting "10:00" "prompt")
      [sighting "11:00" "model", sighting "11:00" "model"]).kSurvived ≤ 1 := by
  have hcycle : EarningCycle sittingHost
      (readRawRecords sittingHost (some "seed\nagain\nagain")) (pairKey "a.md" "b.md")
      (sighting "10:00" "prompt") [sighting "11:00" "model", sighting "11:00" "model"] := by
    refine ⟨⟨[], [], by decide +kernel, ?_⟩, rfl, by decide +kernel⟩
    intro st hst
    cases hst
  have hbound := (no_cramming sittingHost (some "seed\nagain\nagain") (pairKey "a.md" "b.md")
    (sighting "10:00" "prompt") [sighting "11:00" "model", sighting "11:00" "model"]
    (by decide +kernel) hcycle).1 (by decide +kernel)
  have hfresh : (freshTriples (sighting "10:00" "prompt")
    [sighting "11:00" "model", sighting "11:00" "model"]).length = 1 := by decide +kernel
  exact hfresh ▸ hbound

end Edges
