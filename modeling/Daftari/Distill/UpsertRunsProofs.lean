import Daftari.Distill.StateProofs
import Daftari.Lib.MachineProofs

/-! # Runs over one source — retries, scopes, and the one slot they share

    An incomplete emit leaves what it staged and what failed in the source's record, so that the
    next run of the same content offers the failed remainder and nothing else.  There is one slot
    for this, while completion is recorded per scope: a run of another scope that writes the record
    in between empties the slot.

    * `retries_of_calm`: **in every sequence of calm runs no staged claim is staged again and every
      failed one is offered by the scope's next run**. -/

namespace Distill

/-- An emitter stages or fails claims it was offered. -/
structure Emitter where
  propose : List ExtractedClaim → Attempt
  results_mem : ∀ claims, ∀ k ∈ (propose claims).results, k ∈ claims.map ExtractedClaim.key
  errors_mem : ∀ claims, ∀ e ∈ (propose claims).errors, e.1 ∈ claims.map ExtractedClaim.key

/-- One run in the log.  `counts` is false for a run that leaves no trace because
    its extraction failed. -/
structure Entry where
  scope : Option String
  content : List Char
  counts : Bool
  noop : Bool
  offered : List ExtractedClaim
  staged : List String
  failed : List ExtractedClaim

/-- The run has written the record. -/
def Entry.wrote (e : Entry) : Bool := e.counts && !e.noop

structure Session where
  record : Option SourceState
  log : List Entry

variable (hash : List Char → String)

abbrev Run := Input × Emitter

/-- What a run that offers claims puts into the log. -/
def offeredEntry (run : Run) (plan : Plan) : Entry :=
  let attempted := run.2.propose plan.toPropose
  { scope := run.1.scopeKey
    content := run.1.content
    counts := true
    noop := false
    offered := plan.toPropose
    staged := attempted.results
    failed := plan.toPropose.filter fun claim =>
      claim.key ∈ (unresolved plan attempted).map Prod.fst }

/-- `distillUpsert` as one step. -/
def Session.upsert (s : Session) (run : Run) : Session :=
  match openRun hash s.record run.1 with
  | .returns outcome =>
      ⟨s.record, s.log ++ [⟨run.1.scopeKey, run.1.content, outcome.noop, outcome.noop, [], [], []⟩]⟩
  | .offers plan =>
      ⟨some (closeRun s.record plan (run.2.propose plan.toPropose)).1,
        s.log ++ [offeredEntry run plan]⟩

def machine : Machine Session Run where
  enabled _ _ := True
  next s run := s.upsert hash run

/-- The last run that wrote the record. -/
def lastWriter (log : List Entry) : Option Entry :=
  log.reverse.find? Entry.wrote

/-- **The condition on one run**: it does not write the record, or the last run
    that did was complete or of the same scope. -/
def Calm (s : Session) (run : Run) : Prop :=
  (∃ outcome, openRun hash s.record run.1 = .returns outcome)
    ∨ ∀ e, lastWriter s.log = some e → e.failed = [] ∨ e.scope = run.1.scopeKey

/-! ## What is asked of a log -/

/-- The runs of the scope in between had the same content. -/
def Unchanged (e : Entry) (mid : List Entry) : Prop :=
  ∀ f ∈ mid, f.scope = e.scope → f.content = e.content

/-- Nothing staged by an incomplete run is staged again, and everything that failed in it is offered
    by the next run of its scope, while the scope's content is unchanged. -/
def Retries (log : List Entry) : Prop :=
  ∀ pre e mid f post, log = pre ++ e :: (mid ++ f :: post) → e.failed ≠ [] →
    f.scope = e.scope → f.content = e.content → Unchanged e mid →
    (∀ k ∈ e.staged, k ∉ f.staged)
      ∧ (f.counts = true → (∀ g ∈ mid, g.scope = e.scope → g.counts = false) →
          f.noop = false ∧ ∀ claim ∈ e.failed, claim ∈ f.offered)

variable {hash}

/-! ## What a run offers -/

variable {prior : Option SourceState} {input : Input} {claim : ExtractedClaim}

theorem offered_joinClaim {landed : Table String String} {emitted : List String}
    {c : ExtractedClaim} : (joinClaim landed c).offered emitted = some claim
      ↔ c = claim ∧ landed.find claim.key = none ∧ claim.key ∉ emitted := by
  unfold joinClaim
  cases hfind : landed.find c.key with
  | some path =>
      constructor
      · intro h
        cases h
      · rintro ⟨rfl, hnone, -⟩
        rw [hfind] at hnone
        cases hnone
  | none =>
      have hboth : (if c.key ∈ emitted then none else some c) = some claim
          ↔ c = claim ∧ landed.find claim.key = none ∧ claim.key ∉ emitted := by
        rw [Option.ite_none_left_eq_some, Option.some.injEq]
        constructor
        · rintro ⟨hnot, rfl⟩
          exact ⟨rfl, hfind, hnot⟩
        · rintro ⟨rfl, -, hnot⟩
          exact ⟨hnot, rfl⟩
      dsimp only
      split
      · exact hboth
      · exact hboth

/-- **A claim is offered** when the run works on it, it has not landed, and the
    pending emit of this content has not staged it. -/
theorem mem_toPropose : claim ∈ (planOf hash prior input).toPropose ↔
    claim ∈ claimsOf hash prior input ∧ (landedOf prior).find claim.key = none
      ∧ claim.key ∉ alreadyEmitted hash prior input := by
  show claim ∈ List.filterMap _ (List.map _ _) ↔ _
  rw [List.mem_filterMap]
  constructor
  · rintro ⟨a, ha, hoff⟩
    obtain ⟨c, hc, rfl⟩ := List.mem_map.mp ha
    obtain ⟨rfl, hrest⟩ := offered_joinClaim.mp hoff
    exact ⟨hc, hrest⟩
  · rintro ⟨hc, hrest⟩
    exact ⟨_, List.mem_map.mpr ⟨claim, hc, rfl⟩, offered_joinClaim.mpr ⟨rfl, hrest⟩⟩

variable {plan : Plan}

theorem mem_unresolved {em : Emitter} {k : String}
    (h : k ∈ (unresolved plan (em.propose plan.toPropose)).map Prod.fst) :
    k ∈ plan.toPropose.map ExtractedClaim.key ∧ k ∉ (em.propose plan.toPropose).results := by
  obtain ⟨e, he, rfl⟩ := List.mem_map.mp h
  rcases List.mem_append.mp he with he | he
  · obtain ⟨herr, hnot⟩ := List.mem_filter.mp he
    exact ⟨em.errors_mem _ e herr, of_decide_eq_true hnot⟩
  · obtain ⟨c, hc, rfl⟩ := List.mem_map.mp he
    obtain ⟨hoff, hnot⟩ := List.mem_filter.mp hc
    exact ⟨List.mem_map.mpr ⟨c, hoff, rfl⟩, (of_decide_eq_true hnot).1⟩

theorem failed_ne_nil_iff {run : Run} : (offeredEntry run plan).failed ≠ []
    ↔ unresolved plan (run.2.propose plan.toPropose) ≠ [] := by
  constructor
  · intro hfailed hnil
    obtain ⟨c, hc⟩ := List.exists_mem_of_ne_nil _ hfailed
    have hmem := of_decide_eq_true (List.mem_filter.mp hc).2
    rw [hnil] at hmem
    cases hmem
  · intro hne
    obtain ⟨e, he⟩ := List.exists_mem_of_ne_nil _ hne
    have hkey : e.1 ∈ (unresolved plan (run.2.propose plan.toPropose)).map Prod.fst :=
      List.mem_map.mpr ⟨e, he, rfl⟩
    obtain ⟨c, hc, hce⟩ := List.mem_map.mp (mem_unresolved hkey).1
    refine List.ne_nil_of_mem (a := c) (List.mem_filter.mpr ⟨hc, ?_⟩)
    rw [hce]
    exact decide_eq_true hkey

/-! ## What a run writes -/

variable {attempted : Attempt}

variable (prior) in
/-- **The record of an incomplete run**: the pending hash, the staged keys and the
    failed remainder. -/
theorem closeRun_incomplete (h : unresolved plan attempted ≠ []) :
    (closeRun prior plan attempted).1.pendingContentHash = some plan.contentHash
      ∧ (∀ k, k ∈ (closeRun prior plan attempted).1.emittedClaimKeys
          ↔ k ∈ plan.alreadyEmitted ∨ k ∈ attempted.results)
      ∧ (closeRun prior plan attempted).1.pendingClaims = plan.toPropose.filter
          fun claim => claim.key ∈ (unresolved plan attempted).map Prod.fst := by
  unfold closeRun
  rw [if_pos h]
  refine ⟨rfl, ?_, rfl⟩
  intro k
  rw [List.mem_mergeSort, List.mem_dedup, List.mem_append]

theorem hashOf_incomplete (h : unresolved plan attempted ≠ []) (scope : Option String) :
    (closeRun prior plan attempted).1.hashOf scope = (prior.getD .initial).hashOf scope := by
  unfold closeRun
  rw [if_pos h]
  cases scope with
  | none => rfl
  | some _ => rfl

theorem hashOf_complete (h : unresolved plan attempted = []) (scope : Option String) :
    (closeRun prior plan attempted).1.hashOf scope =
      if scope = plan.scope then some plan.contentHash else (prior.getD .initial).hashOf scope := by
  unfold closeRun
  rw [if_neg (not_not.mpr h)]
  cases hplan : plan.scope with
  | none =>
      cases scope with
      | none => rfl
      | some _ => rfl
  | some σ =>
      cases scope with
      | none => rfl
      | some σ' =>
          show (Table.set _ σ _).find σ' = _
          rw [Table.find_set]
          simp only [Option.some.injEq]
          rfl

/-- **A run leaves the hash of another scope alone.** -/
theorem hashOf_other {scope : Option String} (h : scope ≠ plan.scope) :
    (closeRun prior plan attempted).1.hashOf scope = (prior.getD .initial).hashOf scope := by
  by_cases hun : unresolved plan attempted = []
  · rw [hashOf_complete hun, if_neg h]
  · exact hashOf_incomplete hun scope

/-! ## What the record owes -/

/-- The record has the run's remainder open, and the last run that wrote it was
    an incomplete one of the same scope. -/
def Open (hash : List Char → String) (s : Session) (e : Entry) (st : SourceState) : Prop :=
  st.pendingContentHash = some (contentHashOf hash e.scope e.content)
    ∧ ∃ w, lastWriter s.log = some w ∧ w.failed ≠ [] ∧ w.scope = e.scope

/-- The record keeps the run's remainder as it was, and the scope is not done. -/
def Owed (hash : List Char → String) (s : Session) (e : Entry) (st : SourceState) : Prop :=
  Open hash s e st ∧ st.pendingClaims = e.failed
    ∧ st.hashOf e.scope ≠ some (contentHashOf hash e.scope e.content)
    ∧ ∀ claim ∈ e.failed,
      claim.key ∉ st.emittedClaimKeys ∧ st.claims.find claim.key = none

/-- What the record owes to an incomplete run after the runs `mid`. -/
def OwesTo (hash : List Char → String) (s : Session) (e : Entry) (mid : List Entry) : Prop :=
  ∃ st, s.record = some st
    ∧ ((Open hash s e st ∧ ∀ k ∈ e.staged, k ∈ st.emittedClaimKeys)
      ∨ st.hashOf e.scope = some (contentHashOf hash e.scope e.content))
    ∧ ((∀ g ∈ mid, g.scope = e.scope → g.counts = false) → Owed hash s e st)

/-- **The invariant**: what is owed to every incomplete run whose scope has kept its content. -/
def Tracks (hash : List Char → String) (s : Session) : Prop :=
  ∀ pre e mid, s.log = pre ++ e :: mid → e.failed ≠ [] → Unchanged e mid → OwesTo hash s e mid

theorem lastWriter_append (log : List Entry) (e : Entry) :
    lastWriter (log ++ [e]) = if e.wrote then some e else lastWriter log := by
  unfold lastWriter
  rw [List.reverse_append, List.reverse_singleton, List.singleton_append, List.find?_cons]
  cases e.wrote <;> rfl

theorem Unchanged.of_append {e x : Entry} {mid : List Entry} (h : Unchanged e (mid ++ [x])) :
    Unchanged e mid :=
  fun f hf => h f (List.mem_append_left _ hf)

variable {s : Session} {run : Run}

theorem Tracks.returns (h : Tracks hash s) {x : Entry} (hx : x.wrote = false)
    (hfailed : x.failed = []) : Tracks hash ⟨s.record, s.log ++ [x]⟩ := by
  intro pre e mid hlog hne hun
  rcases Machine.split_append hlog with ⟨_, rfl, _⟩ | ⟨mid', rfl, hold⟩
  · exact absurd hfailed hne
  · obtain ⟨st, hst, hcases, howed⟩ := h pre e mid' hold hne hun.of_append
    have hopen : ∀ {st}, Open hash s e st → Open hash ⟨s.record, s.log ++ [x]⟩ e st := by
      rintro st ⟨hpend, w, hw, hrest⟩
      refine ⟨hpend, w, ?_, hrest⟩
      show lastWriter (s.log ++ [x]) = some w
      rw [lastWriter_append, hx, if_neg Bool.false_ne_true]
      exact hw
    refine ⟨st, hst, hcases.imp_left ?_, ?_⟩
    · rintro ⟨ho, hk⟩
      exact ⟨hopen ho, hk⟩
    · intro hmid
      obtain ⟨ho, hrest⟩ := howed fun g hg => hmid g (List.mem_append_left _ hg)
      exact ⟨hopen ho, hrest⟩

/-! ## One run -/

theorem of_openRun_offers (h : openRun hash prior input = .offers plan) :
    plan = planOf hash prior input
      ∧ prior.bind (·.hashOf input.scopeKey) ≠ some (input.contentHash hash) := by
  unfold openRun at h
  split at h
  · cases h
  rename_i hnoop
  split at h
  · cases h
  · exact ⟨(Opening.offers.inj h).symm, hnoop⟩

theorem of_openRun_returns {outcome : Outcome} (h : openRun hash prior input = .returns outcome) :
    outcome.noop = true → prior.bind (·.hashOf input.scopeKey) = some (input.contentHash hash) := by
  unfold openRun at h
  split at h
  · rename_i hnoop
    exact fun _ => hnoop
  split at h
  · obtain rfl := Opening.returns.inj h
    exact nofun
  · cases h

variable {st : SourceState}

theorem alreadyEmitted_of_pending (h : st.pendingContentHash = some (input.contentHash hash)) :
    alreadyEmitted hash (some st) input = st.emittedClaimKeys := by
  unfold alreadyEmitted
  dsimp only
  rw [if_pos h]

theorem claimsOf_of_pending (h : st.pendingContentHash = some (input.contentHash hash))
    (hne : st.pendingClaims ≠ []) : claimsOf hash (some st) input = st.pendingClaims := by
  unfold claimsOf
  dsimp only
  rw [if_pos ⟨h, List.length_pos_iff.mpr hne⟩]

/-- **The next run of the scope** offers the remainder it is owed. -/
theorem Owed.offered {e : Entry} (h : Owed hash s e st) (hne : e.failed ≠ [])
    (hscope : input.scopeKey = e.scope) (hcontent : input.content = e.content) :
    ∀ claim ∈ e.failed, claim ∈ (planOf hash (some st) input).toPropose := by
  obtain ⟨⟨hpend, -⟩, hclaims, -, hfree⟩ := h
  have hhash : st.pendingContentHash = some (input.contentHash hash) := by
    unfold Input.contentHash
    rw [hscope, hcontent]
    exact hpend
  intro claim hclaim
  obtain ⟨hnot, hlanded⟩ := hfree claim hclaim
  refine mem_toPropose.mpr ⟨?_, hlanded, ?_⟩
  · rw [claimsOf_of_pending hhash (by rw [hclaims]; exact hne), hclaims]
    exact hclaim
  · rw [alreadyEmitted_of_pending hhash]
    exact hnot

/-- **Nothing staged under the open remainder is staged again.** -/
theorem not_staged_of_open {e : Entry} (h : Open hash s e st)
    (hstaged : ∀ k ∈ e.staged, k ∈ st.emittedClaimKeys) (hscope : run.1.scopeKey = e.scope)
    (hcontent : run.1.content = e.content) :
    ∀ k ∈ e.staged, k ∉ (offeredEntry run (planOf hash (some st) run.1)).staged := by
  have hhash : st.pendingContentHash = some (run.1.contentHash hash) := by
    unfold Input.contentHash
    rw [hscope, hcontent]
    exact h.1
  intro k hk hk'
  obtain ⟨claim, hclaim, rfl⟩ := List.mem_map.mp (run.2.results_mem _ k hk')
  refine (mem_toPropose.mp hclaim).2.2 ?_
  rw [alreadyEmitted_of_pending hhash]
  exact hstaged _ hk

/-- **An incomplete run** leaves its remainder open. -/
theorem owesTo_self (hne : ∀ c, hash c ≠ "")
    (hnoop : s.record.bind (·.hashOf run.1.scopeKey) ≠ some (run.1.contentHash hash))
    (hinc : unresolved (planOf hash s.record run.1)
      (run.2.propose (planOf hash s.record run.1).toPropose) ≠ []) :
    OwesTo hash ⟨some (closeRun s.record (planOf hash s.record run.1)
        (run.2.propose (planOf hash s.record run.1).toPropose)).1,
      s.log ++ [offeredEntry run (planOf hash s.record run.1)]⟩
      (offeredEntry run (planOf hash s.record run.1)) [] := by
  set plan := planOf hash s.record run.1 with hplan
  obtain ⟨hpend, hemitted, hclaims⟩ := closeRun_incomplete s.record hinc
  have hopen : Open hash ⟨some (closeRun s.record plan (run.2.propose plan.toPropose)).1,
      s.log ++ [offeredEntry run plan]⟩ (offeredEntry run plan)
      (closeRun s.record plan (run.2.propose plan.toPropose)).1 := by
    refine ⟨hpend, offeredEntry run plan, ?_, failed_ne_nil_iff.mpr hinc, rfl⟩
    show lastWriter (s.log ++ [offeredEntry run plan]) = _
    rw [lastWriter_append]
    rfl
  refine ⟨_, rfl, Or.inl ⟨hopen, ?_⟩, fun _ => ⟨hopen, hclaims, ?_, ?_⟩⟩
  · intro k hk
    exact (hemitted k).mpr (Or.inr hk)
  · -- the hash of the scope is the one that made the run go on
    rw [hashOf_incomplete hinc]
    cases hrec : s.record with
    | some st =>
        rw [hrec] at hnoop
        exact hnoop
    | none =>
        show SourceState.initial.hashOf run.1.scopeKey ≠ _
        cases run.1.scopeKey with
        | none =>
            intro heq
            exact hne _ (Option.some.inj heq).symm
        | some σ => exact nofun
  · intro claim hclaim
    obtain ⟨hoff, hfail⟩ := List.mem_filter.mp hclaim
    obtain ⟨-, hlanded, hnot⟩ := mem_toPropose.mp hoff
    rw [claims_closeRun]
    refine ⟨?_, hlanded⟩
    rw [hemitted]
    rintro (hmem | hmem)
    · exact hnot hmem
    · exact (mem_unresolved (of_decide_eq_true hfail)).2 hmem

/-- **A calm run that writes** still owes what was owed before it. -/
theorem OwesTo.offers {e : Entry} {mid : List Entry} (h : OwesTo hash s e mid)
    (hcalm : ∀ w, lastWriter s.log = some w → w.failed = [] ∨ w.scope = run.1.scopeKey)
    (hnoop : s.record.bind (·.hashOf run.1.scopeKey) ≠ some (run.1.contentHash hash))
    (hun : Unchanged e (mid ++ [offeredEntry run (planOf hash s.record run.1)])) :
    OwesTo hash ⟨some (closeRun s.record (planOf hash s.record run.1)
        (run.2.propose (planOf hash s.record run.1).toPropose)).1,
      s.log ++ [offeredEntry run (planOf hash s.record run.1)]⟩ e
      (mid ++ [offeredEntry run (planOf hash s.record run.1)]) := by
  obtain ⟨st, hst, hcases, howed⟩ := h
  set plan := planOf hash s.record run.1 with hplan
  set attempted := run.2.propose plan.toPropose with hatt
  -- where the remainder is open, this run is of the same scope
  have hscope : ∀ {st}, Open hash s e st → run.1.scopeKey = e.scope := by
    rintro st ⟨-, w, hw, hfailed, hws⟩
    exact ((hcalm w hw).resolve_left hfailed).symm.trans hws
  have hcontent : run.1.scopeKey = e.scope → run.1.content = e.content :=
    hun (offeredEntry run plan) (List.mem_append_right _ (List.mem_singleton_self _))
  have hhash : run.1.scopeKey = e.scope →
      run.1.contentHash hash = contentHashOf hash e.scope e.content := by
    intro hs
    unfold Input.contentHash
    rw [hs, hcontent hs]
  refine ⟨_, rfl, ?_, ?_⟩
  · rcases hcases with ⟨hopen, hstaged⟩ | hdone
    · have hs := hscope hopen
      by_cases hinc : unresolved plan attempted ≠ []
      · obtain ⟨hpend, hemitted, -⟩ := closeRun_incomplete s.record hinc
        refine Or.inl ⟨⟨hpend.trans (congrArg some (hhash hs)), offeredEntry run plan, ?_,
          failed_ne_nil_iff.mpr hinc, hs⟩, ?_⟩
        · show lastWriter (s.log ++ [offeredEntry run plan]) = _
          rw [lastWriter_append]
          rfl
        · intro k hk
          refine (hemitted k).mpr (Or.inl ?_)
          show k ∈ alreadyEmitted hash s.record run.1
          rw [hst, alreadyEmitted_of_pending (hopen.1.trans (congrArg some (hhash hs).symm))]
          exact hstaged k hk
      · -- the remainder went through: the scope is done
        refine Or.inr ?_
        have hself : e.scope = plan.scope := hs.symm
        rw [hashOf_complete (not_not.mp hinc), if_pos hself]
        exact congrArg some (hhash hs)
    · -- a scope that is done is left alone
      refine Or.inr ?_
      have hother : e.scope ≠ plan.scope := by
        intro hs
        apply hnoop
        rw [hst, hhash hs.symm]
        show st.hashOf run.1.scopeKey = _
        rw [← hdone]
        exact congrArg st.hashOf hs.symm
      rw [hashOf_other hother, hst]
      exact hdone
  · intro hmid
    obtain ⟨hopen, -⟩ := howed fun g hg => hmid g (List.mem_append_left _ hg)
    have := hmid (offeredEntry run plan)
      (List.mem_append_right _ (List.mem_singleton_self _)) (hscope hopen)
    cases this

theorem Tracks.step (hne : ∀ c, hash c ≠ "") (h : Tracks hash s) (hcalm : Calm hash s run) :
    Tracks hash (s.upsert hash run) := by
  unfold Session.upsert
  cases hopening : openRun hash s.record run.1 with
  | returns outcome =>
      refine h.returns ?_ rfl
      show (outcome.noop && !outcome.noop) = false
      cases outcome.noop <;> rfl
  | offers plan =>
      obtain ⟨rfl, hnoop⟩ := of_openRun_offers hopening
      have hlast : ∀ w, lastWriter s.log = some w → w.failed = [] ∨ w.scope = run.1.scopeKey := by
        rcases hcalm with ⟨outcome, hret⟩ | hlast
        · rw [hopening] at hret
          cases hret
        · exact hlast
      intro pre e mid hlog hfailed hun
      rcases Machine.split_append hlog with ⟨_, rfl, rfl⟩ | ⟨mid', rfl, hold⟩
      · exact owesTo_self hne hnoop (failed_ne_nil_iff.mp hfailed)
      · exact (h pre e mid' hold hfailed hun.of_append).offers hlast hnoop hun

/-- **What is owed is paid**: the entry a run adds to the log is what the runs
    before it were promised. -/
theorem Retries.step (h : Retries s.log) (ht : Tracks hash s) :
    Retries (s.upsert hash run).log := by
  -- an entry that is not the new one was there before
  have hold : ∀ (x : Entry), (∀ pre e mid, s.log = pre ++ e :: mid → e.failed ≠ [] →
      x.scope = e.scope → x.content = e.content → Unchanged e mid →
      (∀ k ∈ e.staged, k ∉ x.staged)
        ∧ (x.counts = true → (∀ g ∈ mid, g.scope = e.scope → g.counts = false) →
            x.noop = false ∧ ∀ claim ∈ e.failed, claim ∈ x.offered)) →
      Retries (s.log ++ [x]) := by
    intro x hx pre e mid f post hlog
    rw [← List.cons_append, ← List.append_assoc] at hlog
    rcases Machine.split_append hlog with ⟨hpre, rfl, -⟩ | ⟨post', rfl, hlog'⟩
    · exact hx pre e mid hpre
    · rw [List.append_assoc, List.cons_append] at hlog'
      exact h pre e mid f post' hlog'
  unfold Session.upsert
  cases hopening : openRun hash s.record run.1 with
  | returns outcome =>
      refine hold _ ?_
      intro pre e mid hlog hfailed hscope hcontent hun
      refine ⟨fun _ _ => List.not_mem_nil, ?_⟩
      intro hcounts hmid
      -- a no-op needs a hash that an owed scope does not have
      obtain ⟨st, hst, -, howed⟩ := ht pre e mid hlog hfailed hun
      have hnoop := of_openRun_returns hopening hcounts
      rw [hst] at hnoop
      refine absurd ?_ (howed hmid).2.2.1
      rw [← hscope, ← hcontent]
      exact hnoop
  | offers plan =>
      obtain ⟨rfl, hnoop⟩ := of_openRun_offers hopening
      refine hold _ ?_
      intro pre e mid hlog hfailed hscope hcontent hun
      obtain ⟨st, hst, hcases, howed⟩ := ht pre e mid hlog hfailed hun
      have hcontent' : run.1.content = e.content := hcontent
      constructor
      · rcases hcases with ⟨hopen, hstaged⟩ | hdone
        · rw [hst]
          exact not_staged_of_open hopen hstaged hscope hcontent'
        · refine absurd ?_ hnoop
          have hs : run.1.scopeKey = e.scope := hscope
          unfold Input.contentHash
          rw [hst, hs, hcontent']
          exact hdone
      · intro _ hmid
        refine ⟨rfl, ?_⟩
        rw [hst]
        exact (howed hmid).offered hfailed hscope hcontent'

/-- **NEITHER DUPLICATED NOR DROPPED, IN CALM RUNS.**  From any record of a source, in every
    sequence of runs over it in which a run that writes the record never follows an incomplete one
    of another scope: while a scope's content is unchanged, nothing staged by an incomplete run of
    the scope is staged again, and every claim that failed in it is offered by the scope's next run,
    which is no no-op. -/
theorem retries_of_calm (hash : List Char → String) (hne : ∀ c, hash c ≠ "")
    (record : Option SourceState) (s : Session)
    (hrun : ((machine hash).restrict (Calm hash)).Reach ⟨record, []⟩ s) : Retries s.log := by
  have hinit : Retries ([] : List Entry) ∧ Tracks hash ⟨record, []⟩ := by
    constructor
    · intro pre e mid f post hlog
      exact absurd hlog.symm (List.append_ne_nil_of_right_ne_nil _ (List.cons_ne_nil _ _))
    · intro pre e mid hlog
      exact absurd hlog.symm (List.append_ne_nil_of_right_ne_nil _ (List.cons_ne_nil _ _))
  have hinv : Retries s.log ∧ Tracks hash s := by
    refine Machine.reach_invariant (I := fun s => Retries s.log ∧ Tracks hash s) ?_ hinit hrun
    rintro s run ⟨hr, ht⟩ ha
    exact ⟨hr.step ht, ht.step hne ha.2⟩
  exact hinv.1

/-! ## Two sequences -/

/-- The emitter that fails the claims of some keys and stages the others. -/
def failing (keys : List String) : Emitter where
  propose claims :=
    ⟨(claims.map ExtractedClaim.key).filter (· ∉ keys),
      ((claims.map ExtractedClaim.key).filter (· ∈ keys)).map fun k => (k, "refused")⟩
  results_mem claims k hk := (List.mem_filter.mp hk).1
  errors_mem claims e he := by
    obtain ⟨k, hk, rfl⟩ := List.mem_map.mp he
    exact (List.mem_filter.mp hk).1

def textHash (c : List Char) : String := String.ofList ('#' :: c)

def claimOf (c : Char) : ExtractedClaim := ⟨String.ofList [c], "", "", none⟩

def runOf (scope : String) (claims : List ExtractedClaim) (keys : List String) : Run :=
  (⟨['x'], claims, some scope, 0⟩, failing keys)

def after (runs : List Run) : Session := runs.foldl (Session.upsert textHash) ⟨none, []⟩

def retried : List Run :=
  [runOf "user" [claimOf 'a', claimOf 'b'] ["b"], runOf "user" [claimOf 'a', claimOf 'b'] []]

/-- The retry stages what failed, and nothing else. -/
theorem retries_of_calm_retried :
    (after retried).log.map Entry.staged = [["a"], ["b"]] ∧ Retries (after retried).log := by
  refine ⟨by decide +kernel, ?_⟩
  refine retries_of_calm textHash ?_ none (after retried)
    ⟨retried, .cons ⟨trivial, Or.inr nofun⟩ (.cons ⟨trivial, Or.inr ?_⟩ (.nil _))⟩
  · intro c hc
    have := congrArg String.toList hc
    rw [textHash, String.toList_ofList] at this
    cases this
  · have hall : ((lastWriter (after [runOf "user" [claimOf 'a', claimOf 'b'] ["b"]]).log).all
        fun e => decide (e.scope = some "user")) = true := by decide +kernel
    intro e he
    change lastWriter (after [runOf "user" [claimOf 'a', claimOf 'b'] ["b"]]).log = some e at he
    rw [he] at hall
    exact Or.inr (of_decide_eq_true hall)

def takenOver : List Run :=
  [runOf "user" [claimOf 'a', claimOf 'b'] ["b"], runOf "assistant" [claimOf 'c'] [],
    runOf "user" [claimOf 'a', claimOf 'b'] []]

/-- **THE SLOT TAKEN OVER.**  The first run stages `a` and fails `b`; the run of the other scope
    empties the slot; the next run of the first scope stages `a` again. -/
theorem slot_taken_over : ∃ s, (machine textHash).Reach ⟨none, []⟩ s ∧ ¬ Retries s.log := by
  refine ⟨after takenOver, ⟨takenOver, .cons trivial (.cons trivial (.cons trivial (.nil _)))⟩, ?_⟩
  intro h
  have hlog : (after takenOver).log.length = 3 := by decide +kernel
  obtain ⟨e, g, f, hefg⟩ : ∃ e g f, (after takenOver).log = [e, g, f] :=
    List.length_eq_three.mp hlog
  have hrun : ((after takenOver).log.map fun e => (e.scope, e.staged, e.content)) =
      [(some "user", ["a"], ['x']), (some "assistant", ["c"], ['x']),
        (some "user", ["a", "b"], ['x'])]
      ∧ ((after takenOver).log.map fun e => e.failed.length) = [1, 0, 0] := by decide +kernel
  rw [hefg] at hrun
  simp only [List.map_cons, List.map_nil, List.cons.injEq, Prod.mk.injEq, and_true] at hrun
  obtain ⟨⟨⟨hes, hek, hec⟩, ⟨hgs, -, -⟩, hfs, hfk, hfc⟩, hfailed, -, -⟩ := hrun
  refine (h [] e [g] f [] hefg ?_ (hfs.trans hes.symm) (hfc.trans hec.symm) ?_).1 "a" ?_ ?_
  · intro hnil
    rw [hnil] at hfailed
    cases hfailed
  · intro g' hg' hscope
    rw [List.mem_singleton.mp hg', hgs, hes] at hscope
    exact absurd hscope (by decide)
  · rw [hek]
    exact List.mem_singleton_self _
  · rw [hfk]
    exact List.mem_cons_self

end Distill
