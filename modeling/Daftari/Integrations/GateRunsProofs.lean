import Mathlib
import Daftari.Integrations.ChangeGateProofs

/-! # The change gate over runs — no revision is lost

    The cycle around the loop, and cycles after one another.

    * `cycle_sound`: **one cycle** keeps the gate in all it writes and reports what is certified;
    * `gate_loses_nothing`: **every run**, from a provider without stored sources, of cycles that
      leave no source at risk. -/

namespace Engine

section Gate

variable {A D : Type} {sha256Hex : String → String} (name : String) (c : Cycle A D)
  {p : Progress A D}

/-! ## Being asked for -/

def textBytes (remote : RemoteSource) : Nat :=
  match usable c remote with
  | .error _ => 0
  | .ok (_, text) => text.utf8ByteSize

/-- No limit on the cycle as a whole stops it before its last source. -/
def Unhurried (sources : List RemoteSource) : Prop :=
  (∀ i < sources.length, overtime c i = false) ∧
    (sources.map (textBytes c)).sum ≤ c.limits.maxCycleTextBytes

theorem bytesAfter_le (stored : Option SourceState) (remote : RemoteSource) (bytes : Nat) :
    (bytesAfter c stored remote bytes).1 ≤ bytes + textBytes c remote ∧
      (bytes + textBytes c remote ≤ c.limits.maxCycleTextBytes →
        (bytesAfter c stored remote bytes).2 = false) := by
  unfold bytesAfter textBytes
  split
  · exact ⟨Nat.le_add_right _ _, fun _ => rfl⟩
  · cases usable c remote with
    | error reason => exact ⟨Nat.le_refl _, fun _ => rfl⟩
    | ok got =>
        dsimp only
        split
        · refine ⟨Nat.le_add_right _ _, fun h => ?_⟩
          exact decide_eq_false (Nat.not_lt.mpr h)
        · exact ⟨Nat.le_refl _, fun _ => rfl⟩

theorem cutOff_history (p : Progress A D) (remaining : List RemoteSource) :
    (cutOff name c p remaining).history = p.history := by
  induction remaining generalizing p with
  | nil => rfl
  | cons remote rest ih => exact ih (markFailed name c p remote .limit)

theorem failedAll_history (p : Progress A D) (remaining : List RemoteSource) :
    (remaining.foldl (fun p r => p.failed (sourceIdentity name r.id)) p).history = p.history := by
  induction remaining generalizing p with
  | nil => rfl
  | cons remote rest ih => exact ih (p.failed (sourceIdentity name remote.id))

/-- **What is not skipped is asked for**, unless a limit of the cycle stops the loop
    before its turn. -/
theorem sourceLoop_history (sha256Hex : String → String)
    (stored : List (String × SourceState)) (sources : List RemoteSource)
    (hdistinct : (sources.map RemoteSource.id).Nodup) (i : Nat) (p : Progress A D)
    (hagree : ∀ r ∈ sources, p.state.sources.lookup r.id = stored.lookup r.id) :
    ∃ events, (sourceLoop name sha256Hex c i sources p).history = p.history ++ events ∧
      ((∀ j < sources.length, overtime c (i + j) = false) →
        p.cycleTextBytes + (sources.map (textBytes c)).sum ≤ c.limits.maxCycleTextBytes →
          ∀ r ∈ sources, skips c.hint.targeted (stored.lookup r.id) r = false →
            .asked r.id r.revision ∈ events) := by
  induction sources generalizing i p with
  | nil => exact ⟨[], (List.append_nil _).symm, fun _ _ => nofun⟩
  | cons remote rest ih =>
      obtain ⟨hnew, hrest⟩ := List.nodup_cons.mp hdistinct
      unfold sourceLoop
      by_cases hover : overtime c i = true
      · rw [if_pos hover, failedAll_history]
        refine ⟨[], (List.append_nil _).symm, fun htime => ?_⟩
        have hnow := htime 0 (Nat.succ_pos _)
        rw [Nat.add_zero, hover] at hnow
        cases hnow
      · rw [if_neg hover]
        obtain ⟨events, hhistory, hasked⟩ := handleSource_history name c sha256Hex p remote
        have hbytes := handleSource_bytes name c sha256Hex p remote
        rw [hagree remote List.mem_cons_self] at hbytes hasked
        obtain ⟨hle, hcut⟩ := bytesAfter_le c (stored.lookup remote.id) remote p.cycleTextBytes
        rw [← hbytes] at hle hcut
        have hothers := handleSource_others sha256Hex name c hnew hagree
        split
        · rename_i q heq
          rw [heq] at hhistory hcut
          rw [cutOff_history]
          refine ⟨events, hhistory, fun _ htext => ?_⟩
          rw [List.map_cons, List.sum_cons] at htext
          have := hcut (by omega)
          cases this
        · rename_i q heq
          rw [heq] at hhistory hle hothers
          dsimp only at hle
          obtain ⟨more, hmore, hlater⟩ := ih hrest (i + 1) q hothers
          refine ⟨events ++ more, ?_, fun htime htext r hr hskip => ?_⟩
          · rw [hmore, hhistory, List.append_assoc]
          · rw [List.map_cons, List.sum_cons] at htext
            rcases List.mem_cons.mp hr with rfl | hr
            · exact List.mem_append_left _ (hasked hskip)
            · refine List.mem_append_right _ (hlater (fun j hj => ?_) (by omega) r hr hskip)
              have hnext := htime (j + 1) (Nat.succ_lt_succ hj)
              rwa [show i + (j + 1) = i + 1 + j by omega] at hnext

/-! ## The sweep -/

/-- **The sweep keeps the gate**: what is unavailable is not trusted. -/
theorem sweepUnavailable_gated (current : List String) (stored : List (String × SourceState))
    (hp : Gated sha256Hex p) (hstored : ∀ e ∈ stored, EntryGate sha256Hex p.history e.1 e.2) :
    Gated sha256Hex (sweepUnavailable name c current stored p).1 := by
  induction stored generalizing p with
  | nil => exact hp
  | cons entry rest ih =>
      obtain ⟨id, previous⟩ := entry
      have hrest := fun e he => hstored e (List.mem_cons_of_mem _ he)
      have hentry : EntryGate sha256Hex p.history id
          { previous with available := false, lastSeenAt := c.seenAt } :=
        (hstored _ List.mem_cons_self).of_hash rfl nofun
      unfold sweepUnavailable
      split
      · exact ih hp hrest
      · dsimp only
        split
        · exact hp
        · exact ih ((hp.store hentry).write.of_eq rfl rfl rfl) hrest

/-- What the sweep leaves alone: the history, the reports of processed sources, the
    bytes, and the entries of what was discovered. -/
theorem sweepUnavailable_frame (current : List String) (stored : List (String × SourceState))
    (p : Progress A D) :
    let q := (sweepUnavailable name c current stored p).1
    q.history = p.history ∧ q.cycleTextBytes = p.cycleTextBytes ∧
      q.outcome.distilledSourceIds = p.outcome.distilledSourceIds ∧
      q.outcome.unchangedSourceIds = p.outcome.unchangedSourceIds ∧
      ∀ id ∈ current, q.state.sources.lookup id = p.state.sources.lookup id := by
  induction stored generalizing p with
  | nil => exact ⟨rfl, rfl, rfl, rfl, fun _ _ => rfl⟩
  | cons entry rest ih =>
      obtain ⟨id, previous⟩ := entry
      unfold sweepUnavailable
      split
      · exact ih p
      · rename_i hswept
        dsimp only
        split
        · exact ⟨rfl, rfl, rfl, rfl, fun _ _ => rfl⟩
        · obtain ⟨h₁, h₂, h₃, h₄, h₅⟩ := ih
            (((p.store id { previous with available := false, lastSeenAt := c.seenAt }).write)
              |>.unavailable (sourceIdentity name id))
          refine ⟨h₁, h₂, h₃, h₄, fun k hk => (h₅ k hk).trans ?_⟩
          refine Assoc.lookup_set_of_ne _ _ ?_
          rintro rfl
          exact hswept (Or.inr (Or.inl hk))

/-! ## The cycle -/

/-- A hint that is about everything. -/
def RefreshHint.full : RefreshHint → Bool
  | .sources _ _ => false
  | _ => true

theorem RefreshHint.full.spec {hint : RefreshHint} (h : hint.full = true) :
    hint.targeted = false ∧ ∀ id, hint.inScope id = true := by
  cases hint with
  | reconcile => exact ⟨rfl, fun _ => rfl⟩
  | sources ids rediscover => cases h
  | lifecycle action => exact ⟨rfl, fun _ => rfl⟩

def Spares (w : World A D) (c : Cycle A D) : Prop :=
  ∀ r ∈ marked c w.state.sources 0 0 ((c.discovery w.state).sources.getD []),
    atRisk (w.state.sources.lookup r.id) r = false

instance (w : World A D) (c : Cycle A D) : Decidable (Spares w c) :=
  inferInstanceAs (Decidable (∀ r ∈ marked c w.state.sources 0 0 _, _ = _))

/-- **Nothing is lost by this cycle**: what it reports distilled or unchanged is
    certified at the discovered revision, and what was not certified before it is
    asked for, unless a limit of the cycle stops it. -/
structure Lossless (sha256Hex : String → String) (h : List Event)
    (sources : Option (List RemoteSource)) (report : Report A D) : Prop where
  reported : ∀ all o, sources = some all → report.outcome = .ok o →
    ∀ r ∈ all, (sourceIdentity name r.id ∈ o.distilledSourceIds ∨
      sourceIdentity name r.id ∈ o.unchangedSourceIds) →
        Certified sha256Hex report.history r.id r.revision
  retried : ∀ all o, sources = some all → report.outcome = .ok o → Unhurried c all →
    ∀ r ∈ all, ¬ Certified sha256Hex h r.id r.revision →
      ∃ events, report.history = h ++ events ∧ .asked r.id r.revision ∈ events

theorem Lossless.of_error {h h' : List Event} {sources : Option (List RemoteSource)}
    {written : List (ProviderState A D × List Event)} {message : String} :
    Lossless name c sha256Hex h sources ⟨written, h', .error message⟩ where
  reported _ _ _ ho := nomatch ho
  retried _ _ _ ho := nomatch ho

theorem commit_gated (discovery : Discovery D) (hp : Gated sha256Hex p) :
    Gated sha256Hex (commit c discovery p) := by
  unfold commit
  split
  · refine Gated.write ⟨⟨?_, ?_⟩, hp.written⟩
    · exact hp.gate.distinct
    · exact hp.gate.entries
  · exact hp.write

theorem commit_frame (discovery : Discovery D) (p : Progress A D) :
    (commit c discovery p).history = p.history ∧ (commit c discovery p).outcome = p.outcome := by
  unfold commit
  split
  · exact ⟨rfl, rfl⟩
  · exact ⟨rfl, rfl⟩

theorem skips_certified {state : ProviderState A D} {h : List Event}
    (hgate : Gate sha256Hex state h) {remote : RemoteSource} {targeted : Bool}
    (hskip : skips targeted (state.sources.lookup remote.id) remote = true) :
    Certified sha256Hex h remote.id remote.revision := by
  unfold skips at hskip
  cases hstored : state.sources.lookup remote.id with
  | none =>
      rw [hstored, Option.any_none, Bool.and_false] at hskip
      cases hskip
  | some s =>
      rw [hstored] at hskip
      simp only [Option.any_some, Bool.and_eq_true, decide_eq_true_eq] at hskip
      obtain ⟨_, ⟨hav, hrev⟩, hne⟩ := hskip
      have hcert := (hgate.entries _ _ hstored).certified hav hne
      rw [hrev] at hcert
      exact hcert

/-- **A cycle with valid tokens** keeps the gate in all it writes, and loses nothing. -/
theorem reconcileWith_sound (hsha : ∀ text, sha256Hex text ≠ "") (hfull : c.hint.full = true)
    (state : ProviderState A D) (history : List Event)
    (written : List (ProviderState A D × List Event)) (hgate : Gate sha256Hex state history)
    (hwritten : ∀ w ∈ written, Gate sha256Hex w.1 w.2)
    (hspares : ∀ r ∈ marked c state.sources 0 0 ((discovered c state).sources.getD []),
      atRisk (state.sources.lookup r.id) r = false) :
    (∀ w ∈ (reconcileWith name sha256Hex c state history written).written, Gate sha256Hex w.1 w.2) ∧
      Lossless name c sha256Hex history (discovered c state).sources
        (reconcileWith name sha256Hex c state history written) := by
  obtain ⟨htargeted, hscope⟩ := RefreshHint.full.spec hfull
  unfold reconcileWith
  dsimp only
  cases hsources : (discovered c state).sources with
  | none => exact ⟨hwritten, .of_error name c⟩
  | some sources =>
      rw [hsources, Option.getD_some] at hspares
      dsimp only
      cases hcheck : checkDiscovered name c sources with
      | some message => exact ⟨hwritten, .of_error name c⟩
      | none =>
          dsimp only
          have hcurrent : (sources.filter fun s => c.hint.inScope s.id) = sources :=
            List.filter_eq_self.mpr fun s _ => hscope s.id
          have hdistinct : (sources.map RemoteSource.id).Nodup := by
            unfold checkDiscovered at hcheck
            by_contra hdup
            split at hcheck
            · cases hcheck
            · split at hcheck <;> cases hcheck
          rw [hcurrent]
          -- the sweep leaves the loop's sources alone
          have hstart : Gated sha256Hex
              { state := state, history := history, written := written } :=
            ⟨hgate, hwritten⟩
          have hswept := sweepUnavailable_gated name c (sources.map RemoteSource.id)
            state.sources hstart fun e he =>
              hgate.entries e.1 e.2 (Assoc.lookup_of_mem hgate.distinct he)
          obtain ⟨hhistory, hbytes, hdistilled, hunchanged, hlookup⟩ :=
            sweepUnavailable_frame name c (sources.map RemoteSource.id) state.sources
              { state := state, history := history, written := written }
          generalize (sweepUnavailable name c (sources.map RemoteSource.id) state.sources
            { state := state, history := history, written := written }) = swept at *
          split
          · exact ⟨hswept.written, .of_error name c⟩
          · have hagree : ∀ r ∈ sources,
                swept.1.state.sources.lookup r.id = state.sources.lookup r.id :=
              fun r hr => hlookup r.id (List.mem_map_of_mem hr)
            have hnone : Reported name sha256Hex sources swept.1 := by
              intro r _ hreport
              rw [hdistilled, hunchanged] at hreport
              rcases hreport with hreport | hreport <;> cases hreport
            have hzero : swept.1.cycleTextBytes = 0 := hbytes
            have hsafe : ∀ r ∈ marked c state.sources 0 swept.1.cycleTextBytes sources,
                atRisk (state.sources.lookup r.id) r = false := by
              rw [hzero]
              exact hspares
            obtain ⟨hloop, hreported⟩ := sourceLoop_sound name c hsha htargeted state.sources
              hdistinct sources (List.Sublist.refl _) 0 hswept hnone hagree hsafe
            obtain ⟨events, hevents, hasked⟩ := sourceLoop_history name c sha256Hex
              state.sources sources hdistinct 0 swept.1 hagree
            obtain ⟨hcommitted, houtcome⟩ := commit_frame c (discovered c state)
              (sourceLoop name sha256Hex c 0 sources swept.1)
            refine ⟨(commit_gated c _ hloop).written, ?_, ?_⟩
            · rintro all o hall ho r hr hreport
              obtain rfl := Option.some.inj hall
              obtain rfl := Except.ok.inj ho
              rw [houtcome] at hreport
              rw [hcommitted]
              exact hreported r hr hreport
            · rintro all o hall ho ⟨htime, htext⟩ r hr hnot
              obtain rfl := Option.some.inj hall
              refine ⟨events, ?_, hasked ?_ ?_ r hr ?_⟩
              · dsimp only
                rw [hcommitted, hevents, hhistory]
              · intro j hj
                rw [Nat.zero_add]
                exact htime j hj
              · rw [hzero, Nat.zero_add]
                exact htext
              · by_contra hskip
                exact hnot (skips_certified hgate (by simpa using hskip))

/-- **One cycle**, with the token refresh before it. -/
theorem cycle_sound (hsha : ∀ text, sha256Hex text ≠ "") (hfull : c.hint.full = true)
    (w : World A D) (hgate : Gate sha256Hex w.state w.history) (hspares : Spares w c) :
    (∀ e ∈ (reconcileProvider name sha256Hex c w.state w.history).written, Gate sha256Hex e.1 e.2) ∧
      Lossless name c sha256Hex w.history (c.discovery w.state).sources
        (reconcileProvider name sha256Hex c w.state w.history) := by
  unfold Spares Cycle.discovery at hspares
  unfold reconcileProvider Cycle.discovery
  -- the tokens are no part of the gate
  have hauth : ∀ auth : A, Gate sha256Hex { w.state with auth := auth } w.history :=
    fun _ => ⟨hgate.distinct, hgate.entries⟩
  cases hrefresh : c.refresh w.state.auth with
  | failed => exact ⟨nofun, .of_error name c⟩
  | terminal auth =>
      refine ⟨fun e he => ?_, .of_error name c⟩
      rw [List.mem_singleton.mp he]
      exact hauth auth
  | current =>
      rw [hrefresh] at hspares
      exact reconcileWith_sound name c hsha hfull w.state w.history [] hgate nofun hspares
  | renewed auth =>
      rw [hrefresh] at hspares
      refine reconcileWith_sound name c hsha hfull { w.state with auth := auth } w.history
        [({ w.state with auth := auth }, w.history)] (hauth auth) (fun e he => ?_) hspares
      rw [List.mem_singleton.mp he]
      exact hauth auth

end Gate

/-! ## Every run -/

/-- A cycle of a full discovery that leaves no source at risk. -/
def Careful {A D : Type} (w : World A D) (c : Cycle A D) : Prop :=
  c.hint.full = true ∧ Spares w c

/-- **The change gate loses no revision**: in every run of careful cycles from a
    provider without stored sources, wherever they are cut off, the gate holds, and
    a further careful cycle loses nothing. -/
theorem gate_loses_nothing {A D : Type} (name : String) (sha256Hex : String → String)
    (hsha : ∀ text, sha256Hex text ≠ "") (start w : World A D)
    (hempty : start.state.sources = [])
    (hrun : ((engine name sha256Hex).restrict Careful).Reach start w) :
    Gate sha256Hex w.state w.history ∧
      ∀ c : Cycle A D, Careful w c →
        Lossless name c sha256Hex w.history (c.discovery w.state).sources
          (reconcileProvider name sha256Hex c w.state w.history) := by
  have hgate : Gate sha256Hex w.state w.history := by
    refine Machine.reach_invariant (I := fun w : World A D =>
      Gate sha256Hex w.state w.history) (fun w c hw hc => ?_) ?_ hrun
    · obtain ⟨_, hfull, hspares⟩ := hc
      rcases next_written name sha256Hex c w with hsame | hmem
      · rw [Machine.restrict_next]
        change Gate sha256Hex (World.next name sha256Hex w c).state
          (World.next name sha256Hex w c).history
        rw [hsame]
        exact hw
      · exact (cycle_sound name c hsha hfull w hw hspares).1 _ hmem
    · refine ⟨?_, ?_⟩
      · rw [hempty]
        exact List.nodup_nil
      · rw [hempty]
        exact nofun
  exact ⟨hgate, fun c hc => (cycle_sound name c hsha hc.1 w hgate hc.2).2⟩

def sees (revision : String) (fetch : FetchResult) : Cycle Unit String where
  hint := .reconcile
  refresh _ := .current
  discover _ := { sources := some [⟨"a", revision, none⟩], cursor := none, adapterData := none }
  fetch _ := fetch
  distill _ := .ok "run"
  recordUnavailable _ := true
  seenAt := "2026-07-01T00:00:00.000Z"
  elapsedMs _ := 0
  limits := {}
  lasting := none

def distilledOnce : World Unit String :=
  World.next "notion" digest (atCursor "page1") (sees "r1" (.ok ⟨"a", "r1", some "a"⟩))

/-- A source is distilled, and found unchanged. -/
theorem gate_loses_nothing_twice :
    Gate digest distilledOnce.state distilledOnce.history ∧
      Lossless "notion" (sees "r1" (.threw none)) digest distilledOnce.history
        (some [⟨"a", "r1", none⟩])
        (reconcileProvider "notion" digest (sees "r1" (.threw none)) distilledOnce.state
          distilledOnce.history) :=
  have hsound := gate_loses_nothing "notion" digest (fun _ => by unfold digest; decide)
    (atCursor "page1") distilledOnce rfl
    ⟨[sees "r1" (.ok ⟨"a", "r1", some "a"⟩)],
      .cons ⟨trivial, rfl, by decide +kernel⟩ (.nil _)⟩
  ⟨hsound.1, hsound.2 (sees "r1" (.threw none)) ⟨rfl, by decide +kernel⟩⟩

/-- **A revision is lost**: the next one cannot be fetched, and is stored with the
    hash of the one before it. -/
theorem gate_loses_a_revision :
    ¬ ∀ start w : World Unit String, start.state.sources = [] →
      ((engine "notion" digest).restrict fun _ c => c.hint.full = true).Reach start w →
        Gate digest w.state w.history := by
  intro h
  have hgate := h (atCursor "page1")
    (World.next "notion" digest distilledOnce (sees "r2" (.threw none))) rfl
    ⟨[sees "r1" (.ok ⟨"a", "r1", some "a"⟩), sees "r2" (.threw none)],
      .cons ⟨trivial, rfl⟩ (.cons ⟨trivial, rfl⟩ (.nil _))⟩
  have hentry := hgate.entries "a"
    { id := "a", revision := "r2", contentHash := digest "a", available := true
      lastSeenAt := "2026-07-01T00:00:00.000Z", lastDistillRunId := some "run"
      lastFailure := some ⟨"2026-07-01T00:00:00.000Z", .fetch⟩ } (by decide +kernel)
  obtain ⟨text, hfetched, _⟩ := hentry.certified rfl (by decide)
  have hhistory : (World.next "notion" digest distilledOnce (sees "r2" (.threw none))).history =
      [.asked "a" "r1", .fetched "a" "r1" "a", .distilled "a" "r1" "a", .asked "a" "r2"] := by
    decide +kernel
  rw [hhistory] at hfetched
  simp at hfetched

end Engine
