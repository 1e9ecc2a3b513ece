import Daftari.Integrations.CursorProofs

/-! # The change gate — what a stored revision and its hash stand for

    The loop skips a source that is stored as available, at the revision that was discovered, with a
    hash.  "A nonempty hash certifies successful processing of this revision"; the revision, the
    hash and the availability are written separately, in every exit of the loop.

    * `Gate`: **what is stored is certified** where the skip guard trusts it;
    * `gate_loses_nothing`: in every run without such a failure the gate holds, and nothing is
      reported unchanged that is not certified. -/

namespace Engine

section Gate

variable {A D : Type} (sha256Hex : String → String)

/-! ## The gate -/

def Hashed (h : List Event) (id hash : String) : Prop :=
  ∃ revision text, .distilled id revision text ∈ h ∧ hash = sha256Hex text

/-- The text of the revision was fetched, and it was distilled or has the hash of
    a text of the source that was. -/
def Certified (h : List Event) (id revision : String) : Prop :=
  ∃ text, .fetched id revision text ∈ h ∧ Hashed sha256Hex h id (sha256Hex text)

/-- What an entry of the state owes to what happened: its hash is that of a text
    that was distilled, and an entry the skip guard may trust is certified. -/
structure EntryGate (h : List Event) (id : String) (s : SourceState) : Prop where
  hashed : s.contentHash ≠ "" → Hashed sha256Hex h id s.contentHash
  certified : s.available = true → s.contentHash ≠ "" → Certified sha256Hex h id s.revision

/-- **The gate**: every stored entry keeps what it owes. -/
structure Gate (state : ProviderState A D) (h : List Event) : Prop where
  distinct : (Assoc.keys state.sources).Nodup
  entries : ∀ id s, state.sources.lookup id = some s → EntryGate sha256Hex h id s

structure Gated (p : Progress A D) : Prop where
  gate : Gate sha256Hex p.state p.history
  written : ∀ w ∈ p.written, Gate sha256Hex w.1 w.2

variable {sha256Hex}

variable {id : String} {h : List Event}

theorem Hashed.mono {h' : List Event} {hash : String} (hsub : ∀ e ∈ h, e ∈ h')
    (hh : Hashed sha256Hex h id hash) : Hashed sha256Hex h' id hash := by
  obtain ⟨revision, text, hmem, heq⟩ := hh
  exact ⟨revision, text, hsub _ hmem, heq⟩

theorem Certified.mono {h' : List Event} {revision : String} (hsub : ∀ e ∈ h, e ∈ h')
    (hc : Certified sha256Hex h id revision) : Certified sha256Hex h' id revision := by
  obtain ⟨text, hmem, hh⟩ := hc
  exact ⟨text, hsub _ hmem, hh.mono hsub⟩

theorem EntryGate.mono {h' : List Event} {s : SourceState} (hsub : ∀ e ∈ h, e ∈ h')
    (hs : EntryGate sha256Hex h id s) : EntryGate sha256Hex h' id s where
  hashed hne := (hs.hashed hne).mono hsub
  certified hav hne := (hs.certified hav hne).mono hsub

theorem EntryGate.pending {s : SourceState} (hs : s.contentHash = "") :
    EntryGate sha256Hex h id s where
  hashed hne := absurd hs hne
  certified _ hne := absurd hs hne

/-- An entry with the hash of another owes no more than it, if it is no more
    available or its revision is certified. -/
theorem EntryGate.of_hash {s t : SourceState} (hs : EntryGate sha256Hex h id s)
    (hhash : t.contentHash = s.contentHash)
    (hav : t.available = true → t.contentHash ≠ "" → Certified sha256Hex h id t.revision) :
    EntryGate sha256Hex h id t where
  hashed hne := by
    rw [hhash] at hne ⊢
    exact hs.hashed hne
  certified := hav

namespace Gated

variable {p : Progress A D}

theorem write (hp : Gated sha256Hex p) : Gated sha256Hex p.write where
  gate := hp.gate
  written := by
    exact List.forall_mem_append.mpr ⟨hp.written, List.forall_mem_singleton.mpr hp.gate⟩

/-- **An entry is stored**: it is the only one that has to keep anything. -/
theorem store (hp : Gated sha256Hex p) {s : SourceState} (hs : EntryGate sha256Hex p.history id s) :
    Gated sha256Hex (p.store id s) where
  gate :=
    { distinct := Assoc.nodup_set id s hp.gate.distinct
      entries := by
        intro k t ht
        change (Assoc.set p.state.sources id s).lookup k = some t at ht
        by_cases hk : k = id
        · subst hk
          rw [Assoc.lookup_set_self] at ht
          obtain rfl := Option.some.inj ht
          exact hs
        · rw [Assoc.lookup_set_of_ne _ _ hk] at ht
          exact hp.gate.entries k t ht }
  written := hp.written

theorem note (hp : Gated sha256Hex p) (e : Event) : Gated sha256Hex (p.note e) where
  gate :=
    { distinct := hp.gate.distinct
      entries := fun id s hs =>
        (hp.gate.entries id s hs).mono fun _ he => List.mem_append_left _ he }
  written := hp.written

theorem of_eq (hp : Gated sha256Hex p) {q : Progress A D} (hstate : q.state = p.state)
    (hhistory : q.history = p.history) (hwritten : q.written = p.written) : Gated sha256Hex q := by
  refine ⟨?_, ?_⟩
  · rw [hstate, hhistory]
    exact hp.gate
  · rw [hwritten]
    exact hp.written

end Gated

/-! ## One source -/

/-- A failure of this source would leave the hash of another revision standing. -/
def atRisk (stored : Option SourceState) (remote : RemoteSource) : Bool :=
  stored.any fun s => s.available && s.contentHash ≠ "" && s.revision ≠ remote.revision

variable (name : String) (c : Cycle A D) {p : Progress A D}

/-- **A failure keeps the gate**, unless the source is at risk. -/
theorem markFailed_gated (hp : Gated sha256Hex p) (remote : RemoteSource)
    (reason : SourceFailureReason)
    (hrisk : atRisk (p.state.sources.lookup remote.id) remote = false) :
    Gated sha256Hex (markFailed name c p remote reason) := by
  refine (hp.store ?_).of_eq rfl rfl rfl
  cases hstored : p.state.sources.lookup remote.id with
  | none => exact .pending rfl
  | some s =>
      have hs := hp.gate.entries _ _ hstored
      rw [hstored] at hrisk
      refine hs.of_hash rfl ?_
      intro hav hne
      have hrev : s.revision = remote.revision := by
        by_contra hne'
        have : atRisk (some s) remote = true := by
          simp only [atRisk, Option.any_some, Bool.and_eq_true, decide_eq_true_eq]
          exact ⟨⟨hav, hne⟩, hne'⟩
        rw [hrisk] at this
        cases this
      have hcert := hs.certified hav hne
      rw [hrev] at hcert
      exact hcert

/-- **A text within the limits keeps the gate**, whatever distillation does. -/
theorem distillSource_gated (hp : Gated sha256Hex p) (remote : RemoteSource)
    (revision text : String) (hfetched : .fetched remote.id revision text ∈ p.history) :
    Gated sha256Hex (distillSource name sha256Hex c p remote revision text) := by
  rcases distillSource_cases name sha256Hex c p remote revision text with
    ⟨hsame, heq⟩ | ⟨next, hrevision, _, hhash, ⟨failure, heq⟩ | ⟨runId, heq⟩⟩
  · -- the hash is that of a text that was distilled
    rw [heq]
    obtain ⟨s, hstored, hs⟩ := Option.map_eq_some_iff.mp hsame
    have hgate := hp.gate.entries _ _ hstored
    refine (hp.store ?_).write.of_eq rfl rfl rfl
    rw [hstored]
    refine hgate.of_hash rfl fun _ hne => ⟨text, hfetched, ?_⟩
    rw [← hs]
    exact hgate.hashed hne
  · rw [heq]
    have hfailed : EntryGate sha256Hex (p.store remote.id next).write.history remote.id
        { next with lastFailure := some failure } := .pending hhash
    exact ((hp.store (.pending hhash)).write.store hfailed).of_eq rfl rfl rfl
  · rw [heq]
    have hpending : EntryGate sha256Hex p.history remote.id next := .pending hhash
    have hdistilled := (hp.store hpending).write.note (.distilled remote.id revision text)
    refine (hdistilled.store ?_).write.of_eq rfl rfl rfl
    have hh : Hashed sha256Hex
        ((p.store remote.id next).write.note (.distilled remote.id revision text)).history
        remote.id (sha256Hex text) :=
      ⟨revision, text, List.mem_append_right _ (List.mem_singleton_self _), rfl⟩
    refine ⟨fun _ => hh, fun _ _ => ⟨text, ?_, hh⟩⟩
    rw [hrevision]
    exact List.mem_append_left _ hfetched

variable {remote : RemoteSource}

theorem usable_revision {c : Cycle A D} {revision text : String} (hfull : c.hint.targeted = false)
    (h : usable c remote = .ok (revision, text)) : revision = remote.revision := by
  unfold usable at h
  split at h
  · cases h
  · cases h
  · split at h
    · cases h
    · split at h
      · cases h
      · split at h
        · cases h
        · rename_i got _ _ _ _ hsame
          obtain ⟨rfl, _⟩ := Prod.mk.inj (Except.ok.inj h)
          by_contra hne
          refine hsame (Or.inr ⟨?_, hne⟩)
          rw [hfull]
          exact Bool.false_ne_true

/-- Does the source end marked failed, without its text being processed? -/
def failsEarly (stored : Option SourceState) (remote : RemoteSource) (bytes : Nat) : Bool :=
  !skips c.hint.targeted stored remote &&
    match usable c remote with
    | .error _ => true
    | .ok (_, text) => overLimit c bytes text

/-- **Every exit keeps the gate**: the handling of a source that is not marked
    failed while it is at risk. -/
theorem handleSource_gated (hp : Gated sha256Hex p) (remote : RemoteSource)
    (hrisk : failsEarly c (p.state.sources.lookup remote.id) remote p.cycleTextBytes = true →
      atRisk (p.state.sources.lookup remote.id) remote = false) :
    Gated sha256Hex (handleSource name sha256Hex c p remote).1 := by
  unfold failsEarly at hrisk
  rcases handleSource_cases name sha256Hex c p remote with ⟨previous, hstored, _, heq⟩ |
    ⟨hskip, ⟨reason, hu, heq⟩ | ⟨revision, text, hu, ⟨hover, heq⟩ | ⟨_, heq⟩⟩⟩
  · rw [heq]
    have hgate := hp.gate.entries _ _ hstored
    have hentry : EntryGate sha256Hex p.history remote.id
        { previous with lastSeenAt := c.seenAt, lastFailure := none } :=
      hgate.of_hash rfl hgate.certified
    exact (hp.store hentry).write.of_eq rfl rfl rfl
  · rw [heq]
    refine markFailed_gated name c (hp.note _) remote reason (hrisk ?_)
    rw [hskip, hu]
    rfl
  · rw [heq]
    refine markFailed_gated name c ((hp.note _).note _) remote .limit (hrisk ?_)
    rw [hskip, hu]
    exact hover
  · rw [heq]
    have hcounted : Gated sha256Hex (countText (fetchedText p remote revision text) text) :=
      ((hp.note (.asked remote.id remote.revision)).note
        (.fetched remote.id revision text)).of_eq rfl rfl rfl
    refine distillSource_gated name c hcounted remote revision text ?_
    exact List.mem_append_right _ (List.mem_singleton_self _)

/-! ## What the handling of a source leaves alone -/

theorem markFailed_lookup (p : Progress A D) (remote : RemoteSource)
    (reason : SourceFailureReason) (hne : id ≠ remote.id) :
    (markFailed name c p remote reason).state.sources.lookup id = p.state.sources.lookup id :=
  Assoc.lookup_set_of_ne _ _ hne

theorem handleSource_lookup (p : Progress A D) (remote : RemoteSource) (hne : id ≠ remote.id) :
    (handleSource name sha256Hex c p remote).1.state.sources.lookup id =
      p.state.sources.lookup id := by
  rcases handleSource_cases name sha256Hex c p remote with ⟨previous, _, _, heq⟩ |
    ⟨_, ⟨reason, _, heq⟩ | ⟨revision, text, _, ⟨_, heq⟩ | ⟨_, heq⟩⟩⟩
  · rw [heq]
    exact Assoc.lookup_set_of_ne _ _ hne
  · rw [heq]
    exact markFailed_lookup name c _ remote reason hne
  · rw [heq]
    exact markFailed_lookup name c _ remote .limit hne
  · rw [heq]
    rcases distillSource_cases name sha256Hex c
        (countText (fetchedText p remote revision text) text) remote revision text with
      ⟨_, heq'⟩ | ⟨next, _, _, _, ⟨failure, heq'⟩ | ⟨runId, heq'⟩⟩
    · rw [heq']
      exact Assoc.lookup_set_of_ne _ _ hne
    · rw [heq']
      exact (Assoc.lookup_set_of_ne _ _ hne).trans (Assoc.lookup_set_of_ne _ _ hne)
    · rw [heq']
      exact (Assoc.lookup_set_of_ne _ _ hne).trans (Assoc.lookup_set_of_ne _ _ hne)

variable (sha256Hex) in
/-- The other sources are stored as they were. -/
theorem handleSource_others {rest : List RemoteSource} {stored : List (String × SourceState)}
    (hnew : remote.id ∉ rest.map RemoteSource.id)
    (hagree : ∀ r ∈ remote :: rest, p.state.sources.lookup r.id = stored.lookup r.id) :
    ∀ r ∈ rest, (handleSource name sha256Hex c p remote).1.state.sources.lookup r.id =
      stored.lookup r.id := by
  intro r hr
  rw [handleSource_lookup name c p remote fun heq => hnew (heq ▸ List.mem_map_of_mem hr)]
  exact hagree r (List.mem_cons_of_mem _ hr)

/-- The bytes counted after a source, and whether it cuts the loop off, are read
    off its stored entry and what the adapter answers. -/
def bytesAfter (stored : Option SourceState) (remote : RemoteSource) (bytes : Nat) : Nat × Bool :=
  if skips c.hint.targeted stored remote then (bytes, false)
  else
    match usable c remote with
    | .error _ => (bytes, false)
    | .ok (_, text) =>
        if overLimit c bytes text then (bytes, overCycle c bytes text)
        else (bytes + text.utf8ByteSize, false)

theorem handleSource_bytes (sha256Hex : String → String) (p : Progress A D)
    (remote : RemoteSource) : ((handleSource name sha256Hex c p remote).1.cycleTextBytes,
        (handleSource name sha256Hex c p remote).2) =
      bytesAfter c (p.state.sources.lookup remote.id) remote p.cycleTextBytes := by
  unfold bytesAfter
  rcases handleSource_cases name sha256Hex c p remote with ⟨previous, hstored, hskip, heq⟩ |
    ⟨hskip, ⟨reason, hu, heq⟩ | ⟨revision, text, hu, ⟨hover, heq⟩ | ⟨hover, heq⟩⟩⟩
  · rw [heq, hstored, if_pos hskip]
    rfl
  · rw [heq, hskip, if_neg Bool.false_ne_true]
    simp only [hu]
    rfl
  · rw [heq, hskip, if_neg Bool.false_ne_true]
    simp only [hu, hover, if_true]
    rfl
  · rw [heq, hskip, if_neg Bool.false_ne_true]
    simp only [hu, hover]
    rcases distillSource_cases name sha256Hex c
        (countText (fetchedText p remote revision text) text) remote revision text with
      ⟨_, heq'⟩ | ⟨next, _, _, _, ⟨failure, heq'⟩ | ⟨runId, heq'⟩⟩ <;>
    · rw [heq']
      rfl

/-! ## What is reported -/

def Reported (sha256Hex : String → String) (all : List RemoteSource) (p : Progress A D) : Prop :=
  ∀ r ∈ all, (sourceIdentity name r.id ∈ p.outcome.distilledSourceIds ∨
    sourceIdentity name r.id ∈ p.outcome.unchangedSourceIds) →
      Certified sha256Hex p.history r.id r.revision

variable {all : List RemoteSource}

theorem Reported.of_eq (hp : Reported name sha256Hex all p) {q : Progress A D}
    (hhistory : q.history = p.history)
    (hdistilled : q.outcome.distilledSourceIds = p.outcome.distilledSourceIds)
    (hunchanged : q.outcome.unchangedSourceIds = p.outcome.unchangedSourceIds) :
    Reported name sha256Hex all q := by
  intro r hr
  rw [hhistory, hdistilled, hunchanged]
  exact hp r hr

theorem sourceIdentity_inj {a b : String} (h : sourceIdentity name a = sourceIdentity name b) :
    a = b := by
  unfold sourceIdentity at h
  rw [String.append_assoc, String.append_assoc] at h
  exact String.append_right_inj _ |>.mp (String.append_right_inj _ |>.mp h)

/-- **A report of the handled source** means that its stored entry is one the gate
    certifies at the discovered revision. -/
theorem handleSource_report (hsha : ∀ text, sha256Hex text ≠ "")
    (hfull : c.hint.targeted = false) (p : Progress A D) (remote : RemoteSource) (sid : String)
    (h : sid ∈ (handleSource name sha256Hex c p remote).1.outcome.distilledSourceIds ∨
      sid ∈ (handleSource name sha256Hex c p remote).1.outcome.unchangedSourceIds) :
    (sid ∈ p.outcome.distilledSourceIds ∨ sid ∈ p.outcome.unchangedSourceIds) ∨
      (sid = sourceIdentity name remote.id ∧ ∃ s,
        (handleSource name sha256Hex c p remote).1.state.sources.lookup remote.id = some s ∧
          s.available = true ∧ s.contentHash ≠ "" ∧ s.revision = remote.revision) := by
  have happ : ∀ l : List String, sid ∈ l ++ [sourceIdentity name remote.id] →
      sid ∈ l ∨ sid = sourceIdentity name remote.id := by
    intro l hl
    rcases List.mem_append.mp hl with hl | hl
    · exact Or.inl hl
    · exact Or.inr (List.mem_singleton.mp hl)
  rcases handleSource_cases name sha256Hex c p remote with ⟨previous, hstored, hskip, heq⟩ |
    ⟨hskip, ⟨reason, hu, heq⟩ | ⟨revision, text, hu, ⟨hover, heq⟩ | ⟨hover, heq⟩⟩⟩
  · rw [heq] at h ⊢
    rcases h with h | h
    · exact Or.inl (Or.inl h)
    · rcases happ _ h with h | h
      · exact Or.inl (Or.inr h)
      · unfold skips at hskip
        simp only [Option.any_some, Bool.and_eq_true, decide_eq_true_eq] at hskip
        obtain ⟨_, ⟨hav, hrev⟩, hne⟩ := hskip
        exact Or.inr ⟨h, _, Assoc.lookup_set_self _ _ _, hav, hne, hrev⟩
  · rw [heq] at h
    exact Or.inl h
  · rw [heq] at h
    exact Or.inl h
  · have hrev := usable_revision hfull hu
    rw [heq] at h ⊢
    rcases distillSource_cases name sha256Hex c
        (countText (fetchedText p remote revision text) text) remote revision text with
      ⟨hsame, heq'⟩ | ⟨next, hnext, hav, _, ⟨failure, heq'⟩ | ⟨runId, heq'⟩⟩
    · rw [heq'] at h ⊢
      rcases h with h | h
      · exact Or.inl (Or.inl h)
      · rcases happ _ h with h | h
        · exact Or.inl (Or.inr h)
        · refine Or.inr ⟨h, _, Assoc.lookup_set_self _ _ _, rfl, ?_, hrev⟩
          have hhash : (sourceState remote.id revision
              ((countText (fetchedText p remote revision text) text).state.sources.lookup
                remote.id) c.seenAt).contentHash = sha256Hex text := by
            change (Option.map _ _).getD "" = _
            rw [hsame]
            rfl
          rw [hhash]
          exact hsha text
    · rw [heq'] at h
      exact Or.inl h
    · rw [heq'] at h ⊢
      rcases h with h | h
      · rcases happ _ h with h | h
        · exact Or.inl (Or.inl h)
        · exact Or.inr ⟨h, _, Assoc.lookup_set_self _ _ _, hav, hsha text, hnext.trans hrev⟩
      · exact Or.inl (Or.inr h)

/-! ## The loop -/

/-- The sources that the loop marks failed without processing a text, as the
    entries stored before the cycle and the adapter's answers have it. -/
def marked (stored : List (String × SourceState)) : Nat → Nat → List RemoteSource →
    List RemoteSource
  | _, _, [] => []
  | i, bytes, remote :: rest =>
      if overtime c i then []
      else
        let previous := stored.lookup remote.id
        (if failsEarly c previous remote bytes then [remote] else []) ++
          (if (bytesAfter c previous remote bytes).2 then rest
            else marked stored (i + 1) (bytesAfter c previous remote bytes).1 rest)

theorem cutOff_gated (hp : Gated sha256Hex p) (remaining : List RemoteSource)
    (hdistinct : (remaining.map RemoteSource.id).Nodup)
    (hrisk : ∀ r ∈ remaining, atRisk (p.state.sources.lookup r.id) r = false) :
    Gated sha256Hex (cutOff name c p remaining) := by
  induction remaining generalizing p with
  | nil => exact hp
  | cons remote rest ih =>
      obtain ⟨hnew, hrest⟩ := List.nodup_cons.mp hdistinct
      refine ih (markFailed_gated name c hp remote .limit (hrisk remote List.mem_cons_self))
        hrest fun r hr => ?_
      have hne : r.id ≠ remote.id := fun heq => hnew (heq ▸ List.mem_map_of_mem hr)
      rw [markFailed_lookup name c p remote .limit hne]
      exact hrisk r (List.mem_cons_of_mem _ hr)

theorem cutOff_reported (hp : Reported name sha256Hex all p) (remaining : List RemoteSource) :
    Reported name sha256Hex all (cutOff name c p remaining) := by
  induction remaining generalizing p with
  | nil => exact hp
  | cons remote rest ih => exact ih (hp.of_eq name rfl rfl rfl)

theorem failedAll_sound (hp : Gated sha256Hex p) (hr : Reported name sha256Hex all p)
    (remaining : List RemoteSource) :
    Gated sha256Hex (remaining.foldl (fun p r => p.failed (sourceIdentity name r.id)) p) ∧
      Reported name sha256Hex all
        (remaining.foldl (fun p r => p.failed (sourceIdentity name r.id)) p) := by
  induction remaining generalizing p with
  | nil => exact ⟨hp, hr⟩
  | cons r remaining ih => exact ih (hp.of_eq rfl rfl rfl) (hr.of_eq name rfl rfl rfl)

/-- What the handling of a source adds to the history; the source is asked for if
    it is not skipped. -/
theorem handleSource_history (sha256Hex : String → String) (p : Progress A D)
    (remote : RemoteSource) :
    ∃ events, (handleSource name sha256Hex c p remote).1.history = p.history ++ events ∧
      (skips c.hint.targeted (p.state.sources.lookup remote.id) remote = false →
        .asked remote.id remote.revision ∈ events) := by
  rcases handleSource_cases name sha256Hex c p remote with ⟨previous, hstored, hskip, heq⟩ |
    ⟨_, ⟨reason, _, heq⟩ | ⟨revision, text, _, ⟨_, heq⟩ | ⟨_, heq⟩⟩⟩
  · rw [heq, hstored, hskip]
    exact ⟨[], (List.append_nil _).symm, nofun⟩
  · rw [heq]
    exact ⟨[.asked remote.id remote.revision], rfl, fun _ => List.mem_singleton_self _⟩
  · rw [heq]
    exact ⟨[.asked remote.id remote.revision, .fetched remote.id revision text],
      List.append_assoc _ _ _, fun _ => List.mem_cons_self⟩
  · rw [heq]
    rcases distillSource_cases name sha256Hex c
        (countText (fetchedText p remote revision text) text) remote revision text with
      ⟨_, heq'⟩ | ⟨next, _, _, _, ⟨failure, heq'⟩ | ⟨runId, heq'⟩⟩
    · rw [heq']
      exact ⟨[.asked remote.id remote.revision, .fetched remote.id revision text],
        List.append_assoc _ _ _, fun _ => List.mem_cons_self⟩
    · rw [heq']
      exact ⟨[.asked remote.id remote.revision, .fetched remote.id revision text],
        List.append_assoc _ _ _, fun _ => List.mem_cons_self⟩
    · rw [heq']
      refine ⟨[.asked remote.id remote.revision, .fetched remote.id revision text,
        .distilled remote.id revision text], ?_, fun _ => List.mem_cons_self⟩
      change ((p.history ++ [_]) ++ [_]) ++ [_] = _
      rw [List.append_assoc, List.append_assoc]
      rfl

/-- **The reports stay true**: the handled source is certified by its stored entry,
    the others as before. -/
theorem handleSource_reported (hsha : ∀ text, sha256Hex text ≠ "")
    (hfull : c.hint.targeted = false) (hdistinct : (all.map RemoteSource.id).Nodup)
    (hr : Reported name sha256Hex all p) (hmem : remote ∈ all)
    (hone : Gated sha256Hex (handleSource name sha256Hex c p remote).1) :
    Reported name sha256Hex all (handleSource name sha256Hex c p remote).1 := by
  intro r hrmem hreport
  rcases handleSource_report name c hsha hfull p remote _ hreport with
    hbefore | ⟨hsid, s, hstored, hav, hne, hrev⟩
  · obtain ⟨events, hhistory, _⟩ := handleSource_history name c sha256Hex p remote
    refine (hr r hrmem hbefore).mono fun e he => ?_
    rw [hhistory]
    exact List.mem_append_left _ he
  · obtain rfl : r = remote :=
      List.inj_on_of_nodup_map hdistinct hrmem hmem (sourceIdentity_inj name hsid)
    have hcert := (hone.gate.entries _ _ hstored).certified hav hne
    rw [hrev] at hcert
    exact hcert

/-- **The loop keeps the gate and reports what is certified**, if no source that it
    marks failed is at risk. -/
theorem sourceLoop_sound (hsha : ∀ text, sha256Hex text ≠ "") (hfull : c.hint.targeted = false)
    (stored : List (String × SourceState)) (hdistinct : (all.map RemoteSource.id).Nodup)
    (sources : List RemoteSource) (hsub : sources.Sublist all) (i : Nat) (hp : Gated sha256Hex p)
    (hr : Reported name sha256Hex all p)
    (hagree : ∀ r ∈ sources, p.state.sources.lookup r.id = stored.lookup r.id)
    (hrisk : ∀ r ∈ marked c stored i p.cycleTextBytes sources,
      atRisk (stored.lookup r.id) r = false) :
    Gated sha256Hex (sourceLoop name sha256Hex c i sources p) ∧
      Reported name sha256Hex all (sourceLoop name sha256Hex c i sources p) := by
  induction sources generalizing i p with
  | nil => exact ⟨hp, hr⟩
  | cons remote rest ih =>
      obtain ⟨hnew, hrest⟩ := List.nodup_cons.mp (hdistinct.sublist (hsub.map RemoteSource.id))
      unfold sourceLoop
      unfold marked at hrisk
      by_cases hover : overtime c i = true
      · rw [if_pos hover]
        exact failedAll_sound name hp hr (remote :: rest)
      · rw [if_neg hover] at hrisk ⊢
        have hhead := hagree remote List.mem_cons_self
        have hone := handleSource_gated name c hp remote fun hfails => by
          rw [hhead] at hfails ⊢
          refine hrisk remote (List.mem_append_left _ ?_)
          rw [if_pos hfails]
          exact List.mem_singleton_self _
        have hreported := handleSource_reported name c hsha hfull hdistinct hr
          (hsub.subset List.mem_cons_self) hone
        have hbytes := handleSource_bytes name c sha256Hex p remote
        rw [hhead] at hbytes
        have hothers := handleSource_others sha256Hex name c hnew hagree
        have htail := fun r hr => hrisk r (List.mem_append_right _ hr)
        rw [← hbytes] at htail
        split
        · rename_i q heq
          rw [heq] at hone hreported hothers htail
          refine ⟨cutOff_gated name c hone rest hrest fun r hr => ?_,
            cutOff_reported name c hreported rest⟩
          rw [hothers r hr]
          exact htail r hr
        · rename_i q heq
          rw [heq] at hone hreported hothers htail
          exact ih ((List.sublist_cons_self _ _).trans hsub) (i + 1) hone hreported hothers htail

end Gate

end Engine
