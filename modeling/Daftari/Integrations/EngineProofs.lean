import Daftari.Lib.AssocProofs
import Daftari.Lib.MachineProofs

/-! # The connector engine — one reconciliation cycle, and runs of them

    `integrations/engine.ts`: a cycle asks the adapter what there is, marks what is gone, and
    handles the sources one after another: skip, fetch, distil. The state is written out many times
    on the way, and a crash or a failed write leaves the last of these.

    * `handleSource`, `sourceLoop`, `reconcileProvider`: the code, with what the adapter, the
      distiller and the clock answer as a `Cycle`;
    * a ghost history of what was fetched and distilled;
    * `handleSource_cases`: **everything the handling of one source can do**. -/

namespace Engine

/-! ## The state -/

/-- `SOURCE_FAILURE_REASONS`. -/
inductive SourceFailureReason where
  | tooLarge
  | encrypted
  | malformed
  | empty
  | unsupportedType
  | timeout
  | malware
  | permissionRevoked
  | convertedUnavailable
  | fetch
  | distill
  | limit
deriving DecidableEq

/-- `lastFailure`. -/
structure SourceFailure where
  occurredAt : String
  reason : SourceFailureReason
deriving DecidableEq

structure SourceState where
  id : String
  revision : String
  contentHash : String
  available : Bool
  lastSeenAt : String
  lastDistillRunId : Option String := none
  lastFailure : Option SourceFailure := none
deriving DecidableEq

/-- `EnrollmentRecord`, as far as a cycle reads it. -/
structure EnrollmentRecord where
  ref : String
  targetCollection : String
deriving DecidableEq

/-- `ProviderState`.  `auth` is what only the token refresh touches, and `adapterData` is opaque. -/
structure ProviderState (A D : Type) where
  auth : A
  cursor : Option String
  enrollment : Option (List EnrollmentRecord)
  adapterData : Option D
  sources : List (String × SourceState)
deriving DecidableEq

structure RemoteSource where
  id : String
  revision : String
  enrolledRef : Option String := none
deriving DecidableEq

/-- `NormalizedRemoteSource`; the text is absent when it is none. -/
structure NormalizedRemoteSource where
  id : String
  revision : String
  text : Option String
deriving DecidableEq

inductive RefreshHint where
  | reconcile
  | sources (sourceIds : List String) (rediscover : Bool)
  | lifecycle (action : String)
deriving DecidableEq

/-! ## What a cycle is answered -/

/-- What becomes of the tokens: still valid, no longer obtainable, refused for good, or new. -/
inductive TokenRefresh (A : Type) where
  | current
  | failed
  | terminal (auth : A)
  | renewed (auth : A)

/-- `adapter.discover`: the sources, if it succeeds, and what it left in the
    state's cursor and adapter data. -/
structure Discovery (D : Type) where
  sources : Option (List RemoteSource)
  cursor : Option String
  adapterData : Option D

/-- `adapter.fetch`; an error may carry a reason of its own. -/
inductive FetchResult where
  | threw (reason : Option SourceFailureReason)
  | failed (reason : Option SourceFailureReason)
  | ok (source : NormalizedRemoteSource)

structure DistillationInput where
  providerSourceId : String
  revision : String
  text : String
  targetCollection : Option String

/-- `deps.distill`. -/
inductive DistillResult where
  | threw (reason : Option SourceFailureReason)
  | failed (reason : Option SourceFailureReason)
  | ok (runId : String)

/-- `UnavailableSourceEvent`; the reason is always that it is no longer discovered. -/
structure UnavailableSourceEvent where
  idempotencyKey : String
  providerSourceId : String
  revision : String
  occurredAt : String

/-- `ReconcileLimits`; the time limit may be infinite. -/
structure ReconcileLimits where
  maxSources : Nat := 10000
  maxSourceTextBytes : Nat := 8 * 1024 * 1024
  maxCycleTextBytes : Nat := 64 * 1024 * 1024
  maxCycleMs : Option Int := none

/-- One cycle: the hint it is called with and all it is answered.  A fetch is made at most once for
    a source, so its answer is a function of the source. `elapsedMs i` is the time that has passed
    when the `i`-th source's turn comes, and `lasting` is how many state writes succeed before one
    fails or the process ends, when not all do. -/
structure Cycle (A D : Type) where
  hint : RefreshHint
  refresh : A → TokenRefresh A
  discover : ProviderState A D → Discovery D
  fetch : RemoteSource → FetchResult
  distill : DistillationInput → DistillResult
  recordUnavailable : UnavailableSourceEvent → Bool
  seenAt : String
  elapsedMs : Nat → Int
  limits : ReconcileLimits
  lasting : Option Nat

structure ReconcileOutcome where
  distilledSourceIds : List String := []
  unchangedSourceIds : List String := []
  failedSourceIds : List String := []
  unavailableSourceIds : List String := []
deriving DecidableEq

/-- What happened to a source: a revision was asked for, a text was fetched as the text of a
    revision, or was distilled successfully.  Kept for what is said about a run only. -/
inductive Event where
  | asked (id revision : String)
  | fetched (id revision text : String)
  | distilled (id revision text : String)
deriving DecidableEq

/-- Where a cycle is: the state in memory, what happened so far, the states
    written out, and its counters. -/
structure Progress (A D : Type) where
  state : ProviderState A D
  history : List Event
  written : List (ProviderState A D × List Event)
  outcome : ReconcileOutcome := {}
  cycleTextBytes : Nat := 0

/-- What a cycle leaves: the states written out, what happened, and the result. -/
structure Report (A D : Type) where
  written : List (ProviderState A D × List Event)
  history : List Event
  outcome : Except String ReconcileOutcome

/-! ## One source -/

def sourceState (id revision : String) (previous : Option SourceState)
    (lastSeenAt : String) : SourceState where
  id := id
  revision := revision
  contentHash := (previous.map SourceState.contentHash).getD ""
  available := true
  lastSeenAt := lastSeenAt
  lastDistillRunId := previous.bind SourceState.lastDistillRunId

/-- `markSourceFailure`: the revision moves, the hash stays. -/
def markSourceFailure (previous : Option SourceState) (remoteId revision : String)
    (reason : SourceFailureReason) (seenAt : String) : SourceState :=
  { previous.getD
      { id := remoteId, revision := revision, contentHash := "", available := true,
        lastSeenAt := seenAt } with
    revision := revision
    lastSeenAt := seenAt
    lastFailure := some ⟨seenAt, reason⟩ }

def validRemoteSource (id revision : String) : Bool := id ≠ "" && revision ≠ ""

/-- A `sources` hint that does not ask to discover. -/
def RefreshHint.targeted : RefreshHint → Bool
  | .sources _ rediscover => !rediscover
  | _ => false

/-- `sourceScope`: is the source one the hint is about? -/
def RefreshHint.inScope (hint : RefreshHint) (id : String) : Bool :=
  match hint with
  | .sources ids _ => id ∈ ids
  | _ => true

def RefreshHint.inAvailabilityScope (hint : RefreshHint) (id : String) : Bool :=
  match hint with
  | .sources ids rediscover => rediscover && id ∈ ids
  | _ => true

/-- The skip guard: the stored entry is available, at this revision, and has a hash. -/
def skips (targeted : Bool) (previous : Option SourceState) (remote : RemoteSource) : Bool :=
  !targeted && previous.any fun s =>
    s.available && s.revision = remote.revision && s.contentHash ≠ ""

section Cycle

variable {A D : Type} (name : String) (sha256Hex : String → String) (c : Cycle A D)

def sourceIdentity (id : String) : String := name ++ ":" ++ id

/-- What the fetch of a source comes to: its revision and text, or the reason it
    is no use.  An answer for another source or another revision is none, unless
    the source was asked for by name. -/
def usable (remote : RemoteSource) : Except SourceFailureReason (String × String) :=
  match c.fetch remote with
  | .threw reason => .error (reason.getD .fetch)
  | .failed reason => .error (reason.getD .fetch)
  | .ok got =>
      match got.text with
      | none => .error .fetch
      | some text =>
          if ¬ validRemoteSource got.id got.revision then .error .fetch
          else if got.id ≠ remote.id ∨ (¬ c.hint.targeted ∧ got.revision ≠ remote.revision) then
            .error .fetch
          else .ok (got.revision, text)

/-- `owningEnrollment`, down to its collection. -/
def targetCollection (enrollment : Option (List EnrollmentRecord)) (remote : RemoteSource) :
    Option String :=
  (enrollment.bind fun records =>
    records.find? fun r => r.ref = remote.enrolledRef.getD remote.id).map
      EnrollmentRecord.targetCollection

namespace Progress

/-- `writeState`. -/
def write (p : Progress A D) : Progress A D :=
  { p with written := p.written ++ [(p.state, p.history)] }

/-- `providerState.sources[id] = ..`. -/
def store (p : Progress A D) (id : String) (s : SourceState) : Progress A D :=
  { p with state := { p.state with sources := Assoc.set p.state.sources id s } }

/-- Something happened. -/
def note (p : Progress A D) (e : Event) : Progress A D :=
  { p with history := p.history ++ [e] }

/-- `outcome.unchangedSourceIds.push(..)`. -/
def unchanged (p : Progress A D) (sid : String) : Progress A D :=
  { p with outcome := { p.outcome with
      unchangedSourceIds := p.outcome.unchangedSourceIds ++ [sid] } }

/-- `outcome.distilledSourceIds.push(..)`. -/
def distilled (p : Progress A D) (sid : String) : Progress A D :=
  { p with outcome := { p.outcome with
      distilledSourceIds := p.outcome.distilledSourceIds ++ [sid] } }

/-- `outcome.failedSourceIds.push(..)`. -/
def failed (p : Progress A D) (sid : String) : Progress A D :=
  { p with outcome := { p.outcome with
      failedSourceIds := p.outcome.failedSourceIds ++ [sid] } }

/-- `outcome.unavailableSourceIds.push(..)`. -/
def unavailable (p : Progress A D) (sid : String) : Progress A D :=
  { p with outcome := { p.outcome with
      unavailableSourceIds := p.outcome.unavailableSourceIds ++ [sid] } }

end Progress

def markFailed (p : Progress A D) (remote : RemoteSource) (reason : SourceFailureReason) :
    Progress A D :=
  (p.store remote.id (markSourceFailure (p.state.sources.lookup remote.id) remote.id
    remote.revision reason c.seenAt)).failed (sourceIdentity name remote.id)

/-- The end of the loop's body: a text within the limits. -/
def distillSource (p : Progress A D) (remote : RemoteSource) (revision text : String) :
    Progress A D :=
  let sid := sourceIdentity name remote.id
  let previous := p.state.sources.lookup remote.id
  let next := sourceState remote.id revision previous c.seenAt
  let contentHash := sha256Hex text
  if previous.map SourceState.contentHash = some contentHash then
    (p.store remote.id next).write.unchanged sid
  else
    -- pending until distillation succeeds: an empty hash is retried
    let pending := (p.store remote.id { next with contentHash := "" }).write
    match c.distill ⟨sid, revision, text, targetCollection p.state.enrollment remote⟩ with
    | .threw reason =>
        (pending.store remote.id { next with
          contentHash := ""
          lastFailure := some ⟨c.seenAt, reason.getD .distill⟩ }).failed sid
    | .failed reason =>
        (pending.store remote.id { next with
          contentHash := ""
          lastFailure := some ⟨c.seenAt, reason.getD .distill⟩ }).failed sid
    | .ok runId =>
        ((pending.note (.distilled remote.id revision text)).store remote.id { next with
          contentHash := contentHash
          lastDistillRunId := some runId }).write.distilled sid

/-- The loop's body, and whether the cycle's text limit ends the loop here. -/
def handleSource (p : Progress A D) (remote : RemoteSource) : Progress A D × Bool :=
  match (p.state.sources.lookup remote.id).filter fun s =>
      skips c.hint.targeted (some s) remote with
  | some previous =>
      (((p.store remote.id
        { previous with lastSeenAt := c.seenAt, lastFailure := none }).write).unchanged
        (sourceIdentity name remote.id), false)
  | none =>
      let p := p.note (.asked remote.id remote.revision)
      match usable c remote with
      | .error reason => (markFailed name c p remote reason, false)
      | .ok (revision, text) =>
          let p := p.note (.fetched remote.id revision text)
          let total := p.cycleTextBytes + text.utf8ByteSize
          if text.utf8ByteSize > c.limits.maxSourceTextBytes ∨
              total > c.limits.maxCycleTextBytes then
            (markFailed name c p remote .limit, total > c.limits.maxCycleTextBytes)
          else
            (distillSource name sha256Hex c { p with cycleTextBytes := total } remote revision
              text, false)

def cutOff (p : Progress A D) (remaining : List RemoteSource) : Progress A D :=
  remaining.foldl (fun p remote => markFailed name c p remote .limit) p

/-- Has the cycle run out of time when the `i`-th source's turn comes? -/
def overtime (i : Nat) : Bool := c.limits.maxCycleMs.any fun limit => c.elapsedMs i > limit

def sourceLoop : Nat → List RemoteSource → Progress A D → Progress A D
  | _, [], p => p
  | i, remote :: rest, p =>
      if overtime c i then
        -- out of time: reported failed, the stored entries are left alone
        (remote :: rest).foldl (fun p r => p.failed (sourceIdentity name r.id)) p
      else
        match handleSource name sha256Hex c p remote with
        | (p, true) => cutOff name c p rest
        | (p, false) => sourceLoop (i + 1) rest p

/-! ## The exits of the loop's body -/

def skipSource (p : Progress A D) (remote : RemoteSource) (previous : SourceState) : Progress A D :=
  (p.store remote.id { previous with lastSeenAt := c.seenAt, lastFailure := none }).write.unchanged
    (sourceIdentity name remote.id)

def askFor (p : Progress A D) (remote : RemoteSource) : Progress A D :=
  p.note (.asked remote.id remote.revision)

def fetchedText (p : Progress A D) (remote : RemoteSource) (revision text : String) :
    Progress A D :=
  (askFor p remote).note (.fetched remote.id revision text)

def countText (p : Progress A D) (text : String) : Progress A D :=
  { p with cycleTextBytes := p.cycleTextBytes + text.utf8ByteSize }

def overLimit (bytes : Nat) (text : String) : Bool :=
  text.utf8ByteSize > c.limits.maxSourceTextBytes ∨
    bytes + text.utf8ByteSize > c.limits.maxCycleTextBytes

def overCycle (bytes : Nat) (text : String) : Bool :=
  bytes + text.utf8ByteSize > c.limits.maxCycleTextBytes

/-- **Everything the handling of one source can do.** -/
theorem handleSource_cases (p : Progress A D) (remote : RemoteSource) :
    (∃ previous, p.state.sources.lookup remote.id = some previous ∧
        skips c.hint.targeted (some previous) remote = true ∧
        handleSource name sha256Hex c p remote = (skipSource name c p remote previous, false)) ∨
      (skips c.hint.targeted (p.state.sources.lookup remote.id) remote = false ∧
        ((∃ reason, usable c remote = .error reason ∧ handleSource name sha256Hex c p remote =
              (markFailed name c (askFor p remote) remote reason, false)) ∨
          ∃ revision text, usable c remote = .ok (revision, text) ∧
            ((overLimit c p.cycleTextBytes text = true ∧ handleSource name sha256Hex c p remote =
                  (markFailed name c (fetchedText p remote revision text) remote .limit,
                    overCycle c p.cycleTextBytes text)) ∨
              (overLimit c p.cycleTextBytes text = false ∧ handleSource name sha256Hex c p remote =
                  (distillSource name sha256Hex c
                    (countText (fetchedText p remote revision text) text)
                    remote revision text, false))))) := by
  unfold handleSource
  cases hf : (p.state.sources.lookup remote.id).filter fun s =>
      skips c.hint.targeted (some s) remote with
  | some previous =>
      obtain ⟨hlookup, hskip⟩ := Option.filter_eq_some_iff.mp hf
      exact Or.inl ⟨previous, hlookup, hskip, rfl⟩
  | none =>
      right
      refine ⟨?_, ?_⟩
      · cases hlookup : p.state.sources.lookup remote.id with
        | none =>
            unfold skips
            rw [Option.any_none, Bool.and_false]
        | some previous =>
            rw [hlookup, Option.filter_eq_none_iff] at hf
            simpa using hf previous rfl
      · cases hu : usable c remote with
        | error reason => exact Or.inl ⟨reason, rfl, rfl⟩
        | ok got =>
            obtain ⟨revision, text⟩ := got
            refine Or.inr ⟨revision, text, rfl, ?_⟩
            by_cases hover : overLimit c p.cycleTextBytes text = true
            · left
              refine ⟨hover, ?_⟩
              exact if_pos (of_decide_eq_true hover)
            · right
              rw [Bool.not_eq_true] at hover
              refine ⟨hover, ?_⟩
              exact if_neg (of_decide_eq_false hover)

/-- The three ends of a source whose text is within the limits: known, failed, distilled. -/
theorem distillSource_cases (p : Progress A D) (remote : RemoteSource)
    (revision text : String) :
    ((p.state.sources.lookup remote.id).map SourceState.contentHash = some (sha256Hex text) ∧
        distillSource name sha256Hex c p remote revision text =
          (p.store remote.id (sourceState remote.id revision
            (p.state.sources.lookup remote.id) c.seenAt)).write.unchanged
              (sourceIdentity name remote.id)) ∨
      ∃ next : SourceState, next.revision = revision ∧ next.available = true ∧
        next.contentHash = "" ∧
        ((∃ failure, distillSource name sha256Hex c p remote revision text =
            (((p.store remote.id next).write.store remote.id
              { next with lastFailure := some failure }).failed
                (sourceIdentity name remote.id))) ∨
          ∃ runId, distillSource name sha256Hex c p remote revision text =
            ((((p.store remote.id next).write.note (.distilled remote.id revision text)).store
              remote.id { next with
                contentHash := sha256Hex text
                lastDistillRunId := some runId }).write.distilled
                  (sourceIdentity name remote.id))) := by
  unfold distillSource
  by_cases hsame : (p.state.sources.lookup remote.id).map SourceState.contentHash =
      some (sha256Hex text)
  · left
    exact ⟨hsame, if_pos hsame⟩
  · right
    refine ⟨{ sourceState remote.id revision (p.state.sources.lookup remote.id) c.seenAt with
      contentHash := "" }, rfl, rfl, rfl, ?_⟩
    rw [if_neg hsame]
    cases c.distill ⟨sourceIdentity name remote.id, revision, text,
        targetCollection p.state.enrollment remote⟩ with
    | threw reason => exact Or.inl ⟨_, rfl⟩
    | failed reason => exact Or.inl ⟨_, rfl⟩
    | ok runId => exact Or.inr ⟨runId, rfl⟩

/-! ## The cycle -/

/-- The loop that marks what is no longer discovered, until an event cannot be recorded. -/
def sweepUnavailable (current : List String) :
    List (String × SourceState) → Progress A D → Progress A D × Bool
  | [], p => (p, true)
  | (id, previous) :: rest, p =>
      if ¬ c.hint.inAvailabilityScope id ∨ id ∈ current ∨ ¬ previous.available then
        sweepUnavailable current rest p
      else
        let sid := sourceIdentity name id
        if ¬ c.recordUnavailable ⟨sid ++ ":" ++ previous.revision, sid, previous.revision,
            c.seenAt⟩ then (p, false)
        else
          sweepUnavailable current rest
            (((p.store id
              { previous with available := false, lastSeenAt := c.seenAt }).write).unavailable sid)

/-- What a cycle takes for discovered: with a targeted hint the sources named in
    it, at the revisions that are stored. -/
def discovered (state : ProviderState A D) : Discovery D :=
  match c.hint with
  | .sources ids false =>
      { sources := some (ids.eraseDups.map fun id =>
          { id := id
            revision := ((state.sources.lookup id).map SourceState.revision).getD
              "targeted-refresh" })
        cursor := state.cursor
        adapterData := state.adapterData }
  | _ => c.discover state

def checkDiscovered (sources : List RemoteSource) : Option String :=
  if ¬ sources.all fun s => validRemoteSource s.id s.revision then
    some ("integration provider " ++ name ++ " returned an invalid source")
  else if sources.length > c.limits.maxSources then
    some ("integration provider " ++ name ++ " returned too many sources")
  else if ¬ (sources.map RemoteSource.id).Nodup then
    some ("integration provider " ++ name ++ " returned duplicate source IDs")
  else none

/-- The end of a cycle: the cursor moves if discovery ran and nothing failed. -/
def commit (discovery : Discovery D) (p : Progress A D) : Progress A D :=
  if ¬ c.hint.targeted ∧ p.outcome.failedSourceIds = [] then
    { p with state := { p.state with
        cursor := discovery.cursor
        adapterData := discovery.adapterData } }.write
  else p.write

/-- A cycle with valid tokens.  The discovered cursor is held back until `commit`. -/
def reconcileWith (state : ProviderState A D) (history : List Event)
    (written : List (ProviderState A D × List Event)) : Report A D :=
  let discovery := discovered c state
  match discovery.sources with
  | none => ⟨written, history, .error ("integration provider " ++ name ++ " discovery failed")⟩
  | some sources =>
      match checkDiscovered name c sources with
      | some message => ⟨written, history, .error message⟩
      | none =>
          let current := sources.filter fun s => c.hint.inScope s.id
          let swept := sweepUnavailable name c (current.map RemoteSource.id) state.sources
            { state := state, history := history, written := written }
          if ¬ swept.2 then ⟨swept.1.written, history, .error "unavailable source not recorded"⟩
          else
            let p := commit c discovery (sourceLoop name sha256Hex c 0 current swept.1)
            ⟨p.written, p.history, .ok p.outcome⟩

def reconcileProvider (state : ProviderState A D) (history : List Event) : Report A D :=
  let message := "integration provider " ++ name ++ " token refresh failed"
  match c.refresh state.auth with
  | .failed => ⟨[], history, .error message⟩
  | .terminal auth => ⟨[({ state with auth := auth }, history)], history, .error message⟩
  | .current => reconcileWith name sha256Hex c state history []
  | .renewed auth =>
      let state := { state with auth := auth }
      reconcileWith name sha256Hex c state history [(state, history)]

end Cycle

/-! ## Runs -/

/-- What is on disk, and what happened up to when it was written. -/
structure World (A D : Type) where
  state : ProviderState A D
  history : List Event

/-- The world after a cycle: the last of the writes that succeeded. -/
def World.next {A D : Type} (name : String) (sha256Hex : String → String) (w : World A D)
    (c : Cycle A D) : World A D :=
  let written := (reconcileProvider name sha256Hex c w.state w.history).written
  match (written.take (c.lasting.getD written.length)).getLast? with
  | none => w
  | some (state, history) => ⟨state, history⟩

/-- Cycles after one another.  The state lock admits one at a time. -/
def engine {A D : Type} (name : String) (sha256Hex : String → String) :
    Machine (World A D) (Cycle A D) where
  enabled _ _ := True
  next := World.next name sha256Hex

end Engine
