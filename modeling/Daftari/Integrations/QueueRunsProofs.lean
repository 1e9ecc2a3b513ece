import Daftari.Integrations.QueueProofs

/-! # The integration queue under interleaving — one home for every event

    Enqueues fall between the steps of the drains, and a drain settles a batch it
    has snapshotted long before.  Both read the file afresh and write it whole in
    one step, so an event that was accepted waits or has left for a reason.

    * `one_home`: **in every run with room inside the replay horizon an accepted
      event has exactly one home until the horizon has passed since it left**. -/

namespace IntegrationQueue

/-! ## The system -/

/-- How a write of the file ends: on disk, on disk with an error, or not at all. -/
inductive WriteResult where
  | landed
  | unsynced
  | lost
deriving DecidableEq

def written (file : QueueFile) (st : QueueState) : WriteResult → QueueFile
  | .lost => file
  | _ => .current st

/-- Why a key has left the waiting ones: a worker has succeeded on a batch with it,
    or this many batches with it have failed since it was enqueued. -/
inductive Cause where
  | delivered
  | failed (batches : Nat)

structure Left where
  key : String
  leftAt : Int
  cause : Cause

/-- The file and the drains, one for each queue object of the process, with the
    batches they have left; the largest reading of the clock so far; and the history:
    the keys accepted, the failed batches of each key and the keys that have left. -/
structure System where
  file : QueueFile
  drains : Nat → Option (List Batch)
  latest : Int
  accepted : List String
  failures : String → Nat
  left : List Left

inductive Action where
  /-- `enqueue`, with its two readings of the clock. -/
  | enqueue (input : Input) (now₁ now₂ : Int) (w : WriteResult)
  /-- A drain starts and takes its snapshot. -/
  | beginDrain (q : Nat) (now : Int)
  /-- The worker of a drain's next batch has answered; a throw is a failure. -/
  | settle (q : Nat) (ok : Bool) (now₁ processedAt now₂ : Int) (w : WriteResult)
  /-- A drain returns, at its end or early. -/
  | endDrain (q : Nat)

/-- An enqueue step: accepted is what was written without an error. -/
def System.enqueue (s : System) (input : Input) (now₁ now₂ : Int) (w : WriteResult) : System :=
  match IntegrationQueue.enqueue input now₁ now₂ s.file with
  | .error _ => s
  | .ok none => { s with latest := max s.latest now₁ }
  | .ok (some st) =>
      { s with
        file := written s.file st w
        latest := max s.latest (max now₁ now₂)
        accepted := if w = .landed then s.accepted ++ [input.key] else s.accepted
        failures := if w = .lost then s.failures else Function.update s.failures input.key 0 }

/-- The failed batches of each key after a batch. -/
def countFailures (failures : String → Nat) (keys : List String) (ok : Bool) (key : String) : Nat :=
  failures key + if ok = false ∧ key ∈ keys then 1 else 0

/-- Why a key has left with this batch. -/
def causeOf (failures : String → Nat) (keys : List String) (ok : Bool) (key : String) : Cause :=
  if ok = true ∧ key ∈ keys then .delivered else .failed (failures key)

theorem causeOf_failure (failures : String → Nat) (keys : List String) (key : String) :
    causeOf failures keys false key = .failed (failures key) :=
  if_neg fun h => Bool.false_ne_true h.1

/-- The keys that wait in one file and not in the other. -/
def departed (before after : QueueFile) : List String :=
  before.pendingKeys.filter fun key => key ∉ after.pendingKeys

/-- A settling step of a drain with these batches to come. -/
def System.settle (s : System) (q : Nat) (batch : Batch) (rest : List Batch) (ok : Bool)
    (now₁ processedAt now₂ : Int) (w : WriteResult) : System :=
  let file := written s.file
    (IntegrationQueue.settle batch.keys ok now₁ processedAt now₂ s.file) w
  let failures := countFailures s.failures batch.keys ok
  { s with
    file := file
    -- a failed write ends the drain
    drains := Function.update s.drains q (if w = .landed then some rest else none)
    latest := max s.latest (max now₁ (max processedAt now₂))
    failures := failures
    left := s.left ++ (departed s.file file).map fun key =>
      ⟨key, processedAt, causeOf failures batch.keys ok key⟩ }

/-- One step; `none` where the action does not fit the state. -/
def System.step? (s : System) : Action → Option System
  | .enqueue input now₁ now₂ w => some (s.enqueue input now₁ now₂ w)
  | .beginDrain q now =>
      match s.drains q with
      | none => some
          { s with
            drains := Function.update s.drains q
              (some (snapshotBatches (readQueue now s.file).pending))
            latest := max s.latest now }
      -- `draining`: the call is skipped
      | some _ => some s
  | .settle q ok now₁ processedAt now₂ w =>
      match s.drains q with
      | some (batch :: rest) => some (s.settle q batch rest ok now₁ processedAt now₂ w)
      | _ => none
  | .endDrain q => some { s with drains := Function.update s.drains q none }

def machine : Machine System Action where
  enabled s a := (s.step? a).isSome = true
  next s a := (s.step? a).getD s

instance (s : System) (a : Action) : Decidable (machine.enabled s a) :=
  inferInstanceAs (Decidable ((s.step? a).isSome = true))

/-- The failed batches that a file's items have behind them. -/
def attemptsIn (file : QueueFile) (key : String) : Nat :=
  ((Assoc.lastBy (fun item => item.key) file.pending key).map Item.attempts).getD 0

/-- A process that starts over a file. -/
def start (file : QueueFile) (now : Int) : System :=
  ⟨file, fun _ => none, now, [], attemptsIn file, []⟩

/-- **There is room inside the replay horizon** for every event, where a step prunes. -/
def Room (s : System) : Action → Prop
  | .enqueue _ now₁ _ _ => s.file.Roomy now₁
  | .settle q ok now₁ processedAt now₂ _ => ∀ batch ∈ (s.drains q).bind List.head?,
      s.file.Roomy now₁ ∧ (QueueFile.current
        (afterBatch batch.keys ok processedAt (readQueue now₁ s.file))).Roomy now₂
  | _ => True

instance (s : System) (a : Action) : Decidable (Room s a) :=
  match a with
  | .enqueue _ now₁ _ _ => inferInstanceAs (Decidable (s.file.Roomy now₁))
  | .settle q ok now₁ processedAt now₂ _ =>
      inferInstanceAs (Decidable (∀ batch ∈ (s.drains q).bind List.head?,
        s.file.Roomy now₁ ∧ (QueueFile.current
          (afterBatch batch.keys ok processedAt (readQueue now₁ s.file))).Roomy now₂))
  | .beginDrain .. | .endDrain _ => isTrue trivial

/-! ## The invariant -/

/-- Every key waits once, and no key that waits is processed. -/
structure WellKept (file : QueueFile) : Prop where
  nodup : file.pendingKeys.Nodup
  apart : ∀ key ∈ file.pendingKeys, key ∉ file.processedKeys

/-- The horizon has not passed since the key left. -/
def Left.Recent (l : Left) (latest : Int) : Prop := latest ≤ l.leftAt + replayHorizonMs

/-- **The invariant.** -/
structure Inv (s : System) : Prop where
  kept : WellKept s.file
  home : ∀ key ∈ s.accepted, key ∈ s.file.pendingKeys ∨ ∃ l ∈ s.left, l.key = key
  recorded : ∀ l ∈ s.left, l.Recent s.latest →
    ∃ st, s.file = .current st ∧ ⟨l.key, l.leftAt⟩ ∈ st.processedEvents
  attempts : ∀ item ∈ s.file.pending, item.attempts ≤ s.failures item.key
  cause : ∀ l ∈ s.left,
    l.cause = .delivered ∨ ∃ n, l.cause = .failed n ∧ maxDeliveryAttempts ≤ n
  covers : ∀ q batches, s.drains q = some batches → ∀ b ∈ batches, b.Covers

variable {file : QueueFile}

theorem Inv.start (hfile : WellKept file) (now : Int) : Inv (start file now) where
  kept := hfile
  home _ h := absurd h List.not_mem_nil
  recorded _ h := absurd h List.not_mem_nil
  attempts item hitem := by
    -- an item is the only one of its key
    have hfind : Assoc.lastBy (fun i : Item => i.key) file.pending item.key = some item := by
      have hnodup := hfile.nodup
      rw [pendingKeys_eq] at hnodup
      exact Assoc.lastBy_of_mem hnodup hitem
    show item.attempts ≤ attemptsIn file item.key
    unfold attemptsIn
    rw [hfind]
    exact le_refl _
  cause _ h := absurd h List.not_mem_nil
  covers _ _ h := nomatch h

/-! ## Single steps -/

variable {s : System}

theorem Inv.recorded_read (hs : Inv s) {l : Left} (hl : l ∈ s.left) {now : Int}
    (hroom : s.file.Roomy now) (hlatest : l.Recent s.latest) (hnow : l.Recent now) :
    ⟨l.key, l.leftAt⟩ ∈ (readQueue now s.file).processedEvents := by
  obtain ⟨st, hfile, hmem⟩ := hs.recorded l hl hlatest
  rw [hfile] at hroom ⊢
  exact readQueue_keeps hroom hmem hnow

theorem Left.Recent.mono {l : Left} {a b : Int} (h : l.Recent b) (hab : a ≤ b) : l.Recent a :=
  le_trans hab h

theorem Inv.tick (hs : Inv s) {latest : Int} (hle : s.latest ≤ latest) :
    Inv { s with latest := latest } where
  kept := hs.kept
  home := hs.home
  recorded l hl hrecent := hs.recorded l hl (hrecent.mono hle)
  attempts := hs.attempts
  cause := hs.cause
  covers := hs.covers

/-- **An enqueue that reaches the disk.** -/
theorem Inv.enqueue_stored (hs : Inv s) {input : Input} {now₁ now₂ : Int} {st : QueueState}
    (henqueue : IntegrationQueue.enqueue input now₁ now₂ s.file = .ok (some st))
    (hroom : s.file.Roomy now₁) (accepted : List String)
    (haccepted : ∀ key ∈ accepted, key ∈ s.accepted ∨ key = input.key) :
    Inv { s with
      file := .current st
      latest := max s.latest (max now₁ now₂)
      accepted := accepted
      failures := Function.update s.failures input.key 0 } := by
  obtain ⟨hfresh, hnew, rfl⟩ := enqueue_eq_some henqueue
  -- the keys that wait now
  have hkeys : ∀ key, key ∈ (QueueFile.current { readQueue now₁ s.file with
      pending := s.file.pending ++ [{ input with enqueuedAt := now₂, attempts := 0 }]
      }).pendingKeys ↔ key ∈ s.file.pendingKeys ∨ key = input.key := by
    intro key
    rw [pendingKeys_eq s.file]
    show key ∈ (s.file.pending ++ [_]).map (fun item : Item => item.key) ↔ _
    rw [List.map_append, List.mem_append]
    exact or_congr_right List.mem_singleton
  constructor
  · constructor
    · have hnodup := hs.kept.nodup
      rw [pendingKeys_eq] at hnodup hnew
      show ((s.file.pending ++ [_]).map fun item : Item => item.key).Nodup
      rw [List.map_append]
      refine hnodup.append (List.nodup_singleton _) fun key hkey hone => hnew ?_
      obtain rfl : key = input.key := List.mem_singleton.mp hone
      exact hkey
    · intro key hkey hprocessed
      obtain ⟨e, he, rfl⟩ := List.mem_map.mp hprocessed
      rcases (hkeys _).mp hkey with hold | hone
      · exact hs.kept.apart e.key hold (key_mem_of_mem_readQueue he)
      · exact hfresh e he hone
  · intro key hkey
    rcases haccepted key hkey with hold | hone
    · exact (hs.home key hold).imp_left fun hmem => (hkeys key).mpr (Or.inl hmem)
    · exact Or.inl ((hkeys key).mpr (Or.inr hone))
  · intro l hl hrecent
    refine ⟨_, rfl, hs.recorded_read hl hroom (hrecent.mono (le_max_left _ _)) ?_⟩
    exact hrecent.mono (le_trans (le_max_left _ _) (le_max_right _ _))
  · intro item hitem
    rcases List.mem_append.mp hitem with hold | hone
    · have hne : item.key ≠ input.key := by
        rintro heq
        rw [pendingKeys_eq] at hnew
        exact hnew (List.mem_map.mpr ⟨item, hold, heq⟩)
      show item.attempts ≤ Function.update s.failures input.key 0 item.key
      rw [Function.update_of_ne hne]
      exact hs.attempts item hold
    · rw [List.mem_singleton.mp hone]
      exact Nat.zero_le _
  · exact hs.cause
  · exact hs.covers

/-- **An enqueue step.** -/
theorem Inv.enqueue (hs : Inv s) (input : Input) (now₁ now₂ : Int) (w : WriteResult)
    (hroom : s.file.Roomy now₁) : Inv (s.enqueue input now₁ now₂ w) := by
  unfold System.enqueue
  split
  · exact hs
  · exact hs.tick (le_max_left _ _)
  · rename_i st henqueue
    cases w with
    | landed =>
        refine hs.enqueue_stored henqueue hroom (s.accepted ++ [input.key]) ?_
        intro key hkey
        exact (List.mem_append.mp hkey).imp_right List.mem_singleton.mp
    | unsynced => exact hs.enqueue_stored henqueue hroom s.accepted fun key hkey => Or.inl hkey
    | lost => exact hs.tick (le_max_left _ _)

theorem mem_departed {keys : List String} {ok : Bool} {processedAt : Int} {now₁ now₂ : Int}
    {gone : List String} (hgone : Settled keys ok processedAt (readQueue now₁ file)
      (afterBatch keys ok processedAt (readQueue now₁ file)) gone) {key : String} :
    key ∈ departed file (.current (IntegrationQueue.settle keys ok now₁ processedAt now₂ file))
      ↔ key ∈ gone := by
  have hafter : (QueueFile.current (IntegrationQueue.settle keys ok now₁ processedAt now₂
      file)).pendingKeys = file.pendingKeys.filter fun key => key ∉ gone := by
    rw [pendingKeys_eq file, ← readQueue_pending now₁]
    exact hgone.pending
  have hfresh : (readQueue now₁ file).pendingKeys = file.pendingKeys := by
    rw [pendingKeys_eq file, ← readQueue_pending now₁]
    rfl
  unfold departed
  rw [hafter, List.mem_filter]
  constructor
  · rintro ⟨hmem, hnot⟩
    by_contra hkey
    exact of_decide_eq_true hnot (List.mem_filter.mpr ⟨hmem, decide_eq_true hkey⟩)
  · intro hkey
    refine ⟨hfresh ▸ (hgone.gone_mem key hkey).2, decide_eq_true fun hmem => ?_⟩
    exact of_decide_eq_true (List.mem_filter.mp hmem).2 hkey

/-- **A batch that is settled on disk.** -/
theorem Inv.settle_stored (hs : Inv s) {batch : Batch} {ok : Bool}
    {now₁ processedAt now₂ : Int} (hroom₁ : s.file.Roomy now₁)
    (hroom₂ : (QueueFile.current
      (afterBatch batch.keys ok processedAt (readQueue now₁ s.file))).Roomy now₂)
    {drains : Nat → Option (List Batch)}
    (hdrains : ∀ q batches, drains q = some batches → ∀ b ∈ batches, b.Covers) :
    Inv { s with
      file := .current (IntegrationQueue.settle batch.keys ok now₁ processedAt now₂ s.file)
      drains := drains
      latest := max s.latest (max now₁ (max processedAt now₂))
      failures := countFailures s.failures batch.keys ok
      left := s.left ++ (departed s.file (.current
          (IntegrationQueue.settle batch.keys ok now₁ processedAt now₂ s.file))).map fun key =>
        ⟨key, processedAt,
          causeOf (countFailures s.failures batch.keys ok) batch.keys ok key⟩ } := by
  obtain ⟨gone, hgone⟩ := settle_spec batch.keys ok processedAt (readQueue now₁ s.file)
  have hfresh : (readQueue now₁ s.file).pendingKeys = s.file.pendingKeys := by
    rw [pendingKeys_eq s.file, ← readQueue_pending now₁]
    rfl
  have hpending : (QueueFile.current (IntegrationQueue.settle batch.keys ok now₁ processedAt
      now₂ s.file)).pendingKeys = s.file.pendingKeys.filter fun key => key ∉ gone :=
    hfresh ▸ hgone.pending
  have hevents : (IntegrationQueue.settle batch.keys ok now₁ processedAt now₂
      s.file).processedEvents = ((readQueue now₁ s.file).processedEvents
        ++ gone.map fun key => (⟨key, processedAt⟩ : ProcessedEvent)).filter (inHorizon now₂) := by
    unfold IntegrationQueue.settle
    rw [pruneProcessedEvents_of_roomy hroom₂, hgone.events]
  constructor
  · constructor
    · rw [hpending]
      exact hs.kept.nodup.filter _
    · intro key hkey hprocessed
      rw [hpending] at hkey
      obtain ⟨hmem, hnot⟩ := List.mem_filter.mp hkey
      obtain ⟨e, he, rfl⟩ := List.mem_map.mp hprocessed
      rw [hevents] at he
      rcases List.mem_append.mp (List.mem_filter.mp he).1 with hold | hnew
      · exact hs.kept.apart e.key hmem (key_mem_of_mem_readQueue hold)
      · obtain ⟨key, hgonekey, rfl⟩ := List.mem_map.mp hnew
        exact of_decide_eq_true hnot hgonekey
  · intro key hkey
    rcases hs.home key hkey with hold | ⟨l, hl, hlkey⟩
    · by_cases hkgone : key ∈ gone
      · refine Or.inr ⟨_, List.mem_append_right _ (List.mem_map.mpr
          ⟨key, (mem_departed hgone).mpr hkgone, rfl⟩), rfl⟩
      · exact Or.inl (hpending ▸ List.mem_filter.mpr ⟨hold, decide_eq_true hkgone⟩)
    · exact Or.inr ⟨l, List.mem_append_left _ hl, hlkey⟩
  · intro l hl hrecent
    have hnow₂ : l.Recent now₂ := hrecent.mono (le_trans (le_max_right _ _)
      (le_trans (le_max_right _ _) (le_max_right _ _)))
    refine ⟨_, rfl, ?_⟩
    rw [hevents]
    refine List.mem_filter.mpr ⟨?_, decide_eq_true ?_⟩
    · rcases List.mem_append.mp hl with hold | hnew
      · exact List.mem_append_left _ (hs.recorded_read hold hroom₁ (hrecent.mono (le_max_left _ _))
          (hrecent.mono (le_trans (le_max_left _ _) (le_max_right _ _))))
      · obtain ⟨key, hkey, rfl⟩ := List.mem_map.mp hnew
        exact List.mem_append_right _ (List.mem_map.mpr ⟨key, (mem_departed hgone).mp hkey, rfl⟩)
    · have hnow₂ : now₂ ≤ l.leftAt + replayHorizonMs := hnow₂
      show now₂ - replayHorizonMs ≤ l.leftAt
      omega
  · intro item' hitem'
    obtain ⟨item, hitem, hsame, hattempts⟩ := hgone.attempts item' hitem'
    rw [readQueue_pending] at hitem
    refine le_trans hattempts ?_
    show _ ≤ s.failures item'.key + _
    exact Nat.add_le_add_right (hsame ▸ hs.attempts item hitem) _
  · intro l hl
    rcases List.mem_append.mp hl with hold | hnew
    · exact hs.cause l hold
    · obtain ⟨key, hkey, rfl⟩ := List.mem_map.mp hnew
      have hkeygone := (mem_departed hgone).mp hkey
      obtain ⟨hbatch, -⟩ := hgone.gone_mem key hkeygone
      cases ok with
      | true => exact Or.inl (if_pos ⟨rfl, hbatch⟩)
      | false =>
          refine Or.inr ⟨_, causeOf_failure _ batch.keys key, ?_⟩
          -- the last attempt is the batch that has failed now
          rcases hgone.cause key hkeygone with hok | ⟨item, hitem, hsame, hmax⟩
          · exact absurd hok Bool.false_ne_true
          · rw [readQueue_pending] at hitem
            have hle := hs.attempts item hitem
            unfold countFailures
            rw [if_pos ⟨rfl, hbatch⟩, ← hsame]
            omega
  · exact hdrains

theorem Inv.settle_lost (hs : Inv s) (batch : Batch) (ok : Bool) {latest : Int}
    (hle : s.latest ≤ latest) {drains : Nat → Option (List Batch)}
    (hdrains : ∀ q batches, drains q = some batches → ∀ b ∈ batches, b.Covers) :
    Inv { s with
      drains := drains
      latest := latest
      failures := countFailures s.failures batch.keys ok } where
  kept := hs.kept
  home := hs.home
  recorded l hl hrecent := hs.recorded l hl (hrecent.mono hle)
  attempts item hitem := le_trans (hs.attempts item hitem) (Nat.le_add_right _ _)
  cause := hs.cause
  covers := hdrains

theorem departed_self (file : QueueFile) : departed file file = [] :=
  List.filter_eq_nil_iff.mpr fun _ hkey hnot => of_decide_eq_true hnot hkey

theorem Inv.covers_update (hs : Inv s) (q : Nat) (drain : Option (List Batch))
    (hdrain : ∀ batches, drain = some batches → ∀ b ∈ batches, b.Covers) :
    ∀ q' batches, Function.update s.drains q drain q' = some batches → ∀ b ∈ batches, b.Covers := by
  intro q' batches hbatches
  by_cases hq : q' = q
  · rw [hq, Function.update_self] at hbatches
    exact hdrain batches hbatches
  · rw [Function.update_of_ne hq] at hbatches
    exact hs.covers q' batches hbatches

/-- **A settling step.** -/
theorem Inv.settle (hs : Inv s) {q : Nat} {batch : Batch} {rest : List Batch} (ok : Bool)
    (now₁ processedAt now₂ : Int) (w : WriteResult) (hq : s.drains q = some (batch :: rest))
    (hroom₁ : s.file.Roomy now₁) (hroom₂ : (QueueFile.current
      (afterBatch batch.keys ok processedAt (readQueue now₁ s.file))).Roomy now₂) :
    Inv (s.settle q batch rest ok now₁ processedAt now₂ w) := by
  have hrest : ∀ b ∈ rest, b.Covers := fun b hb =>
    hs.covers q _ hq b (List.mem_cons_of_mem _ hb)
  unfold System.settle
  cases w with
  | landed =>
      refine hs.settle_stored hroom₁ hroom₂ (hs.covers_update q _ fun batches hbatches => ?_)
      obtain rfl := Option.some.inj hbatches
      exact hrest
  | unsynced =>
      exact hs.settle_stored hroom₁ hroom₂ (hs.covers_update q _ fun _ h => nomatch h)
  | lost =>
      have hlost := hs.settle_lost batch ok
        (le_max_left s.latest (max now₁ (max processedAt now₂)))
        (hs.covers_update q none fun _ h => nomatch h)
      simp only [written, departed_self, List.map_nil, List.append_nil, reduceCtorEq, if_false]
      exact hlost

/-- **One step keeps the invariant**, when there is room inside the horizon. -/
theorem Inv.step {a : Action} (hs : Inv s) (henabled : machine.enabled s a) (hroom : Room s a) :
    Inv (machine.next s a) := by
  obtain ⟨s', hstep⟩ := Option.isSome_iff_exists.mp henabled
  have hnext : machine.next s a = s' := by
    show (s.step? a).getD s = s'
    rw [hstep, Option.getD_some]
  rw [hnext]
  cases a with
  | enqueue input now₁ now₂ w =>
      obtain rfl := Option.some.inj hstep
      exact hs.enqueue input now₁ now₂ w hroom
  | beginDrain q now =>
      simp only [System.step?] at hstep
      split at hstep
      · obtain rfl := Option.some.inj hstep
        have hcovers := hs.covers_update q
          (some (snapshotBatches (readQueue now s.file).pending))
          fun batches hbatches => by
            obtain rfl := Option.some.inj hbatches
            exact snapshotBatches_cover _
        have htick := hs.tick (le_max_left s.latest now)
        exact ⟨htick.kept, htick.home, htick.recorded, htick.attempts, htick.cause, hcovers⟩
      · obtain rfl := Option.some.inj hstep
        exact hs
  | settle q ok now₁ processedAt now₂ w =>
      simp only [System.step?] at hstep
      split at hstep
      · rename_i batch rest hq
        obtain rfl := Option.some.inj hstep
        obtain ⟨hroom₁, hroom₂⟩ := hroom batch (by rw [hq]; rfl)
        exact hs.settle ok now₁ processedAt now₂ w hq hroom₁ hroom₂
      · cases hstep
  | endDrain q =>
      obtain rfl := Option.some.inj hstep
      exact ⟨hs.kept, hs.home, hs.recorded, hs.attempts, hs.cause,
        hs.covers_update q _ fun _ h => nomatch h⟩

/-! ## Whole runs -/

/-- **One home for every event.** -/
structure OneHome (s : System) : Prop where
  /-- No key waits twice, and none waits and is processed. -/
  kept : WellKept s.file
  /-- What was accepted waits, is processed, or has left longer ago than the horizon. -/
  home : ∀ key ∈ s.accepted, key ∈ s.file.pendingKeys ∨ key ∈ s.file.processedKeys
    ∨ ∃ l ∈ s.left, l.key = key ∧ l.leftAt + replayHorizonMs < s.latest
  /-- What was accepted is accepted again only after the horizon. -/
  once : ∀ input now₁ now₂ st, s.file.Roomy now₁ →
    enqueue input now₁ now₂ s.file = .ok (some st) → input.key ∈ s.accepted →
    ∃ l ∈ s.left, l.key = input.key ∧ l.leftAt + replayHorizonMs < max s.latest now₁
  /-- A key leaves after a success or after the last attempt. -/
  cause : ∀ l ∈ s.left,
    l.cause = .delivered ∨ ∃ n, l.cause = .failed n ∧ maxDeliveryAttempts ≤ n
  /-- The hint of every batch covers its items. -/
  covers : ∀ q batches, s.drains q = some batches → ∀ b ∈ batches, b.Covers

theorem Inv.oneHome (hs : Inv s) : OneHome s where
  kept := hs.kept
  home key hkey := by
    rcases hs.home key hkey with hwaits | ⟨l, hl, rfl⟩
    · exact Or.inl hwaits
    · by_cases hrecent : l.Recent s.latest
      · obtain ⟨st, hfile, hmem⟩ := hs.recorded l hl hrecent
        rw [hfile]
        exact Or.inr (Or.inl (List.mem_map.mpr ⟨_, hmem, rfl⟩))
      · exact Or.inr (Or.inr ⟨l, hl, rfl, Int.not_le.mp hrecent⟩)
  once input now₁ now₂ st hroom henqueue hkey := by
    obtain ⟨hfresh, hnew, -⟩ := enqueue_eq_some henqueue
    rcases hs.home _ hkey with hwaits | ⟨l, hl, hlkey⟩
    · exact absurd hwaits hnew
    · refine ⟨l, hl, hlkey, ?_⟩
      by_contra hnot
      have hrecent : l.Recent (max s.latest now₁) := Int.not_lt.mp hnot
      have hread := hs.recorded_read hl hroom (hrecent.mono (le_max_left _ _))
        (hrecent.mono (le_max_right _ _))
      exact hfresh _ hread hlkey
  cause := hs.cause
  covers := hs.covers

/-- **EXACTLY ONE HOME, UNTIL THE HORIZON.**  From any well-kept file, in every
    interleaving of enqueues and drain steps with room inside the replay horizon. -/
theorem one_home {file : QueueFile} (hfile : WellKept file) (now : Int) {s : System}
    (hreach : (machine.restrict Room).Reach (start file now) s) : OneHome s := by
  have hs : Inv s := Machine.reach_invariant (M := machine.restrict Room)
    (fun _ _ hs ha => hs.step ha.1 ha.2) (.start hfile now) hreach
  exact hs.oneHome

/-! ## Two runs -/

def changeOf (eventId : String) : Input := ⟨.notion, eventId, .sources [eventId] false⟩

/-- An event is accepted, its batch succeeds, and another one is accepted at `later`. -/
def deliveredThen (later : Int) : List Action :=
  [.enqueue (changeOf "a") 0 0 .landed, .beginDrain 0 1, .settle 0 true 2 2 2 .landed,
    .endDrain 0, .enqueue (changeOf "b") later later .landed]

theorem wellKept_absent : WellKept .absent := ⟨List.nodup_nil, fun _ h => absurd h List.not_mem_nil⟩

/-- Soon after its delivery the event is processed. -/
theorem one_home_delivered : ∃ s, s.accepted = ["notion:a", "notion:b"]
    ∧ s.file.processedKeys = ["notion:a"] ∧ OneHome s := by
  obtain ⟨s, hrun, hs⟩ := Machine.reach_of_runs_any (M := machine.restrict Room)
    (s := start .absent 0) (l := deliveredThen 3)
    (Q := fun s => decide (s.accepted = ["notion:a", "notion:b"])
      && decide (s.file.processedKeys = ["notion:a"])) (by decide +kernel)
  rw [Bool.and_eq_true, decide_eq_true_eq, decide_eq_true_eq] at hs
  exact ⟨s, hs.1, hs.2, one_home wellKept_absent 0 hrun⟩

/-- **AFTER THE HORIZON THE EVENT HAS NO HOME.**  It was accepted and delivered, and
    a later write of the file prunes it. -/
theorem homeless_after_horizon : ∃ s, (machine.restrict Room).Reach (start .absent 0) s
    ∧ "notion:a" ∈ s.accepted ∧ "notion:a" ∉ s.file.pendingKeys
    ∧ "notion:a" ∉ s.file.processedKeys := by
  obtain ⟨s, hrun, hs⟩ := Machine.reach_of_runs_any (M := machine.restrict Room)
    (s := start .absent 0) (l := deliveredThen (replayHorizonMs + 3))
    (Q := fun s => decide ("notion:a" ∈ s.accepted)
      && (decide ("notion:a" ∉ s.file.pendingKeys)
        && decide ("notion:a" ∉ s.file.processedKeys))) (by decide +kernel)
  rw [Bool.and_eq_true, Bool.and_eq_true, decide_eq_true_eq, decide_eq_true_eq,
    decide_eq_true_eq] at hs
  exact ⟨s, hrun, hs⟩

end IntegrationQueue
