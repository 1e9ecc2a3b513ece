import Daftari.Integrations.EngineProofs
import Daftari.Lib.TextProofs
import Mathlib.Tactic.Linarith

/-! # The integration queue — one file, read and rewritten around the workers

    `integrations/queue.ts`: an event waits in `pending` until a worker has succeeded on a batch
    with it, or has failed on too many, and is then kept among the processed events for the replay
    horizon.  Both lists are one file, which every operation reads afresh and writes as a whole.

    * `mergeHints_covers`: **the hint of a batch is about every source that one of its items is
      about**;
    * `settle_spec`: **everything a finished batch does to the file**. -/

namespace IntegrationQueue

open Engine (RefreshHint)

/-! ## The file -/

def replayHorizonMs : Int := 30 * 24 * 60 * 60 * 1000

def maxProcessedEvents : Nat := 20000

def maxDeliveryAttempts : Nat := 5

inductive ProviderName where
  | google
  | notion
  | m365
deriving DecidableEq

def ProviderName.text : ProviderName → String
  | .google => "google"
  | .notion => "notion"
  | .m365 => "m365"

/-- `IntegrationQueueInput`. -/
structure Input where
  provider : ProviderName
  eventId : String
  hint : RefreshHint

/-- `IntegrationQueueItem`; times are in milliseconds. -/
structure Item extends Input where
  enqueuedAt : Int
  attempts : Nat

def itemKey (provider : ProviderName) (eventId : String) : String :=
  provider.text ++ ":" ++ eventId

def Input.key (i : Input) : String := itemKey i.provider i.eventId

structure ProcessedEvent where
  key : String
  processedAt : Int
deriving DecidableEq

structure QueueState where
  pending : List Item
  processedEvents : List ProcessedEvent

def emptyQueue : QueueState := ⟨[], []⟩

/-- The queue file: none yet, the present version, or version 1. -/
inductive QueueFile where
  | absent
  | current (state : QueueState)
  | legacy (pending : List Item) (processedEventIds : List String)

def QueueState.pendingKeys (st : QueueState) : List String :=
  st.pending.map fun item => item.key

def QueueFile.pendingKeys : QueueFile → List String
  | .absent => []
  | .current st => st.pendingKeys
  | .legacy pending _ => pending.map fun item => item.key

def QueueFile.pending : QueueFile → List Item
  | .absent => []
  | .current st => st.pending
  | .legacy pending _ => pending

def QueueFile.processedKeys : QueueFile → List String
  | .absent => []
  | .current st => st.processedEvents.map ProcessedEvent.key
  | .legacy _ ids => ids

def inHorizon (now : Int) (event : ProcessedEvent) : Bool :=
  decide (now - replayHorizonMs ≤ event.processedAt)

def pruneProcessedEvents (st : QueueState) (now : Int) : QueueState :=
  let retained := st.processedEvents.filter (inHorizon now)
  { st with
    processedEvents :=
      if maxProcessedEvents < retained.length then
        retained.drop (retained.length - maxProcessedEvents)
      else retained }

/-- `readQueue`, of a well-formed file. -/
def readQueue (now : Int) : QueueFile → QueueState
  | .absent => emptyQueue
  | .current st => pruneProcessedEvents st now
  | .legacy pending ids => ⟨pending, ids.map fun id => ⟨id, now⟩⟩

/-! ## Batches -/

def lifecycleActionPriority (action : String) : Nat :=
  if action = "reauthorize" then 2 else if action = "recreate" then 1 else 0

def lifecycleActions (items : List Item) : List String :=
  items.flatMap fun item =>
    match item.hint with
    | .lifecycle action => [action]
    | _ => []

def stronger (strongest candidate : String) : String :=
  if lifecycleActionPriority strongest < lifecycleActionPriority candidate then candidate
  else strongest

/-- Is this a `reconcile` hint? -/
def isReconcile : RefreshHint → Bool
  | .reconcile => true
  | _ => false

/-- The sources of a `sources` hint. -/
def hintSources : RefreshHint → List String
  | .sources ids _ => ids
  | _ => []

def hintRediscovers : RefreshHint → Bool
  | .sources _ rediscover => rediscover
  | _ => false

def mergeHints (items : List Item) : RefreshHint :=
  match lifecycleActions items with
  | action :: actions => .lifecycle (actions.foldl stronger action)
  | [] =>
      if items.any fun item => isReconcile item.hint then .reconcile
      else
        .sources
          ((items.flatMap fun item => hintSources item.hint).eraseDups.mergeSort
            fun a b => !Text.lt b a)
          (items.any fun item => hintRediscovers item.hint)

/-- `IntegrationQueueBatch`. -/
structure Batch where
  provider : ProviderName
  items : List Item
  hint : RefreshHint

def batchOf (items : List Item) (provider : ProviderName) : Batch where
  provider := provider
  items := items.filter fun item => item.provider = provider
  hint := mergeHints (items.filter fun item => item.provider = provider)

/-- `snapshotBatches`: one batch a provider, in the order they first appear. -/
def snapshotBatches (items : List Item) : List Batch :=
  (items.map fun item => item.provider).eraseDups.map (batchOf items)

def Batch.keys (b : Batch) : List String := b.items.map fun item => item.key

/-- **The hint of a batch covers its items**: it is about every source that one of
    their hints is about. -/
def Batch.Covers (b : Batch) : Prop :=
  ∀ item ∈ b.items, ∀ id, item.hint.inScope id = true → b.hint.inScope id = true

variable {items : List Item}

theorem mergeHints_covers {item : Item} (hitem : item ∈ items) {id : String}
    (hid : item.hint.inScope id = true) : (mergeHints items).inScope id = true := by
  unfold mergeHints
  cases hactions : lifecycleActions items with
  | cons action actions => rfl
  | nil =>
      show (if _ then _ else _ : RefreshHint).inScope id = true
      split
      · rfl
      · rename_i hany
        -- without a lifecycle or a reconcile hint, the item names its sources
        cases hhint : item.hint with
        | reconcile =>
            exact absurd (List.any_eq_true.mpr ⟨item, hitem, by rw [hhint]; rfl⟩) hany
        | lifecycle action =>
            have hmem : action ∈ lifecycleActions items :=
              List.mem_flatMap.mpr ⟨item, hitem, by rw [hhint]; exact List.mem_singleton_self _⟩
            rw [hactions] at hmem
            exact absurd hmem List.not_mem_nil
        | sources ids rediscover =>
            rw [hhint] at hid
            have hmem : id ∈ ids := of_decide_eq_true hid
            refine decide_eq_true ?_
            rw [List.mem_mergeSort, List.mem_eraseDups]
            exact List.mem_flatMap.mpr ⟨item, hitem, by rw [hhint]; exact hmem⟩

theorem snapshotBatches_cover (items : List Item) : ∀ b ∈ snapshotBatches items, b.Covers := by
  intro b hb item hitem id hid
  obtain ⟨provider, -, rfl⟩ := List.mem_map.mp hb
  exact mergeHints_covers hitem hid

/-! ## Operations -/

def validHint : RefreshHint → Bool
  | .reconcile => true
  | .lifecycle action => action = "reauthorize" || action = "recreate" || action = "reconcile"
  | .sources ids _ => ids.all fun id => id ≠ ""

/-- `enqueue`, up to its write: an error, or a duplicate, or the state to write.
    The clock is read for the pruning and for the new item. -/
def enqueue (input : Input) (now₁ now₂ : Int) (file : QueueFile) :
    Except String (Option QueueState) :=
  if input.eventId = "" ∨ validHint input.hint = false then
    .error "integration queue item is invalid"
  else
    let st := readQueue now₁ file
    if st.processedEvents.any (fun e => e.key = input.key)
        ∨ st.pending.any (fun item => item.key = input.key) then .ok none
    else
      .ok (some { st with
        pending := st.pending ++ [{ input with enqueuedAt := now₂, attempts := 0 }] })

/-- The items after a failed batch: its items have one more attempt. -/
def countAttempts (keys : List String) (items : List Item) : List Item :=
  items.map fun item =>
    if item.key ∈ keys then { item with attempts := item.attempts + 1 } else item

/-- The keys that have used up their attempts on a failed batch. -/
def exhaustedKeys (keys : List String) (items : List Item) : List String :=
  (((countAttempts keys items).filter fun item =>
    item.key ∈ keys ∧ maxDeliveryAttempts ≤ item.attempts).map fun item => item.key).eraseDups

def presentKeys (keys : List String) (items : List Item) : List String :=
  ((items.map fun item => item.key).filter fun key => key ∈ keys).eraseDups

/-- Move keys from the waiting to the processed ones. -/
def retire (gone : List String) (processedAt : Int) (st : QueueState) : QueueState where
  pending := st.pending.filter fun item => item.key ∉ gone
  processedEvents := st.processedEvents ++ gone.map fun key => ⟨key, processedAt⟩

/-- What `drain` makes of the fresh state once the worker of a batch has answered. -/
def afterBatch (keys : List String) (ok : Bool) (processedAt : Int) (fresh : QueueState) :
    QueueState :=
  if ok then retire (presentKeys keys fresh.pending) processedAt fresh
  else
    retire (exhaustedKeys keys fresh.pending) processedAt
      { fresh with pending := countAttempts keys fresh.pending }

/-- What `drain` writes then, pruned. -/
def settle (keys : List String) (ok : Bool) (now₁ processedAt now₂ : Int)
    (file : QueueFile) : QueueState :=
  pruneProcessedEvents (afterBatch keys ok processedAt (readQueue now₁ file)) now₂

/-! ## What the operations do -/

def QueueFile.Roomy (now : Int) : QueueFile → Prop
  | .current st => (st.processedEvents.filter (inHorizon now)).length ≤ maxProcessedEvents
  | _ => True

instance (now : Int) (file : QueueFile) : Decidable (file.Roomy now) :=
  match file with
  | .current _ => inferInstanceAs (Decidable (_ ≤ _))
  | .absent | .legacy _ _ => isTrue trivial

variable {st : QueueState}

theorem pruneProcessedEvents_of_roomy {now : Int} (h : (QueueFile.current st).Roomy now) :
    pruneProcessedEvents st now
      = { st with processedEvents := st.processedEvents.filter (inHorizon now) } := by
  exact congrArg (QueueState.mk st.pending) (if_neg (Nat.not_lt_of_le h))

variable {e : ProcessedEvent}

theorem mem_of_mem_prune {now : Int} (h : e ∈ (pruneProcessedEvents st now).processedEvents) :
    e ∈ st.processedEvents := by
  have h : e ∈ if _ then _ else _ := h
  split at h
  · exact (List.mem_filter.mp (List.mem_of_mem_drop h)).1
  · exact (List.mem_filter.mp h).1

theorem readQueue_pending (now : Int) (file : QueueFile) :
    (readQueue now file).pending = file.pending := by
  cases file with
  | absent => rfl
  | current st => rfl
  | legacy pending ids => rfl

theorem pendingKeys_eq (file : QueueFile) :
    file.pendingKeys = file.pending.map fun item => item.key := by
  cases file with
  | absent => rfl
  | current st => rfl
  | legacy pending ids => rfl

variable {file : QueueFile}

theorem key_mem_of_mem_readQueue {now : Int} (h : e ∈ (readQueue now file).processedEvents) :
    e.key ∈ file.processedKeys := by
  cases file with
  | absent => exact absurd h List.not_mem_nil
  | current st => exact List.mem_map.mpr ⟨e, mem_of_mem_prune h, rfl⟩
  | legacy pending ids =>
      obtain ⟨id, hid, rfl⟩ := List.mem_map.mp h
      exact hid

/-- **An event inside the horizon is read back**, as long as there is room. -/
theorem readQueue_keeps {now : Int} (hroom : (QueueFile.current st).Roomy now)
    (he : e ∈ st.processedEvents) (hnow : now ≤ e.processedAt + replayHorizonMs) :
    e ∈ (readQueue now (.current st)).processedEvents := by
  show e ∈ (pruneProcessedEvents st now).processedEvents
  rw [pruneProcessedEvents_of_roomy hroom]
  exact List.mem_filter.mpr ⟨he, decide_eq_true (by omega)⟩

variable (keys : List String)

theorem countAttempts_keys (items : List Item) :
    ((countAttempts keys items).map fun item => item.key) = items.map fun item => item.key := by
  unfold countAttempts
  rw [List.map_map]
  refine List.map_congr_left fun item _ => ?_
  show (if item.key ∈ keys then _ else item : Item).key = item.key
  split
  · rfl
  · rfl

/-- **Everything a finished batch does to the fresh state**: some keys of the batch
    leave the waiting ones, after a success or with their last attempt, and are put at
    the end of the processed ones; a failure counts one attempt for the batch. -/
structure Settled (keys : List String) (ok : Bool) (processedAt : Int)
    (fresh st : QueueState) (gone : List String) : Prop where
  pending : st.pendingKeys = fresh.pendingKeys.filter fun key => key ∉ gone
  events : st.processedEvents
    = fresh.processedEvents ++ gone.map fun key => ⟨key, processedAt⟩
  gone_mem : ∀ key ∈ gone, key ∈ keys ∧ key ∈ fresh.pendingKeys
  cause : ∀ key ∈ gone, ok = true
    ∨ ∃ item ∈ fresh.pending, item.key = key ∧ maxDeliveryAttempts ≤ item.attempts + 1
  attempts : ∀ item' ∈ st.pending, ∃ item ∈ fresh.pending, item.key = item'.key
    ∧ item'.attempts ≤ item.attempts + if ok = false ∧ item'.key ∈ keys then 1 else 0

theorem retire_pendingKeys (gone : List String) (processedAt : Int) (st : QueueState) :
    (retire gone processedAt st).pendingKeys = st.pendingKeys.filter fun key => key ∉ gone := by
  unfold retire QueueState.pendingKeys
  rw [List.filter_map]
  rfl

theorem settled_success (processedAt : Int) (fresh : QueueState) :
    Settled keys true processedAt fresh (afterBatch keys true processedAt fresh)
      (presentKeys keys fresh.pending) where
  pending := retire_pendingKeys _ _ _
  events := rfl
  gone_mem key hkey := by
    obtain ⟨hmem, hkeys⟩ := List.mem_filter.mp (List.mem_eraseDups.mp hkey)
    exact ⟨of_decide_eq_true hkeys, hmem⟩
  cause _ _ := Or.inl rfl
  attempts item' hitem' := ⟨item', (List.mem_filter.mp hitem').1, rfl, Nat.le_add_right _ _⟩

/-- An item of the counted list is one of the list, with one more attempt if it is of the batch. -/
theorem mem_countAttempts {keys : List String} {item' : Item}
    (h : item' ∈ countAttempts keys items) : ∃ item ∈ items, item.key = item'.key
      ∧ item'.attempts = item.attempts + if item'.key ∈ keys then 1 else 0 := by
  obtain ⟨item, hitem, rfl⟩ := List.mem_map.mp h
  refine ⟨item, hitem, ?_⟩
  by_cases hkey : item.key ∈ keys
  · rw [if_pos hkey]
    exact ⟨rfl, congrArg (item.attempts + ·) (if_pos hkey).symm⟩
  · rw [if_neg hkey, if_neg hkey]
    exact ⟨rfl, rfl⟩

theorem mem_exhaustedKeys {keys : List String} {key : String} (h : key ∈ exhaustedKeys keys items) :
    key ∈ keys ∧ ∃ item ∈ items, item.key = key ∧ maxDeliveryAttempts ≤ item.attempts + 1 := by
  obtain ⟨item', hitem', rfl⟩ := List.mem_map.mp (List.mem_eraseDups.mp h)
  obtain ⟨hmem, hcond⟩ := List.mem_filter.mp hitem'
  obtain ⟨hkeys, hmax⟩ := of_decide_eq_true hcond
  obtain ⟨item, hitem, hsame, hattempts⟩ := mem_countAttempts hmem
  rw [if_pos hkeys] at hattempts
  exact ⟨hkeys, item, hitem, hsame, by omega⟩

theorem settled_failure (processedAt : Int) (fresh : QueueState) :
    Settled keys false processedAt fresh (afterBatch keys false processedAt fresh)
      (exhaustedKeys keys fresh.pending) where
  pending := by
    have hkeys := countAttempts_keys keys fresh.pending
    refine (retire_pendingKeys _ _ _).trans ?_
    unfold QueueState.pendingKeys
    rw [hkeys]
  events := rfl
  gone_mem key hkey := by
    obtain ⟨hkeys, item, hitem, hsame, -⟩ := mem_exhaustedKeys hkey
    exact ⟨hkeys, List.mem_map.mpr ⟨item, hitem, hsame⟩⟩
  cause key hkey := Or.inr (mem_exhaustedKeys hkey).2
  attempts item' hitem' := by
    obtain ⟨item, hitem, hsame, hattempts⟩ := mem_countAttempts (List.mem_filter.mp hitem').1
    refine ⟨item, hitem, hsame, le_of_eq (hattempts.trans ?_)⟩
    simp

theorem settle_spec (ok : Bool) (processedAt : Int) (fresh : QueueState) :
    ∃ gone, Settled keys ok processedAt fresh (afterBatch keys ok processedAt fresh) gone := by
  cases ok with
  | true => exact ⟨_, settled_success keys processedAt fresh⟩
  | false => exact ⟨_, settled_failure keys processedAt fresh⟩

theorem enqueue_eq_some {input : Input} {now₁ now₂ : Int}
    (h : enqueue input now₁ now₂ file = .ok (some st)) :
    (∀ e ∈ (readQueue now₁ file).processedEvents, e.key ≠ input.key) ∧ input.key ∉ file.pendingKeys
      ∧ st = { readQueue now₁ file with
        pending := file.pending ++ [{ input with enqueuedAt := now₂, attempts := 0 }] } := by
  unfold enqueue at h
  split at h
  · cases h
  dsimp only at h
  split at h
  · cases h
  · rename_i hnot
    rw [not_or, Bool.not_eq_true, Bool.not_eq_true, List.any_eq_false, List.any_eq_false] at hnot
    refine ⟨fun e he hkey => hnot.1 e he (decide_eq_true hkey), ?_, ?_⟩
    · rw [pendingKeys_eq, ← readQueue_pending now₁]
      intro hmem
      obtain ⟨item, hitem, hkey⟩ := List.mem_map.mp hmem
      exact hnot.2 item hitem (decide_eq_true hkey)
    · rw [← readQueue_pending now₁]
      exact (Option.some.inj (Except.ok.inj h)).symm

theorem enqueue_eq_none {input : Input} {now₁ now₂ : Int}
    (h : enqueue input now₁ now₂ file = .ok none) :
    (∃ e ∈ (readQueue now₁ file).processedEvents, e.key = input.key)
      ∨ input.key ∈ file.pendingKeys := by
  unfold enqueue at h
  split at h
  · cases h
  dsimp only at h
  split at h
  · rename_i hfound
    rw [List.any_eq_true, List.any_eq_true] at hfound
    rcases hfound with ⟨e, he, hkey⟩ | ⟨item, hitem, hkey⟩
    · exact Or.inl ⟨e, he, of_decide_eq_true hkey⟩
    · rw [readQueue_pending] at hitem
      right
      rw [pendingKeys_eq]
      exact List.mem_map.mpr ⟨item, hitem, of_decide_eq_true hkey⟩
  · cases h

end IntegrationQueue
