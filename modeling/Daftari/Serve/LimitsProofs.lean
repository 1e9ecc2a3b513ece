import Daftari.Lib.MachineProofs
import Daftari.Lib.MeterProofs
import Daftari.Lib.TableProofs
import Mathlib.Data.Rat.Floor

/-! # Rate limits — buckets, the bounded registry, the penalty box

    `serve/limits.ts`, with exact numbers: instants are milliseconds.  A bucket is refilled
    when it is looked at.  The registry keeps one a key, drops those that have been idle
    when a new key comes, and the oldest beyond its size; the penalty box is checked before
    a request is authenticated and charged when that fails, and it drops full buckets.

    * `Metered`: a key's bucket, or none at all, has the level of the key's own meter;
    * `tryTake_metered`: **what a take makes of the bucket it makes of the meter**. -/

namespace Serve

/-! ## Buckets -/

structure Bucket where
  tokens : ℚ
  capacity : ℚ
  refillPerMinute : ℚ
  lastRefillMs : ℚ
deriving DecidableEq

def makeBucket (capacity refillPerMinute nowMs : ℚ) : Bucket :=
  ⟨capacity, capacity, refillPerMinute, nowMs⟩

def Bucket.refill (b : Bucket) (nowMs : ℚ) : Bucket :=
  { b with
    tokens := min b.capacity
      (b.tokens + max 0 (nowMs - b.lastRefillMs) / 60000 * b.refillPerMinute)
    lastRefillMs := nowMs }

/-- `secondsUntilOneToken`, by what is missing. -/
def secondsUntil (tokens refillPerMinute : ℚ) : ℤ :=
  max 1 ⌈max 0 (1 - tokens) * 60000 / refillPerMinute / 1000⌉

structure TakeResult where
  allowed : Bool
  retryAfterSeconds : ℤ
deriving DecidableEq

def Bucket.tryTake (b : Bucket) (nowMs : ℚ) : Bucket × TakeResult :=
  let refilled := b.refill nowMs
  if 1 ≤ refilled.tokens then ({ refilled with tokens := refilled.tokens - 1 }, ⟨true, 0⟩)
  else (refilled, ⟨false, secondsUntil refilled.tokens refilled.refillPerMinute⟩)

/-! ## The registry -/

structure Tracked where
  bucket : Bucket
  lastSeenMs : ℚ
deriving DecidableEq

/-- `BucketRegistry`; capacity and rate come from the configuration, which takes positive
    numbers only. -/
structure BucketRegistry where
  buckets : Table String Tracked
  capacity : ℚ
  refillPerMinute : ℚ
  maxEntries : ℕ
  idleTtlMs : ℚ
  one_le_capacity : 1 ≤ capacity
  refill_pos : 0 < refillPerMinute

/-- `while (buckets.size >= maxEntries)`: the oldest entries go. -/
def evictEntries {β : Type} (maxEntries : ℕ) : List (String × β) → List (String × β)
  | [] => []
  | e :: rest =>
      if maxEntries ≤ (e :: rest).length then evictEntries maxEntries rest else e :: rest

theorem evictEntries_sublist {β : Type} (maxEntries : ℕ) (entries : List (String × β)) :
    (evictEntries maxEntries entries).Sublist entries := by
  induction entries with
  | nil => exact List.Sublist.refl []
  | cons e rest ih =>
      show (if maxEntries ≤ (e :: rest).length then _ else e :: rest).Sublist _
      split
      · exact ih.trans (List.sublist_cons_self e rest)
      · exact List.Sublist.refl _

def evictOldest {β : Type} (maxEntries : ℕ) (t : Table String β) : Table String β :=
  ⟨evictEntries maxEntries t.entries,
    t.nodup.sublist ((evictEntries_sublist maxEntries t.entries).map Prod.fst)⟩

/-- Has an entry been idle for too long? -/
def BucketRegistry.idle (registry : BucketRegistry) (nowMs : ℚ) (e : Tracked) : Bool :=
  registry.idleTtlMs ≤ nowMs - e.lastSeenMs

/-- The sweep that makes room for a new key. -/
def BucketRegistry.swept (registry : BucketRegistry) (nowMs : ℚ) : Table String Tracked :=
  registry.buckets.filter fun _ e => !registry.idle nowMs e

def takeFromRegistry (registry : BucketRegistry) (key : String) (nowMs : ℚ) :
    BucketRegistry × TakeResult :=
  match registry.buckets.find key with
  | none =>
      let taken :=
        (makeBucket registry.capacity registry.refillPerMinute nowMs).tryTake nowMs
      ({ registry with
          buckets := (evictOldest registry.maxEntries (registry.swept nowMs)).set key
            ⟨taken.1, nowMs⟩ },
        taken.2)
  | some tracked =>
      let taken := tracked.bucket.tryTake nowMs
      ({ registry with
          buckets := (registry.buckets.erase key).set key ⟨taken.1, nowMs⟩ },
        taken.2)

/-! ## The penalty box -/

structure PenaltyBox where
  buckets : Table String Bucket
  failureBurst : ℚ
  failuresPerMinute : ℚ
  maxEntries : ℕ
  one_le_failureBurst : 1 ≤ failureBurst
  failures_pos : 0 < failuresPerMinute

/-- `penaltyAllows`: a bucket that is there is refilled in place. -/
def penaltyAllows (box : PenaltyBox) (key : String) (nowMs : ℚ) : PenaltyBox × TakeResult :=
  match box.buckets.find key with
  | none => (box, ⟨true, 0⟩)
  | some b =>
      let refilled := b.refill nowMs
      ({ box with buckets := box.buckets.set key refilled },
        if 1 ≤ refilled.tokens then ⟨true, 0⟩
        else ⟨false, secondsUntil refilled.tokens refilled.refillPerMinute⟩)

/-- The sweep of full buckets; those that stay are refilled in place. -/
def sweepFull (buckets : Table String Bucket) (nowMs : ℚ) : Table String Bucket :=
  (buckets.mapValues fun b => b.refill nowMs).filter fun _ b => b.tokens < b.capacity

/-- `b.tokens = Math.max(0, b.tokens - 1)` after a refill. -/
def Bucket.charge (b : Bucket) (nowMs : ℚ) : Bucket :=
  { b.refill nowMs with tokens := max 0 ((b.refill nowMs).tokens - 1) }

def chargePenalty (box : PenaltyBox) (key : String) (nowMs : ℚ) : PenaltyBox :=
  match box.buckets.find key with
  | none =>
      let room :=
        if box.maxEntries ≤ box.buckets.keys.length then
          evictOldest box.maxEntries (sweepFull box.buckets nowMs)
        else box.buckets
      { box with
        buckets := room.set key
          ((makeBucket box.failureBurst box.failuresPerMinute nowMs).charge nowMs) }
  | some b => { box with buckets := box.buckets.set key (b.charge nowMs) }

/-! ## Buckets and meters -/

def resultAt (refillPerMinute level : ℚ) : TakeResult :=
  if 1 ≤ level then ⟨true, 0⟩ else ⟨false, secondsUntil level refillPerMinute⟩

theorem allowed_resultAt (refillPerMinute level : ℚ) :
    (resultAt refillPerMinute level).allowed = decide (1 ≤ level) := by
  unfold resultAt
  by_cases h : 1 ≤ level
  · rw [if_pos h, decide_eq_true h]
  · rw [if_neg h, decide_eq_false h]

def perMs (refillPerMinute : ℚ) : ℚ := refillPerMinute / 60000

structure Metered (capacity refillPerMinute : ℚ) (m : Meter ℚ) (nowMs : ℚ) (b : Bucket) :
    Prop where
  capacity_eq : b.capacity = capacity
  rate_eq : b.refillPerMinute = refillPerMinute
  level : ∀ t, nowMs ≤ t → (b.refill t).tokens = m.level capacity (perMs refillPerMinute) t

theorem refill_tokens {b : Bucket} {t : ℚ} (h : b.lastRefillMs ≤ t) : (b.refill t).tokens =
      Meter.level b.capacity (perMs b.refillPerMinute) ⟨b.tokens, b.lastRefillMs⟩ t := by
  have hgain : max 0 (t - b.lastRefillMs) / 60000 * b.refillPerMinute =
      perMs b.refillPerMinute * (t - b.lastRefillMs) := by
    rw [max_eq_right (by linarith)]
    unfold perMs
    ring
  show min b.capacity (b.tokens + max 0 (t - b.lastRefillMs) / 60000 * b.refillPerMinute) = _
  rw [hgain]
  rfl

section Metered

variable {capacity refillPerMinute nowMs : ℚ} {m : Meter ℚ} {b : Bucket}

theorem perMs_nonneg (hrate : 0 < refillPerMinute) : 0 ≤ perMs refillPerMinute :=
  le_of_lt (div_pos hrate (by norm_num))

theorem metered_refill (hrate : 0 < refillPerMinute)
    (h : Metered capacity refillPerMinute m nowMs b) :
    Metered capacity refillPerMinute m nowMs (b.refill nowMs) where
  capacity_eq := h.capacity_eq
  rate_eq := h.rate_eq
  level := by
    intro t ht
    have hnow := h.level nowMs le_rfl
    rw [refill_tokens (show (b.refill nowMs).lastRefillMs ≤ t from ht),
      ← m.level_settle (perMs_nonneg hrate) ht, ← hnow]
    show Meter.level b.capacity (perMs b.refillPerMinute) _ t = _
    rw [h.capacity_eq, h.rate_eq]
    rfl

theorem metered_of_tokens {b' : Bucket} {taken : ℚ}
    (hcapacity : b'.capacity = capacity) (hrate : b'.refillPerMinute = refillPerMinute)
    (hlast : b'.lastRefillMs = nowMs)
    (htokens : b'.tokens = m.level capacity (perMs refillPerMinute) nowMs - taken) :
    Metered capacity refillPerMinute
      ⟨m.level capacity (perMs refillPerMinute) nowMs - taken, nowMs⟩ nowMs b' where
  capacity_eq := hcapacity
  rate_eq := hrate
  level := by
    intro t ht
    rw [refill_tokens (hlast.trans_le ht), hcapacity, hrate, htokens, hlast]

theorem metered_makeBucket (hrate : 0 < refillPerMinute)
    (hfull : capacity ≤ m.level capacity (perMs refillPerMinute) nowMs) :
    Metered capacity refillPerMinute m nowMs (makeBucket capacity refillPerMinute nowMs) where
  capacity_eq := rfl
  rate_eq := rfl
  level := by
    intro t ht
    have hgain : 0 ≤ perMs refillPerMinute * (t - nowMs) :=
      mul_nonneg (perMs_nonneg hrate) (by linarith)
    rw [refill_tokens (show (makeBucket capacity refillPerMinute nowMs).lastRefillMs ≤ t
      from ht), m.level_of_full (perMs_nonneg hrate) hfull ht]
    show min capacity (capacity + perMs refillPerMinute * (t - nowMs)) = capacity
    exact min_eq_left (by linarith)

/-- **What a take makes of the bucket it makes of the meter, and it is answered by the level.** -/
theorem tryTake_metered (hrate : 0 < refillPerMinute)
    (h : Metered capacity refillPerMinute m nowMs b) : (b.tryTake nowMs).2 =
        resultAt refillPerMinute (m.level capacity (perMs refillPerMinute) nowMs) ∧
      Metered capacity refillPerMinute
        (m.spend capacity (perMs refillPerMinute) ⟨nowMs, nowMs⟩) nowMs (b.tryTake nowMs).1 := by
  have hnow := h.level nowMs le_rfl
  by_cases hallow : 1 ≤ m.level capacity (perMs refillPerMinute) nowMs
  · have htaken : b.tryTake nowMs =
        ({ b.refill nowMs with tokens := (b.refill nowMs).tokens - 1 }, ⟨true, 0⟩) :=
      if_pos (hnow ▸ hallow)
    have hspend : m.spend capacity (perMs refillPerMinute) ⟨nowMs, nowMs⟩ =
        ⟨m.level capacity (perMs refillPerMinute) nowMs - 1, nowMs⟩ :=
      if_pos (decide_eq_true hallow)
    rw [htaken, hspend]
    refine ⟨(if_pos hallow).symm, metered_of_tokens h.capacity_eq h.rate_eq rfl ?_⟩
    show (b.refill nowMs).tokens - 1 = _
    rw [hnow]
  · have htaken : b.tryTake nowMs = (b.refill nowMs,
        ⟨false, secondsUntil (b.refill nowMs).tokens (b.refill nowMs).refillPerMinute⟩) :=
      if_neg (hnow ▸ hallow)
    have hspend : m.spend capacity (perMs refillPerMinute) ⟨nowMs, nowMs⟩ = m :=
      if_neg (by rw [Meter.allows, decide_eq_true_eq]; exact hallow)
    rw [htaken, hspend]
    refine ⟨?_, metered_refill hrate h⟩
    show (⟨false, secondsUntil (b.refill nowMs).tokens b.refillPerMinute⟩ : TakeResult) = _
    rw [hnow, h.rate_eq]
    exact (if_neg hallow).symm

/-- **A charge takes the token of the meter's use.** -/
theorem charge_metered {checkMs : ℚ} (hlater : checkMs ≤ nowMs) (hrate : 0 < refillPerMinute)
    (h : Metered capacity refillPerMinute m nowMs b)
    (hallow : m.allows capacity (perMs refillPerMinute) checkMs = true) :
    Metered capacity refillPerMinute
      (m.spend capacity (perMs refillPerMinute) ⟨checkMs, nowMs⟩) nowMs (b.charge nowMs) := by
  have hnow := h.level nowMs le_rfl
  have hone : 1 ≤ m.level capacity (perMs refillPerMinute) nowMs :=
    (of_decide_eq_true hallow).trans (m.level_mono (perMs_nonneg hrate) hlater)
  have hspend : m.spend capacity (perMs refillPerMinute) ⟨checkMs, nowMs⟩ =
      ⟨m.level capacity (perMs refillPerMinute) nowMs - 1, nowMs⟩ := if_pos hallow
  rw [hspend]
  refine metered_of_tokens h.capacity_eq h.rate_eq rfl ?_
  show max 0 ((b.refill nowMs).tokens - 1) = _
  rw [hnow]
  exact max_eq_right (by linarith)

end Metered

end Serve
