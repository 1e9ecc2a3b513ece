import Daftari.Serve.LimitsProofs

/-! # Runs of the rate limits — every key is held to its own rate

    Any number of keys call the registry, or fail to authenticate at the penalty box, in any order,
    while the clock does not go back.  Each key is held to what a meter of its own grants: the
    registry as long as it drops full buckets only, the box always.

    * `limits_fair`: **each principal is held to its rate, and keys do not affect each other**. -/

namespace Serve

/-! ## What a key is promised -/

abbrev Answer := Use ℚ × TakeResult

/-- In a window no more is allowed than the capacity and what the window refills, and what
    is denied is allowed when it is repeated in time with nothing in between. -/
structure Fair (capacity refillPerMinute : ℚ) (answers : List Answer) : Prop where
  rate : ∀ s T, 0 ≤ T →
    ((answers.filter fun x => x.2.allowed ∧ s ≤ x.1.check ∧ x.1.check ≤ s + T).length : ℚ) ≤
      capacity + refillPerMinute * T / 60000
  retry : ∀ pre denied next post, answers = pre ++ denied :: next :: post →
    denied.2.allowed = false →
    denied.1.check + 1000 * (denied.2.retryAfterSeconds : ℚ) ≤ next.1.check →
      next.2.allowed = true

section Fair

variable {capacity refillPerMinute start : ℚ} {answers : List Answer}

/-- The meter of a key that has not been used. -/
def freshMeter (capacity start : ℚ) : Meter ℚ := ⟨capacity, start⟩

theorem level_freshMeter (hrate : 0 < refillPerMinute) {t : ℚ} (ht : start ≤ t) :
    (freshMeter capacity start).level capacity (perMs refillPerMinute) t = capacity := by
  have hgain : 0 ≤ perMs refillPerMinute * (t - start) :=
    mul_nonneg (perMs_nonneg hrate) (by linarith)
  show min capacity (capacity + perMs refillPerMinute * (t - start)) = capacity
  exact min_eq_left (by linarith)

theorem missing_le {level : ℚ} (hrate : 0 < refillPerMinute) :
    1 - level ≤ perMs refillPerMinute * (1000 * (secondsUntil level refillPerMinute : ℚ)) := by
  have hceil : max 0 (1 - level) * 60000 / refillPerMinute / 1000 ≤
      (secondsUntil level refillPerMinute : ℚ) := by
    refine (Int.le_ceil _).trans ?_
    exact_mod_cast le_max_right 1 ⌈max 0 (1 - level) * 60000 / refillPerMinute / 1000⌉
  have hmul : perMs refillPerMinute *
      (1000 * (max 0 (1 - level) * 60000 / refillPerMinute / 1000)) = max 0 (1 - level) := by
    unfold perMs
    field_simp
  calc 1 - level ≤ max 0 (1 - level) := le_max_right _ _
    _ = perMs refillPerMinute *
        (1000 * (max 0 (1 - level) * 60000 / refillPerMinute / 1000)) := hmul.symm
    _ ≤ perMs refillPerMinute * (1000 * (secondsUntil level refillPerMinute : ℚ)) :=
        mul_le_mul_of_nonneg_left (mul_le_mul_of_nonneg_left hceil (by norm_num))
          (perMs_nonneg hrate)

/-- **Answers by a meter are fair.** -/
theorem Fair.of_answered (hcap : 1 ≤ capacity) (hrate : 0 < refillPerMinute)
    (hanswered : Meter.Answered capacity (perMs refillPerMinute) (resultAt refillPerMinute)
      (freshMeter capacity start) answers)
    (hord : Meter.Ordered start (answers.map Prod.fst)) :
    Fair capacity refillPerMinute answers where
  rate := by
    intro s T hT
    have hpos : 0 ≤ (freshMeter capacity start).level capacity (perMs refillPerMinute) start := by
      rw [level_freshMeter hrate le_rfl]
      linarith
    have hwindow := hanswered.length_window_le (allowed_resultAt refillPerMinute)
      (perMs_nonneg hrate) hcap hord hpos (show s ≤ s + T by linarith)
    have hgain : perMs refillPerMinute * (s + T - s) = refillPerMinute * T / 60000 := by
      unfold perMs
      ring
    rw [hgain] at hwindow
    exact hwindow
  retry := by
    intro pre denied next post hsplit hdenied hlater
    have hretry : 1 ≤ denied.2.retryAfterSeconds ∨ denied.2.allowed = true := by
      obtain ⟨-, hfirst, -⟩ := Meter.answered_append.mp (hsplit ▸ hanswered)
      rw [hfirst]
      unfold resultAt
      split
      · exact Or.inr rfl
      · exact Or.inl (le_max_left _ _)
    have hone : 1 ≤ denied.2.retryAfterSeconds := by
      rcases hretry with h | h
      · exact h
      · rw [hdenied] at h
        cases h
    have hwaits : (1 : ℚ) ≤ denied.2.retryAfterSeconds := by exact_mod_cast hone
    refine Meter.Answered.granted_of_wait (allowed_resultAt refillPerMinute)
      (perMs_nonneg hrate) hcap (hsplit ▸ hanswered) hdenied ?_ (by linarith)
    intro level hlevel hlow
    have hseconds : denied.2.retryAfterSeconds = secondsUntil level refillPerMinute := by
      rw [hlevel]
      unfold resultAt
      rw [if_neg (by linarith)]
    refine (missing_le hrate).trans ?_
    rw [← hseconds]
    exact mul_le_mul_of_nonneg_left (by linarith) (perMs_nonneg hrate)

end Fair

/-! ## The registry -/

/-- A call of the registry. -/
structure Take where
  key : String
  nowMs : ℚ

structure RegistryWorld where
  registry : BucketRegistry
  clock : ℚ
  log : List (String × Answer)

/-- The other keys that have been seen within the idle time. -/
def BucketRegistry.others (registry : BucketRegistry) (key : String) (nowMs : ℚ) : List String :=
  ((registry.swept nowMs).erase key).keys

/-- Calls of the registry in any order; at most `maxEntries` keys are live, the one that
    calls included. -/
def registry : Machine RegistryWorld Take where
  enabled w a := w.clock ≤ a.nowMs ∧
    (w.registry.others a.key a.nowMs).length + 1 ≤ w.registry.maxEntries
  next w a :=
    let taken := takeFromRegistry w.registry a.key a.nowMs
    ⟨taken.1, a.nowMs, w.log ++ [(a.key, ⟨a.nowMs, a.nowMs⟩, taken.2)]⟩

instance (w : RegistryWorld) (a : Take) : Decidable (registry.enabled w a) :=
  inferInstanceAs (Decidable (_ ∧ _))

def DropsFull (w : RegistryWorld) (a : Take) : Prop :=
  w.registry.buckets.find a.key = none →
    ∀ e ∈ w.registry.buckets.entries, w.registry.idle a.nowMs e.2 = true →
      e.2.bucket.capacity ≤ (e.2.bucket.refill a.nowMs).tokens

def answersOf (log : List (String × Answer)) (key : String) : List Answer :=
  (log.filter fun x => x.1 = key).map Prod.snd

theorem answersOf_append (log : List (String × Answer)) (key k : String) (a : Answer) :
    answersOf (log ++ [(k, a)]) key =
      if k = key then answersOf log key ++ [a] else answersOf log key := by
  show ((log ++ [(k, a)]).filter _).map Prod.snd = _
  rw [List.filter_append, List.map_append]
  by_cases hk : k = key
  · rw [if_pos hk, List.filter_cons_of_pos (by simpa using hk), List.filter_nil]
    rfl
  · rw [if_neg hk, List.filter_cons_of_neg (by simpa using hk), List.filter_nil, List.map_nil,
      List.append_nil]
    rfl

/-- `makeBucketRegistry`, and nothing has been called. -/
def freshRegistry (registry : BucketRegistry) (start : ℚ) : RegistryWorld :=
  ⟨{ registry with buckets := .empty }, start, []⟩

def meterAfter (capacity refillPerMinute start : ℚ) (answers : List Answer) : Meter ℚ :=
  (freshMeter capacity start).after capacity (perMs refillPerMinute) (answers.map Prod.fst)

/-- A key stands at its meter: its bucket has the meter's level, and without one the meter
    is full. -/
def AtMeter (capacity refillPerMinute : ℚ) (m : Meter ℚ) (nowMs : ℚ) : Option Bucket → Prop
  | none => capacity ≤ m.level capacity (perMs refillPerMinute) nowMs
  | some b => Metered capacity refillPerMinute m nowMs b

theorem AtMeter.later {capacity refillPerMinute s t : ℚ} {m : Meter ℚ} {b : Option Bucket}
    (hrate : 0 < refillPerMinute) (h : AtMeter capacity refillPerMinute m s b) (hst : s ≤ t) :
    AtMeter capacity refillPerMinute m t b := by
  cases b with
  | none => exact le_trans h (m.level_mono (perMs_nonneg hrate) hst)
  | some b =>
      have hb : Metered capacity refillPerMinute m s b := h
      exact ⟨hb.capacity_eq, hb.rate_eq, fun u hu => hb.level u (hst.trans hu)⟩

/-- One key's part of a run: its answers are those of its meter, one after another. -/
structure KeyOk (capacity refillPerMinute start clock : ℚ) (answers : List Answer)
    (bucket : Option Bucket) : Prop where
  answered : Meter.Answered capacity (perMs refillPerMinute) (resultAt refillPerMinute)
    (freshMeter capacity start) answers
  ordered : Meter.Ordered start (answers.map Prod.fst)
  past : ∀ x ∈ answers, x.1.charge ≤ clock
  atMeter : AtMeter capacity refillPerMinute (meterAfter capacity refillPerMinute start answers)
    clock bucket

section Key

variable {capacity refillPerMinute start clock nowMs : ℚ} {answers : List Answer}
  {bucket : Option Bucket}

theorem KeyOk.fresh (hrate : 0 < refillPerMinute) :
    KeyOk capacity refillPerMinute start start [] none where
  answered := trivial
  ordered := trivial
  past := by
    intro x hx
    cases hx
  atMeter := (level_freshMeter hrate le_rfl).ge

theorem KeyOk.later {bucket' : Option Bucket}
    (h : KeyOk capacity refillPerMinute start clock answers bucket) (hclock : clock ≤ nowMs)
    (hbucket : AtMeter capacity refillPerMinute
      (meterAfter capacity refillPerMinute start answers) nowMs bucket') :
    KeyOk capacity refillPerMinute start nowMs answers bucket' where
  answered := h.answered
  ordered := h.ordered
  past := fun x hx => (h.past x hx).trans hclock
  atMeter := hbucket

theorem KeyOk.use {u : Use ℚ} {result : TakeResult} {bucket' : Bucket}
    (h : KeyOk capacity refillPerMinute start clock answers bucket)
    (hcheck : ∀ x ∈ answers, x.1.charge ≤ u.check) (hfrom : start ≤ u.check)
    (huse : u.check ≤ u.charge) (hclock : clock ≤ u.charge)
    (hresult : result = resultAt refillPerMinute
      ((meterAfter capacity refillPerMinute start answers).level capacity
        (perMs refillPerMinute) u.check))
    (hbucket : Metered capacity refillPerMinute
      ((meterAfter capacity refillPerMinute start answers).spend capacity
        (perMs refillPerMinute) u) u.charge bucket') :
    KeyOk capacity refillPerMinute start u.charge (answers ++ [(u, result)]) (some bucket') where
  answered := Meter.answered_append.mpr ⟨h.answered, hresult, trivial⟩
  ordered := by
    rw [List.map_append]
    refine h.ordered.append_singleton ?_ hfrom huse
    intro v hv
    obtain ⟨x, hx, rfl⟩ := List.mem_map.mp hv
    exact hcheck x hx
  past := by
    intro x hx
    rcases List.mem_append.mp hx with hx | hx
    · exact (h.past x hx).trans hclock
    · rw [List.mem_singleton.mp hx]
  atMeter := by
    show Metered capacity refillPerMinute (Meter.after capacity (perMs refillPerMinute) _
      ((answers ++ [(u, result)]).map Prod.fst)) u.charge bucket'
    rw [List.map_append]
    show Metered capacity refillPerMinute (Meter.after capacity (perMs refillPerMinute) _
      (answers.map Prod.fst ++ [u])) u.charge bucket'
    rw [Meter.after_append]
    exact hbucket

theorem KeyOk.fair (hcap : 1 ≤ capacity) (hrate : 0 < refillPerMinute)
    (h : KeyOk capacity refillPerMinute start clock answers bucket) :
    Fair capacity refillPerMinute answers := Fair.of_answered hcap hrate h.answered h.ordered

theorem KeyOk.unique {clock' : ℚ} {answers' : List Answer} {bucket' : Option Bucket}
    (h : KeyOk capacity refillPerMinute start clock answers bucket)
    (h' : KeyOk capacity refillPerMinute start clock' answers' bucket')
    (huses : answers.map Prod.fst = answers'.map Prod.fst) : answers = answers' :=
  h.answered.unique h'.answered huses

end Key

/-! ## One call of the registry -/

theorem evictOldest_of_room {β : Type} {maxEntries : ℕ} {t : Table String β}
    (hroom : t.keys.length + 1 ≤ maxEntries) : evictOldest maxEntries t = t := by
  have hentries : evictEntries maxEntries t.entries = t.entries := by
    cases hcases : t.entries with
    | nil => rfl
    | cons e rest =>
        refine if_neg ?_
        have hlen : t.keys.length = (e :: rest).length := by
          show (t.entries.map Prod.fst).length = _
          rw [List.length_map, hcases]
        omega
  unfold evictOldest
  congr

theorem length_keys_le {β : Type} {t : Table String β} {ks : List String}
    (h : ∀ k, t.find k ≠ none → k ∈ ks) : t.keys.length ≤ ks.length :=
  (t.nodup_keys.subperm fun k hk => h k (Table.mem_keys.mp hk)).length_le

theorem length_keys_set_le {β : Type} (t : Table String β) (key : String) (v : β) :
    (t.set key v).keys.length ≤ t.keys.length + 1 := by
  have hsub : (t.set key v).keys.length ≤ (key :: t.keys).length := by
    refine length_keys_le ?_
    intro k hk
    rw [Table.find_set] at hk
    by_cases hkey : k = key
    · exact hkey ▸ List.mem_cons_self
    · rw [if_neg hkey] at hk
      exact List.mem_cons_of_mem _ (Table.mem_keys.mpr hk)
  exact hsub

theorem length_keys_set_known {β : Type} {t : Table String β} {key : String} {v₀ : β} (v : β)
    (h : t.find key = some v₀) : (t.set key v).keys.length ≤ t.keys.length := by
  refine length_keys_le ?_
  intro k hk
  rw [Table.find_set] at hk
  by_cases hkey : k = key
  · rw [hkey]
    refine Table.mem_keys.mpr ?_
    rw [h]
    exact Option.some_ne_none v₀
  · rw [if_neg hkey] at hk
    exact Table.mem_keys.mpr hk

/-- The invariant of the registry: every key is at its meter, and there is room. -/
structure RegistryOk (config : BucketRegistry) (start : ℚ) (w : RegistryWorld) : Prop where
  capacity_eq : w.registry.capacity = config.capacity
  rate_eq : w.registry.refillPerMinute = config.refillPerMinute
  max_eq : w.registry.maxEntries = config.maxEntries
  start_le : start ≤ w.clock
  keys : ∀ k, KeyOk config.capacity config.refillPerMinute start w.clock (answersOf w.log k)
    ((w.registry.buckets.find k).map Tracked.bucket)
  bounded : w.registry.buckets.keys.length ≤ config.maxEntries

theorem RegistryOk.fresh (config : BucketRegistry) (start : ℚ) :
    RegistryOk config start (freshRegistry config start) where
  capacity_eq := rfl
  rate_eq := rfl
  max_eq := rfl
  start_le := le_rfl
  keys := fun _ => KeyOk.fresh config.refill_pos
  bounded := Nat.zero_le _

theorem KeyOk.take {capacity refillPerMinute start clock nowMs : ℚ} {answers : List Answer}
    {bucket : Option Bucket} {b : Bucket} (hrate : 0 < refillPerMinute)
    (h : KeyOk capacity refillPerMinute start clock answers bucket) (hstart : start ≤ clock)
    (hclock : clock ≤ nowMs) (hb : Metered capacity refillPerMinute
      (meterAfter capacity refillPerMinute start answers) nowMs b) :
    KeyOk capacity refillPerMinute start nowMs
      (answers ++ [(⟨nowMs, nowMs⟩, (b.tryTake nowMs).2)]) (some (b.tryTake nowMs).1) := by
  obtain ⟨hresult, hbucket⟩ := tryTake_metered hrate hb
  exact h.use (u := ⟨nowMs, nowMs⟩) (fun x hx => (h.past x hx).trans hclock)
    (hstart.trans hclock) le_rfl hclock hresult hbucket

section Step

variable {config : BucketRegistry} {start : ℚ} {w : RegistryWorld} {a : Take}
  (h : RegistryOk config start w) (ha : registry.enabled w a)
include h ha

theorem RegistryOk.step_new (hdrops : DropsFull w a)
    (hnone : w.registry.buckets.find a.key = none) :
    RegistryOk config start (registry.next w a) := by
  obtain ⟨hclock, hlive⟩ := ha
  have hothers : w.registry.others a.key a.nowMs = (w.registry.swept a.nowMs).keys := by
    show Assoc.keys (((w.registry.swept a.nowMs).entries).filter _) = _
    rw [List.filter_eq_self.mpr]
    · rfl
    · intro e he
      have hfind : (w.registry.swept a.nowMs).find e.1 = some e.2 := Table.mem_entries.mp he
      rw [decide_eq_true_eq, List.mem_singleton]
      intro hkey
      rw [hkey, BucketRegistry.swept, Table.find_filter, hnone] at hfind
      cases hfind
  have hroom : evictOldest w.registry.maxEntries (w.registry.swept a.nowMs) =
      w.registry.swept a.nowMs := evictOldest_of_room (hothers ▸ hlive)
  have hnext : registry.next w a = ⟨{ w.registry with
      buckets := (w.registry.swept a.nowMs).set a.key ⟨((makeBucket w.registry.capacity
        w.registry.refillPerMinute a.nowMs).tryTake a.nowMs).1, a.nowMs⟩ }, a.nowMs,
      w.log ++ [(a.key, ⟨a.nowMs, a.nowMs⟩, ((makeBucket w.registry.capacity
        w.registry.refillPerMinute a.nowMs).tryTake a.nowMs).2)]⟩ := by
    show RegistryWorld.mk (takeFromRegistry w.registry a.key a.nowMs).1 _ _ = _
    unfold takeFromRegistry
    rw [hnone]
    show RegistryWorld.mk { w.registry with buckets := (evictOldest _ _).set _ _ } _ _ = _
    rw [hroom]
  rw [hnext]
  refine ⟨h.capacity_eq, h.rate_eq, h.max_eq, h.start_le.trans hclock, ?_, ?_⟩
  · intro k
    have hkey := h.keys k
    show KeyOk _ _ start a.nowMs (answersOf (w.log ++ [_]) k)
      ((((w.registry.swept a.nowMs).set a.key _).find k).map Tracked.bucket)
    rw [answersOf_append, Table.find_set]
    by_cases hk : k = a.key
    · subst hk
      rw [if_pos rfl, if_pos rfl, h.capacity_eq, h.rate_eq]
      rw [hnone] at hkey
      have hfull : AtMeter config.capacity config.refillPerMinute _ a.nowMs none :=
        hkey.atMeter.later config.refill_pos hclock
      exact hkey.take config.refill_pos h.start_le hclock
        (metered_makeBucket config.refill_pos hfull)
    · rw [if_neg (Ne.symm hk), if_neg hk]
      refine hkey.later hclock ?_
      have hlater := hkey.atMeter.later config.refill_pos hclock
      show AtMeter _ _ _ a.nowMs (((w.registry.buckets.filter _).find k).map Tracked.bucket)
      rw [Table.find_filter]
      cases hfind : w.registry.buckets.find k with
      | none =>
          rw [hfind] at hlater
          exact hlater
      | some e =>
          rw [hfind] at hlater
          cases hidle : w.registry.idle a.nowMs e with
          | true =>
              -- the bucket is dropped, but it would be full: so is the meter
              rw [Option.filter_some_neg (by simp [hidle])]
              have hmetered : Metered config.capacity config.refillPerMinute _ a.nowMs
                e.bucket := hlater
              have hfull := hdrops hnone (k, e) (Table.mem_entries.mpr hfind) hidle
              show config.capacity ≤ _
              rw [← hmetered.level a.nowMs le_rfl, ← hmetered.capacity_eq]
              exact hfull
          | false =>
              rw [Option.filter_some_pos (by simp [hidle])]
              exact hlater
  · rw [hothers] at hlive
    exact (length_keys_set_le _ _ _).trans (hlive.trans h.max_eq.le)

theorem RegistryOk.step_known {tracked : Tracked}
    (hsome : w.registry.buckets.find a.key = some tracked) :
    RegistryOk config start (registry.next w a) := by
  obtain ⟨hclock, -⟩ := ha
  have hnext : registry.next w a = ⟨{ w.registry with
      buckets := (w.registry.buckets.erase a.key).set a.key
        ⟨(tracked.bucket.tryTake a.nowMs).1, a.nowMs⟩ }, a.nowMs,
      w.log ++ [(a.key, ⟨a.nowMs, a.nowMs⟩, (tracked.bucket.tryTake a.nowMs).2)]⟩ := by
    show RegistryWorld.mk (takeFromRegistry w.registry a.key a.nowMs).1 _ _ = _
    unfold takeFromRegistry
    rw [hsome]
  have hfind : ∀ k, ((w.registry.buckets.erase a.key).set a.key
      ⟨(tracked.bucket.tryTake a.nowMs).1, a.nowMs⟩).find k =
      if k = a.key then some ⟨(tracked.bucket.tryTake a.nowMs).1, a.nowMs⟩
      else w.registry.buckets.find k := by
    intro k
    rw [Table.find_set]
    by_cases hk : k = a.key
    · rw [if_pos hk, if_pos hk]
    · rw [if_neg hk, if_neg hk, Table.find_erase_of_ne _ hk]
  rw [hnext]
  refine ⟨h.capacity_eq, h.rate_eq, h.max_eq, h.start_le.trans hclock, ?_, ?_⟩
  · intro k
    have hkey := h.keys k
    show KeyOk _ _ start a.nowMs (answersOf (w.log ++ [_]) k) (Option.map Tracked.bucket
      (((w.registry.buckets.erase a.key).set a.key _).find k))
    rw [answersOf_append, hfind]
    by_cases hk : k = a.key
    · subst hk
      rw [if_pos rfl, if_pos rfl]
      rw [hsome] at hkey
      have hmetered : Metered config.capacity config.refillPerMinute _ a.nowMs tracked.bucket :=
        hkey.atMeter.later config.refill_pos hclock
      exact hkey.take config.refill_pos h.start_le hclock hmetered
    · rw [if_neg (Ne.symm hk), if_neg hk]
      exact hkey.later hclock (hkey.atMeter.later config.refill_pos hclock)
  · refine le_trans (length_keys_le ?_) h.bounded
    intro k hk
    rw [hfind] at hk
    by_cases hkey : k = a.key
    · rw [hkey]
      refine Table.mem_keys.mpr ?_
      rw [hsome]
      exact Option.some_ne_none tracked
    · rw [if_neg hkey] at hk
      exact Table.mem_keys.mpr hk

/-- **A call that drops full buckets only keeps every key on its meter.** -/
theorem RegistryOk.step (hdrops : DropsFull w a) : RegistryOk config start (registry.next w a) := by
  cases hfind : w.registry.buckets.find a.key with
  | none => exact h.step_new ha hdrops hfind
  | some tracked => exact h.step_known ha hfind

end Step

theorem registry_ok {config : BucketRegistry} {start : ℚ} {w : RegistryWorld}
    (hreach : (registry.restrict DropsFull).Reach (freshRegistry config start) w) :
    RegistryOk config start w :=
  Machine.reach_invariant (fun _ _ hw ha => hw.step ha.1 ha.2) (RegistryOk.fresh config start)
    hreach

/-! ## The penalty box -/

/-- What is done with the box: a request is checked, and charged when it has been let
    through and has not authenticated. -/
inductive Attempt where
  | check (key : String) (nowMs : ℚ)
  | charge (key : String) (nowMs : ℚ)

/-- The box, the clock, the checks that are settled, and the keys whose last check is to be
    charged yet, with the instant of the check. -/
structure BoxWorld where
  box : PenaltyBox
  clock : ℚ
  settled : List (String × Answer)
  awaiting : Table String ℚ

def PenaltyBox.others (box : PenaltyBox) (key : String) (nowMs : ℚ) : List String :=
  ((sweepFull box.buckets nowMs).erase key).keys

/-- Checks and charges in any order of the keys, each check that lets a request through
    followed by its charge before the next check of the key; at most `maxEntries` keys are
    live when one is charged, that one included. -/
def box : Machine BoxWorld Attempt where
  enabled w
    | .check key nowMs => w.clock ≤ nowMs ∧ w.awaiting.find key = none
    | .charge key nowMs => w.clock ≤ nowMs ∧ w.awaiting.find key ≠ none ∧
        (w.box.others key nowMs).length + 1 ≤ w.box.maxEntries
  next w
    | .check key nowMs =>
        let checked := penaltyAllows w.box key nowMs
        if checked.2.allowed then ⟨checked.1, nowMs, w.settled, w.awaiting.set key nowMs⟩
        else ⟨checked.1, nowMs, w.settled ++ [(key, ⟨nowMs, nowMs⟩, checked.2)], w.awaiting⟩
    | .charge key nowMs =>
        match w.awaiting.find key with
        | none => w
        | some checkMs =>
            ⟨chargePenalty w.box key nowMs, nowMs,
              w.settled ++ [(key, ⟨checkMs, nowMs⟩, ⟨true, 0⟩)], w.awaiting.erase key⟩

/-- `makePenaltyBox`, and nothing has been checked. -/
def freshBox (box : PenaltyBox) (start : ℚ) : BoxWorld :=
  ⟨{ box with buckets := .empty }, start, [], .empty⟩

/-- The answers of one key: those that are settled, then the one that awaits its charge. -/
def BoxWorld.answers (w : BoxWorld) (key : String) : List Answer :=
  answersOf w.settled key ++
    (w.awaiting.find key).toList.map fun checkMs => (⟨checkMs, w.clock⟩, ⟨true, 0⟩)

/-- A check that awaits its charge came after what is settled, and was granted. -/
structure AwaitOk (capacity refillPerMinute start clock : ℚ) (answers : List Answer)
    (checkMs : ℚ) : Prop where
  start_le : start ≤ checkMs
  le_clock : checkMs ≤ clock
  after : ∀ x ∈ answers, x.1.charge ≤ checkMs
  allows : (meterAfter capacity refillPerMinute start answers).allows capacity
    (perMs refillPerMinute) checkMs = true

/-- The invariant of the box. -/
structure BoxOk (config : PenaltyBox) (start : ℚ) (w : BoxWorld) : Prop where
  capacity_eq : w.box.failureBurst = config.failureBurst
  rate_eq : w.box.failuresPerMinute = config.failuresPerMinute
  max_eq : w.box.maxEntries = config.maxEntries
  start_le : start ≤ w.clock
  keys : ∀ k, KeyOk config.failureBurst config.failuresPerMinute start w.clock
    (answersOf w.settled k) (w.box.buckets.find k)
  awaiting : ∀ k checkMs, w.awaiting.find k = some checkMs →
    AwaitOk config.failureBurst config.failuresPerMinute start w.clock
      (answersOf w.settled k) checkMs
  bounded : w.box.buckets.keys.length ≤ config.maxEntries

theorem BoxOk.fresh (config : PenaltyBox) (start : ℚ) :
    BoxOk config start (freshBox config start) where
  capacity_eq := rfl
  rate_eq := rfl
  max_eq := rfl
  start_le := le_rfl
  keys := fun _ => KeyOk.fresh config.failures_pos
  awaiting := by
    intro k checkMs h
    cases h
  bounded := Nat.zero_le _

theorem AwaitOk.later {capacity refillPerMinute start clock nowMs checkMs : ℚ}
    {answers : List Answer} (h : AwaitOk capacity refillPerMinute start clock answers checkMs)
    (hclock : clock ≤ nowMs) : AwaitOk capacity refillPerMinute start nowMs answers checkMs :=
  ⟨h.start_le, h.le_clock.trans hclock, h.after, h.allows⟩

theorem resultAt_of_allows {capacity refillPerMinute t : ℚ} {m : Meter ℚ}
    (h : m.allows capacity (perMs refillPerMinute) t = true) : (⟨true, 0⟩ : TakeResult) =
      resultAt refillPerMinute (m.level capacity (perMs refillPerMinute) t) :=
  (if_pos (of_decide_eq_true h)).symm

theorem penaltyAllows_ok {config : PenaltyBox} {start : ℚ} {w : BoxWorld} {key : String}
    {nowMs : ℚ} (h : BoxOk config start w) (hclock : w.clock ≤ nowMs) :
    (penaltyAllows w.box key nowMs).2 = resultAt config.failuresPerMinute
        ((meterAfter config.failureBurst config.failuresPerMinute start
          (answersOf w.settled key)).level config.failureBurst
            (perMs config.failuresPerMinute) nowMs) ∧
      (∀ k, AtMeter config.failureBurst config.failuresPerMinute
        (meterAfter config.failureBurst config.failuresPerMinute start
          (answersOf w.settled k)) nowMs ((penaltyAllows w.box key nowMs).1.buckets.find k)) ∧
      (penaltyAllows w.box key nowMs).1.buckets.keys.length ≤ config.maxEntries ∧
      ((penaltyAllows w.box key nowMs).2.allowed = false →
        ∃ b, (penaltyAllows w.box key nowMs).1.buckets.find key = some b) := by
  have hlater : ∀ k, AtMeter _ _ _ nowMs (w.box.buckets.find k) := fun k =>
    (h.keys k).atMeter.later config.failures_pos hclock
  have hown := hlater key
  unfold penaltyAllows
  cases hfind : w.box.buckets.find key with
  | none =>
      rw [hfind] at hown
      have hfull : config.failureBurst ≤ _ := hown
      refine ⟨(if_pos (config.one_le_failureBurst.trans hfull)).symm, hlater, h.bounded, ?_⟩
      intro hdenied
      cases hdenied
  | some b =>
      rw [hfind] at hown
      have hmetered : Metered config.failureBurst config.failuresPerMinute _ nowMs b := hown
      have hnow := hmetered.level nowMs le_rfl
      refine ⟨?_, ?_, ?_, fun _ => ⟨b.refill nowMs, Table.find_set_self _ _ _⟩⟩
      · show (if 1 ≤ (b.refill nowMs).tokens then (⟨true, 0⟩ : TakeResult)
          else ⟨false, secondsUntil (b.refill nowMs).tokens b.refillPerMinute⟩) = _
        rw [hnow, hmetered.rate_eq]
        rfl
      · intro k
        show AtMeter _ _ _ nowMs ((w.box.buckets.set key (b.refill nowMs)).find k)
        rw [Table.find_set]
        by_cases hk : k = key
        · subst hk
          rw [if_pos rfl]
          exact metered_refill config.failures_pos hmetered
        · rw [if_neg hk]
          exact hlater k
      · exact (length_keys_set_known _ hfind).trans h.bounded

theorem BoxOk.step_check {config : PenaltyBox} {start : ℚ} {w : BoxWorld} {key : String}
    {nowMs : ℚ} (h : BoxOk config start w) (ha : box.enabled w (.check key nowMs)) :
    BoxOk config start (box.next w (.check key nowMs)) := by
  obtain ⟨hclock, hnone⟩ := ha
  have hallows := @penaltyAllows_ok config start w key nowMs h hclock
  obtain ⟨hresult, hmeters, hsize, hdenied⟩ := hallows
  have hconfig : (penaltyAllows w.box key nowMs).1.failureBurst = w.box.failureBurst ∧
      (penaltyAllows w.box key nowMs).1.failuresPerMinute = w.box.failuresPerMinute ∧
      (penaltyAllows w.box key nowMs).1.maxEntries = w.box.maxEntries := by
    unfold penaltyAllows
    cases w.box.buckets.find key with
    | none => exact ⟨rfl, rfl, rfl⟩
    | some b => exact ⟨rfl, rfl, rfl⟩
  have hpast : ∀ x ∈ answersOf w.settled key, x.1.charge ≤ nowMs := fun x hx =>
    ((h.keys key).past x hx).trans hclock
  cases hallowed : (penaltyAllows w.box key nowMs).2.allowed with
  | true =>
      have hnext : box.next w (.check key nowMs) = ⟨(penaltyAllows w.box key nowMs).1, nowMs,
          w.settled, w.awaiting.set key nowMs⟩ := if_pos hallowed
      rw [hnext]
      refine ⟨hconfig.1.trans h.capacity_eq, hconfig.2.1.trans h.rate_eq,
        hconfig.2.2.trans h.max_eq, h.start_le.trans hclock,
        fun k => (h.keys k).later hclock (hmeters k), ?_, hsize⟩
      intro k checkMs hfind
      rw [Table.find_set] at hfind
      by_cases hk : k = key
      · subst hk
        rw [if_pos rfl] at hfind
        obtain rfl := Option.some.inj hfind
        refine ⟨h.start_le.trans hclock, le_rfl, hpast, ?_⟩
        rw [hresult, allowed_resultAt] at hallowed
        exact hallowed
      · rw [if_neg hk] at hfind
        exact (h.awaiting k checkMs hfind).later hclock
  | false =>
      have hnext : box.next w (.check key nowMs) = ⟨(penaltyAllows w.box key nowMs).1, nowMs,
          w.settled ++ [(key, ⟨nowMs, nowMs⟩, (penaltyAllows w.box key nowMs).2)],
          w.awaiting⟩ := if_neg (by rw [hallowed]; exact Bool.false_ne_true)
      rw [hnext]
      refine ⟨hconfig.1.trans h.capacity_eq, hconfig.2.1.trans h.rate_eq,
        hconfig.2.2.trans h.max_eq, h.start_le.trans hclock, ?_, ?_, hsize⟩
      · intro k
        show KeyOk _ _ start nowMs (answersOf (w.settled ++ [_]) k) _
        rw [answersOf_append]
        by_cases hk : k = key
        · subst hk
          rw [if_pos rfl]
          obtain ⟨b, hb⟩ := hdenied hallowed
          have hmeter := hmeters k
          rw [hb] at hmeter ⊢
          refine (h.keys k).use (u := ⟨nowMs, nowMs⟩) hpast (h.start_le.trans hclock) le_rfl
            hclock hresult ?_
          -- a denied check takes nothing
          have hsame : Meter.spend config.failureBurst (perMs config.failuresPerMinute)
              (meterAfter config.failureBurst config.failuresPerMinute start
                (answersOf w.settled k)) ⟨nowMs, nowMs⟩ =
              meterAfter config.failureBurst config.failuresPerMinute start
                (answersOf w.settled k) := by
            refine if_neg ?_
            rw [hresult, allowed_resultAt, decide_eq_false_iff_not] at hallowed
            show ¬ decide _ = true
            rw [decide_eq_true_eq]
            exact hallowed
          rw [hsame]
          exact hmeter
        · rw [if_neg (Ne.symm hk)]
          exact (h.keys k).later hclock (hmeters k)
      · intro k checkMs hfind
        show AwaitOk _ _ start nowMs (answersOf (w.settled ++ [_]) k) checkMs
        rw [answersOf_append, if_neg ?_]
        · exact (h.awaiting k checkMs hfind).later hclock
        · intro hk
          rw [← hk, hnone] at hfind
          cases hfind

/-- The room a charge finds: the buckets that stay are at their meters, and what was
    dropped was full. -/
theorem room_ok {config : PenaltyBox} {start : ℚ} {w : BoxWorld} {key : String} {nowMs : ℚ}
    (h : BoxOk config start w) (hclock : w.clock ≤ nowMs)
    (hlive : (w.box.others key nowMs).length + 1 ≤ w.box.maxEntries)
    (hnone : w.box.buckets.find key = none) :
    let room :=
      if w.box.maxEntries ≤ w.box.buckets.keys.length then
        evictOldest w.box.maxEntries (sweepFull w.box.buckets nowMs)
      else w.box.buckets
    (∀ k, AtMeter config.failureBurst config.failuresPerMinute
      (meterAfter config.failureBurst config.failuresPerMinute start
        (answersOf w.settled k)) nowMs (room.find k)) ∧
      room.keys.length + 1 ≤ config.maxEntries := by
  have hlater : ∀ k, AtMeter _ _ _ nowMs (w.box.buckets.find k) := fun k =>
    (h.keys k).atMeter.later config.failures_pos hclock
  intro room
  by_cases hsize : w.box.maxEntries ≤ w.box.buckets.keys.length
  · have hothers : w.box.others key nowMs = (sweepFull w.box.buckets nowMs).keys := by
      show Assoc.keys (((sweepFull w.box.buckets nowMs).entries).filter _) = _
      rw [List.filter_eq_self.mpr]
      · rfl
      · intro e he
        have hfind : (sweepFull w.box.buckets nowMs).find e.1 = some e.2 :=
          Table.mem_entries.mp he
        rw [decide_eq_true_eq, List.mem_singleton]
        intro hkey
        rw [hkey, sweepFull, Table.find_filter, Table.find_mapValues, hnone] at hfind
        cases hfind
    rw [hothers] at hlive
    have hroom : room = sweepFull w.box.buckets nowMs :=
      (if_pos hsize).trans (evictOldest_of_room hlive)
    rw [hroom]
    refine ⟨?_, h.max_eq ▸ hlive⟩
    intro k
    have hk := hlater k
    rw [sweepFull, Table.find_filter, Table.find_mapValues]
    cases hfind : w.box.buckets.find k with
    | none =>
        rw [hfind] at hk
        exact hk
    | some b =>
        rw [hfind] at hk
        have hmetered : Metered config.failureBurst config.failuresPerMinute _ nowMs b := hk
        rw [Option.map_some]
        by_cases hfull : (b.refill nowMs).tokens < (b.refill nowMs).capacity
        · rw [Option.filter_some_pos (by simpa using hfull)]
          exact metered_refill config.failures_pos hmetered
        · rw [Option.filter_some_neg (by simpa using hfull)]
          show config.failureBurst ≤ _
          rw [← hmetered.level nowMs le_rfl, ← hmetered.capacity_eq]
          exact le_of_not_gt hfull
  · have hroom : room = w.box.buckets := if_neg hsize
    rw [hroom]
    refine ⟨hlater, ?_⟩
    rw [← h.max_eq]
    omega

theorem BoxOk.step_charge {config : PenaltyBox} {start : ℚ} {w : BoxWorld} {key : String}
    {nowMs : ℚ} (h : BoxOk config start w) (ha : box.enabled w (.charge key nowMs)) :
    BoxOk config start (box.next w (.charge key nowMs)) := by
  obtain ⟨hclock, hsome, hlive⟩ := ha
  obtain ⟨checkMs, hcheck⟩ := Option.ne_none_iff_exists'.mp hsome
  have hawait := h.awaiting key checkMs hcheck
  have hlater : ∀ k, AtMeter _ _ _ nowMs (w.box.buckets.find k) := fun k =>
    (h.keys k).atMeter.later config.failures_pos hclock
  have hnext : box.next w (.charge key nowMs) = ⟨chargePenalty w.box key nowMs, nowMs,
      w.settled ++ [(key, ⟨checkMs, nowMs⟩, ⟨true, 0⟩)], w.awaiting.erase key⟩ := by
    show (match w.awaiting.find key with
      | none => w
      | some checkMs => _) = _
    rw [hcheck]
  -- either way the buckets of the other keys stay at their meters, and the key's own is
  -- one that was at its meter, less a token
  have hcharged : ∃ b room, (chargePenalty w.box key nowMs) =
        { w.box with buckets := Table.set room key (b.charge nowMs) } ∧
      Metered config.failureBurst config.failuresPerMinute
        (meterAfter config.failureBurst config.failuresPerMinute start
          (answersOf w.settled key)) nowMs b ∧
      (∀ k, AtMeter config.failureBurst config.failuresPerMinute
        (meterAfter config.failureBurst config.failuresPerMinute start
          (answersOf w.settled k)) nowMs (room.find k)) ∧
      (room.set key (b.charge nowMs)).keys.length ≤ config.maxEntries := by
    have hown := hlater key
    unfold chargePenalty
    cases hfind : w.box.buckets.find key with
    | none =>
        rw [hfind] at hown
        obtain ⟨hroom, hspace⟩ := room_ok h hclock hlive hfind
        refine ⟨makeBucket w.box.failureBurst w.box.failuresPerMinute nowMs, _, rfl, ?_, hroom, ?_⟩
        · rw [h.capacity_eq, h.rate_eq]
          exact metered_makeBucket config.failures_pos hown
        · exact (length_keys_set_le _ _ _).trans hspace
    | some b =>
        rw [hfind] at hown
        exact ⟨b, w.box.buckets, rfl, hown, hlater, (length_keys_set_known _ hfind).trans h.bounded⟩
  obtain ⟨b, room, hbox, hmetered, hroom, hsize⟩ := hcharged
  rw [hnext, hbox]
  refine ⟨h.capacity_eq, h.rate_eq, h.max_eq, h.start_le.trans hclock, ?_, ?_, hsize⟩
  · intro k
    show KeyOk _ _ start nowMs (answersOf (w.settled ++ [_]) k) ((room.set key _).find k)
    rw [answersOf_append, Table.find_set]
    by_cases hk : k = key
    · subst hk
      rw [if_pos rfl, if_pos rfl]
      exact (h.keys k).use (u := ⟨checkMs, nowMs⟩) hawait.after hawait.start_le
        (hawait.le_clock.trans hclock) hclock (resultAt_of_allows hawait.allows)
        (charge_metered (hawait.le_clock.trans hclock) config.failures_pos hmetered hawait.allows)
    · rw [if_neg (Ne.symm hk), if_neg hk]
      exact (h.keys k).later hclock (hroom k)
  · intro k checkMs' hfind
    have hfind' : (w.awaiting.erase key).find k = some checkMs' := hfind
    rw [Table.find_erase] at hfind'
    by_cases hk : k = key
    · rw [if_pos hk] at hfind'
      cases hfind'
    · rw [if_neg hk] at hfind'
      show AwaitOk _ _ start nowMs (answersOf (w.settled ++ [_]) k) checkMs'
      rw [answersOf_append, if_neg (Ne.symm hk)]
      exact (h.awaiting k checkMs' hfind').later hclock

/-- **A step of the box keeps every key on its meter.** -/
theorem BoxOk.step {config : PenaltyBox} {start : ℚ} {w : BoxWorld} {a : Attempt}
    (h : BoxOk config start w) (ha : box.enabled w a) : BoxOk config start (box.next w a) := by
  cases a with
  | check key nowMs => exact h.step_check ha
  | charge key nowMs => exact h.step_charge ha

theorem box_ok {config : PenaltyBox} {start : ℚ} {w : BoxWorld}
    (hreach : box.Reach (freshBox config start) w) : BoxOk config start w :=
  Machine.reach_invariant (fun _ _ hw ha => hw.step ha) (BoxOk.fresh config start) hreach

/-! ## Every principal is held to its rate -/

theorem BoxOk.fair {config : PenaltyBox} {start : ℚ} {w : BoxWorld} (h : BoxOk config start w)
    (key : String) : Fair config.failureBurst config.failuresPerMinute (w.answers key) := by
  have hkey := h.keys key
  unfold BoxWorld.answers
  cases hfind : w.awaiting.find key with
  | none =>
      rw [show (none : Option ℚ).toList.map (fun checkMs =>
        ((⟨checkMs, w.clock⟩, ⟨true, 0⟩) : Answer)) = [] from rfl, List.append_nil]
      exact hkey.fair config.one_le_failureBurst config.failures_pos
  | some checkMs =>
      have hawait := h.awaiting key checkMs hfind
      refine Fair.of_answered config.one_le_failureBurst config.failures_pos
        (Meter.answered_append.mpr ⟨hkey.answered, resultAt_of_allows hawait.allows, trivial⟩) ?_
      rw [List.map_append]
      refine hkey.ordered.append_singleton ?_ hawait.start_le hawait.le_clock
      intro v hv
      obtain ⟨x, hx, rfl⟩ := List.mem_map.mp hv
      exact hawait.after x hx

theorem BoxOk.unique {config : PenaltyBox} {start : ℚ} {w w' : BoxWorld}
    (h : BoxOk config start w) (h' : BoxOk config start w') {key : String}
    (huses : (answersOf w.settled key).map Prod.fst = (answersOf w'.settled key).map Prod.fst) :
    answersOf w.settled key = answersOf w'.settled key := (h.keys key).unique (h'.keys key) huses

/-- What is promised of a run of the registry, beside another run from the same start. -/
structure RegistryFair (config : BucketRegistry) (w w' : RegistryWorld) : Prop where
  held : ∀ key, Fair config.capacity config.refillPerMinute (answersOf w.log key)
  separate : ∀ key,
    (answersOf w.log key).map Prod.fst = (answersOf w'.log key).map Prod.fst →
      answersOf w.log key = answersOf w'.log key
  bounded : w.registry.buckets.keys.length ≤ config.maxEntries

/-- What is promised of a run of the penalty box, beside another run from the same start. -/
structure BoxFair (config : PenaltyBox) (w w' : BoxWorld) : Prop where
  held : ∀ key, Fair config.failureBurst config.failuresPerMinute (w.answers key)
  separate : ∀ key,
    (answersOf w.settled key).map Prod.fst = (answersOf w'.settled key).map Prod.fst →
      answersOf w.settled key = answersOf w'.settled key
  bounded : w.box.buckets.keys.length ≤ config.maxEntries

/-- **Each principal is held to its rate: in every run of the registry that drops full
    buckets only, and in every run of the penalty box, every key gets no more than its
    capacity and what refills, a retry in time is allowed, a key's answers depend on its
    own uses alone, and the map stays within its size.** -/
theorem limits_fair (config : BucketRegistry) (boxConfig : PenaltyBox) (start : ℚ)
    (w w' : RegistryWorld) (v v' : BoxWorld)
    (hw : (registry.restrict DropsFull).Reach (freshRegistry config start) w)
    (hw' : (registry.restrict DropsFull).Reach (freshRegistry config start) w')
    (hv : box.Reach (freshBox boxConfig start) v)
    (hv' : box.Reach (freshBox boxConfig start) v') :
    RegistryFair config w w' ∧ BoxFair boxConfig v v' := by
  have hok := registry_ok hw
  have hok' := registry_ok hw'
  have hbox := box_ok hv
  have hbox' := box_ok hv'
  constructor
  · exact ⟨fun key => (hok.keys key).fair config.one_le_capacity config.refill_pos,
      fun key huses => (hok.keys key).unique (hok'.keys key) huses, hok.bounded⟩
  · exact ⟨hbox.fair, fun _ huses => hbox.unique hbox' huses, hbox.bounded⟩

/-! ## Configurations that refill within the idle time -/

/-! ## A configuration that does not -/

/-- Two at once, one a minute, and a key that is idle for a minute is forgotten. -/
def briefRegistry : BucketRegistry where
  buckets := .empty
  capacity := 2
  refillPerMinute := 1
  maxEntries := 10000
  idleTtlMs := 60000
  one_le_capacity := by norm_num
  refill_pos := by norm_num

/-- `a` takes two at once and, when `b` has come after a minute, two more. -/
def forgottenTakes : List Take :=
  [⟨"a", 0⟩, ⟨"a", 0⟩, ⟨"b", 60000⟩, ⟨"a", 60000⟩, ⟨"a", 60000⟩]

/-- Is more allowed to `a` in the first minute than two and what a minute refills? -/
def tooMany (w : RegistryWorld) : Bool :=
  3 < ((answersOf w.log "a").filter fun x =>
    x.2.allowed ∧ 0 ≤ x.1.check ∧ x.1.check ≤ 0 + 60000).length

/-- A bucket that is dropped before it is full comes back full: four takes in a minute,
    where two and one more were to be had. -/
theorem forgotten_bucket_is_full :
    ¬ ∀ (config : BucketRegistry) (start : ℚ) (w : RegistryWorld),
      registry.Reach (freshRegistry config start) w →
        ∀ key, Fair config.capacity config.refillPerMinute (answersOf w.log key) := by
  intro hall
  obtain ⟨w, hreach, htoo⟩ : ∃ w, registry.Reach (freshRegistry briefRegistry 0) w ∧
      tooMany w = true :=
    Machine.reach_of_runs_any (l := forgottenTakes) (by decide +kernel)
  have hfair := (hall briefRegistry 0 w hreach "a").rate 0 60000 (by norm_num)
  have hmany := of_decide_eq_true htoo
  have hbound : ((answersOf w.log "a").filter fun x =>
      x.2.allowed ∧ 0 ≤ x.1.check ∧ x.1.check ≤ 0 + 60000).length ≤ 3 := by
    have hthree : (briefRegistry.capacity + briefRegistry.refillPerMinute * 60000 / 60000 : ℚ) =
        3 := by
      show (2 : ℚ) + 1 * 60000 / 60000 = 3
      norm_num
    rw [hthree] at hfair
    exact_mod_cast hfair
  omega

def briefBox : PenaltyBox where
  buckets := .empty
  failureBurst := 10
  failuresPerMinute := 6
  maxEntries := 10000
  one_le_failureBurst := by norm_num
  failures_pos := by norm_num

theorem limits_fair_once :
    ∃ w v, RegistryFair briefRegistry w w ∧ BoxFair briefBox v v ∧
      (answersOf w.log "a").length = 1 ∧ (v.answers "b").length = 1 := by
  have hstep : (registry.restrict DropsFull).enabled (freshRegistry briefRegistry 0) ⟨"a", 0⟩ := by
    refine ⟨by decide +kernel, ?_⟩
    intro _ e he
    cases he
  have hw := (Machine.Reach.refl (M := registry.restrict DropsFull)
    (freshRegistry briefRegistry 0)).step hstep
  have hcheck : box.enabled (freshBox briefBox 0) (.check "b" 0) := ⟨le_rfl, rfl⟩
  have hv := (Machine.Reach.refl (M := box) (freshBox briefBox 0)).step hcheck
  obtain ⟨hregistry, hbox⟩ := limits_fair briefRegistry briefBox 0 _ _ _ _ hw hw hv hv
  exact ⟨_, _, hregistry, hbox, by decide +kernel, by decide +kernel⟩

end Serve
