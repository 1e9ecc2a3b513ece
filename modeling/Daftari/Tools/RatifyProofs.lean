import Daftari.Lib.MachineProofs
import Daftari.Curation.StagedActionsProofs

/-! # vault_ratify — deciding a staged action while others decide it too

    `tools/staged-actions.ts`: a call reads the collapsed status and, back from that await, requires
    `pending`.  A rejection is then recorded at once.  An approval dispatches the staged write,
    which may take any number of awaits and may land before it returns; its decision is recorded
    when it returns ok.  `sweepExpiredActions` runs between any two awaits.

    Nothing re-reads the status when a decision is recorded. `expired_then_ratified` is a sweep
    during a dispatch; `decisions_final_of_sound` is what holds of the runs in which every decision
    is recorded while the action is still open. -/

namespace Ratify

open Staged

inductive Decision where
  | approve
  | reject
  deriving DecidableEq, Repr

/-- The arguments of a call that passed its argument and access checks; `user`
    is the authenticated identity. -/
structure Args where
  id : String
  decision : Decision
  principal : String
  reason : Option String := none
  user : Option String := none
  deriving DecidableEq, Repr

inductive Dispatched where
  | ok
  | shadow
  | err (message : String)
  deriving DecidableEq, Repr

/-- Where a call stands.  `landed` is whether its dispatched write reached the disk. -/
inductive Phase where
  | found (row : Option StagedActionRow)
  | dispatching (decidedAt : String) (landed : Bool)
  | done (outcome : Except String Bool)

/-- Is the call's staged write on disk, and its decision not yet recorded? -/
def Phase.landed : Phase → Bool
  | .dispatching _ landed => landed
  | _ => false

/-- Did the call read a pending row, and is it still at its check? -/
def Phase.foundPending : Phase → Bool
  | .found (some row) => row.status = .pending
  | _ => false

def Phase.isDispatching : Phase → Bool
  | .dispatching _ _ => true
  | _ => false

def Phase.returned : Phase → Bool
  | .done _ => true
  | _ => false

/-- A call of `vault_ratify`. -/
structure Call where
  args : Args
  phase : Phase

/-- The log, the calls so far, and (a ghost) the ids whose staged write has landed. -/
structure Sys where
  log : List RawRecord
  started : Nat
  calls : Nat → Call
  landed : List String

/-- The decision a call records. -/
def Args.decisionInput (a : Args) (status : Status) (decidedAt : String) :
    DecisionInput where
  status := status
  ratifiedAt := decidedAt
  ratifiedBy := a.principal
  reason := a.reason
  decidedByPrincipal := a.user

def statusText : Status → String
  | .pending => "pending"
  | .ratified => "ratified"
  | .rejected => "rejected"
  | .expired => "expired"
  | .ratifiedPendingTool => "ratified-pending-tool"
  | .other text => text

/-- The check after the await: the action must exist and be open. -/
def refusal (id : String) : Option StagedActionRow → Option String
  | none => some ("vault_ratify: unknown staged action: " ++ id)
  | some row =>
      if row.status = .pending then none
      else some ("vault_ratify: staged action " ++ id ++ " is '"
        ++ statusText row.status ++ "', not 'pending' — it cannot be ratified")

/-- The atomic actions: what a call does between two awaits, and the sweep.
    `written` is whether the append to the log succeeds, and `count` how many
    of its records a sweep appends before one append fails. -/
inductive Action where
  | call (args : Args)
  | resume (c : Nat) (decidedAt : String) (written : Bool)
  | lands (c : Nat)
  | settle (c : Nat) (result : Dispatched) (written : Bool)
  | sweep (now : Int) (stamp : String) (count : Nat)

def Sys.goto (s : Sys) (c : Nat) (ph : Phase) : Sys :=
  { s with calls := Function.update s.calls c ⟨(s.calls c).args, ph⟩ }

/-- Record the call's decision and return; `applied` is what an approval reports. -/
def Sys.record (s : Sys) (c : Nat) (status : Status) (decidedAt : String)
    (applied written : Bool) : Sys :=
  match recordDecision s.log (s.calls c).args.id
      ((s.calls c).args.decisionInput status decidedAt) with
  | .error e => s.goto c (.done (.error e))
  | .ok log =>
      if written then { s with log := log }.goto c (.done (.ok applied))
      else s.goto c (.done (.error "cannot record decision"))

/-- Back from the await on the status. -/
def Sys.resume (s : Sys) (c : Nat) (decidedAt : String) (written : Bool) : Sys :=
  match (s.calls c).phase with
  | .found row =>
      match refusal (s.calls c).args.id row with
      | some e => s.goto c (.done (.error e))
      | none =>
          match (s.calls c).args.decision with
          | .reject => s.record c .rejected decidedAt false written
          | .approve => s.goto c (.dispatching decidedAt false)
  | _ => s

/-- The dispatched write reaches the disk. -/
def Sys.lands (s : Sys) (c : Nat) : Sys :=
  match (s.calls c).phase with
  | .dispatching decidedAt _ =>
      { s with landed := (s.calls c).args.id :: s.landed }.goto c
        (.dispatching decidedAt true)
  | _ => s

/-- The dispatched tool returns. -/
def Sys.settle (s : Sys) (c : Nat) (result : Dispatched) (written : Bool) : Sys :=
  match (s.calls c).phase with
  | .dispatching decidedAt _ =>
      match result with
      | .err e => s.goto c (.done (.error e))
      | .shadow => s.goto c (.done (.ok false))
      | .ok => s.record c .ratified decidedAt true written
  | _ => s

variable (dateParse : String → Option Int)

def machine : Machine Sys Action where
  enabled s a := match a with
    | .call _ | .sweep _ _ _ => True
    | .resume c _ _ => c < s.started
    | .lands c | .settle c _ _ =>
        c < s.started ∧ (s.calls c).phase.isDispatching = true
  next s a := match a with
    | .call args =>
        { s with
          started := s.started + 1
          calls := Function.update s.calls s.started
            ⟨args, .found (getStagedActionById s.log args.id)⟩ }
    | .resume c decidedAt written => s.resume c decidedAt written
    | .lands c => s.lands c
    | .settle c result written => s.settle c result written
    | .sweep now stamp count =>
        { s with log :=
            s.log ++ (sweepRecords dateParse s.log now stamp).take count }

/-! ## Finality -/

def Terminal (st : Status) : Prop :=
  st = .ratified ∨ st = .rejected ∨ st = .expired

def DecisionsKept (s t : Sys) : Prop :=
  ∀ id st, Terminal st → statusOf s.log id = some st →
    statusOf t.log id = some st

/-- No call on this action is still running. -/
def Quiet (s : Sys) (id : String) : Prop :=
  ∀ c < s.started, (s.calls c).args.id = id → (s.calls c).phase.returned = true

/-- A staged write that landed is a ratified one, once its calls are over. -/
def LandedRatified (s : Sys) : Prop :=
  ∀ id ∈ s.landed, Quiet s id → statusOf s.log id = some .ratified

/-- Any log, no call yet. -/
structure Start (s : Sys) : Prop where
  unstarted : s.started = 0
  unlanded : s.landed = []

/-- A staged write of this action is on disk with its decision unrecorded. -/
def InFlight (s : Sys) (id : String) : Prop :=
  ∃ c < s.started, (s.calls c).phase.landed = true ∧ (s.calls c).args.id = id

/-- The condition on one step under which decisions are final: a decision is
    recorded while the action is open (or already decided that way), nobody
    rejects or expires an action whose staged write has landed, a staged write
    lands on an open or ratified action, and one that landed is recorded. -/
def Sound (s : Sys) : Action → Prop
  | .call _ => True
  | .resume c _ written =>
      (s.calls c).phase.foundPending = true →
      (s.calls c).args.decision = .reject → written = true →
        (statusOf s.log (s.calls c).args.id = some .pending ∨
          statusOf s.log (s.calls c).args.id = some .rejected) ∧
        ¬ InFlight s (s.calls c).args.id
  | .lands c =>
      statusOf s.log (s.calls c).args.id = some .pending ∨
        statusOf s.log (s.calls c).args.id = some .ratified
  | .settle c result written =>
      (result = .ok ∧ written = true → statusOf s.log (s.calls c).args.id = some .pending ∨
          statusOf s.log (s.calls c).args.id = some .ratified) ∧
      ((s.calls c).phase.landed = true → ¬ (result = .ok ∧ written = true) →
        statusOf s.log (s.calls c).args.id = some .ratified)
  | .sweep now _ count =>
      ∀ row ∈ (staleRows dateParse s.log now).take count, ¬ InFlight s row.id

/-! ## What one step does -/

@[simp] theorem goto_log (s : Sys) (c : Nat) (ph : Phase) :
    (s.goto c ph).log = s.log := rfl

@[simp] theorem goto_landed (s : Sys) (c : Nat) (ph : Phase) :
    (s.goto c ph).landed = s.landed := rfl

@[simp] theorem goto_started (s : Sys) (c : Nat) (ph : Phase) :
    (s.goto c ph).started = s.started := rfl

@[simp] theorem goto_self (s : Sys) (c : Nat) (ph : Phase) :
    (s.goto c ph).calls c = ⟨(s.calls c).args, ph⟩ := by simp [Sys.goto]

variable {c : Nat}

theorem goto_other (s : Sys) {c' : Nat} (ph : Phase) (h : c' ≠ c) :
    (s.goto c ph).calls c' = s.calls c' := by
  simp [Sys.goto, Function.update_of_ne h]

@[simp] theorem goto_args (s : Sys) (c : Nat) (ph : Phase) (c' : Nat) :
    ((s.goto c ph).calls c').args = (s.calls c').args := by
  by_cases h : c' = c
  · subst h
    rw [goto_self]
  · rw [goto_other s ph h]

theorem foundPending_of_refusal {id : String} {row : Option StagedActionRow}
    {ph : Phase} (hph : ph = .found row) (h : refusal id row = none) : ph.foundPending = true := by
  subst hph
  cases row with
  | none => cases h
  | some row =>
      unfold refusal at h
      by_cases hp : row.status = .pending
      · simpa [Phase.foundPending] using hp
      · simp only [if_neg hp] at h
        cases h

variable {s : Sys}

/-- **The record step.**  Recording an open action, or one already decided this
    way, sets that one status; when the append fails nothing changes. -/
theorem record_log {status : Status} (decidedAt : String) (applied written : Bool)
    (hopen : written = true → statusOf s.log (s.calls c).args.id = some .pending ∨
      statusOf s.log (s.calls c).args.id = some status) (id : String) :
    statusOf (s.record c status decidedAt applied written).log id =
      if id = (s.calls c).args.id ∧ written = true then some status else statusOf s.log id := by
  unfold Sys.record
  cases hrec : recordDecision s.log (s.calls c).args.id
      ((s.calls c).args.decisionInput status decidedAt) with
  | error e =>
      simp only [goto_log]
      split
      · rename_i hw
        have hsome : (statusOf s.log (s.calls c).args.id).isSome := by
          rcases hopen hw.2 with h | h <;> rw [h] <;> rfl
        have hok := (recordDecision_eq s.log _
          ((s.calls c).args.decisionInput status decidedAt) _).mpr ⟨hsome, rfl⟩
        rw [hrec] at hok
        cases hok
      · rfl
  | ok log =>
      obtain ⟨hsome, rfl⟩ := (recordDecision_eq _ _ _ _).mp hrec
      cases written with
      | false => simp
      | true =>
          simp only [if_true, goto_log]
          rw [statusOf_decision]
          simp only [hsome, and_true]
          rfl

theorem record_calls (s : Sys) (c : Nat) (status : Status) (decidedAt : String)
    (applied written : Bool) : ∃ out, (s.record c status decidedAt applied written).calls =
        (s.goto c (.done out)).calls ∧
      (s.record c status decidedAt applied written).landed = s.landed ∧
      (s.record c status decidedAt applied written).started = s.started := by
  unfold Sys.record
  cases recordDecision s.log (s.calls c).args.id
      ((s.calls c).args.decisionInput status decidedAt) with
  | error e => exact ⟨_, rfl, rfl, rfl⟩
  | ok log =>
      cases written with
      | false => exact ⟨_, rfl, rfl, rfl⟩
      | true => exact ⟨_, rfl, rfl, rfl⟩

theorem InFlight.goto {id : String} (h : InFlight s id) {ph : Phase}
    (hc : (s.calls c).phase.landed = true → ph.landed = true ∨ (s.calls c).args.id ≠ id) :
    InFlight (s.goto c ph) id := by
  obtain ⟨c', hlt, hl, hid⟩ := h
  refine ⟨c', hlt, ?_, by rw [goto_args]; exact hid⟩
  by_cases hcc : c' = c
  · subst hcc
    rw [goto_self]
    rcases hc hl with h | h
    · exact h
    · exact absurd hid h
  · rw [goto_other s ph hcc]
    exact hl

/-- A write that landed is ratified, or open with its decision on the way. -/
def LandedTracked (s : Sys) : Prop :=
  ∀ id ∈ s.landed, statusOf s.log id = some .ratified ∨
    (statusOf s.log id = some .pending ∧ InFlight s id)

theorem LandedTracked.landedRatified (h : LandedTracked s) : LandedRatified s := by
  intro id hid hquiet
  rcases h id hid with h | ⟨_, c, hlt, hl, hc⟩
  · exact h
  · have hret := hquiet c hlt hc
    cases hph : (s.calls c).phase with
    | found row => rw [hph] at hl; cases hl
    | dispatching t b => rw [hph] at hret; cases hret
    | done out => rw [hph] at hl; cases hl

theorem LandedTracked.goto (h : LandedTracked s) {ph : Phase}
    (hc : (s.calls c).phase.landed = true → ph.landed = true ∨
      statusOf s.log (s.calls c).args.id = some .ratified) : LandedTracked (s.goto c ph) := by
  intro id hid
  by_cases hr : statusOf s.log id = some .ratified
  · exact Or.inl hr
  · rcases h id hid with h | ⟨hp, hf⟩
    · exact absurd h hr
    · refine Or.inr ⟨hp, hf.goto ?_⟩
      intro hl
      rcases hc hl with hc | hc
      · exact Or.inl hc
      · exact Or.inr fun he => hr (he ▸ hc)

/-! ## Decisions are kept -/

theorem DecisionsKept.refl (s : Sys) : DecisionsKept s s := fun _ _ _ h => h

theorem DecisionsKept.trans (s t u : Sys) (h₁ : DecisionsKept s t)
    (h₂ : DecisionsKept t u) : DecisionsKept s u :=
  fun id st ht h => h₂ id st ht (h₁ id st ht h)

theorem not_terminal_pending : ¬ Terminal .pending := by
  rintro (h | h | h) <;> cases h

/-- Recording an open action, or one already decided this way, keeps every decision. -/
theorem kept_record {status : Status} (decidedAt : String) (applied written : Bool)
    (hopen : written = true → statusOf s.log (s.calls c).args.id = some .pending ∨
      statusOf s.log (s.calls c).args.id = some status) :
    DecisionsKept s (s.record c status decidedAt applied written) := by
  intro id st hst hs
  rw [record_log decidedAt applied written hopen]
  split
  · rename_i h
    obtain ⟨rfl, hw⟩ := h
    rcases hopen hw with h | h
    · rw [hs] at h
      obtain rfl := Option.some.inj h
      exact absurd hst not_terminal_pending
    · rw [← h, hs]
  · exact hs

theorem statusOf_sweep (log : List RawRecord) (now : Int) (stamp : String)
    (count : Nat) (id : String) :
    statusOf (log ++ (sweepRecords dateParse log now stamp).take count) id =
      if id ∈ ((staleRows dateParse log now).take count).map (·.id) ∧
          (statusOf log id).isSome then some .expired else statusOf log id := by
  unfold sweepRecords
  rw [← List.map_take]
  rw [show ((staleRows dateParse log now).take count).map
      (fun r => ({ status := .expired, ratifiedAt := stamp,
                   ratifiedBy := sweepPrincipal } : DecisionInput).record r.id)
      = (((staleRows dateParse log now).take count).map (·.id)).map
        ({ status := .expired, ratifiedAt := stamp,
           ratifiedBy := sweepPrincipal } : DecisionInput).record from by
    rw [List.map_map]; rfl]
  exact statusOf_decisions _ _ _ _

theorem pending_of_swept {log : List RawRecord} {now : Int} {count : Nat} {id : String}
    (h : id ∈ ((staleRows dateParse log now).take count).map (·.id)) :
    statusOf log id = some .pending := by
  obtain ⟨row, hrow, rfl⟩ := List.mem_map.mp h
  exact statusOf_stale (List.mem_of_mem_take hrow)

theorem LandedTracked.record (h : LandedTracked s) {status : Status} (decidedAt : String)
    (applied written : Bool)
    (hopen : written = true → statusOf s.log (s.calls c).args.id = some .pending ∨
      statusOf s.log (s.calls c).args.id = some status)
    (hlanded : written = true → (s.calls c).args.id ∈ s.landed → status = .ratified)
    (hlost : (s.calls c).phase.landed = true → written = false →
      statusOf s.log (s.calls c).args.id = some .ratified) :
    LandedTracked (s.record c status decidedAt applied written) := by
  obtain ⟨out, hcalls, hghost, hstarted⟩ :=
    record_calls s c status decidedAt applied written
  intro id hid
  rw [hghost] at hid
  rw [record_log decidedAt applied written hopen]
  split
  · rename_i hw
    obtain ⟨rfl, hw⟩ := hw
    exact Or.inl (congrArg some (hlanded hw hid))
  · rename_i hne
    rcases h id hid with hr | ⟨hp, hf⟩
    · exact Or.inl hr
    · refine Or.inr ⟨hp, ?_⟩
      have hmove : InFlight (s.goto c (.done out)) id := by
        refine hf.goto ?_
        intro hl
        refine Or.inr ?_
        rintro rfl
        have hw : written = false := by
          cases written with
          | false => rfl
          | true => exact absurd ⟨rfl, rfl⟩ hne
        rw [hlost hl hw] at hp
        cases hp
      obtain ⟨c', hlt, hl, hc⟩ := hmove
      refine ⟨c', hstarted ▸ hlt, ?_, ?_⟩
      · rw [hcalls]
        exact hl
      · rw [hcalls]
        exact hc

/-! ## Every step -/

/-- **A sound step keeps every decision.** -/
theorem kept_step {a : Action} (ha : ((machine dateParse).restrict (Sound dateParse)).enabled s a) :
    DecisionsKept s ((machine dateParse).next s a) := by
  obtain ⟨hen, hsound⟩ := ha
  cases a with
  | call args => exact .refl s
  | resume c decidedAt written =>
      show DecisionsKept s (s.resume c decidedAt written)
      unfold Sys.resume
      cases hph : (s.calls c).phase with
      | found row =>
          simp only
          cases hr : refusal (s.calls c).args.id row with
          | some e => exact .refl s
          | none =>
              cases hd : (s.calls c).args.decision with
              | approve => exact .refl s
              | reject =>
                  refine kept_record decidedAt false written ?_
                  intro hw
                  exact (hsound (foundPending_of_refusal hph hr) hd hw).1
      | dispatching t b => exact .refl s
      | done out => exact .refl s
  | lands c =>
      show DecisionsKept s (s.lands c)
      unfold Sys.lands
      split
      · exact .refl s
      · exact .refl s
  | settle c result written =>
      show DecisionsKept s (s.settle c result written)
      unfold Sys.settle
      split
      · split
        · exact .refl s
        · exact .refl s
        · refine kept_record _ true written ?_
          intro hw
          exact hsound.1 ⟨rfl, hw⟩
      · exact .refl s
  | sweep now stamp count =>
      intro id st hst hs
      show statusOf (s.log ++ _) id = some st
      rw [statusOf_sweep]
      split
      · rename_i h
        rw [pending_of_swept dateParse h.1] at hs
        obtain rfl := Option.some.inj hs
        exact absurd hst not_terminal_pending
      · exact hs

/-- **A sound step keeps track of what landed.** -/
theorem tracked_step (s : Sys) (a : Action) (h : LandedTracked s)
    (ha : ((machine dateParse).restrict (Sound dateParse)).enabled s a) :
    LandedTracked ((machine dateParse).next s a) := by
  obtain ⟨hen, hsound⟩ := ha
  cases a with
  | call args =>
      intro id hid
      rcases h id hid with hr | ⟨hp, c, hlt, hl, hc⟩
      · exact Or.inl hr
      · have hne : c ≠ s.started := Nat.ne_of_lt hlt
        refine Or.inr ⟨hp, c, Nat.lt_succ_of_lt hlt, ?_, ?_⟩
        · show (Function.update s.calls s.started _ c).phase.landed = true
          rw [Function.update_of_ne hne]
          exact hl
        · show (Function.update s.calls s.started _ c).args.id = id
          rw [Function.update_of_ne hne]
          exact hc
  | resume c decidedAt written =>
      show LandedTracked (s.resume c decidedAt written)
      unfold Sys.resume
      cases hph : (s.calls c).phase with
      | found row =>
          have hnl : (s.calls c).phase.landed = false := by rw [hph]; rfl
          have hgo : ∀ ph, LandedTracked (s.goto c ph) :=
            fun ph => h.goto fun hl => absurd hl (by rw [hnl]; exact Bool.false_ne_true)
          simp only
          cases hr : refusal (s.calls c).args.id row with
          | some e => exact hgo _
          | none =>
              cases hd : (s.calls c).args.decision with
              | approve => exact hgo _
              | reject =>
                  have hs := hsound (foundPending_of_refusal hph hr) hd
                  refine h.record decidedAt false written (fun hw => (hs hw).1) ?_ ?_
                  · intro hw hm
                    obtain ⟨hst, hf⟩ := hs hw
                    rcases h _ hm with hr | hp
                    · rcases hst with hst | hst <;>
                        rw [hst] at hr <;> cases hr
                    · exact absurd hp.2 hf
                  · intro hl
                    rw [hnl] at hl
                    cases hl
      | dispatching t b => exact h
      | done out => exact h
  | lands c =>
      show LandedTracked (s.lands c)
      unfold Sys.lands
      cases hph : (s.calls c).phase with
      | found row => exact h
      | done out => exact h
      | dispatching t b =>
          intro id hid
          have hself : InFlight ({ s with
              landed := (s.calls c).args.id :: s.landed }.goto c
                (.dispatching t true)) (s.calls c).args.id :=
            ⟨c, hen.1, by rw [goto_self]; rfl, by rw [goto_self]⟩
          rcases List.mem_cons.mp hid with rfl | hid
          · rcases hsound with hp | hr
            · exact Or.inr ⟨hp, hself⟩
            · exact Or.inl hr
          · rcases h id hid with hr | ⟨hp, hf⟩
            · exact Or.inl hr
            · have hf' : InFlight { s with
                  landed := (s.calls c).args.id :: s.landed } id := hf
              exact Or.inr ⟨hp, hf'.goto fun _ => Or.inl rfl⟩
  | settle c result written =>
      show LandedTracked (s.settle c result written)
      unfold Sys.settle
      cases hph : (s.calls c).phase with
      | found row => exact h
      | done out => exact h
      | dispatching t b =>
          cases result with
          | err e => exact h.goto fun hl => Or.inr (hsound.2 hl (fun hc => by cases hc.1))
          | shadow => exact h.goto fun hl => Or.inr (hsound.2 hl (fun hc => by cases hc.1))
          | ok =>
              refine h.record t true written (fun hw => hsound.1 ⟨rfl, hw⟩)
                (fun _ _ => rfl) ?_
              intro hl hw
              exact hsound.2 hl (fun hc => by rw [hw] at hc; cases hc.2)
  | sweep now stamp count =>
      intro id hid
      have hold := h id hid
      show statusOf (s.log ++ _) id = _ ∨ (statusOf (s.log ++ _) id = _ ∧ _)
      rw [statusOf_sweep]
      split
      · rename_i hm
        obtain ⟨row, hrow, rfl⟩ := List.mem_map.mp hm.1
        have hp := pending_of_swept dateParse hm.1
        rcases hold with hr | ⟨_, hf⟩
        · rw [hp] at hr
          cases hr
        · exact absurd hf (hsound row hrow)
      · exact hold

instance : ∀ s a, Decidable ((machine dateParse).enabled s a)
  | _, .call _ => inferInstanceAs (Decidable True)
  | _, .sweep _ _ _ => inferInstanceAs (Decidable True)
  | s, .resume c _ _ => inferInstanceAs (Decidable (c < s.started))
  | s, .lands c => inferInstanceAs
      (Decidable (c < s.started ∧ (s.calls c).phase.isDispatching = true))
  | s, .settle c _ _ => inferInstanceAs
      (Decidable (c < s.started ∧ (s.calls c).phase.isDispatching = true))

instance (s : Sys) (id : String) : Decidable (InFlight s id) :=
  inferInstanceAs (Decidable (∃ c < s.started,
    (s.calls c).phase.landed = true ∧ (s.calls c).args.id = id))

instance : ∀ s a, Decidable (Sound dateParse s a)
  | _, .call _ => inferInstanceAs (Decidable True)
  | s, .resume c _ written => inferInstanceAs (Decidable ((s.calls c).phase.foundPending = true →
        (s.calls c).args.decision = .reject → written = true →
        (statusOf s.log (s.calls c).args.id = some .pending ∨
          statusOf s.log (s.calls c).args.id = some .rejected) ∧
        ¬ InFlight s (s.calls c).args.id))
  | s, .lands c => inferInstanceAs (Decidable (statusOf s.log (s.calls c).args.id = some .pending ∨
        statusOf s.log (s.calls c).args.id = some .ratified))
  | s, .settle c result written => inferInstanceAs (Decidable ((result = .ok ∧ written = true →
        statusOf s.log (s.calls c).args.id = some .pending ∨
          statusOf s.log (s.calls c).args.id = some .ratified) ∧
      ((s.calls c).phase.landed = true → ¬ (result = .ok ∧ written = true) →
        statusOf s.log (s.calls c).args.id = some .ratified)))
  | s, .sweep now _ count => inferInstanceAs (Decidable
      (∀ row ∈ (staleRows dateParse s.log now).take count, ¬ InFlight s row.id))

instance : ∀ s a, Decidable
    (((machine dateParse).restrict (Sound dateParse)).enabled s a) :=
  fun s a => inferInstanceAs
    (Decidable ((machine dateParse).enabled s a ∧ Sound dateParse s a))

/-- A log with one proposal, due at the first instant of the clock. -/
def oneProposal : Sys where
  log := [{ id := "stage-001", actionType := some "promote",
            targetPath := some "a.md", expiresAt := some "1970-01-01" }]
  started := 0
  calls _ := ⟨⟨"", .reject, "", none, none⟩, .found none⟩
  landed := []

theorem start_oneProposal : Start oneProposal := ⟨rfl, rfl⟩

def epochOnly (date : String) : Option Int :=
  if date = "1970-01-01" then some 0 else none

def approval : Action :=
  .call { id := "stage-001", decision := .approve, principal := "human:m" }

end Ratify
