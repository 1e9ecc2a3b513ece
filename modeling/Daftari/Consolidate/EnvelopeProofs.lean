import Daftari.Consolidate.SessionProofs
import Daftari.Tools.ReceiptSafetyProofs
import Mathlib.Algebra.BigOperators.Group.List.Basic

/-! # The envelope — what the loop may write by itself

    `consolidate/admit.ts` and `consolidate/envelope.ts`: an action is admitted if both of its
    documents are sound and what it costs fits in what is left of the session's budget.  What
    has been spent is read when the action comes in, and the cost is added when its decision
    has been journaled; in between, another action may come in.

    * `step`: a call that comes in, or one whose journal has answered;
    * `never_overspends_iff`: **the budget is kept at every point of a run exactly if no call
      is admitted on a spend that is out of date and leaves no room for it.** -/

namespace Envelope

open Consolidate (BlastPower EnvelopeAction EnvelopeVerdict canon shadowImpact)
open Frontmatter (Fields)
open Receipt (Clock computeDecay)
open Tension (TensionEntry)

attribute [local instance] Text.lawful

abbrev Path := List Char

/-- A `LoadedDoc`. -/
structure LoadedDoc where
  path : Path
  valid : Bool
  decayInput : Fields

/-- What a session has loaded, and the functions of its host. -/
structure Session where
  docs : List LoadedDoc
  tensions : List TensionEntry
  /-- The pending staged actions that have not expired. -/
  livePending : Nat
  /-- The length of what `computeBlast` lists downstream of two seeds. -/
  downstream : Path → Path → Nat
  power : BlastPower
  /-- `Math.log`. -/
  log : Nat → ℚ
  /-- `toFixed(3)`. -/
  toFixed : ℚ → String

def shadowBudget (s : Session) : ℚ :=
  min (1 / 2 + 1 / 4 * s.livePending) (max 1 (s.log (max 1 s.docs.length)))

structure EndpointState where
  path : Path
  provenanceKnown : Bool
  decayBlocking : Bool
  hasUnresolvedTension : Bool

/-- `cachedByPath`: of two documents with one canonical path, the last. -/
def cachedByPath (s : Session) (path : Path) : Option LoadedDoc :=
  s.docs.reverse.find? fun d => canon d.path = path

def unresolvedTensionPaths (s : Session) : List Path :=
  (s.tensions.filter fun t => !t.resolved).flatMap fun t => [canon t.sourceA, canon t.sourceB]

/-- `endpointState`, by the clock of the call. -/
def endpointState (s : Session) (clock : Clock) (path : Path) : EndpointState :=
  match cachedByPath s path with
  | none => ⟨path, false, false, false⟩
  | some cached =>
      ⟨path, cached.valid, (computeDecay clock cached.decayInput).any fun d => d.level ≠ .aging,
        path ∈ unresolvedTensionPaths s⟩

structure EnvelopeCtx where
  action : EnvelopeAction
  endpoints : List EndpointState
  impact : ℚ
  budget : ℚ

def nonDeletingActions : List EnvelopeAction := [.edgeObserve, .edgeContest]

def actionName : EnvelopeAction → String
  | .edgeObserve => "edge-observe"
  | .edgeContest => "edge-contest"

def refusal (ep : EndpointState) : Option String :=
  if ep.provenanceKnown = false then
    some ("provenance-required: " ++ String.ofList ep.path ++ " has unknown/broken provenance")
  else if ep.decayBlocking then
    some ("premise-freshness: " ++ String.ofList ep.path ++ " is stale/deprecated")
  else if ep.hasUnresolvedTension then
    some ("tension-respect: " ++ String.ofList ep.path ++ " has an unresolved tension")
  else none

/-- `evaluateEnvelope`; the numbers are finite. -/
def evaluateEnvelope (toFixed : ℚ → String) (ctx : EnvelopeCtx) (spent : ℚ) : EnvelopeVerdict :=
  if ctx.endpoints.length < 2 then
    ⟨false, some "invariants", "precondition: expected 2 endpoints (from, to), got "
      ++ toString ctx.endpoints.length, ctx.impact⟩
  else if ctx.impact < 0 ∨ ctx.budget < 0 ∨ spent < 0 then
    ⟨false, some "invariants",
      "precondition: non-finite or negative numeric input (impact/budget/spent)", ctx.impact⟩
  else if ctx.action ∉ nonDeletingActions then
    ⟨false, some "invariants", "never-delete: action '" ++ actionName ctx.action
      ++ "' is not permitted", ctx.impact⟩
  else
    match ctx.endpoints.findSome? refusal with
    | some reason => ⟨false, some "invariants", reason, ctx.impact⟩
    | none =>
        if ctx.budget < spent + ctx.impact then
          ⟨false, some "budget", "trust-budget exhausted: spent " ++ toFixed spent ++ " + I "
            ++ toFixed ctx.impact ++ " > B0 " ++ toFixed ctx.budget, ctx.impact⟩
        else ⟨true, none, "admitted", ctx.impact⟩

/-- A call of `admit`, with the clock it meets. -/
structure Call where
  action : EnvelopeAction
  fromPath : Path
  toPath : Path
  clock : Clock

/-- What `admit` decides, on what has been spent when it is called. -/
def verdictOf (s : Session) (a : Call) (spent : ℚ) : EnvelopeVerdict :=
  let canonFrom := canon a.fromPath
  let canonTo := canon a.toPath
  let blast := 1 + s.downstream canonFrom canonTo
  evaluateEnvelope s.toFixed
    ⟨a.action, [endpointState s a.clock canonFrom, endpointState s a.clock canonTo],
      shadowImpact s.power (actionName a.action) blast, shadowBudget s⟩ spent

structure Decided where
  call : Call
  verdict : EnvelopeVerdict

/-- The closure: what has been spent, the failed journal writes, the calls that await their
    journal and those that have returned. -/
structure State where
  spent : ℚ
  journalFailures : Nat
  awaiting : List Decided
  returned : List Decided

def State.start : State := ⟨0, 0, [], []⟩

inductive Event where
  | call (a : Call)
  | journaled (i : Nat) (ok : Bool)

def cost (d : Decided) : ℚ := if d.verdict.admits then d.verdict.impact else 0

def step (s : Session) (st : State) : Event → State
  | .call a => { st with awaiting := st.awaiting ++ [⟨a, verdictOf s a st.spent⟩] }
  | .journaled i ok =>
      match st.awaiting[i]? with
      | none => st
      | some d =>
          { spent := if d.verdict.admits then st.spent + d.verdict.impact else st.spent
            journalFailures := if ok then st.journalFailures else st.journalFailures + 1
            awaiting := st.awaiting.eraseIdx i
            returned := st.returned ++ [d] }

/-- A session's calls in any order and overlap. -/
def run (s : Session) (events : List Event) : State := events.foldl (step s) State.start

/-! ## What is to hold -/

/-- A document an action may touch: loaded, valid, not past the decay threshold, and named by no
    unresolved tension. -/
def SoundEndpoint (s : Session) (clock : Clock) (path : Path) : Prop :=
  (∃ d ∈ s.docs, canon d.path = canon path ∧ d.valid = true ∧
    ∀ decay, computeDecay clock d.decayInput = some decay → decay.level = .aging) ∧
  ∀ t ∈ s.tensions, t.resolved = false → canon t.sourceA ≠ canon path ∧ canon t.sourceB ≠ canon path

/-- What the envelope is for. -/
structure Kept (s : Session) (st : State) : Prop where
  budget : ((st.returned ++ st.awaiting).map cost).sum ≤ shadowBudget s
  gatedFree : st.spent = (st.returned.map cost).sum
  sound : ∀ d ∈ st.returned ++ st.awaiting, d.verdict.admits = true →
    SoundEndpoint s d.call.clock d.call.fromPath ∧ SoundEndpoint s d.call.clock d.call.toPath

/-- The call is gated, or nothing admitted awaits its journal, or there is room for it beside
    what does. -/
def Timely (s : Session) (st : State) : Event → Prop
  | .call a => (verdictOf s a st.spent).admits = true →
      (∀ d ∈ st.awaiting, d.verdict.admits = false) ∨
        st.spent + (st.awaiting.map cost).sum + (verdictOf s a st.spent).impact ≤ shadowBudget s
  | .journaled _ _ => True

/-! ## The gates -/

theorem refusal_eq_none {ep : EndpointState} (h : refusal ep = none) :
    ep.provenanceKnown = true ∧ ep.decayBlocking = false ∧ ep.hasUnresolvedTension = false := by
  unfold refusal at h
  split_ifs at h with hp hd ht
  exact ⟨Bool.not_eq_false _ ▸ hp, Bool.not_eq_true _ ▸ hd, Bool.not_eq_true _ ▸ ht⟩

/-- **An admitted action** fits in the budget, and none of its endpoints is refused. -/
theorem evaluateEnvelope_admits {toFixed : ℚ → String} {ctx : EnvelopeCtx} {spent : ℚ}
    (h : (evaluateEnvelope toFixed ctx spent).admits = true) :
    spent + (evaluateEnvelope toFixed ctx spent).impact ≤ ctx.budget ∧
      ∀ ep ∈ ctx.endpoints, refusal ep = none := by
  unfold evaluateEnvelope at h ⊢
  by_cases hlength : ctx.endpoints.length < 2
  · rw [if_pos hlength] at h
    cases h
  rw [if_neg hlength] at h ⊢
  by_cases hnumbers : ctx.impact < 0 ∨ ctx.budget < 0 ∨ spent < 0
  · rw [if_pos hnumbers] at h
    cases h
  rw [if_neg hnumbers] at h ⊢
  by_cases haction : ctx.action ∉ nonDeletingActions
  · rw [if_pos haction] at h
    cases h
  rw [if_neg haction] at h ⊢
  cases hrefused : ctx.endpoints.findSome? refusal with
  | some reason =>
      rw [hrefused] at h
      cases h
  | none =>
      rw [hrefused] at h
      by_cases hover : ctx.budget < spent + ctx.impact
      · rw [if_pos hover] at h
        cases h
      · rw [if_neg hover]
        exact ⟨not_lt.mp hover, List.findSome?_eq_none_iff.mp hrefused⟩

variable {s : Session}

theorem sound_of_refusal {clock : Clock} {path : Path}
    (h : refusal (endpointState s clock (canon path)) = none) : SoundEndpoint s clock path := by
  obtain ⟨hknown, hdecay, htension⟩ := refusal_eq_none h
  unfold endpointState at hknown hdecay htension
  cases hcached : cachedByPath s (canon path) with
  | none =>
      rw [hcached] at hknown
      cases hknown
  | some d =>
      rw [hcached] at hknown hdecay htension
      have hmem := List.mem_of_find?_eq_some hcached
      have hpath := List.find?_some hcached
      refine ⟨⟨d, List.mem_reverse.mp hmem, of_decide_eq_true hpath, hknown, fun decay hd => ?_⟩,
        fun t ht hopen => ?_⟩
      · dsimp only at hdecay
        rw [hd, Option.any_some, decide_eq_false_iff_not, not_not] at hdecay
        exact hdecay
      · have hout : canon path ∉ unresolvedTensionPaths s := of_decide_eq_false htension
        have hkept : t ∈ s.tensions.filter fun t => !t.resolved :=
          List.mem_filter.mpr ⟨ht, by rw [hopen]; rfl⟩
        have hboth : ∀ x ∈ [canon t.sourceA, canon t.sourceB], x ≠ canon path := by
          rintro x hx rfl
          exact hout (List.mem_flatMap.mpr ⟨t, hkept, hx⟩)
        exact ⟨hboth _ List.mem_cons_self, hboth _ (List.mem_cons_of_mem _ List.mem_cons_self)⟩

theorem verdictOf_admits {a : Call} {spent : ℚ} (h : (verdictOf s a spent).admits = true) :
    spent + (verdictOf s a spent).impact ≤ shadowBudget s ∧
      SoundEndpoint s a.clock a.fromPath ∧ SoundEndpoint s a.clock a.toPath := by
  obtain ⟨hfits, hsound⟩ := evaluateEnvelope_admits h
  exact ⟨hfits, sound_of_refusal (hsound _ List.mem_cons_self),
    sound_of_refusal (hsound _ (List.mem_cons_of_mem _ List.mem_cons_self))⟩

/-! ## One event -/

/-- What the decided calls of a closure cost in all. -/
def total (st : State) : ℚ := ((st.returned ++ st.awaiting).map cost).sum

theorem total_call (s : Session) (st : State) (a : Call) :
    total (step s st (.call a)) = total st + cost ⟨a, verdictOf s a st.spent⟩ := by
  show ((st.returned ++ (st.awaiting ++ [_])).map cost).sum = _
  rw [← List.append_assoc, List.map_append, List.sum_append]
  simp [total]

variable {st : State}

theorem step_unknown {i : Nat} (h : st.awaiting[i]? = none) (ok : Bool) :
    step s st (.journaled i ok) = st := by
  simp only [step, h]

theorem step_journaled {i : Nat} {d : Decided} (h : st.awaiting[i]? = some d) (ok : Bool) :
    step s st (.journaled i ok) =
      { spent := if d.verdict.admits then st.spent + d.verdict.impact else st.spent
        journalFailures := if ok then st.journalFailures else st.journalFailures + 1
        awaiting := st.awaiting.eraseIdx i
        returned := st.returned ++ [d] } := by
  simp only [step, h]

theorem perm_journaled (s : Session) (st : State) (i : Nat) (ok : Bool) :
    ((step s st (.journaled i ok)).returned ++ (step s st (.journaled i ok)).awaiting).Perm
      (st.returned ++ st.awaiting) := by
  cases hd : st.awaiting[i]? with
  | none => rw [step_unknown hd]
  | some d =>
      rw [step_journaled hd]
      obtain ⟨hi, rfl⟩ := List.getElem?_eq_some_iff.mp hd
      rw [List.append_assoc]
      exact (List.getElem_cons_eraseIdx_perm hi).append_left _

theorem spent_step (s : Session) (h : st.spent = (st.returned.map cost).sum) (e : Event) :
    (step s st e).spent = ((step s st e).returned.map cost).sum := by
  cases e with
  | call a => exact h
  | journaled i ok =>
      cases hd : st.awaiting[i]? with
      | none => rwa [step_unknown hd]
      | some d =>
          rw [step_journaled hd]
          dsimp only
          rw [List.map_append, List.sum_append, ← h, List.map_singleton, List.sum_singleton, cost]
          split_ifs
          · rfl
          · rw [add_zero]

theorem sound_step (h : ∀ d ∈ st.returned ++ st.awaiting,
      d.verdict.admits = true → SoundEndpoint s d.call.clock d.call.fromPath ∧
        SoundEndpoint s d.call.clock d.call.toPath) (e : Event) :
    ∀ d ∈ (step s st e).returned ++ (step s st e).awaiting, d.verdict.admits = true →
      SoundEndpoint s d.call.clock d.call.fromPath ∧
        SoundEndpoint s d.call.clock d.call.toPath := by
  cases e with
  | call a =>
      intro d hd hadmits
      rw [step, ← List.append_assoc] at hd
      rcases List.mem_append.mp hd with hd | hd
      · exact h d hd hadmits
      · obtain rfl := List.mem_singleton.mp hd
        exact (verdictOf_admits hadmits).2
  | journaled i ok => exact fun d hd => h d ((perm_journaled s st i ok).mem_iff.mp hd)

theorem run_concat (s : Session) (events : List Event) (e : Event) :
    run s (events ++ [e]) = step s (run s events) e := List.foldl_append ..

/-- **Every run**, overlapping or not: a gated action spends nothing, and an admitted one was
    sound. -/
theorem run_sound (s : Session) (events : List Event) :
    (run s events).spent = ((run s events).returned.map cost).sum ∧
      ∀ d ∈ (run s events).returned ++ (run s events).awaiting, d.verdict.admits = true →
        SoundEndpoint s d.call.clock d.call.fromPath ∧
          SoundEndpoint s d.call.clock d.call.toPath := by
  induction events using List.reverseRecOn with
  | nil => exact ⟨rfl, fun d hd => (nomatch hd)⟩
  | append_singleton events e ih =>
      rw [run_concat]
      exact ⟨spent_step s ih.1 e, sound_step ih.2 e⟩

/-- **One event** keeps the budget exactly if it is timely. -/
theorem budget_step_iff (hspent : st.spent = (st.returned.map cost).sum)
    (hbudget : total st ≤ shadowBudget s) (e : Event) :
    total (step s st e) ≤ shadowBudget s ↔ Timely s st e := by
  cases e with
  | journaled i ok =>
      refine iff_of_true ?_ trivial
      have hsame : total (step s st (.journaled i ok)) = total st :=
        ((perm_journaled s st i ok).map cost).sum_eq
      rwa [hsame]
  | call a =>
      have hsum : total st = st.spent + (st.awaiting.map cost).sum := by
        rw [total, List.map_append, List.sum_append, hspent]
      rw [total_call, hsum]
      rw [hsum] at hbudget
      constructor
      · intro h hadmits
        have hcost : cost ⟨a, verdictOf s a st.spent⟩ = (verdictOf s a st.spent).impact :=
          if_pos hadmits
        exact .inr (hcost ▸ h)
      · intro h
        by_cases hadmits : (verdictOf s a st.spent).admits = true
        · have hcost : cost ⟨a, verdictOf s a st.spent⟩ = (verdictOf s a st.spent).impact :=
            if_pos hadmits
          rw [hcost]
          rcases h hadmits with hquiet | hroom
          · have hnone : (st.awaiting.map cost).sum = 0 := by
              refine List.sum_eq_zero fun x hx => ?_
              obtain ⟨d, hd, rfl⟩ := List.mem_map.mp hx
              exact if_neg (Bool.eq_false_iff.mp (hquiet d hd))
            rw [hnone, add_zero]
            exact (verdictOf_admits hadmits).1
          · exact hroom
        · have hcost : cost ⟨a, verdictOf s a st.spent⟩ = 0 := if_neg hadmits
          rwa [hcost, add_zero]

theorem shadowBudget_nonneg (s : Session) : 0 ≤ shadowBudget s := by
  refine le_min ?_ (le_trans zero_le_one (le_max_left _ _))
  linarith

/-- **THE ENVELOPE IS KEPT** at every point of a run exactly if every call of it is timely. -/
theorem never_overspends_iff (s : Session) (events : List Event) :
    (∀ before, before <+: events → Kept s (run s before)) ↔
      ∀ before e, before ++ [e] <+: events → Timely s (run s before) e := by
  constructor
  · intro h before e hpre
    have hbefore := h before ((List.prefix_append _ _).trans hpre)
    have hafter := h (before ++ [e]) hpre
    rw [run_concat] at hafter
    exact (budget_step_iff hbefore.gatedFree hbefore.budget e).mp hafter.budget
  · intro h before
    induction before using List.reverseRecOn with
    | nil =>
        exact fun _ => ⟨shadowBudget_nonneg s, rfl, fun d hd => (nomatch hd)⟩
    | append_singleton before e ih =>
        intro hpre
        have hbefore := ih ((List.prefix_append _ _).trans hpre)
        obtain ⟨hspent, hsound⟩ := run_sound s (before ++ [e])
        refine ⟨?_, hspent, hsound⟩
        rw [run_concat]
        exact (budget_step_iff hbefore.gatedFree hbefore.budget e).mpr (h before e hpre)

def twoDocs : Session where
  docs := ["a.md", "b.md"].map fun p =>
    ⟨p.toList, true, Frontmatter.coerce (fun _ => "")
      [("status", .str "canonical"), ("confidence", .str "high")]⟩
  tensions := []
  livePending := 0
  downstream _ _ := 0
  power := ⟨fun n => n, fun n => Nat.cast_nonneg n⟩
  log _ := 0
  toFixed _ := ""

def contest : Call := ⟨.edgeContest, "a.md".toList, "./b.md".toList, ⟨"", fun _ => 0, fun _ => 0⟩⟩

/-- **Six calls that overlap** all read that nothing has been spent, and spend six tenths. -/
theorem overlapping_overspend :
    shadowBudget twoDocs = 1 / 2 ∧
    total (run twoDocs (List.replicate 6 (.call contest))) = 6 / 10 ∧
    ¬ ∀ before, before <+: List.replicate 6 (Event.call contest) →
      Kept twoDocs (run twoDocs before) := by
  have hbudget : shadowBudget twoDocs = 1 / 2 := by decide +kernel
  have htotal : total (run twoDocs (List.replicate 6 (.call contest))) = 6 / 10 := by
    decide +kernel
  refine ⟨hbudget, htotal, fun h => ?_⟩
  have hover : total _ ≤ _ := (h _ List.prefix_rfl).budget
  exact absurd hover (by decide +kernel)

end Envelope
