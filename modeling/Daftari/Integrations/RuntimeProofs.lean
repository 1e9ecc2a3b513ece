import Daftari.Lib.FairRunsProofs
import Mathlib.Data.List.Count

/-! # The integration runtime — wake-ups and the coalescing loop

    `runOnce` starts a loop of cycles, or asks the loop in flight for one more. The loop reads the
    request once a cycle has ended, but the promise that says a loop is in flight is cleared two
    microtasks after the loop has been left.

    * `State.step?`: the timer, the webhook wake, `close`, and the microtasks of a loop, one by one;
    * `wakeups_answered`: **one cycle runs at a time, and where no step drops a request every call
      is followed by a full cycle that begins after it**. -/

namespace IntegrationRuntime

/-! ## The runtime -/

/-- How far the function that `runOnce` calls has come, and what is attached to it. -/
inductive Phase where
  /-- `await cycle()`. -/
  | cycling
  /-- The cycle's promise is settled; the rest of the loop is queued. -/
  | settled (threw : Bool)
  /-- The loop is left; the `.catch` reaction is queued. -/
  | left (threw : Bool)
  /-- The `.finally` reaction is queued. -/
  | handled
deriving DecidableEq

/-- The runtime's variables, the loops whose `.finally` has not run, the microtasks
    that `wake` has queued, and the cycles begun and ended so far. -/
structure State where
  started : Bool
  closing : Bool
  interval : Bool
  /-- `currentCycle` is not `undefined`. -/
  currentCycle : Bool
  rerunRequested : Bool
  loops : List Phase
  wakes : Nat
  errors : List String
  begun : Nat
  ended : Nat
deriving DecidableEq

/-- A runtime that has just been built. -/
def State.created : State where
  started := false
  closing := false
  interval := false
  currentCycle := false
  rerunRequested := false
  loops := []
  wakes := 0
  errors := []
  begun := 0
  ended := 0

/-- `runOnce`: a loop begins with its first cycle at once. -/
def State.runOnce (s : State) : State :=
  if s.started = false ∨ s.closing = true then s
  else if s.currentCycle then { s with rerunRequested := true }
  else
    { s with
      currentCycle := true
      rerunRequested := false
      loops := s.loops ++ [.cycling]
      begun := s.begun + 1 }

/-- The loop after its `await`: a throw leaves it, and so does its test. -/
def State.resume (s : State) (i : Nat) (threw : Bool) : State :=
  if threw then { s with loops := s.loops.set i (.left true) }
  else if s.rerunRequested = true ∧ s.closing = false then
    { s with
      rerunRequested := false
      loops := s.loops.set i .cycling
      begun := s.begun + 1 }
  else { s with loops := s.loops.set i (.left false) }

/-- The `.catch` reaction. -/
def State.caught (s : State) (i : Nat) (threw : Bool) : State :=
  { s with
    loops := s.loops.set i .handled
    errors := if threw then s.errors ++ ["integration cycle failed"] else s.errors }

/-- Who calls `runOnce`. -/
inductive Caller where
  | owner
  | timer
  /-- The microtask that a webhook's `wake` has queued. -/
  | woken
deriving DecidableEq

inductive Action where
  /-- `start`, where it returns no error. -/
  | start
  | call (caller : Caller)
  | wake
  | close
  /-- A cycle returns or throws. -/
  | settle (i : Nat) (threw : Bool)
  | resume (i : Nat)
  | caught (i : Nat)
  /-- The `.finally` reaction. -/
  | cleared (i : Nat)
  /-- Anything else the process does. -/
  | other
deriving DecidableEq

def State.ready (s : State) : Caller → Bool
  | .owner => true
  | .timer => s.interval
  | .woken => s.wakes ≠ 0

def State.turn (s : State) : Caller → State
  | .woken => { s with wakes := s.wakes - 1 }
  | _ => s

/-- One step; `none` where the action does not fit the state. -/
@[grind =] def State.step? (s : State) : Action → Option State
  | .start =>
      if s.started = true ∨ s.closing = true then none
      else some ({ s with closing := false, started := true, interval := true }).runOnce
  | .call caller => if s.ready caller then some (s.turn caller).runOnce else none
  | .wake =>
      if s.closing = true ∨ s.started = false then some s
      else some { s with wakes := s.wakes + 1 }
  | .close =>
      some { s with closing := true, started := false, rerunRequested := false, interval := false }
  | .settle i threw =>
      match s.loops[i]? with
      | some .cycling =>
          some { s with loops := s.loops.set i (.settled threw), ended := s.ended + 1 }
      | _ => none
  | .resume i =>
      match s.loops[i]? with
      | some (.settled threw) => some (s.resume i threw)
      | _ => none
  | .caught i =>
      match s.loops[i]? with
      | some (.left threw) => some (s.caught i threw)
      | _ => none
  | .cleared i =>
      match s.loops[i]? with
      | some .handled => some { s with currentCycle := false, loops := s.loops.eraseIdx i }
      | _ => none
  | .other => some s

def machine : Machine State Action where
  enabled s a := (s.step? a).isSome = true
  next s a := (s.step? a).getD s

instance (s : State) (a : Action) : Decidable (machine.enabled s a) :=
  inferInstanceAs (Decidable ((s.step? a).isSome = true))

abbrev Run := machine.Run .created

/-! ## What is asked of it -/

/-- The step makes a `runOnce` call while the runtime is started and not closing. -/
def Calls (s : State) : Action → Prop
  | .start => True
  | .call _ => s.started = true ∧ s.closing = false
  | _ => False

/-- The action is a step of a cycle's end, of a loop or of its handlers. -/
def OfLoop : Action → Prop
  | .settle _ _ | .resume _ | .caught _ | .cleared _ => True
  | _ => False

/-- No cycle runs for ever, and queued microtasks are run. -/
def Fair (run : Run) : Prop :=
  ∀ n, (run.state n).loops ≠ [] → ∃ m ≥ n, OfLoop (run.act m)

def State.running (s : State) : Nat := s.loops.count .cycling

/-- A cycle begins with step `n` or later and runs to its end. -/
def Answered (run : Run) (n : Nat) : Prop :=
  ∃ m ≥ n, ∃ k, (run.state m).begun < (run.state (m + 1)).begun
    ∧ (run.state (m + 1)).begun ≤ (run.state k).ended

/-- The step drops no request: no call finds a loop that has been left and is not cleared or a cycle
    that has thrown, and neither a throw nor `close` finds a request that has not been read. -/
def KeepsWake (s : State) : Action → Prop
  | .call _ =>
      s.started = true ∧ s.closing = false → ∀ p ∈ s.loops, p = .cycling ∨ p = .settled false
  | .close => s.rerunRequested = false
  | .settle _ threw => threw = true → s.rerunRequested = false
  | _ => True

instance (s : State) : (a : Action) → Decidable (KeepsWake s a)
  | .call _ => inferInstanceAs (Decidable (_ ∧ _ → ∀ p ∈ s.loops, _ ∨ _))
  | .close => inferInstanceAs (Decidable (_ = false))
  | .settle _ _ => inferInstanceAs (Decidable (_ = true → _ = false))
  | .start | .wake | .resume _ | .caught _ | .cleared _ | .other =>
      inferInstanceAs (Decidable True)

/-! ## The steps -/

section Steps

variable {s : State} {a : Action} {p : Phase}

theorem runOnce_cases (s : State) :
    ((s.started = false ∨ s.closing = true) ∧ s.runOnce = s)
      ∨ (s.started = true ∧ s.closing = false ∧ s.currentCycle = true
        ∧ s.runOnce = { s with rerunRequested := true })
      ∨ (s.started = true ∧ s.closing = false ∧ s.currentCycle = false
        ∧ s.runOnce = { s with
          currentCycle := true, rerunRequested := false,
          loops := s.loops ++ [.cycling], begun := s.begun + 1 }) := by
  unfold State.runOnce
  by_cases hshut : s.started = false ∨ s.closing = true
  · exact Or.inl ⟨hshut, if_pos hshut⟩
  · rw [if_neg hshut]
    obtain ⟨hstarted, hclosing⟩ := not_or.mp hshut
    rw [Bool.not_eq_false] at hstarted
    rw [Bool.not_eq_true] at hclosing
    by_cases hcurrent : s.currentCycle = true
    · exact Or.inr (Or.inl ⟨hstarted, hclosing, hcurrent, if_pos hcurrent⟩)
    · exact Or.inr (Or.inr ⟨hstarted, hclosing, by simpa using hcurrent, if_neg hcurrent⟩)

theorem loop_cases (ha : OfLoop a) (henabled : machine.enabled s a) (hp : s.loops = [p]) :
    (∃ threw, p = .cycling ∧ a = .settle 0 threw
      ∧ machine.next s a = { s with loops := [.settled threw], ended := s.ended + 1 })
      ∨ (∃ threw, p = .settled threw ∧ a = .resume 0 ∧ machine.next s a = s.resume 0 threw)
      ∨ (∃ threw, p = .left threw ∧ a = .caught 0 ∧ machine.next s a = s.caught 0 threw)
      ∨ (p = .handled ∧ a = .cleared 0
        ∧ machine.next s a = { s with currentCycle := false, loops := [] }) := by
  have hzero : ∀ i q, s.loops[i]? = some q → i = 0 ∧ q = p := by
    intro i q h
    rw [hp] at h
    cases i with
    | zero => exact ⟨rfl, (Option.some.inj h).symm⟩
    | succ i => cases h
  change ((s.step? a).isSome = true) at henabled
  cases a with
  | settle i threw =>
      simp only [State.step?] at henabled
      split at henabled
      case h_2 => cases henabled
      case h_1 hi =>
        obtain ⟨rfl, rfl⟩ := hzero i _ hi
        refine Or.inl ⟨threw, rfl, rfl, ?_⟩
        simp only [machine, State.step?, hp, List.getElem?_cons_zero, List.set_cons_zero,
          Option.getD_some]
  | resume i =>
      simp only [State.step?] at henabled
      split at henabled
      case h_2 => cases henabled
      case h_1 threw hi =>
        obtain ⟨rfl, rfl⟩ := hzero i _ hi
        refine Or.inr (Or.inl ⟨threw, rfl, rfl, ?_⟩)
        simp only [machine, State.step?, hp, List.getElem?_cons_zero, Option.getD_some]
  | caught i =>
      simp only [State.step?] at henabled
      split at henabled
      case h_2 => cases henabled
      case h_1 threw hi =>
        obtain ⟨rfl, rfl⟩ := hzero i _ hi
        refine Or.inr (Or.inr (Or.inl ⟨threw, rfl, rfl, ?_⟩))
        simp only [machine, State.step?, hp, List.getElem?_cons_zero, Option.getD_some]
  | cleared i =>
      simp only [State.step?] at henabled
      split at henabled
      case h_2 => cases henabled
      case h_1 hi =>
        obtain ⟨rfl, rfl⟩ := hzero i _ hi
        refine Or.inr (Or.inr (Or.inr ⟨rfl, rfl, ?_⟩))
        simp only [machine, State.step?, hp, List.getElem?_cons_zero, List.eraseIdx_cons_zero,
          Option.getD_some]
  | start | call _ | wake | close | other => exact absurd ha id

theorem not_ofLoop_of_nil (henabled : machine.enabled s a) (hnil : s.loops = []) : ¬ OfLoop a := by
  intro ha
  change ((s.step? a).isSome = true) at henabled
  cases a with
  | settle i threw | resume i | caught i | cleared i =>
      simp only [State.step?, hnil, List.getElem?_nil] at henabled
      cases henabled
  | start | call _ | wake | close | other => exact ha

theorem next_call {caller : Caller} (henabled : machine.enabled s (.call caller)) :
    machine.next s (.call caller) = (s.turn caller).runOnce := by
  change ((s.step? (.call caller)).isSome = true) at henabled
  simp only [State.step?] at henabled
  split at henabled
  case isTrue hready =>
    simp only [machine, State.step?, hready, if_true, Option.getD_some]
  case isFalse => cases henabled

theorem next_start (henabled : machine.enabled s .start) :
    s.started = false ∧ s.closing = false ∧ machine.next s .start
      = ({ s with closing := false, started := true, interval := true } : State).runOnce := by
  change ((s.step? .start).isSome = true) at henabled
  simp only [State.step?] at henabled
  split at henabled
  case isTrue => cases henabled
  case isFalse hnot =>
    obtain ⟨hstarted, hclosing⟩ := not_or.mp hnot
    refine ⟨by simpa using hstarted, by simpa using hclosing, ?_⟩
    simp only [machine, State.step?, hnot, if_false, Option.getD_some]

theorem next_wake (s : State) : ∃ n, machine.next s .wake = { s with wakes := n } := by
  simp only [machine, State.step?]
  split
  · exact ⟨s.wakes, rfl⟩
  · exact ⟨s.wakes + 1, rfl⟩

end Steps

theorem exists_turn (s : State) (caller : Caller) : ∃ n, s.turn caller = { s with wakes := n } := by
  cases caller with
  | owner | timer => exact ⟨s.wakes, rfl⟩
  | woken => exact ⟨s.wakes - 1, rfl⟩

/-! ## One loop at a time -/

/-- At most one loop is in flight, `currentCycle` says whether, and the cycles that
    have begun and not ended are those that run. -/
structure Inv (s : State) : Prop where
  shape : (s.loops = [] ∧ s.currentCycle = false) ∨ ∃ p, s.loops = [p] ∧ s.currentCycle = true
  opened : s.loops ≠ [] → s.started = true ∨ s.closing = true
  counted : s.begun = s.ended + s.running

theorem Inv.created : Inv .created where
  shape := Or.inl ⟨rfl, rfl⟩
  opened h := absurd rfl h
  counted := rfl

theorem Inv.runOnce {s : State} (h : Inv s) : Inv s.runOnce := by
  rcases runOnce_cases s with ⟨-, hs⟩ | ⟨-, -, -, hs⟩ | ⟨hstarted, -, hcurrent, hs⟩
  · rwa [hs]
  · rw [hs]
    exact ⟨h.shape, h.opened, h.counted⟩
  · obtain ⟨hnil, -⟩ | ⟨p, -, htrue⟩ := h.shape
    · have hcount := h.counted
      rw [hs]
      refine ⟨Or.inr ⟨.cycling, ?_, rfl⟩, fun _ => Or.inl hstarted, ?_⟩
      · rw [hnil]
        rfl
      · simp only [State.running, hnil] at hcount ⊢
        simpa using hcount
    · rw [hcurrent] at htrue
      cases htrue

theorem Inv.resume {s : State} (h : Inv s) {threw : Bool} (hp : s.loops = [.settled threw]) :
    Inv (s.resume 0 threw) := by
  have hcurrent : s.currentCycle = true := by
    obtain ⟨hnil, -⟩ | ⟨p, -, htrue⟩ := h.shape
    · rw [hp] at hnil
      cases hnil
    · exact htrue
  have hopened := h.opened (by rw [hp]; exact List.cons_ne_nil _ _)
  have hcount := h.counted
  unfold State.resume
  cases threw with
  | true =>
      refine ⟨Or.inr ⟨.left true, ?_, hcurrent⟩, fun _ => hopened, ?_⟩
      · simp [hp]
      · simpa [State.running, hp] using hcount
  | false =>
      by_cases hrerun : s.rerunRequested = true ∧ s.closing = false
      · simp only [Bool.false_eq_true, if_false, if_pos hrerun]
        refine ⟨Or.inr ⟨.cycling, ?_, hcurrent⟩, fun _ => hopened, ?_⟩
        · simp [hp]
        · simpa [State.running, hp] using hcount
      · simp only [Bool.false_eq_true, if_false, if_neg hrerun]
        refine ⟨Or.inr ⟨.left false, ?_, hcurrent⟩, fun _ => hopened, ?_⟩
        · simp [hp]
        · simpa [State.running, hp] using hcount

/-- **Every step keeps the invariant.** -/
theorem Inv.step {s : State} {a : Action} (h : Inv s) (henabled : machine.enabled s a) :
    Inv (machine.next s a) := by
  by_cases ha : OfLoop a
  · obtain ⟨hnil, -⟩ | ⟨p, hp, hcurrent⟩ := h.shape
    · exact absurd ha (not_ofLoop_of_nil henabled hnil)
    have hopened := h.opened (by rw [hp]; exact List.cons_ne_nil _ _)
    have hcount := h.counted
    simp only [State.running, hp] at hcount
    rcases loop_cases ha henabled hp with ⟨threw, rfl, -, hs⟩ | ⟨threw, rfl, -, hs⟩
      | ⟨threw, rfl, -, hs⟩ | ⟨rfl, -, hs⟩
    · rw [hs]
      refine ⟨Or.inr ⟨_, rfl, hcurrent⟩, fun _ => hopened, ?_⟩
      simpa [State.running] using hcount
    · rw [hs]
      exact h.resume hp
    · rw [hs]
      refine ⟨Or.inr ⟨.handled, ?_, hcurrent⟩, fun _ => hopened, ?_⟩
      · simp [State.caught, hp]
      · simpa [State.running, State.caught, hp] using hcount
    · rw [hs]
      refine ⟨Or.inl ⟨rfl, rfl⟩, fun hne => absurd rfl hne, ?_⟩
      simpa [State.running] using hcount
  · cases a with
    | start =>
        obtain ⟨-, -, hs⟩ := next_start henabled
        rw [hs]
        refine Inv.runOnce ⟨h.shape, fun _ => Or.inl rfl, h.counted⟩
    | call caller =>
        obtain ⟨n, hturn⟩ := exists_turn s caller
        rw [next_call henabled, hturn]
        exact Inv.runOnce ⟨h.shape, h.opened, h.counted⟩
    | wake =>
        obtain ⟨n, hs⟩ := next_wake s
        rw [hs]
        exact ⟨h.shape, h.opened, h.counted⟩
    | close => exact ⟨h.shape, fun _ => Or.inr rfl, h.counted⟩
    | other => exact h
    | settle _ _ | resume _ | caught _ | cleared _ => exact absurd trivial ha

theorem Inv.running_le {s : State} (h : Inv s) : s.running ≤ 1 := by
  unfold State.running
  obtain ⟨hnil, -⟩ | ⟨p, hp, -⟩ := h.shape
  · rw [hnil]
    exact Nat.zero_le _
  · rw [hp]
    exact List.count_le_length

theorem inv_of_run (run : Run) (n : Nat) : Inv (run.state n) :=
  run.invariant Inv.created (fun n h => h.step (run.enabled n)) n

/-! ## A request is read -/

section Requests

variable {s : State} {a : Action}

/-- The loop in flight has come to `p`, and the request will be read at its next test. -/
structure Waiting (p : Phase) (s : State) : Prop where
  requested : s.rerunRequested = true
  opened : s.closing = false
  stands : s.loops = [p]

theorem runOnce_of_loop (h : Inv s) (hne : s.loops ≠ []) :
    s.runOnce = s ∨ s.runOnce = { s with rerunRequested := true } := by
  rcases runOnce_cases s with ⟨-, hs⟩ | ⟨-, -, -, hs⟩ | ⟨-, -, hcurrent, -⟩
  · exact Or.inl hs
  · exact Or.inr hs
  · obtain ⟨hnil, -⟩ | ⟨p, -, htrue⟩ := h.shape
    · exact absurd hnil hne
    · rw [hcurrent] at htrue
      cases htrue

/-- While a loop is in flight, what is not a step of it sets the request, queues or
    takes a microtask, or closes the runtime. -/
theorem next_of_other (h : Inv s) (ha : ¬ OfLoop a) (henabled : machine.enabled s a)
    (hne : s.loops ≠ []) : (∃ r n, (r = s.rerunRequested ∨ r = true)
      ∧ machine.next s a = { s with rerunRequested := r, wakes := n }) ∨ a = .close := by
  cases a with
  | start =>
      obtain ⟨hstarted, hclosing, -⟩ := next_start henabled
      rcases h.opened hne with hopen | hopen
      · rw [hstarted] at hopen
        cases hopen
      · rw [hclosing] at hopen
        cases hopen
  | call caller =>
      obtain ⟨n, hturn⟩ := exists_turn s caller
      have hinv : Inv { s with wakes := n } := ⟨h.shape, h.opened, h.counted⟩
      rw [next_call henabled, hturn]
      rcases runOnce_of_loop hinv hne with hs | hs
      · exact Or.inl ⟨_, n, Or.inl rfl, hs⟩
      · exact Or.inl ⟨true, n, Or.inr rfl, hs⟩
  | wake =>
      obtain ⟨n, hs⟩ := next_wake s
      exact Or.inl ⟨_, n, Or.inl rfl, hs⟩
  | close => exact Or.inr rfl
  | other => exact Or.inl ⟨_, _, Or.inl rfl, rfl⟩
  | settle _ _ | resume _ | caught _ | cleared _ => exact absurd trivial ha

theorem frame_of_other (h : Inv s) (ha : ¬ OfLoop a) (henabled : machine.enabled s a)
    (hne : s.loops ≠ []) :
    (machine.next s a).loops = s.loops ∧ (machine.next s a).begun = s.begun := by
  rcases next_of_other h ha henabled hne with ⟨r, n, -, hs⟩ | rfl
  · rw [hs]
    exact ⟨rfl, rfl⟩
  · exact ⟨rfl, rfl⟩

theorem Waiting.other {p : Phase} (hw : Waiting p s) (h : Inv s) (ha : ¬ OfLoop a)
    (henabled : machine.enabled s a) (hkeep : KeepsWake s a) : Waiting p (machine.next s a) := by
  have hne : s.loops ≠ [] := by
    rw [hw.stands]
    exact List.cons_ne_nil _ _
  rcases next_of_other h ha henabled hne with ⟨r, n, hr, hs⟩ | rfl
  · rw [hs]
    refine ⟨?_, hw.opened, hw.stands⟩
    rcases hr with rfl | rfl
    · exact hw.requested
    · rfl
  · have hnone : s.rerunRequested = false := hkeep
    rw [hw.requested] at hnone
    cases hnone

/-- **A call begins a cycle or is heard**, unless the loop in flight has been left. -/
theorem call_heard (h : Inv s) (henabled : machine.enabled s a) (hkeep : KeepsWake s a)
    (hcall : Calls s a) :
    (s.begun < (machine.next s a).begun ∧ (machine.next s a).loops = [.cycling])
      ∨ Waiting .cycling (machine.next s a) ∨ Waiting (.settled false) (machine.next s a) := by
  cases a with
  | start =>
      obtain ⟨hstarted, hclosing, hs⟩ := next_start henabled
      have hnil : s.loops = [] := by
        by_contra hne
        rcases h.opened hne with hopen | hopen
        · rw [hstarted] at hopen
          cases hopen
        · rw [hclosing] at hopen
          cases hopen
      have hcurrent : s.currentCycle = false := by
        obtain ⟨-, hfalse⟩ | ⟨p, hp, -⟩ := h.shape
        · exact hfalse
        · rw [hnil] at hp
          cases hp
      rw [hs]
      simp [State.runOnce, hcurrent, hnil]
  | call caller =>
      obtain ⟨n, hturn⟩ := exists_turn s caller
      have hopen : s.started = true ∧ s.closing = false := hcall
      have hstarted := hopen.1
      have hclosing := hopen.2
      rw [next_call henabled, hturn]
      obtain ⟨hnil, hcurrent⟩ | ⟨p, hp, hcurrent⟩ := h.shape
      · refine Or.inl ?_
        simp [State.runOnce, hstarted, hclosing, hcurrent, hnil]
      · refine Or.inr ?_
        have hphase := hkeep hopen p (by rw [hp]; exact List.mem_singleton_self p)
        have hs : ({ s with wakes := n } : State).runOnce
            = { s with wakes := n, rerunRequested := true } := by
          simp [State.runOnce, hstarted, hclosing, hcurrent]
        rw [hs]
        rcases hphase with rfl | rfl
        · exact Or.inl ⟨rfl, hclosing, hp⟩
        · exact Or.inr ⟨rfl, hclosing, hp⟩
  | wake | close | other | settle _ _ | resume _ | caught _ | cleared _ => exact absurd hcall id

end Requests

/-! ## Every call is answered -/

section Answers

variable {run : Run} (hfair : Fair run)

include hfair

theorem waits (hkeep : ∀ n, KeepsWake (run.state n) (run.act n)) {p : Phase} {n : Nat}
    (hw : Waiting p (run.state n)) : ∃ m ≥ n, Waiting p (run.state m) ∧ OfLoop (run.act m) := by
  have hne : (run.state n).loops ≠ [] := by
    rw [hw.stands]
    exact List.cons_ne_nil _ _
  exact run.eventually (hfair n hne)
    (fun k hk ha => hk.other (inv_of_run run k) ha (run.enabled k) (hkeep k)) hw

theorem read_at_test (hkeep : ∀ n, KeepsWake (run.state n) (run.act n)) {n : Nat}
    (hw : Waiting (.settled false) (run.state n)) :
    ∃ m ≥ n, (run.state m).begun < (run.state (m + 1)).begun
      ∧ (run.state (m + 1)).loops = [.cycling] := by
  obtain ⟨m, hm, hw, ha⟩ := waits hfair hkeep hw
  refine ⟨m, hm, ?_⟩
  rw [run.steps]
  rcases loop_cases ha (run.enabled m) hw.stands with ⟨threw, hp, -⟩ | ⟨threw, hp, -, hs⟩
    | ⟨threw, hp, -⟩ | ⟨hp, -⟩
  · cases hp
  · cases hp
    rw [hs]
    simp [State.resume, hw.requested, hw.opened, hw.stands]
  · cases hp
  · cases hp

theorem read_request (hkeep : ∀ n, KeepsWake (run.state n) (run.act n)) {n : Nat}
    (hw : Waiting .cycling (run.state n)) : ∃ m ≥ n, (run.state m).begun < (run.state (m + 1)).begun
      ∧ (run.state (m + 1)).loops = [.cycling] := by
  obtain ⟨m, hm, hw, ha⟩ := waits hfair hkeep hw
  have hnext : Waiting (.settled false) (run.state (m + 1)) := by
    rw [run.steps]
    rcases loop_cases ha (run.enabled m) hw.stands with ⟨threw, -, hact, hs⟩ | ⟨threw, hp, -⟩
      | ⟨threw, hp, -⟩ | ⟨hp, -⟩
    · have hthrew : threw = true → (run.state m).rerunRequested = false := by
        have hk := hkeep m
        rwa [hact] at hk
      cases threw with
      | true =>
          have hnone := hthrew rfl
          rw [hw.requested] at hnone
          cases hnone
      | false =>
          rw [hs]
          exact ⟨hw.requested, hw.opened, rfl⟩
    · cases hp
    · cases hp
    · cases hp
  obtain ⟨k, hk, hbegins⟩ := read_at_test hfair hkeep hnext
  exact ⟨k, Nat.le_trans (Nat.le_succ_of_le hm) hk, hbegins⟩

theorem cycle_ends {n : Nat} (hloops : (run.state n).loops = [.cycling]) :
    ∃ k, (run.state n).begun ≤ (run.state k).ended := by
  have hne : (run.state n).loops ≠ [] := by
    rw [hloops]
    exact List.cons_ne_nil _ _
  obtain ⟨m, -, ⟨hloops', hbegun⟩, ha⟩ := run.eventually
    (P := fun s => s.loops = [.cycling] ∧ s.begun = (run.state n).begun) (hfair n hne)
    (fun k hk ha => by
      obtain ⟨h₁, h₂⟩ := frame_of_other (inv_of_run run k) ha (run.enabled k)
        (by rw [hk.1]; exact List.cons_ne_nil _ _)
      exact ⟨h₁.trans hk.1, h₂.trans hk.2⟩) ⟨hloops, rfl⟩
  refine ⟨m + 1, ?_⟩
  have hcount := (inv_of_run run m).counted
  rw [run.steps]
  rcases loop_cases ha (run.enabled m) hloops' with ⟨threw, -, -, hs⟩ | ⟨threw, hp, -⟩
    | ⟨threw, hp, -⟩ | ⟨hp, -⟩
  · rw [hs]
    simp only [State.running, hloops', List.count_singleton_self] at hcount
    exact Nat.le_of_eq (hbegun.symm.trans hcount)
  · cases hp
  · cases hp
  · cases hp

end Answers

/-- **No wake-up is lost, and one cycle runs at a time**, in a run in which no step
    drops a request. -/
theorem wakeups_answered (run : Run) :
    (∀ n, (run.state n).running ≤ 1)
      ∧ (Fair run → (∀ n, KeepsWake (run.state n) (run.act n)) →
        ∀ n, Calls (run.state n) (run.act n) → Answered run n) := by
  refine ⟨fun n => (inv_of_run run n).running_le, fun hfair hkeep n hcall => ?_⟩
  have hbegins : ∃ m ≥ n, (run.state m).begun < (run.state (m + 1)).begun
      ∧ (run.state (m + 1)).loops = [.cycling] := by
    have hheard := call_heard (inv_of_run run n) (run.enabled n) (hkeep n) hcall
    rw [← run.steps] at hheard
    rcases hheard with hnow | hw | hw
    · exact ⟨n, Nat.le_refl n, hnow⟩
    · obtain ⟨m, hm, h⟩ := read_request hfair hkeep hw
      exact ⟨m, Nat.le_of_succ_le hm, h⟩
    · obtain ⟨m, hm, h⟩ := read_at_test hfair hkeep hw
      exact ⟨m, Nat.le_of_succ_le hm, h⟩
  obtain ⟨m, hm, hbegun, hloops⟩ := hbegins
  obtain ⟨k, hk⟩ := cycle_ends hfair hloops
  exact ⟨m, hm, k, hbegun, hk⟩

/-! ## Runs that end at rest -/

/-- The run of a schedule after which the process does other things. -/
def runOf (as : List Action) (h : ∀ n < as.length, machine.enabled
      (machine.after .created (fun n => as.getD n .other) n) (as.getD n .other)) : Run :=
  Machine.Run.ofList machine .created as .other (fun _ => rfl) h

section Rest

variable {as : List Action} {h : ∀ n < as.length, machine.enabled
  (machine.after .created (fun n => as.getD n .other) n) (as.getD n .other)}

theorem runOf_state {n : Nat} (hn : as.length ≤ n) :
    (runOf as h).state n = (runOf as h).state as.length :=
  Machine.Run.ofList_state (fun _ => rfl) hn

theorem fair_runOf (hlast : OfLoop (as.getD (as.length - 1) .other))
    (hrest : ((runOf as h).state as.length).loops = []) : Fair (runOf as h) := by
  intro n hne
  by_cases hn : n < as.length
  · exact ⟨as.length - 1, Nat.le_sub_one_of_lt hn, hlast⟩
  · rw [runOf_state (Nat.not_lt.mp hn)] at hne
    exact absurd hrest hne

theorem not_answered_runOf {n : Nat} (hnone : ∀ m < as.length, n ≤ m →
      ¬ ((runOf as h).state m).begun < ((runOf as h).state (m + 1)).begun) :
    ¬ Answered (runOf as h) n := by
  rintro ⟨m, hm, k, hbegun, -⟩
  by_cases hlt : m < as.length
  · exact hnone m hlt hm hbegun
  · have hle := Nat.not_lt.mp hlt
    rw [runOf_state hle, runOf_state (Nat.le_succ_of_le hle)] at hbegun
    exact Nat.lt_irrefl _ hbegun

end Rest

def coalesced : Run :=
  runOf [.start, .call .owner, .settle 0 false, .resume 0, .settle 0 false, .resume 0, .caught 0,
    .cleared 0] (by decide)

/-- Where no step drops a request, a coalesced call has its cycle. -/
theorem wakeups_answered_coalesced : Answered coalesced 1 := by
  refine (wakeups_answered coalesced).2 (fair_runOf trivial rfl) (fun n => ?_) 1 ⟨rfl, rfl⟩
  by_cases hn : n < 8
  · revert n
    decide
  · rw [show coalesced.act n = .other from List.getD_eq_default _ _ (Nat.not_lt.mp hn)]
    trivial

def NoWakeLost : Prop :=
  ∀ run : Run, (∀ n, (run.state n).running ≤ 1)
    ∧ (Fair run → ∀ n, Calls (run.state n) (run.act n) → Answered run n)

/-- A webhook's wake whose microtask runs after the loop's last test and before the handlers. -/
def wokenLate : Run :=
  runOf [.start, .settle 0 false, .wake, .resume 0, .call .woken, .caught 0, .cleared 0]
    (by decide)

/-- The wake is followed by no cycle. -/
theorem wake_dropped : ¬ NoWakeLost := by
  intro h
  have hanswered := (h wokenLate).2 (fair_runOf trivial rfl) 4 ⟨rfl, rfl⟩
  exact not_answered_runOf (by decide) hanswered

end IntegrationRuntime
