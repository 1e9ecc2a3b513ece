import Daftari.Lib.MachineProofs
import Mathlib.Data.List.Basic

/-! # Request slots — three ways in, and three ways of giving a slot back

    `serve/index.ts` and `serve/limits.ts`.  A request to `/mcp` gives its slot back in a
    `finally`, a public callback by a closure that works once, and an integration request when
    its response emits 'finish' or 'close', for which it listens from its admission on.  The
    client may be gone by then.

    * `SlotGate`, `act`: the gates, and what one event does to a request and its gate;
    * `slots_come_back_iff`: **every slot is accounted for exactly in the runs in which no
      integration request is admitted after its response has closed.** -/

namespace Slots

/-! ## Gates -/

structure SlotGate where
  inFlight : Nat
  max : Nat
deriving DecidableEq

def makeSlotGate (max : Nat) : SlotGate := ⟨0, max⟩

/-- `tryAcquireSlot`: the gate with one more in flight, if there is room. -/
def tryAcquireSlot (gate : SlotGate) : Option SlotGate :=
  if gate.max ≤ gate.inFlight then none else some { gate with inFlight := gate.inFlight + 1 }

/-- `releaseSlot`; `Math.max(0, …)` is subtraction on natural numbers. -/
def releaseSlot (gate : SlotGate) : SlotGate := { gate with inFlight := gate.inFlight - 1 }

/-- The gates: `slotGate`, and one for each path of `publicIntegrationSlotGates`, which is made
    when the path is first asked for. -/
abbrev Gate := Option String

def startGates (maxInFlight : Nat) : Gate → SlotGate
  | none => makeSlotGate maxInFlight
  | some _ => makeSlotGate (max 2 ((maxInFlight + 3) / 4))

/-! ## Requests -/

/-- How a request gets in. -/
inductive Kind where
  | mcp
  | integration
  | callback (path : String)
deriving DecidableEq

def Kind.gate : Kind → Gate
  | .callback path => some path
  | _ => none

/-- How far the handler of a request is; `refused` has written its refusal, or has thrown,
    before it took a slot. -/
inductive Phase where
  | waiting
  | refused
  | running
  | done
deriving DecidableEq

/-- A response: what has happened to it, and whether `release` listens for its events. -/
structure Response where
  ended : Bool
  finished : Bool
  closed : Bool
  onFinish : Bool
  onClose : Bool
deriving DecidableEq

/-- A request.  `released` is the variable of its closure; how often it was given a slot and
    called `releaseSlot` is counted beside. -/
structure Request where
  kind : Kind
  phase : Phase
  response : Response
  released : Bool
  acquires : Nat
  releases : Nat
deriving DecidableEq

def newRequest (kind : Kind) : Request :=
  ⟨kind, .waiting, ⟨false, false, false, false, false⟩, false, 0, 0⟩

/-- The handler is past the gate. -/
def Request.admitted (r : Request) : Bool := r.phase = .running || r.phase = .done

/-- A request is over: the handler of a call or a callback has returned, and the response of an
    integration request, to which its slot is tied, has finished or closed. -/
def Request.over (r : Request) : Bool :=
  match r.kind with
  | .integration => r.response.finished || r.response.closed
  | _ => r.phase = .done || r.phase = .refused

def Request.unfinished (r : Request) : Bool := r.admitted && !r.over

/-! ## What an event does -/

inductive Step where
  /-- A refusal before the gate, or an exception while something is awaited. -/
  | refuse
  /-- Authenticated and under its rate: the request asks for a slot. -/
  | enter
  /-- `res.end`. -/
  | respond
  | return_
  | throw_
  | finish
  | close
deriving DecidableEq

def Step.enabled (r : Request) : Step → Bool
  | .refuse | .enter => r.phase = .waiting
  | .respond | .return_ | .throw_ => r.phase = .running
  | .finish => r.response.ended && !r.response.finished && !r.response.closed
  | .close => !r.response.closed

/-- `res.end` of a handler that is refusing. -/
def Request.refuse (r : Request) : Request :=
  { r with phase := .refused, response := { r.response with ended := true } }

/-- A slot is taken; `authorize` then listens for both events. -/
def Request.enter (r : Request) : Request :=
  match r.kind with
  | .integration =>
      { r with
        phase := .running
        acquires := r.acquires + 1
        response := { r.response with onFinish := true, onClose := true } }
  | _ => { r with phase := .running, acquires := r.acquires + 1 }

/-- The closure of `authorize` and of `admitPublic`. -/
def Request.release (r : Request) (gate : SlotGate) : Request × SlotGate :=
  if r.released then (r, gate)
  else ({ r with released := true, releases := r.releases + 1 }, releaseSlot gate)

/-- The end of a handler, with its `finally`. -/
def Request.settle (r : Request) (gate : SlotGate) : Request × SlotGate :=
  match r.kind with
  | .mcp => ({ r with phase := .done, releases := r.releases + 1 }, releaseSlot gate)
  | .callback _ => { r with phase := .done : Request }.release gate
  | .integration => ({ r with phase := .done }, gate)

/-- `emit`: the response as it is then, and the closure if it listens. -/
def Request.hear (r : Request) (emitted : Response) (listening : Bool) (gate : SlotGate) :
    Request × SlotGate :=
  let heard := { r with response := emitted }
  if listening then heard.release gate else (heard, gate)

/-- 'finish', for which the closure listens `once`. -/
def Request.finish (r : Request) (gate : SlotGate) : Request × SlotGate :=
  r.hear { r.response with finished := true, onFinish := false } r.response.onFinish gate

def Request.close (r : Request) (gate : SlotGate) : Request × SlotGate :=
  r.hear { r.response with closed := true, onClose := false } r.response.onClose gate

/-- What a step does to the request and to its gate. -/
def act (r : Request) (gate : SlotGate) : Step → Request × SlotGate
  | .refuse => (r.refuse, gate)
  | .enter =>
      match tryAcquireSlot gate with
      | none => (r.refuse, gate)
      | some taken => (r.enter, taken)
  | .respond => ({ r with response := { r.response with ended := true } }, gate)
  | .return_ => r.settle gate
  -- the catch around every handler writes a 500, or ends what was begun
  | .throw_ => { r with response := { r.response with ended := true } : Request }.settle gate
  | .finish => r.finish gate
  | .close => r.close gate

/-! ## The server -/

/-- The gates and all requests so far. -/
structure Server where
  gates : Gate → SlotGate
  requests : List Request

def fresh (maxInFlight : Nat) : Server := ⟨startGates maxInFlight, []⟩

/-- A request comes in, or something happens to one. -/
inductive Event where
  | arrive (kind : Kind)
  | step (i : Nat) (a : Step)
deriving DecidableEq

def Server.put (s : Server) (i : Nat) (after : Request × SlotGate) : Server :=
  ⟨Function.update s.gates after.1.kind.gate after.2, s.requests.set i after.1⟩

def next (s : Server) : Event → Server
  | .arrive kind => { s with requests := s.requests ++ [newRequest kind] }
  | .step i a =>
      match s.requests[i]? with
      | none => s
      | some r => s.put i (act r (s.gates r.kind.gate) a)

/-- Any number of requests, in any order of events. -/
def machine : Machine Server Event where
  enabled s
    | .arrive _ => True
    | .step i a => (s.requests[i]?).any (fun r => a.enabled r) = true
  next := next

instance (s : Server) (e : Event) : Decidable (machine.enabled s e) := by
  cases e <;> unfold machine <;> infer_instance

/-- **The accounts of a server**: slots come back once, and each gate counts the requests that
    were admitted by it and are not over. -/
structure Accounted (s : Server) : Prop where
  own : ∀ r ∈ s.requests, r.releases ≤ r.acquires ∧ r.acquires ≤ 1
  back : ∀ r ∈ s.requests, r.over = true → r.releases = r.acquires
  counts : ∀ gate, (s.gates gate).inFlight =
    s.requests.countP fun r => r.kind.gate = gate && r.unfinished
  ceiling : ∀ gate, (s.gates gate).inFlight ≤ (s.gates gate).max

def OnTime (s : Server) : Event → Prop
  | .step i .enter => ∀ r, s.requests[i]? = some r → r.kind = .integration →
      r.response.closed = true → tryAcquireSlot (s.gates none) = none
  | _ => True

/-! ## One request and its gate -/

/-- Where a request stands: what it was given, what it gave back, and what will make it give
    back the rest. -/
structure Request.Sound (r : Request) : Prop where
  early : r.phase = .waiting → r.response.ended = false ∧ r.response.finished = false
  outside : r.admitted = false → r.acquires = 0 ∧ r.releases = 0 ∧ r.released = false
  inside : r.admitted = true → r.acquires = 1 ∧ r.releases = r.over.toNat
  closure : r.admitted = true → r.kind ≠ .mcp → r.released = r.over
  deaf : r.admitted = false ∨ r.kind ≠ .integration →
    r.response.onFinish = false ∧ r.response.onClose = false
  listens : r.admitted = true → r.kind = .integration → r.over = false →
    r.response.onFinish = true ∧ r.response.onClose = true

/-- What is kept: the request stands well, and the gate moves with it. -/
structure Keeps (r : Request) (gate : SlotGate) (after : Request × SlotGate) : Prop where
  kind : after.1.kind = r.kind
  sound : after.1.Sound
  moves : after.2.inFlight + r.unfinished.toNat = gate.inFlight + after.1.unfinished.toNat
  max : after.2.max = gate.max
  ceiling : gate.inFlight ≤ gate.max → after.2.inFlight ≤ after.2.max

theorem sound_newRequest (kind : Kind) : (newRequest kind).Sound where
  early _ := ⟨rfl, rfl⟩
  outside _ := ⟨rfl, rfl, rfl⟩
  inside h := nomatch h
  closure h := nomatch h
  deaf _ := ⟨rfl, rfl⟩
  listens h := nomatch h

section Steps

variable {r : Request} {gate : SlotGate}

theorem Keeps.still {r' : Request} (hkind : r'.kind = r.kind) (hsound : r'.Sound)
    (hun : r'.unfinished = r.unfinished) : Keeps r gate (r', gate) where
  kind := hkind
  sound := hsound
  moves := by rw [hun]
  max := rfl
  ceiling h := h

theorem Keeps.gives {r' : Request} (hkind : r'.kind = r.kind) (hsound : r'.Sound)
    (hbefore : r.unfinished = true) (hafter : r'.unfinished = false)
    (hheld : r.unfinished = true → 0 < gate.inFlight) : Keeps r gate (r', releaseSlot gate) := by
  have hpos := hheld hbefore
  refine ⟨hkind, hsound, ?_, rfl, fun hle => ?_⟩
  · simp only [hbefore, hafter, releaseSlot, Bool.toNat_true, Bool.toNat_false]
    omega
  · simp only [releaseSlot]
    omega

theorem Keeps.of_same {r' : Request} {after : Request × SlotGate} (h : Keeps r' gate after)
    (hkind : r'.kind = r.kind) (hun : r'.unfinished = r.unfinished) : Keeps r gate after where
  kind := h.kind.trans hkind
  sound := h.sound
  moves := by rw [← hun, h.moves]
  max := h.max
  ceiling := h.ceiling

theorem refuse_keeps (h : r.Sound) (hphase : r.phase = .waiting) :
    Keeps r gate (r.refuse, gate) := by
  have hout : r.admitted = false := by simp [Request.admitted, hphase]
  refine Keeps.still rfl ⟨fun hp => (nomatch hp), fun _ => h.outside hout, fun hin => (nomatch hin),
    fun hin => (nomatch hin), fun _ => h.deaf (.inl hout), fun hin => (nomatch hin)⟩ ?_
  rw [Request.unfinished, Request.unfinished, hout]
  rfl

theorem admit_keeps (h : r.Sound) (hphase : r.phase = .waiting)
    (hclient : r.kind = .integration → r.response.closed = false)
    (hroom : gate.inFlight < gate.max) :
    Keeps r gate (r.enter, { gate with inFlight := gate.inFlight + 1 }) := by
  have hout : r.admitted = false := by simp [Request.admitted, hphase]
  obtain ⟨hacq, hrel, hreleased⟩ := h.outside hout
  obtain ⟨-, hfin⟩ := h.early hphase
  have hdeaf := h.deaf (.inl hout)
  -- after the admission the request is not over, whatever its kind
  have hin : r.enter.admitted = true ∧ r.enter.over = false ∧ r.enter.kind = r.kind := by
    cases hkind : r.kind <;>
      simp [Request.enter, Request.admitted, Request.over, hkind]
    exact ⟨hfin, hclient hkind⟩
  obtain ⟨hadm, hover, hkind⟩ := hin
  refine ⟨hkind, ?_, ?_, rfl, fun _ => hroom⟩
  · refine ⟨?_, ?_, ?_, ?_, ?_, ?_⟩
    · intro hp
      cases hk : r.kind <;> simp [Request.enter, hk] at hp
    · intro hno
      rw [hadm] at hno
      cases hno
    · intro _
      rw [hover]
      cases hk : r.kind <;> simp [Request.enter, hk, hacq, hrel]
    · intro _ _
      rw [hover]
      cases hk : r.kind <;> simp [Request.enter, hk, hreleased]
    · rintro (hno | hother)
      · rw [hadm] at hno
        cases hno
      · rw [hkind] at hother
        cases hk : r.kind with
        | integration => exact absurd hk hother
        | mcp => simpa [Request.enter, hk] using hdeaf
        | callback path => simpa [Request.enter, hk] using hdeaf
    · intro _ hint _
      rw [hkind] at hint
      simp [Request.enter, hint]
  · simp [Request.unfinished, hout, hadm, hover]

theorem respond_keeps (h : r.Sound) (hphase : r.phase = .running) :
    Keeps r gate ({ r with response := { r.response with ended := true } }, gate) :=
  Keeps.still rfl ⟨fun hp => absurd (hphase.symm.trans hp) (by simp), h.outside, h.inside,
    h.closure, h.deaf, h.listens⟩ rfl

theorem settle_keeps (h : r.Sound) (hphase : r.phase = .running)
    (hheld : r.unfinished = true → 0 < gate.inFlight) : Keeps r gate (r.settle gate) := by
  have hin : r.admitted = true := by simp [Request.admitted, hphase]
  obtain ⟨hacq, hrel⟩ := h.inside hin
  cases hkind : r.kind with
  | integration =>
      -- the slot stays with the response
      have hover : ({ r with phase := .done } : Request).over = r.over := by
        simp [Request.over, hkind]
      have hset : r.settle gate = ({ r with phase := .done }, gate) := by
        simp [Request.settle, hkind]
      rw [hset]
      refine Keeps.still rfl ⟨fun hp => (nomatch hp), fun hno => (nomatch hno), fun _ => ?_,
        fun _ _ => ?_, fun hd => ?_, fun _ _ hno => ?_⟩ ?_
      · rw [hover]
        exact ⟨hacq, hrel⟩
      · rw [hover]
        exact h.closure hin (by simp [hkind])
      · exact absurd hkind (hd.resolve_left (fun hno => (nomatch hno)))
      · rw [hover] at hno
        exact h.listens hin hkind hno
      · rw [Request.unfinished, Request.unfinished, hover, hin]
        rfl
  | mcp =>
      have hover : r.over = false := by simp [Request.over, hkind, hphase]
      have hset : r.settle gate =
          ({ r with phase := .done, releases := r.releases + 1 }, releaseSlot gate) := by
        simp [Request.settle, hkind]
      rw [hover] at hrel
      rw [hset]
      refine Keeps.gives rfl ⟨fun hp => (nomatch hp), fun hno => (nomatch hno), fun _ => ?_,
        fun _ hother => absurd hkind hother, fun _ => h.deaf (.inr (by simp [hkind])),
        fun _ hint => by rw [hkind] at hint; cases hint⟩ ?_ ?_ hheld
      · simp [Request.over, hkind, hacq, hrel]
      · simp [Request.unfinished, hin, hover]
      · simp [Request.unfinished, Request.over, hkind]
  | callback path =>
      have hover : r.over = false := by simp [Request.over, hkind, hphase]
      have hreleased := h.closure hin (by simp [hkind])
      rw [hover] at hrel hreleased
      have hset : r.settle gate =
          ({ r with phase := .done, released := true, releases := r.releases + 1 },
            releaseSlot gate) := by
        simp [Request.settle, Request.release, hkind, hreleased]
      rw [hset]
      refine Keeps.gives rfl ⟨fun hp => (nomatch hp), fun hno => (nomatch hno), fun _ => ?_,
        fun _ _ => ?_, fun _ => h.deaf (.inr (by simp [hkind])),
        fun _ hint => by rw [hkind] at hint; cases hint⟩ ?_ ?_ hheld
      · simp [Request.over, hkind, hacq, hrel]
      · simp [Request.over, hkind]
      · simp [Request.unfinished, hin, hover]
      · simp [Request.unfinished, Request.over, hkind]

/-- A response emits an event that makes it final; `listening` says whether the closure hears it. -/
theorem hear_keeps {resp : Response} {listening : Bool} (h : r.Sound)
    (hheld : r.unfinished = true → 0 < gate.inFlight)
    (hfinal : (resp.finished || resp.closed) = true)
    (hearly : r.phase = .waiting → resp.ended = false ∧ resp.finished = false)
    (hdeaf : r.response.onFinish = false → r.response.onClose = false →
      listening = false ∧ resp.onFinish = false ∧ resp.onClose = false)
    (hlistens : r.response.onFinish = true → r.response.onClose = true → listening = true) :
    Keeps r gate (r.hear resp listening gate) := by
  by_cases hresp : r.admitted = true ∧ r.kind = .integration
  · obtain ⟨hin, hkind⟩ := hresp
    obtain ⟨hacq, hrel⟩ := h.inside hin
    have hreleased := h.closure hin (by simp [hkind])
    have hafter : ({ r with response := resp } : Request).over = true := by
      simpa [Request.over, hkind] using hfinal
    cases hover : r.over with
    | true =>
        -- the slot went back with an earlier event
        have hsame : r.hear resp listening gate = ({ r with response := resp }, gate) := by
          simp [Request.hear, Request.release, hreleased, hover]
        rw [hsame]
        refine Keeps.still rfl ⟨hearly, fun hno => ?_, fun _ => ?_, fun _ _ => ?_,
          fun hd => ?_, fun _ _ hno => ?_⟩ ?_
        · exact absurd (hin.symm.trans hno) (by simp)
        · rw [hafter, ← hover]
          exact ⟨hacq, hrel⟩
        · rw [hafter, ← hover]
          exact hreleased
        · exact absurd hkind (hd.resolve_left fun hno => by
            exact absurd (hin.symm.trans hno) (by simp))
        · rw [hafter] at hno
          cases hno
        · rw [Request.unfinished, Request.unfinished, hafter, hover]
          rfl
    | false =>
        obtain ⟨hf, hc⟩ := h.listens hin hkind hover
        rw [hover] at hrel hreleased
        have hset : r.hear resp listening gate =
            ({ r with response := resp, released := true, releases := r.releases + 1 },
              releaseSlot gate) := by
          simp [Request.hear, hlistens hf hc, Request.release, hreleased]
        rw [hset]
        refine Keeps.gives rfl ⟨hearly, fun hno => ?_, fun _ => ⟨hacq, ?_⟩,
          fun _ _ => hafter.symm, fun hd => ?_, fun _ _ hno => ?_⟩ ?_ ?_ hheld
        · exact absurd (hin.symm.trans hno) (by simp)
        · show r.releases + 1 = Bool.toNat (Request.over { r with response := resp })
          rw [hafter, hrel]
          rfl
        · exact absurd hkind (hd.resolve_left fun hno => by
            exact absurd (hin.symm.trans hno) (by simp))
        · exact absurd (hafter.symm.trans hno) (by simp)
        · simp [Request.unfinished, hin, hover]
        · show (_ && !Request.over { r with response := resp }) = false
          rw [hafter]
          exact Bool.and_false _
  · -- nothing listens, and the event does not make the request over
    have hout : r.admitted = false ∨ r.kind ≠ .integration := by
      cases hin : r.admitted with
      | false => exact .inl rfl
      | true => exact .inr fun hkind => hresp ⟨hin, hkind⟩
    obtain ⟨hf, hc⟩ := h.deaf hout
    obtain ⟨hno, hf', hc'⟩ := hdeaf hf hc
    show Keeps r gate (if listening then _ else ({ r with response := resp }, gate))
    rw [hno]
    have hover : r.kind ≠ .integration →
        ({ r with response := resp } : Request).over = r.over := by
      intro hkind
      unfold Request.over
      cases hk : r.kind with
      | integration => exact absurd hk hkind
      | mcp => simp
      | callback path => simp
    refine Keeps.still rfl ⟨hearly, h.outside, fun hin => ?_, fun hin hmcp => ?_,
      fun _ => ⟨hf', hc'⟩, fun hin hkind => absurd ⟨hin, hkind⟩ hresp⟩ ?_
    · rw [hover fun hkind => hresp ⟨hin, hkind⟩]
      exact h.inside hin
    · rw [hover fun hkind => hresp ⟨hin, hkind⟩]
      exact h.closure hin hmcp
    · rcases hout with hout | hkind
      · show (r.admitted && _) = (r.admitted && _)
        rw [hout]
        rfl
      · rw [Request.unfinished, Request.unfinished, hover hkind]
        rfl

/-- **One step** keeps a request and its gate in order, if a response that has closed gets no
    slot. -/
theorem act_keeps {a : Step} (h : r.Sound) (ha : a.enabled r = true)
    (hheld : r.unfinished = true → 0 < gate.inFlight)
    (hontime : a = .enter → r.kind = .integration → r.response.closed = true →
      tryAcquireSlot gate = none) : Keeps r gate (act r gate a) := by
  cases a with
  | refuse => exact refuse_keeps h (by simpa [Step.enabled] using ha)
  | enter =>
      have hphase : r.phase = .waiting := by simpa [Step.enabled] using ha
      unfold act
      by_cases hfull : gate.max ≤ gate.inFlight
      · simp only [tryAcquireSlot, if_pos hfull]
        exact refuse_keeps h hphase
      · simp only [tryAcquireSlot, if_neg hfull] at hontime ⊢
        refine admit_keeps h hphase (fun hkind => ?_) (by omega)
        cases hclosed : r.response.closed with
        | false => rfl
        | true => cases hontime trivial hkind hclosed
  | respond => exact respond_keeps h (by simpa [Step.enabled] using ha)
  | return_ => exact settle_keeps h (by simpa [Step.enabled] using ha) hheld
  | throw_ =>
      have hphase : r.phase = .running := by simpa [Step.enabled] using ha
      -- what the catch writes moves no slot
      have hwritten : Keeps r gate _ := respond_keeps h hphase
      exact (settle_keeps hwritten.sound hphase hheld).of_same rfl rfl
  | finish =>
      refine hear_keeps h hheld (by simp) (fun hphase => ?_) (fun hf hc => ⟨hf, rfl, hc⟩)
        fun hf _ => hf
      have hended := (h.early hphase).1
      simp [Step.enabled, hended] at ha
  | close =>
      exact hear_keeps h hheld (by simp) h.early (fun hf hc => ⟨hc, hf, rfl⟩) fun _ hc => hc

end Steps

/-! ## All requests and all gates -/

private theorem countP_set_add {α : Type*} (p : α → Bool) {l : List α} {i : Nat} {x : α}
    (h : l[i]? = some x) (y : α) :
    (l.set i y).countP p + (p x).toNat = l.countP p + (p y).toNat := by
  induction l generalizing i with
  | nil => cases h
  | cons z l ih =>
      cases i with
      | zero =>
          obtain rfl := Option.some.inj h
          rw [List.set_cons_zero, List.countP_cons, List.countP_cons]
          cases p z <;> cases p y <;> simp
      | succ i =>
          have hrest := ih h
          rw [List.set_cons_succ, List.countP_cons, List.countP_cons]
          omega

structure InOrder (s : Server) : Prop where
  sound : ∀ r ∈ s.requests, r.Sound
  counts : ∀ gate, (s.gates gate).inFlight =
    s.requests.countP fun r => r.kind.gate = gate && r.unfinished
  ceiling : ∀ gate, (s.gates gate).inFlight ≤ (s.gates gate).max

theorem inOrder_fresh (maxInFlight : Nat) : InOrder (fresh maxInFlight) := by
  refine ⟨fun r hr => (nomatch hr), fun gate => ?_, fun gate => ?_⟩
  · cases gate <;> rfl
  · cases gate <;> exact Nat.zero_le _

variable {s : Server}

theorem InOrder.accounted (h : InOrder s) : Accounted s := by
  have hboth : ∀ r ∈ s.requests, (r.acquires = 0 ∧ r.releases = 0) ∨
      (r.acquires = 1 ∧ r.releases = r.over.toNat) := by
    intro r hr
    cases hin : r.admitted with
    | false =>
        obtain ⟨hacq, hrel, -⟩ := (h.sound r hr).outside hin
        exact .inl ⟨hacq, hrel⟩
    | true => exact .inr ((h.sound r hr).inside hin)
  refine ⟨fun r hr => ?_, fun r hr hover => ?_, h.counts, h.ceiling⟩
  · rcases hboth r hr with ⟨hacq, hrel⟩ | ⟨hacq, hrel⟩
    · omega
    · have hle := Bool.toNat_le r.over
      omega
  · rcases hboth r hr with ⟨hacq, hrel⟩ | ⟨hacq, hrel⟩
    · rw [hacq, hrel]
    · rw [hacq, hrel, hover]
      rfl

theorem InOrder.put (h : InOrder s) {i : Nat} {r : Request} (hr : s.requests[i]? = some r)
    {after : Request × SlotGate} (hkeeps : Keeps r (s.gates r.kind.gate) after) :
    InOrder (s.put i after) := by
  have hgate : after.1.kind.gate = r.kind.gate := by rw [hkeeps.kind]
  refine ⟨fun r' hr' => ?_, fun gate => ?_, fun gate => ?_⟩
  · rcases List.mem_or_eq_of_mem_set hr' with hold | rfl
    · exact h.sound r' hold
    · exact hkeeps.sound
  · have hcount := countP_set_add (fun r => r.kind.gate = gate && r.unfinished) hr after.1
    have hbefore := h.counts gate
    show (Function.update s.gates after.1.kind.gate after.2 gate).inFlight =
      (s.requests.set i after.1).countP _
    simp only [hgate] at hcount ⊢
    by_cases hsame : r.kind.gate = gate
    · subst hsame
      have hmoves := hkeeps.moves
      rw [Function.update_self]
      simp only [decide_true, Bool.true_and] at hcount
      omega
    · rw [Function.update_of_ne (Ne.symm hsame)]
      simp only [hsame, decide_false, Bool.false_and, Bool.toNat_false] at hcount
      omega
  · show (Function.update s.gates after.1.kind.gate after.2 gate).inFlight ≤
      (Function.update s.gates after.1.kind.gate after.2 gate).max
    rw [hgate]
    by_cases hsame : gate = r.kind.gate
    · subst hsame
      rw [Function.update_self]
      exact hkeeps.ceiling (h.ceiling _)
    · rw [Function.update_of_ne hsame]
      exact h.ceiling gate

/-- **One event** keeps the server in order, if it is on time. -/
theorem InOrder.next {e : Event} (h : InOrder s) (he : machine.enabled s e) (hontime : OnTime s e) :
    InOrder (next s e) := by
  cases e with
  | arrive kind =>
      refine ⟨fun r hr => ?_, fun gate => ?_, h.ceiling⟩
      · rcases List.mem_append.mp hr with hold | hnew
        · exact h.sound r hold
        · rw [List.mem_singleton.mp hnew]
          exact sound_newRequest kind
      · show (s.gates gate).inFlight = (s.requests ++ [newRequest kind]).countP _
        rw [List.countP_append, h.counts gate]
        simp [Request.unfinished, Request.admitted, newRequest]
  | step i a =>
      obtain ⟨r, hr, ha⟩ := (Option.any_eq_true _ _).mp he
      have hmem := List.mem_of_getElem? hr
      have hheld : r.unfinished = true → 0 < (s.gates r.kind.gate).inFlight := by
        intro hun
        rw [h.counts, List.countP_pos_iff]
        exact ⟨r, hmem, by simp [hun]⟩
      have hkeeps := act_keeps (h.sound r hmem) ha hheld (by
        rintro rfl hkind hclosed
        rw [hkind]
        exact hontime r hr hkind hclosed)
      show InOrder (match s.requests[i]? with
        | none => s
        | some r => s.put i (act r (s.gates r.kind.gate) a))
      rw [hr]
      exact h.put hr hkeeps

theorem late_miscounts {i : Nat} {r : Request} (hr : s.requests[i]? = some r)
    (hwaiting : r.phase = .waiting) (hkind : r.kind = .integration)
    (hclosed : r.response.closed = true) (hroom : tryAcquireSlot (s.gates none) ≠ none)
    (h : Accounted s) : ¬ Accounted (next s (.step i .enter)) := by
  intro hafter
  have htaken : tryAcquireSlot (s.gates none) =
      some { s.gates none with inFlight := (s.gates none).inFlight + 1 } := by
    unfold tryAcquireSlot at hroom ⊢
    split at hroom
    · exact absurd rfl hroom
    · rename_i hfree
      rw [if_neg hfree]
  have hnext : next s (.step i .enter) =
      s.put i (r.enter, { s.gates none with inFlight := (s.gates none).inFlight + 1 }) := by
    simp [next, hr, act, hkind, Kind.gate, htaken]
  have hadmit : r.enter.kind = .integration := by simp [Request.enter, hkind]
  -- it was not counted before, and being over it is not counted now
  have hcount := countP_set_add (fun r => r.kind.gate = none && r.unfinished) hr r.enter
  have hbefore : r.unfinished = false := by
    simp [Request.unfinished, Request.admitted, hwaiting]
  have hnow : r.enter.unfinished = false := by
    simp [Request.unfinished, Request.over, Request.enter, hkind, hclosed]
  simp only [hbefore, hnow, Bool.and_false, Bool.toNat_false] at hcount
  have hmain := hafter.counts none
  rw [hnext] at hmain
  simp only [Server.put, hadmit, Kind.gate, Function.update_self] at hmain
  have hwas := h.counts none
  simp only [Kind.gate] at hcount hwas
  omega

/-- **EVERY SLOT COMES BACK** and is accounted for at every point of a run exactly if no
    integration request is given a slot in it after its response has closed. -/
theorem slots_come_back_iff (maxInFlight : Nat) {events : List Event} {s : Server}
    (h : machine.Exec (fresh maxInFlight) events s) :
    (∀ pre post t, events = pre ++ post → machine.Exec (fresh maxInFlight) pre t → Accounted t) ↔
    ∀ pre e post t, events = pre ++ e :: post → machine.Exec (fresh maxInFlight) pre t →
      OnTime t e := by
  constructor
  · intro haccounted pre e post t heq hpre
    rw [heq] at h
    obtain ⟨u, hu, he, -⟩ := h.split
    obtain rfl := hpre.unique hu
    cases e with
    | arrive kind => trivial
    | step i a =>
        cases a with
        | enter =>
            intro r hr hkind hclosed
            by_contra hroom
            have hwaiting : r.phase = .waiting := by
              simpa [machine, hr, Step.enabled] using he
            have hstep : machine.Exec (fresh maxInFlight) (pre ++ [.step i .enter])
                (next t (.step i .enter)) := hpre.append (.cons he (.nil _))
            refine late_miscounts hr hwaiting hkind hclosed hroom
              (haccounted pre _ t heq hpre) (haccounted _ post _ ?_ hstep)
            rw [heq, List.append_assoc]
            rfl
        | refuse | respond | return_ | throw_ | finish | close => trivial
  · intro hontime pre post t heq hpre
    have hrestricted := hpre.restrict (P := OnTime) fun pre' e mid u hsplit hu =>
      hontime pre' e (mid ++ post) u (by rw [heq, hsplit, List.append_assoc]; rfl) hu
    have horder : InOrder t := Machine.reach_invariant
      (fun _ _ hs he => hs.next he.1 he.2) (inOrder_fresh maxInFlight) ⟨pre, hrestricted⟩
    exact horder.accounted

def lateRun : List Event :=
  [.arrive .integration, .step 0 .close, .step 0 .enter, .step 0 .respond, .step 0 .return_]

/-- One request of each kind; a client that goes, and a handler that throws. -/
def timelyRun : List Event :=
  [.arrive .mcp, .arrive .integration, .arrive (.callback "/integrations/google/webhook"),
    .step 1 .enter, .step 2 .enter, .step 0 .enter, .step 0 .close, .step 1 .close,
    .step 0 .throw_, .step 1 .return_, .step 2 .respond, .step 2 .return_, .step 2 .finish,
    .step 2 .close]

/-- **The slot stays taken**: the only request is over, its response has closed and its handler
    has returned. -/
theorem late_slot_stays : ∃ s, machine.Reach (fresh 32) s ∧
    (s.requests.all fun r => r.over && r.phase = .done && r.response.closed) = true ∧
    (s.gates none).inFlight = 1 := by
  obtain ⟨s, hs, hq⟩ := Machine.reach_of_runs_any (M := machine) (s := fresh 32) (l := lateRun)
    (Q := fun s => (s.requests.all fun r => r.over && r.phase = .done && r.response.closed) &&
      (s.gates none).inFlight = 1) (by decide +kernel)
  rw [Bool.and_eq_true] at hq
  exact ⟨s, hs, hq.1, of_decide_eq_true hq.2⟩

theorem timely_come_back_iff : ∃ s, machine.Exec (fresh 32) timelyRun s ∧
    ((∀ pre post t, timelyRun = pre ++ post → machine.Exec (fresh 32) pre t → Accounted t) ↔
      ∀ pre e post t, timelyRun = pre ++ e :: post → machine.Exec (fresh 32) pre t →
        OnTime t e) := by
  cases hrun : machine.runs (fresh 32) timelyRun with
  | none => exact absurd (congrArg Option.isSome hrun) (by decide +kernel)
  | some s =>
      exact ⟨s, Machine.exec_of_runs hrun, slots_come_back_iff 32 (Machine.exec_of_runs hrun)⟩

end Slots
