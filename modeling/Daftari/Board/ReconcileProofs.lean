import Daftari.Board.LedgerProofs

/-! # Reconciliation — what a column rests on, and passes over one ledger

    The column of a live finding rests on its own history.  Past a `resolved` or `reopened` event
    the backward scan finds the latest decision of a human, and that is where fingerprints and
    timers are lost: `held_iff_not_revivesStale` says exactly when.  The events a pass emits go to
    the end of the histories they name, and a pass over the ledger that has them emits nothing.

    * `dispositions_held_iff`: **a dismissed or waiting card rests on a standing decision, unless a
      stale one was revived by a return from `resolved`**;
    * `reconcile_idempotent`: **a pass is idempotent, with one card a key**. -/

namespace Board

variable (clock : Clock)

/-! ## The backward scan -/

def isDecision (evt : LedgerEvent) : Bool := (humanColumn evt.event).isSome

def latestDecision (events : List LedgerEvent) : Option LedgerEvent :=
  events.reverse.find? isDecision

def latestOf (event : LedgerEventType) (events : List LedgerEvent) : Option LedgerEvent :=
  events.reverse.find? fun evt => evt.event = event

/-- Does a history end with a mark of the system? -/
def isMark (evt : LedgerEvent) : Bool := evt.event = .resolved ∨ evt.event = .reopened

theorem isDecision_of_isMark {evt : LedgerEvent} (h : isMark evt = true) :
    isDecision evt = false := by
  have hor : evt.event = .resolved ∨ evt.event = .reopened := of_decide_eq_true h
  show (humanColumn evt.event).isSome = false
  rcases hor with he | he
  · rw [he]
    rfl
  · rw [he]
    rfl

theorem scanBack_true (older : List LedgerEvent) : scanBack true older =
      ((older.find? isDecision).bind fun evt => humanColumn evt.event).getD .new := by
  induction older with
  | nil => rfl
  | cons evt older ih =>
      rw [scanBack, List.find?_cons]
      cases hcolumn : humanColumn evt.event with
      | none =>
          have hno : isDecision evt = false := by
            show (humanColumn evt.event).isSome = false
            rw [hcolumn]
            rfl
          rw [hno]
          exact ih
      | some column =>
          have hyes : isDecision evt = true := by
            show (humanColumn evt.event).isSome = true
            rw [hcolumn]
            rfl
          rw [hyes]
          show column = ((humanColumn evt.event).getD .new)
          rw [hcolumn]
          rfl

theorem priorHumanDisposition_append (events : List LedgerEvent) {mark : LedgerEvent}
    (h : isMark mark = true) : priorHumanDisposition (events ++ [mark]) =
      ((latestDecision events).bind fun evt => humanColumn evt.event).getD .new := by
  show scanBack false (events ++ [mark]).reverse = _
  rw [List.reverse_append]
  show scanBack (isMark mark) events.reverse = _
  rw [h, scanBack_true]
  rfl

theorem latestDecision_append (events : List LedgerEvent) {mark : LedgerEvent}
    (h : isMark mark = true) : latestDecision (events ++ [mark]) = latestDecision events := by
  show (events ++ [mark]).reverse.find? isDecision = _
  rw [List.reverse_append]
  show (mark :: events.reverse).find? isDecision = _
  rw [List.find?_cons, isDecision_of_isMark h]
  rfl

theorem priorHumanDisposition_of_isMark {h : History} (hmark : isMark h.latest = true) :
    priorHumanDisposition h.events =
      ((latestDecision h.events).bind fun evt => humanColumn evt.event).getD .new := by
  rw [h.events_eq, priorHumanDisposition_append _ hmark, latestDecision_append _ hmark]

theorem latestOf_of_latestDecision {events : List LedgerEvent} {evt : LedgerEvent}
    (hlatest : latestDecision events = some evt) : latestOf evt.event events = some evt := by
  obtain ⟨hdecision, newer, older, hsplit, hnewer⟩ := List.find?_eq_some_iff_append.mp hlatest
  refine List.find?_eq_some_iff_append.mpr ⟨decide_eq_true rfl, newer, older, hsplit, ?_⟩
  intro e he
  have hno : isDecision e = false := by simpa using hnewer e he
  by_contra hsame
  have hkind : e.event = evt.event := by simpa using hsame
  have hyes : isDecision e = true := by
    show (humanColumn e.event).isSome = true
    rw [hkind]
    exact hdecision
  rw [hyes] at hno
  cases hno

theorem latestOf_latest (h : History) : latestOf h.latest.event h.events = some h.latest := by
  show h.events.reverse.find? _ = _
  rw [h.events_eq, List.reverse_append]
  exact List.find?_cons_of_pos (decide_eq_true rfl)

theorem timer_of_latest {h : History} (hlatest : h.latest.event = .defer ∨
    h.latest.event = .dismiss) : h.events.foldl timerAfter none = h.latest.expiry := by
  rw [h.events_eq, List.foldl_append]
  show timerAfter _ h.latest = _
  unfold timerAfter
  rcases hlatest with he | he
  · rw [he]
  · rw [he]

/-! ## What a card rests on -/

/-- A dismissed card rests on a dismissal of what the finding is now, a waiting one on a
    deferral, and neither timer has run out. -/
structure Held (finding : Finding) (events : List LedgerEvent) (now : Int)
    (column : BoardColumn) : Prop where
  dismissed : column = .dismissed → ∃ evt, latestOf .dismiss events = some evt ∧
    evt.againstFingerprint = finding.fingerprint ∧
    elapsed clock (some now) evt.expiry = false
  waiting : column = .waiting → ∃ evt, latestOf .defer events = some evt ∧
    elapsed clock (some now) evt.expiry = false

/-- A decision that no longer stands for the finding. -/
def stale (finding : Finding) (now : Int) (evt : LedgerEvent) : Bool :=
  match evt.event with
  | .dismiss =>
      evt.againstFingerprint ≠ finding.fingerprint ∨ elapsed clock (some now) evt.expiry = true
  | .defer => elapsed clock (some now) evt.expiry
  | _ => false

/-- The history ends with `resolved` or `reopened`, and the latest decision in it is stale. -/
def RevivesStale (finding : Finding) (events : List LedgerEvent) (now : Int) : Prop :=
  events.getLast?.any isMark = true ∧
    (latestDecision events).any (stale clock finding now) = true

def eventsOf (ledger : Ledger) (key : String) : List LedgerEvent :=
  ((ledger.find key).map History.events).getD []

section Columns

variable {clock} {finding : Finding} {events : List LedgerEvent} {now : Int}

theorem Held.new : Held clock finding events now .new where
  dismissed := by
    intro h
    cases h
  waiting := by
    intro h
    cases h

theorem Held.accepted : Held clock finding events now .accepted where
  dismissed := by
    intro h
    cases h
  waiting := by
    intro h
    cases h

theorem held_waiting_iff : Held clock finding events now .waiting ↔
    ∃ evt, latestOf .defer events = some evt ∧ elapsed clock (some now) evt.expiry = false := by
  constructor
  · intro held
    exact held.waiting rfl
  · intro hdefer
    exact { dismissed := by
              intro h
              cases h
            waiting := fun _ => hdefer }

theorem held_dismissed_iff : Held clock finding events now .dismissed ↔
    ∃ evt, latestOf .dismiss events = some evt ∧ evt.againstFingerprint = finding.fingerprint ∧
      elapsed clock (some now) evt.expiry = false := by
  constructor
  · intro held
    exact held.dismissed rfl
  · intro hdismiss
    exact { dismissed := fun _ => hdismiss
            waiting := by
              intro h
              cases h }

end Columns

/-- **A column taken from the latest decision is held exactly if the decision is not stale.** -/
theorem held_decision_iff (finding : Finding) (events : List LedgerEvent) (now : Int) :
    Held clock finding events now
        (((latestDecision events).bind fun evt => humanColumn evt.event).getD .new) ↔
      (latestDecision events).any (stale clock finding now) = false := by
  cases hlatest : latestDecision events with
  | none => exact iff_of_true Held.new rfl
  | some evt =>
      have hof := latestOf_of_latestDecision hlatest
      show Held clock finding events now ((humanColumn evt.event).getD .new) ↔
        stale clock finding now evt = false
      unfold stale
      cases hevent : evt.event with
      | dismiss =>
          rw [hevent] at hof
          show Held clock finding events now .dismissed ↔ _
          rw [held_dismissed_iff, hof]
          constructor
          · rintro ⟨evt', heq, hfp, htimer⟩
            cases heq
            simp [hfp, htimer]
          · intro hfresh
            have hboth : evt.againstFingerprint = finding.fingerprint ∧
                elapsed clock (some now) evt.expiry = false := by simpa using hfresh
            exact ⟨evt, rfl, hboth.1, hboth.2⟩
      | defer =>
          rw [hevent] at hof
          show Held clock finding events now .waiting ↔ _
          rw [held_waiting_iff, hof]
          constructor
          · rintro ⟨evt', heq, htimer⟩
            cases heq
            exact htimer
          · intro hfresh
            exact ⟨evt, rfl, hfresh⟩
      | accept => exact iff_of_true Held.accepted rfl
      | new => exact iff_of_true Held.new rfl
      | reassign => exact iff_of_true Held.new rfl
      | resolved => exact iff_of_true Held.new rfl
      | reopened => exact iff_of_true Held.new rfl
      | other text => exact iff_of_true Held.new rfl

theorem not_revivesStale_of_latest {finding : Finding} {h : History} {now : Int}
    (hmark : isMark h.latest = false) : ¬ RevivesStale clock finding h.events now := by
  rintro ⟨hlast, -⟩
  rw [List.getLast?_eq_some_getLast h.nonempty] at hlast
  have hyes : isMark h.latest = true := hlast
  rw [hmark] at hyes
  cases hyes

theorem revivesStale_iff_of_isMark {finding : Finding} {h : History} {now : Int}
    (hmark : isMark h.latest = true) : RevivesStale clock finding h.events now ↔
      (latestDecision h.events).any (stale clock finding now) = true := by
  constructor
  · intro hr
    exact hr.2
  · intro hs
    refine ⟨?_, hs⟩
    rw [List.getLast?_eq_some_getLast h.nonempty]
    exact hmark

/-- **The column of a live finding with a history is held exactly if no stale decision is
    revived.** -/
theorem held_iff_not_revivesStale (finding : Finding) (h : History) (now : Int) :
    Held clock finding h.events now (columnForLiveWithLedger clock finding h now).1 ↔
      ¬ RevivesStale clock finding h.events now := by
  have hmarked : isMark h.latest = true → (Held clock finding h.events now
      (priorHumanDisposition h.events) ↔ ¬ RevivesStale clock finding h.events now) := by
    intro hmark
    rw [revivesStale_iff_of_isMark clock hmark, priorHumanDisposition_of_isMark hmark,
      held_decision_iff]
    simp
  have hlast := latestOf_latest h
  have hdisp : (currentDisposition clock h (some now)).event = h.latest.event := rfl
  have hprint : (currentDisposition clock h (some now)).againstFingerprint =
      h.latest.againstFingerprint := rfl
  unfold columnForLiveWithLedger
  simp only [hdisp, hprint]
  cases hevent : h.latest.event with
  | resolved =>
      refine hmarked ?_
      show decide (h.latest.event = .resolved ∨ h.latest.event = .reopened) = true
      simp [hevent]
  | reopened =>
      refine hmarked ?_
      show decide (h.latest.event = .resolved ∨ h.latest.event = .reopened) = true
      simp [hevent]
  | defer =>
      have htimer : (currentDisposition clock h (some now)).expired =
          elapsed clock (some now) h.latest.expiry := by
        show elapsed clock (some now) (h.events.foldl timerAfter none) = _
        rw [timer_of_latest (Or.inl hevent)]
      have hno : isMark h.latest = false := by simp [isMark, hevent]
      refine iff_of_true ?_ (not_revivesStale_of_latest clock hno)
      rw [htimer]
      rw [hevent] at hlast
      cases he : elapsed clock (some now) h.latest.expiry with
      | true => exact Held.new
      | false => exact held_waiting_iff.mpr ⟨h.latest, hlast, he⟩
  | dismiss =>
      have htimer : (currentDisposition clock h (some now)).expired =
          elapsed clock (some now) h.latest.expiry := by
        show elapsed clock (some now) (h.events.foldl timerAfter none) = _
        rw [timer_of_latest (Or.inr hevent)]
      have hno : isMark h.latest = false := by simp [isMark, hevent]
      refine iff_of_true ?_ (not_revivesStale_of_latest clock hno)
      rw [htimer]
      rw [hevent] at hlast
      show Held clock finding h.events now
        (if h.latest.againstFingerprint ≠ finding.fingerprint ∨
          elapsed clock (some now) h.latest.expiry = true then .new else .dismissed)
      by_cases hstale : h.latest.againstFingerprint ≠ finding.fingerprint ∨
          elapsed clock (some now) h.latest.expiry = true
      · rw [if_pos hstale]
        exact Held.new
      · rw [if_neg hstale]
        have hboth : h.latest.againstFingerprint = finding.fingerprint ∧
            elapsed clock (some now) h.latest.expiry = false := by simpa using hstale
        exact held_dismissed_iff.mpr ⟨h.latest, hlast, hboth.1, hboth.2⟩
  | accept =>
      exact iff_of_true Held.accepted
        (not_revivesStale_of_latest clock (by simp [isMark, hevent]))
  | new =>
      exact iff_of_true Held.new
        (not_revivesStale_of_latest clock (by simp [isMark, hevent]))
  | reassign =>
      exact iff_of_true Held.new
        (not_revivesStale_of_latest clock (by simp [isMark, hevent]))
  | other text =>
      exact iff_of_true Held.new
        (not_revivesStale_of_latest clock (by simp [isMark, hevent]))

/-! ## One pass -/

def cardOf (ledger : Ledger) (now : Int) (finding : Finding) : Finding :=
  match ledger.find finding.identityKey with
  | none => { finding with disposition := .new, history := [] }
  | some h =>
      { finding with
        disposition := (columnForLiveWithLedger clock finding h now).1
        history := h.events
        firstSeen := (eventTimestamps h).firstSeen
        lastSeen := (eventTimestamps h).lastSeen }

/-- What a key that is not live comes to. -/
def absentOf (ledger : Ledger) (now : Int) (key : String) : Outcome :=
  match ledger.find key with
  | none => ([], [])
  | some h => absentCard clock now key h

def absentKeys (live : List Finding) (ledger : Ledger) : List String :=
  ledger.keys.filter fun key => key ∉ live.map Finding.identityKey

theorem liveCard_fst (ledger : Ledger) (now : Int) (finding : Finding) :
    (liveCard clock now finding (ledger.find finding.identityKey)).1 =
      [cardOf clock ledger now finding] := by
  unfold cardOf
  cases ledger.find finding.identityKey with
  | none => rfl
  | some h => rfl

theorem map_absent (live : List Finding) (ledger : Ledger) (now : Int) :
    (ledger.entries.filter fun e => e.1 ∉ live.map Finding.identityKey).map
        (fun e => absentCard clock now e.1 e.2) =
      (absentKeys live ledger).map (absentOf clock ledger now) := by
  show _ = ((ledger.entries.map Prod.fst).filter _).map _
  rw [List.filter_map, List.map_map]
  refine List.map_congr_left ?_
  intro e he
  have hfind : ledger.find e.1 = some e.2 :=
    Assoc.lookup_of_mem ledger.nodup (List.mem_of_mem_filter he)
  show _ = absentOf clock ledger now e.1
  unfold absentOf
  rw [hfind]

theorem findings_reconcile (live : List Finding) (ledger : Ledger) (now : Int) :
    (reconcile clock live ledger now).findings = live.map (cardOf clock ledger now) ++
        (absentKeys live ledger).flatMap fun key => (absentOf clock ledger now key).1 := by
  show (live.map _).flatMap Prod.fst ++ (List.map _ _).flatMap Prod.fst = _
  rw [map_absent, List.flatMap_map, List.flatMap_map]
  congr 1
  rw [List.map_eq_flatMap]
  refine List.flatMap_congr ?_
  intro finding _
  exact liveCard_fst clock ledger now finding

theorem emit_reconcile (live : List Finding) (ledger : Ledger) (now : Int) :
    (reconcile clock live ledger now).emit = (live.flatMap fun finding =>
          (liveCard clock now finding (ledger.find finding.identityKey)).2) ++
        (absentKeys live ledger).flatMap fun key => (absentOf clock ledger now key).2 := by
  show (live.map _).flatMap Prod.snd ++ (List.map _ _).flatMap Prod.snd = _
  rw [map_absent, List.flatMap_map, List.flatMap_map]

theorem held_cardOf_iff (ledger : Ledger) (now : Int) (finding : Finding) :
    Held clock finding (eventsOf ledger finding.identityKey) now
        (cardOf clock ledger now finding).disposition ↔
      ¬ RevivesStale clock finding (eventsOf ledger finding.identityKey) now := by
  unfold cardOf eventsOf
  cases ledger.find finding.identityKey with
  | none =>
      refine iff_of_true Held.new ?_
      rintro ⟨hlast, -⟩
      cases hlast
  | some h => exact held_iff_not_revivesStale clock finding h now

/-- **In every pass, the card of a live finding rests on a standing decision if and only
    if its history does not end in a mark after a decision that is stale.** -/
theorem dispositions_held_iff (live : List Finding) (ledger : Ledger) (now : Int) (i : Nat)
    (hi : i < live.length) :
    ∃ card, (reconcile clock live ledger now).findings[i]? = some card ∧
      card.identityKey = live[i].identityKey ∧
      (Held clock live[i] (eventsOf ledger live[i].identityKey) now card.disposition ↔
        ¬ RevivesStale clock live[i] (eventsOf ledger live[i].identityKey) now) := by
  refine ⟨cardOf clock ledger now live[i], ?_, ?_, held_cardOf_iff clock ledger now live[i]⟩
  · rw [findings_reconcile, List.getElem?_append_left (by simpa using hi), List.getElem?_map,
      List.getElem?_eq_getElem hi]
    rfl
  · unfold cardOf
    cases ledger.find live[i].identityKey with
    | none => rfl
    | some h => rfl

section Returned

def stoppedClock : Clock := ⟨fun _ => none, fun _ => "2026-09-01T00:00:00.000Z"⟩

def changedFinding : Finding where
  identityKey := "f1"
  source := .lint
  check := "staleFiles"
  target := .lint "notes/a.md"
  discriminator := none
  fingerprint := "fp2"
  certainty := .medium
  evidence := .obj []
  suggestedAction := "refresh"
  verifyPredicate := "staleFiles on notes/a.md"
  owner := "ann"
  firstSeen := "2026-08-01T00:00:00.000Z"
  lastSeen := "2026-09-01T00:00:00.000Z"
  disposition := .new
  history := []

def oldDismissal : LedgerEvent where
  findingId := "f1"
  event := .dismiss
  author := "ann"
  principalType := .human
  atISO := "2026-08-01T00:00:00.000Z"
  againstFingerprint := "fp1"
  rationale := some "known"
  expiry := none
  owner := none
  identitySchemeVersion := identitySchemeVersion
  descriptor := none

def returnedLog : List LedgerEvent :=
  [oldDismissal, buildSystemEvent stoppedClock "f1" .resolved "fp1" 0 none]

/-- A dismissal of another fingerprint puts the finding in `dismissed` when it returns. -/
theorem stale_dismissal_returns :
    ¬ ∀ (clock : Clock) (live : List Finding) (ledger : Ledger) (now : Int) (finding card :
      Finding), finding ∈ live → card ∈ (reconcile clock live ledger now).findings →
        card.identityKey = finding.identityKey →
        Held clock finding (eventsOf ledger finding.identityKey) now card.disposition := by
  intro hall
  have held := hall stoppedClock [changedFinding] (loadLedger returnedLog) 0 changedFinding
    (cardOf stoppedClock (loadLedger returnedLog) 0 changedFinding) List.mem_cons_self
    (by decide) rfl
  obtain ⟨evt, hlatest, hfp, -⟩ := held.dismissed (by decide)
  have hevt : latestOf .dismiss (eventsOf (loadLedger returnedLog) "f1") = some oldDismissal := by
    decide
  cases hlatest
  exact absurd hfp (by decide)

/-- The two sides at the finding that returned: neither holds. -/
theorem dispositions_held_iff_returned :
    ∃ card, (reconcile stoppedClock [changedFinding] (loadLedger returnedLog) 0).findings[0]?
        = some card ∧ card.identityKey = changedFinding.identityKey ∧
      (Held stoppedClock changedFinding (eventsOf (loadLedger returnedLog) "f1") 0
          card.disposition ↔
        ¬ RevivesStale stoppedClock changedFinding (eventsOf (loadLedger returnedLog) "f1") 0) :=
  dispositions_held_iff stoppedClock [changedFinding] (loadLedger returnedLog) 0 0 (by decide)

end Returned

/-! ## Two passes -/

def appendAll (flat emitted : List LedgerEvent) : List LedgerEvent :=
  emitted.foldl appendEvent flat

/-- What a key of a pass comes to: a live finding's own outcome, or the absent key's. -/
def emittedFor (live : List Finding) (ledger : Ledger) (now : Int) (key : String) :
    List LedgerEvent :=
  (reconcile clock live ledger now).emit.filter fun evt => evt.findingId = key

theorem filter_blocks {α β κ : Type} [DecidableEq κ] {l : List α} {key : α → κ}
    {block : α → List β} {name : β → κ} (hname : ∀ a ∈ l, ∀ b ∈ block a, name b = key a)
    (hnodup : (l.map key).Nodup) {a : α} (ha : a ∈ l) :
    (l.flatMap block).filter (fun b => name b = key a) = block a := by
  induction l with
  | nil => cases ha
  | cons x l ih =>
      have hl := List.nodup_cons.mp hnodup
      have htail := ih (fun a ha => hname a (List.mem_cons_of_mem x ha)) hl.2
      rw [List.flatMap_cons, List.filter_append]
      rcases List.mem_cons.mp ha with rfl | hmem
      · -- the block of the head is its own, and no later block has its key
        have hown : (block a).filter (fun b => name b = key a) = block a :=
          List.filter_eq_self.mpr fun b hb =>
            decide_eq_true (hname a List.mem_cons_self b hb)
        have hrest : (l.flatMap block).filter (fun b => name b = key a) = [] := by
          refine List.filter_eq_nil_iff.mpr ?_
          intro b hb
          obtain ⟨y, hy, hby⟩ := List.mem_flatMap.mp hb
          rw [hname y (List.mem_cons_of_mem a hy) b hby, decide_eq_true_eq]
          intro heq
          exact hl.1 (heq ▸ List.mem_map_of_mem hy)
        rw [hown, hrest, List.append_nil]
      · have hhead : (block x).filter (fun b => name b = key a) = [] := by
          refine List.filter_eq_nil_iff.mpr ?_
          intro b hb
          rw [hname x List.mem_cons_self b hb, decide_eq_true_eq]
          intro heq
          exact hl.1 (heq ▸ List.mem_map_of_mem hmem)
        rw [hhead, List.nil_append]
        exact htail hmem

theorem filter_blocks_of_not_mem {α β κ : Type} [DecidableEq κ] {l : List α} {key : α → κ}
    {block : α → List β} {name : β → κ} (hname : ∀ a ∈ l, ∀ b ∈ block a, name b = key a)
    {k : κ} (hk : k ∉ l.map key) : (l.flatMap block).filter (fun b => name b = k) = [] := by
  refine List.filter_eq_nil_iff.mpr ?_
  intro b hb
  obtain ⟨a, ha, hba⟩ := List.mem_flatMap.mp hb
  rw [hname a ha b hba, decide_eq_true_eq]
  intro heq
  exact hk (heq ▸ List.mem_map_of_mem ha)

theorem name_of_mem_liveCard {now : Int} {finding : Finding} {h : Option History}
    {evt : LedgerEvent} (hevt : evt ∈ (liveCard clock now finding h).2) :
    evt.findingId = finding.identityKey ∧ evt.identitySchemeVersion = identitySchemeVersion ∧
      h ≠ none := by
  cases h with
  | none => cases hevt
  | some h =>
      have hmem : evt ∈ (if (columnForLiveWithLedger clock finding h now).2 then
        [buildSystemEvent clock finding.identityKey .reopened finding.fingerprint now
          (latestDescriptor h.events)] else []) := hevt
      by_cases hemit : (columnForLiveWithLedger clock finding h now).2 = true
      · rw [if_pos hemit, List.mem_singleton] at hmem
        rw [hmem]
        exact ⟨rfl, rfl, Option.some_ne_none h⟩
      · rw [if_neg hemit] at hmem
        cases hmem

theorem name_of_mem_absentOf {ledger : Ledger} {now : Int} {key : String} {evt : LedgerEvent}
    (hevt : evt ∈ (absentOf clock ledger now key).2) :
    evt.findingId = key ∧ evt.identitySchemeVersion = identitySchemeVersion ∧
      ledger.find key ≠ none := by
  unfold absentOf at hevt
  cases hfind : ledger.find key with
  | none =>
      rw [hfind] at hevt
      cases hevt
  | some h =>
      rw [hfind] at hevt
      refine ⟨?_, ?_, Option.some_ne_none h⟩ <;>
      · unfold absentCard at hevt
        cases hevent : (currentDisposition clock h (some now)).event <;>
          simp only [hevent, List.mem_singleton, List.not_mem_nil] at hevt
        all_goals
          rw [hevt]
          rfl

theorem mem_emit {live : List Finding} {ledger : Ledger} {now : Int} {evt : LedgerEvent}
    (hevt : evt ∈ (reconcile clock live ledger now).emit) :
    evt.identitySchemeVersion = identitySchemeVersion ∧ evt.findingId ∈ ledger.keys := by
  rw [emit_reconcile, List.mem_append, List.mem_flatMap, List.mem_flatMap] at hevt
  rcases hevt with ⟨finding, -, hmem⟩ | ⟨key, -, hmem⟩
  · obtain ⟨hname, hversion, hfind⟩ := name_of_mem_liveCard clock hmem
    exact ⟨hversion, Table.mem_keys.mpr (hname ▸ hfind)⟩
  · obtain ⟨hname, hversion, hfind⟩ := name_of_mem_absentOf clock hmem
    exact ⟨hversion, Table.mem_keys.mpr (hname ▸ hfind)⟩

theorem appendAll_eq (flat : List LedgerEvent) {emitted : List LedgerEvent}
    (h : ∀ evt ∈ emitted, evt.identitySchemeVersion = identitySchemeVersion) :
    appendAll flat emitted = flat ++ emitted := by
  induction emitted generalizing flat with
  | nil => exact (List.append_nil flat).symm
  | cons evt emitted ih =>
      have hstamp : { evt with identitySchemeVersion := identitySchemeVersion } = evt := by
        rw [← h evt List.mem_cons_self]
      show appendAll (appendEvent flat evt) emitted = _
      rw [ih _ fun e he => h e (List.mem_cons_of_mem evt he)]
      show flat ++ [_] ++ emitted = _
      rw [hstamp, List.append_assoc]
      rfl

section Keys

variable {live : List Finding} (hlive : (live.map Finding.identityKey).Nodup)
include hlive

theorem emittedFor_live (ledger : Ledger) (now : Int) {finding : Finding}
    (hf : finding ∈ live) : emittedFor clock live ledger now finding.identityKey =
      (liveCard clock now finding (ledger.find finding.identityKey)).2 := by
  have habsent : finding.identityKey ∉ (absentKeys live ledger).map id := by
    rw [List.map_id]
    intro hmem
    have hnot := (List.mem_filter.mp hmem).2
    simp only [decide_eq_true_eq] at hnot
    exact hnot (List.mem_map_of_mem hf)
  have hrest : ((absentKeys live ledger).flatMap fun key =>
      (absentOf clock ledger now key).2).filter
        (fun evt => evt.findingId = finding.identityKey) = [] :=
    filter_blocks_of_not_mem (fun k _ b hb => (name_of_mem_absentOf clock hb).1) habsent
  show (reconcile clock live ledger now).emit.filter _ = _
  rw [emit_reconcile, List.filter_append,
    filter_blocks (fun f _ b hb => (name_of_mem_liveCard clock hb).1) hlive hf, hrest,
    List.append_nil]

omit hlive in
theorem emittedFor_absent (ledger : Ledger) (now : Int) {key : String}
    (hk : key ∈ absentKeys live ledger) : emittedFor clock live ledger now key =
      (absentOf clock ledger now key).2 := by
  have hnot : key ∉ live.map Finding.identityKey := by
    have h := (List.mem_filter.mp hk).2
    simpa only [decide_eq_true_eq] using h
  have hnodup : ((absentKeys live ledger).map id).Nodup := by
    rw [List.map_id]
    exact List.Nodup.filter _ ledger.nodup_keys
  show (reconcile clock live ledger now).emit.filter _ = _
  rw [emit_reconcile, List.filter_append,
    filter_blocks_of_not_mem (fun f _ b hb => (name_of_mem_liveCard clock hb).1) hnot,
    List.nil_append]
  exact filter_blocks (fun k _ b hb => (name_of_mem_absentOf clock hb).1) hnodup hk

end Keys

def ledgerAfter (flat : List LedgerEvent) (live : List Finding) (now : Int) : Ledger :=
  loadLedger (appendAll flat (reconcile clock live (loadLedger flat) now).emit)

theorem keys_ledgerAfter (flat : List LedgerEvent) (live : List Finding) (now : Int) :
    (ledgerAfter clock flat live now).keys = (loadLedger flat).keys := by
  unfold ledgerAfter
  rw [appendAll_eq flat fun evt he => (mem_emit clock he).1]
  exact keys_loadLedger_append flat _ fun evt he => (mem_emit clock he).2

/-- **The group of a key after a pass: what the pass emitted for it comes last.** -/
theorem find_ledgerAfter (flat : List LedgerEvent) (live : List Finding) (now : Int)
    {key : String} {h : History} (hfind : (loadLedger flat).find key = some h) :
    ∃ h', (ledgerAfter clock flat live now).find key = some h' ∧
      h'.events = h.events ++ emittedFor clock live (loadLedger flat) now key := by
  have hbefore := find_loadLedger flat key
  rw [hfind] at hbefore
  have hown : ofFinding flat key = h.events := by
    by_cases hnil : ofFinding flat key = []
    · rw [if_pos hnil] at hbefore
      cases hbefore
    · rw [if_neg hnil] at hbefore
      exact (Option.some.inj hbefore).symm
  have hafter := find_loadLedger (flat ++ (reconcile clock live (loadLedger flat) now).emit) key
  have hsplit : ofFinding (flat ++ (reconcile clock live (loadLedger flat) now).emit) key =
      h.events ++ emittedFor clock live (loadLedger flat) now key := by
    show (flat ++ _).filter _ = _
    rw [List.filter_append]
    show ofFinding flat key ++ _ = _
    rw [hown]
    rfl
  rw [hsplit, if_neg (List.append_ne_nil_of_left_ne_nil h.nonempty _)] at hafter
  unfold ledgerAfter
  rw [appendAll_eq flat fun evt he => (mem_emit clock he).1]
  exact Option.map_eq_some_iff.mp hafter

theorem find_ledgerAfter_none (flat : List LedgerEvent) (live : List Finding) (now : Int)
    {key : String} (hfind : (loadLedger flat).find key = none) :
    (ledgerAfter clock flat live now).find key = none := by
  by_contra hsome
  have hmem := Table.mem_keys.mpr hsome
  rw [keys_ledgerAfter] at hmem
  exact Table.mem_keys.mp hmem hfind

/-! ## The second pass -/

theorem priorHumanDisposition_push {h h' : History} (hmark : isMark h.latest = true)
    {mark : LedgerEvent} (hpushed : isMark mark = true) (hevents : h'.events = h.events ++ [mark]) :
    priorHumanDisposition h'.events = priorHumanDisposition h.events := by
  rw [hevents, priorHumanDisposition_append _ hpushed, priorHumanDisposition_of_isMark hmark]

theorem columnForLiveWithLedger_snd (finding : Finding) (h : History) (now : Int) :
    (columnForLiveWithLedger clock finding h now).2 = decide (h.latest.event = .resolved) := by
  have hevent : (currentDisposition clock h (some now)).event = h.latest.event := rfl
  unfold columnForLiveWithLedger
  simp only [hevent]
  cases h.latest.event <;> rfl

theorem columnForLiveWithLedger_fst {finding : Finding} {h : History} {now : Int}
    (hmark : h.latest.event = .resolved ∨ h.latest.event = .reopened) :
    (columnForLiveWithLedger clock finding h now).1 = priorHumanDisposition h.events := by
  have hevent : (currentDisposition clock h (some now)).event = h.latest.event := rfl
  unfold columnForLiveWithLedger
  rcases hmark with he | he
  · simp only [hevent, he]
  · simp only [hevent, he]

/-- **A live finding in the second pass: nothing is emitted, and the column is the same.** -/
theorem second_live {flat : List LedgerEvent} {live : List Finding} {now : Int}
    (hlive : (live.map Finding.identityKey).Nodup) {finding : Finding} (hf : finding ∈ live) :
    (liveCard clock now finding
        ((ledgerAfter clock flat live now).find finding.identityKey)).2 = [] ∧
      (cardOf clock (ledgerAfter clock flat live now) now finding).disposition =
        (cardOf clock (loadLedger flat) now finding).disposition := by
  have hemitted := emittedFor_live clock hlive (loadLedger flat) now hf
  cases hfind : (loadLedger flat).find finding.identityKey with
  | none =>
      have hafter := find_ledgerAfter_none clock flat live now hfind
      unfold cardOf
      rw [hafter, hfind]
      exact ⟨rfl, rfl⟩
  | some h =>
      obtain ⟨h', hafter, hevents⟩ := find_ledgerAfter clock flat live now hfind
      rw [hemitted, hfind] at hevents
      unfold cardOf
      rw [hafter, hfind]
      show (if (columnForLiveWithLedger clock finding h' now).2 then _ else []) = [] ∧
        (columnForLiveWithLedger clock finding h' now).1 =
          (columnForLiveWithLedger clock finding h now).1
      by_cases hresolved : h.latest.event = .resolved
      · -- the first pass emitted `reopened`, and the history now ends with it
        have hown : h'.events = h.events ++ [buildSystemEvent clock finding.identityKey
            .reopened finding.fingerprint now (latestDescriptor h.events)] := by
          rw [hevents]
          show h.events ++ (if (columnForLiveWithLedger clock finding h now).2 then _ else _) = _
          rw [columnForLiveWithLedger_snd, if_pos (decide_eq_true hresolved)]
        have hpush : h' = h.push (buildSystemEvent clock finding.identityKey .reopened
            finding.fingerprint now (latestDescriptor h.events)) := History.ext hown
        have hlatest : h'.latest.event = .reopened := by
          rw [hpush, History.latest_push]
          rfl
        constructor
        · rw [columnForLiveWithLedger_snd, hlatest]
          rfl
        · rw [columnForLiveWithLedger_fst clock (Or.inr hlatest),
            columnForLiveWithLedger_fst clock (Or.inl hresolved)]
          exact priorHumanDisposition_push (decide_eq_true (Or.inl hresolved))
            (decide_eq_true (Or.inr rfl)) hown
      · have hsame : h' = h := by
          refine History.ext ?_
          rw [hevents]
          show h.events ++ (if (columnForLiveWithLedger clock finding h now).2 then _ else _) = _
          rw [columnForLiveWithLedger_snd, if_neg (by simpa using hresolved), List.append_nil]
        rw [hsame, columnForLiveWithLedger_snd, if_neg (by simpa using hresolved)]
        exact ⟨rfl, rfl⟩

theorem absentCard_eq (now : Int) (key : String) (h : History) : absentCard clock now key h =
      if h.latest.event = .accept ∨ h.latest.event = .reopened then
        ([skeletonFinding key h], [buildSystemEvent clock key .resolved
          h.latest.againstFingerprint now (latestDescriptor h.events)])
      else if h.latest.event = .resolved then ([skeletonFinding key h], []) else ([], []) := by
  have hevent : (currentDisposition clock h (some now)).event = h.latest.event := rfl
  have hprint : (currentDisposition clock h (some now)).againstFingerprint =
      h.latest.againstFingerprint := rfl
  unfold absentCard
  simp only [hevent, hprint]
  cases h.latest.event <;> simp

def placed (card : Finding) : String × BoardColumn := (card.identityKey, card.disposition)

/-- **An absent key in the second pass: nothing is emitted, and the card is placed as it was.** -/
theorem second_absent {flat : List LedgerEvent} {live : List Finding} {now : Int}
    {key : String} (hk : key ∈ absentKeys live (loadLedger flat)) :
    (absentOf clock (ledgerAfter clock flat live now) now key).2 = [] ∧
      (absentOf clock (ledgerAfter clock flat live now) now key).1.map placed =
        (absentOf clock (loadLedger flat) now key).1.map placed := by
  have hemitted := emittedFor_absent clock (loadLedger flat) now hk
  cases hfind : (loadLedger flat).find key with
  | none =>
      have hafter := find_ledgerAfter_none clock flat live now hfind
      unfold absentOf
      rw [hafter, hfind]
      exact ⟨rfl, rfl⟩
  | some h =>
      obtain ⟨h', hafter, hevents⟩ := find_ledgerAfter clock flat live now hfind
      have hblock : emittedFor clock live (loadLedger flat) now key =
          (absentCard clock now key h).2 := by
        rw [hemitted]
        unfold absentOf
        rw [hfind]
      rw [hblock, absentCard_eq] at hevents
      unfold absentOf
      rw [hafter, hfind]
      show (absentCard clock now key h').2 = [] ∧ (absentCard clock now key h').1.map placed =
        (absentCard clock now key h).1.map placed
      rw [absentCard_eq clock now key h, absentCard_eq clock now key h']
      by_cases hopen : h.latest.event = .accept ∨ h.latest.event = .reopened
      · rw [if_pos hopen] at hevents
        have hpush : h' = h.push (buildSystemEvent clock key .resolved
            h.latest.againstFingerprint now (latestDescriptor h.events)) := History.ext hevents
        have hlatest : h'.latest.event = .resolved := by
          rw [hpush, History.latest_push]
          rfl
        rw [hlatest, if_pos hopen]
        exact ⟨rfl, rfl⟩
      · rw [if_neg hopen] at hevents
        have hsame : h' = h := by
          refine History.ext ?_
          rw [hevents]
          split <;> exact List.append_nil _
        rw [hsame, if_neg hopen]
        constructor
        · split <;> rfl
        · rfl

/-- Does an absent key have a card? -/
def shown (ledger : Ledger) (key : String) : Bool :=
  (ledger.find key).any fun h =>
    h.latest.event = .accept ∨ h.latest.event = .reopened ∨ h.latest.event = .resolved

theorem map_key_absentOf (ledger : Ledger) (now : Int) (key : String) :
    (absentOf clock ledger now key).1.map Finding.identityKey =
      if shown ledger key then [key] else [] := by
  unfold absentOf shown
  cases ledger.find key with
  | none => rfl
  | some h =>
      show (absentCard clock now key h).1.map _ = if decide _ = true then _ else _
      rw [absentCard_eq]
      by_cases hopen : h.latest.event = .accept ∨ h.latest.event = .reopened
      · have hor : h.latest.event = .accept ∨ h.latest.event = .reopened ∨
            h.latest.event = .resolved := by
          rcases hopen with he | he
          · exact Or.inl he
          · exact Or.inr (Or.inl he)
        rw [if_pos hopen, if_pos (decide_eq_true hor)]
        rfl
      · by_cases hresolved : h.latest.event = .resolved
        · rw [if_neg hopen, if_pos hresolved, if_pos (decide_eq_true (Or.inr (Or.inr hresolved)))]
          rfl
        · rw [if_neg hopen, if_neg hresolved, if_neg]
          · rfl
          · rw [decide_eq_true_eq]
            rintro (he | he | he)
            · exact hopen (Or.inl he)
            · exact hopen (Or.inr he)
            · exact hresolved he

theorem identityKey_cardOf (ledger : Ledger) (now : Int) (finding : Finding) :
    (cardOf clock ledger now finding).identityKey = finding.identityKey := by
  unfold cardOf
  cases ledger.find finding.identityKey with
  | none => rfl
  | some h => rfl

theorem keys_reconcile (live : List Finding) (ledger : Ledger) (now : Int) :
    (reconcile clock live ledger now).findings.map Finding.identityKey =
      live.map Finding.identityKey ++ (absentKeys live ledger).filter (shown ledger) := by
  rw [findings_reconcile, List.map_append, List.map_map, List.map_flatMap]
  congr 1
  · exact List.map_congr_left fun finding _ => identityKey_cardOf clock ledger now finding
  · rw [← List.filterMap_eq_filter, List.filterMap_eq_flatMap_toList]
    refine List.flatMap_congr ?_
    intro key _
    rw [map_key_absentOf]
    show _ = (if shown ledger key = true then some key else none).toList
    cases shown ledger key <;> rfl

/-- **Reconciliation is idempotent: a pass over the ledger that has the events of a pass
    emits nothing and places every card as before; there is one card a live key, and one
    an absent key whose latest event is an acceptance, a return or a resolution.** -/
theorem reconcile_idempotent (flat : List LedgerEvent) (live : List Finding) (now : Int)
    (hlive : (live.map Finding.identityKey).Nodup) :
    (reconcile clock live (ledgerAfter clock flat live now) now).emit = [] ∧
      (reconcile clock live (ledgerAfter clock flat live now) now).findings.map placed =
        (reconcile clock live (loadLedger flat) now).findings.map placed ∧
      (reconcile clock live (loadLedger flat) now).findings.map Finding.identityKey =
        live.map Finding.identityKey ++
          (absentKeys live (loadLedger flat)).filter (shown (loadLedger flat)) ∧
      ((reconcile clock live (loadLedger flat) now).findings.map Finding.identityKey).Nodup := by
  have habsent : absentKeys live (ledgerAfter clock flat live now) =
      absentKeys live (loadLedger flat) := by
    unfold absentKeys
    rw [keys_ledgerAfter]
  refine ⟨?_, ?_, keys_reconcile clock live (loadLedger flat) now, ?_⟩
  · rw [emit_reconcile, habsent, List.append_eq_nil_iff, List.flatMap_eq_nil_iff,
      List.flatMap_eq_nil_iff]
    exact ⟨fun finding hf => (second_live clock hlive hf).1,
      fun key hk => (second_absent clock hk).1⟩
  · rw [findings_reconcile, findings_reconcile, habsent, List.map_append, List.map_append,
      List.map_map, List.map_map, List.map_flatMap, List.map_flatMap]
    congr 1
    · refine List.map_congr_left ?_
      intro finding hf
      show ((cardOf clock _ now finding).identityKey, (cardOf clock _ now finding).disposition) =
        ((cardOf clock _ now finding).identityKey, (cardOf clock _ now finding).disposition)
      rw [identityKey_cardOf, identityKey_cardOf, (second_live clock hlive hf).2]
    · refine List.flatMap_congr ?_
      intro key hk
      exact (second_absent clock hk).2
  · rw [keys_reconcile, List.nodup_append]
    refine ⟨hlive, (List.Nodup.filter _ (loadLedger flat).nodup_keys).filter _, ?_⟩
    intro a ha b hb heq
    have hnot := (List.mem_filter.mp (List.mem_of_mem_filter hb)).2
    simp only [decide_eq_true_eq] at hnot
    exact hnot (heq ▸ ha)

/-- The finding that returned, with one that was accepted and has gone. -/
theorem reconcile_idempotent_returned :
    let flat := returnedLog ++ [{ oldDismissal with findingId := "f2", event := .accept }]
    let live := [changedFinding]
    (reconcile stoppedClock live (ledgerAfter stoppedClock flat live 0) 0).emit = [] ∧
      (reconcile stoppedClock live (ledgerAfter stoppedClock flat live 0) 0).findings.map placed =
        (reconcile stoppedClock live (loadLedger flat) 0).findings.map placed ∧
      (reconcile stoppedClock live (loadLedger flat) 0).findings.map Finding.identityKey =
        live.map Finding.identityKey ++
          (absentKeys live (loadLedger flat)).filter (shown (loadLedger flat)) ∧
      ((reconcile stoppedClock live (loadLedger flat) 0).findings.map
        Finding.identityKey).Nodup :=
  reconcile_idempotent stoppedClock _ [changedFinding] 0 (List.nodup_singleton "f1")

end Board
