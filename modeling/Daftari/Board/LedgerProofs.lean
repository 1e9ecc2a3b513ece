import Daftari.Frontmatter.SchemaProofs
import Daftari.Lib.TableProofs

/-! # The board's ledger — dispositions, and the cards they make of live findings

    `board/ledger.ts` and `board/reconcile.ts`.  Every disposition of a finding is an event
    in an append-only log; the log is read back grouped by finding.  `reconcile` joins the
    groups with the findings that are live at an instant: it gives one card a finding, in
    one of five columns, and the system events that the caller has to append.

    * `find_loadLedger`, `keys_loadLedger_append`: **a group is the finding's own part of the
      log, and events of known findings move no group**. -/

namespace Board

open Frontmatter (Value)

/-! ## Events and findings -/

inductive BoardColumn where
  | new
  | accepted
  | waiting
  | resolved
  | dismissed
deriving DecidableEq, Repr

inductive FindingSource where
  | lint
  | staleness
  | tension
  | staged
  | tier2
deriving DecidableEq, Repr

inductive FindingTarget where
  | lint (path : String)
  | staleness (path : String)
  | tension (tensionId : String)
  | staged (stagedActionId : String)
  | tier2 (artifact unit edgeClass : String)
deriving DecidableEq, Repr

/-- `FindingDescriptor`: a snapshot of a finding, for when it is no longer live. -/
structure FindingDescriptor where
  source : FindingSource
  check : String
  target : FindingTarget
  label : String
  rbacPaths : Option (List String)
deriving DecidableEq

/-- `LedgerEventType`; a line of the log may hold any other text. -/
inductive LedgerEventType where
  | new
  | accept
  | defer
  | dismiss
  | reassign
  | resolved
  | reopened
  | other (text : String)
deriving DecidableEq, Repr

inductive PrincipalType where
  | human
  | agent
  | system
deriving DecidableEq, Repr

structure LedgerEvent where
  findingId : String
  event : LedgerEventType
  author : String
  principalType : PrincipalType
  atISO : String
  againstFingerprint : String
  rationale : Option String
  expiry : Option String
  owner : Option String
  identitySchemeVersion : String
  descriptor : Option FindingDescriptor
deriving DecidableEq

/-- `Confidence`. -/
inductive Certainty where
  | low
  | medium
  | high
deriving DecidableEq, Repr

structure Finding where
  identityKey : String
  source : FindingSource
  check : String
  target : FindingTarget
  discriminator : Option String
  fingerprint : String
  certainty : Certainty
  evidence : Value
  suggestedAction : String
  verifyPredicate : String
  owner : String
  firstSeen : String
  lastSeen : String
  disposition : BoardColumn
  history : List LedgerEvent
deriving DecidableEq

/-- What the board takes from the language: instants are milliseconds. -/
structure Clock where
  /-- `Date.parse`; `none` where it is not a number. -/
  dateParse : String → Option Int
  /-- `toISOString`. -/
  toISOString : Int → String

/-! ## The log -/

def identitySchemeVersion : String := "1"

/-- `appendEvent`: the event goes to the end of the log, under the current scheme. -/
def appendEvent (flat : List LedgerEvent) (event : LedgerEvent) : List LedgerEvent :=
  flat ++ [{ event with identitySchemeVersion := identitySchemeVersion }]

/-- The events of one finding in append order.  A group begins with its first event, so
    it is never empty. -/
structure History where
  events : List LedgerEvent
  nonempty : events ≠ []
deriving DecidableEq

def History.one (evt : LedgerEvent) : History := ⟨[evt], List.cons_ne_nil evt []⟩

/-- `existing.push(evt)`. -/
def History.push (h : History) (evt : LedgerEvent) : History :=
  ⟨h.events ++ [evt], List.append_ne_nil_of_right_ne_nil _ (List.cons_ne_nil evt [])⟩

def History.latest (h : History) : LedgerEvent := h.events.getLast h.nonempty

@[simp] theorem History.events_one (evt : LedgerEvent) : (History.one evt).events = [evt] := rfl

@[simp] theorem History.events_push (h : History) (evt : LedgerEvent) :
    (h.push evt).events = h.events ++ [evt] := rfl

@[simp] theorem History.latest_push (h : History) (evt : LedgerEvent) :
    (h.push evt).latest = evt := by
  show (h.events ++ [evt]).getLast _ = evt
  rw [List.getLast_append_of_right_ne_nil _ _ (List.cons_ne_nil evt [])]
  rfl

theorem History.events_eq (h : History) : h.events = h.events.dropLast ++ [h.latest] :=
  (List.dropLast_append_getLast h.nonempty).symm

@[ext] theorem History.ext {h h' : History} (heq : h.events = h'.events) : h = h' := by
  cases h'
  cases heq
  rfl

/-- The histories, by finding, in the order of their first events. -/
abbrev Ledger := Table String History

def addEvent (byFinding : Ledger) (evt : LedgerEvent) : Ledger :=
  match byFinding.find evt.findingId with
  | some existing => byFinding.set evt.findingId (existing.push evt)
  | none => byFinding.set evt.findingId (.one evt)

/-- `loadLedger`: `byFinding`, from the events of the log. -/
def loadLedger (flat : List LedgerEvent) : Ledger := flat.foldl addEvent .empty

/-! ## A finding's state -/

def timerAfter (expiry : Option String) (evt : LedgerEvent) : Option String :=
  match evt.event with
  | .defer | .dismiss => evt.expiry
  | .accept | .resolved => none
  | _ => expiry

def ownerAfter (owner : Option String) (evt : LedgerEvent) : Option String :=
  if evt.event = .reassign then evt.owner.or owner else owner

/-- `Date.parse(expiry) < now.getTime()`; false without an instant, or where one is no number. -/
def elapsed (clock : Clock) (now : Option Int) (expiry : Option String) : Bool :=
  expiry.any fun text => (clock.dateParse text).any fun end_ => now.any fun now => end_ < now

/-- `CurrentDispositionResult`. -/
structure CurrentDisposition where
  event : LedgerEventType
  againstFingerprint : String
  expiry : Option String
  owner : Option String
  expired : Bool
  latestEvent : LedgerEvent

def currentDisposition (clock : Clock) (h : History) (now : Option Int) :
    CurrentDisposition where
  event := h.latest.event
  againstFingerprint := h.latest.againstFingerprint
  expiry := h.events.foldl timerAfter none
  owner := h.events.foldl ownerAfter none
  expired := elapsed clock now (h.events.foldl timerAfter none)
  latestEvent := h.latest

structure EventTimestamps where
  firstSeen : String
  lastSeen : String
deriving DecidableEq

def EventTimestamps.widen (ts : EventTimestamps) (evt : LedgerEvent) : EventTimestamps where
  firstSeen := if Text.lt evt.atISO ts.firstSeen then evt.atISO else ts.firstSeen
  lastSeen := if Text.lt ts.lastSeen evt.atISO then evt.atISO else ts.lastSeen

def eventTimestamps (h : History) : EventTimestamps :=
  h.events.foldl EventTimestamps.widen
    ⟨(h.events.head h.nonempty).atISO, (h.events.head h.nonempty).atISO⟩

/-! ## Reconciliation -/

/-- The column a decision of a human stands for. -/
def humanColumn : LedgerEventType → Option BoardColumn
  | .accept => some .accepted
  | .defer => some .waiting
  | .dismiss => some .dismissed
  | _ => none

/-- The backward scan; the flag says whether the latest `resolved` or `reopened` has been passed. -/
def scanBack : Bool → List LedgerEvent → BoardColumn
  | _, [] => .new
  | false, evt :: older => scanBack (evt.event = .resolved ∨ evt.event = .reopened) older
  | true, evt :: older =>
      match humanColumn evt.event with
      | some column => column
      | none => scanBack true older

def priorHumanDisposition (events : List LedgerEvent) : BoardColumn :=
  scanBack false events.reverse

/-- `columnForLiveWithLedger`: the column, and whether a `reopened` is to be emitted. -/
def columnForLiveWithLedger (clock : Clock) (finding : Finding) (h : History) (now : Int) :
    BoardColumn × Bool :=
  let disp := currentDisposition clock h (some now)
  match disp.event with
  | .accept => (.accepted, false)
  | .defer => (if disp.expired then .new else .waiting, false)
  | .dismiss =>
      (if disp.againstFingerprint ≠ finding.fingerprint ∨ disp.expired then .new
        else .dismissed, false)
  | .resolved => (priorHumanDisposition h.events, true)
  | .reopened => (priorHumanDisposition h.events, false)
  | _ => (.new, false)

def buildSystemEvent (clock : Clock) (findingId : String) (event : LedgerEventType)
    (againstFingerprint : String) (now : Int) (descriptor : Option FindingDescriptor) :
    LedgerEvent where
  findingId := findingId
  event := event
  author := "system"
  principalType := .system
  atISO := clock.toISOString now
  againstFingerprint := againstFingerprint
  rationale := none
  expiry := none
  owner := none
  identitySchemeVersion := identitySchemeVersion
  descriptor := descriptor

def latestDescriptor (events : List LedgerEvent) : Option FindingDescriptor :=
  events.reverse.findSome? LedgerEvent.descriptor

/-- `skeletonFinding`: the card of a finding that is no longer live. -/
def skeletonFinding (identityKey : String) (h : History) : Finding where
  identityKey := identityKey
  source := ((latestDescriptor h.events).map FindingDescriptor.source).getD .staleness
  check := ((latestDescriptor h.events).map FindingDescriptor.check).getD "unknown"
  target :=
    ((latestDescriptor h.events).map FindingDescriptor.target).getD (.staleness identityKey)
  discriminator := none
  fingerprint := h.latest.againstFingerprint
  certainty := .medium
  evidence := .obj []
  suggestedAction := ""
  verifyPredicate := ""
  owner := (h.events.reverse.findSome? LedgerEvent.owner).getD ""
  firstSeen := (eventTimestamps h).firstSeen
  lastSeen := (eventTimestamps h).lastSeen
  disposition := .resolved
  history := h.events

/-- A card, and the events to append with it. -/
abbrev Outcome := List Finding × List LedgerEvent

/-- Cases A and B: a live finding, with the history the ledger has of it. -/
def liveCard (clock : Clock) (now : Int) (finding : Finding) : Option History → Outcome
  | none => ([{ finding with disposition := .new, history := [] }], [])
  | some h =>
      let placed := columnForLiveWithLedger clock finding h now
      ([{ finding with
          disposition := placed.1
          history := h.events
          firstSeen := (eventTimestamps h).firstSeen
          lastSeen := (eventTimestamps h).lastSeen }],
        if placed.2 then
          [buildSystemEvent clock finding.identityKey .reopened finding.fingerprint now
            (latestDescriptor h.events)]
        else [])

/-- Case C: a finding of the ledger that is not live. -/
def absentCard (clock : Clock) (now : Int) (identityKey : String) (h : History) : Outcome :=
  let disp := currentDisposition clock h (some now)
  match disp.event with
  | .accept | .reopened =>
      ([skeletonFinding identityKey h],
        [buildSystemEvent clock identityKey .resolved disp.againstFingerprint now
          (latestDescriptor h.events)])
  | .resolved => ([skeletonFinding identityKey h], [])
  | _ => ([], [])

structure ReconcileResult where
  findings : List Finding
  emit : List LedgerEvent
deriving DecidableEq

def reconcile (clock : Clock) (live : List Finding) (ledger : Ledger) (now : Int) :
    ReconcileResult :=
  let cards := live.map fun finding =>
    liveCard clock now finding (ledger.find finding.identityKey)
  let absent := ledger.entries.filter fun e => e.1 ∉ live.map Finding.identityKey
  let skeletons := absent.map fun e => absentCard clock now e.1 e.2
  ⟨cards.flatMap Prod.fst ++ skeletons.flatMap Prod.fst,
    cards.flatMap Prod.snd ++ skeletons.flatMap Prod.snd⟩

/-! ## What a loaded ledger holds -/

/-- The part of the log that names one finding. -/
def ofFinding (flat : List LedgerEvent) (key : String) : List LedgerEvent :=
  flat.filter fun evt => evt.findingId = key

variable (flat : List LedgerEvent)

theorem ofFinding_append (evt : LedgerEvent) (key : String) : ofFinding (flat ++ [evt]) key =
      if evt.findingId = key then ofFinding flat key ++ [evt] else ofFinding flat key := by
  show (flat ++ [evt]).filter _ = _
  rw [List.filter_append]
  by_cases hk : evt.findingId = key
  · rw [if_pos hk, List.filter_cons_of_pos (by simpa using hk), List.filter_nil]
    rfl
  · rw [if_neg hk, List.filter_cons_of_neg (by simpa using hk), List.filter_nil,
      List.append_nil]
    rfl

theorem loadLedger_append (evt : LedgerEvent) :
    loadLedger (flat ++ [evt]) = addEvent (loadLedger flat) evt := by
  show (flat ++ [evt]).foldl addEvent .empty = _
  rw [List.foldl_append]
  rfl

theorem find_addEvent (ledger : Ledger) (evt : LedgerEvent) (key : String) :
    (addEvent ledger evt).find key = if key = evt.findingId then
        some (((ledger.find evt.findingId).map fun h => h.push evt).getD (.one evt))
      else ledger.find key := by
  unfold addEvent
  cases hf : ledger.find evt.findingId with
  | none => exact Table.find_set _ _ _ _
  | some existing => exact Table.find_set _ _ _ _

/-- **A finding's group is its own part of the log, in append order.** -/
theorem find_loadLedger (key : String) : ((loadLedger flat).find key).map History.events =
      if ofFinding flat key = [] then none else some (ofFinding flat key) := by
  induction flat using List.reverseRecOn with
  | nil => rfl
  | append_singleton flat evt ih =>
      rw [loadLedger_append, find_addEvent, ofFinding_append]
      by_cases hk : key = evt.findingId
      · subst hk
        rw [if_pos rfl, if_pos rfl, if_neg (by simp)]
        cases hf : (loadLedger flat).find evt.findingId with
        | none =>
            rw [hf] at ih
            have hnil : ofFinding flat evt.findingId = [] := by
              by_contra hne
              rw [if_neg hne] at ih
              cases ih
            rw [hnil]
            rfl
        | some existing =>
            rw [hf] at ih
            have hevents : some existing.events = some (ofFinding flat evt.findingId) := by
              by_cases hnil : ofFinding flat evt.findingId = []
              · rw [if_pos hnil] at ih
                cases ih
              · rw [if_neg hnil] at ih
                exact ih
            show some (existing.push evt).events = _
            rw [History.events_push, Option.some.inj hevents]
      · rw [if_neg hk, if_neg (Ne.symm hk)]
        exact ih

theorem keys_addEvent (ledger : Ledger) {evt : LedgerEvent} (h : evt.findingId ∈ ledger.keys) :
    (addEvent ledger evt).keys = ledger.keys := by
  have hset : ∀ history : History, (ledger.set evt.findingId history).keys = ledger.keys := by
    intro history
    show Assoc.keys (Assoc.set ledger.entries evt.findingId history) = _
    rw [Assoc.keys_set]
    exact if_pos h
  unfold addEvent
  cases ledger.find evt.findingId with
  | none => exact hset _
  | some existing => exact hset _

/-- **Events of findings that have groups move no group.** -/
theorem keys_loadLedger_append (emitted : List LedgerEvent)
    (h : ∀ evt ∈ emitted, evt.findingId ∈ (loadLedger flat).keys) :
    (loadLedger (flat ++ emitted)).keys = (loadLedger flat).keys := by
  induction emitted using List.reverseRecOn with
  | nil => rw [List.append_nil]
  | append_singleton emitted evt ih =>
      have hbefore := ih fun e he => h e (List.mem_append_left _ he)
      rw [← List.append_assoc, loadLedger_append, keys_addEvent, hbefore]
      rw [hbefore]
      exact h evt (by simp)

end Board
