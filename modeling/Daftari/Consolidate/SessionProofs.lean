import Daftari.Consolidate.EventClockProofs
import Daftari.Curation.EdgesIndexProofs
import Daftari.Curation.TensionLogProofs
import Daftari.Tools.WriteCallProofs
import Mathlib.Algebra.Order.Ring.Rat

/-! # A consolidate session — birth passes and revision panels

    A session takes its due queue apart: every birth asks about each of its
    neighbours in both orders, every due edge gets a panel of votes.  What the
    answers come to is decided first and is a function of the answers alone;
    what is then done goes through effects that the session driver hands in.

    * `readPair`, `panelDecision`: what the answers say;
    * `makeObserve`, `makeContest`, `makeAppendReaderLineage`: the effects that
      know about shadow mode, `recordTension`, which does not. -/

namespace Consolidate

open Frontmatter (Value asString texts ParsedDocument parseDocument Raw)
open Edges (DerivesFromEdge EdgeStatus ObserveEdgeInput ContestEdgeInput edgeAxes canonPair)
open Tension (Str TensionInput)

variable {B T S : Type}

/-! ## Surroundings -/

/-- The clocks and the file system at one place of a session. -/
structure Moment (T : Type) where
  iso : String
  today : Str
  setting : Write.Setting
  clock : Nat → T
  mtimeMs : Nat
  opens : Bool

/-- `(blast − 1) ** SHADOW_BLAST_ALPHA`, whose values are not rational. -/
structure BlastPower where
  pow : Nat → ℚ
  nonneg : ∀ n, 0 ≤ pow n

/-- The libraries and the configuration of a session. -/
structure Env (B T S : Type) where
  vault : Write.Host B
  edges : Edges.Host T S
  /-- How many documents a change of this one reaches. -/
  downstream : Write.Files B → String → Nat
  power : BlastPower
  sha256Hex : List Char → String
  /-- `readerFromContent`. -/
  readerFromContent : List Char → Option Str
  model : String
  readerPromptVersion : String

/-- A place in a session, for the moment it happens at. -/
inductive Site where
  | pair (item neighbor : Nat)
  | birth (item : Nat)
  | vote (item vote : Nat)
  | panel (item : Nat)

structure EnvelopeVerdict where
  admits : Bool
  gate : Option String
  reason : String
  impact : ℚ

/-- Everything a session is told from outside, by the place it asks at: the search
    hits, the model's answers and the envelope's verdicts (`none`: it threw). -/
structure Answers (T : Type) where
  hits : Nat → Except String (List String)
  order1 : Nat → Nat → Except String Value
  order2 : Nat → Nat → Except String Value
  vote : Nat → Nat → Except String Value
  admitPair : Nat → Nat → Option EnvelopeVerdict
  admitPanel : Nat → Option EnvelopeVerdict
  moment : Site → Moment T

/-! ## What a session writes -/

/-- `EnvelopeActionType`. -/
inductive EnvelopeAction where
  | edgeObserve
  | edgeContest
deriving DecidableEq

/-- A row of the shadow journal: a decision of the envelope, or a document write. -/
inductive JournalRow where
  | envelope (action : EnvelopeAction) (fromPath toPath : String) (admitted : Bool)
      (gate : Option String) (reason : String) (impact : ℚ)
  | write (tool action targetPath : String) (blast : Nat) (impact spentBefore : ℚ)
deriving DecidableEq

structure ReadLogEntry where
  tool : String
  file : String
deriving DecidableEq

inductive Premise where
  | doc
  | neighbor
deriving DecidableEq

inductive ReconcileOutcome where
  | unrelated
  | directed (premise : Premise)
  | symmetric (contested : Bool)
deriving DecidableEq

/-- `BirthVerdict` or `BirthVerdictError`; a gated verdict names its gate. -/
inductive BirthVerdict where
  | error (neighbor message : String)
  | verdict (neighbor : String) (outcome : ReconcileOutcome) (reason : String)
  | gated (neighbor : String) (outcome : ReconcileOutcome) (reason : String)
      (gate : Option String)
deriving DecidableEq

structure BirthTraceRow where
  iso : String
  docPath : String
  contentHash : String
  topK : List String
  axis : String
  model : String
  verdicts : List BirthVerdict
deriving DecidableEq

inductive RevisionDecision where
  | survives
  | fails
  | tie
  | noVote
  | gated
deriving DecidableEq

/-- `RevisionVote` or `RevisionVoteError`. -/
structure RevisionVote where
  axis : String
  said : Except String (Bool × String)

structure RevisionTraceRow (S : Type) where
  iso : String
  fromPath : String
  toPath : String
  edgeStrengthAtStart : S
  kSurvivedAtStart : Nat
  lastRederivedAtStart : String
  model : String
  votes : List RevisionVote
  decision : RevisionDecision
  observedCount : Nat
  contestedCount : Nat
  gate : Option String
  gateReason : Option String

/-- The vault, what lies beside it, and the process's shadow spend. -/
structure World (B S : Type) where
  files : Write.Files B
  edges : Edges.Store S
  tensions : Option Str
  spent : ℚ
  journal : List JournalRow
  readLog : List ReadLogEntry
  births : List BirthTraceRow
  revisions : List (RevisionTraceRow S)
  birthProcessed : List (String × String)
  lastConsolidationCommit : Option String

/-! ## What the answers say -/

/-- `canon`, of a text. -/
def canonPath (p : String) : String := String.ofList (canon p.toList)

inductive PremiseSide where
  | a
  | b
  | symmetric
deriving DecidableEq

/-- `PREMISE_SIDES`. -/
def PremiseSide.ofText : String → Option PremiseSide
  | "A" => some .a
  | "B" => some .b
  | "symmetric" => some .symmetric
  | _ => none

structure DerivationVerdict where
  related : Bool
  premise : Option PremiseSide
  reason : String

/-- `JSON.stringify` in a message; a missing value is `undefined`. -/
def shown (json : Value → String) (v : Option Value) : String := (v.map json).getD "undefined"

def parseDerivationVerdict (json : Value → String) :
    Value → Except String DerivationVerdict
  | .obj fields =>
      match fields.lookup "related" with
      | some (.bool related) =>
          match (asString (fields.lookup "reason")).filter fun r => !Write.blank r with
          | none => .error "verdict: 'reason' is required (and non-empty)"
          | some reason =>
              if related then
                match (asString (fields.lookup "premise")).bind PremiseSide.ofText with
                | none => .error ("verdict: 'premise' must be one of A|B|symmetric, got "
                    ++ shown json (fields.lookup "premise"))
                | some side => .ok ⟨true, some side, reason⟩
              else .ok ⟨false, none, reason⟩
      | v => .error ("verdict: 'related' must be a boolean, got " ++ shown json v)
  | _ => .error "verdict: expected object"

/-- The premise of a verdict on DOC A and DOC B; `none` where they are unrelated, and
    `some none` where the verdict is symmetric. -/
def realWorldPremise (docA docB : Premise) (v : DerivationVerdict) : Option (Option Premise) :=
  if v.related then
    v.premise.map fun
      | .a => some docA
      | .b => some docB
      | .symmetric => none
  else none

def realWorldPremise1 : DerivationVerdict → Option (Option Premise) :=
  realWorldPremise .doc .neighbor

def realWorldPremise2 : DerivationVerdict → Option (Option Premise) :=
  realWorldPremise .neighbor .doc

def reconcileDirection (order1 order2 : DerivationVerdict) : ReconcileOutcome :=
  match realWorldPremise1 order1, realWorldPremise2 order2 with
  | none, _ | _, none => .unrelated
  | some none, _ | _, some none => .symmetric false
  | some (some r1), some (some r2) => if r1 = r2 then .directed r1 else .symmetric true

/-- `parseRevisionVerdict`; does the edge survive, and why. -/
def parseRevisionVerdict (json : Value → String) : Value → Except String (Bool × String)
  | .obj fields =>
      let v := fields.lookup "verdict"
      if asString v = some "survives" ∨ asString v = some "fails" then
        match (asString (fields.lookup "reason")).filter fun r => !Write.blank r with
        | none => .error "revision verdict: 'reason' is required"
        | some reason => .ok (asString v = some "survives", reason)
      else .error ("revision verdict: expected 'survives' | 'fails', got " ++ shown json v)
  | _ => .error "revision verdict: expected object"

/-! ## Effects -/

variable (env : Env B T S)

def shadowIBase : List (String × ℚ) :=
  [("create", 1 / 10), ("append", 3 / 20), ("update", 1 / 5), ("patch", 1 / 5),
    ("confidence-set", 1 / 5), ("promote", 3 / 10), ("deprecate", 2 / 5),
    ("supersede", 2 / 5), ("unsupersede", 2 / 5), ("merge", 3 / 5),
    ("edge-observe", 1 / 20), ("edge-contest", 1 / 10)]

def shadowKBlast : ℚ := 1 / 20

def shadowImpact (power : BlastPower) (action : String) (blast : Nat) : ℚ :=
  min ((shadowIBase.lookup action).getD (1 / 5) + shadowKBlast * power.pow (max 1 blast - 1)) 1

/-- `recordShadowAction`, over the files of the vault: it advances the shared spend. -/
def recordShadowAction (tool action targetPath : String) (w : World B S) : World B S :=
  let blast := 1 + env.downstream w.files targetPath
  let impact := shadowImpact env.power action blast
  { w with
    journal := w.journal ++ [.write tool action targetPath blast impact w.spent]
    spent := w.spent + impact }

/-- `recordEnvelopeDecision`, as `makeAdmit` journals a decision: the shared spend is left alone. -/
def recordEnvelopeDecision (action : EnvelopeAction) (fromPath toPath : String)
    (v : EnvelopeVerdict) (w : World B S) : World B S :=
  { w with
    journal := w.journal ++ [.envelope action fromPath toPath v.admits v.gate v.reason v.impact] }

/-- What `safeAdmit` makes of an admit that throws. -/
def threwVerdict : EnvelopeVerdict := ⟨false, some "invariants", "admit threw", 0⟩

/-- `safeAdmit`: the verdict, and the world with the decision journaled. -/
def safeAdmit (action : EnvelopeAction) (fromPath toPath : String)
    (answer : Option EnvelopeVerdict) (w : World B S) : EnvelopeVerdict × World B S :=
  match answer with
  | none => (threwVerdict, w)
  | some v => (v, recordEnvelopeDecision action fromPath toPath v w)

def stubEdge (fromPath toPath iso : String) (status : EdgeStatus) (reason : Edges.JsonValue) :
    DerivesFromEdge S where
  fromPath := fromPath
  toPath := toPath
  strength := env.edges.zero
  kSurvived := 0
  firstObserved := iso
  lastRederived := iso
  status := status
  directionVerdict := .directed
  observations := 0
  contestedAt := if status = .revoked then some iso else none
  contestReason := reason

section Stores

variable [LinearOrder S]

def makeObserve (shadowMode : Bool) (m : Moment T) (input : ObserveEdgeInput)
    (w : World B S) : Except String (DerivesFromEdge S) × World B S :=
  if shadowMode then (.ok (stubEdge env input.fromPath input.toPath m.iso .candidate .null), w)
  else
    let r := Edges.observeEdge env.edges input m.clock m.mtimeMs m.opens w.edges
    (r.1, { w with edges := r.2 })

def makeContest (shadowMode : Bool) (m : Moment T) (input : ContestEdgeInput)
    (w : World B S) : Except String (DerivesFromEdge S) × World B S :=
  if shadowMode then
    (.ok (stubEdge env input.fromPath input.toPath m.iso .revoked (.str input.reason)), w)
  else
    let r := Edges.contestEdge env.edges input m.clock m.mtimeMs m.opens w.edges
    (r.1, { w with edges := r.2 })

end Stores

/-- What `vault_read` gives the lineage appender. -/
structure VaultRead where
  relPath : String
  content : List Char
  raw : Raw
  nodup : (Assoc.keys raw).Nodup

/-- `vaultRead`, without an access context. -/
def vaultRead (host : Write.Host B) (path : String) (files : Write.Files B) :
    Except String VaultRead :=
  if path = "" then .error "vault_read requires a non-empty 'path' argument"
  else
    match host.resolve path with
    | .error e => .error e
    | .ok relPath =>
        match files.lookup relPath with
        | none => .error ("file not found: " ++ relPath)
        | some text =>
            match h : parseDocument host.codec host.json text with
            | .error e => .error e
            | .ok doc =>
                .ok ⟨relPath, doc.content, doc.raw, host.codec.nodup_parse text doc.raw doc.content
                    (Frontmatter.parse_of_parseDocument h).1⟩

def consolidateAgent : String := "agent:curation-loop"

/-- The rewrite of a document with one more lineage entry. -/
def lineageWrite (path entry : String) (doc : VaultRead) : Write.WriteArgs where
  path := path
  agent := consolidateAgent
  body := doc.content
  frontmatter := Assoc.set doc.raw "reader_lineage" (texts [entry])
  nodup := Assoc.nodup_set _ _ doc.nodup
  baseVersion := none
  runId := none

def Moment.operator (m : Moment T) : Write.Setting := { m.setting with access := none }

/-- `vaultWrite`, with what it does to the world. -/
def writeLineage (m : Moment T) (path entry : String) (doc : VaultRead) (w : World B S) :
    World B S :=
  match Write.vaultWrite env.vault m.operator (lineageWrite path entry doc) w.files with
  | .error _ | .ok .staged => w
  | .ok .shadow => recordShadowAction env "vault_write" "update" doc.relPath w
  | .ok (.write plan) =>
      match Write.land env.vault plan w.files with
      | .error _ => w
      | .ok files => { w with files := files }

/-- `makeAppendReaderLineage`.  A read is logged, whatever becomes of the write. -/
def makeAppendReaderLineage (shadowMode : Bool) (m : Moment T) (path entry : String)
    (w : World B S) : World B S :=
  if shadowMode then w
  else
    match vaultRead env.vault path w.files with
    | .error _ => w
    | .ok doc =>
        writeLineage env m path entry doc
          { w with readLog := w.readLog ++ [⟨"vault_read", doc.relPath⟩] }

def openTitle (log : Option Str) (title : Str) : Bool :=
  (Tension.parseTensionLog (log.getD [])).any fun t => decide (t.title = title) && !t.resolved

/-- The driver's `recordTension`, on the log: an open tension of the same title is not stacked.
    Shadow mode is not asked. -/
def recordTension (today : Str) (input : TensionInput) (log : Option Str) : Option Str :=
  if openTitle log input.title then log
  else
    match Tension.addTension log today input with
    | .error _ => log
    | .ok (_, text) => some text

/-- The driver's `searchNeighbors`: every hit that is served is logged. -/
def searchNeighbors (hits : Except String (List String)) (w : World B S) :
    Except String (List String) × World B S :=
  match hits with
  | .error e => (.error e, w)
  | .ok hits => (.ok hits,
      { w with readLog := w.readLog ++ hits.map fun h => ⟨"vault_search_related", h⟩ })

/-! ## Birth -/

/-- The reading of a pair: the neighbour's content, what the two orders come to and
    the first order's reason; or why there is no verdict. -/
def readPair (docs : List (String × List Char)) (answers : Answers T) (i j : Nat)
    (neighbor : String) : Except String (List Char × ReconcileOutcome × String) :=
  match docs.lookup (canonPath neighbor) with
  | none => .error ("load failed: neighbor not in docs map: " ++ neighbor)
  | some content => do
      let p1 ← answers.order1 i j >>= parseDerivationVerdict env.vault.json
      let p2 ← answers.order2 i j >>= parseDerivationVerdict env.vault.json
      .ok (content, reconcileDirection p1 p2, p1.reason)

def claimSnippet (content : List Char) (fallback : String) : Str :=
  let line := ((content.splitOn '\n').find? fun l => Text.trim l ≠ []).getD []
  let snip := (Text.trim line).take 200
  if snip ≠ [] then snip else ("(no readable content: " ++ fallback ++ ")").toList

/-- `contested` or `mutual`. -/
def which (contested : Bool) : String := if contested then "contested" else "mutual"

/-- The direction-pending tension of a pair. -/
def directionTension (docPath : String) (content : List Char) (neighbor : String)
    (neighborContent : List Char) (contested : Bool) : TensionInput where
  title := ("direction-pending (" ++ which contested ++ "): "
    ++ (canonPair docPath neighbor).1 ++ " ↔ " ++ (canonPair docPath neighbor).2).toList
  kind := "interpretive".toList
  sourceA := docPath.toList
  claimA := claimSnippet content docPath
  sourceB := neighbor.toList
  claimB := claimSnippet neighborContent neighbor
  loggedBy := consolidateAgent.toList
  readerA := env.readerFromContent content
  readerB := env.readerFromContent neighborContent

def birthInput (fromPath toPath premiseVote note : String) : ObserveEdgeInput where
  fromPath := fromPath
  toPath := toPath
  observedBy := consolidateAgent
  blind := true
  axis := some "prompt"
  note := some note
  premiseVote := some premiseVote
  model := some env.model
  atISO := none

structure Pass (B S : Type) where
  world : World B S
  verdicts : List BirthVerdict
  observations : List (String × String)
  gatedCount : Nat

/-- One more verdict. -/
def Pass.push (p : Pass B S) (w : World B S) (vs : List BirthVerdict) : Pass B S :=
  { p with world := w, verdicts := p.verdicts ++ vs }

def Pass.refuse (p : Pass B S) (w : World B S) (v : BirthVerdict) : Pass B S :=
  { p.push w [v] with gatedCount := p.gatedCount + 1 }

def Pass.observed (p : Pass B S) (w : World B S) (fromPath toPath : String)
    (vs : List BirthVerdict) : Pass B S :=
  { p.push w vs with observations := p.observations ++ [(fromPath, toPath)] }

variable [LinearOrder S]

/-- One neighbour of a birth. -/
def birthPair (docs : List (String × List Char)) (answers : Answers T) (i : Nat)
    (docPath : String) (content : List Char) (p : Pass B S) (jn : String × Nat) : Pass B S :=
  let neighbor := jn.1
  let m := answers.moment (.pair i jn.2)
  let shadow := env.vault.config.shadowMode
  match readPair env docs answers i jn.2 neighbor with
  | .error e => p.push p.world [.error neighbor e]
  | .ok (_, .unrelated, reason) => p.push p.world [.verdict neighbor .unrelated reason]
  | .ok (_, .directed premise, reason) =>
      -- the premise is on the `to` side
      let ends := if premise = .doc then (neighbor, docPath) else (docPath, neighbor)
      let asked := safeAdmit .edgeObserve ends.1 ends.2 (answers.admitPair i jn.2) p.world
      if asked.1.admits then
        let obs := makeObserve env shadow m
          (birthInput env ends.1 ends.2 "to" ("birth: " ++ reason)) asked.2
        match obs.1 with
        | .error e => p.push obs.2 [.verdict neighbor (.directed premise) reason,
            .error neighbor ("observe failed: " ++ e)]
        | .ok _ => p.observed obs.2 ends.1 ends.2 [.verdict neighbor (.directed premise) reason]
      else p.refuse asked.2 (.gated neighbor (.directed premise) reason asked.1.gate)
  | .ok (neighborContent, .symmetric contested, reason) =>
      let ends := canonPair docPath neighbor
      let asked := safeAdmit .edgeObserve ends.1 ends.2 (answers.admitPair i jn.2) p.world
      if asked.1.admits then
        let obs := makeObserve env shadow m (birthInput env ends.1 ends.2 "symmetric"
          ("birth/symmetric(" ++ which contested ++ "): " ++ reason)) asked.2
        match obs.1 with
        | .error e => p.push obs.2 [.verdict neighbor (.symmetric contested) reason,
            .error neighbor ("observe failed: " ++ e)]
        | .ok _ =>
            let input := directionTension env docPath content neighbor neighborContent contested
            p.observed { obs.2 with tensions := recordTension m.today input obs.2.tensions }
              ends.1 ends.2 [.verdict neighbor (.symmetric contested) reason]
      else p.refuse asked.2 (.gated neighbor (.symmetric contested) reason asked.1.gate)

/-- `birthOne`, with the driver's bookkeeping of the documents it has processed. -/
def birthOne (docs : List (String × List Char)) (answers : Answers T) (i : Nat)
    (docPath : String) (content : List Char) (w : World B S) : World B S :=
  let found := searchNeighbors (answers.hits i) w
  match found.1 with
  | .error _ => found.2
  | .ok hits =>
      let neighbors := (hits.map canonPath).filter (· ≠ docPath)
      let contentHash := String.ofList ((env.sha256Hex content).toList.take 16)
      let p := neighbors.zipIdx.foldl (birthPair env docs answers i docPath content)
        ⟨found.2, [], [], 0⟩
      { p.world with
        births := p.world.births ++ [⟨(answers.moment (.birth i)).iso, docPath, contentHash,
          neighbors, "forward", env.model, p.verdicts⟩]
        birthProcessed := Assoc.set p.world.birthProcessed docPath contentHash }

/-- One item of `runBirthLoop`; a document that is not there is passed over. -/
def birthItem (docs : List (String × List Char)) (answers : Answers T) (w : World B S)
    (item : String × Nat) : World B S :=
  match docs.lookup (canonPath item.1) with
  | none => w
  | some content => birthOne env docs answers item.2 (canonPath item.1) content w

def runBirthLoop (docs : List (String × List Char)) (answers : Answers T)
    (items : List String) (w : World B S) : World B S :=
  items.zipIdx.foldl (birthItem env docs answers) w

/-! ## Revision -/

/-- `axesForPanel CONSOLIDATE_PANEL_SIZE`. -/
def panelAxes : List String := ["forward", "reverse"]

def castVotes (answers : Answers T) (i : Nat) : List RevisionVote :=
  panelAxes.zipIdx.map fun (axis, k) =>
    ⟨axis, answers.vote i k >>= parseRevisionVerdict env.vault.json⟩

/-- The votes that the edge survives, with their axes. -/
def surviving (votes : List RevisionVote) : List (String × String) :=
  votes.filterMap fun v =>
    match v.said with
    | .ok (true, reason) => some (v.axis, reason)
    | _ => none

def failing (votes : List RevisionVote) : List String :=
  votes.filterMap fun v =>
    match v.said with
    | .ok (false, reason) => some reason
    | _ => none

/-- The write a majority asks for. -/
def majority (votes : List RevisionVote) : Option EnvelopeAction :=
  if (surviving votes).length < (failing votes).length then some .edgeContest
  else if (failing votes).length < (surviving votes).length then some .edgeObserve
  else none

/-- The decision without a majority. -/
def undecided (votes : List RevisionVote) : RevisionDecision :=
  if (surviving votes).length = 0 ∧ (failing votes).length = 0 then .noVote else .tie

/-- What a panel has done. -/
structure Applied (B S : Type) where
  world : World B S
  decision : RevisionDecision
  observedCount : Nat
  contestedCount : Nat
  gate : Option String
  gateReason : Option String

/-- The observation of the `k`-th surviving vote: each has a store axis of its own. -/
def revisionInput (fromPath toPath : String) (k : Nat) (vote : String × String) :
    ObserveEdgeInput where
  fromPath := fromPath
  toPath := toPath
  observedBy := consolidateAgent
  blind := true
  axis := edgeAxes[k % edgeAxes.length]?
  note := some ("revision/" ++ vote.1 ++ ": " ++ vote.2)
  premiseVote := none
  model := none
  atISO := none

def observeVote (answers : Answers T) (i : Nat) (fromPath toPath : String)
    (acc : Nat × World B S) (vote : (String × String) × Nat) : Nat × World B S :=
  let obs := makeObserve env env.vault.config.shadowMode (answers.moment (.vote i vote.2))
    (revisionInput fromPath toPath vote.2 vote.1) acc.2
  match obs.1 with
  | .error _ => (acc.1, obs.2)
  | .ok _ => (acc.1 + 1, obs.2)

/-- The contest of a majority that fails. -/
def contestInput (fromPath toPath : String) (votes : List RevisionVote) :
    ContestEdgeInput where
  fromPath := fromPath
  toPath := toPath
  contestedBy := consolidateAgent
  reason := "revision panel (" ++ toString (failing votes).length ++ "/"
    ++ toString ((surviving votes).length + (failing votes).length) ++ " fail): "
    ++ (failing votes).headD "re-derivation failed"
  atISO := none

/-- The second phase of a panel: one decision, applied when it is admitted. -/
def applyDecision (answers : Answers T) (i : Nat) (fromPath toPath : String)
    (votes : List RevisionVote) (w : World B S) : Applied B S :=
  match majority votes with
  | none => ⟨w, undecided votes, 0, 0, none, none⟩
  | some action =>
      let asked := safeAdmit action fromPath toPath (answers.admitPanel i) w
      if asked.1.admits then
        match action with
        | .edgeContest =>
            let con := makeContest env env.vault.config.shadowMode (answers.moment (.panel i))
              (contestInput fromPath toPath votes) asked.2
            match con.1 with
            | .error _ => ⟨con.2, .fails, 0, 0, none, none⟩
            | .ok _ => ⟨con.2, .fails, 0, 1, none, none⟩
        | .edgeObserve =>
            let r := (surviving votes).zipIdx.foldl (observeVote env answers i fromPath toPath)
              (0, asked.2)
            ⟨r.2, .survives, r.1, 0, none, none⟩
      else ⟨asked.2, .gated, 0, 0, asked.1.gate, some asked.1.reason⟩

def revisionEntry (m : Moment T) : String :=
  Write.encodeLineageEntry m.iso "revision"
    (env.model ++ "@na|prompt=" ++ env.readerPromptVersion ++ "|retry=false")

/-- `revisionPanel` over an edge whose documents are loaded.  The driver hands in a
    lineage appender that is always live. -/
def revisionPanel (answers : Answers T) (i : Nat) (edge : DerivesFromEdge S)
    (w : World B S) : World B S :=
  let fromPath := canonPath edge.fromPath
  let toPath := canonPath edge.toPath
  let m := answers.moment (.panel i)
  let votes := castVotes env answers i
  let done := applyDecision env answers i fromPath toPath votes w
  let traced := { done.world with
    revisions := done.world.revisions ++ [⟨m.iso, fromPath, toPath, edge.strength,
      edge.kSurvived, edge.lastRederived, env.model, votes, done.decision,
      done.observedCount, done.contestedCount, done.gate, done.gateReason⟩] }
  if 0 < done.observedCount ∨ 0 < done.contestedCount then
    makeAppendReaderLineage env false m fromPath (revisionEntry env m) traced
  else traced

/-- The edge of a due pair, when a panel sits over it: it is known, not symmetric, and
    both its documents are loaded. -/
def dueEdge (docs : List (String × List Char)) (edges : List (DerivesFromEdge S))
    (pair : String × String) : Option (DerivesFromEdge S) :=
  (edges.reverse.find? fun e =>
    canonPath e.fromPath = canonPath pair.1 ∧ canonPath e.toPath = canonPath pair.2).filter
      fun e => e.directionVerdict ≠ .symmetric
        ∧ (docs.lookup (canonPath e.fromPath)).isSome ∧ (docs.lookup (canonPath e.toPath)).isSome

/-- One item of `runRevisionLoop`. -/
def revisionItem (docs : List (String × List Char)) (edges : List (DerivesFromEdge S))
    (answers : Answers T) (w : World B S) (item : (String × String) × Nat) : World B S :=
  match dueEdge docs edges item.1 with
  | none => w
  | some edge => revisionPanel env answers item.2 edge w

def runRevisionLoop (docs : List (String × List Char)) (edges : List (DerivesFromEdge S))
    (answers : Answers T) (items : List (String × String)) (w : World B S) : World B S :=
  items.zipIdx.foldl (revisionItem env docs edges answers) w

/-! ## The session -/

inductive Mode where
  | scan
  | birth
  | revision
  | both
deriving DecidableEq

/-- What a session works through: the documents it has loaded, by canonical path, and
    the edges it has listed are read off the vault at its start. -/
structure Queue (S : Type) where
  mode : Mode
  births : List String
  panels : List (String × String)
  edges : List (DerivesFromEdge S)
  head : Option String

def docByPath (files : Write.Files B) : List (String × List Char) :=
  (Write.loadDocuments env.vault files).foldl
    (fun acc d => Assoc.set acc (canonPath d.1) d.2.content) []

def Queue.birthsRun (q : Queue S) : List String :=
  if q.mode = .birth ∨ q.mode = .both then q.births else []

def Queue.panelsRun (q : Queue S) : List (String × String) :=
  if q.mode = .revision ∨ q.mode = .both then q.panels else []

/-- The births marked so far, under canonical paths. -/
def canonMarks (marks : List (String × String)) : List (String × String) :=
  marks.foldl (fun acc e => Assoc.set acc (canonPath e.1) e.2) []

/-- `runConsolidate`, from its due queue on. -/
def runConsolidate (q : Queue S) (answers : Answers T) (w : World B S) : World B S :=
  let docs := docByPath env w.files
  let born := runBirthLoop env docs answers q.birthsRun
    { w with birthProcessed := canonMarks w.birthProcessed }
  let revised := runRevisionLoop env docs q.edges answers q.panelsRun born
  { revised with lastConsolidationCommit := q.head <|> revised.lastConsolidationCommit }

end Consolidate
