import Daftari.Lib.MachineProofs
import Daftari.Curation.EdgesProofs
import Mathlib.Data.List.Perm.Basic

/-! # The edge table — rebuild, reads, and when it agrees with the log

    `derives_from_edges` is a cache of the collapsed log that the reads answer from.  A read
    compares the log's stat with the one recorded at the last materialization and rebuilds on a
    mismatch; an edge write appends to the log and re-materializes.  Strength and status are stored
    as of the materialization and recomputed at the read.

    * `reads_agree_iff`: **in every reachable state the table answers as the log does exactly when
      the log is `Settled`**. -/

namespace Edges

/-! ## The table -/

structure DerivesFromEdgeRow (S : Type) where
  fromPath : String
  toPath : String
  strength : S
  kSurvived : Nat
  firstObserved : String
  lastRederived : String
  lastAgeDecay : String
  status : EdgeStatus
  directionVerdict : DirectionVerdict
  observations : Nat
  contestedAt : Option String
  contestReason : Option String
deriving DecidableEq, Repr

/-- The rows under their primary key. -/
abbrev Table (S : Type) := List ((String × String) × DerivesFromEdgeRow S)

def Table.rows {S : Type} (table : Table S) : List (DerivesFromEdgeRow S) :=
  table.map Prod.snd

variable {T S : Type}

/-- The row of an edge, its reason already bound. -/
def rowOf (decayAt : String) (e : DerivesFromEdge S) (reason : Option String) :
    DerivesFromEdgeRow S where
  fromPath := e.fromPath
  toPath := e.toPath
  strength := e.strength
  kSurvived := e.kSurvived
  firstObserved := e.firstObserved
  lastRederived := e.lastRederived
  lastAgeDecay := decayAt
  status := e.status
  directionVerdict := e.directionVerdict
  observations := e.observations
  contestedAt := e.contestedAt
  contestReason := reason

/-- `upsertDerivesFromEdge`: every column of the row is text, a number or null
    by construction, except the reason, which may not bind. -/
def upsertDerivesFromEdge (host : Host T S) (decayAt : String) (table : Table S)
    (e : DerivesFromEdge S) : Except String (Table S) :=
  match host.bindText e.contestReason with
  | .error thrown => .error thrown
  | .ok reason =>
      .ok (Assoc.set table (e.fromPath, e.toPath) (rowOf decayAt e reason))

/-- The rows of a list of edges, one upsert after the other. -/
def upsertAll (host : Host T S) (decayAt : String) :
    Table S → List (DerivesFromEdge S) → Except String (Table S)
  | table, [] => .ok table
  | table, e :: es =>
      match upsertDerivesFromEdge host decayAt table e with
      | .error thrown => .error thrown
      | .ok table' => upsertAll host decayAt table' es

/-- `edgesLogStatMarker`: the size and time of the log file, or `absent`. -/
inductive Marker where
  | absent
  | stat (size mtimeMs : Nat)
deriving DecidableEq, Repr

/-- The log file, with its modification time, and the index database. -/
structure Store (S : Type) where
  log : Option (String × Nat)
  table : Table S
  mark : Option Marker

def Store.content (s : Store S) : Option String := s.log.map Prod.fst

def Store.marker (s : Store S) : Marker :=
  match s.log with
  | none => .absent
  | some (raw, mtimeMs) => .stat raw.utf8ByteSize mtimeMs

def Store.records (host : Host T S) (s : Store S) : List RawEdgeRecord :=
  readRawRecords host s.content

section Reads

variable [LinearOrder S]

/-- `rebuildEdgesIndexFromStates`, one transaction: a row that does not bind
    rolls the rebuild back. -/
def rebuildEdgesIndexFromStates (host : Host T S) (now : T) (states : States)
    (marker : Marker) (s : Store S) : Except String (Store S) :=
  let edges := states.map fun e => deriveEdge host now e.2
  match upsertAll host (host.toSecondISO now) [] edges with
  | .error reason => .error ("cannot rebuild derives_from index: " ++ reason)
  | .ok table => .ok { s with table := table, mark := some marker }

def rebuildEdgesIndex (host : Host T S) (now : T) (s : Store S) : Except String (Store S) :=
  rebuildEdgesIndexFromStates host now (collapse host (s.records host)) s.marker s

/-- `ensureFreshEdgesIndex`: rebuild when the recorded stat is not the log's. -/
def ensureFreshEdgesIndex (host : Host T S) (now : T) (s : Store S) : Except String (Store S) :=
  if s.mark = some s.marker then .ok s else rebuildEdgesIndex host now s

def columnValue : Option String → JsonValue
  | none => .null
  | some text => .str text

/-- `deriveEdgeFromRow`: live strength and status from the row's votes, its
    clock and its revoked flag. -/
def deriveEdgeFromRow (host : Host T S) (now : T) (row : DerivesFromEdgeRow S) :
    DerivesFromEdge S :=
  let revoked := decide (row.status = .revoked)
  let strength := liveStrength host revoked row.kSurvived row.lastRederived now
  { fromPath := row.fromPath
    toPath := row.toPath
    strength := strength
    kSurvived := row.kSurvived
    firstObserved := row.firstObserved
    lastRederived := row.lastRederived
    status := liveStatus host revoked strength
    directionVerdict := row.directionVerdict
    observations := row.observations
    contestedAt := row.contestedAt
    contestReason := columnValue row.contestReason }

/-- The status prefilter: exact for `revoked`, both live statuses otherwise. -/
def statusIn : Option EdgeStatus → Option (List EdgeStatus)
  | none => none
  | some .revoked => some [.revoked]
  | some _ => some [.candidate, .triggerBearing]

def passesStatusIn (filter : Option (List EdgeStatus)) (status : EdgeStatus) : Bool :=
  match filter with
  | none => true
  | some l => status ∈ l

/-- An order in which the database may hand rows over: the queries have no
    `ORDER BY`, so it may be any, and another one for each query. -/
abbrev Scan (S : Type) : Type := List (DerivesFromEdgeRow S) → List (DerivesFromEdgeRow S)

def Scan.Lawful (scan : Scan S) : Prop := ∀ rows, (scan rows).Perm rows

/-- The rows as they were inserted. -/
def Scan.inOrder : Scan S := fun rows => rows

def listDerivesFromEdgeRows (scan : Scan S) (table : Table S)
    (filter : ListEdgesFilter) : List (DerivesFromEdgeRow S) :=
  scan (table.rows.filter fun row =>
    passes filter.fromPath row.fromPath && passes filter.toPath row.toPath
      && passesStatusIn (statusIn filter.status) row.status)

/-- `listEdges`, the database having opened.  `clock` is the instant a rebuild
    reads, `now` the one the caller asks about. -/
def listEdges (host : Host T S) (scan : Scan S) (clock : T) (s : Store S)
    (filter : ListEdgesFilter) (now : T) : Except String (List (DerivesFromEdge S)) :=
  match ensureFreshEdgesIndex host clock s with
  | .error reason => .error ("cannot read edges: " ++ reason)
  | .ok fresh =>
      let edges := (listDerivesFromEdgeRows scan fresh.table filter).map
        (deriveEdgeFromRow host now)
      let edges := edges.filter fun e => passesStatus filter.status e.status
      .ok (Stable.sort (compareEdges host) edges)

/-- `getDerivesFromEdgePair`: a row between the two endpoints, in either orientation. -/
def getDerivesFromEdgePair (scan : Scan S) (table : Table S) (a b : String) :
    Option (DerivesFromEdgeRow S) :=
  (scan (table.rows.filter fun row =>
    (row.fromPath = a ∧ row.toPath = b) ∨ (row.fromPath = b ∧ row.toPath = a))).head?

/-- `getEdge`, the database having opened. -/
def getEdge (host : Host T S) (scan : Scan S) (clock : T) (s : Store S)
    (fromPath toPath : String) (now : T) : Except String (Option (DerivesFromEdge S)) :=
  match ensureFreshEdgesIndex host clock s with
  | .error reason => .error ("cannot read edge: " ++ reason)
  | .ok fresh =>
      .ok ((getDerivesFromEdgePair scan fresh.table fromPath toPath).map
        (deriveEdgeFromRow host now))

/-! ## Writes -/

/-- `s.trim()`. -/
def trimmed (s : String) : String := String.ofList (Text.trim s.toList)

structure ObserveEdgeInput where
  fromPath : String
  toPath : String
  observedBy : String
  blind : Bool
  axis : Option String
  note : Option String
  premiseVote : Option String
  model : Option String
  atISO : Option String

structure ContestEdgeInput where
  fromPath : String
  toPath : String
  contestedBy : String
  reason : String
  atISO : Option String

def firstBlank (fields : List (String × String)) : Option String :=
  (fields.find? fun f => trimmed f.2 = "").map Prod.fst

/-- An `at` that is given and does not parse. -/
def badTime (host : Host T S) (atISO : Option String) : Bool :=
  match atISO with
  | none => false
  | some t => (host.dateParse t).isNone

/-- The checks of `observeEdge`, in order; `none` when all pass. -/
def refuseObserve (host : Host T S) (input : ObserveEdgeInput) : Option String :=
  match firstBlank [("fromPath", input.fromPath), ("toPath", input.toPath),
      ("observedBy", input.observedBy)] with
  | some field => some ("observeEdge requires a non-empty '" ++ field ++ "'")
  | none =>
      if trimmed input.fromPath = trimmed input.toPath then
        some "observeEdge: a document cannot derive from itself"
      else if input.axis.any (· ∉ edgeAxes) then
        some "observeEdge 'axis' must be one of: prompt, input-neighborhood, model"
      else if badTime host input.atISO then
        some "observeEdge 'at' must be a parseable timestamp"
      else if input.premiseVote.any (· ∉ ["from", "to", "symmetric"]) then
        some "observeEdge 'premiseVote' must be one of: from, to, symmetric"
      else none

/-- A field that is written when its text is not empty. -/
def optionalField (name : String) (v : Option String) : Fields :=
  ((truthy v).map fun text => (name, JsonValue.str text)).toList

/-- The record `observeEdge` appends. -/
def observeFields (host : Host T S) (input : ObserveEdgeInput) (clock : T) : Fields :=
  [("kind", .str "observe"), ("from", .str (trimmed input.fromPath)),
    ("to", .str (trimmed input.toPath)),
    ("at", .str (input.atISO.getD (host.toSecondISO clock))),
    ("by", .str (trimmed input.observedBy)), ("blind", .bool input.blind),
    ("axis", (input.axis.map JsonValue.str).getD .null)]
  ++ optionalField "note" input.note
  ++ optionalField "premiseVote" input.premiseVote
  ++ optionalField "model" (input.model.map trimmed)

/-- The record `contestEdge` appends. -/
def contestFields (host : Host T S) (input : ContestEdgeInput) (clock : T) : Fields :=
  [("kind", .str "contest"), ("from", .str (trimmed input.fromPath)),
    ("to", .str (trimmed input.toPath)),
    ("at", .str (input.atISO.getD (host.toSecondISO clock))),
    ("by", .str (trimmed input.contestedBy)),
    ("reason", .str (trimmed input.reason))]

/-- `appendFileSync` of one record, which stamps the file anew. -/
def appendRecord (host : Host T S) (fields : Fields) (mtimeMs : Nat) (s : Store S) : Store S :=
  { s with log := some (s.content.getD "" ++ (host.stringify fields ++ "\n"),
                        mtimeMs) }

/-- What a step that may fail leaves behind. -/
def orUnchanged (s : Store S) : Except String (Store S) → Store S
  | .error _ => s
  | .ok s' => s'

/-- `writeThroughEdgesIndex`: best effort, the database may not open and the
    rebuild may fail; either way the log stands. -/
def writeThroughEdgesIndex (host : Host T S) (opens : Bool) (clock : T) (s : Store S) : Store S :=
  if opens then orUnchanged s (rebuildEdgesIndex host clock s) else s

def edgeAfterWrite (host : Host T S) (clock : T) (fromPath toPath : String)
    (s : Store S) : Except String (DerivesFromEdge S) :=
  match (collapse host (s.records host)).lookup (pairKey fromPath toPath) with
  | none => .error "edge not found after write"
  | some st => .ok (deriveEdge host clock st)

/-- `observeEdge`.  `clock` gives its readings of the clock, in order. -/
def observeEdge (host : Host T S) (input : ObserveEdgeInput) (clock : Nat → T)
    (mtimeMs : Nat) (opens : Bool) (s : Store S) : Except String (DerivesFromEdge S) × Store S :=
  match refuseObserve host input with
  | some message => (.error message, s)
  | none =>
      let s' := writeThroughEdgesIndex host opens (clock 1)
        (appendRecord host (observeFields host input (clock 0)) mtimeMs s)
      (edgeAfterWrite host (clock 2) (trimmed input.fromPath) (trimmed input.toPath) s', s')

/-- The checks of `contestEdge`, in order. -/
def refuseContest (host : Host T S) (input : ContestEdgeInput) (s : Store S) : Option String :=
  match firstBlank [("fromPath", input.fromPath), ("toPath", input.toPath),
      ("contestedBy", input.contestedBy), ("reason", input.reason)] with
  | some field => some ("contestEdge requires a non-empty '" ++ field ++ "'")
  | none =>
      if badTime host input.atISO then
        some "contestEdge 'at' must be a parseable timestamp"
      else
        let from' := trimmed input.fromPath
        let to' := trimmed input.toPath
        let named := from' ++ " derives_from " ++ to'
        match (collapse host (s.records host)).lookup (pairKey from' to') with
        | none => some ("contestEdge: no such edge: " ++ named)
        | some st =>
            if st.revoked then some ("contestEdge: edge already revoked: " ++ named)
            else none

def contestEdge (host : Host T S) (input : ContestEdgeInput) (clock : Nat → T)
    (mtimeMs : Nat) (opens : Bool) (s : Store S) : Except String (DerivesFromEdge S) × Store S :=
  match refuseContest host input s with
  | some message => (.error message, s)
  | none =>
      let s' := writeThroughEdgesIndex host opens (clock 1)
        (appendRecord host (contestFields host input (clock 0)) mtimeMs s)
      (edgeAfterWrite host (clock 2) (trimmed input.fromPath) (trimmed input.toPath) s', s')

/-- What may happen to a store: an observation, a contest, a read, which leaves
    a rebuilt table behind, or a rebuild on its own. -/
inductive Act (T : Type) where
  | observe (input : ObserveEdgeInput) (clock : Nat → T) (mtimeMs : Nat)
      (opens : Bool)
  | contest (input : ContestEdgeInput) (clock : Nat → T) (mtimeMs : Nat)
      (opens : Bool)
  | read (clock : T)
  | rebuild (clock : T)

/-- The store under edge writes, reads and rebuilds. -/
def machine (host : Host T S) : Machine (Store S) (Act T) where
  enabled _ _ := True
  next s
    | .observe input clock mtimeMs opens =>
        (observeEdge host input clock mtimeMs opens s).2
    | .contest input clock mtimeMs opens =>
        (contestEdge host input clock mtimeMs opens s).2
    | .read clock => orUnchanged s (ensureFreshEdgesIndex host clock s)
    | .rebuild clock => orUnchanged s (rebuildEdgesIndex host clock s)

/-! ## What a row keeps -/

/-- The row is the edge's, with whatever its reason became in the column. -/
def Stored (host : Host T S) (decayAt : String) (e : DerivesFromEdge S)
    (row : DerivesFromEdgeRow S) : Prop :=
  ∃ reason, host.bindText e.contestReason = .ok reason
    ∧ row = rowOf decayAt e reason

omit [LinearOrder S] in
theorem upsertAll_stored (host : Host T S) (decayAt : String) (es : List (DerivesFromEdge S)) :
    ∀ (table table' : Table S), upsertAll host decayAt table es = .ok table' →
      (es.map fun e => (e.fromPath, e.toPath)).Nodup →
      (∀ e ∈ es, (e.fromPath, e.toPath) ∉ Assoc.keys table) →
      ∃ rows, table'.rows = table.rows ++ rows ∧ List.Forall₂ (Stored host decayAt) es rows := by
  induction es with
  | nil =>
      intro table table' h _ _
      cases h
      exact ⟨[], by simp, List.Forall₂.nil⟩
  | cons e es ih =>
      intro table table' h hnodup hnew
      rw [List.map_cons, List.nodup_cons] at hnodup
      unfold upsertAll upsertDerivesFromEdge at h
      cases hb : host.bindText e.contestReason with
      | error thrown => simp only [hb, reduceCtorEq] at h
      | ok reason =>
          simp only [hb] at h
          have he := hnew e List.mem_cons_self
          rw [Assoc.set_of_not_mem _ he] at h
          obtain ⟨rows, hrows, hall⟩ := ih _ table' h hnodup.2 (by
            intro e' he' hmem
            simp only [Assoc.keys, List.map_append, List.map_cons, List.map_nil,
              List.mem_append, List.mem_singleton] at hmem
            rcases hmem with hmem | hmem
            · exact hnew e' (List.mem_cons_of_mem _ he') hmem
            · exact hnodup.1 (List.mem_map.mpr ⟨e', he', hmem⟩))
          refine ⟨rowOf decayAt e reason :: rows, ?_, ?_⟩
          · rw [hrows]
            simp [Table.rows]
          · exact List.Forall₂.cons ⟨reason, hb, rfl⟩ hall

omit [LinearOrder S] in
theorem upsertAll_ok (host : Host T S) (decayAt : String) (es : List (DerivesFromEdge S))
    (hbind : ∀ e ∈ es, ∃ reason, host.bindText e.contestReason = .ok reason) :
    ∀ table : Table S, ∃ table', upsertAll host decayAt table es = .ok table' := by
  induction es with
  | nil =>
      intro table
      exact ⟨table, rfl⟩
  | cons e es ih =>
      intro table
      obtain ⟨reason, hb⟩ := hbind e List.mem_cons_self
      unfold upsertAll upsertDerivesFromEdge
      simp only [hb]
      exact ih (fun e' he' => hbind e' (List.mem_cons_of_mem _ he')) _

/-- The values a text column gives back as they were: text and null. -/
def JsonValue.IsText : JsonValue → Prop
  | .null | .str _ => True
  | _ => False

structure Host.BindsText (host : Host T S) : Prop where
  null : host.bindText .null = .ok none
  str : ∀ text, host.bindText (.str text) = .ok (some text)

theorem liveStatus_revoked_iff (host : Host T S) (revoked : Bool) (strength : S) :
    liveStatus host revoked strength = .revoked ↔ revoked = true := by
  unfold liveStatus
  cases revoked with
  | true => simp
  | false =>
      rw [if_neg Bool.false_ne_true]
      split <;> simp

variable {host : Host T S}

/-- **A row read at any instant is the edge derived at that instant**, whenever
    the row was written, if the reason went into the column as text. -/
theorem deriveEdgeFromRow_stored (hbind : host.BindsText) {st : EdgeState}
    (htext : st.contestReason.IsText) {filled now : T} {decayAt : String}
    {row : DerivesFromEdgeRow S} (h : Stored host decayAt (deriveEdge host filled st) row) :
    deriveEdgeFromRow host now row = deriveEdge host now st := by
  obtain ⟨reason, hreason, rfl⟩ := h
  have hrev : decide ((deriveEdge host filled st).status = .revoked) = st.revoked := by
    show decide (liveStatus host st.revoked _ = .revoked) = st.revoked
    rw [Bool.eq_iff_iff, decide_eq_true_iff, liveStatus_revoked_iff]
  have hback : columnValue reason = st.contestReason := by
    have hreason' : host.bindText st.contestReason = .ok reason := hreason
    cases hr : st.contestReason with
    | null =>
        rw [hr, hbind.null] at hreason'
        cases hreason'
        rfl
    | str text =>
        rw [hr, hbind.str] at hreason'
        cases hreason'
        rfl
    | bool b => exact absurd htext (by rw [hr]; exact id)
    | num lit => exact absurd htext (by rw [hr]; exact id)
    | composite text => exact absurd htext (by rw [hr]; exact id)
  unfold deriveEdgeFromRow rowOf
  rw [hrev, hback]
  rfl

theorem deriveEdgeFromRow_isText (host : Host T S) (now : T) (row : DerivesFromEdgeRow S) :
    (deriveEdgeFromRow host now row).contestReason.IsText := by
  unfold deriveEdgeFromRow
  cases row.contestReason with
  | none => trivial
  | some reason => trivial

/-! ## The edges of a log -/

theorem edgesAt_eq (host : Host T S) (now : T) (recs : List RawEdgeRecord) :
    edgesAt host now recs = (collapse host recs).map fun e => deriveEdge host now e.2 :=
  rfl

variable {recs : List RawEdgeRecord}

omit [LinearOrder S] in
theorem key_of_mem {key : String} {st : EdgeState} (h : (key, st) ∈ collapse host recs) :
    pairKey st.orientation.1 st.orientation.2 = key := by
  obtain ⟨r, hr, hborn⟩ := stateOf_born host _ ((mem_collapse_iff host recs key st).mp h)
  have hrkey : r.key = key := by
    simpa using (List.mem_filter.mp hr).2
  unfold pairKey
  rw [canonPair_orientation hborn]
  exact hrkey

omit [LinearOrder S] in
theorem eq_of_pair_eq {e e' : String × EdgeState} (he : e ∈ collapse host recs)
    (he' : e' ∈ collapse host recs) (h : canonPair e.2.orientation.1 e.2.orientation.2
      = canonPair e'.2.orientation.1 e'.2.orientation.2) : e = e' := by
  obtain ⟨key, st⟩ := e
  obtain ⟨key', st'⟩ := e'
  have hk : key = key' := by
    rw [← key_of_mem he, ← key_of_mem he']
    unfold pairKey
    rw [h]
  subst hk
  have h₁ := Assoc.lookup_of_mem (nodup_collapse host recs) he
  have h₂ := Assoc.lookup_of_mem (nodup_collapse host recs) he'
  rw [h₁] at h₂
  rw [Option.some.inj h₂]

theorem nodup_endpoints (host : Host T S) (now : T) (recs : List RawEdgeRecord) :
    ((edgesAt host now recs).map fun e => (e.fromPath, e.toPath)).Nodup := by
  have hkeys : (edgesAt host now recs).map (fun e => pairKey e.fromPath e.toPath)
      = Assoc.keys (collapse host recs) := by
    unfold edgesAt Assoc.keys
    rw [List.map_map]
    refine List.map_congr_left fun e he => ?_
    exact key_of_mem he
  refine List.Nodup.of_map (fun p => pairKey p.1 p.2) ?_
  simp only [List.map_map, Function.comp_def]
  rw [hkeys]
  exact nodup_collapse host recs

/-! ## The invariant of runs -/

def Filled (host : Host T S) (recs : List RawEdgeRecord) (table : Table S) : Prop :=
  ∃ at', List.Forall₂ (Stored host (host.toSecondISO at')) (edgesAt host at' recs)
    table.rows

/-- **The invariant**: a recorded stat that is the log's means a table filled
    from that log, and no recorded stat is ahead of the log. -/
structure Sound (host : Host T S) (s : Store S) : Prop where
  filled : s.mark = some s.marker → Filled host (s.records host) s.table
  behind : ∀ size mtimeMs, s.mark = some (.stat size mtimeMs) →
    ∃ raw mtimeMs', s.log = some (raw, mtimeMs') ∧ size ≤ raw.utf8ByteSize

theorem sound_unmarked (host : Host T S) (log : Option (String × Nat))
    (table : Table S) : Sound host ⟨log, table, none⟩ :=
  { filled := fun h => by cases h
    behind := fun _ _ h => by cases h }

variable {s s' : Store S}

/-- Spec of a rebuild: the log stays, its stat is recorded and the table holds its edges. -/
theorem rebuildEdgesIndex_ok {clock : T} (h : rebuildEdgesIndex host clock s = .ok s') :
    s'.log = s.log ∧ s'.mark = some s.marker ∧ Filled host (s.records host) s'.table := by
  unfold rebuildEdgesIndex rebuildEdgesIndexFromStates at h
  rw [← edgesAt_eq] at h
  cases hu : upsertAll host (host.toSecondISO clock) []
      (edgesAt host clock (s.records host)) with
  | error thrown => simp only [hu, reduceCtorEq] at h
  | ok table =>
      simp only [hu, Except.ok.injEq] at h
      subst h
      obtain ⟨rows, hrows, hall⟩ := upsertAll_stored host _ _ [] table hu
        (nodup_endpoints host clock _) (by intro e _ hmem; cases hmem)
      refine ⟨rfl, rfl, clock, ?_⟩
      have : table.rows = rows := by simpa [Table.rows] using hrows
      show List.Forall₂ _ _ table.rows
      rw [this]
      exact hall

theorem sound_rebuild {clock : T} (h : rebuildEdgesIndex host clock s = .ok s') :
    Sound host s' := by
  obtain ⟨hlog, hmark, hfilled⟩ := rebuildEdgesIndex_ok h
  have hrecs : s'.records host = s.records host := by
    unfold Store.records Store.content
    rw [hlog]
  refine ⟨fun _ => hrecs ▸ hfilled, ?_⟩
  intro size mtimeMs hm
  rw [hmark] at hm
  unfold Store.marker at hm
  rw [hlog]
  cases hl : s.log with
  | none => simp [hl] at hm
  | some file =>
      obtain ⟨raw, mtimeMs'⟩ := file
      simp only [hl, Option.some.injEq, Marker.stat.injEq] at hm
      exact ⟨raw, mtimeMs', rfl, by omega⟩

/-- Spec of the freshness check: the log stays, and the table it leaves was filled from it. -/
theorem ensureFreshEdgesIndex_ok {clock : T} (hs : Sound host s)
    (h : ensureFreshEdgesIndex host clock s = .ok s') :
    Filled host (s.records host) s'.table ∧ Sound host s' := by
  unfold ensureFreshEdgesIndex at h
  by_cases hm : s.mark = some s.marker
  · rw [if_pos hm] at h
    cases h
    exact ⟨hs.filled hm, hs⟩
  · rw [if_neg hm] at h
    exact ⟨(rebuildEdgesIndex_ok h).2.2, sound_rebuild h⟩

theorem sound_orUnchanged (hs : Sound host s) {r : Except String (Store S)}
    (hr : ∀ s', r = .ok s' → Sound host s') : Sound host (orUnchanged s r) := by
  cases r with
  | error _ => exact hs
  | ok s' => exact hr s' rfl

theorem sound_appendRecord (hs : Sound host s) (fields : Fields) (mtimeMs : Nat) :
    Sound host (appendRecord host fields mtimeMs s) := by
  have hgrown : ∀ size mtimeMs', s.mark = some (.stat size mtimeMs') →
      size < (s.content.getD "" ++ (host.stringify fields ++ "\n")).utf8ByteSize := by
    intro size mtimeMs' hm
    obtain ⟨raw, m, hlog, hle⟩ := hs.behind size mtimeMs' hm
    have hnl : ("\n" : String).utf8ByteSize = 1 := by decide
    unfold Store.content
    rw [hlog, String.utf8ByteSize_append, String.utf8ByteSize_append, hnl]
    simp only [Option.map_some, Option.getD_some]
    omega
  refine ⟨?_, ?_⟩
  · intro hm
    exact absurd (hgrown _ _ hm) (lt_irrefl _)
  · intro size mtimeMs' hm
    exact ⟨_, _, rfl, le_of_lt (hgrown size mtimeMs' hm)⟩

theorem sound_writeThrough (hs : Sound host s) (opens : Bool) (clock : T) :
    Sound host (writeThroughEdgesIndex host opens clock s) := by
  unfold writeThroughEdgesIndex
  split
  · exact sound_orUnchanged hs fun s' h => sound_rebuild h
  · exact hs

/-- **Step lemma: every write, read and rebuild keeps the invariant.** -/
theorem sound_step (s : Store S) (a : Act T) (hs : Sound host s) (_ : (machine host).enabled s a) :
    Sound host ((machine host).next s a) := by
  cases a with
  | observe input clock mtimeMs opens =>
      show Sound host (observeEdge host input clock mtimeMs opens s).2
      unfold observeEdge
      cases refuseObserve host input with
      | some message => exact hs
      | none => exact sound_writeThrough (sound_appendRecord hs _ _) _ _
  | contest input clock mtimeMs opens =>
      show Sound host (contestEdge host input clock mtimeMs opens s).2
      unfold contestEdge
      cases refuseContest host input s with
      | some message => exact hs
      | none => exact sound_writeThrough (sound_appendRecord hs _ _) _ _
  | read clock =>
      exact sound_orUnchanged hs fun s' h => (ensureFreshEdgesIndex_ok hs h).2
  | rebuild clock => exact sound_orUnchanged hs fun s' h => sound_rebuild h

/-- **Run lemma.** -/
theorem sound_of_reach (hs : Sound host s) (h : (machine host).Reach s s') : Sound host s' :=
  Machine.reach_invariant sound_step hs h

/-! ## When the table answers as the log does -/

/-- A log the table can stand for at an instant. -/
structure Settled (host : Host T S) (recs : List RawEdgeRecord) (now : T) :
    Prop where
  /-- The reason of every contest that stands is text or null. -/
  reasons : ∀ c, StandsIn (trail recs c.key) c → c.reasonOrNull.IsText
  /-- No observed pair shares its key with another pair. -/
  keys : ∀ r ∈ recs, r.kind = .observe →
    ∀ a b, pairKey a b = r.key → canonPair a b = r.pair
  /-- The comparator tells any two edges apart. -/
  ties : ∀ e ∈ edgesAt host now recs, ∀ e' ∈ edgesAt host now recs,
    compareEdges host e e' = .eq → e = e'

/-- The two read paths answer alike at an instant: every filter, every pair in
    either order, every instant a rebuild may read and every row order. -/
structure ReadsAgree (host : Host T S) (s : Store S) (now : T) : Prop where
  list : ∀ scan : Scan S, scan.Lawful → ∀ clock filter,
    listEdges host scan clock s filter now
      = .ok (listEdgesFromLog host s.content filter now)
  pair : ∀ scan : Scan S, scan.Lawful → ∀ clock a b,
    getEdge host scan clock s a b now
      = .ok (getEdgeFromLog host s.content a b now)

instance (host : Host T S) [Std.TransCmp host.localeCompare] :
    Std.TransCmp (compareEdges host) := by
  have h₁ : Std.TransCmp fun a b : DerivesFromEdge S =>
      compare b.strength a.strength :=
    Stable.transCmp_on (fun a b : S => compare b a) DerivesFromEdge.strength
  have h₂ := Stable.transCmp_on host.localeCompare
    (DerivesFromEdge.fromPath (S := S))
  have h₃ := Stable.transCmp_on host.localeCompare
    (DerivesFromEdge.toPath (S := S))
  unfold compareEdges
  infer_instance

omit [LinearOrder S] in
theorem isText_of_reasons (host : Host T S)
    (h : ∀ c, StandsIn (trail recs c.key) c → c.reasonOrNull.IsText) :
    ∀ e ∈ collapse host recs, e.2.contestReason.IsText := by
  rintro ⟨key, st⟩ hmem
  by_contra hnot
  have hne : st.contestReason ≠ .null := by
    intro he
    exact hnot (by show st.contestReason.IsText; rw [he]; trivial)
  obtain ⟨c, hc, hreason⟩ :=
    (reason_iff_stands host recs st.contestReason hne).mp ⟨key, st, hmem, rfl⟩
  exact hnot (hreason ▸ h c hc)

theorem rows_read_back (hbind : host.BindsText) {table : Table S} (hfill : Filled host recs table)
    (htext : ∀ e ∈ collapse host recs, e.2.contestReason.IsText) (now : T) :
    table.rows.map (deriveEdgeFromRow host now) = edgesAt host now recs := by
  obtain ⟨at', hall⟩ := hfill
  rw [edgesAt_eq] at hall ⊢
  generalize table.rows = rows at hall ⊢
  generalize collapse host recs = states at hall htext ⊢
  induction states generalizing rows with
  | nil =>
      cases hall
      rfl
  | cons e states ih =>
      cases hall with
      | cons hrow hrest =>
          rw [List.map_cons, List.map_cons,
            deriveEdgeFromRow_stored hbind (htext e List.mem_cons_self) hrow,
            ih _ hrest (fun e' he' => htext e' (List.mem_cons_of_mem _ he'))]

theorem ensureFreshEdgesIndex_succeeds (hbind : host.BindsText)
    (htext : ∀ e ∈ collapse host (s.records host), e.2.contestReason.IsText) (clock : T) :
    ∃ s', ensureFreshEdgesIndex host clock s = .ok s' := by
  unfold ensureFreshEdgesIndex
  by_cases hm : s.mark = some s.marker
  · rw [if_pos hm]
    exact ⟨s, rfl⟩
  · rw [if_neg hm]
    have hall : ∀ e ∈ edgesAt host clock (s.records host),
        ∃ reason, host.bindText e.contestReason = .ok reason := by
      intro e he
      obtain ⟨x, hx, rfl⟩ := List.mem_map.mp he
      have hx' : x.2.contestReason.IsText := htext x hx
      show ∃ reason, host.bindText x.2.contestReason = .ok reason
      cases hr : x.2.contestReason with
      | null => exact ⟨none, hbind.null⟩
      | str text => exact ⟨some text, hbind.str text⟩
      | bool b => exact absurd hx' (by rw [hr]; exact id)
      | num lit => exact absurd hx' (by rw [hr]; exact id)
      | composite text => exact absurd hx' (by rw [hr]; exact id)
    obtain ⟨table, htable⟩ := upsertAll_ok host (host.toSecondISO clock) _ hall []
    rw [edgesAt_eq] at htable
    unfold rebuildEdgesIndex rebuildEdgesIndexFromStates
    simp only [htable]
    exact ⟨_, rfl⟩

/-- **The status prefilter never loses a row** the recomputed status keeps. -/
theorem passesStatusIn_of_passesStatus (host : Host T S) (now : T)
    (row : DerivesFromEdgeRow S) (filter : Option EdgeStatus)
    (h : passesStatus filter (deriveEdgeFromRow host now row).status = true) :
    passesStatusIn (statusIn filter) row.status = true := by
  cases filter with
  | none => rfl
  | some wanted =>
      have hlive : (deriveEdgeFromRow host now row).status = wanted := by
        simpa [passesStatus] using h
      have hiff : (deriveEdgeFromRow host now row).status = .revoked
          ↔ row.status = .revoked := by
        show liveStatus host (decide (row.status = .revoked)) _ = .revoked ↔ _
        rw [liveStatus_revoked_iff, decide_eq_true_iff]
      rw [hlive] at hiff
      cases wanted with
      | revoked =>
          rw [hiff.mp rfl]
          rfl
      | candidate =>
          cases hrow : row.status with
          | revoked => exact absurd (hiff.mpr hrow) (by decide)
          | candidate => rfl
          | triggerBearing => rfl
      | triggerBearing =>
          cases hrow : row.status with
          | revoked => exact absurd (hiff.mpr hrow) (by decide)
          | candidate => rfl
          | triggerBearing => rfl

/-- Filtering rows first and edges afterwards keeps the edges the log path keeps. -/
theorem filter_rows_eq (host : Host T S) (now : T) (filter : ListEdgesFilter)
    (rows : List (DerivesFromEdgeRow S)) : ((rows.filter fun row =>
        passes filter.fromPath row.fromPath && passes filter.toPath row.toPath
          && passesStatusIn (statusIn filter.status) row.status).map
        (deriveEdgeFromRow host now)).filter (fun e => passesStatus filter.status e.status)
      = (((rows.map (deriveEdgeFromRow host now)).filter fun e =>
            passes filter.fromPath e.fromPath).filter fun e =>
          passes filter.toPath e.toPath).filter fun e => passesStatus filter.status e.status := by
  simp only [List.filter_map, List.filter_filter, Function.comp_def]
  refine congrArg (List.map _) (List.filter_congr fun row _ => ?_)
  have hpre := passesStatusIn_of_passesStatus host now row filter.status
  show (passesStatus filter.status (deriveEdgeFromRow host now row).status
      && (passes filter.fromPath row.fromPath && passes filter.toPath row.toPath
        && passesStatusIn (statusIn filter.status) row.status))
    = (passesStatus filter.status (deriveEdgeFromRow host now row).status
      && (passes filter.toPath row.toPath && passes filter.fromPath row.fromPath))
  cases hst : passesStatus filter.status (deriveEdgeFromRow host now row).status with
  | false => rfl
  | true =>
      rw [hpre hst, Bool.and_true, Bool.and_comm (passes filter.fromPath _)]

section Agreement

variable {host : Host T S} [Std.TransCmp host.localeCompare]

variable {scan : Scan S} {now : T}

theorem listEdges_of_settled (hbind : host.BindsText) (hs : Sound host s)
    (h : Settled host (s.records host) now) (hscan : scan.Lawful) (clock : T)
    (filter : ListEdgesFilter) : listEdges host scan clock s filter now
      = .ok (listEdgesFromLog host s.content filter now) := by
  have htext := isText_of_reasons host h.reasons
  obtain ⟨s', hs'⟩ := ensureFreshEdgesIndex_succeeds hbind htext clock
  have hback := rows_read_back hbind (ensureFreshEdgesIndex_ok hs hs').1 htext now
  have hperm := ((hscan (s'.table.rows.filter fun row =>
      passes filter.fromPath row.fromPath && passes filter.toPath row.toPath
        && passesStatusIn (statusIn filter.status) row.status)).map
      (deriveEdgeFromRow host now)).filter
    (fun e => passesStatus filter.status e.status)
  rw [filter_rows_eq, hback] at hperm
  unfold listEdges listDerivesFromEdgeRows
  simp only [hs']
  refine congrArg Except.ok (Stable.sort_eq_of_perm _ hperm.symm ?_).symm
  intro e he e' he'
  have hmem : ∀ x ∈ ((((edgesAt host now (s.records host)).filter fun e =>
        passes filter.fromPath e.fromPath).filter fun e =>
      passes filter.toPath e.toPath).filter fun e =>
    passesStatus filter.status e.status), x ∈ edgesAt host now (s.records host) := by
    intro x hx
    exact List.mem_of_mem_filter (List.mem_of_mem_filter (List.mem_of_mem_filter hx))
  exact h.ties e (hmem e he) e' (hmem e' he')

omit [LinearOrder S] [Std.TransCmp host.localeCompare] in
theorem matches_iff (row : DerivesFromEdgeRow S) (a b : String) :
    ((row.fromPath = a ∧ row.toPath = b) ∨ (row.fromPath = b ∧ row.toPath = a))
      ↔ canonPair row.fromPath row.toPath = canonPair a b :=
  (canonPair_eq_iff row.fromPath row.toPath a b).symm

omit [Std.TransCmp host.localeCompare] in
theorem getDerivesFromEdgePair_none {table : Table S}
    (hback : table.rows.map (deriveEdgeFromRow host now) = edgesAt host now recs)
    (hscan : scan.Lawful) {a b : String} (hnone : ∀ e ∈ collapse host recs,
      canonPair e.2.orientation.1 e.2.orientation.2 ≠ canonPair a b) :
    getDerivesFromEdgePair scan table a b = none := by
  unfold getDerivesFromEdgePair
  have hempty : (table.rows.filter fun row =>
      (row.fromPath = a ∧ row.toPath = b) ∨ (row.fromPath = b ∧ row.toPath = a))
        = [] := by
    rw [List.filter_eq_nil_iff]
    intro row hrow hmatch
    have hmatch' := (matches_iff row a b).mp (of_decide_eq_true hmatch)
    have hmem : deriveEdgeFromRow host now row ∈ edgesAt host now recs := by
      rw [← hback]
      exact List.mem_map_of_mem hrow
    obtain ⟨e, he, heq⟩ := List.mem_map.mp hmem
    have h₁ : e.2.orientation.1 = row.fromPath := congrArg DerivesFromEdge.fromPath heq
    have h₂ : e.2.orientation.2 = row.toPath := congrArg DerivesFromEdge.toPath heq
    exact hnone e he (by rw [h₁, h₂]; exact hmatch')
  rw [hempty, (hscan []).eq_nil]
  rfl

omit [Std.TransCmp host.localeCompare] in
theorem getDerivesFromEdgePair_some {table : Table S}
    (hback : table.rows.map (deriveEdgeFromRow host now) = edgesAt host now recs)
    (hscan : scan.Lawful) {a b : String} {e : String × EdgeState} (he : e ∈ collapse host recs)
    (hpair : canonPair e.2.orientation.1 e.2.orientation.2 = canonPair a b) :
    (getDerivesFromEdgePair scan table a b).map (deriveEdgeFromRow host now)
      = some (deriveEdge host now e.2) := by
  unfold getDerivesFromEdgePair
  generalize hrows : (table.rows.filter fun row =>
    (row.fromPath = a ∧ row.toPath = b) ∨ (row.fromPath = b ∧ row.toPath = a)) = rows
  have hread : ∀ row ∈ rows, deriveEdgeFromRow host now row = deriveEdge host now e.2 := by
    intro row hrow
    rw [← hrows] at hrow
    obtain ⟨hmem, hmatch⟩ := List.mem_filter.mp hrow
    have hmatch' := (matches_iff row a b).mp (of_decide_eq_true hmatch)
    have hmem' : deriveEdgeFromRow host now row ∈ edgesAt host now recs := by
      rw [← hback]
      exact List.mem_map_of_mem hmem
    obtain ⟨e', he', heq⟩ := List.mem_map.mp hmem'
    have h₁ : e'.2.orientation.1 = row.fromPath := congrArg DerivesFromEdge.fromPath heq
    have h₂ : e'.2.orientation.2 = row.toPath := congrArg DerivesFromEdge.toPath heq
    have hee : e' = e := by
      refine eq_of_pair_eq he' he ?_
      rw [hpair, h₁, h₂, hmatch']
    rw [← heq, hee]
  have hne : rows ≠ [] := by
    have hmem : deriveEdge host now e.2 ∈ edgesAt host now recs :=
      List.mem_map_of_mem (f := fun x : String × EdgeState => deriveEdge host now x.2) he
    rw [← hback] at hmem
    obtain ⟨row, hrow, heq⟩ := List.mem_map.mp hmem
    have h₁ : row.fromPath = e.2.orientation.1 := congrArg DerivesFromEdge.fromPath heq
    have h₂ : row.toPath = e.2.orientation.2 := congrArg DerivesFromEdge.toPath heq
    have hin : row ∈ rows := by
      rw [← hrows, List.mem_filter]
      refine ⟨hrow, decide_eq_true ((matches_iff row a b).mpr ?_)⟩
      rw [h₁, h₂]
      exact hpair
    intro hnil
    rw [hnil] at hin
    cases hin
  have hscanned := hscan rows
  cases hl : scan rows with
  | nil =>
      rw [hl] at hscanned
      exact absurd hscanned.nil_eq.symm hne
  | cons row rest =>
      rw [hl] at hscanned
      show some (deriveEdgeFromRow host now row) = _
      rw [hread row (hscanned.subset List.mem_cons_self)]

omit [LinearOrder S] [Std.TransCmp host.localeCompare] in
theorem pair_of_lookup
    (hkeys : ∀ r ∈ recs, r.kind = .observe → ∀ a b, pairKey a b = r.key → canonPair a b = r.pair)
    {a b : String} {st : EdgeState} (h : (pairKey a b, st) ∈ collapse host recs) :
    canonPair st.orientation.1 st.orientation.2 = canonPair a b := by
  obtain ⟨r, hr, hborn⟩ := stateOf_born host _ ((mem_collapse_iff host recs _ st).mp h)
  obtain ⟨hmem, hkey⟩ := List.mem_filter.mp hr
  have hkey' : pairKey a b = r.key := (of_decide_eq_true hkey).symm
  rw [canonPair_orientation hborn, hkeys r hmem hborn.kind a b hkey']

omit [Std.TransCmp host.localeCompare] in
theorem getEdge_of_settled (hbind : host.BindsText) (hs : Sound host s)
    (h : Settled host (s.records host) now) (hscan : scan.Lawful) (clock : T) (a b : String) :
    getEdge host scan clock s a b now = .ok (getEdgeFromLog host s.content a b now) := by
  have htext := isText_of_reasons host h.reasons
  obtain ⟨s', hs'⟩ := ensureFreshEdgesIndex_succeeds hbind htext clock
  have hback := rows_read_back hbind (ensureFreshEdgesIndex_ok hs hs').1 htext now
  unfold getEdge getEdgeFromLog
  simp only [hs']
  refine congrArg Except.ok ?_
  show _ = ((collapse host (s.records host)).lookup (pairKey a b)).map _
  cases hl : (collapse host (s.records host)).lookup (pairKey a b) with
  | none =>
      rw [getDerivesFromEdgePair_none hback hscan]
      · rfl
      · rintro ⟨key, st⟩ hmem hpair
        have hkey : pairKey a b = key := by
          rw [← key_of_mem hmem]
          unfold pairKey
          rw [hpair]
        have := Assoc.lookup_of_mem (nodup_collapse host _) hmem
        rw [← hkey, hl] at this
        cases this
  | some st =>
      have hmem := Assoc.mem_of_lookup hl
      exact getDerivesFromEdgePair_some hback hscan hmem (pair_of_lookup h.keys hmem)

omit [Std.TransCmp host.localeCompare] in
theorem reasons_of_readsAgree (h : ReadsAgree host s now) :
    ∀ c, StandsIn (trail (s.records host) c.key) c → c.reasonOrNull.IsText := by
  intro c hc
  by_contra hnot
  have hne : c.reasonOrNull ≠ .null := by
    intro he
    exact hnot (by rw [he]; trivial)
  obtain ⟨key, st, hmem, hreason⟩ :=
    (reason_iff_stands host (s.records host) _ hne).mpr ⟨c, hc, rfl⟩
  have hlist := h.list Scan.inOrder (fun rows => List.Perm.refl rows) now ⟨none, none, none⟩
  have hin : deriveEdge host now st
      ∈ listEdgesFromLog host s.content ⟨none, none, none⟩ now := by
    unfold listEdgesFromLog
    rw [(Stable.sort_perm _ _).mem_iff]
    simp only [passes, passesStatus, truthy, Option.filter_none, List.filter_true]
    exact List.mem_map_of_mem (f := fun x : String × EdgeState => deriveEdge host now x.2) hmem
  unfold listEdges at hlist
  cases hfresh : ensureFreshEdgesIndex host now s with
  | error reason => simp only [hfresh, reduceCtorEq] at hlist
  | ok s' =>
      simp only [hfresh, Except.ok.injEq] at hlist
      rw [← hlist, (Stable.sort_perm _ _).mem_iff] at hin
      obtain ⟨row, -, hrow⟩ := List.mem_map.mp (List.mem_of_mem_filter hin)
      have := deriveEdgeFromRow_isText host now row
      rw [hrow] at this
      exact hnot (hreason ▸ this)

theorem ties_of_readsAgree (h : ReadsAgree host s now)
    (hfresh : ensureFreshEdgesIndex host now s = .ok s')
    (hback : s'.table.rows.map (deriveEdgeFromRow host now) = edgesAt host now (s.records host)) :
    ∀ e ∈ edgesAt host now (s.records host), ∀ e' ∈ edgesAt host now (s.records host),
      compareEdges host e e' = .eq → e = e' := by
  intro e he e' he' htie
  by_contra hne
  obtain ⟨l, hl, hsort⟩ := Stable.exists_perm_sort_ne (compareEdges host) he he' hne htie
  -- the order of the tied edges comes from an order of their rows
  rw [← hback] at hl
  have hlift := congrFun (congrFun (List.eq_map_comp_perm (deriveEdgeFromRow host now)) l)
    s'.table.rows
  obtain ⟨rows, rfl, hrows⟩ := hlift.mpr hl
  have hlawful : Scan.Lawful fun l => if l = s'.table.rows then rows else l := by
    intro l
    dsimp only
    split
    · rename_i hl
      rw [hl]
      exact hrows
    · exact List.Perm.refl l
  have hlist := h.list _ hlawful now ⟨none, none, none⟩
  unfold listEdges listDerivesFromEdgeRows listEdgesFromLog at hlist
  simp only [hfresh, passes, passesStatus, passesStatusIn, statusIn, truthy,
    Option.filter_none, Bool.and_self, List.filter_true, if_true,
    Except.ok.injEq] at hlist
  exact hsort hlist

omit [Std.TransCmp host.localeCompare] in
theorem keys_of_readsAgree (h : ReadsAgree host s now)
    (hfresh : ensureFreshEdgesIndex host now s = .ok s')
    (hback : s'.table.rows.map (deriveEdgeFromRow host now) = edgesAt host now (s.records host)) :
    ∀ r ∈ s.records host, r.kind = .observe →
      ∀ a b, pairKey a b = r.key → canonPair a b = r.pair := by
  intro r hr hkind a b hkey
  have htrail : r ∈ trail (s.records host) r.key := by
    unfold trail
    rw [List.mem_filter]
    exact ⟨hr, by simp⟩
  obtain ⟨st, hst⟩ := stateOf_isSome host htrail hkind
  have hmem := (mem_collapse_iff host _ r.key st).mpr hst
  -- a pair with this key is found in the log, so its row is found in the table
  have hshown : ∀ x y, pairKey x y = r.key →
      canonPair st.orientation.1 st.orientation.2 = canonPair x y := by
    intro x y hxy
    by_contra hne
    have hpair := h.pair Scan.inOrder (fun rows => List.Perm.refl rows) now x y
    unfold getEdge getEdgeFromLog at hpair
    simp only [hfresh, Except.ok.injEq] at hpair
    have hlawful : (Scan.inOrder : Scan S).Lawful := fun rows => List.Perm.refl rows
    rw [getDerivesFromEdgePair_none hback hlawful] at hpair
    · have hlook : (collapse host (readRawRecords host s.content)).lookup (pairKey x y)
          = some st := by
        rw [hxy]
        exact Assoc.lookup_of_mem (nodup_collapse host _) hmem
      rw [hlook] at hpair
      cases hpair
    · rintro ⟨key, st'⟩ hmem' hpair'
      have hkey' : key = r.key := by
        rw [← key_of_mem hmem', ← hxy]
        unfold pairKey
        rw [hpair']
      subst hkey'
      have h₁ := Assoc.lookup_of_mem (nodup_collapse host _) hmem
      rw [Assoc.lookup_of_mem (nodup_collapse host _) hmem'] at h₁
      cases h₁
      exact hne hpair'
  rw [← hshown a b hkey, hshown r.fromPath r.toPath rfl]
  rfl

/-- **THE TABLE AGREES WITH THE LOG EXACTLY WHEN THE LOG IS SETTLED.**  In every state reached by
    edge writes, reads and rebuilds, and at every instant, the reads answered from the table are
    those answered from the log if and only if every standing contest's reason is text or null, no
    observed pair shares its key with another, and no two edges tie in the listing's order. -/
theorem reads_agree_iff (hbind : host.BindsText) {s₀ s : Store S}
    (h₀ : Sound host s₀) (hreach : (machine host).Reach s₀ s) (now : T) :
    ReadsAgree host s now ↔ Settled host (s.records host) now := by
  have hs := sound_of_reach h₀ hreach
  constructor
  · intro h
    have hreasons := reasons_of_readsAgree h
    have htext := isText_of_reasons host hreasons
    obtain ⟨s', hfresh⟩ := ensureFreshEdgesIndex_succeeds hbind htext now
    have hback := rows_read_back hbind (ensureFreshEdgesIndex_ok hs hfresh).1 htext now
    exact ⟨hreasons, keys_of_readsAgree h hfresh hback, ties_of_readsAgree h hfresh hback⟩
  · intro h
    exact ⟨fun scan hscan clock filter => listEdges_of_settled hbind hs h hscan clock filter,
      fun scan hscan clock a b => getEdge_of_settled hbind hs h hscan clock a b⟩

end Agreement

end Reads

/-! ## Two logs -/

def observeLine : String :=
  "\x7b\"kind\":\"observe\",\"from\":\"a.md\",\"to\":\"b.md\",\"at\":\"2026-01-01\"\x7d"

def contestLine : String :=
  "\x7b\"kind\":\"contest\",\"from\":\"a.md\",\"to\":\"b.md\",\"at\":\"2026-01-02\",\"reason\":true\x7d"

def observedFields : Fields :=
  [("kind", .str "observe"), ("from", .str "a.md"), ("to", .str "b.md"),
    ("at", .str "2026-01-01")]

def contestedFields : Fields :=
  [("kind", .str "contest"), ("from", .str "a.md"), ("to", .str "b.md"),
    ("at", .str "2026-01-02"), ("reason", .bool true)]

def plainHost : Host Nat Nat where
  parseLine line :=
    if line = observeLine then some observedFields
    else if line = contestLine then some contestedFields
    else none
  stringify _ := ""
  dateParse text :=
    if text = "2026-01-01" then some 1767225600000
    else if text = "2026-01-02" then some 1767312000000
    else none
  agedStrength k _ _ := k
  zero := 0
  triggerStrength := 1
  localeCompare := compare
  toSecondISO _ := "2026-01-03T00:00:00Z"
  bindText
    | .null => .ok none
    | .str text => .ok (some text)
    | _ => .error
        "SQLite3 can only bind numbers, strings, bigints, buffers, and null"

theorem plainHost_bindsText : plainHost.BindsText := ⟨rfl, fun _ => rfl⟩

instance : Std.TransCmp plainHost.localeCompare :=
  inferInstanceAs (Std.TransCmp (compare : String → String → Ordering))

def observedStore : Store Nat := ⟨some (observeLine ++ "\n", 1), [], none⟩

def contestedStore : Store Nat :=
  ⟨some (observeLine ++ "\n" ++ contestLine ++ "\n", 2), [], none⟩

theorem observedStore_records : observedStore.records plainHost
    = [{ kind := .observe, fromPath := "a.md", toPath := "b.md",
         atISO := "2026-01-01", observer := none, blind := none, axis := none,
         premiseVote := none, model := none, reason := none }] := by
  decide +kernel

theorem settled_observed : Settled plainHost (observedStore.records plainHost) 0 := by
  rw [observedStore_records]
  refine ⟨?_, ?_, ?_⟩
  · rintro c ⟨before, o, after, htrail, -⟩
    have hlen := congrArg List.length htrail
    have hle := List.length_filter_le (fun r : RawEdgeRecord => decide (r.key = c.key))
      [{ kind := .observe, fromPath := "a.md", toPath := "b.md",
         atISO := "2026-01-01", observer := none, blind := none, axis := none,
         premiseVote := none, model := none, reason := none }]
    unfold trail at hlen
    simp only [List.length_append, List.length_cons, List.length_nil] at hlen hle
    omega
  · intro r hr _ a b hkey
    rw [List.mem_singleton.mp hr] at hkey ⊢
    exact canonPair_of_pairKey (by decide +kernel) (by decide +kernel) hkey
  · intro e he e' he' _
    have hone : ∀ x ∈ edgesAt plainHost 0
        [{ kind := .observe, fromPath := "a.md", toPath := "b.md",
           atISO := "2026-01-01", observer := none, blind := none, axis := none,
           premiseVote := none, model := none, reason := none }], ∀ y ∈ edgesAt plainHost 0
        [{ kind := .observe, fromPath := "a.md", toPath := "b.md",
           atISO := "2026-01-01", observer := none, blind := none, axis := none,
           premiseVote := none, model := none, reason := none }], x = y := by
      decide +kernel
    exact hone e he e' he'

/-- One observation, read once: the table answers as the log does. -/
theorem reads_agree_observed :
    ReadsAgree plainHost ((machine plainHost).next observedStore (.read 0)) 0 := by
  refine (reads_agree_iff plainHost_bindsText
    (sound_unmarked plainHost (some (observeLine ++ "\n", 1)) [])
    ((Machine.Reach.refl observedStore).step (a := .read 0) trivial) 0).mpr ?_
  have hrecs : ((machine plainHost).next observedStore (.read 0)).records plainHost
      = observedStore.records plainHost := by decide +kernel
  exact settled_observed

/-- **The reads fail where the log still answers**: a contest whose reason is
    `true` revokes its edge in the log and cannot be bound in the table. -/
theorem listing_fails_on_untyped_reason :
    Sound plainHost contestedStore
      ∧ listEdges plainHost Scan.inOrder 0 contestedStore ⟨none, none, none⟩ 0
        = .error ("cannot read edges: cannot rebuild derives_from index: "
          ++ "SQLite3 can only bind numbers, strings, bigints, buffers, and null")
      ∧ (listEdgesFromLog plainHost contestedStore.content ⟨none, none, none⟩ 0).map
          (fun e => (e.fromPath, e.toPath, e.status, e.contestReason))
        = [("a.md", "b.md", .revoked, .bool true)]
      ∧ ¬ ReadsAgree plainHost contestedStore 0 := by
  have hfails : listEdges plainHost Scan.inOrder 0 contestedStore
      ⟨none, none, none⟩ 0
        = .error ("cannot read edges: cannot rebuild derives_from index: "
          ++ "SQLite3 can only bind numbers, strings, bigints, buffers, and null") := by
    decide +kernel
  refine ⟨sound_unmarked plainHost _ [], hfails, by decide +kernel, ?_⟩
  intro h
  have hlist := h.list Scan.inOrder (fun rows => List.Perm.refl rows) 0
    ⟨none, none, none⟩
  rw [hfails] at hlist
  cases hlist

end Edges
