import Daftari.Lib.AssocProofs
import Daftari.Lib.TextProofs
import Mathlib.Data.List.Sort

/-! # The staged-action log — proposals, decisions, and the collapse

    `curation/staged-actions.ts`: an append-only list of records.  A record
    with an action type is a proposal; any other is a decision on an earlier
    one.  The current state of an action is the collapse of the whole log.

    * `collapse` and what one appended record does to it (`status_snoc`). -/

namespace Staged

/-- The states a staged action moves through, and whatever else a record on disk may say. -/
inductive Status where
  | pending
  | ratified
  | rejected
  | expired
  | ratifiedPendingTool
  | other (text : String)
  deriving DecidableEq, Repr

/-- A line of the log.  `actionType` tells a proposal from a decision. -/
structure RawRecord where
  id : String
  actionType : Option String := none
  targetPath : Option String := none
  proposedBy : Option String := none
  proposedAt : Option String := none
  expiresAt : Option String := none
  status : Option Status := none
  rationale : Option String := none
  proposedDiff : Option String := none
  ratifiedAt : Option String := none
  ratifiedBy : Option String := none
  ratificationReason : Option String := none
  decidedByPrincipal : Option String := none
  runId : Option String := none
  baseVersion : Option String := none

/-- The current state of one action. -/
structure StagedActionRow where
  id : String
  actionType : String
  targetPath : String
  proposedBy : String
  proposedAt : String
  expiresAt : String
  status : Status
  rationale : String
  proposedDiff : String
  ratifiedAt : Option String
  ratifiedBy : Option String
  ratificationReason : Option String
  decidedByPrincipal : Option String
  runId : Option String
  baseVersion : Option String

def RawRecord.seed (rec : RawRecord) (actionType : String) :
    StagedActionRow where
  id := rec.id
  actionType := actionType
  targetPath := rec.targetPath.getD ""
  proposedBy := rec.proposedBy.getD ""
  proposedAt := rec.proposedAt.getD ""
  expiresAt := rec.expiresAt.getD ""
  status := rec.status.getD .pending
  rationale := rec.rationale.getD ""
  proposedDiff := rec.proposedDiff.getD "null"
  ratifiedAt := none
  ratifiedBy := none
  ratificationReason := none
  decidedByPrincipal := none
  runId := rec.runId
  baseVersion := rec.baseVersion

def StagedActionRow.decide (row : StagedActionRow) (rec : RawRecord) : StagedActionRow :=
  { row with
    status := rec.status.getD row.status
    ratifiedAt := rec.ratifiedAt
    ratifiedBy := rec.ratifiedBy
    ratificationReason := rec.ratificationReason
    decidedByPrincipal := rec.decidedByPrincipal }

/-- The rows by id, in the order the ids were first proposed. -/
abbrev Rows := List (String × StagedActionRow)

/-- One record of the collapse.  A decision without a proposal is ignored. -/
def applyRecord (rows : Rows) (rec : RawRecord) : Rows :=
  match rec.actionType with
  | some t => Assoc.set rows rec.id (rec.seed t)
  | none =>
      match rows.lookup rec.id with
      | none => rows
      | some existing => Assoc.set rows rec.id (existing.decide rec)

def collapse (log : List RawRecord) : Rows := log.foldl applyRecord []

/-- `currentRows`: the rows in id order. -/
def currentRows (log : List RawRecord) : List StagedActionRow :=
  ((collapse log).map Prod.snd).insertionSort fun a b => ¬ Text.lt b.id a.id

def getStagedActionById (log : List RawRecord) (id : String) : Option StagedActionRow :=
  (collapse log).lookup id

def statusOf (log : List RawRecord) (id : String) : Option Status :=
  (getStagedActionById log id).map StagedActionRow.status

/-- What `recordDecision` and the sweep write down. -/
structure DecisionInput where
  status : Status
  ratifiedAt : String
  ratifiedBy : String
  reason : Option String := none
  decidedByPrincipal : Option String := none
  deriving DecidableEq, Repr

/-- The decision record; an empty reason is left out. -/
def DecisionInput.record (d : DecisionInput) (id : String) : RawRecord where
  id := id
  status := some d.status
  ratifiedAt := some d.ratifiedAt
  ratifiedBy := some d.ratifiedBy
  ratificationReason := d.reason.filter (· ≠ "")
  decidedByPrincipal := d.decidedByPrincipal

/-- `recordDecision`: append a decision for an action that exists.  Whether it
    is still pending is the caller's business. -/
def recordDecision (log : List RawRecord) (id : String) (d : DecisionInput) :
    Except String (List RawRecord) :=
  match getStagedActionById log id with
  | none => .error ("staged action not found: " ++ id)
  | some _ => .ok (log ++ [d.record id])

/-- The principal of an automatic expiry. -/
def sweepPrincipal : String := "system:lint-sweep"

/-- The actions a sweep at `now` finds pending and past their expiry, soonest first.  `dateParse` is
    the host's date parser; an expiry it cannot read is never past. -/
def staleRows (dateParse : String → Option Int) (log : List RawRecord)
    (now : Int) : List StagedActionRow :=
  ((currentRows log).filter fun r =>
    r.status = .pending ∧ ∃ t ∈ dateParse r.expiresAt, t < now).insertionSort
      fun a b => ¬ Text.lt b.expiresAt a.expiresAt

/-- The expiry records of a sweep; `stamp` is `now` as the log writes it. -/
def sweepRecords (dateParse : String → Option Int) (log : List RawRecord)
    (now : Int) (stamp : String) : List RawRecord :=
  (staleRows dateParse log now).map fun r =>
    ({ status := .expired, ratifiedAt := stamp, ratifiedBy := sweepPrincipal }
      : DecisionInput).record r.id

/-! ## The collapse of a longer log -/

variable (log : List RawRecord)

theorem collapse_snoc (rec : RawRecord) :
    collapse (log ++ [rec]) = applyRecord (collapse log) rec := by
  unfold collapse
  rw [List.foldl_append]
  rfl

theorem lookup_applyRecord_of_ne (rows : Rows) {rec : RawRecord} {id : String}
    (h : id ≠ rec.id) : (applyRecord rows rec).lookup id = rows.lookup id := by
  unfold applyRecord
  split
  · exact Assoc.lookup_set_of_ne _ _ h
  · split
    · rfl
    · exact Assoc.lookup_set_of_ne _ _ h

theorem lookup_applyRecord_decision {rows : Rows} (rec : RawRecord)
    {row : StagedActionRow} (ht : rec.actionType = none) (hrow : rows.lookup rec.id = some row) :
    (applyRecord rows rec).lookup rec.id = some (row.decide rec) := by
  unfold applyRecord
  rw [ht]
  simp only [hrow]
  exact Assoc.lookup_set_self _ _ _

/-- **One decision more** sets the status of its id, if the id was proposed, and no other. -/
theorem statusOf_decision (d : DecisionInput) (id id' : String) :
    statusOf (log ++ [d.record id]) id' = if id' = id ∧ (statusOf log id).isSome then some d.status
      else statusOf log id' := by
  unfold statusOf getStagedActionById
  rw [collapse_snoc]
  by_cases hid : id' = id
  · subst hid
    cases hrow : (collapse log).lookup id' with
    | none =>
        have happ : applyRecord (collapse log) (d.record id') = collapse log := by
          unfold applyRecord
          simp only [DecisionInput.record, hrow]
        rw [happ, hrow]
        simp
    | some row =>
        have hnew : (applyRecord (collapse log) (d.record id')).lookup id' =
            some (row.decide (d.record id')) :=
          lookup_applyRecord_decision (d.record id') rfl hrow
        rw [hnew]
        simp [StagedActionRow.decide, DecisionInput.record]
  · rw [lookup_applyRecord_of_ne _ (show id' ≠ (d.record id).id from hid)]
    rw [if_neg fun h => hid h.1]

theorem statusOf_decisions (d : DecisionInput) (ids : List String)
    (log : List RawRecord) (id : String) : statusOf (log ++ ids.map d.record) id =
      if id ∈ ids ∧ (statusOf log id).isSome then some d.status else statusOf log id := by
  induction ids generalizing log with
  | nil => simp
  | cons i ids ih =>
      have hsplit : log ++ (i :: ids).map d.record =
          (log ++ [d.record i]) ++ ids.map d.record := by simp
      rw [hsplit, ih, statusOf_decision]
      by_cases hi : id = i
      · subst hi
        by_cases hs : (statusOf log id).isSome
        · simp [hs]
        · simp [hs]
      · simp [hi]

theorem recordDecision_eq (id : String) (d : DecisionInput) (log' : List RawRecord) :
    recordDecision log id d = .ok log' ↔
      (statusOf log id).isSome ∧ log' = log ++ [d.record id] := by
  unfold recordDecision statusOf
  cases getStagedActionById log id with
  | none => simp
  | some row => simp [eq_comm]

/-! ## What a sweep sees -/

/-- Rows are filed under their own id, each once. -/
structure RowsOk (rows : Rows) : Prop where
  nodup : (Assoc.keys rows).Nodup
  filed : ∀ k row, (k, row) ∈ rows → row.id = k

theorem RowsOk.set {rows : Rows} (h : RowsOk rows) {k : String}
    {row : StagedActionRow} (hk : row.id = k) :
    RowsOk (Assoc.set rows k row) where
  nodup := Assoc.nodup_set k row h.nodup
  filed k' row' hm := by
    have hl := Assoc.lookup_of_mem (Assoc.nodup_set k row h.nodup) hm
    by_cases hkk : k' = k
    · subst hkk
      rw [Assoc.lookup_set_self] at hl
      rw [← Option.some.inj hl]
      exact hk
    · rw [Assoc.lookup_set_of_ne _ _ hkk] at hl
      exact h.filed k' row' (Assoc.mem_of_lookup hl)

theorem RowsOk.applyRecord {rows : Rows} (h : RowsOk rows) (rec : RawRecord) :
    RowsOk (applyRecord rows rec) := by
  unfold Staged.applyRecord
  split
  · exact h.set rfl
  · split
    · exact h
    · rename_i row hrow
      exact h.set (h.filed _ row (Assoc.mem_of_lookup hrow))

theorem rowsOk_collapse : RowsOk (collapse log) := by
  have hfold : ∀ (log : List RawRecord) (rows : Rows), RowsOk rows →
      RowsOk (log.foldl applyRecord rows) := by
    intro log
    induction log with
    | nil => exact fun _ h => h
    | cons rec log ih => exact fun rows h => ih _ (h.applyRecord rec)
  exact hfold log [] ⟨List.nodup_nil, fun _ _ hm => nomatch hm⟩

/-- **A sweep expires pending actions only.** -/
theorem statusOf_stale {dateParse : String → Option Int} {log : List RawRecord}
    {now : Int} {row : StagedActionRow} (h : row ∈ staleRows dateParse log now) :
    statusOf log row.id = some .pending := by
  unfold staleRows at h
  rw [List.mem_insertionSort, List.mem_filter] at h
  obtain ⟨hrow, hp⟩ := h
  have hpend : row.status = .pending := by
    simp only [decide_eq_true_eq] at hp
    exact hp.1
  unfold currentRows at hrow
  rw [List.mem_insertionSort, List.mem_map] at hrow
  obtain ⟨⟨k, r⟩, hmem, rfl⟩ := hrow
  have hok := rowsOk_collapse log
  obtain rfl := hok.filed k r hmem
  unfold statusOf getStagedActionById
  rw [Assoc.lookup_of_mem hok.nodup hmem, Option.map_some, hpend]

end Staged
