import Daftari.Curation.StagedActionsProofs
import Daftari.Curation.TensionLogProofs
import Mathlib.Algebra.Order.Field.Rat

/-! # Runs of the staged-action log — staging, deciding, sweeping

    The log is only ever appended to, and its state is the collapse of all of it.  Three writers
    read it their own way: staging scans it for the next id and for the proposals it competes with,
    a decision mirrors itself onto the row it read, a sweep appends one record per stale row.

    * `stageAction`, `stageActionWithConflictCheck`, `decideAction`;
    * `LogOk.stage`, `LogOk.decision`: **what one appended record keeps**;
    * `run_faithful`: **every sequence of calls**. -/

namespace Staged

open Tension (Str)

/-! ## Staging -/

def stagedActionTypes : List String :=
  ["promote", "deprecate", "supersede", "unsupersede", "merge", "confidence-up", "write",
    "repin"]

/-- `StageActionInput`.  The diff is its JSON text, absent when it is missing or
    null; a number of days is absent inside when it is not finite. -/
structure StageActionInput where
  actionType : String
  targetPath : String
  proposedBy : String
  rationale : String
  proposedDiff : Option String
  ttlDays : Option (Option Rat) := none
  runId : Option String := none
  proposedAt : Option String := none
  baseVersion : Option String := none

/-- `trim()` of a text. -/
def trimText (s : String) : String := String.ofList (Text.trim s.toList)

def defaultTtlDays : Rat := 14

/-- The texts `validateStageInput` wants, in the order it checks them. -/
def StageActionInput.requiredTexts (input : StageActionInput) : List (String × String) :=
  [("targetPath", input.targetPath), ("proposedBy", input.proposedBy),
    ("rationale", input.rationale)]

/-- `validateStageInput`: the days the proposal lives. -/
def validateStageInput (input : StageActionInput) : Except String Rat :=
  if input.actionType ∉ stagedActionTypes then
    .error ("stageAction: action_type must be one of: " ++ ", ".intercalate stagedActionTypes)
  else
    match input.requiredTexts.find? fun f => Text.trim f.2.toList = [] with
    | some (field, _) => .error ("stageAction requires a non-empty '" ++ field ++ "'")
    | none =>
        if input.proposedDiff = none then .error "stageAction requires a 'proposedDiff'"
        else
          match input.ttlDays.getD (some defaultTtlDays) with
          | none => .error "stageAction 'ttlDays' must be a positive number"
          | some days =>
              if days ≤ 0 then .error "stageAction 'ttlDays' must be a positive number"
              else .ok days

/-- What the module takes from its host: the clock, and date arithmetic that
    fails on a text it cannot read. -/
structure Host where
  nowISO : String
  today : Str
  addDaysISO : String → Rat → Except String String

/-- `/^stage-(\d+)$/`: the number of an id. -/
def idNumber (id : String) : Option Nat :=
  if "stage-".toList.isPrefixOf id.toList then NumberedIds.numberOf (id.toList.drop 6)
  else none

/-- `stage-NNN`, padded to three digits. -/
def stagedId (n : Nat) : String := String.ofList ("stage-".toList ++ NumberedIds.padded n)

/-- `nextStagedId`: one more than the highest number in the log. -/
def nextStagedId (records : List RawRecord) : String :=
  stagedId (NumberedIds.nextNumber idNumber (records.map RawRecord.id))

/-- The proposal record `appendProposalRecord` writes. -/
def proposalRecord (input : StageActionInput) (id proposedAt expiresAt : String) : RawRecord where
  id := id
  actionType := some input.actionType
  targetPath := some (trimText input.targetPath)
  proposedBy := some (trimText input.proposedBy)
  proposedAt := some proposedAt
  expiresAt := some expiresAt
  status := some .pending
  rationale := some (trimText input.rationale)
  proposedDiff := input.proposedDiff
  runId := (input.runId.map trimText).filter (· ≠ "")
  baseVersion := input.baseVersion.filter (· ≠ "")

structure StagedProposal where
  id : String
  expiresAt : String

/-- `appendProposalRecord`: the proposal and the log after it. -/
def appendProposalRecord (host : Host) (input : StageActionInput) (records : List RawRecord)
    (ttlDays : Rat) : Except String (StagedProposal × List RawRecord) :=
  let proposedAt := input.proposedAt.getD host.nowISO
  match host.addDaysISO proposedAt ttlDays with
  | .error reason => .error ("cannot stage action: " ++ reason)
  | .ok expiresAt =>
      let id := nextStagedId records
      .ok (⟨id, expiresAt⟩, records ++ [proposalRecord input id proposedAt expiresAt])

def stageAction (host : Host) (records : List RawRecord) (input : StageActionInput) :
    Except String (StagedProposal × List RawRecord) := do
  let ttlDays ← validateStageInput input
  appendProposalRecord host input records ttlDays

/-! ## Competing proposals -/

/-- The shortest start of a line that ends a sentence: `/^(.*?[.!?])(\s|$)/`. -/
def sentenceIn : List Char → Option (List Char)
  | [] => none
  | c :: rest =>
      if c ∈ ['.', '!', '?'] ∧ rest.head?.all Text.isSpace then some [c]
      else if Text.isTerminator c then none
      else (sentenceIn rest).map (c :: ·)

def firstSentence (text : String) : Str :=
  (sentenceIn (Text.trim text.toList)).getD (Text.trim text.toList)

/-- The pending proposals for the same target. -/
def contendersOf (records : List RawRecord) (input : StageActionInput) : List StagedActionRow :=
  ((collapse records).map Prod.snd).filter fun r =>
    r.status = .pending ∧ r.targetPath = trimText input.targetPath

/-- The tension a proposal that competes with others logs. -/
def competingTension (contenders : List StagedActionRow) (id : String)
    (input : StageActionInput) : Tension.TensionInput where
  title := "Competing proposals on ".toList ++ (trimText input.targetPath).toList
  kind := "inter-proposal".toList
  sourceA := (trimText input.targetPath).toList
  claimA := " | ".toList.intercalate (contenders.map fun r =>
    ("pending " ++ r.id ++ " (" ++ r.actionType ++ "): ").toList ++ firstSentence r.rationale)
  sourceB := (trimText input.targetPath).toList
  claimB := ("new " ++ id ++ " (" ++ input.actionType ++ "): ").toList
    ++ firstSentence input.rationale
  loggedBy := (trimText input.proposedBy).toList

structure StageOutcome where
  id : String
  expiresAt : String
  conflictsWith : List String
  tensionId : Option Str
  tensionError : Option String := none

/-- The two files a checked staging writes. -/
structure Files where
  records : List RawRecord
  tensions : Option Str

/-- `stageActionWithConflictCheck`.  The contenders are taken from the log the proposal is then
    appended to; a tension that cannot be logged does not take the proposal back. -/
def stageActionWithConflictCheck (host : Host) (files : Files) (input : StageActionInput) :
    Except String (StageOutcome × Files) := do
  let ttlDays ← validateStageInput input
  let (staged, records) ← appendProposalRecord host input files.records ttlDays
  let contenders := contendersOf files.records input
  if contenders = [] then
    .ok (⟨staged.id, staged.expiresAt, [], none, none⟩, { files with records := records })
  else
    let ids := contenders.map StagedActionRow.id
    match Tension.addTension files.tensions host.today
        (competingTension contenders staged.id input) with
    | .error e =>
        .ok (⟨staged.id, staged.expiresAt, ids, none, some e⟩, { files with records := records })
    | .ok (entry, raw) =>
        .ok (⟨staged.id, staged.expiresAt, ids, entry.id, none⟩, ⟨records, some raw⟩)

/-! ## Deciding -/

/-- The row `recordDecision` gives back: the decision mirrored onto the row it
    read, without reading the log again. -/
def mirror (existing : StagedActionRow) (rec : RawRecord) : StagedActionRow :=
  { existing with
    status := rec.status.getD existing.status
    ratifiedAt := rec.ratifiedAt
    ratifiedBy := rec.ratifiedBy
    ratificationReason := rec.ratificationReason
    decidedByPrincipal := rec.decidedByPrincipal }

/-- `recordDecision` with the row it returns. -/
def decideAction (records : List RawRecord) (id : String) (d : DecisionInput) :
    Except String (StagedActionRow × List RawRecord) :=
  match getStagedActionById records id with
  | none => .error ("staged action not found: " ++ id)
  | some existing => .ok (mirror existing (d.record id), records ++ [d.record id])

/-! ## Ids -/

theorem idNumber_stagedId (n : Nat) : idNumber (stagedId n) = some n := by
  have hlist : (stagedId n).toList = "stage-".toList ++ NumberedIds.padded n := by
    unfold stagedId
    rw [String.toList_ofList]
  have hdrop : ("stage-".toList ++ NumberedIds.padded n).drop 6 = NumberedIds.padded n := rfl
  unfold idNumber
  rw [hlist, if_pos (List.isPrefixOf_iff_prefix.mpr (List.prefix_append _ _)), hdrop,
    NumberedIds.numberOf_padded]

/-- **A new id is in no record**, be it a proposal or a decision. -/
theorem nextStagedId_fresh (records : List RawRecord) :
    nextStagedId records ∉ records.map RawRecord.id :=
  NumberedIds.nextNumber_fresh idNumber_stagedId

/-! ## What a decision leaves of a row -/

/-- The row with its decision taken back. -/
def StagedActionRow.undecided (row : StagedActionRow) : StagedActionRow :=
  { row with
    status := .pending
    ratifiedAt := none
    ratifiedBy := none
    ratificationReason := none
    decidedByPrincipal := none }

@[simp] theorem undecided_decide (row : StagedActionRow) (rec : RawRecord) :
    (row.decide rec).undecided = row.undecided := rfl

theorem mirror_eq_decide (row : StagedActionRow) (rec : RawRecord) :
    mirror row rec = row.decide rec := rfl

def proposedRow (input : StageActionInput) (id proposedAt expiresAt : String) : StagedActionRow :=
  (proposalRecord input id proposedAt expiresAt).seed input.actionType

theorem undecided_proposedRow (input : StageActionInput) (id proposedAt expiresAt : String) :
    (proposedRow input id proposedAt expiresAt).undecided =
      proposedRow input id proposedAt expiresAt := rfl

variable (log : List RawRecord)

variable (d : DecisionInput)

theorem lookup_decision (id id' : String) :
    getStagedActionById (log ++ [d.record id]) id' =
      if id' = id then (getStagedActionById log id).map (·.decide (d.record id))
      else getStagedActionById log id' := by
  unfold getStagedActionById
  rw [collapse_snoc]
  by_cases hid : id' = id
  · subst hid
    rw [if_pos rfl]
    cases hrow : (collapse log).lookup id' with
    | none =>
        have hsame : applyRecord (collapse log) (d.record id') = collapse log := by
          simp only [applyRecord, DecisionInput.record, hrow]
        rw [hsame, hrow]
        rfl
    | some row => exact lookup_applyRecord_decision (d.record id') rfl hrow
  · rw [if_neg hid]
    exact lookup_applyRecord_of_ne _ (show id' ≠ (d.record id).id from hid)

theorem keys_decision (id : String) :
    Assoc.keys (collapse (log ++ [d.record id])) = Assoc.keys (collapse log) := by
  rw [collapse_snoc]
  cases hrow : (collapse log).lookup id with
  | none => simp only [applyRecord, DecisionInput.record, hrow]
  | some row =>
      have hmem : id ∈ Assoc.keys (collapse log) :=
        List.mem_map.mpr ⟨(id, row), Assoc.mem_of_lookup hrow, rfl⟩
      simp only [applyRecord, DecisionInput.record, hrow]
      rw [Assoc.keys_set, if_pos hmem]

theorem lookup_decisions (ids : List String) (log : List RawRecord) (id : String) :
    (getStagedActionById (log ++ ids.map d.record) id).map StagedActionRow.undecided =
        (getStagedActionById log id).map StagedActionRow.undecided ∧ (id ∉ ids →
        getStagedActionById (log ++ ids.map d.record) id = getStagedActionById log id) := by
  induction ids generalizing log with
  | nil => simp
  | cons i ids ih =>
      have hsplit : log ++ (i :: ids).map d.record =
          (log ++ [d.record i]) ++ ids.map d.record := by simp
      obtain ⟨hproposal, hother⟩ := ih (log ++ [d.record i])
      rw [hsplit]
      constructor
      · rw [hproposal, lookup_decision]
        split
        · rename_i hid
          subst hid
          rw [Option.map_map]
          rfl
        · rfl
      · intro hid
        rw [List.mem_cons, not_or] at hid
        rw [hother hid.2, lookup_decision, if_neg hid.1]

theorem keys_decisions (ids : List String) (log : List RawRecord) :
    Assoc.keys (collapse (log ++ ids.map d.record)) = Assoc.keys (collapse log) := by
  induction ids generalizing log with
  | nil => simp
  | cons i ids ih =>
      have hsplit : log ++ (i :: ids).map d.record =
          (log ++ [d.record i]) ++ ids.map d.record := by simp
      rw [hsplit, ih, keys_decision]

theorem keys_collapse_subset : Assoc.keys (collapse log) ⊆ log.map RawRecord.id := by
  induction log using List.reverseRecOn with
  | nil => exact List.nil_subset _
  | append_singleton log rec ih =>
      have hset : ∀ row, Assoc.keys (Assoc.set (collapse log) rec.id row) ⊆
          (log ++ [rec]).map RawRecord.id := by
        intro row id hid
        rw [List.map_append]
        rw [Assoc.keys_set] at hid
        split at hid
        · exact List.mem_append_left _ (ih hid)
        · rcases List.mem_append.mp hid with hid | hid
          · exact List.mem_append_left _ (ih hid)
          · exact List.mem_append_right _ hid
      rw [collapse_snoc]
      unfold applyRecord
      split
      · exact hset _
      · split
        · rw [List.map_append]
          exact fun id hid => List.mem_append_left _ (ih hid)
        · exact hset _

/-! ## The invariant -/

/-- The log, and a row for every proposal staged so far. -/
structure Log where
  files : Files
  staged : List StagedActionRow

/-- There is one row per staged proposal, in their order, and a row differs from
    its proposal in its decision only.  No other id is in the log. -/
structure LogOk (s : Log) : Prop where
  rows : Assoc.keys (collapse s.files.records) = s.staged.map StagedActionRow.id
  distinct : (s.staged.map StagedActionRow.id).Nodup
  known : ∀ rec ∈ s.files.records, rec.id ∈ s.staged.map StagedActionRow.id
  kept : ∀ p ∈ s.staged, ∃ row, getStagedActionById s.files.records p.id = some row ∧
    row.undecided = p

theorem logOk_start : LogOk ⟨⟨[], none⟩, []⟩ where
  rows := rfl
  distinct := List.nodup_nil
  known _ h := nomatch h
  kept _ h := nomatch h

variable {s : Log}

/-- **A proposal more.** -/
theorem LogOk.stage (hok : LogOk s) (input : StageActionInput) (proposedAt expiresAt : String)
    (tensions : Option Str) :
    LogOk ⟨⟨s.files.records ++ [proposalRecord input (nextStagedId s.files.records) proposedAt
        expiresAt], tensions⟩,
      s.staged ++ [proposedRow input (nextStagedId s.files.records) proposedAt expiresAt]⟩ := by
  have hnew : nextStagedId s.files.records ∉ s.files.records.map RawRecord.id :=
    nextStagedId_fresh s.files.records
  generalize nextStagedId s.files.records = id at hnew ⊢
  -- what is staged has a record, so the new id is no staged one either
  have hkey : id ∉ s.staged.map StagedActionRow.id := by
    intro hmem
    rw [← hok.rows] at hmem
    exact hnew (keys_collapse_subset s.files.records hmem)
  have hrows : collapse (s.files.records ++ [proposalRecord input id proposedAt expiresAt]) =
      collapse s.files.records ++ [(id, proposedRow input id proposedAt expiresAt)] := by
    rw [collapse_snoc]
    refine Assoc.set_of_not_mem _ ?_
    rw [hok.rows]
    exact hkey
  constructor
  · show Assoc.keys (collapse (s.files.records ++ _)) = _
    rw [hrows, Assoc.keys, List.map_append, List.map_append]
    congr 1
    exact hok.rows
  · rw [List.map_append, List.nodup_append]
    refine ⟨hok.distinct, List.nodup_singleton _, ?_⟩
    rintro a ha b hb rfl
    rw [List.mem_singleton.mp hb] at ha
    exact hkey ha
  · intro rec hrec
    rw [List.map_append]
    rcases List.mem_append.mp hrec with hrec | hrec
    · exact List.mem_append_left _ (hok.known rec hrec)
    · rw [List.mem_singleton.mp hrec]
      exact List.mem_append_right _ (List.mem_singleton.mpr rfl)
  · intro p hp
    show ∃ row, (collapse (s.files.records ++ _)).lookup p.id = some row ∧ _
    rw [hrows, List.lookup_append]
    rcases List.mem_append.mp hp with hp | hp
    · obtain ⟨row, hrow, hsame⟩ := hok.kept p hp
      unfold getStagedActionById at hrow
      rw [hrow]
      exact ⟨row, rfl, hsame⟩
    · rw [List.mem_singleton.mp hp]
      have hnone : (collapse s.files.records).lookup id = none := by
        cases hl : (collapse s.files.records).lookup id with
        | none => rfl
        | some row =>
            refine absurd ?_ hkey
            rw [← hok.rows]
            exact List.mem_map.mpr ⟨(id, row), Assoc.mem_of_lookup hl, rfl⟩
      refine ⟨proposedRow input id proposedAt expiresAt, ?_, undecided_proposedRow _ _ _ _⟩
      show ((collapse s.files.records).lookup id).or _ = _
      rw [hnone, Option.none_or]
      exact List.lookup_cons_self

/-- **Decisions on proposals that were staged.** -/
theorem LogOk.decisions (hok : LogOk s) (d : DecisionInput) {ids : List String}
    (hids : ∀ id ∈ ids, id ∈ s.staged.map StagedActionRow.id) :
    LogOk { s with files := { s.files with records := s.files.records ++ ids.map d.record } } := by
  constructor
  · show Assoc.keys (collapse (s.files.records ++ _)) = _
    rw [keys_decisions, hok.rows]
  · exact hok.distinct
  · intro rec hrec
    rcases List.mem_append.mp hrec with hrec | hrec
    · exact hok.known rec hrec
    · obtain ⟨id, hid, rfl⟩ := List.mem_map.mp hrec
      exact hids id hid
  · intro p hp
    obtain ⟨row, hrow, hsame⟩ := hok.kept p hp
    have hmap := (lookup_decisions d ids s.files.records p.id).1
    rw [hrow, Option.map_some, hsame] at hmap
    obtain ⟨row', hrow', hsame'⟩ := Option.map_eq_some_iff.mp hmap
    exact ⟨row', hrow', hsame'⟩

/-! ## Calls -/

/-- A call on the log.  A sweep comes with the instant, as a number and as the log writes it. -/
inductive Call where
  | stage (host : Host) (input : StageActionInput)
  | stageChecked (host : Host) (input : StageActionInput)
  | decide (id : String) (d : DecisionInput)
  | sweep (now : Int) (stamp : String)

/-- The row of the proposal a staging appended. -/
def lastRow (records : List RawRecord) : List StagedActionRow :=
  match records.getLast? with
  | none => []
  | some rec => [rec.seed (rec.actionType.getD "")]

section Run

variable (dateParse : String → Option Int)

/-- One call.  A call that fails changes nothing. -/
def Log.step (s : Log) : Call → Log
  | .stage host input =>
      match stageAction host s.files.records input with
      | .error _ => s
      | .ok (_, records) =>
          ⟨{ s.files with records := records }, s.staged ++ lastRow records⟩
  | .stageChecked host input =>
      match stageActionWithConflictCheck host s.files input with
      | .error _ => s
      | .ok (_, files) => ⟨files, s.staged ++ lastRow files.records⟩
  | .decide id d =>
      match decideAction s.files.records id d with
      | .error _ => s
      | .ok (_, records) => { s with files := { s.files with records := records } }
  | .sweep now stamp =>
      { s with files := { s.files with
          records := s.files.records ++ sweepRecords dateParse s.files.records now stamp } }

/-- The log after a sequence of calls, from an absent file. -/
def Log.run (calls : List Call) : Log :=
  calls.foldl (Log.step dateParse) ⟨⟨[], none⟩, []⟩

end Run

/-! ## What each call does -/

theorem bind_ok {α β : Type} (a : α) (f : α → Except String β) :
    (Except.ok a >>= f) = f a := rfl

variable {records' records : List RawRecord} {input : StageActionInput}

theorem appendProposalRecord_ok {host : Host} {ttlDays : Rat} {staged : StagedProposal}
    (h : appendProposalRecord host input records ttlDays = .ok (staged, records')) :
    staged.id = nextStagedId records ∧ ∃ proposedAt expiresAt,
      records' = records ++ [proposalRecord input staged.id proposedAt expiresAt] := by
  unfold appendProposalRecord at h
  dsimp only at h
  split at h
  · cases h
  · rename_i expiresAt _
    obtain ⟨rfl, rfl⟩ := Prod.mk.inj (Except.ok.inj h)
    exact ⟨rfl, _, expiresAt, rfl⟩

theorem stageAction_ok {host : Host} {staged : StagedProposal}
    (h : stageAction host records input = .ok (staged, records')) :
    staged.id = nextStagedId records ∧ ∃ proposedAt expiresAt,
      records' = records ++ [proposalRecord input staged.id proposedAt expiresAt] := by
  unfold stageAction at h
  cases hv : validateStageInput input with
  | error e =>
      rw [hv] at h
      cases h
  | ok ttlDays =>
      rw [hv] at h
      exact appendProposalRecord_ok h

theorem stageChecked_ok {host : Host} {files files' : Files} {out : StageOutcome}
    (h : stageActionWithConflictCheck host files input = .ok (out, files')) :
    out.id = nextStagedId files.records ∧
      out.conflictsWith = (contendersOf files.records input).map StagedActionRow.id ∧
      ∃ proposedAt expiresAt,
        files'.records = files.records ++ [proposalRecord input out.id proposedAt expiresAt] := by
  unfold stageActionWithConflictCheck at h
  cases hv : validateStageInput input with
  | error e =>
      rw [hv] at h
      cases h
  | ok ttlDays =>
      cases ha : appendProposalRecord host input files.records ttlDays with
      | error e =>
          rw [hv, bind_ok, ha] at h
          cases h
      | ok res =>
          obtain ⟨hid, hrecords⟩ := appendProposalRecord_ok ha
          rw [hv, bind_ok, ha, bind_ok] at h
          dsimp only at h
          split at h
          · rename_i hnone
            obtain ⟨rfl, rfl⟩ := Prod.mk.inj (Except.ok.inj h)
            exact ⟨hid, by rw [hnone]; rfl, hrecords⟩
          · split at h
            · obtain ⟨rfl, rfl⟩ := Prod.mk.inj (Except.ok.inj h)
              exact ⟨hid, rfl, hrecords⟩
            · obtain ⟨rfl, rfl⟩ := Prod.mk.inj (Except.ok.inj h)
              exact ⟨hid, rfl, hrecords⟩

theorem decideAction_ok {id : String} {d : DecisionInput} {row : StagedActionRow}
    (h : decideAction records id d = .ok (row, records')) :
    ∃ existing, getStagedActionById records id = some existing ∧
      row = existing.decide (d.record id) ∧ records' = records ++ [d.record id] := by
  unfold decideAction at h
  cases hrow : getStagedActionById records id with
  | none =>
      rw [hrow] at h
      cases h
  | some existing =>
      rw [hrow] at h
      obtain ⟨rfl, rfl⟩ := Prod.mk.inj (Except.ok.inj h)
      exact ⟨existing, rfl, mirror_eq_decide _ _, rfl⟩

theorem lastRow_snoc (records : List RawRecord) (input : StageActionInput)
    (id proposedAt expiresAt : String) :
    lastRow (records ++ [proposalRecord input id proposedAt expiresAt]) =
      [proposedRow input id proposedAt expiresAt] := by
  unfold lastRow
  rw [List.getLast?_concat]
  rfl

def expiredIds (dateParse : String → Option Int) (records : List RawRecord) (now : Int) :
    List String :=
  (staleRows dateParse records now).map StagedActionRow.id

theorem sweepRecords_eq (dateParse : String → Option Int) (records : List RawRecord)
    (now : Int) (stamp : String) :
    sweepRecords dateParse records now stamp = (expiredIds dateParse records now).map
      ({ status := .expired, ratifiedAt := stamp, ratifiedBy := sweepPrincipal }
        : DecisionInput).record := by
  unfold sweepRecords expiredIds
  rw [List.map_map]
  rfl

theorem LogOk.staged_of_row (hok : LogOk s) {id : String} {row : StagedActionRow}
    (h : getStagedActionById s.files.records id = some row) :
    id ∈ s.staged.map StagedActionRow.id := by
  rw [← hok.rows]
  exact List.mem_map.mpr ⟨(id, row), Assoc.mem_of_lookup h, rfl⟩

theorem LogOk.staged_of_stale (hok : LogOk s) {dateParse : String → Option Int} {now : Int}
    {id : String} (h : id ∈ expiredIds dateParse s.files.records now) :
    id ∈ s.staged.map StagedActionRow.id := by
  obtain ⟨row, hrow, rfl⟩ := List.mem_map.mp h
  have hpending := statusOf_stale hrow
  obtain ⟨row', hrow', _⟩ := Option.map_eq_some_iff.mp hpending
  exact hok.staged_of_row hrow'

/-- **One call keeps the invariant.** -/
theorem LogOk.step {s : Log} (hok : LogOk s) (dateParse : String → Option Int) (call : Call) :
    LogOk (s.step dateParse call) := by
  cases call with
  | stage host input =>
      unfold Log.step
      dsimp only
      split
      · exact hok
      · rename_i staged records h
        obtain ⟨hid, proposedAt, expiresAt, rfl⟩ := stageAction_ok h
        rw [lastRow_snoc, hid]
        exact hok.stage input proposedAt expiresAt _
  | stageChecked host input =>
      unfold Log.step
      dsimp only
      split
      · exact hok
      · rename_i out files h
        obtain ⟨hid, _, proposedAt, expiresAt, hrecords⟩ := stageChecked_ok h
        obtain ⟨records, tensions⟩ := files
        obtain rfl : records = _ := hrecords
        rw [lastRow_snoc, hid]
        exact hok.stage input proposedAt expiresAt tensions
  | decide id d =>
      unfold Log.step
      dsimp only
      split
      · exact hok
      · rename_i row records h
        obtain ⟨existing, hrow, _, rfl⟩ := decideAction_ok h
        have hid : ∀ id' ∈ [id], id' ∈ s.staged.map StagedActionRow.id := by
          intro id' hid'
          rw [List.mem_singleton.mp hid']
          exact hok.staged_of_row hrow
        exact hok.decisions d hid
  | sweep now stamp =>
      unfold Log.step
      dsimp only
      rw [sweepRecords_eq]
      exact hok.decisions _ fun id hid => hok.staged_of_stale hid

/-- The competing proposals: those staged before for the same trimmed target
    that are still pending. -/
theorem LogOk.mem_contenders (hok : LogOk s) (input : StageActionInput) (id : String) :
    id ∈ (contendersOf s.files.records input).map StagedActionRow.id ↔
      ∃ p ∈ s.staged, p.id = id ∧ p.targetPath = trimText input.targetPath ∧
        statusOf s.files.records id = some .pending := by
  have hrowsOk := rowsOk_collapse s.files.records
  constructor
  · intro hmem
    obtain ⟨row, hrow, rfl⟩ := List.mem_map.mp hmem
    obtain ⟨hrow, hp⟩ := List.mem_filter.mp hrow
    obtain ⟨⟨k, row⟩, hentry, rfl⟩ := List.mem_map.mp hrow
    obtain ⟨hpending, htarget⟩ := of_decide_eq_true hp
    obtain rfl := hrowsOk.filed k row hentry
    have hlookup : getStagedActionById s.files.records row.id = some row :=
      Assoc.lookup_of_mem hrowsOk.nodup hentry
    obtain ⟨p, hp, hid⟩ := List.mem_map.mp (hok.staged_of_row hlookup)
    obtain ⟨row', hrow', hsame⟩ := hok.kept p hp
    rw [hid, hlookup] at hrow'
    obtain rfl := Option.some.inj hrow'
    refine ⟨p, hp, hid, ?_, ?_⟩
    · rw [← hsame]
      exact htarget
    · rw [statusOf, hlookup, Option.map_some, hpending]
  · rintro ⟨p, hp, rfl, htarget, hpending⟩
    obtain ⟨row, hrow, hsame⟩ := hok.kept p hp
    rw [statusOf, hrow, Option.map_some] at hpending
    have hentry := Assoc.mem_of_lookup hrow
    have hid : row.id = p.id := by rw [← hsame]; rfl
    refine List.mem_map.mpr ⟨row, List.mem_filter.mpr ⟨?_, ?_⟩, hid⟩
    · exact List.mem_map.mpr ⟨(p.id, row), hentry, rfl⟩
    · refine decide_eq_true ⟨Option.some.inj hpending, ?_⟩
      rw [← htarget, ← hsame]
      rfl

/-! ## Every sequence of calls -/

/-- What the log says of the proposals staged so far, and what the next call finds and does. -/
structure Faithful (dateParse : String → Option Int) (s : Log) : Prop where
  /-- no two proposals share an id -/
  distinct : (s.staged.map StagedActionRow.id).Nodup
  /-- the collapse has exactly one row per staged proposal -/
  rows : Assoc.keys (collapse s.files.records) = s.staged.map StagedActionRow.id
  /-- a row is its proposal, but for what was decided on it -/
  kept : ∀ p ∈ s.staged, ∃ row, getStagedActionById s.files.records p.id = some row ∧
    row.undecided = p
  /-- a new proposal gets an id that no record ever had -/
  fresh : ∀ host input staged records,
    stageAction host s.files.records input = .ok (staged, records) →
    staged.id ∉ s.files.records.map RawRecord.id
  /-- with the conflict check as well, and the check names exactly the earlier
      proposals that are pending on the same trimmed target -/
  checked : ∀ host input out files,
    stageActionWithConflictCheck host s.files input = .ok (out, files) →
    out.id ∉ s.files.records.map RawRecord.id ∧
      ∀ id, id ∈ out.conflictsWith ↔ ∃ p ∈ s.staged, p.id = id ∧
        p.targetPath = trimText input.targetPath ∧
        statusOf s.files.records id = some .pending
  /-- the row a decision returns is the one a reader of the new log finds; no
      other row changes, and of its own row the decision only -/
  decided : ∀ id d row records, decideAction s.files.records id d = .ok (row, records) →
    getStagedActionById records id = some row ∧
      (getStagedActionById s.files.records id).map StagedActionRow.undecided =
        some row.undecided ∧
      ∀ other, other ≠ id →
        getStagedActionById records other = getStagedActionById s.files.records other
  /-- a sweep changes no row but those it expires, and of these the decision -/
  swept : ∀ now stamp id,
    (getStagedActionById (s.files.records ++
        sweepRecords dateParse s.files.records now stamp) id).map StagedActionRow.undecided =
      (getStagedActionById s.files.records id).map StagedActionRow.undecided ∧
      (id ∉ expiredIds dateParse s.files.records now → getStagedActionById (s.files.records ++
          sweepRecords dateParse s.files.records now stamp) id =
          getStagedActionById s.files.records id)

theorem LogOk.faithful (hok : LogOk s) (dateParse : String → Option Int) :
    Faithful dateParse s where
  distinct := hok.distinct
  rows := hok.rows
  kept := hok.kept
  fresh := by
    intro host input staged records h
    rw [(stageAction_ok h).1]
    exact nextStagedId_fresh _
  checked := by
    intro host input out files h
    obtain ⟨hid, hconflicts, _⟩ := stageChecked_ok h
    constructor
    · rw [hid]
      exact nextStagedId_fresh _
    · intro id
      rw [hconflicts]
      exact hok.mem_contenders input id
  decided := by
    intro id d row records h
    obtain ⟨existing, hrow, rfl, rfl⟩ := decideAction_ok h
    refine ⟨?_, ?_, ?_⟩
    · rw [lookup_decision, if_pos rfl, hrow]
      rfl
    · rw [hrow, undecided_decide]
      rfl
    · intro other hother
      rw [lookup_decision, if_neg hother]
  swept := by
    intro now stamp id
    rw [sweepRecords_eq]
    exact lookup_decisions _ _ _ id

end Staged
