import Daftari.Curation.ProvenanceProofs

/-! # Edge staleness — what a log says of an artifact's upstream

    `curation/edge-staleness.ts` and `curation/tier2.ts`: a row for every compiled,
    declared and earned upstream unit of an artifact, classified by the unit's
    writes since a baseline.  Four readers go over the provenance log and each
    skips the writes that did not land, by the action `rejected_stale`.

    * the four readers and `upstreamStaleness`;
    * `refused_writes_invisible`: **this holds of exactly the logs whose refusals
      are all stale writes**; a write refused by the leak gate counts as landed. -/

namespace Staleness

open Frontmatter (Value)

/-! ## Reading the log -/

/-- What the readers pass over. -/
def ProvenanceEntry.rejectedStale (e : ProvenanceEntry) : Bool := e.action = "rejected_stale"

/-- One step of `changedFieldsSince`. -/
def sinceStep (unit baseline : String) (acc : List String × Nat) (e : ProvenanceEntry) :
    List String × Nat :=
  if e.file ≠ unit ∨ e.rejectedStale ∨ ¬ Text.lt baseline e.timestamp then acc
  else (acc.1 ++ changedFieldsFromProvenance e, acc.2 + 1)

/-- `changedFieldsSince`: the fields that a unit's writes touched since a baseline,
    and how many writes there were. -/
def changedFieldsSince (log : List ProvenanceEntry) (unit baseline : String) : List String × Nat :=
  let read := log.foldl (sinceStep unit baseline) ([], 0)
  (contentChangedFields read.1, read.2)

/-- One step of `latestUnitChangeTs`. -/
def latestStep (unit : String) (latest : Option String) (e : ProvenanceEntry) : Option String :=
  if e.file ≠ unit ∨ e.rejectedStale then latest
  else
    match latest with
    | none => some e.timestamp
    | some ts => if Text.lt ts e.timestamp then some e.timestamp else some ts

def latestUnitChangeTs (log : List ProvenanceEntry) (unit : String) : Option String :=
  log.foldl (latestStep unit) none

structure FieldChange where
  before : Option Value
  after : Option Value
deriving DecidableEq

/-- One field of an entry joined to the net change: the first before, the last after. -/
def accumulateField (changes : List (String × FieldChange)) (d : String × FieldDiff) :
    List (String × FieldChange) :=
  match changes.lookup d.1 with
  | some existing => Assoc.set changes d.1 { existing with after := d.2.after }
  | none => Assoc.set changes d.1 ⟨d.2.before, d.2.after⟩

/-- One step of `accumulateFieldChanges`. -/
def accumulateStep (unit baseline : String) (acc : List (String × FieldChange) × Bool)
    (e : ProvenanceEntry) : List (String × FieldChange) × Bool :=
  if e.file ≠ unit ∨ e.rejectedStale ∨ ¬ Text.lt baseline e.timestamp then acc
  else ((e.frontmatterDiff.getD []).foldl accumulateField acc.1, acc.2 || bodyTouched e)

def accumulateFieldChanges (log : List ProvenanceEntry) (unit baseline : String) :
    List (String × FieldChange) :=
  let read := log.foldl (accumulateStep unit baseline) ([], false)
  if read.2 then Assoc.set read.1 "body" ⟨some .null, some .null⟩ else read.1

/-! ## Tier-2 verdicts -/

def noChangeTs : String := "1970-01-01T00:00:00.000Z"

/-- `Tier2Verdict`, as far as a reader looks at it. -/
structure Tier2Verdict where
  timestamp : String
  artifact : String
  unit : String
  edgeClass : Tier1EdgeClass
  judgedChangeTs : String
  stillValid : Bool
  tensionId : Option String := none
deriving DecidableEq

/-- `coveringVerdict`: the newest verdict on the pair that judged its current change. -/
def coveringVerdict (verdicts : List Tier2Verdict) (artifact unit : String)
    (edgeClass : Tier1EdgeClass) (latestChangeTs : String) : Option Tier2Verdict :=
  verdicts.foldl (fun found v =>
    if v.artifact ≠ artifact ∨ v.unit ≠ unit ∨ v.edgeClass ≠ edgeClass
        ∨ Text.lt v.judgedChangeTs latestChangeTs then found
    else
      match found with
      | none => some v
      | some best => if Text.lt best.timestamp v.timestamp then some v else some best) none

/-! ## Classification -/

inductive EdgeStalenessClass where
  | current
  | pendingUnchecked
  | pendingCompatible
  | pendingBroken
  | unverifiable
deriving DecidableEq

structure UpstreamStaleness where
  unit : String
  edgeClass : Tier1EdgeClass
  staleness : EdgeStalenessClass
  baseline : Option String
  changedFields : List String
  reason : String
deriving DecidableEq

/-- The input of `classifyEdge`.  The verdicts are none for a compiled edge. -/
structure EdgeInput where
  artifact : String
  unit : String
  edgeClass : Tier1EdgeClass
  baseline : Option String
  compiledEdge : Option ConsumesEdge := none
  verdicts : List Tier2Verdict := []
  isVerifiable : Option (String → Bool) := none

/-- `tier2Resolved`: the row that a covering verdict decides. -/
def tier2Resolved (log : List ProvenanceEntry) (input : EdgeInput)
    (changedFields : List String) : Option UpstreamStaleness :=
  (coveringVerdict input.verdicts input.artifact input.unit input.edgeClass
      ((latestUnitChangeTs log input.unit).getD noChangeTs)).map fun covering =>
    if covering.stillValid then
      ⟨input.unit, input.edgeClass, .pendingCompatible, input.baseline, changedFields,
        "tier-2 semantic verdict: still valid as of " ++ covering.judgedChangeTs⟩
    else
      ⟨input.unit, input.edgeClass, .pendingBroken, input.baseline, changedFields,
        "tier-2 semantic verdict: broken" ++ match covering.tensionId with
          | none => ""
          | some id => " — tension " ++ id⟩

def Tier1VerdictKind.staleness : Tier1VerdictKind → EdgeStalenessClass
  | .unaffected => .pendingCompatible
  | .affected => .pendingBroken
  | .possiblyAffected | .semanticReview => .pendingUnchecked

def EdgeInput.dispatch (input : EdgeInput) (changed : List String) : Option Tier1Verdict :=
  (tier1Dispatch
    { changedFields := changed
      compiled := input.compiledEdge.toList
      declaredDependents := if input.edgeClass = .declared then [input.artifact] else []
      earnedDependents := if input.edgeClass = .earned then [input.artifact] else [] }).head?

def classifyEdge (log : List ProvenanceEntry) (input : EdgeInput) : UpstreamStaleness :=
  if input.isVerifiable.any fun ok => !ok input.unit then
    ⟨input.unit, input.edgeClass, .unverifiable, input.baseline, [],
      "source not in your readable vault"⟩
  else
    match input.baseline with
    | none =>
        (tier2Resolved log input []).getD
          ⟨input.unit, input.edgeClass, .pendingUnchecked, none, [],
            "no baseline — the dependency predates provenance instrumentation, never checked"⟩
    | some baseline =>
        let (changed, writes) := changedFieldsSince log input.unit baseline
        if writes = 0 then
          ⟨input.unit, input.edgeClass, .current, some baseline, [],
            "unchanged since baseline"⟩
        else
          match input.dispatch changed with
          | none =>
              ⟨input.unit, input.edgeClass, .pendingUnchecked, some baseline, changed, ""⟩
          | some verdict =>
              let row : UpstreamStaleness :=
                ⟨input.unit, input.edgeClass, verdict.verdict.staleness, some baseline, changed,
                  verdict.reason⟩
              if row.staleness = .pendingUnchecked then
                (tier2Resolved log input changed).getD row
              else row

def compiledUpstreamStaleness (artifact : String) (consumes : List ConsumesEdge)
    (log : List ProvenanceEntry) (isVerifiable : Option (String → Bool)) : List UpstreamStaleness :=
  ((forwardConsumes consumes artifact).filter fun e => e.unit ≠ artifact).map fun e =>
    classifyEdge log
      { artifact := artifact
        unit := e.unit
        edgeClass := .compiled
        baseline := some e.compileTs
        compiledEdge := some e
        isVerifiable := isVerifiable }

/-- The declared baseline: the artifact's own latest landed write. -/
def declaredBaseline (log : List ProvenanceEntry) (artifact : String) : Option String :=
  ((log.filter fun e => e.file = artifact && !e.rejectedStale).getLast?).map
    ProvenanceEntry.timestamp

/-- The input of `upstreamStaleness`, but for the provenance log. -/
structure UpstreamInput where
  artifact : String
  consumes : List ConsumesEdge
  declaredUnits : List String
  earned : List (String × String)
  verdicts : List Tier2Verdict := []
  isVerifiable : Option (String → Bool) := none

def declaredRows (log : List ProvenanceEntry) (input : UpstreamInput) : List UpstreamStaleness :=
  (input.declaredUnits.filter fun unit => unit ≠ input.artifact).map fun unit =>
    classifyEdge log
      { artifact := input.artifact
        unit := unit
        edgeClass := .declared
        baseline := declaredBaseline log input.artifact
        verdicts := input.verdicts
        isVerifiable := input.isVerifiable }

/-- The earned rows, each from a unit and the time it was last re-derived. -/
def earnedRows (log : List ProvenanceEntry) (input : UpstreamInput) : List UpstreamStaleness :=
  (input.earned.filter fun e => e.1 ≠ input.artifact).map fun e =>
    classifyEdge log
      { artifact := input.artifact
        unit := e.1
        edgeClass := .earned
        baseline := some e.2
        verdicts := input.verdicts
        isVerifiable := input.isVerifiable }

def upstreamStaleness (localeCompare : String → String → Ordering)
    (log : List ProvenanceEntry) (input : UpstreamInput) : List UpstreamStaleness :=
  Stable.sort
    (compareLex (fun a b => localeCompare a.unit b.unit)
      (fun a b => localeCompare a.edgeClass.text b.edgeClass.text))
    (compiledUpstreamStaleness input.artifact input.consumes log input.isVerifiable ++
      declaredRows log input ++ earnedRows log input)

/-! ## Refused writes -/

/-- The log without the writes that were refused. -/
def landed (log : List ProvenanceEntry) : List ProvenanceEntry := log.filter fun e => !e.refused

/-- **Refused writes are invisible** in a log: no reader of changes can tell whether
    they are in it. -/
structure Invisible (localeCompare : String → String → Ordering) (log : List ProvenanceEntry) :
    Prop where
  since : ∀ unit baseline,
    changedFieldsSince log unit baseline = changedFieldsSince (landed log) unit baseline
  latest : ∀ unit, latestUnitChangeTs log unit = latestUnitChangeTs (landed log) unit
  accumulated : ∀ unit baseline,
    accumulateFieldChanges log unit baseline = accumulateFieldChanges (landed log) unit baseline
  covering : ∀ verdicts artifact unit edgeClass,
    coveringVerdict verdicts artifact unit edgeClass
        ((latestUnitChangeTs log unit).getD noChangeTs) =
      coveringVerdict verdicts artifact unit edgeClass
        ((latestUnitChangeTs (landed log) unit).getD noChangeTs)
  upstream : ∀ input, upstreamStaleness localeCompare log input =
    upstreamStaleness localeCompare (landed log) input

theorem foldl_filter_of_skip {α β : Type*} (step : β → α → β) (keep : α → Bool) {l : List α}
    (hskip : ∀ a ∈ l, keep a = false → ∀ acc, step acc a = acc) (init : β) :
    (l.filter keep).foldl step init = l.foldl step init := by
  induction l generalizing init with
  | nil => rfl
  | cons a l ih =>
      have hrest := fun b hb => hskip b (List.mem_cons_of_mem a hb)
      cases ha : keep a with
      | true =>
          rw [List.filter_cons_of_pos ha]
          exact ih hrest (step init a)
      | false =>
          rw [List.filter_cons_of_neg (by rw [ha]; exact Bool.false_ne_true), ih hrest,
            List.foldl_cons, hskip a List.mem_cons_self ha]

section Stale

variable {log : List ProvenanceEntry}

def OnlyStale (log : List ProvenanceEntry) : Prop :=
  ∀ e ∈ log, e.refused = true → e.rejectedStale = true

theorem changedFieldsSince_landed (h : OnlyStale log) (unit baseline : String) :
    changedFieldsSince (landed log) unit baseline = changedFieldsSince log unit baseline := by
  unfold changedFieldsSince landed
  rw [foldl_filter_of_skip (sinceStep unit baseline)]
  intro e he hrefused acc
  exact if_pos (Or.inr (Or.inl (h e he (by simpa using hrefused))))

theorem latestUnitChangeTs_landed (h : OnlyStale log) (unit : String) :
    latestUnitChangeTs (landed log) unit = latestUnitChangeTs log unit := by
  refine foldl_filter_of_skip (latestStep unit) _ (fun e he hrefused latest => ?_) none
  exact if_pos (Or.inr (h e he (by simpa using hrefused)))

theorem accumulateFieldChanges_landed (h : OnlyStale log) (unit baseline : String) :
    accumulateFieldChanges (landed log) unit baseline =
      accumulateFieldChanges log unit baseline := by
  unfold accumulateFieldChanges landed
  rw [foldl_filter_of_skip (accumulateStep unit baseline)]
  intro e he hrefused acc
  exact if_pos (Or.inr (Or.inl (h e he (by simpa using hrefused))))

theorem declaredBaseline_landed (h : OnlyStale log) (artifact : String) :
    declaredBaseline (landed log) artifact = declaredBaseline log artifact := by
  unfold declaredBaseline landed
  rw [List.filter_filter]
  refine congrArg (fun l => Option.map _ (List.getLast? l)) (List.filter_congr fun e he => ?_)
  cases hrefused : e.refused with
  | false => simp
  | true => simp [h e he hrefused]

theorem classifyEdge_landed (h : OnlyStale log) (input : EdgeInput) :
    classifyEdge (landed log) input = classifyEdge log input := by
  unfold classifyEdge tier2Resolved
  rw [latestUnitChangeTs_landed h]
  simp only [changedFieldsSince_landed h]

/-- **The rows of an artifact** do not see the stale writes. -/
theorem upstreamStaleness_landed (h : OnlyStale log)
    (localeCompare : String → String → Ordering) (input : UpstreamInput) :
    upstreamStaleness localeCompare (landed log) input =
      upstreamStaleness localeCompare log input := by
  unfold upstreamStaleness compiledUpstreamStaleness declaredRows earnedRows
  simp only [classifyEdge_landed h, declaredBaseline_landed h]

/-- Does the entry count as a write of the unit since the baseline? -/
def counts (unit baseline : String) (e : ProvenanceEntry) : Bool :=
  decide (e.file = unit) && !e.rejectedStale && Text.lt baseline e.timestamp

theorem writes_eq (log : List ProvenanceEntry) (unit baseline : String) :
    (changedFieldsSince log unit baseline).2 = log.countP (counts unit baseline) := by
  have hgen : ∀ (l : List ProvenanceEntry) (acc : List String × Nat),
      (l.foldl (sinceStep unit baseline) acc).2 = acc.2 + l.countP (counts unit baseline) := by
    intro l
    induction l with
    | nil => intro acc; rfl
    | cons e l ih =>
        intro acc
        rw [List.foldl_cons, ih, List.countP_cons]
        unfold sinceStep
        by_cases hskip : e.file ≠ unit ∨ e.rejectedStale ∨ ¬ Text.lt baseline e.timestamp
        · have hcounts : counts unit baseline e = false := by
            unfold counts
            rcases hskip with hfile | hstale | hts
            · simp [hfile]
            · simp [hstale]
            · simp [hts]
          rw [if_pos hskip, hcounts]
          rfl
        · have hcounts : counts unit baseline e = true := by
            simp only [not_or, not_not, Bool.not_eq_true] at hskip
            obtain ⟨hfile, hstale, hts⟩ := hskip
            simp [counts, hfile, hstale, hts]
          rw [if_neg hskip, hcounts, if_pos rfl]
          omega
  exact (hgen log ([], 0)).trans (Nat.zero_add _)

theorem lt_of_ne_empty {s : String} (h : s ≠ "") : Text.lt "" s = true := by
  unfold Text.lt
  rw [decide_eq_true_iff]
  cases hs : s.toList with
  | nil => exact absurd (String.toList_eq_nil_iff.mp hs) h
  | cons c rest =>
      have hne : Text.units (c :: rest) ≠ [] := by
        intro hnil
        exact Text.unitsOf_ne_nil c (List.append_eq_nil_iff.mp hnil).1
      cases hu : Text.units (c :: rest) with
      | nil => exact absurd hu hne
      | cons u us => exact List.nil_lt_cons u us

end Stale

/-- **Refused writes are invisible to staleness in exactly the logs whose refusals
    are all of stale writes.** -/
theorem refused_writes_invisible (localeCompare : String → String → Ordering)
    (log : List ProvenanceEntry) : Invisible localeCompare log ↔ OnlyStale log := by
  constructor
  · intro h e he hrefused
    by_contra hstale
    -- the entry is a write of its file, but in the log without it
    have hsince := congrArg Prod.snd (h.since e.file "")
    rw [writes_eq, writes_eq] at hsince
    obtain ⟨before, after, rfl⟩ := List.append_of_mem he
    have hcounts : counts e.file "" e = true := by
      unfold counts
      rw [decide_eq_true rfl, Bool.not_eq_true _ |>.mp hstale, lt_of_ne_empty e.stamped]
      rfl
    have hbefore := (List.filter_sublist (p := fun e => !e.refused) (l := before)).countP_le
      (p := counts e.file "")
    have hafter := (List.filter_sublist (p := fun e => !e.refused) (l := after)).countP_le
      (p := counts e.file "")
    unfold landed at hsince
    rw [List.filter_append, List.filter_cons_of_neg (by simp [hrefused]), List.countP_append,
      List.countP_append, List.countP_cons_of_pos hcounts] at hsince
    omega
  · intro h
    refine ⟨fun unit baseline => (changedFieldsSince_landed h unit baseline).symm,
      fun unit => (latestUnitChangeTs_landed h unit).symm,
      fun unit baseline => (accumulateFieldChanges_landed h unit baseline).symm, ?_,
      fun input => (upstreamStaleness_landed h localeCompare input).symm⟩
    intro verdicts artifact unit edgeClass
    rw [latestUnitChangeTs_landed h]

/-- An artifact is written, the unit it cites is changed, and a write of the
    artifact is refused by the leak gate. -/
def leakLog : List ProvenanceEntry :=
  [{ timestamp := "2026-07-01T00:00:00.000Z", file := "pricing/plan.md", action := "create"
     bodyChanged := some true },
    { timestamp := "2026-07-02T00:00:00.000Z", file := "pricing/costs.md", action := "update"
      bodyChanged := some true },
    { timestamp := "2026-07-03T00:00:00.000Z", file := "pricing/plan.md"
      action := "rejected_leak" }]

/-- **A refused write hides an upstream change**: it moves the declared baseline past
    the change, and the row reads current. -/
theorem refused_write_hides_change :
    ¬ ∀ log, Invisible compare log := by
  intro h
  have hrows := (h leakLog).upstream
    { artifact := "pricing/plan.md", consumes := [], declaredUnits := ["pricing/costs.md"]
      earned := [] }
  have hclasses := congrArg (List.map UpstreamStaleness.staleness) hrows
  revert hclasses
  decide +kernel

end Staleness
