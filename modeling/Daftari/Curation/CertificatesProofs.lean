import Daftari.Curation.EdgeStalenessProofs

/-! # Tier-1 certificates — when a change of a unit reaches its dependents

    Tier 1 says of a dependent that a change does not concern it when the change, as it is read off
    the log, touched nothing but the bookkeeping.  An entry without a trace of what it changed is
    such a change.

    * `certified_iff`: **tier 1 is right about an entry exactly when the entry names a changed
      field**. -/

namespace Staleness

/-! ## What a reader finds -/

section Since

variable {log : List ProvenanceEntry} {unit baseline : String}

variable {e : ProvenanceEntry}

theorem mem_sinceStep {acc : List String × Nat} {f : String} :
    f ∈ (sinceStep unit baseline acc e).1 ↔
      f ∈ acc.1 ∨ (counts unit baseline e = true ∧ f ∈ changedFieldsFromProvenance e) := by
  unfold sinceStep counts
  by_cases hskip : e.file ≠ unit ∨ e.rejectedStale ∨ ¬ Text.lt baseline e.timestamp
  · rw [if_pos hskip]
    constructor
    · exact Or.inl
    · rintro (hacc | ⟨hcounts, -⟩)
      · exact hacc
      · simp only [Bool.and_eq_true, decide_eq_true_eq, Bool.not_eq_true'] at hcounts
        obtain ⟨⟨hfile, hstale⟩, hts⟩ := hcounts
        rcases hskip with hne | hrejected | hearly
        · exact absurd hfile hne
        · exact absurd hrejected (by simp [hstale])
        · exact absurd hts hearly
  · rw [if_neg hskip]
    simp only [not_or, not_not, Bool.not_eq_true] at hskip
    obtain ⟨hfile, hstale, hts⟩ := hskip
    simp [hfile, hstale, hts]

/-- **The fields a reader finds** are those of the entries that count. -/
theorem mem_changedFieldsSince {f : String} : f ∈ (changedFieldsSince log unit baseline).1 ↔
      ∃ e ∈ log, counts unit baseline e = true ∧ f ∈ changedFieldsFromProvenance e := by
  have hgen : ∀ (l : List ProvenanceEntry) (acc : List String × Nat),
      f ∈ (l.foldl (sinceStep unit baseline) acc).1 ↔
        f ∈ acc.1 ∨ ∃ e ∈ l, counts unit baseline e = true
          ∧ f ∈ changedFieldsFromProvenance e := by
    intro l
    induction l with
    | nil =>
        simp
    | cons e l ih =>
        intro acc
        rw [List.foldl_cons, ih, mem_sinceStep, or_assoc]
        simp [or_and_right, exists_or]
  unfold changedFieldsSince
  rw [mem_contentChangedFields, hgen]
  constructor
  · rintro ⟨hnil | hmem, -⟩
    · cases hnil
    · exact hmem
  · rintro ⟨e, he, hcounts, hf⟩
    -- a changed field of an entry is never a bookkeeping field
    have hcontent : f ∉ bookkeepingFields := by
      exact (mem_contentChangedFields.mp hf).2
    exact ⟨Or.inr ⟨e, he, hcounts, hf⟩, hcontent⟩

theorem counts_of_after (hfile : e.file = unit) (hlanded : e.rejectedStale = false)
    (hafter : Text.lt baseline e.timestamp = true) : counts unit baseline e = true := by
  unfold counts
  rw [hlanded, hafter, decide_eq_true hfile]
  rfl

theorem writes_ne_zero (he : e ∈ log) (hcounts : counts unit baseline e = true) :
    (changedFieldsSince log unit baseline).2 ≠ 0 := by
  rw [writes_eq]
  exact (List.countP_pos_iff.mpr ⟨e, he, hcounts⟩).ne'

theorem content_of_counts (he : e ∈ log) (hcounts : counts unit baseline e = true)
    (hchanged : changedFieldsFromProvenance e ≠ []) :
    contentChangedFields (changedFieldsSince log unit baseline).1 ≠ [] := by
  obtain ⟨f, hf⟩ := List.exists_mem_of_ne_nil _ hchanged
  have hcontent : f ∉ bookkeepingFields := by
    exact (mem_contentChangedFields.mp hf).2
  have hfound : f ∈ (changedFieldsSince log unit baseline).1 :=
    mem_changedFieldsSince.mpr ⟨e, he, hcounts, hf⟩
  exact List.ne_nil_of_mem (mem_contentChangedFields.mpr ⟨hfound, hcontent⟩)

end Since

/-! ## Dependents -/

/-- What `compiledUpstreamStaleness` classifies for an edge. -/
def compiledInput (artifact : String) (isVerifiable : Option (String → Bool))
    (edge : ConsumesEdge) : EdgeInput where
  artifact := artifact
  unit := edge.unit
  edgeClass := .compiled
  baseline := some edge.compileTs
  compiledEdge := some edge
  isVerifiable := isVerifiable

theorem compiledVerdict_affected {changed : List String} {edge : ConsumesEdge}
    (hchanged : changed ≠ []) (hall : "*" ∈ edge.fields) :
    (compiledVerdict changed edge).verdict = .affected := by
  unfold compiledVerdict
  simp [hchanged, hall]

theorem dispatch_of_dependent {input : EdgeInput} {changed : List String}
    (hclass : input.edgeClass = .declared ∨ input.edgeClass = .earned)
    (hedge : input.compiledEdge = none) (hchanged : contentChangedFields changed ≠ [])
    {v : Tier1Verdict} (hv : input.dispatch changed = some v) : v.verdict ≠ .unaffected := by
  unfold EdgeInput.dispatch at hv
  rw [hedge] at hv
  rcases hclass with hdeclared | hearned
  · rw [hdeclared] at hv
    have hone : declaredVerdict (contentChangedFields changed) input.artifact = v :=
      Option.some.inj hv
    rw [← hone]
    unfold declaredVerdict
    rw [if_neg hchanged]
    simp
  · rw [hearned] at hv
    have hone : earnedVerdict (contentChangedFields changed) input.artifact = v :=
      Option.some.inj hv
    rw [← hone]
    unfold earnedVerdict
    rw [if_neg hchanged]
    simp

/-- **What tier 1 owes an entry that changed something**: in every log that holds
    it, a current edge on the whole unit compiled before it is broken, and no declared
    or earned dependent from before it is found unaffected. -/
structure Certified (e : ProvenanceEntry) : Prop where
  changed : changedFieldsFromProvenance e ≠ []
  compiled : ∀ log artifact consumes isVerifiable, ∀ edge ∈ forwardConsumes consumes artifact,
    e ∈ log → edge.unit = e.file → edge.unit ≠ artifact → "*" ∈ edge.fields →
    Text.lt edge.compileTs e.timestamp = true →
    isVerifiable.all (fun ok => ok edge.unit) = true →
    classifyEdge log (compiledInput artifact isVerifiable edge)
        ∈ compiledUpstreamStaleness artifact consumes log isVerifiable
      ∧ (classifyEdge log (compiledInput artifact isVerifiable edge)).staleness = .pendingBroken
  dependent : ∀ log (input : EdgeInput) baseline, e ∈ log → input.unit = e.file →
    input.edgeClass = .declared ∨ input.edgeClass = .earned → input.compiledEdge = none →
    input.baseline = some baseline → Text.lt baseline e.timestamp = true →
    ∀ v ∈ input.dispatch (changedFieldsSince log input.unit baseline).1,
      v.verdict ≠ .unaffected

theorem classifyEdge_broken {log : List ProvenanceEntry} {artifact : String}
    {isVerifiable : Option (String → Bool)} {edge : ConsumesEdge}
    (hverifiable : isVerifiable.all (fun ok => ok edge.unit) = true)
    (hall : "*" ∈ edge.fields)
    (hwrites : (changedFieldsSince log edge.unit edge.compileTs).2 ≠ 0)
    (hcontent : contentChangedFields (changedFieldsSince log edge.unit edge.compileTs).1 ≠ []) :
    (classifyEdge log (compiledInput artifact isVerifiable edge)).staleness
      = .pendingBroken := by
  have hreadable : ¬ (isVerifiable.any fun ok => !ok edge.unit) = true := by
    cases isVerifiable with
    | none => simp
    | some ok =>
        have hok : ok edge.unit = true := hverifiable
        simp [hok]
  have haffected := compiledVerdict_affected hcontent hall
  have hdispatch : (compiledInput artifact isVerifiable edge).dispatch
        (changedFieldsSince log edge.unit edge.compileTs).1
      = some (compiledVerdict
          (contentChangedFields (changedFieldsSince log edge.unit edge.compileTs).1) edge) :=
    rfl
  have hbroken : Tier1VerdictKind.affected.staleness = .pendingBroken := rfl
  unfold classifyEdge
  split
  · rename_i hunreadable
    exact absurd hunreadable hreadable
  · dsimp only [compiledInput] at hdispatch ⊢
    rw [if_neg hwrites, hdispatch]
    dsimp only
    rw [haffected, hbroken]
    rfl

/-- **TIER 1 OWES NOTHING LESS AND NOTHING MORE**: an entry of a write that landed is
    certified exactly when it names a changed field. -/
theorem certified_iff {e : ProvenanceEntry} (hlanded : e.rejectedStale = false) :
    Certified e ↔ changedFieldsFromProvenance e ≠ [] := by
  constructor
  · exact Certified.changed
  · intro hchanged
    refine ⟨hchanged, ?_, ?_⟩
    · intro log artifact consumes isVerifiable edge hedge he hunit hother hall hafter hverifiable
      have hcounts := counts_of_after hunit.symm hlanded hafter
      refine ⟨?_, classifyEdge_broken hverifiable hall (writes_ne_zero he hcounts)
        (content_of_counts he hcounts hchanged)⟩
      refine List.mem_map.mpr ⟨edge, List.mem_filter.mpr ⟨hedge, ?_⟩, rfl⟩
      exact decide_eq_true hother
    · intro log input baseline he hunit hclass hedge _ hafter v hv
      have hcounts := counts_of_after hunit.symm hlanded hafter
      exact dispatch_of_dependent hclass hedge (content_of_counts he hcounts hchanged) hv

end Staleness
