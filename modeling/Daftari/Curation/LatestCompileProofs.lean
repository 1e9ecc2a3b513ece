import Daftari.Curation.CompileRunsProofs

/-! # The latest compile — which edges of an append-only log are current

    `curation/consumes.ts`: every write of a run that read something appends a group of edges
    with one stamp, and nothing is ever taken out of the log.  What is current is derived from
    it: of each artifact, the edges that carry its greatest stamp.

    * `lookup_latestStamp`, `mem_current_iff`: what the scan of the log finds;
    * `current_current`, `current_artifact`, `forward_iff_reverse`: **reading it again, of one
      artifact, or from the other end gives the same**;
    * `Compile`, `logOf`: the writes that a log comes from;
    * `latest_compile`: **the current edges of an artifact are those of its latest compile.** -/

namespace Staleness

/-! ## The current edges of a log -/

def reverseConsumes (all : List ConsumesEdge) (unit : String) : List ConsumesEdge :=
  (currentConsumesEdges all).filter fun e => e.unit = unit

def Greatest (all : List ConsumesEdge) (artifact ts : String) : Prop :=
  (∃ e ∈ all, e.artifact = artifact ∧ e.compileTs = ts) ∧
    ∀ e ∈ all, e.artifact = artifact → Text.lt ts e.compileTs = false

section Log

variable {all : List ConsumesEdge} {artifact : String}

theorem exists_greatest (h : ∃ e ∈ all, e.artifact = artifact) :
    ∃ ts, Greatest all artifact ts := by
  induction all with
  | nil =>
      obtain ⟨e, he, -⟩ := h
      cases he
  | cons e all ih =>
      by_cases hrest : ∃ x ∈ all, x.artifact = artifact
      · obtain ⟨ts, ⟨x, hx, hxa, hxts⟩, hmax⟩ := ih hrest
        by_cases hnewer : e.artifact = artifact ∧ Text.lt ts e.compileTs = true
        · -- the edge in front is newer than the rest
          refine ⟨e.compileTs, ⟨e, List.mem_cons_self, hnewer.1, rfl⟩, fun y hy hya => ?_⟩
          rcases List.mem_cons.mp hy with rfl | hy
          · unfold Text.lt
            exact decide_eq_false (List.lt_irrefl _)
          · exact Text.not_lt_trans (Text.not_lt_of_lt hnewer.2) (hmax y hy hya)
        · refine ⟨ts, ⟨x, List.mem_cons_of_mem _ hx, hxa, hxts⟩, fun y hy hya => ?_⟩
          rcases List.mem_cons.mp hy with rfl | hy
          · rw [Bool.eq_false_iff]
            exact fun hlt => hnewer ⟨hya, hlt⟩
          · exact hmax y hy hya
      · obtain ⟨x, hx, hxa⟩ := h
        rcases List.mem_cons.mp hx with rfl | hx
        · refine ⟨x.compileTs, ⟨x, List.mem_cons_self, hxa, rfl⟩, fun y hy hya => ?_⟩
          rcases List.mem_cons.mp hy with rfl | hy
          · unfold Text.lt
            exact decide_eq_false (List.lt_irrefl _)
          · exact absurd ⟨y, hy, hya⟩ hrest
        · exact absurd ⟨x, hx, hxa⟩ hrest

theorem Greatest.unique {ts ts' : String} (h : Greatest all artifact ts)
    (h' : Greatest all artifact ts') : ts = ts' := by
  obtain ⟨⟨e, he, hea, rfl⟩, hmax⟩ := h
  obtain ⟨⟨e', he', hea', rfl⟩, hmax'⟩ := h'
  exact Text.eq_of_not_lt (hmax e' he' hea') (hmax' e he hea)

/-- **What the scan of the log finds** for an artifact that it has: its greatest stamp. -/
theorem lookup_latestStamp (h : ∃ e ∈ all, e.artifact = artifact) {ts : String} :
    (all.foldl latestStamp []).lookup artifact = some ts ↔ Greatest all artifact ts := by
  obtain ⟨top, htop⟩ := exists_greatest h
  rw [latestStamp_eq htop.2 htop.1]
  constructor
  · intro hsame
    rw [← Option.some.inj hsame]
    exact htop
  · exact fun hts => congrArg some (htop.unique hts)

theorem mem_current_iff {e : ConsumesEdge} : e ∈ currentConsumesEdges all ↔
    e ∈ all ∧ ∀ x ∈ all, x.artifact = e.artifact → Text.lt e.compileTs x.compileTs = false := by
  rw [mem_currentConsumesEdges]
  refine and_congr_right fun he => ?_
  rw [lookup_latestStamp ⟨e, he, rfl⟩]
  exact ⟨And.right, fun hmax => ⟨⟨e, he, rfl, rfl⟩, hmax⟩⟩

theorem current_eq_filter (all : List ConsumesEdge) : currentConsumesEdges all
    = all.filter fun e => decide (∀ x ∈ all, x.artifact = e.artifact →
        Text.lt e.compileTs x.compileTs = false) := by
  refine List.filter_congr fun e he => decide_eq_decide.mpr ?_
  exact ⟨fun h => ((lookup_latestStamp ⟨e, he, rfl⟩).mp h).2,
    fun h => (lookup_latestStamp ⟨e, he, rfl⟩).mpr ⟨⟨e, he, rfl, rfl⟩, h⟩⟩

/-- **Taking what is current of it again changes nothing.** -/
theorem current_current (all : List ConsumesEdge) :
    currentConsumesEdges (currentConsumesEdges all) = currentConsumesEdges all := by
  rw [current_eq_filter (currentConsumesEdges all)]
  refine List.filter_eq_self.mpr fun e he => decide_eq_true fun x hx hsame => ?_
  exact (mem_current_iff.mp he).2 x (mem_current_iff.mp hx).1 hsame

/-- **Artifacts do not meddle with each other.** -/
theorem current_artifact (all : List ConsumesEdge) (artifact : String) :
    forwardConsumes all artifact
      = currentConsumesEdges (all.filter fun e => e.artifact = artifact) := by
  unfold forwardConsumes
  rw [current_eq_filter, current_eq_filter, List.filter_filter, List.filter_filter]
  refine List.filter_congr fun e _ => ?_
  by_cases hart : e.artifact = artifact
  · subst hart
    rw [decide_eq_true rfl, Bool.true_and, Bool.and_true]
    refine decide_eq_decide.mpr ?_
    constructor
    · exact fun h x hx hsame => h x (List.mem_filter.mp hx).1 hsame
    · exact fun h x hx hsame => h x (List.mem_filter.mpr ⟨hx, decide_eq_true hsame⟩) hsame
  · rw [decide_eq_false hart, Bool.false_and, Bool.and_false]

/-- **Forward and reverse read one relation.** -/
theorem forward_iff_reverse {unit : String} {e : ConsumesEdge} :
    e ∈ forwardConsumes all artifact ∧ e.unit = unit ↔
      e ∈ reverseConsumes all unit ∧ e.artifact = artifact := by
  unfold forwardConsumes reverseConsumes
  rw [List.mem_filter, List.mem_filter, decide_eq_true_iff, decide_eq_true_iff]
  constructor
  · rintro ⟨⟨hcurrent, hart⟩, hunit⟩
    exact ⟨⟨hcurrent, hunit⟩, hart⟩
  · rintro ⟨⟨hcurrent, hunit⟩, hart⟩
    exact ⟨⟨hcurrent, hart⟩, hunit⟩

end Log

/-! ## The writes of a log -/

structure Compile where
  reads : List ReadLogEntry
  artifact : String
  runId : String
  compileTs : String

def Compile.edges (c : Compile) : List ConsumesEdge :=
  mintConsumesEdges c.reads c.artifact c.runId c.compileTs

def logOf (history : List Compile) : List ConsumesEdge := history.flatMap Compile.edges

/-- The write is the latest of its artifact's that read something: no other carries its stamp or a
    greater one. -/
def Latest (history : List Compile) (c : Compile) : Prop :=
  ∃ before after, history = before ++ c :: after ∧ c.edges ≠ [] ∧
    ∀ x ∈ before ++ after, x.artifact = c.artifact → x.edges ≠ [] →
      Text.lt x.compileTs c.compileTs = true

/-- What the current edges of a log of writes are to be. -/
structure LatestOnly (history : List Compile) : Prop where
  /-- Of an artifact with a latest compile, the edges of that one. -/
  one : ∀ c, Latest history c → forwardConsumes (logOf history) c.artifact = c.edges
  /-- Nothing that is older than another edge of the artifact. -/
  older : ∀ e ∈ currentConsumesEdges (logOf history), ∀ x ∈ logOf history,
    x.artifact = e.artifact → Text.lt e.compileTs x.compileTs = false
  /-- The same when it is done again. -/
  again : currentConsumesEdges (currentConsumesEdges (logOf history))
    = currentConsumesEdges (logOf history)
  /-- Each artifact by its own writes. -/
  apart : ∀ artifact, forwardConsumes (logOf history) artifact
    = currentConsumesEdges (logOf (history.filter fun c => c.artifact = artifact))
  /-- The same relation from both ends. -/
  ends : ∀ artifact unit e, e ∈ forwardConsumes (logOf history) artifact ∧ e.unit = unit ↔
    e ∈ reverseConsumes (logOf history) unit ∧ e.artifact = artifact
  /-- A write of a run that read nothing leaves all that is current as it was. -/
  silent : ∀ c : Compile, c.edges = [] →
    currentConsumesEdges (logOf (history ++ [c])) = currentConsumesEdges (logOf history)

section History

variable {history : List Compile}

theorem Compile.mem_edges {c : Compile} {e : ConsumesEdge} (h : e ∈ c.edges) :
    e.artifact = c.artifact ∧ e.compileTs = c.compileTs := by
  obtain ⟨unit, -, rfl⟩ := List.mem_map.mp h
  exact ⟨rfl, rfl⟩

theorem mem_logOf {e : ConsumesEdge} : e ∈ logOf history ↔ ∃ c ∈ history, e ∈ c.edges :=
  List.mem_flatMap

theorem logOf_artifact (history : List Compile) (artifact : String) :
    (logOf history).filter (fun e => e.artifact = artifact)
      = logOf (history.filter fun c => c.artifact = artifact) := by
  induction history with
  | nil => rfl
  | cons c history ih =>
      have hcons : ∀ l : List Compile, logOf (c :: l) = c.edges ++ logOf l :=
        fun _ => List.flatMap_cons
      rw [hcons, List.filter_append, ih]
      by_cases hart : c.artifact = artifact
      · rw [List.filter_cons_of_pos (by simpa using hart), hcons]
        refine congrArg (· ++ _) (List.filter_eq_self.mpr fun e he => decide_eq_true ?_)
        rw [(Compile.mem_edges he).1, hart]
      · rw [List.filter_cons_of_neg (by simpa using hart)]
        have hnone : c.edges.filter (fun e => e.artifact = artifact) = [] := by
          refine List.filter_eq_nil_iff.mpr fun e he => ?_
          rw [(Compile.mem_edges he).1]
          simpa using hart
        rw [hnone, List.nil_append]

/-- **The current edges of an artifact are those of its latest compile.** -/
theorem current_of_latest {c : Compile} (h : Latest history c) :
    forwardConsumes (logOf history) c.artifact = c.edges := by
  obtain ⟨before, after, rfl, hne, hnewest⟩ := h
  have hlog : logOf (before ++ c :: after) = logOf before ++ (c.edges ++ logOf after) := by
    unfold logOf
    rw [List.flatMap_append, List.flatMap_cons]
  -- an edge of another write of the artifact is older than those of this one
  have holder : ∀ l, l ⊆ before ++ after → ∀ e ∈ logOf l, e.artifact = c.artifact →
      Text.lt e.compileTs c.compileTs = true := by
    intro l hl e he hart
    obtain ⟨x, hx, hex⟩ := mem_logOf.mp he
    obtain ⟨hxa, hxts⟩ := Compile.mem_edges hex
    rw [hxts]
    exact hnewest x (hl hx) (hxa ▸ hart) (List.ne_nil_of_mem hex)
  obtain ⟨top, htop⟩ := List.exists_mem_of_ne_nil _ hne
  obtain ⟨htopa, htopts⟩ := Compile.mem_edges htop
  have hout : ∀ l, l ⊆ before ++ after → (logOf l).filter (fun e =>
      decide (e.artifact = c.artifact) && decide (∀ x ∈ logOf (before ++ c :: after),
        x.artifact = e.artifact → Text.lt e.compileTs x.compileTs = false)) = [] := by
    intro l hl
    refine List.filter_eq_nil_iff.mpr fun e he hboth => ?_
    rw [Bool.and_eq_true, decide_eq_true_iff, decide_eq_true_iff] at hboth
    obtain ⟨hart, hmax⟩ := hboth
    have hnot := hmax top (by rw [hlog]; simp [htop]) (htopa.trans hart.symm)
    rw [htopts, holder l hl e he hart] at hnot
    cases hnot
  have hin : c.edges.filter (fun e =>
      decide (e.artifact = c.artifact) && decide (∀ x ∈ logOf (before ++ c :: after),
        x.artifact = e.artifact → Text.lt e.compileTs x.compileTs = false)) = c.edges := by
    refine List.filter_eq_self.mpr fun e he => ?_
    obtain ⟨hart, hts⟩ := Compile.mem_edges he
    rw [decide_eq_true hart, Bool.true_and]
    refine decide_eq_true fun x hx hsame => ?_
    rw [hart] at hsame
    rw [hts]
    rw [hlog, List.mem_append, List.mem_append] at hx
    rcases hx with hx | hx | hx
    · exact Text.not_lt_of_lt (holder before (List.subset_append_left _ _) x hx hsame)
    · rw [(Compile.mem_edges hx).2]
      exact decide_eq_false (List.lt_irrefl _)
    · exact Text.not_lt_of_lt (holder after (List.subset_append_right _ _) x hx hsame)
  unfold forwardConsumes
  rw [current_eq_filter, List.filter_filter]
  conv_lhs =>
    arg 2
    rw [hlog]
  rw [List.filter_append, List.filter_append, hin,
    hout before (List.subset_append_left _ _), hout after (List.subset_append_right _ _)]
  simp

/-- **ONLY THE LATEST COMPILE COUNTS**, in the log of every history of writes. -/
theorem latest_compile (history : List Compile) : LatestOnly history where
  one := fun _ => current_of_latest
  older := fun _ he => (mem_current_iff.mp he).2
  again := current_current _
  apart := by
    intro artifact
    rw [current_artifact, logOf_artifact]
  ends := fun _ _ _ => forward_iff_reverse
  silent := by
    intro c hc
    have hlog : logOf (history ++ [c]) = logOf history := by
      unfold logOf
      rw [List.flatMap_append, List.flatMap_singleton, hc, List.append_nil]
    rw [hlog]

end History

/-! ## A write that read nothing -/

def unreadHistory : List Compile :=
  [⟨[⟨"2026-07-01T00:00:00.000Z", "vault_read", "prices.md", some "run-1"⟩], "summary.md",
      "run-1", "2026-07-01T01:00:00.000Z"⟩,
    ⟨[⟨"2026-07-01T00:00:00.000Z", "vault_read", "prices.md", some "run-1"⟩], "summary.md",
      "run-2", "2026-07-02T00:00:00.000Z"⟩]

/-- **An edge of the older compile stays current.** -/
theorem older_stays_current : ∃ old new : Compile, unreadHistory = [old, new] ∧
    new.artifact = old.artifact ∧ Text.lt old.compileTs new.compileTs = true ∧ new.edges = [] ∧
      ∃ e ∈ old.edges, e ∈ currentConsumesEdges (logOf unreadHistory) :=
  ⟨_, _, rfl, rfl, by decide +kernel, by decide +kernel, by decide +kernel⟩

end Staleness
