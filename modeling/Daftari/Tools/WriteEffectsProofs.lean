import Daftari.Tools.WriteCallProofs

/-! # What each write tool does to a document

    The tools share their plumbing and differ in what they change.  One lemma per
    tool says what a plan it composed reads as, against what the file it loaded
    read as, so that nothing downstream unfolds a tool.

    * `Touches`-lemmas: which keys the record plumbing can change;
    * `Changes`: **what each single-document tool changes of tier, successor,
      positions and body**, and `attempt_rewrite`, which proves it of the tools. -/

namespace Write

open Frontmatter Positions SupersedeChains Rbac
open Assoc (Touches)

/-! ## Records -/

theorem assign_touches (target source : Raw) :
    Touches (fun k => k ∈ Assoc.keys source) target (assign target source) := by
  refine Touches.foldl ?_
  intro m e he
  exact Touches.refl.set (List.mem_map_of_mem he) _

theorem lookup_assign (target : Raw) {source : Raw} (h : (Assoc.keys source).Nodup)
    (k : String) : (assign target source).lookup k = (source.lookup k).or (target.lookup k) := by
  induction source generalizing target with
  | nil => rfl
  | cons e source ih =>
      obtain ⟨k', v⟩ := e
      obtain ⟨hk', h⟩ := List.nodup_cons.mp h
      refine (ih _ h).trans ?_
      by_cases hk : k = k'
      · subst hk
        have hnone : source.lookup k = none := by
          cases hl : source.lookup k with
          | none => rfl
          | some w =>
              exact absurd (List.mem_map_of_mem (f := Prod.fst)
                (Assoc.mem_of_lookup hl)) hk'
        rw [hnone, List.lookup_cons_self]
        exact Assoc.lookup_set_self _ _ _
      · rw [Assoc.lookup_cons_of_ne _ _ hk]
        show (source.lookup k).or ((Assoc.set target k' v).lookup k) = _
        rw [Assoc.lookup_set_of_ne _ _ hk]

theorem overlay_touches (deferred : List String) (oldRaw payload : Raw) :
    Touches (fun k => k ∈ Assoc.keys payload) oldRaw (overlay deferred oldRaw payload) := by
  refine Touches.foldl ?_
  intro m e he
  have hk : e.1 ∈ Assoc.keys payload := List.mem_map_of_mem he
  split
  · refine Touches.refl.remove ?_
    intro k hmem
    rw [List.mem_singleton.mp hmem]
    exact hk
  · split
    · exact Touches.refl
    · exact Touches.refl.set hk _

/-- The fields reader fusion owns. -/
def readerFields : List String := ["readers", "reader_lineage"] ++ readerScalarFields

theorem dropScalars_touches (n : Nat) (raw : Raw) :
    Touches (· ∈ readerFields) raw (dropScalars n raw) := by
  unfold dropScalars
  split
  · exact Touches.refl.remove fun k hk => List.mem_append_right _ hk
  · exact Touches.refl

theorem fuseReaders_touches (now : String) (payload merged : Raw) :
    Touches (· ∈ readerFields) merged (fuseReaders now payload merged) := by
  have hr : "readers" ∈ readerFields := by decide
  have hl : "reader_lineage" ∈ readerFields := by decide
  have hreaders : Touches (· ∈ readerFields) merged (unionReaders payload merged) := by
    unfold unionReaders
    split
    · exact Touches.refl.set hr _
    · exact Touches.refl
  have hderived : ∀ (unioned : List String) (raw : Raw),
      Touches (· ∈ readerFields) raw (lineageReaders unioned raw) := by
    intro unioned raw
    unfold lineageReaders
    dsimp only
    split
    · exact Touches.refl
    · exact Touches.refl.set hr _
  have hlineage : ∀ (existing : List String) (raw : Raw),
      Touches (· ∈ readerFields) raw (unionReaderLineage existing payload raw) := by
    intro existing raw
    unfold unionReaderLineage
    split
    · exact (Touches.refl.set hl _).trans (hderived _ _)
    · exact Touches.refl
  exact (hreaders.trans (hlineage _ _)).trans (dropScalars_touches _ _)

theorem mergeUnder_touches (now : String) (oldRaw payload : Raw) :
    Touches (fun k => k ∈ Assoc.keys payload ∨ k ∈ readerFields) oldRaw
      (mergeUnder now oldRaw payload) := by
  have hover := (overlay_touches ["readers", "reader_lineage"] oldRaw payload).mono
    (fun k hk => (Or.inl hk : k ∈ Assoc.keys payload ∨ k ∈ readerFields))
  unfold mergeUnder
  split
  · exact hover
  · refine hover.trans ((fuseReaders_touches now payload _).mono ?_)
    intro k hk
    exact Or.inr hk

theorem transform_touches (hooks : List TransformHook) (fm : Raw) (context : HookContext) :
    Touches (fun _ => True) fm (runPreWriteTransformHooks hooks fm context).1 := by
  refine Touches.foldl_fst (fm, []) ?_
  intro acc hook
  split
  · exact (assign_touches acc.1 _).mono fun _ _ => trivial
  · exact Touches.refl
  · exact Touches.refl

theorem fillStamps_touches (s : Setting) (raw : Raw) (agent : String) :
    Touches (· ∈ ["updated", "updated_by"]) raw (fillStamps s raw agent) := by
  have hfill : ∀ (raw : Raw) (field : String) (v : Value),
      field ∈ ["updated", "updated_by"] →
        Touches (· ∈ ["updated", "updated_by"]) raw (fill raw field v) := by
    intro raw field v hfield
    unfold fill
    split
    · exact Touches.refl.set hfield v
    · exact Touches.refl
  exact (hfill raw "updated" _ (by decide)).trans (hfill _ "updated_by" _ (by decide))

theorem mintPins_touches {B : Type} (host : Host B) (raw : Raw) :
    Touches (· ∈ ["describes"]) raw (mintPins host raw) := by
  unfold mintPins
  split
  · split
    · split
      · exact Touches.refl.set (by decide) _
      · exact Touches.refl
    · exact Touches.refl
  · exact Touches.refl

theorem applyExtensionDefaults_touches (raw : Raw) (extensions : List SchemaExtension) :
    Touches (fun k => k ∉ builtinFields) raw (applyExtensionDefaults raw extensions) := by
  refine Touches.foldl ?_
  intro m ext _
  split
  · split
    · exact Touches.refl.set (k := ext.field) ext.fresh _
    · exact Touches.refl
  · exact Touches.refl

theorem fuseMergeReaders_touches (rawA rawB raw : Raw) :
    Touches (· ∈ readerFields) raw (fuseMergeReaders rawA rawB raw) := by
  unfold fuseMergeReaders
  dsimp only
  split
  · exact Touches.refl.remove (by decide)
  · exact (Touches.refl.set (by decide) _).trans (dropScalars_touches _ _)

theorem fuseMergeLineage_touches (rawA rawB raw : Raw) :
    Touches (· ∈ readerFields) raw (fuseMergeLineage rawA rawB raw) := by
  unfold fuseMergeLineage
  dsimp only
  split
  · exact Touches.refl.remove (by decide)
  · split
    · exact Touches.refl.set (by decide) _
    · exact ((Touches.refl.set (by decide) _).set (by decide) _).trans
        (dropScalars_touches _ _)

theorem mergeRaw_touches (s : Setting) (args : MergeArgs) (created : String) (rawA rawB : Raw) :
    Touches (fun _ => True) rawA (mergeRaw s args created rawA rawB) := by
  refine Touches.trans ?_ (((fuseMergeReaders_touches rawA rawB _).trans
    (fuseMergeLineage_touches rawA rawB _)).mono fun _ _ => trivial)
  refine Touches.trans ?_ ((assign_touches _ _).mono fun _ _ => trivial)
  refine Touches.trans ?_ ((assign_touches _ _).mono fun _ _ => trivial)
  exact Touches.refl.set trivial _

/-- The fields of a merge's target that are not stamped or fused come from the
    overrides or from path_a. -/
theorem lookup_mergeRaw (s : Setting) (args : MergeArgs) (created : String)
    (rawA rawB : Raw) {k : String}
    (hk : k ∉ ["provenance", "created", "updated", "updated_by"] ++ readerFields) :
    (mergeRaw s args created rawA rawB).lookup k
      = (args.frontmatter.lookup k).or (rawA.lookup k) := by
  have hstamp : k ∉ ["provenance", "created", "updated", "updated_by"] :=
    fun h => hk (List.mem_append_left _ h)
  have hreader : k ∉ readerFields := fun h => hk (List.mem_append_right _ h)
  have hne : k ≠ "provenance" := by
    rintro rfl
    exact hstamp List.mem_cons_self
  unfold mergeRaw
  rw [((fuseMergeReaders_touches rawA rawB _).trans
      (fuseMergeLineage_touches rawA rawB _)).lookup_eq hreader,
    (assign_touches _ _).lookup_eq (fun h => hstamp (List.mem_cons_of_mem _ h)),
    lookup_assign _ args.nodup, Assoc.lookup_set_of_ne _ _ hne]

section Tools

variable {B : Type} {host : Host B} {s : Setting} {files docs : Files B} {plan : Plan B}

/-! ## Loading and the shared tail -/

/-- What `loadTargetDocument` found. -/
structure Loaded (host : Host B) (files : Files B) (rawPath : String)
    (target : Target B) : Prop where
  resolve : host.resolve rawPath = .ok target.relPath
  file : files.lookup target.relPath = some target.text
  parse : host.codec.parse target.text = .ok (target.parsed.raw, target.parsed.content)
  frontmatter : target.parsed.frontmatter = coerce host.json target.parsed.raw

theorem loaded_of_load {tool rawPath : String} {target : Target B}
    (h : loadTargetDocument host tool rawPath files = .ok target) :
    Loaded host files rawPath target := by
  obtain ⟨relPath, hresolve, h⟩ := bind_eq_ok h
  cases hfile : files.lookup relPath with
  | none =>
      rw [hfile] at h
      cases h
  | some text =>
      rw [hfile] at h
      obtain ⟨parsed, hparsed, h⟩ := bind_eq_ok h
      obtain rfl := Except.ok.inj h
      obtain ⟨hparse, hfm⟩ := parse_of_parseDocument hparsed
      exact ⟨hresolve, hfile, hparse, hfm⟩

namespace Loaded

variable {rawPath : String} {target : Target B} (h : Loaded host files rawPath target)
include h

theorem nodup : (Assoc.keys target.parsed.raw).Nodup :=
  host.codec.nodup_parse _ _ _ h.parse

theorem read : read host.codec target.text
    = some (readingOf target.parsed.raw target.parsed.content) :=
  read_of_parse h.parse

theorem tier : target.parsed.frontmatter.tier
    = (readingOf target.parsed.raw target.parsed.content).tier := by
  rw [h.frontmatter]
  exact coerce_tier host.json _

theorem positions : target.parsed.frontmatter.positions
    = (readingOf target.parsed.raw target.parsed.content).positions := by
  rw [h.frontmatter]
  exact coerce_positions host.json _

theorem supersededBy : target.parsed.frontmatter.supersededBy
    = (readingOf target.parsed.raw target.parsed.content).supersededBy := by
  rw [h.frontmatter]
  exact coerce_supersededBy host.json _

end Loaded

theorem performWrite_eq_ok {relPath : String} {fileText : B}
    {baseVersion runId : Option String} {edits : List Pointer}
    (h : performWrite host s relPath fileText baseVersion runId edits = .ok (.write plan)) :
    plan.snapshots = declared relPath baseVersion
      ∧ plan.writes = [(relPath, fileText)] ∧ plan.edits = edits := by
  obtain ⟨_, _, h⟩ := bind_eq_ok h
  split at h
  · cases h
  · obtain rfl := Outcome.write.inj (Except.ok.inj h)
    exact ⟨rfl, rfl, rfl⟩

/-- A plan that rewrites one loaded document: what it read as, what it will. -/
structure Rewrite (host : Host B) (files : Files B) (rawPath : String)
    (base : Target B → Option String) (plan : Plan B) (target : Target B)
    (text : B) (r r' : Reading) : Prop where
  loaded : Loaded host files rawPath target
  snapshots : plan.snapshots = declared target.relPath (base target)
  writes : plan.writes = [(target.relPath, text)]
  before : read host.codec target.text = some r
  after : read host.codec text = some r'

theorem writtenPositions_kept {raw raw' : Raw}
    (hsame : raw'.lookup "positions" = raw.lookup "positions") (json : Value → String) :
    writtenPositions raw' (coerce json raw).positions
      = positionsIn (raw.lookup "positions") := by
  rw [← writtenPositions_coerce json raw]
  cases (coerce json raw).positions with
  | none => exact congrArg positionsIn hsame
  | some ps => rfl

/-- **A frontmatter write keeps body and positions**, and leaves the tier and the
    successor of its new frontmatter. -/
theorem rewrite_of_frontmatterWrite {rawPath : String} {target : Target B}
    (base : Target B → Option String) (hl : Loaded host files rawPath target)
    {fm : Fields} {runId : Option String} {edits : List Pointer} {tier : Option Tier}
    {successor : Option String}
    (h : performFrontmatterWrite host s target fm (base target) runId edits = .ok (.write plan))
    (hpositions : fm.positions = target.parsed.frontmatter.positions)
    (htier : fm.tier = tier) (hsuccessor : fm.supersededBy = successor) :
    ∃ text, Rewrite host files rawPath base plan target text
        (readingOf target.parsed.raw target.parsed.content)
        { readingOf target.parsed.raw target.parsed.content with
          tier := tier, supersededBy := successor }
      ∧ plan.edits = edits := by
  obtain ⟨hsnap, hwrites, hedits⟩ := performWrite_eq_ok h
  refine ⟨_, ⟨hl, hsnap, hwrites, hl.read, ?_⟩, hedits⟩
  rw [read_fields host.codec _ fm _ hl.nodup, htier, hsuccessor, hpositions, hl.frontmatter,
    writtenPositions_kept rfl]
  rfl

/-! ## Lifecycle tools -/

theorem vaultPromote_rewrite {args : LifecycleArgs}
    (h : vaultPromote host s args files = .ok (.write plan)) :
    ∃ target text r, Rewrite host files args.path (baseOf host args.baseVersion) plan
      target text r r := by
  unfold vaultPromote at h
  simp only [bind_eq_ok_iff] at h
  obtain ⟨_, _, _, _, _, _, target, hload, _, _, _, _, _, _, h⟩ := h
  have hl := loaded_of_load hload
  obtain ⟨text, hrw, _⟩ := rewrite_of_frontmatterWrite _ hl h rfl hl.tier hl.supersededBy
  exact ⟨target, text, _, hrw⟩

theorem vaultSetConfidence_rewrite {args : LifecycleArgs} {confidence : Confidence}
    (h : vaultSetConfidence host s args confidence files = .ok (.write plan)) :
    ∃ target text r, Rewrite host files args.path (baseOf host args.baseVersion) plan
      target text r r := by
  unfold vaultSetConfidence at h
  simp only [bind_eq_ok_iff] at h
  obtain ⟨_, _, _, _, target, hload, _, _, _, _, h⟩ := h
  have hl := loaded_of_load hload
  obtain ⟨text, hrw, _⟩ := rewrite_of_frontmatterWrite _ hl h rfl hl.tier hl.supersededBy
  exact ⟨target, text, _, hrw⟩

theorem vaultDeprecate_rewrite {args : DeprecateArgs}
    (h : vaultDeprecate host s args files docs = .ok (.write plan)) :
    ∃ target text r, Rewrite host files args.path (baseOf host args.baseVersion) plan
        target text r { r with supersededBy := args.supersededBy }
      ∧ plan.edits = deprecateEdits host target.relPath args.supersededBy := by
  unfold vaultDeprecate at h
  simp only [bind_eq_ok_iff] at h
  obtain ⟨_, _, _, _, boundary, _, target, hload, _, _, validUntil, _, _, _, h⟩ := h
  have hl := loaded_of_load hload
  obtain ⟨text, hrw, hedits⟩ := rewrite_of_frontmatterWrite _ hl h rfl hl.tier rfl
  exact ⟨target, text, _, hrw, hedits⟩

/-- A caller that is a human by name. -/
def isHuman (agent : String) : Bool := "human:".toList.isPrefixOf agent.toList

theorem vaultSetTier_rewrite {args : LifecycleArgs} {tier : Tier}
    (h : vaultSetTier host s args tier files = .ok (.write plan)) :
    ∃ target text r, Rewrite host files args.path (baseOf host args.baseVersion) plan
        target text r { r with tier := some tier }
      ∧ (r.tier = some .manual → tier ≠ .manual → isHuman args.agent = true) := by
  unfold vaultSetTier at h
  simp only [bind_eq_ok_iff] at h
  obtain ⟨_, _, _, _, target, hload, _, _, _, hguard, _, _, h⟩ := h
  have hl := loaded_of_load hload
  obtain ⟨text, hrw, _⟩ := rewrite_of_frontmatterWrite _ hl h rfl rfl hl.supersededBy
  refine ⟨target, text, _, hrw, ?_⟩
  intro hmanual hne
  have hfm := refuse_eq_ok hguard
  rw [← hl.tier] at hmanual
  by_contra hhuman
  exact hfm ⟨hmanual, hne, Bool.eq_false_iff.mpr hhuman⟩

theorem vaultUnsupersede_rewrite {args : LifecycleArgs}
    (h : vaultUnsupersede host s args files = .ok (.write plan)) :
    ∃ target text r, Rewrite host files args.path (baseOf host args.baseVersion) plan
        target text r { r with supersededBy := none } := by
  unfold vaultUnsupersede at h
  simp only [bind_eq_ok_iff] at h
  obtain ⟨_, _, _, _, _, _, target, hload, _, _, _, _, h⟩ := h
  have hl := loaded_of_load hload
  obtain ⟨text, hrw, _⟩ := rewrite_of_frontmatterWrite _ hl h rfl hl.tier rfl
  exact ⟨target, text, _, hrw⟩

theorem vaultSupersede_rewrite {args : SupersedeArgs}
    (h : vaultSupersede host s args files docs = .ok (.write plan)) :
    ∃ target text r newRel, Rewrite host files args.oldPath (fun _ => args.baseVersion) plan
        target text r { r with supersededBy := some args.newPath }
      ∧ host.resolve args.newPath = .ok newRel
      ∧ plan.edits = [(target.relPath, some newRel)] := by
  unfold vaultSupersede at h
  simp only [bind_eq_ok_iff] at h
  obtain ⟨_, _, _, _, boundary, _, _, _, oldRel, _, newRel, hnew, _, _, _, _, target, hload, _,
    _, _, _, validUntil, _, _, _, h⟩ := h
  have hl := loaded_of_load hload
  obtain ⟨text, hrw, hedits⟩ := rewrite_of_frontmatterWrite
    (fun _ => args.baseVersion) hl h rfl hl.tier rfl
  exact ⟨target, text, _, newRel, hrw, hnew, hedits⟩

/-! ## Position tools -/

theorem user_of_positionPrincipal {tool foreign : String} {principal : Option String}
    {who : String} (h : positionPrincipal s tool foreign principal = .ok who) :
    ∀ a ∈ s.access, a.user = who := by
  intro a ha
  obtain ⟨who', hwho, h⟩ := bind_eq_ok h
  obtain ⟨_, _, h⟩ := bind_eq_ok h
  obtain rfl := Except.ok.inj h
  unfold callerPrincipal at hwho
  rw [Option.mem_def.mp ha] at hwho
  cases principal with
  | none => exact Except.ok.inj hwho
  | some p =>
      dsimp only at hwho
      split at hwho
      · exact Except.ok.inj hwho
      · cases hwho

theorem wellFormed_mark (p : Position) (s : Option String) :
    ({ p with supersededBy := s } : Position).wellFormed = p.wellFormed := rfl

/-- **An assert keeps the positions of everyone else, carries all on**, and changes nothing else. -/
theorem vaultAssert_rewrite {args : AssertArgs}
    (h : vaultAssert host s args files = .ok (.write plan)) :
    ∃ target text r r' principal, Rewrite host files args.path (baseOf host none) plan
        target text r r'
      ∧ (∀ a ∈ s.access, a.user = principal)
      ∧ r' = { r with positions := r'.positions }
      ∧ Kept principal (r.positions.getD []) (r'.positions.getD [])
      ∧ Carried (r.positions.getD []) (r'.positions.getD []) := by
  unfold vaultAssert at h
  simp only [bind_eq_ok_iff] at h
  obtain ⟨_, _, principal, hprincipal, _, _, target, hload, h⟩ := h
  have hl := loaded_of_load hload
  split at h
  · cases h
  · obtain ⟨hsnap, hwrites, _⟩ := performWrite_eq_ok h
    have hread := read_fields host.codec host.config.extensions
      (assertFrontmatter s args principal target.parsed.frontmatter)
      target.parsed.content hl.nodup
    refine ⟨target, _, _, _, principal, ⟨hl, hsnap, hwrites, hl.read, hread⟩,
      user_of_positionPrincipal hprincipal, ?_, ?_, ?_⟩
    · exact Reading.ext hl.tier hl.supersededBy rfl rfl
    · show Kept principal ((readingOf _ _).positions.getD []) _
      rw [← hl.positions]
      cases hps : target.parsed.frontmatter.positions with
      | none => exact Kept.nil _ _
      | some ps =>
          rw [hl.positions] at hps
          have hkept := applyAssert_kept ps (assertInput s args principal)
            Position.wellFormed (wellFormed_of_positionsIn hps)
          show Kept principal ps ((applyAssert _ (assertInput s args principal)).filter _)
          rw [hl.positions, hps]
          exact hkept
    · show Carried ((readingOf _ _).positions.getD []) _
      rw [← hl.positions]
      cases hps : target.parsed.frontmatter.positions with
      | none =>
          intro p hp
          cases hp
      | some ps =>
          rw [hl.positions] at hps
          show Carried ps ((applyAssert _ (assertInput s args principal)).filter _)
          rw [hl.positions, hps]
          exact applyAssert_carried ps _ Position.wellFormed wellFormed_mark
            (wellFormed_of_positionsIn hps)

theorem vaultConsolidate_rewrite {args : ConsolidateArgs}
    (h : vaultConsolidate host s args files = .ok (.write plan)) :
    ∃ target text r, Rewrite host files args.path (baseOf host none) plan target text r r := by
  unfold vaultConsolidate at h
  simp only [bind_eq_ok_iff] at h
  obtain ⟨_, _, _, _, ratifier, _, _, _, _, _, target, hload, _, _, h⟩ := h
  have hl := loaded_of_load hload
  obtain ⟨text, hrw, _⟩ := rewrite_of_frontmatterWrite (baseOf host none) hl h rfl
    hl.tier hl.supersededBy
  exact ⟨target, text, _, hrw⟩

/-! ## vault_append -/

/-- A body with a section at its end, up to leading line breaks. -/
def grown (body sectionText : List Char) : List Char :=
  if body = [] then sectionText else body ++ "\n\n".toList ++ sectionText

/-- **An append is read back as the body it found with the section at its end.** -/
theorem normBody_appendSection (content sectionText : List Char) (h : Text.trim sectionText ≠ []) :
    normBody (appendSection content sectionText)
      = grown (normBody content) (Text.trim sectionText) := by
  have hidem : Text.trimEnd (Text.trim sectionText) = Text.trim sectionText :=
    List.rdropWhile_idempotent _ _
  have htrim : Text.trimEnd (appendSection content sectionText)
      = Text.trimEnd content ++ ("\n\n".toList ++ Text.trim sectionText) := by
    unfold appendSection
    rw [Text.trimEnd_append_space (Text.forall_mem_of_all (by decide)), List.append_assoc]
    have hne : Text.trimEnd ("\n\n".toList ++ Text.trim sectionText) ≠ [] := by
      rw [Text.trimEnd_append (by rw [hidem]; exact h)]
      simp
    rw [Text.trimEnd_append hne, Text.trimEnd_append (by rw [hidem]; exact h), hidem]
  have hstart : (Text.trim sectionText).dropWhile (· = '\n') = Text.trim sectionText := by
    have hcases : Text.trim sectionText = Text.trimStart (Text.trimEnd sectionText) :=
      (Text.trimStart_trimEnd sectionText).symm
    have hhead := List.head?_dropWhile_not Text.isSpace (Text.trimEnd sectionText)
    rw [hcases]
    unfold Text.trimStart
    cases hd : (Text.trimEnd sectionText).dropWhile Text.isSpace with
    | nil => rfl
    | cons c rest =>
        rw [hd] at hhead
        refine List.dropWhile_cons_of_neg ?_
        intro hc
        have hspace : Text.isSpace c = true := by
          rw [of_decide_eq_true hc]
          decide
        rw [show Text.isSpace c = false from hhead] at hspace
        cases hspace
  rw [normBody_eq, htrim, List.dropWhile_append]
  have hold : (Text.trimEnd content).dropWhile (· = '\n') = normBody content :=
    (normBody_eq content).symm
  rw [hold]
  unfold grown
  by_cases hnil : normBody content = []
  · rw [if_pos (by rw [hnil]; rfl), if_pos hnil]
    exact hstart
  · rw [if_neg (by rw [List.isEmpty_iff]; exact hnil), if_neg hnil, List.append_assoc]

/-- The hooks hand positions on as they were given. -/
def LeavesPositions (config : Config) : Prop :=
  ∀ fm context, (runPreWriteTransformHooks config.transformHooks fm context).1.lookup
    "positions" = fm.lookup "positions"

/-- **What an append leaves**: the grown body, and the fields of its record. -/
theorem vaultAppend_rewrite {args : AppendArgs}
    (h : vaultAppend host s args files = .ok (.write plan)) :
    ∃ target text r r', Rewrite host files args.path (baseOf host args.baseVersion) plan
        target text r r'
      ∧ r'.body = grown r.body (Text.trim args.sectionText)
      ∧ r'.tier = asChoice ((appendRecord host s args target.parsed.frontmatter).1.lookup
          "tier")
      ∧ r'.positions =
          (let v := (appendRecord host s args target.parsed.frontmatter).1.lookup "positions"
           if missing v then r.positions else positionsIn v) := by
  unfold vaultAppend at h
  simp only [bind_eq_ok_iff] at h
  obtain ⟨_, htexts, _, _, target, hload, _, _, _, _, h⟩ := h
  have hl := loaded_of_load hload
  obtain ⟨hsnap, hwrites, _⟩ := performWrite_eq_ok h
  have hread := read_serialize host.codec host.config.extensions
    (appendRecord host s args target.parsed.frontmatter).1
    (appendSection target.parsed.content args.sectionText) hl.nodup
  have hsection : Text.trim args.sectionText ≠ [] := by
    obtain ⟨_, _, htexts⟩ := bind_eq_ok htexts
    obtain ⟨_, _, htexts⟩ := bind_eq_ok htexts
    obtain ⟨_, hblank, _⟩ := bind_eq_ok htexts
    have hno := refuse_eq_ok hblank
    unfold blank at hno
    simpa using hno
  refine ⟨target, _, _, _, ⟨hl, hsnap, hwrites, hl.read, hread⟩, ?_, rfl, rfl⟩
  exact normBody_appendSection target.parsed.content args.sectionText hsection

/-! ## Full-document writes -/

theorem body_of_checkTierGuard {tool path agent : String} {tier : Option Tier}
    {oldBody newBody : List Char} {u : Unit}
    (h : checkTierGuard tool path tier oldBody newBody agent = .ok u) :
    (tier = some .source → normBody newBody = normBody oldBody)
      ∧ (tier = some .manual → isHuman agent = false → normBody newBody = normBody oldBody) := by
  have hsame : ¬ sameBody oldBody newBody = false → normBody newBody = normBody oldBody := by
    intro hne
    exact ((sameBody_iff _ _).mp (Bool.not_eq_false _ |>.mp hne)).symm
  constructor
  · rintro rfl
    exact hsame (refuse_eq_ok h)
  · rintro rfl hagent
    refine hsame ?_
    intro hdiff
    exact refuse_eq_ok h ⟨hdiff, hagent⟩

/-- What a full-document write does to the document it updates. -/
structure Updates (host : Host B) (s : Setting) (args : WriteArgs) (r r' : Reading) :
    Prop where
  body : r'.body = normBody args.body
  source : r.tier = some .source → r'.body = r.body
  manual : r.tier = some .manual → isHuman args.agent = false → r'.body = r.body
  tier : host.config.transformHooks = [] →
    r.tier = some .source ∨ r.tier = some .manual → r'.tier = r.tier
  foreign : ∀ a ∈ s.access, Kept a.user (r.positions.getD []) (r'.positions.getD [])
  positions : LeavesPositions host.config → "positions" ∉ Assoc.keys args.frontmatter →
    r'.positions = r.positions

theorem parse_of_existingDocument {tool path : String} {existing : Option B}
    {doc : Option ParsedDocument} (h : existingDocument host tool path existing = .ok doc) {old : B}
    (hold : existing = some old) : ∃ d, doc = some d ∧ host.codec.parse old = .ok (d.raw, d.content)
      ∧ d.frontmatter = coerce host.json d.raw := by
  unfold existingDocument at h
  rw [hold] at h
  dsimp only at h
  split at h
  · rename_i d hparse
    obtain rfl := Except.ok.inj h
    exact ⟨d, rfl, parse_of_parseDocument hparse⟩
  · cases h

theorem nodup_composeRaw {args : WriteArgs} {doc : Option ParsedDocument}
    (hdoc : ∀ d ∈ doc, (Assoc.keys d.raw).Nodup) :
    (Assoc.keys (composeRaw host s args doc).1).Nodup := by
  refine ((fillStamps_touches s _ _).nodup ?_ |> (mintPins_touches host _).nodup)
  refine (transform_touches _ _ _).nodup ?_
  cases doc with
  | none => exact args.nodup
  | some d => exact (mergeUnder_touches _ _ _).nodup (hdoc d rfl)

theorem lookup_composeRaw {args : WriteArgs} {doc : Option ParsedDocument} {k : String}
    (hk : k ∉ ["updated", "updated_by", "describes"]) :
    (composeRaw host s args doc).1.lookup k
      = (runPreWriteTransformHooks host.config.transformHooks (mergedRecord s args doc)
          (writeContext args doc)).1.lookup k := by
  unfold composeRaw
  rw [(mintPins_touches host _).lookup_eq (fun h => hk (List.mem_cons_of_mem _
      (List.mem_cons_of_mem _ h))),
    (fillStamps_touches s _ _).lookup_eq (fun h => hk (by
      rcases List.mem_cons.mp h with rfl | h
      · exact List.mem_cons_self
      · rw [List.mem_singleton.mp h]
        exact List.mem_cons_of_mem _ List.mem_cons_self))]

theorem composeWrite_eq_ok {args : WriteArgs} {doc : Option ParsedDocument} {fm : Fields}
    {raw : Raw} (h : composeWrite host s args doc = .ok (fm, raw)) :
    raw = (composeRaw host s args doc).1 ∧ fm = coerce host.json raw := by
  obtain ⟨_, _, h⟩ := bind_eq_ok h
  obtain ⟨rfl, rfl⟩ := Prod.mk.inj (Except.ok.inj h)
  exact ⟨rfl, rfl⟩

theorem checkForeign_kept {tool user : String} {before after : Option (List Position)}
    {u : Unit} (h : checkForeign tool user before after = .ok u) :
    Kept user (before.getD []) (after.getD []) := by
  unfold checkForeign at h
  cases before with
  | none => exact Kept.nil _ _
  | some before =>
      dsimp only at h
      split at h
      · rename_i hnone
        exact kept_of_no_violation hnone
      · cases h

/-- **A direct full-document write is an update**, or creates the file. -/
theorem writeDirect_updates {args : WriteArgs} {patching : Bool} {relPath : String}
    {existing : Option B}
    (h : writeDirect host s args patching relPath existing = .ok (.write plan)) :
    ∃ text, plan.snapshots = declared relPath args.baseVersion
      ∧ plan.writes = [(relPath, text)] ∧ plan.edits = []
      ∧ ∀ old, existing = some old → ∃ r r', read host.codec old = some r
        ∧ read host.codec text = some r' ∧ Updates host s args r r' := by
  obtain ⟨doc, hdoc, h⟩ := bind_eq_ok h
  obtain ⟨_, htier, h⟩ := bind_eq_ok h
  obtain ⟨⟨fm, raw⟩, hcompose, h⟩ := bind_eq_ok h
  obtain ⟨hraw, hfmraw⟩ := composeWrite_eq_ok hcompose
  obtain ⟨_, hforeign, h⟩ := bind_eq_ok h
  obtain ⟨_, _, h⟩ := bind_eq_ok h
  obtain ⟨hsnap, hwrites, hedits⟩ := performWrite_eq_ok h
  refine ⟨_, hsnap, hwrites, hedits, ?_⟩
  intro old hold
  obtain ⟨d, rfl, hparse, hfm⟩ := parse_of_existingDocument hdoc hold
  have hnodup : (Assoc.keys raw).Nodup := by
    rw [hraw]
    refine nodup_composeRaw ?_
    intro d' hd'
    obtain rfl := Option.some.inj hd'
    exact host.codec.nodup_parse _ _ _ hparse
  have hdefaults := applyExtensionDefaults_touches raw host.config.extensions
  have hread := read_fields host.codec host.config.extensions
    (stamp s { fm with created := d.frontmatter.created } args.agent)
    args.body (hdefaults.nodup hnodup)
  subst hfmraw
  have hpositions : writtenPositions
      (applyExtensionDefaults raw host.config.extensions)
      (coerce host.json raw).positions = positionsIn (raw.lookup "positions") :=
    writtenPositions_kept (hdefaults.lookup_eq (by decide)) host.json
  refine ⟨_, _, read_of_parse hparse, hread, ?_⟩
  have holdTier : d.frontmatter.tier = (readingOf d.raw d.content).tier := by
    rw [hfm]
    exact coerce_tier host.json _
  have holdPositions : d.frontmatter.positions = (readingOf d.raw d.content).positions := by
    rw [hfm]
    exact coerce_positions host.json _
  obtain ⟨_, hbody, hchange⟩ := bind_eq_ok htier
  rw [holdTier] at hbody hchange
  have hguard := body_of_checkTierGuard hbody
  refine { body := rfl, source := hguard.1, manual := hguard.2, tier := ?_, foreign := ?_,
           positions := ?_ }
  · intro hhooks hprotected
    have hlookup : raw.lookup "tier"
        = (mergeUnder s.now d.raw args.frontmatter).lookup "tier" := by
      rw [hraw, lookup_composeRaw (by decide), hhooks]
      rfl
    show (coerce host.json raw).tier = _
    rw [coerce_tier, hlookup]
    cases ht : (readingOf d.raw d.content).tier with
    | none =>
        rw [ht] at hprotected
        rcases hprotected with h | h <;> cases h
    | some tier =>
        rw [ht] at hprotected hchange
        have hsame : asString ((mergeUnder s.now d.raw args.frontmatter).lookup "tier")
            = some (Choice.text tier) := by
          by_contra hne
          refine refuse_eq_ok hchange ⟨?_, hne⟩
          rcases hprotected with h | h
          · exact Or.inl (Option.some.inj h)
          · exact Or.inr (Option.some.inj h)
        unfold asChoice
        rw [hsame]
        exact Choice.ofText_text tier
  · intro a ha
    unfold checkForeignPositions at hforeign
    rw [Option.mem_def.mp ha] at hforeign
    have hkept := checkForeign_kept hforeign
    show Kept a.user ((readingOf d.raw d.content).positions.getD [])
      ((writtenPositions _ (coerce host.json raw).positions).getD [])
    rw [hpositions, ← coerce_positions host.json raw, ← holdPositions]
    exact hkept
  · intro hleaves hnot
    show writtenPositions _ (coerce host.json raw).positions = _
    rw [hpositions]
    have hlookup : raw.lookup "positions" = d.raw.lookup "positions" := by
      rw [hraw, lookup_composeRaw (by decide), hleaves]
      refine (mergeUnder_touches s.now d.raw args.frontmatter).lookup_eq ?_
      rintro (hk | hk)
      · exact hnot hk
      · exact absurd hk (by decide)
    rw [hlookup]
    rfl

theorem direct_of_writeDocument {args : WriteArgs} {patch : Option B}
    (h : writeDocument host s args patch files = .ok (.write plan)) :
    ∃ relPath, host.resolve args.path = .ok relPath
      ∧ writeDirect host s args patch.isSome relPath (patch <|> files.lookup relPath)
        = .ok (.write plan) := by
  unfold writeDocument at h
  simp only [bind_eq_ok_iff] at h
  obtain ⟨_, _, _, _, relPath, hresolve, h⟩ := h
  refine ⟨relPath, hresolve, ?_⟩
  split at h
  · unfold stageWrite at h
    obtain ⟨_, _, h⟩ := bind_eq_ok h
    obtain ⟨_, _, h⟩ := bind_eq_ok h
    cases h
  · exact h

/-- **vault_write updates the document it replaces.** -/
theorem vaultWrite_updates {args : WriteArgs}
    (h : vaultWrite host s args files = .ok (.write plan)) :
    ∃ relPath text, host.resolve args.path = .ok relPath ∧ plan.writes = [(relPath, text)]
      ∧ ∀ old, files.lookup relPath = some old → ∃ r r', read host.codec old = some r
        ∧ read host.codec text = some r' ∧ Updates host s args r r' := by
  obtain ⟨relPath, hresolve, hdirect⟩ := direct_of_writeDocument h
  obtain ⟨text, _, hwrites, _, hupdates⟩ := writeDirect_updates hdirect
  exact ⟨relPath, text, hresolve, hwrites, hupdates⟩

/-! ## vault_patch -/

theorem not_mem_of_readPatchFields {fields : Raw} {u : Unit}
    (h : readPatchFields fields = .ok u) {k : String}
    (hk : (patchReservedFields.lookup k).isSome) : k ∉ Assoc.keys fields := by
  intro hmem
  obtain ⟨e, he, rfl⟩ := List.mem_map.mp hmem
  unfold readPatchFields at h
  split at h
  · rename_i hnone
    have hno := List.findSome?_eq_none_iff.mp hnone e he
    rw [Option.map_eq_none_iff] at hno
    rw [hno] at hk
    cases hk
  · cases h

/-- **A patch is an update anchored to the text it loaded**: without edits it keeps the body. -/
theorem vaultPatch_rewrite {args : PatchArgs}
    (h : vaultPatch host s args files = .ok (.write plan)) :
    ∃ target text r r' body, Rewrite host files args.path (baseOf host args.baseVersion)
        plan target text r r' ∧ Updates host s (patchWrite host args target body) r r'
      ∧ (args.edits = [] → r'.body = r.body)
      ∧ (LeavesPositions host.config → r'.positions = r.positions) := by
  unfold vaultPatch at h
  simp only [bind_eq_ok_iff] at h
  obtain ⟨_, _, _, hfields, _, _, _, _, _, _, target, hload, _, _, _, _, body, hbody, h⟩ := h
  have hl := loaded_of_load hload
  obtain ⟨relPath, hresolve, hdirect⟩ := direct_of_writeDocument h
  obtain ⟨text, hsnap, hwrites, _, hupdates⟩ := writeDirect_updates hdirect
  obtain rfl : relPath = target.relPath := by
    have hsame := hl.resolve
    rw [show host.resolve args.path = .ok relPath from hresolve] at hsame
    exact Except.ok.inj hsame
  obtain ⟨r, r', hr, hr', hup⟩ := hupdates target.text rfl
  refine ⟨target, text, r, r', body, ⟨hl, hsnap, hwrites, hr, hr'⟩, hup, ?_, ?_⟩
  · intro hedits
    rw [hedits] at hbody
    obtain rfl := Except.ok.inj hbody
    rw [hl.read] at hr
    obtain rfl := Option.some.inj hr
    exact hup.body
  · intro hleaves
    exact hup.positions hleaves (not_mem_of_readPatchFields hfields rfl)

/-! ## vault_merge -/

/-- A field of a merge's target: the override's if it names one, else path_a's. -/
def inherited (args : MergeArgs) (rawA : Raw) (k : String) : Option Value :=
  (args.frontmatter.lookup k).or (rawA.lookup k)

/-- The write set of a merge. -/
structure Merges (host : Host B) (files : Files B) (args : MergeArgs) (plan : Plan B)
    (a : Target B) (targetRel : String) (text : B) (r' : Reading)
    (sources : List (Target B × B)) : Prop where
  loadedA : Loaded host files args.pathA a
  resolve : host.resolve args.targetPath = .ok targetRel
  writes : plan.writes = (targetRel, text) :: sources.map fun e => (e.1.relPath, e.2)
  edits : plan.edits = (targetRel, r'.supersededBy)
    :: sources.map fun e => (e.1.relPath, some targetRel)
  nodup : (plan.writes.map Prod.fst).Nodup
  /-- A source is superseded by the target and otherwise kept. -/
  source : ∀ e ∈ sources, files.lookup e.1.relPath = some e.1.text
    ∧ ∃ r, read host.codec e.1.text = some r
      ∧ read host.codec e.2 = some { r with supersededBy := some args.targetPath }
  after : read host.codec text = some r'
  tier : r'.tier = asChoice (inherited args a.parsed.raw "tier")
  positions : r'.positions = positionsIn (inherited args a.parsed.raw "positions")
  body : r'.body = normBody args.body
  /-- The tier guard, over an old target whose file parses. -/
  guard : ∀ old doc, files.lookup targetRel = some old →
    parseDocument host.codec host.json old = .ok doc →
    (doc.frontmatter.tier = some .source → normBody args.body = normBody doc.content)
      ∧ (doc.frontmatter.tier = some .manual → isHuman args.agent = false →
        normBody args.body = normBody doc.content)

theorem supersedeSource_eq_ok {args : MergeArgs} {boundary : Option String}
    {targetRel path : String} {source : Target B} {ws : List (MergeWrite B)}
    (hl : Loaded host files path source)
    (h : supersedeSource host s args boundary targetRel path source = .ok ws) :
    ws = [] ∨ (source.relPath ≠ targetRel ∧ ∃ text,
      ws = [{ relPath := source.relPath, fileText := text, edit := some targetRel }]
        ∧ read host.codec text = some
          { readingOf source.parsed.raw source.parsed.content with
            supersededBy := some args.targetPath }) := by
  unfold supersedeSource at h
  split at h
  · exact Or.inl (Except.ok.inj h).symm
  · rename_i hne
    obtain ⟨validUntil, _, h⟩ := bind_eq_ok h
    refine Or.inr ⟨hne, _, (Except.ok.inj h).symm, ?_⟩
    rw [read_fields host.codec _ _ _ hl.nodup]
    refine congrArg some (Reading.ext hl.tier rfl ?_ rfl)
    show writtenPositions _ source.parsed.frontmatter.positions = _
    rw [hl.frontmatter]
    exact writtenPositions_kept rfl host.json

theorem composeTarget_eq_ok {args : MergeArgs} {a b : Target B}
    {old : Option ParsedDocument} {fm : Fields} {raw : Raw}
    (h : composeTarget host s args a b old = .ok (fm, raw)) : checkMergeTier args old = .ok ()
      ∧ ∃ created, raw = mergeRaw s args created a.parsed.raw b.parsed.raw
        ∧ fm = stamp s { coerce host.json raw with created := created } args.agent := by
  obtain ⟨_, hguard, h⟩ := bind_eq_ok h
  obtain ⟨_, _, h⟩ := bind_eq_ok h
  obtain ⟨rfl, rfl⟩ := Prod.mk.inj (Except.ok.inj h)
  exact ⟨hguard, _, rfl, rfl⟩

theorem loaded_of_loadSources {args : MergeArgs} {a b : Target B}
    (h : loadSources host args files = .ok (a, b)) :
    Loaded host files args.pathA a ∧ Loaded host files args.pathB b ∧ a.relPath ≠ b.relPath := by
  unfold loadSources at h
  simp only [bind_eq_ok_iff] at h
  obtain ⟨relA, hrelA, relB, hrelB, _, _, _, hne, _, _, _, _, a', hloadA, b', hloadB, h⟩ := h
  obtain ⟨rfl, rfl⟩ := Prod.mk.inj (Except.ok.inj h)
  have hA := loaded_of_load hloadA
  have hB := loaded_of_load hloadB
  refine ⟨hA, hB, ?_⟩
  have hresA := hA.resolve
  have hresB := hB.resolve
  rw [hrelA] at hresA
  rw [hrelB] at hresB
  rw [← Except.ok.inj hresA, ← Except.ok.inj hresB]
  exact refuse_eq_ok hne

/-- **What a merge writes**: the target, from path_a's record and the overrides, and
    each source that is not the target, superseded. -/
theorem vaultMerge_merges {args : MergeArgs}
    (h : vaultMerge host s args files docs = .ok (.write plan)) :
    ∃ a targetRel text r' sources, Merges host files args plan a targetRel text r' sources := by
  obtain ⟨_, _, h⟩ := bind_eq_ok h
  obtain ⟨_, _, h⟩ := bind_eq_ok h
  obtain ⟨boundary, _, h⟩ := bind_eq_ok h
  obtain ⟨_, _, h⟩ := bind_eq_ok h
  obtain ⟨⟨a, b⟩, hsources, h⟩ := bind_eq_ok h
  obtain ⟨hA, hB, hAB⟩ := loaded_of_loadSources hsources
  obtain ⟨targetRel, hresolve, h⟩ := bind_eq_ok h
  obtain ⟨_, _, h⟩ := bind_eq_ok h
  obtain ⟨_, _, h⟩ := bind_eq_ok h
  obtain ⟨_, _, h⟩ := bind_eq_ok h
  obtain ⟨_, _, h⟩ := bind_eq_ok h
  obtain ⟨_, _, h⟩ := bind_eq_ok h
  obtain ⟨_, _, h⟩ := bind_eq_ok h
  obtain ⟨⟨fm, raw⟩, htarget, h⟩ := bind_eq_ok h
  obtain ⟨hguard, created, hraw, hfm⟩ := composeTarget_eq_ok htarget
  simp only [bind_eq_ok_iff] at h
  obtain ⟨writeA, hwriteA, writeB, hwriteB, _, _, h⟩ := h
  split at h
  · cases h
  obtain rfl := Outcome.write.inj (Except.ok.inj h)
  -- the target's reading
  have hnodup : (Assoc.keys raw).Nodup := by
    rw [hraw]
    exact (mergeRaw_touches s args created a.parsed.raw b.parsed.raw).nodup hA.nodup
  have hdefaults := applyExtensionDefaults_touches raw host.config.extensions
  have hread := read_fields host.codec host.config.extensions fm args.body
    (hdefaults.nodup hnodup)
  have hfield : ∀ k, k ∉ ["provenance", "created", "updated", "updated_by"] ++ readerFields →
      raw.lookup k = inherited args a.parsed.raw k := by
    intro k hk
    rw [hraw]
    exact lookup_mergeRaw s args created a.parsed.raw b.parsed.raw hk
  -- the sources' writes
  have hA' := supersedeSource_eq_ok hA hwriteA
  have hB' := supersedeSource_eq_ok hB hwriteB
  obtain ⟨sources, hsrc, hsrcNodup, hsrcNe, hsrcRead⟩ : ∃ sources : List (Target B × B),
      writeA ++ writeB = (sources.map fun e =>
        ({ relPath := e.1.relPath, fileText := e.2, edit := some targetRel } :
          MergeWrite B))
      ∧ (sources.map fun e => e.1.relPath).Nodup
      ∧ (∀ e ∈ sources, e.1.relPath ≠ targetRel)
      ∧ ∀ e ∈ sources, files.lookup e.1.relPath = some e.1.text
        ∧ ∃ r, read host.codec e.1.text = some r
          ∧ read host.codec e.2 = some { r with supersededBy := some args.targetPath } := by
    have hone : ∀ {path : String} {source : Target B} {t : B},
        Loaded host files path source →
        read host.codec t = some { readingOf source.parsed.raw source.parsed.content with
          supersededBy := some args.targetPath } →
        files.lookup source.relPath = some source.text
          ∧ ∃ r, read host.codec source.text = some r
            ∧ read host.codec t = some { r with supersededBy := some args.targetPath } := by
      intro path source t hl hr
      exact ⟨hl.file, _, hl.read, hr⟩
    rcases hA' with rfl | ⟨hneA, textA, rfl, hreadA⟩
    · rcases hB' with rfl | ⟨hneB, textB, rfl, hreadB⟩
      · exact ⟨[], rfl, List.nodup_nil, by simp, by simp⟩
      · refine ⟨[(b, textB)], rfl, List.nodup_singleton _, by simpa using hneB, ?_⟩
        simpa using hone hB hreadB
    · rcases hB' with rfl | ⟨hneB, textB, rfl, hreadB⟩
      · refine ⟨[(a, textA)], rfl, List.nodup_singleton _, by simpa using hneA, ?_⟩
        simpa using hone hA hreadA
      · refine ⟨[(a, textA), (b, textB)], rfl, by simpa using hAB,
          by simpa using ⟨hneA, hneB⟩, ?_⟩
        simpa using ⟨hone hA hreadA, hone hB hreadB⟩
  refine ⟨a, targetRel, _, _, sources, hA, hresolve, ?_, ?_, ?_, hsrcRead, hread, ?_, ?_, rfl, ?_⟩
  · dsimp only
    rw [hsrc, List.map_cons, List.map_map]
    rfl
  · dsimp only
    rw [hsrc, List.map_cons, List.map_map]
    rfl
  · dsimp only
    rw [hsrc, List.map_cons, List.map_cons, List.map_map, List.map_map]
    refine List.nodup_cons.mpr ⟨?_, hsrcNodup⟩
    intro hmem
    obtain ⟨e, he, hpath⟩ := List.mem_map.mp hmem
    exact hsrcNe e he hpath
  · show fm.tier = _
    rw [hfm]
    show (coerce host.json raw).tier = _
    rw [coerce_tier, hfield "tier" (by decide)]
  · show writtenPositions _ fm.positions = _
    rw [hfm]
    show writtenPositions _ (coerce host.json raw).positions = _
    rw [writtenPositions_kept (hdefaults.lookup_eq (by decide)) host.json,
      hfield "positions" (by decide)]
  · intro old doc hold hparse
    have hsome : (files.lookup targetRel).bind (fun text =>
        (parseDocument host.codec host.json text).toOption) = some doc := by
      rw [hold, Option.bind_some, hparse]
      rfl
    rw [hsome] at hguard
    exact body_of_checkTierGuard hguard

/-! ## Every single-document tool -/

def Call.path : Call → String
  | .write args => args.path
  | .patch args => args.path
  | .append args => args.path
  | .promote args | .setConfidence args _ | .setTier args _ | .unsupersede args => args.path
  | .deprecate args => args.path
  | .supersede args => args.oldPath
  | .merge args => args.targetPath
  | .assert args => args.path
  | .consolidate args => args.path

def Call.agent : Call → String
  | .write args => args.agent
  | .patch args => args.agent
  | .append args => args.agent
  | .promote args | .setConfidence args _ | .setTier args _ | .unsupersede args =>
      args.agent
  | .deprecate args => args.agent
  | .supersede args => args.agent
  | .merge args => args.agent
  | .assert args => args.agent
  | .consolidate args => args.agent

/-- The base version a call declares for the document it loaded. -/
def Call.base (host : Host B) : Call → Target B → Option String
  | .write args => fun _ => args.baseVersion
  | .patch args => baseOf host args.baseVersion
  | .append args => baseOf host args.baseVersion
  | .promote args | .setConfidence args _ | .setTier args _ | .unsupersede args =>
      baseOf host args.baseVersion
  | .deprecate args => baseOf host args.baseVersion
  | .supersede args => fun _ => args.baseVersion
  | .merge _ => fun _ => none
  | .assert _ | .consolidate _ => baseOf host none

/-- Does the call read, change and write one document? -/
def Call.single : Call → Bool
  | .write _ | .merge _ => false
  | _ => true

/-- **What each single-document tool does to its document.** -/
def Changes (host : Host B) (s : Setting) (call : Call) (target : Target B)
    (r r' : Reading) : Prop :=
  match call with
  | .promote _ | .setConfidence _ _ | .consolidate _ => r' = r
  | .deprecate args => r' = { r with supersededBy := args.supersededBy }
  | .supersede args => r' = { r with supersededBy := some args.newPath }
  | .unsupersede _ => r' = { r with supersededBy := none }
  | .setTier args tier => r' = { r with tier := some tier }
      ∧ (r.tier = some .manual → tier ≠ .manual → isHuman args.agent = true)
  | .append args => r'.body = grown r.body (Text.trim args.sectionText)
      ∧ r'.tier = asChoice ((appendRecord host s args target.parsed.frontmatter).1.lookup
          "tier")
      ∧ r'.positions =
          (let v := (appendRecord host s args target.parsed.frontmatter).1.lookup "positions"
           if missing v then r.positions else positionsIn v)
  | .patch args => ∃ body, Updates host s (patchWrite host args target body) r r'
      ∧ (args.edits = [] → r'.body = r.body)
      ∧ (LeavesPositions host.config → r'.positions = r.positions)
  | .assert _ => ∃ principal, (∀ a ∈ s.access, a.user = principal)
      ∧ r' = { r with positions := r'.positions }
      ∧ Kept principal (r.positions.getD []) (r'.positions.getD [])
      ∧ Carried (r.positions.getD []) (r'.positions.getD [])
  | .write _ | .merge _ => False

/-- **A single-document call that writes** rewrites the document it loaded, anchored
    to the version it declares, and changes what its tool changes. -/
theorem attempt_changes {call : Call} (hsingle : call.single = true)
    (h : attempt host s call files docs = .ok (.write plan)) :
    ∃ target text r r', Rewrite host files call.path (call.base host) plan target text r r'
      ∧ Changes host s call target r r' := by
  cases call with
  | write args => cases hsingle
  | merge args => cases hsingle
  | promote args =>
      obtain ⟨target, text, r, hrw⟩ := vaultPromote_rewrite h
      exact ⟨target, text, r, r, hrw, rfl⟩
  | setConfidence args confidence =>
      obtain ⟨target, text, r, hrw⟩ := vaultSetConfidence_rewrite h
      exact ⟨target, text, r, r, hrw, rfl⟩
  | consolidate args =>
      obtain ⟨target, text, r, hrw⟩ := vaultConsolidate_rewrite h
      exact ⟨target, text, r, r, hrw, rfl⟩
  | «deprecate» args =>
      obtain ⟨target, text, r, hrw, _⟩ := vaultDeprecate_rewrite h
      exact ⟨target, text, r, _, hrw, rfl⟩
  | supersede args =>
      obtain ⟨target, text, r, newRel, hrw, _, _⟩ := vaultSupersede_rewrite h
      exact ⟨target, text, r, _, hrw, rfl⟩
  | unsupersede args =>
      obtain ⟨target, text, r, hrw⟩ := vaultUnsupersede_rewrite h
      exact ⟨target, text, r, _, hrw, rfl⟩
  | setTier args tier =>
      obtain ⟨target, text, r, hrw, hguard⟩ := vaultSetTier_rewrite h
      exact ⟨target, text, r, _, hrw, rfl, hguard⟩
  | append args =>
      obtain ⟨target, text, r, r', hrw, hchanges⟩ := vaultAppend_rewrite h
      exact ⟨target, text, r, r', hrw, hchanges⟩
  | patch args =>
      obtain ⟨target, text, r, r', body, hrw, hchanges⟩ := vaultPatch_rewrite h
      exact ⟨target, text, r, r', hrw, body, hchanges⟩
  | assert args =>
      obtain ⟨target, text, r, r', principal, hrw, hchanges⟩ := vaultAssert_rewrite h
      exact ⟨target, text, r, r', hrw, principal, hchanges⟩

/-! ## Files under paths -/

/-- The frontmatter block of the file a path argument names. -/
def recordAt (host : Host B) (files : Files B) (rawPath : String) : Option Raw :=
  ((host.resolve rawPath).toOption.bind fun path => files.lookup path).bind fun file =>
    (host.codec.parse file).toOption.map Prod.fst

theorem recordAt_of_loaded {rawPath : String} {target : Target B}
    (h : Loaded host files rawPath target) :
    recordAt host files rawPath = some target.parsed.raw := by
  unfold recordAt
  rw [h.resolve]
  show (((files.lookup target.relPath).bind fun file =>
    (host.codec.parse file).toOption.map Prod.fst) : Option Raw) = _
  rw [h.file, Option.bind_some, h.parse]
  rfl

def readAt (host : Host B) (files : Files B) (path : String) : Option Reading :=
  (files.lookup path).bind (read host.codec)

theorem readAt_of_lookup {path : String} {file : B} (h : files.lookup path = some file) :
    readAt host files path = read host.codec file := by
  unfold readAt
  rw [h]
  rfl

theorem readAt_writeAll_of_not_mem {writes : List (String × B)} {path : String}
    (h : path ∉ writes.map Prod.fst) :
    readAt host (writeAll files writes) path = readAt host files path := by
  unfold readAt
  rw [lookup_writeAll_of_not_mem h]

theorem readAt_writeAll_of_mem {writes : List (String × B)}
    (hnd : (writes.map Prod.fst).Nodup) {path : String} {text : B} (h : (path, text) ∈ writes) :
    readAt host (writeAll files writes) path = read host.codec text :=
  readAt_of_lookup (lookup_writeAll_of_mem hnd h)

def held (host : Host B) (file : B) : List Position :=
  ((read host.codec file).bind Reading.positions).getD []

theorem held_of_read {file : B} {r : Reading} (h : read host.codec file = some r) :
    held host file = r.positions.getD [] := by
  unfold held
  rw [h]
  rfl

end Tools

end Write
