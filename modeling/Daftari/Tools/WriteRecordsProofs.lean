import Daftari.Tools.WriteEffectsProofs

/-! # What a write re-serialises, and what its log entry is made of

    Every landed write hands the write core a text and, for the provenance entry, the old and the
    new typed frontmatter and a flag for the body.  The text is always a document serialised over a
    raw record: here each tool's write is such a `Change`.

    * `changesOf`: the changes of any call;
    * `attempt_changesOf`: **what a call writes is its changes, serialised**. -/

namespace Write

open Frontmatter Positions SupersedeChains Rbac

/-- One document of a landed write: what is handed to `serializeDocument`, and what
    to the provenance entry. -/
structure Change where
  relPath : String
  action : String
  /-- The document before; none where its frontmatter is not known. -/
  before : Option ParsedDocument
  newFrontmatter : Raw
  body : List Char
  raw : Raw
  bodyChanged : Bool

section Changes

variable {B : Type} (host : Host B) (s : Setting)

def Change.fileText (c : Change) : B :=
  serializeDocument host.codec c.newFrontmatter c.body host.config.extensions c.raw

/-- A frontmatter-only change: the body is kept (`performFrontmatterWrite`). -/
def frontmatterChange (target : Target B) (fm : Fields) (action : String) : Change where
  relPath := target.relPath
  action := action
  before := some target.parsed
  newFrontmatter := fm.toRaw
  body := target.parsed.content
  raw := target.parsed.raw
  bodyChanged := false

/-! ## Each tool's changes -/

def writeChanges (args : WriteArgs) (patch : Option B) (files : Files B) :
    Except String (List Change) := do
  let tool := if patch.isSome then "vault_patch" else "vault_write"
  let relPath ← host.resolve args.path
  let doc ← existingDocument host tool args.path (patch <|> files.lookup relPath)
  let composed ← composeWrite host s args doc
  let created := (doc.map fun doc => doc.frontmatter.created).getD composed.1.created
  .ok [{ relPath := relPath
         action := if patch.isSome then "patch" else if doc.isSome then "update" else "create"
         before := doc
         newFrontmatter := (stamp s { composed.1 with created := created } args.agent).toRaw
         body := args.body
         raw := applyExtensionDefaults composed.2 host.config.extensions
         bodyChanged := doc.all fun doc => !sameBody doc.content args.body }]

def patchChanges (args : PatchArgs) (files : Files B) : Except String (List Change) := do
  let target ← loadTargetDocument host "vault_patch" args.path files
  let body ← applyBodyEdits 0 target.parsed.content args.edits
  writeChanges host s (patchWrite host args target body) (some target.text) files

def appendChanges (args : AppendArgs) (files : Files B) : Except String (List Change) := do
  let target ← loadTargetDocument host "vault_append" args.path files
  .ok [{ relPath := target.relPath
         action := "append"
         before := some target.parsed
         newFrontmatter := (appendRecord host s args target.parsed.frontmatter).1
         body := appendSection target.parsed.content args.sectionText
         raw := target.parsed.raw
         bodyChanged := true }]

def promoteChanges (args : LifecycleArgs) (files : Files B) : Except String (List Change) := do
  let target ← loadTargetDocument host "vault_promote" args.path files
  .ok [frontmatterChange target
    (stamp s { target.parsed.frontmatter with status := .canonical } args.agent) "promote"]

def deprecateChanges (args : DeprecateArgs) (files : Files B) :
    Except String (List Change) := do
  let boundary ← readBoundary "vault_deprecate" args.boundary
  let target ← loadTargetDocument host "vault_deprecate" args.path files
  let fm := target.parsed.frontmatter
  let validUntil ← closingUntil fm boundary "vault_deprecate" args.path
  .ok [frontmatterChange target
    (stamp s { fm with
      status := .deprecated
      supersededBy := args.supersededBy
      validUntil := validUntil <|> fm.validUntil } args.agent) "deprecate"]

def setConfidenceChanges (args : LifecycleArgs) (confidence : Confidence) (files : Files B) :
    Except String (List Change) := do
  let target ← loadTargetDocument host "vault_set_confidence" args.path files
  .ok [frontmatterChange target
    (stamp s { target.parsed.frontmatter with confidence := confidence } args.agent)
    "confidence-set"]

def setTierChanges (args : LifecycleArgs) (tier : Tier) (files : Files B) :
    Except String (List Change) := do
  let target ← loadTargetDocument host "vault_set_tier" args.path files
  .ok [frontmatterChange target
    (stamp s { target.parsed.frontmatter with tier := some tier } args.agent) "tier-set"]

def unsupersedeChanges (args : LifecycleArgs) (files : Files B) :
    Except String (List Change) := do
  let target ← loadTargetDocument host "vault_unsupersede" args.path files
  .ok [frontmatterChange target
    (stamp s { target.parsed.frontmatter with status := .draft, supersededBy := none }
      args.agent) "unsupersede"]

def supersedeChanges (args : SupersedeArgs) (files : Files B) :
    Except String (List Change) := do
  let boundary ← readBoundary "vault_supersede" args.boundary
  let target ← loadTargetDocument host "vault_supersede" args.oldPath files
  let fm := target.parsed.frontmatter
  let validUntil ← closingUntil fm boundary "vault_supersede" args.oldPath
  .ok [frontmatterChange target
    (stamp s { fm with
      status := .superseded
      supersededBy := some args.newPath
      validUntil := validUntil <|> fm.validUntil } args.agent) "supersede"]

def assertChanges (args : AssertArgs) (files : Files B) : Except String (List Change) := do
  let principal ← positionPrincipal s "vault_assert"
    "assert a position for another principal" args.principal
  let target ← loadTargetDocument host "vault_assert" args.path files
  .ok [frontmatterChange target
    (assertFrontmatter s args principal target.parsed.frontmatter) "assert"]

def consolidateChanges (args : ConsolidateArgs) (files : Files B) :
    Except String (List Change) := do
  let ratifier ← positionPrincipal s "vault_consolidate" "ratify as another principal"
    args.principal
  let target ← loadTargetDocument host "vault_consolidate" args.path files
  .ok [frontmatterChange target
    (consolidateFrontmatter s args ratifier target.parsed.frontmatter) "consolidate"]

/-- The change of a merge's source that is not its target. -/
def sourceChanges (args : MergeArgs) (boundary : Option String) (targetRel path : String)
    (source : Target B) : Except String (List Change) :=
  if source.relPath = targetRel then .ok []
  else do
    let fm := source.parsed.frontmatter
    let sourceUntil ← closingUntil fm boundary "vault_merge" path
    .ok [frontmatterChange source
      (stamp s { fm with
        status := .superseded
        supersededBy := some args.targetPath
        validUntil := sourceUntil <|> fm.validUntil } args.agent) "supersede"]

def mergeChanges (args : MergeArgs) (files : Files B) : Except String (List Change) := do
  let boundary ← readBoundary "vault_merge" args.boundary
  let sources ← loadSources host args files
  let targetRel ← host.resolve args.targetPath
  let old := (files.lookup targetRel).bind fun text =>
    (parseDocument host.codec host.json text).toOption
  let target ← composeTarget host s args sources.1 sources.2 old
  let changeA ← sourceChanges s args boundary targetRel args.pathA sources.1
  let changeB ← sourceChanges s args boundary targetRel args.pathB sources.2
  .ok ({ relPath := targetRel
         action := "merge"
         before := old
         newFrontmatter := target.1.toRaw
         body := args.body
         raw := applyExtensionDefaults target.2 host.config.extensions
         bodyChanged := true } :: (changeA ++ changeB))

def changesOf (call : Call) (files : Files B) : Except String (List Change) :=
  match call with
  | .write args => writeChanges host s args none files
  | .patch args => patchChanges host s args files
  | .append args => appendChanges host s args files
  | .promote args => promoteChanges host s args files
  | .deprecate args => deprecateChanges host s args files
  | .setConfidence args confidence => setConfidenceChanges host s args confidence files
  | .setTier args tier => setTierChanges host s args tier files
  | .supersede args => supersedeChanges host s args files
  | .unsupersede args => unsupersedeChanges host s args files
  | .merge args => mergeChanges host s args files
  | .assert args => assertChanges host s args files
  | .consolidate args => consolidateChanges host s args files

def writesOf (changes : List Change) : List (String × B) :=
  changes.map fun c => (c.relPath, c.fileText host)

end Changes

section Attempts

variable {B : Type} {host : Host B} {s : Setting} {files docs : Files B} {plan : Plan B}

/-! ## The tools write their changes -/

theorem bind_of_ok {ε α β : Type} {x : Except ε α} {a : α} (h : x = .ok a)
    (f : α → Except ε β) : (x >>= f) = f a := by
  rw [h]
  rfl

theorem writes_of_frontmatterWrite {target : Target B} {fm : Fields}
    {baseVersion runId : Option String} {edits : List Pointer}
    (h : performFrontmatterWrite host s target fm baseVersion runId edits
      = .ok (.write plan)) (action : String) :
    plan.writes = writesOf host [frontmatterChange target fm action] :=
  (performWrite_eq_ok h).2.1

theorem writeDirect_changes {args : WriteArgs} {patch : Option B} {relPath : String}
    (hresolve : host.resolve args.path = .ok relPath)
    (h : writeDirect host s args patch.isSome relPath (patch <|> files.lookup relPath)
      = .ok (.write plan)) : ∃ changes, writeChanges host s args patch files = .ok changes
      ∧ plan.writes = writesOf host changes := by
  unfold writeDirect at h
  simp only [bind_eq_ok_iff] at h
  obtain ⟨doc, hdoc, _, _, composed, hcomposed, _, _, _, _, h⟩ := h
  unfold writeChanges
  rw [bind_of_ok hresolve, bind_of_ok hdoc, bind_of_ok hcomposed]
  exact ⟨_, rfl, (performWrite_eq_ok h).2.1⟩

theorem writeDocument_changes {args : WriteArgs} {patch : Option B}
    (h : writeDocument host s args patch files = .ok (.write plan)) :
    ∃ changes, writeChanges host s args patch files = .ok changes
      ∧ plan.writes = writesOf host changes := by
  obtain ⟨relPath, hresolve, hdirect⟩ := direct_of_writeDocument h
  exact writeDirect_changes hresolve hdirect

theorem vaultPatch_changes {args : PatchArgs}
    (h : vaultPatch host s args files = .ok (.write plan)) :
    ∃ changes, patchChanges host s args files = .ok changes
      ∧ plan.writes = writesOf host changes := by
  unfold vaultPatch at h
  simp only [bind_eq_ok_iff] at h
  obtain ⟨_, _, _, _, _, _, _, _, _, _, target, hload, _, _, _, _, body, hbody, h⟩ := h
  obtain ⟨changes, hchanges, hwrites⟩ := writeDocument_changes h
  refine ⟨changes, ?_, hwrites⟩
  unfold patchChanges
  rw [bind_of_ok hload, bind_of_ok hbody]
  exact hchanges

theorem vaultAppend_changes {args : AppendArgs}
    (h : vaultAppend host s args files = .ok (.write plan)) :
    ∃ changes, appendChanges host s args files = .ok changes
      ∧ plan.writes = writesOf host changes := by
  unfold vaultAppend at h
  simp only [bind_eq_ok_iff] at h
  obtain ⟨_, _, _, _, target, hload, _, _, _, _, h⟩ := h
  unfold appendChanges
  rw [bind_of_ok hload]
  exact ⟨_, rfl, (performWrite_eq_ok h).2.1⟩

variable {args : LifecycleArgs}

theorem vaultPromote_changes (h : vaultPromote host s args files = .ok (.write plan)) :
    ∃ changes, promoteChanges host s args files = .ok changes
      ∧ plan.writes = writesOf host changes := by
  unfold vaultPromote at h
  simp only [bind_eq_ok_iff] at h
  obtain ⟨_, _, _, _, _, _, target, hload, _, _, _, _, _, _, h⟩ := h
  unfold promoteChanges
  rw [bind_of_ok hload]
  exact ⟨_, rfl, writes_of_frontmatterWrite h "promote"⟩

theorem vaultDeprecate_changes {args : DeprecateArgs}
    (h : vaultDeprecate host s args files docs = .ok (.write plan)) :
    ∃ changes, deprecateChanges host s args files = .ok changes
      ∧ plan.writes = writesOf host changes := by
  unfold vaultDeprecate at h
  simp only [bind_eq_ok_iff] at h
  obtain ⟨_, _, _, _, boundary, hboundary, target, hload, _, _, validUntil, huntil, _, _, h⟩ := h
  unfold deprecateChanges
  rw [bind_of_ok hboundary, bind_of_ok hload]
  rw [bind_of_ok huntil]
  exact ⟨_, rfl, writes_of_frontmatterWrite h "deprecate"⟩

theorem vaultSetConfidence_changes {confidence : Confidence}
    (h : vaultSetConfidence host s args confidence files = .ok (.write plan)) :
    ∃ changes, setConfidenceChanges host s args confidence files = .ok changes
      ∧ plan.writes = writesOf host changes := by
  unfold vaultSetConfidence at h
  simp only [bind_eq_ok_iff] at h
  obtain ⟨_, _, _, _, target, hload, _, _, _, _, h⟩ := h
  unfold setConfidenceChanges
  rw [bind_of_ok hload]
  exact ⟨_, rfl, writes_of_frontmatterWrite h "confidence-set"⟩

theorem vaultSetTier_changes {tier : Tier}
    (h : vaultSetTier host s args tier files = .ok (.write plan)) :
    ∃ changes, setTierChanges host s args tier files = .ok changes
      ∧ plan.writes = writesOf host changes := by
  unfold vaultSetTier at h
  simp only [bind_eq_ok_iff] at h
  obtain ⟨_, _, _, _, target, hload, _, _, _, _, _, _, h⟩ := h
  unfold setTierChanges
  rw [bind_of_ok hload]
  exact ⟨_, rfl, writes_of_frontmatterWrite h "tier-set"⟩

theorem vaultUnsupersede_changes (h : vaultUnsupersede host s args files = .ok (.write plan)) :
    ∃ changes, unsupersedeChanges host s args files = .ok changes
      ∧ plan.writes = writesOf host changes := by
  unfold vaultUnsupersede at h
  simp only [bind_eq_ok_iff] at h
  obtain ⟨_, _, _, _, _, _, target, hload, _, _, _, _, h⟩ := h
  unfold unsupersedeChanges
  rw [bind_of_ok hload]
  exact ⟨_, rfl, writes_of_frontmatterWrite h "unsupersede"⟩

theorem vaultSupersede_changes {args : SupersedeArgs}
    (h : vaultSupersede host s args files docs = .ok (.write plan)) :
    ∃ changes, supersedeChanges host s args files = .ok changes
      ∧ plan.writes = writesOf host changes := by
  unfold vaultSupersede at h
  simp only [bind_eq_ok_iff] at h
  obtain ⟨_, _, _, _, boundary, hboundary, _, _, _, _, _, _, _, _, _, _, target, hload, _, _,
    _, _, validUntil, huntil, _, _, h⟩ := h
  unfold supersedeChanges
  rw [bind_of_ok hboundary, bind_of_ok hload]
  rw [bind_of_ok huntil]
  exact ⟨_, rfl, writes_of_frontmatterWrite h "supersede"⟩

theorem vaultAssert_changes {args : AssertArgs}
    (h : vaultAssert host s args files = .ok (.write plan)) :
    ∃ changes, assertChanges host s args files = .ok changes
      ∧ plan.writes = writesOf host changes := by
  unfold vaultAssert at h
  simp only [bind_eq_ok_iff] at h
  obtain ⟨_, _, principal, hprincipal, _, _, target, hload, h⟩ := h
  split at h
  · cases h
  · unfold assertChanges
    rw [bind_of_ok hprincipal, bind_of_ok hload]
    exact ⟨_, rfl, writes_of_frontmatterWrite h "assert"⟩

theorem vaultConsolidate_changes {args : ConsolidateArgs}
    (h : vaultConsolidate host s args files = .ok (.write plan)) :
    ∃ changes, consolidateChanges host s args files = .ok changes
      ∧ plan.writes = writesOf host changes := by
  unfold vaultConsolidate at h
  simp only [bind_eq_ok_iff] at h
  obtain ⟨_, _, _, _, ratifier, hratifier, _, _, _, _, target, hload, _, _, h⟩ := h
  unfold consolidateChanges
  rw [bind_of_ok hratifier, bind_of_ok hload]
  exact ⟨_, rfl, writes_of_frontmatterWrite h "consolidate"⟩

theorem supersedeSource_changes {args : MergeArgs} {boundary : Option String}
    {targetRel path : String} {source : Target B} {writes : List (MergeWrite B)}
    (h : supersedeSource host s args boundary targetRel path source = .ok writes) :
    ∃ changes, sourceChanges s args boundary targetRel path source = .ok changes
      ∧ writes.map (fun w => (w.relPath, w.fileText)) = writesOf host changes := by
  unfold supersedeSource at h
  unfold sourceChanges
  split at h
  · rename_i hsame
    obtain rfl := Except.ok.inj h
    exact ⟨[], if_pos hsame, rfl⟩
  · rename_i hne
    obtain ⟨sourceUntil, huntil, h⟩ := bind_eq_ok h
    obtain rfl := Except.ok.inj h
    rw [if_neg hne]
    rw [bind_of_ok huntil]
    exact ⟨_, rfl, rfl⟩

theorem vaultMerge_changes {args : MergeArgs}
    (h : vaultMerge host s args files docs = .ok (.write plan)) :
    ∃ changes, mergeChanges host s args files = .ok changes
      ∧ plan.writes = writesOf host changes := by
  unfold vaultMerge at h
  simp only [bind_eq_ok_iff] at h
  obtain ⟨_, _, _, _, boundary, hboundary, _, _, sources, hsources, targetRel, hresolve, _, _,
    _, _, _, _, _, _, _, _, _, _, target, htarget, writeA, hA, writeB, hB, _, _, h⟩ := h
  obtain ⟨changeA, hchangeA, hwriteA⟩ := supersedeSource_changes hA
  obtain ⟨changeB, hchangeB, hwriteB⟩ := supersedeSource_changes hB
  unfold mergeChanges
  rw [bind_of_ok hboundary, bind_of_ok hsources, bind_of_ok hresolve]
  rw [bind_of_ok htarget, bind_of_ok hchangeA, bind_of_ok hchangeB]
  refine ⟨_, rfl, ?_⟩
  split at h
  · cases h
  · obtain rfl := Outcome.write.inj (Except.ok.inj h)
    dsimp only
    rw [List.map_cons, List.map_append, hwriteA, hwriteB]
    unfold writesOf
    rw [List.map_cons, List.map_append]
    rfl

/-- **What a call writes is its changes, serialised.** -/
theorem attempt_changesOf {call : Call} (h : attempt host s call files docs = .ok (.write plan)) :
    ∃ changes, changesOf host s call files = .ok changes ∧ plan.writes = writesOf host changes := by
  match call, h with
  | .write args, h => exact writeDocument_changes h
  | .patch args, h => exact vaultPatch_changes h
  | .append args, h => exact vaultAppend_changes h
  | .promote args, h => exact vaultPromote_changes h
  | .deprecate args, h => exact vaultDeprecate_changes h
  | .setConfidence args confidence, h => exact vaultSetConfidence_changes h
  | .setTier args tier, h => exact vaultSetTier_changes h
  | .supersede args, h => exact vaultSupersede_changes h
  | .unsupersede args, h => exact vaultUnsupersede_changes h
  | .merge args, h => exact vaultMerge_changes h
  | .assert args, h => exact vaultAssert_changes h
  | .consolidate args, h => exact vaultConsolidate_changes h

end Attempts

end Write
