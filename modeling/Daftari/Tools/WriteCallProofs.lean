import Daftari.Tools.WriteProofs

/-! # Write calls — the merge, the position tools, the core under the lock

    The last three tools, the call that puts all twelve together, and the second
    half of the write core: under the lock every version a plan was composed from
    is re-hashed, then the leak gate answers, then the files are written.

    * `Call`, `attempt`: one attempt of any tool;
    * `land`, `land_eq_ok`: **what a landing requires and what it writes**. -/

namespace Write

open Frontmatter Positions SupersedeChains Rbac

section Tools

variable {B : Type} (host : Host B) (s : Setting)

/-! ## vault_merge -/

/-- `vault_merge`'s arguments. -/
structure MergeArgs where
  pathA : String
  pathB : String
  targetPath : String
  agent : String
  body : List Char
  frontmatter : Raw
  nodup : (Assoc.keys frontmatter).Nodup
  boundary : Option String
  runId : Option String

def mergedReaders (rawA rawB : Raw) : List String :=
  unionStrings [] (stringsIn (rawA.lookup "readers") ++ stringsIn (rawB.lookup "readers"))

/-- Reader parentage fusion: the union of the sources' readers. -/
def fuseMergeReaders (rawA rawB targetRaw : Raw) : Raw :=
  let union := mergedReaders rawA rawB
  if union = [] then Assoc.remove targetRaw ["readers"]
  else dropScalars union.length (Assoc.set targetRaw "readers" (texts union))

/-- Lineage fusion, keeping `readers` consistent with it. -/
def fuseMergeLineage (rawA rawB targetRaw : Raw) : Raw :=
  let lineageA := stringsIn (rawA.lookup "reader_lineage")
  let lineageB := stringsIn (rawB.lookup "reader_lineage")
  if lineageA = [] ∧ lineageB = [] then Assoc.remove targetRaw ["reader_lineage"]
  else
    let lineage := unionLineage lineageA lineageB
    let fused := Assoc.set targetRaw "reader_lineage" (texts lineage)
    if readersFromLineage lineage = [] then fused
    else
      let combined := unionStrings (readersFromLineage lineage) (mergedReaders rawA rawB)
      dropScalars combined.length (Assoc.set fused "readers" (texts combined))

/-- `targetRaw`: what path_a has, the overrides over it, the server's stamps. -/
def mergeRaw (args : MergeArgs) (created : String) (rawA rawB : Raw) : Raw :=
  let stamps : Raw :=
    [("created", .str created), ("updated", .str s.today), ("updated_by", .str args.agent)]
  let base := assign (assign (Assoc.set rawA "provenance" (.str "synthesized"))
    args.frontmatter) stamps
  fuseMergeLineage rawA rawB (fuseMergeReaders rawA rawB base)

structure MergeWrite (B : Type) where
  relPath : String
  fileText : B
  edit : Option String

/-- A source that is not the target is superseded by it. -/
def supersedeSource (args : MergeArgs) (boundary : Option String) (targetRel path : String)
    (source : Target B) : Except String (List (MergeWrite B)) :=
  if source.relPath = targetRel then .ok []
  else do
    let fm := source.parsed.frontmatter
    let sourceUntil ← closingUntil fm boundary "vault_merge" path
    let superseded := stamp s { fm with
      status := .superseded
      supersededBy := some args.targetPath
      validUntil := sourceUntil <|> fm.validUntil } args.agent
    .ok [{ relPath := source.relPath
           fileText := serializeDocument host.codec superseded.toRaw source.parsed.content
             host.config.extensions source.parsed.raw
           edit := some targetRel }]

/-- The versions a merge was composed from; a target that is a source keeps the source's version. -/
def mergeSnapshots (a b : Target B) (targetRel : String) (existing : Option B) :
    List (String × Option String) :=
  let sources := [(a.relPath, some (host.sha256Hex a.text)),
    (b.relPath, some (host.sha256Hex b.text))]
  if targetRel = a.relPath ∨ targetRel = b.relPath then sources
  else sources ++ [(targetRel, existing.map host.sha256Hex)]

def loadSources (args : MergeArgs) (files : Files B) :
    Except String (Target B × Target B) := do
  let relA ← host.resolve args.pathA
  let relB ← host.resolve args.pathB
  let _ ← host.resolve args.targetPath
  refuse (relA = relB) "vault_merge: path_a and path_b must differ"
  refuse (files.lookup relA).isNone ("vault_merge: document not found: " ++ args.pathA)
  refuse (files.lookup relB).isNone ("vault_merge: document not found: " ++ args.pathB)
  let a ← loadTargetDocument host "vault_merge" args.pathA files
  let b ← loadTargetDocument host "vault_merge" args.pathB files
  .ok (a, b)

/-- The tier guard of a merge, over the old target when its file parses. -/
def checkMergeTier (args : MergeArgs) (old : Option ParsedDocument) : Except String Unit :=
  match old with
  | none => .ok ()
  | some doc =>
      checkTierGuard "vault_merge" args.targetPath doc.frontmatter.tier doc.content
        args.body args.agent

/-- The merged target, typed and raw; the old target is what parses of its file. -/
def composeTarget (args : MergeArgs) (a b : Target B) (old : Option ParsedDocument) :
    Except String (Fields × Raw) := do
  let created := ((old.map fun doc => doc.frontmatter).getD a.parsed.frontmatter).created
  checkMergeTier args old
  let raw := mergeRaw s args created a.parsed.raw b.parsed.raw
  let checked := validateFrontmatter host.json raw host.config.extensions
  refuse (checked.2 ≠ [])
    ("vault_merge: target frontmatter is invalid: " ++ summary checked.2)
  .ok (stamp s { checked.1 with created := created } args.agent, raw)

/-- `vaultMerge`, up to the locks. -/
def vaultMerge (args : MergeArgs) (files docs : Files B) : Except String (Outcome B) := do
  denyIfProposeOnly s "vault_merge"
  requireTexts "vault_merge" [("path_a", args.pathA), ("path_b", args.pathB),
    ("target_path", args.targetPath), ("agent", args.agent)]
  let boundary ← readBoundary "vault_merge" args.boundary
  refuse (Text.trim args.body = [])
    "vault_merge requires a non-empty string 'body' argument"
  let sources ← loadSources host args files
  let a := sources.1
  let b := sources.2
  let targetRel ← host.resolve args.targetPath
  refuseIgnoredPath host a.relPath
  refuseIgnoredPath host b.relPath
  refuseIgnoredPath host targetRel
  requireWriteAccess s (collectionOf args.pathA a.parsed.frontmatter)
  requireWriteAccess s (collectionOf args.pathB b.parsed.frontmatter)
  requireWriteAccess s (targetCollection host.root args.targetPath)
  let existing := files.lookup targetRel
  let old := existing.bind fun text =>
    (parseDocument host.codec host.json text).toOption
  let target ← composeTarget host s args a b old
  let writeA ← supersedeSource host s args boundary targetRel args.pathA a
  let writeB ← supersedeSource host s args boundary targetRel args.pathB b
  let writes : List (MergeWrite B) :=
    { relPath := targetRel
      fileText := serializeDocument host.codec target.1.toRaw args.body
        host.config.extensions (applyExtensionDefaults target.2 host.config.extensions)
      edit := target.1.supersededBy } :: (writeA ++ writeB)
  let edits := writes.map fun w => (w.relPath, w.edit)
  refuseSupersedeLoop host s docs edits
    ("vault_merge: refused: " ++ args.targetPath ++ " would land on a superseded_by loop "
      ++ "through its sources. Clear its inherited superseded_by with a frontmatter "
      ++ "override. Nothing was written.")
  if host.config.shadowMode then .ok .shadow
  else
    .ok (.write
      { snapshots := mergeSnapshots host a b targetRel existing
        stale := fun relPath => "stale merge: " ++ relPath
          ++ " changed after vault_merge read it; retry against the current documents"
        leak := (checkLeakGate host s args.runId).map fun reason =>
          "leak gate: " ++ args.targetPath ++ ": " ++ reason
        writes := writes.map fun w => (w.relPath, w.fileText)
        edits := edits })

/-! ## vault_assert and vault_consolidate -/

/-- The identity of a position tool's caller: the authenticated user, or the
    principal an operator names. -/
def callerPrincipal (tool foreign : String) (principal : Option String) : Except String String :=
  match s.access, principal with
  | some a, some p =>
      if p = a.user then .ok a.user
      else .error (tool ++ ": cannot " ++ foreign ++ " (authenticated as '" ++ a.user
        ++ "')")
  | some a, none => .ok a.user
  | none, some p => .ok p
  | none, none =>
      .error (tool ++ ": no access context — an explicit 'principal' argument is "
        ++ "required (recorded as unverified)")

/-- The principal that is recorded; `unknown` is nobody's. -/
def positionPrincipal (tool foreign : String) (principal : Option String) :
    Except String String := do
  let who ← callerPrincipal s tool foreign principal
  refuse (who = "unknown")
    (tool ++ ": 'unknown' is reserved for the legacy snapshot principal (pos-000)")
  .ok who

/-- `vault_assert`'s arguments. -/
structure AssertArgs where
  path : String
  agent : String
  stance : Stance
  confidence : Confidence
  provenance : Provenance
  statement : Option String
  validFrom : Option String
  sources : List String
  principal : Option String
  runId : Option String

/-- What the asserting principal hands to `applyAssert`. -/
def assertInput (args : AssertArgs) (principal : String) : AssertInput where
  principal := principal
  stance := args.stance
  statement := args.statement
  confidence := args.confidence
  provenance := args.provenance
  validFrom := args.validFrom
  sources := args.sources
  created := s.today

def assertFrontmatter (args : AssertArgs) (principal : String) (fm : Fields) : Fields :=
  let positions := applyAssert (fm.positions.getD [legacySnapshot fm])
    (assertInput s args principal)
  let contested := isContested positions
  stamp s { fm with
    positions := some positions
    contested := some contested
    confidence := if contested ∧ fm.orgPosition = none then .low else fm.confidence }
    args.agent

/-- `vaultAssert`, one attempt. -/
def vaultAssert (args : AssertArgs) (files : Files B) : Except String (Outcome B) := do
  requireTexts "vault_assert" [("path", args.path), ("agent", args.agent)]
  let principal ← positionPrincipal s "vault_assert"
    "assert a position for another principal" args.principal
  requireWriteAccess s (targetCollection host.root args.path)
  let target ← loadTargetDocument host "vault_assert" args.path files
  if s.access.any (fun a => isProposeOnly a.role) then .ok .staged
  else
    performFrontmatterWrite host s target
      (assertFrontmatter s args principal target.parsed.frontmatter)
      (some (host.sha256Hex target.text)) args.runId []

/-- How `vault_consolidate` may resolve one tension on the way. -/
inductive ConsolidateKind where
  | superseded
  | corrected
  | accepted
deriving DecidableEq

/-- `vault_consolidate`'s arguments. -/
structure ConsolidateArgs where
  path : String
  agent : String
  stance : Stance
  confidence : Confidence
  principal : Option String
  resolveTension : Option (String × ConsolidateKind)
  resolveDissent : Bool
  runId : Option String

def checkResolveTension (relPath : String) (dissent : List String) :
    Option (String × ConsolidateKind) → Except String Unit
  | none => .ok ()
  | some (id, kind) => do
      refuse (id ∉ s.openTensions relPath)
        ("vault_consolidate: resolve_tension does not name an open positional tension on "
          ++ "this document")
      refuse (kind = .accepted ∧ dissent = [])
        ("vault_consolidate: resolve_tension kind 'accepted' requires standing dissent")

def consolidateFrontmatter (args : ConsolidateArgs) (ratifier : String) (fm : Fields) : Fields :=
  stamp s { fm with
    orgPosition := some
      { stance := args.stance, confidence := args.confidence, ratifiedBy := ratifier,
        ratifiedAt := s.today
        dissent := dissentIds (fm.positions.getD []) args.stance }
    confidence := args.confidence
    contested := fm.positions.map isContested } args.agent

/-- A proposer is not a ratifier. -/
def denyProposer : Except String Unit :=
  match s.access with
  | none => .ok ()
  | some a =>
      refuse (isProposeOnly a.role) ("access denied: role '" ++ a.roleName
        ++ "' is propose-only — it cannot consolidate")

/-- `vaultConsolidate`, one attempt. -/
def vaultConsolidate (args : ConsolidateArgs) (files : Files B) :
    Except String (Outcome B) := do
  requireTexts "vault_consolidate" [("path", args.path), ("agent", args.agent)]
  refuse (args.resolveDissent ∧ args.stance = .qualify)
    ("vault_consolidate: resolve_tensions with stance 'qualify' — qualify opposes nothing, "
      ++ "so there is no dissent to adjudicate")
  let ratifier ← positionPrincipal s "vault_consolidate" "ratify as another principal"
    args.principal
  denyProposer s
  requireGrant s canRatify "consolidate"
  let target ← loadTargetDocument host "vault_consolidate" args.path files
  let fm := target.parsed.frontmatter
  checkResolveTension s target.relPath (dissentIds (fm.positions.getD []) args.stance)
    args.resolveTension
  performFrontmatterWrite host s target (consolidateFrontmatter s args ratifier fm)
    (some (host.sha256Hex target.text)) args.runId []

/-! ## Calls -/

inductive Call where
  | write (args : WriteArgs)
  | patch (args : PatchArgs)
  | append (args : AppendArgs)
  | promote (args : LifecycleArgs)
  | deprecate (args : DeprecateArgs)
  | setConfidence (args : LifecycleArgs) (confidence : Confidence)
  | setTier (args : LifecycleArgs) (tier : Tier)
  | supersede (args : SupersedeArgs)
  | unsupersede (args : LifecycleArgs)
  | merge (args : MergeArgs)
  | assert (args : AssertArgs)
  | consolidate (args : ConsolidateArgs)

/-- One attempt of a call, over the files it read and, for the loop test, the
    documents it loaded. -/
def attempt (call : Call) (files docs : Files B) : Except String (Outcome B) :=
  match call with
  | .write args => vaultWrite host s args files
  | .patch args => vaultPatch host s args files
  | .append args => vaultAppend host s args files
  | .promote args => vaultPromote host s args files
  | .deprecate args => vaultDeprecate host s args files docs
  | .setConfidence args confidence => vaultSetConfidence host s args confidence files
  | .setTier args tier => vaultSetTier host s args tier files
  | .supersede args => vaultSupersede host s args files docs
  | .unsupersede args => vaultUnsupersede host s args files
  | .merge args => vaultMerge host s args files docs
  | .assert args => vaultAssert host s args files
  | .consolidate args => vaultConsolidate host s args files

/-- May a stale attempt be retried once?  Only a tool that declares the loaded
    version itself retries (`retryOnStale`, `retryOnStaleIfDefaulted`). -/
def retries : Call → Nat
  | .patch args => if args.baseVersion.isNone then 1 else 0
  | .append args => if args.baseVersion.isNone then 1 else 0
  | .promote args | .setConfidence args _ | .setTier args _ | .unsupersede args =>
      if args.baseVersion.isNone then 1 else 0
  | .deprecate args => if args.baseVersion.isNone then 1 else 0
  | .assert _ | .consolidate _ => 1
  | .write _ | .supersede _ | .merge _ => 0

/-! ## Under the lock -/

/-- The first path whose version is no longer the one the plan was composed from. -/
def stalePath (files : Files B) (snapshots : List (String × Option String)) : Option String :=
  (snapshots.find? fun e => (files.lookup e.1).map host.sha256Hex ≠ e.2).map Prod.fst

def writeAll (files : Files B) (writes : List (String × B)) : Files B :=
  writes.foldl (fun acc w => Assoc.set acc w.1 w.2) files

/-- The critical section: stale check, leak gate, writes. -/
def land (plan : Plan B) (files : Files B) : Except String (Files B) :=
  match stalePath host files plan.snapshots with
  | some relPath => .error (plan.stale relPath)
  | none =>
      match plan.leak with
      | some reason => .error reason
      | none => .ok (writeAll files plan.writes)

variable {files : Files B}

/-- **A landing** found every version it was composed from, and wrote its plan. -/
theorem land_eq_ok {plan : Plan B} {files' : Files B} (h : land host plan files = .ok files') :
    (∀ e ∈ plan.snapshots, (files.lookup e.1).map host.sha256Hex = e.2)
      ∧ files' = writeAll files plan.writes := by
  unfold land at h
  cases hs : stalePath host files plan.snapshots with
  | some relPath =>
      rw [hs] at h
      cases h
  | none =>
      rw [hs] at h
      cases hl : plan.leak with
      | some reason =>
          rw [hl] at h
          cases h
      | none =>
          rw [hl] at h
          refine ⟨?_, (Except.ok.inj h).symm⟩
          intro e he
          unfold stalePath at hs
          rw [Option.map_eq_none_iff, List.find?_eq_none] at hs
          simpa using hs e he

theorem lookup_writeAll_of_not_mem {writes : List (String × B)} {path : String}
    (h : path ∉ writes.map Prod.fst) : (writeAll files writes).lookup path = files.lookup path := by
  induction writes generalizing files with
  | nil => rfl
  | cons w writes ih =>
      rw [List.map_cons, List.mem_cons, not_or] at h
      unfold writeAll
      refine (ih h.2).trans ?_
      exact Assoc.lookup_set_of_ne _ _ h.1

theorem lookup_writeAll_of_mem {writes : List (String × B)} (hnd : (writes.map Prod.fst).Nodup)
    {path : String} {text : B} (h : (path, text) ∈ writes) :
    (writeAll files writes).lookup path = some text := by
  induction writes generalizing files with
  | nil => cases h
  | cons w writes ih =>
      obtain ⟨hw, hnd⟩ := List.nodup_cons.mp hnd
      unfold writeAll
      rcases List.mem_cons.mp h with rfl | h
      · refine (lookup_writeAll_of_not_mem hw).trans ?_
        exact Assoc.lookup_set_self _ _ _
      · exact ih hnd h

def planOf : Except String (Outcome B) → Option (Plan B)
  | .ok (.write plan) => some plan
  | _ => none

theorem planOf_eq_some {outcome : Except String (Outcome B)} {plan : Plan B}
    (h : planOf outcome = some plan) : outcome = .ok (.write plan) := by
  unfold planOf at h
  split at h
  · obtain rfl := Option.some.inj h
    rfl
  · cases h

/-- A call made while nobody else writes, and the files it leaves if it lands: one
    attempt on the files as they are, landed at once. -/
def landed (call : Call) (files : Files B) : Option (Files B) :=
  (planOf (attempt host s call files files)).bind fun plan =>
    (land host plan files).toOption

/-- **A landed call** composed a plan, and the plan was written. -/
theorem landed_eq_some {call : Call} {files' : Files B}
    (h : landed host s call files = some files') :
    ∃ plan, attempt host s call files files = .ok (.write plan)
      ∧ files' = writeAll files plan.writes := by
  obtain ⟨plan, hplan, hland⟩ := Option.bind_eq_some_iff.mp h
  refine ⟨plan, planOf_eq_some hplan, ?_⟩
  cases hl : land host plan files with
  | error e =>
      rw [hl] at hland
      cases hland
  | ok files'' =>
      rw [hl] at hland
      obtain rfl := Option.some.inj hland
      exact (land_eq_ok host hl).2

end Tools

/-! ## A host over plain files -/

def plainConfig : Config where
  ignored _ := false
  extensions := []
  transformHooks := []
  preWriteHooks := []
  shadowMode := false
  shared := false
  leakGate := .off

def sketch : Value → List Char
  | .str text => text.toList
  | .arr items => List.replicate items.length '*'
  | _ => ['-']

def plainHost (config : Config) : Host PlainFile where
  codec := plainCodec
  json _ := "value"
  sha256Hex file := String.ofList
    ('#' :: file.content ++ file.data.flatMap fun e => e.1.toList ++ sketch e.2)
  sha256Hex_ne_empty file := by
    intro h
    have := congrArg String.toList h
    simp at this
  root := []
  resolve path := .ok path
  mintDescribesPins entries := some entries
  config := config

/-- A note with the fields the schema requires, and further ones. -/
def plainNote (further : Raw) (content : String) : PlainFile :=
  plainCodec.stringify content.toList
    ([("title", .str "Note"), ("domain", .str "accumulation"),
      ("collection", .str "notes"), ("status", .str "draft"), ("confidence", .str "high"),
      ("created", .str "2026-01-01"), ("updated", .str "2026-01-01"),
      ("updated_by", .str "human:ann"), ("provenance", .str "direct")] ++ further)

def editor (user : String) : AccessContext where
  user := user
  roleName := "editor"
  role := some
    { read := ["*"], write := ["*"], promote := true, ratify := true, proposeOnly := false }

def operatorSetting (today : String) : Setting where
  access := none
  readable _ := true
  today := today
  now := today ++ "T00:00:00.000Z"
  privateReads _ := .ok 0
  openTensions _ := []

def memberSetting (access : AccessContext) (today : String) : Setting :=
  { operatorSetting today with access := some access }

end Write
