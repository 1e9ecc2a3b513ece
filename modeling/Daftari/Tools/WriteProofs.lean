import Daftari.Curation.PositionsProofs
import Daftari.Curation.SupersedeChainsProofs
import Daftari.Frontmatter.ReadingProofs

/-! # The write tools — what each one composes from what it read

    Every write tool reads files, composes the new text of one document (a merge composes up to
    three), and hands it to a write core that re-checks versions under the lock.  Here is the first
    half: a tool is a function from the files it read to a `Plan`, or to the error it answers with.

    * one definition for each tool, gates and messages in the source's order. -/

namespace Write

open Frontmatter Positions SupersedeChains Rbac

/-! ## Surroundings -/

/-- What a hook is told. -/
structure HookContext where
  path : String
  operation : String

inductive HookReturn where
  | patch (fields : Raw)
  | nonObject (got : String)
  | threw (reason : String)

structure TransformHook where
  path : String
  run : Raw → HookContext → HookReturn

inductive LeakGateMode where
  | refuse
  | warn
  | off
deriving DecidableEq

/-- What the tools read of `DaftariConfig`; `ignored` is `matchesIgnoreList`, a
    validator hook is given by the issues it raises. -/
structure Config where
  ignored : String → Bool
  extensions : List SchemaExtension
  transformHooks : List TransformHook
  preWriteHooks : List (Raw → HookContext → List Issue)
  shadowMode : Bool
  shared : Bool
  leakGate : LeakGateMode

/-- The vault, the file system's path resolution and the libraries below. -/
structure Host (B : Type) where
  codec : Codec B
  json : Value → String
  sha256Hex : B → String
  sha256Hex_ne_empty : ∀ b, sha256Hex b ≠ ""
  root : List Path
  /-- `resolveVaultPath`'s canonical path: one for every spelling of a file. -/
  resolve : String → Except String String
  mintDescribesPins : List String → Option (List String)
  config : Config

/-- The caller and the moment of a call. -/
structure Setting where
  access : Option AccessContext
  /-- `sourceReadable`, over the index. -/
  readable : String → Bool
  today : String
  now : String
  /-- The leak ledger's private reads of a run, or why it cannot be read. -/
  privateReads : String → Except String Nat
  /-- The open positional tensions on a document. -/
  openTensions : String → List String

/-- Canonical path to file. -/
abbrev Files (B : Type) := List (String × B)

/-- A write that is ready for the core. -/
structure Plan (B : Type) where
  /-- The versions the write was composed from, by path; none for no file. -/
  snapshots : List (String × Option String)
  /-- What the core says when a version no longer matches. -/
  stale : String → String
  leak : Option String
  writes : List (String × B)
  /-- The `superseded_by` edits the loop test was given. -/
  edits : List Pointer

/-- What a call that met no error comes to: nothing is written in shadow mode,
    or when a propose-only role's write is staged. -/
inductive Outcome (B : Type) where
  | shadow
  | staged
  | write (plan : Plan B)

/-! ## Errors -/

/-- An early return with an error. -/
def refuse (c : Prop) [Decidable c] (message : String) : Except String Unit :=
  if c then .error message else .ok ()

theorem refuse_eq_ok {c : Prop} [Decidable c] {message : String} {u : Unit}
    (h : refuse c message = .ok u) : ¬ c := by
  intro hc
  unfold refuse at h
  rw [if_pos hc] at h
  cases h

theorem bind_eq_ok {ε α β : Type} {x : Except ε α} {f : α → Except ε β} {b : β}
    (h : x >>= f = .ok b) : ∃ a, x = .ok a ∧ f a = .ok b := by
  cases x with
  | error e => cases h
  | ok a => exact ⟨a, rfl, h⟩

theorem bind_eq_ok_iff {ε α β : Type} {x : Except ε α} {f : α → Except ε β} {b : β} :
    x >>= f = .ok b ↔ ∃ a, x = .ok a ∧ f a = .ok b := by
  refine ⟨bind_eq_ok, ?_⟩
  rintro ⟨a, rfl, h⟩
  exact h

/-- `v.trim().length === 0`. -/
def blank (s : String) : Bool := Text.trim s.toList = []

/-- `requireString`, for each of a tool's required arguments in turn. -/
def requireTexts (tool : String) : List (String × String) → Except String Unit
  | [] => .ok ()
  | (field, value) :: rest => do
      refuse (blank value) (tool ++ " requires a non-empty '" ++ field ++ "' argument")
      requireTexts tool rest

def readBoundary (tool : String) : Option String → Except String (Option String)
  | none => .ok none
  | some raw =>
      match normalizeIsoDate raw with
      | some date => .ok (some date)
      | none => .error (tool ++ ": 'predecessor_valid_until' must be a YYYY-MM-DD date, "
          ++ "got \"" ++ raw ++ "\"")

/-- `closingUntil`, when a boundary was given. -/
def closingUntil (fm : Fields) (boundary : Option String) (tool path : String) :
    Except String (Option String) :=
  match boundary, fm.validUntil with
  | none, _ => .ok none
  | some date, none => .ok (some date)
  | some date, some existing =>
      if existing = date then .ok (some date)
      else .error (tool ++ ": " ++ path ++ " already declares valid_until " ++ existing
        ++ ", but predecessor_valid_until " ++ date ++ " was supplied. Refusing to "
        ++ "overwrite an authored value — reconcile the two dates, or omit the argument "
        ++ "and set valid_until directly.")

/-! ## Objects -/

/-- `Object.assign` onto a copy. -/
def assign (target source : Raw) : Raw :=
  source.foldl (fun acc e => Assoc.set acc e.1 e.2) target

/-- `Array.isArray(v) ? v : []`. -/
def itemsIn : Option Value → List Value
  | some (.arr items) => items
  | _ => []

/-- `runPreWriteTransformHooks`: every hook runs, on what the ones before it left. -/
def runPreWriteTransformHooks (hooks : List TransformHook) (fm : Raw)
    (context : HookContext) : Raw × List Issue :=
  hooks.foldl
    (fun acc hook =>
      match hook.run acc.1 context with
      | .patch fields => (assign acc.1 fields, acc.2)
      | .nonObject got =>
          (acc.1, acc.2 ++ [⟨hook.path,
            "transform hook returned non-object (got " ++ got ++ ")"⟩])
      | .threw reason =>
          (acc.1, acc.2 ++ [⟨hook.path, "transform hook threw: " ++ reason⟩]))
    (fm, [])

def runPreWriteHooks (hooks : List (Raw → HookContext → List Issue)) (fm : Raw)
    (context : HookContext) : List Issue :=
  hooks.flatMap fun hook => hook fm context

def applyExtensionDefaults (raw : Raw) (extensions : List SchemaExtension) : Raw :=
  extensions.foldl
    (fun acc ext =>
      if missing (acc.lookup ext.field) then
        match ext.default with
        | some v => Assoc.set acc ext.field v
        | none => acc
      else acc) raw

def summary (issues : List Issue) : String :=
  "; ".intercalate (issues.map fun i => i.field ++ ": " ++ i.message)

/-! ## Readers and their lineage -/

def encodeLineageEntry (ts op reader : String) : String := ts ++ "|" ++ op ++ "|" ++ reader

/-- `parseLineageEntry`: the operation and the reader. -/
def parseLineageEntry (entry : String) : Option (String × String) :=
  match entry.toList.span (· ≠ '|') with
  | (ts, _ :: rest) =>
      match rest.span (· ≠ '|') with
      | (op, _ :: reader) =>
          if ts = [] ∨ op = [] ∨ reader = [] then none
          else some (String.ofList op, String.ofList reader)
      | (_, []) => none
  | (_, []) => none

/-- Append what is not there yet. -/
def unionStrings (existing incoming : List String) : List String :=
  incoming.foldl (fun acc r => if r ∈ acc then acc else acc ++ [r]) existing

def readersFromLineage (lineage : List String) : List String :=
  unionStrings [] ((lineage.filterMap parseLineageEntry).map Prod.snd)

/-- `unionLineage`: an entry is new when its operation and reader are. -/
def unionLineage (existing incoming : List String) : List String :=
  incoming.foldl
    (fun acc entry =>
      match parseLineageEntry entry with
      | none => acc
      | some key => if key ∈ acc.filterMap parseLineageEntry then acc else acc ++ [entry])
    existing

def readerScalarFields : List String :=
  ["reader_model", "reader_served_model", "reader_temperature", "reader_via_retry",
    "reader_prompt_version", "reader_chunk_window", "reader_input_cap"]

/-- More than one reader: no field may claim a single parent. -/
def dropScalars (readers : Nat) (raw : Raw) : Raw :=
  if 1 < readers then Assoc.remove raw readerScalarFields else raw

/-- The timestamp of a backfilled lineage. -/
def createdTimestamp (now : String) (created : Option Value) : String :=
  match asString created with
  | some s => if 10 ≤ s.toList.length then dateOnly s ++ "T00:00:00Z" else now
  | none => now

/-- `readers` as the union of what is there and the payload's. -/
def unionReaders (payload merged : Raw) : Raw :=
  match payload.lookup "readers" with
  | some (.arr items) =>
      Assoc.set merged "readers"
        (texts (unionStrings (stringsIn (merged.lookup "readers")) (stringsOf items)))
  | _ => merged

/-- The lineage that is there; readers without one get an `ingest` entry each. -/
def existingLineage (now : String) (merged : Raw) : List String :=
  let lineage := stringsIn (merged.lookup "reader_lineage")
  let readers := stringsIn (merged.lookup "readers")
  if lineage = [] ∧ readers ≠ [] then
    readers.map (encodeLineageEntry (createdTimestamp now (merged.lookup "created")) "ingest")
  else lineage

/-- `readers` as the lineage names them, the readers it does not name after. -/
def lineageReaders (unioned : List String) (raw : Raw) : Raw :=
  let derived := readersFromLineage unioned
  if derived = [] then raw
  else
    let extras := (itemsIn (raw.lookup "readers")).filter fun
      | .str r => r ∉ derived
      | _ => true
    Assoc.set raw "readers" (.arr (derived.map Value.str ++ extras))

/-- `reader_lineage` as the union of the existing one and the payload's. -/
def unionReaderLineage (existing : List String) (payload raw : Raw) : Raw :=
  match payload.lookup "reader_lineage" with
  | some (.arr items) =>
      let unioned := unionLineage existing (stringsOf items)
      lineageReaders unioned (Assoc.set raw "reader_lineage" (texts unioned))
  | _ => raw

/-- The union of `readers` and `reader_lineage` at land time. -/
def fuseReaders (now : String) (payload merged : Raw) : Raw :=
  let fused := unionReaderLineage (existingLineage now merged) payload
    (unionReaders payload merged)
  dropScalars (itemsIn (fused.lookup "readers")).length fused

def nulled (payload : Raw) (field : String) : Bool :=
  match payload.lookup field with
  | some .null => true
  | _ => false

/-- The payload's keys over the old ones, a null removing its key. -/
def overlay (deferred : List String) (oldRaw payload : Raw) : Raw :=
  payload.foldl
    (fun acc e =>
      if missing (some e.2) then Assoc.remove acc [e.1]
      else if e.1 ∈ deferred then acc
      else Assoc.set acc e.1 e.2) oldRaw

def mergeUnder (now : String) (oldRaw payload : Raw) : Raw :=
  let merged := overlay ["readers", "reader_lineage"] oldRaw payload
  if nulled payload "readers" ∨ nulled payload "reader_lineage" then merged
  else fuseReaders now payload merged

/-! ## Gates -/

section Tools

variable {B : Type} (host : Host B) (s : Setting)

def denyIfProposeOnly (tool : String) : Except String Unit :=
  match s.access with
  | none => .ok ()
  | some a =>
      refuse (isProposeOnly a.role)
        (tool ++ ": role '" ++ a.roleName ++ "' is propose-only — direct writes are "
          ++ "disabled. Propose the change instead: vault_write stages a 'write' "
          ++ "proposal, and vault_stage_action stages lifecycle actions (promote, "
          ++ "deprecate, supersede, unsupersede, merge, confidence-up) for ratification.")

def requireWriteAccess (collection : String) : Except String Unit :=
  match s.access with
  | none => .ok ()
  | some a =>
      refuse (canWrite a.role collection = false)
        ("access denied: role '" ++ a.roleName ++ "' cannot write to collection '"
          ++ collection ++ "'")

def requirePatchAccess (collection : String) : Except String Unit := do
  requireWriteAccess s collection
  match s.access with
  | none => .ok ()
  | some a =>
      refuse (canRead a.role collection = false)
        ("access denied: role '" ++ a.roleName ++ "' cannot read collection '"
          ++ collection ++ "'")

/-- A grant a tool asks of a caller with an access context. -/
def requireGrant (grant : Option RoleConfig → Bool) (what : String) : Except String Unit :=
  match s.access with
  | none => .ok ()
  | some a =>
      refuse (grant a.role = false)
        ("access denied: role '" ++ a.roleName ++ "' cannot " ++ what)

def collectionOf (relPath : String) (fm : Fields) : String :=
  if fm.collection ≠ "" then fm.collection else collectionOfPath relPath

def refuseIgnoredPath (relPath : String) : Except String Unit :=
  refuse (host.config.ignored relPath)
    (relPath ++ " is excluded by the vault's 'ignore' config")

/-- `checkLeakGate`, when it refuses. -/
def checkLeakGate (runId : Option String) : Option String :=
  if host.config.leakGate ≠ .refuse ∨ host.config.shared = false ∨ s.access.isNone then
    none
  else
    match runId.filter (· ≠ "") with
    | none =>
        some ("no run_id was supplied for a write into a shared vault — cannot verify "
          ++ "this run read no private source, so the write is refused")
    | some run =>
        match s.privateReads run with
        | .error reason =>
            some ("the leak ledger could not be read (" ++ reason ++ ") — cannot verify "
              ++ "run " ++ run ++ " read no private source, so the write into this "
              ++ "shared vault is refused")
        | .ok 0 => none
        | .ok (n + 1) =>
            some ("run " ++ run ++ " read " ++ toString (n + 1) ++ " private-visibility "
              ++ "source(s) this session — refusing to write that into a shared vault")

def checkTierGuard (tool path : String) (tier : Option Tier) (oldBody newBody : List Char)
    (agent : String) : Except String Unit :=
  match tier with
  | some .source =>
      refuse (sameBody oldBody newBody = false)
        (tool ++ ": " ++ path ++ " is tier 'source' — its body is immutable. If this "
          ++ "rewrite is deliberate, demote the tier first with vault_set_tier (a reason "
          ++ "is required and the change is logged), then write. vault_append can add to "
          ++ "it without a tier change.")
  | some .manual =>
      refuse (sameBody oldBody newBody = false
          ∧ "human:".toList.isPrefixOf agent.toList = false)
        (tool ++ ": " ++ path ++ " is tier 'manual' — body rewrites require a human:* "
          ++ "identity (got '" ++ agent ++ "'). vault_append can add to it.")
  | _ => .ok ()

/-! ## Loading and the shared tail -/

/-- `LoadedTarget`. -/
structure Target (B : Type) where
  relPath : String
  parsed : ParsedDocument
  text : B

def loadTargetDocument (tool rawPath : String) (files : Files B) :
    Except String (Target B) := do
  let relPath ← host.resolve rawPath
  match files.lookup relPath with
  | none => .error (tool ++ ": document not found: " ++ rawPath)
  | some text => do
      let parsed ← parseDocument host.codec host.json text
      .ok { relPath := relPath, parsed := parsed, text := text }

/-- The base version of a tool that declares the loaded one by default. -/
def baseOf (baseVersion : Option String) (target : Target B) : Option String :=
  baseVersion <|> some (host.sha256Hex target.text)

def staleWritePrefix : String := "stale write:"

def isStaleWriteError (message : String) : Bool :=
  staleWritePrefix.toList.isPrefixOf message.toList

/-- `rejectStale`'s error. -/
def staleWrite (relPath : String) : String :=
  staleWritePrefix ++ " " ++ relPath ++ " changed since base_version"

def declared (relPath : String) (baseVersion : Option String) : List (String × Option String) :=
  match baseVersion.filter (· ≠ "") with
  | none => []
  | some version => [(relPath, some version)]

/-- `performWrite`, up to the lock. -/
def performWrite (relPath : String) (fileText : B) (baseVersion runId : Option String)
    (edits : List Pointer) : Except String (Outcome B) := do
  refuseIgnoredPath host relPath
  if host.config.shadowMode then .ok .shadow
  else
    .ok (.write
      { snapshots := declared relPath baseVersion
        stale := staleWrite
        leak := (checkLeakGate host s runId).map fun reason =>
          "leak gate: " ++ relPath ++ ": " ++ reason
        writes := [(relPath, fileText)]
        edits := edits })

def stamp (fm : Fields) (agent : String) : Fields :=
  { fm with updated := s.today, updatedBy := agent }

/-- `performFrontmatterWrite`: the body and the undeclared fields are kept. -/
def performFrontmatterWrite (target : Target B) (newFrontmatter : Fields)
    (baseVersion runId : Option String) (edits : List Pointer) : Except String (Outcome B) :=
  performWrite host s target.relPath
    (serializeDocument host.codec newFrontmatter.toRaw target.parsed.content
      host.config.extensions target.parsed.raw)
    baseVersion runId edits

/-- `loadDocuments`: the listed files that parse. -/
def loadDocuments (files : Files B) : List (String × ParsedDocument) :=
  files.filterMap fun e =>
    if isListed host.config.ignored e.1 then
      match parseDocument host.codec host.json e.2 with
      | .ok parsed => some (e.1, parsed)
      | .error _ => none
    else none

/-- The documents as the loop test takes them. -/
def pointers (files : Files B) : List Pointer :=
  (loadDocuments host files).map fun d => (d.1, d.2.frontmatter.supersededBy)

/-- `refuseSupersedeLoop`: only what the caller can read is walked. -/
def refuseSupersedeLoop (docs : Files B) (edits : List Pointer) (message : String) :
    Except String Unit :=
  let visible := match s.access with
    | none => pointers host docs
    | some _ => (pointers host docs).filter fun d => s.readable d.1
  refuse (closesSupersedeLoop visible edits) message

/-! ## vault_write and vault_patch -/

/-- `vault_write`'s arguments. -/
structure WriteArgs where
  path : String
  agent : String
  body : List Char
  frontmatter : Raw
  nodup : (Assoc.keys frontmatter).Nodup
  baseVersion : Option String
  runId : Option String

structure BodyEdit where
  old : List Char
  new : List Char

/-- `sameFields`: equal but for the server's stamps. -/
def sameFields (a b : Raw) : Bool :=
  host.json (.obj (Assoc.remove a ["updated", "updated_by"]))
    = host.json (.obj (Assoc.remove b ["updated", "updated_by"]))

def patchChangesNothing (path : String) : String :=
  "vault_patch: this patch changes nothing in " ++ path

def fill (raw : Raw) (field : String) (v : Value) : Raw :=
  if missing (raw.lookup field) then Assoc.set raw field v else raw

/-- Both server-managed fields, when the caller left them out. -/
def fillStamps (raw : Raw) (agent : String) : Raw :=
  fill (fill raw "updated" (.str s.today)) "updated_by" (.str agent)

/-- The anchors of `describes`, pinned when every entry is a string. -/
def mintPins (raw : Raw) : Raw :=
  match raw.lookup "describes" with
  | some (.arr items) =>
      if items ≠ [] ∧ items.all isString then
        match host.mintDescribesPins (stringsOf items) with
        | some entries => Assoc.set raw "describes" (texts entries)
        | none => raw
      else raw
  | _ => raw

/-- The tail of a foreign-position refusal. -/
def foreignPositionRule : String :=
  " — another principal's position entries can only be superseded by their own new "
    ++ "position (vault_assert) or edited by their holder"

/-- The foreign-position check, when the document has positions. -/
def checkForeign (tool user : String) (before after : Option (List Position)) :
    Except String Unit :=
  match before with
  | none => .ok ()
  | some before =>
      match foreignPositionViolation before after user with
      | none => .ok ()
      | some violation => .error (tool ++ ": " ++ violation ++ foreignPositionRule)

/-- A patch that would change nothing in the document is refused. -/
def checkChanges (patching : Bool) (args : WriteArgs) (doc : Option ParsedDocument)
    (raw : Raw) : Except String Unit :=
  match doc with
  | none => .ok ()
  | some doc =>
      refuse (patching ∧ args.body = doc.content ∧ sameFields host doc.raw raw)
        (patchChangesNothing args.path)

/-- The stage preview of a propose-only role's write. -/
def stageWrite (a : AccessContext) (patching : Bool) (args : WriteArgs)
    (existing : Option B) : Except String (Outcome B) := do
  let tool := if patching then "vault_patch" else "vault_write"
  let parsed := existing.bind fun text =>
    (parseDocument host.codec host.json text).toOption
  let previewRaw := match parsed with
    | none => args.frontmatter
    | some doc => overlay [] doc.raw args.frontmatter
  checkChanges host patching args parsed previewRaw
  let preview := validateFrontmatter host.json (fillStamps s previewRaw args.agent)
    host.config.extensions
  checkForeign (tool ++ " (stage preview)") a.user
    (parsed.bind fun doc => doc.frontmatter.positions) preview.1.positions
  .ok .staged

/-- The file a write replaces, parsed: an existing file that does not parse is never overwritten. -/
def existingDocument (tool path : String) (existing : Option B) :
    Except String (Option ParsedDocument) :=
  match existing with
  | none => .ok none
  | some text =>
      match parseDocument host.codec host.json text with
      | .ok doc => .ok (some doc)
      | .error reason =>
          .error (tool ++ ": " ++ path ++ " exists but its frontmatter could not be "
            ++ "parsed (" ++ reason ++ "); refusing to overwrite it. Fix or remove the "
            ++ "file first.")

/-- A protected document's tier changes through `vault_set_tier` only. -/
def checkTierChange (tool path : String) (old : Option Tier) (raw : Raw) : Except String Unit :=
  match old with
  | some tier =>
      refuse ((tier = .source ∨ tier = .manual)
          ∧ asString (raw.lookup "tier") ≠ some (Choice.text tier))
        (tool ++ ": " ++ path ++ " is tier '" ++ Choice.text tier ++ "' — changing its "
          ++ "tier requires vault_set_tier (a reason is required"
          ++ (if tier = .manual then ", and a human:* identity" else "") ++ ").")
  | none => .ok ()

/-- The two tier checks of an update. -/
def checkUpdateTier (tool : String) (args : WriteArgs) (doc : Option ParsedDocument) :
    Except String Unit :=
  match doc with
  | none => .ok ()
  | some doc => do
      checkTierGuard tool args.path doc.frontmatter.tier doc.content args.body args.agent
      checkTierChange tool args.path doc.frontmatter.tier
        (mergeUnder s.now doc.raw args.frontmatter)

/-- The foreign-position check of an update under an access context. -/
def checkForeignPositions (tool : String) (before after : Option (List Position)) :
    Except String Unit :=
  match s.access with
  | none => .ok ()
  | some a => checkForeign tool a.user before after

/-- The payload, merged over what the document has. -/
def mergedRecord (args : WriteArgs) (doc : Option ParsedDocument) : Raw :=
  match doc with
  | none => args.frontmatter
  | some doc => mergeUnder s.now doc.raw args.frontmatter

def writeContext (args : WriteArgs) (doc : Option ParsedDocument) : HookContext where
  path := args.path
  operation := if doc.isSome then "update" else "create"

def composeRaw (args : WriteArgs) (doc : Option ParsedDocument) : Raw × List Issue :=
  let transformed := runPreWriteTransformHooks host.config.transformHooks
    (mergedRecord s args doc) (writeContext args doc)
  (mintPins host (fillStamps s transformed.1 args.agent), transformed.2)

/-- The validated frontmatter of a write, and its record; every issue blocks. -/
def composeWrite (args : WriteArgs) (doc : Option ParsedDocument) :
    Except String (Fields × Raw) := do
  let composed := composeRaw host s args doc
  let checked := validateFrontmatter host.json composed.1 host.config.extensions
  let issues := composed.2 ++ checked.2
    ++ runPreWriteHooks host.config.preWriteHooks composed.1 (writeContext args doc)
  refuse (issues ≠ []) ("invalid frontmatter: " ++ summary issues)
  .ok (checked.1, composed.1)

/-- The direct path of a full-document write. -/
def writeDirect (args : WriteArgs) (patching : Bool) (relPath : String)
    (existing : Option B) : Except String (Outcome B) := do
  let tool := if patching then "vault_patch" else "vault_write"
  let doc ← existingDocument host tool args.path existing
  checkUpdateTier s tool args doc
  let composed ← composeWrite host s args doc
  checkForeignPositions s tool (doc.bind fun doc => doc.frontmatter.positions)
    composed.1.positions
  checkChanges host patching args doc composed.2
  let created := (doc.map fun doc => doc.frontmatter.created).getD composed.1.created
  let stamped := stamp s { composed.1 with created := created } args.agent
  performWrite host s relPath
    (serializeDocument host.codec stamped.toRaw args.body host.config.extensions
      (applyExtensionDefaults composed.2 host.config.extensions))
    args.baseVersion args.runId []

/-- `writeDocument`, the one path of a full-document write.  A patch passes the
    text its edits were computed from, so nothing is read twice. -/
def writeDocument (args : WriteArgs) (patch : Option B) (files : Files B) :
    Except String (Outcome B) := do
  let tool := if patch.isSome then "vault_patch" else "vault_write"
  requireTexts tool [("path", args.path), ("agent", args.agent)]
  requireWriteAccess s (targetCollection host.root args.path)
  let relPath ← host.resolve args.path
  let existing := patch <|> files.lookup relPath
  match s.access.filter fun a => isProposeOnly a.role with
  | some a => stageWrite host s a patch.isSome args existing
  | none => writeDirect host s args patch.isSome relPath existing

def vaultWrite (args : WriteArgs) (files : Files B) : Except String (Outcome B) :=
  writeDocument host s args none files

def patchReservedFields : List (String × String) :=
  [("status", "use vault_promote, vault_deprecate, vault_supersede, or vault_unsupersede"),
    ("superseded_by", "use vault_supersede, or vault_unsupersede to reverse one"),
    ("tier", "use vault_set_tier"),
    ("collection", "it is the document's access scope; use vault_write to relocate"),
    ("positions", "use vault_assert"),
    ("org_position", "use vault_assert or vault_consolidate"),
    ("contested", "use vault_assert or vault_consolidate"),
    ("created", "it is server-managed"), ("updated", "it is server-managed"),
    ("updated_by", "it is server-managed")]

/-- `vault_patch`'s arguments. -/
structure PatchArgs where
  path : String
  agent : String
  reason : String
  fields : Raw
  nodup : (Assoc.keys fields).Nodup
  edits : List BodyEdit
  baseVersion : Option String
  runId : Option String

def readPatchFields (fields : Raw) : Except String Unit :=
  match fields.findSome? fun e =>
      (patchReservedFields.lookup e.1).map fun owner => (e.1, owner) with
  | none => .ok ()
  | some (key, owner) =>
      .error ("vault_patch: '" ++ key ++ "' cannot be patched — " ++ owner)

def readBodyEdits (edits : List BodyEdit) : Except String Unit := do
  refuse (50 < edits.length) "vault_patch: 'body_edits' holds at most 50 edits"
  edits.zipIdx.forM fun e => do
    refuse (e.1.old = [])
      ("vault_patch: body_edits[" ++ toString e.2 ++ "] has an empty 'old'")
    refuse (e.1.old = e.1.new)
      ("vault_patch: body_edits[" ++ toString e.2 ++ "] has identical 'old' and 'new'")

/-- The text before and after the first match. -/
def breakOn (pattern : List Char) : List Char → Option (List Char × List Char)
  | [] => none
  | c :: rest =>
      if pattern.isPrefixOf (c :: rest) then some ([], (c :: rest).drop pattern.length)
      else (breakOn pattern rest).map fun e => (c :: e.1, e.2)

/-- `text.split(pattern).length - 1`, with fuel for every character. -/
def countMatches (pattern : List Char) : Nat → List Char → Nat
  | 0, _ => 0
  | fuel + 1, text =>
      match breakOn pattern text with
      | none => 0
      | some e => countMatches pattern fuel e.2 + 1

/-- `applyBodyEdits`: each edit must match exactly once, in turn. -/
def applyBodyEdits : Nat → List Char → List BodyEdit → Except String (List Char)
  | _, out, [] => .ok out
  | i, out, edit :: rest =>
      let matched := countMatches edit.old (out.length + 1) out
      match breakOn edit.old out with
      | some (pre, post) =>
          if matched = 1 then applyBodyEdits (i + 1) (pre ++ edit.new ++ post) rest
          else .error (mismatch i matched)
      | none => .error (mismatch i matched)
where
  mismatch (i matched : Nat) : String :=
    "vault_patch: body_edits[" ++ toString i ++ "] matched " ++ toString matched
      ++ " times; 'old' must match exactly once. Re-read the document, or widen 'old' "
      ++ "with surrounding text."

/-- The write a patch comes to: its fields over the loaded document, its edits on
    the loaded body, anchored to the loaded version unless the caller gave one. -/
def patchWrite (args : PatchArgs) (target : Target B) (body : List Char) : WriteArgs where
  path := args.path
  agent := args.agent
  body := body
  frontmatter := args.fields
  nodup := args.nodup
  baseVersion := baseOf host args.baseVersion target
  runId := args.runId

/-- `vaultPatch`, one attempt. -/
def vaultPatch (args : PatchArgs) (files : Files B) : Except String (Outcome B) := do
  requireTexts "vault_patch"
    [("path", args.path), ("agent", args.agent), ("reason", args.reason)]
  readPatchFields args.fields
  readBodyEdits args.edits
  refuse (args.fields = [] ∧ args.edits = [])
    "vault_patch requires 'frontmatter' fields or 'body_edits' to change"
  requirePatchAccess s (targetCollection host.root args.path)
  let target ← loadTargetDocument host "vault_patch" args.path files
  requirePatchAccess s (collectionOf target.relPath target.parsed.frontmatter)
  refuse (args.baseVersion.any (fun v => v ≠ host.sha256Hex target.text)
      ∧ host.config.shadowMode = false) (staleWrite target.relPath)
  let body ← applyBodyEdits 0 target.parsed.content args.edits
  writeDocument host s (patchWrite host args target body) (some target.text) files

/-! ## vault_append -/

/-- `vault_append`'s arguments. -/
structure AppendArgs where
  path : String
  agent : String
  sectionText : List Char
  baseVersion : Option String
  runId : Option String

def appendSection (content sectionText : List Char) : List Char :=
  Text.trimEnd content ++ "\n\n".toList ++ Text.trim sectionText ++ ['\n']

/-- The frontmatter of an append: the typed one with the stamps, then whatever the
    transform hooks make of it. -/
def appendRecord (args : AppendArgs) (fm : Fields) : Raw × List Issue :=
  runPreWriteTransformHooks host.config.transformHooks (stamp s fm args.agent).toRaw
    { path := args.path, operation := "append" }

/-- `vaultAppend`, one attempt. -/
def vaultAppend (args : AppendArgs) (files : Files B) : Except String (Outcome B) := do
  requireTexts "vault_append" [("path", args.path), ("agent", args.agent),
    ("section", String.ofList args.sectionText)]
  denyIfProposeOnly s "vault_append"
  let target ← loadTargetDocument host "vault_append" args.path files
  requireWriteAccess s (collectionOf args.path target.parsed.frontmatter)
  let transformed := appendRecord host s args target.parsed.frontmatter
  let issues := transformed.2
    ++ runPreWriteHooks host.config.preWriteHooks transformed.1
      { path := args.path, operation := "append" }
  refuse (issues ≠ []) ("invalid frontmatter: " ++ summary issues)
  performWrite host s target.relPath
    (serializeDocument host.codec transformed.1
      (appendSection target.parsed.content args.sectionText) host.config.extensions
      target.parsed.raw)
    (baseOf host args.baseVersion target) args.runId []

/-! ## Lifecycle tools -/

structure LifecycleArgs where
  path : String
  agent : String
  reason : String
  baseVersion : Option String
  runId : Option String

/-- `vaultPromote`, one attempt; it takes no reason. -/
def vaultPromote (args : LifecycleArgs) (files : Files B) : Except String (Outcome B) := do
  denyIfProposeOnly s "vault_promote"
  requireTexts "vault_promote" [("path", args.path), ("agent", args.agent)]
  requireGrant s canPromote "promote documents"
  let target ← loadTargetDocument host "vault_promote" args.path files
  let fm := target.parsed.frontmatter
  refuse (fm.status ≠ .draft)
    ("vault_promote: only draft documents can be promoted (" ++ args.path ++ " is '"
      ++ Choice.text fm.status ++ "')")
  refuse (target.parsed.issues ≠ [])
    ("vault_promote: frontmatter is incomplete: " ++ summary target.parsed.issues)
  refuse ((asChoice (target.parsed.raw.lookup "confidence") : Option Confidence) = none)
    "vault_promote: confidence must be set before promotion"
  performFrontmatterWrite host s target
    (stamp s { fm with status := .canonical } args.agent)
    (baseOf host args.baseVersion target) args.runId []

/-- `vaultDeprecate`'s further arguments. -/
structure DeprecateArgs extends LifecycleArgs where
  supersededBy : Option String
  boundary : Option String

/-- The successor as the loop test is given it. -/
def successorOf (supersededBy : String) : String :=
  match host.resolve supersededBy with
  | .ok relPath => relPath
  | .error _ => supersededBy

def deprecateEdits (relPath : String) (supersededBy : Option String) : List Pointer :=
  match supersededBy with
  | none => []
  | some successor => [(relPath, some (successorOf host successor))]

/-- `vaultDeprecate`, one attempt. -/
def vaultDeprecate (args : DeprecateArgs) (files docs : Files B) :
    Except String (Outcome B) := do
  denyIfProposeOnly s "vault_deprecate"
  requireTexts "vault_deprecate"
    [("path", args.path), ("agent", args.agent), ("reason", args.reason)]
  let boundary ← readBoundary "vault_deprecate" args.boundary
  let target ← loadTargetDocument host "vault_deprecate" args.path files
  let fm := target.parsed.frontmatter
  requireWriteAccess s (collectionOf args.path fm)
  let validUntil ← closingUntil fm boundary "vault_deprecate" args.path
  let edits := deprecateEdits host target.relPath args.supersededBy
  refuseSupersedeLoop host s docs edits
    ("vault_deprecate: refused: " ++ args.path ++ " is already on the superseded_by "
      ++ "chain of " ++ args.supersededBy.getD "" ++ ", so this would close a loop. "
      ++ "Nothing was written.")
  performFrontmatterWrite host s target
    (stamp s { fm with
      status := .deprecated
      supersededBy := args.supersededBy
      validUntil := validUntil <|> fm.validUntil } args.agent)
    (baseOf host args.baseVersion target) args.runId edits

/-- `vaultSetConfidence`, one attempt. -/
def vaultSetConfidence (args : LifecycleArgs) (confidence : Confidence) (files : Files B) :
    Except String (Outcome B) := do
  denyIfProposeOnly s "vault_set_confidence"
  requireTexts "vault_set_confidence"
    [("path", args.path), ("agent", args.agent), ("reason", args.reason)]
  let target ← loadTargetDocument host "vault_set_confidence" args.path files
  let fm := target.parsed.frontmatter
  requireWriteAccess s (collectionOf args.path fm)
  refuse ((asChoice (target.parsed.raw.lookup "confidence") : Option Confidence)
      = some confidence)
    ("vault_set_confidence: " ++ args.path ++ " confidence is already '"
      ++ Choice.text confidence ++ "'")
  performFrontmatterWrite host s target
    (stamp s { fm with confidence := confidence } args.agent)
    (baseOf host args.baseVersion target) args.runId []

/-- `vaultSetTier`, one attempt. -/
def vaultSetTier (args : LifecycleArgs) (tier : Tier) (files : Files B) :
    Except String (Outcome B) := do
  denyIfProposeOnly s "vault_set_tier"
  requireTexts "vault_set_tier"
    [("path", args.path), ("agent", args.agent), ("reason", args.reason)]
  let target ← loadTargetDocument host "vault_set_tier" args.path files
  let fm := target.parsed.frontmatter
  requireWriteAccess s (collectionOf args.path fm)
  refuse (fm.tier = some .manual ∧ tier ≠ .manual
      ∧ "human:".toList.isPrefixOf args.agent.toList = false)
    ("vault_set_tier: " ++ args.path ++ " is tier 'manual' — moving it away from "
      ++ "'manual' requires a human:* identity (got '" ++ args.agent ++ "').")
  refuse ((asChoice (target.parsed.raw.lookup "tier") : Option Tier) = some tier)
    ("vault_set_tier: " ++ args.path ++ " tier is already '" ++ Choice.text tier ++ "'")
  performFrontmatterWrite host s target
    (stamp s { fm with tier := some tier } args.agent)
    (baseOf host args.baseVersion target) args.runId []

/-- `vaultUnsupersede`, one attempt. -/
def vaultUnsupersede (args : LifecycleArgs) (files : Files B) :
    Except String (Outcome B) := do
  denyIfProposeOnly s "vault_unsupersede"
  requireTexts "vault_unsupersede"
    [("path", args.path), ("agent", args.agent), ("reason", args.reason)]
  requireGrant s canPromote "reverse a supersede"
  let target ← loadTargetDocument host "vault_unsupersede" args.path files
  let fm := target.parsed.frontmatter
  requireWriteAccess s (collectionOf args.path fm)
  refuse (fm.status ≠ .superseded)
    ("vault_unsupersede: only superseded documents can be reversed (" ++ args.path
      ++ " is '" ++ Choice.text fm.status ++ "')")
  performFrontmatterWrite host s target
    (stamp s { fm with status := .draft, supersededBy := none } args.agent)
    (baseOf host args.baseVersion target) args.runId []

/-- `vault_supersede`'s arguments; its reason only goes into the commit message. -/
structure SupersedeArgs where
  oldPath : String
  newPath : String
  agent : String
  boundary : Option String
  baseVersion : Option String
  runId : Option String

/-- `vaultSupersede`: only a base version the caller gave is declared. -/
def vaultSupersede (args : SupersedeArgs) (files docs : Files B) :
    Except String (Outcome B) := do
  denyIfProposeOnly s "vault_supersede"
  requireTexts "vault_supersede"
    [("old_path", args.oldPath), ("new_path", args.newPath), ("agent", args.agent)]
  let boundary ← readBoundary "vault_supersede" args.boundary
  refuse (args.oldPath = args.newPath)
    "vault_supersede: a document cannot supersede itself"
  let oldRel ← host.resolve args.oldPath
  let newRel ← host.resolve args.newPath
  -- the successor must be there before the old document is parsed
  refuse (files.lookup oldRel).isNone
    ("vault_supersede: document not found: " ++ args.oldPath)
  refuse (files.lookup newRel).isNone
    ("vault_supersede: successor not found: " ++ args.newPath)
  let target ← loadTargetDocument host "vault_supersede" args.oldPath files
  refuseIgnoredPath host newRel
  let fm := target.parsed.frontmatter
  requireWriteAccess s (collectionOf args.oldPath fm)
  let validUntil ← closingUntil fm boundary "vault_supersede" args.oldPath
  let edits : List Pointer := [(target.relPath, some newRel)]
  refuseSupersedeLoop host s docs edits
    ("vault_supersede: refused: " ++ args.oldPath ++ " is already on the superseded_by "
      ++ "chain of " ++ args.newPath ++ ", so this would close a loop. Nothing was "
      ++ "written.")
  performFrontmatterWrite host s target
    (stamp s { fm with
      status := .superseded
      supersededBy := some args.newPath
      validUntil := validUntil <|> fm.validUntil } args.agent)
    args.baseVersion args.runId edits

end Tools

end Write
