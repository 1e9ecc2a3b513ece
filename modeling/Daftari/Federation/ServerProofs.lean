import Daftari.Curation.StagedRunsProofs
import Daftari.Federation.GuardProofs
import Daftari.Tools.RatifyDispatchProofs
import Daftari.Tools.RatifyProofs

/-! # The server over a vault with mounts — one tool call

    A tool call arrives as a name and arguments.  The guard looks at the arguments; what passes is
    handled.  Two things outlive a call here: the vault's files, and the log of staged actions, from
    which `vault_ratify` makes calls of its own that no guard sees again.

    * `Request`, `serve`: **one tool call**. -/

namespace Federation

open Frontmatter Positions Rbac
open Write (Host Setting Files Ratifier PatchArgs WriteArgs AssertArgs)

/-! ## Surroundings -/

/-- A vault: its host, whose paths are resolved by the file system, what ratifying
    takes from outside, and the host's date parser. -/
structure Vault (B : Type) where
  host : Host B
  fs : Storage.FileSystem
  resolves : ∀ path, host.resolve path = Storage.resolveVaultPath fs host.root path
  ratifier : Ratifier B
  dateParse : String → Option Int

/-- The caller of a call, and its moment: the clock of the queue, and the same instant
    in milliseconds. -/
structure Moment where
  setting : Setting
  clock : Staged.Host
  millis : Int

/-- What outlives a call: the vault's files, the staged actions and the tensions. -/
structure System (B : Type) where
  files : Files B
  staged : Staged.Files

variable {B : Type} (vault : Vault B) (m : Moment)

/-! ## vault_stage_action -/

/-- `vault_stage_action`'s arguments; a number of days is absent inside when it is not finite. -/
structure StageArgs where
  actionType : String
  targetPath : String
  proposedBy : String
  rationale : String
  proposedDiff : Option Value
  runId : Option String
  ttlDays : Option (Option Rat)

/-- The payload shape a staged `write` must have. -/
def checkWriteDiff (diff : Option Value) : Except String Unit :=
  let fields := (Write.asRecord diff).getD []
  Write.refuse ((Write.asRecord diff).isNone
      ∨ (Write.asRecord (fields.lookup "frontmatter")).isNone
      ∨ (asString (fields.lookup "body")).isNone)
    ("vault_stage_action: a 'write' action needs proposed_diff.frontmatter (object) and "
      ++ "proposed_diff.body (string)")

/-- Is an entry of `replacements` a pair of texts? -/
def isReplacement (v : Value) : Bool :=
  (Write.asRecord (some v)).any fun fields =>
    (asString (fields.lookup "old")).isSome && (asString (fields.lookup "new")).isSome

/-- The shape of a staged `repin`'s replacements, when there are any. -/
def checkRepinDiff (fields : Raw) : Except String Unit :=
  let refused : Except String Unit :=
    .error ("vault_stage_action: a 'repin' action's proposed_diff.replacements must be an "
      ++ "array of {old, new} string pairs when present")
  match fields.lookup "replacements" with
  | none => .ok ()
  | some (.arr items) => if items.all isReplacement then .ok () else refused
  | some _ => refused

/-- `args.proposed_diff`, which must be there. -/
def requireDiff : Option Value → Except String Value
  | none | some .null =>
      .error "vault_stage_action requires a 'proposed_diff' object argument"
  | some diff => .ok diff

def checkDiff (actionType : String) (diff : Value) : Except String Unit :=
  if actionType = "write" then checkWriteDiff (some diff)
  else if actionType = "repin" then
    checkRepinDiff ((Write.asRecord (some diff)).getD [])
  else .ok ()

/-- The staging gate: write access to the document's collection, or to the one its
    resolved path starts with. -/
def requireStageAccess (relPath : String) (existing : Option B) : Except String Unit :=
  match m.setting.access with
  | none => .ok ()
  | some a =>
      let declared := (existing.bind fun text =>
        (parseDocument vault.host.codec vault.host.json text).toOption).elim ""
          fun doc => doc.frontmatter.collection
      let collection :=
        if declared ≠ "" then declared
        else String.ofList ((relPath.toList.splitOn '/').head?.getD [])
      Write.refuse (canWrite a.role collection = false)
        ("access denied: role '" ++ a.roleName
          ++ "' cannot stage actions for collection '" ++ collection ++ "'")

/-- The diff that is stored: a `repin`'s with the replacements found now. -/
def storedDiff (args : StageArgs) (diff : Value) (relPath : String) (files : Files B) :
    Except String Value :=
  if args.actionType ≠ "repin" then .ok diff
  else
  match vault.ratifier.computeRepin files relPath with
  | .error reason =>
      .error ("vault_stage_action: computeRepin failed for " ++ args.targetPath ++ ": "
        ++ reason)
  | .ok [] =>
      .error ("vault_stage_action: nothing to re-pin: no pin on " ++ relPath
        ++ " is currently relocated")
  | .ok (first :: rest) =>
      .ok (.obj (Assoc.set ((Write.asRecord (some diff)).getD []) "replacements"
        (.arr ((first :: rest).map fun e => .obj [("old", .str e.1), ("new", .str e.2)]))))

/-- `vaultStageAction`, up to the log: what is staged, under the resolved path. -/
def vaultStageAction (args : StageArgs) (files : Files B) :
    Except String Staged.StageActionInput := do
  Write.requireTexts "vault_stage_action" [("action_type", args.actionType)]
  Write.refuse (args.actionType ∉ Staged.stagedActionTypes)
    ("vault_stage_action 'action_type' must be one of: "
      ++ ", ".intercalate Staged.stagedActionTypes)
  Write.requireTexts "vault_stage_action" [("target_path", args.targetPath),
    ("proposed_by", args.proposedBy), ("rationale", args.rationale)]
  let diff ← requireDiff args.proposedDiff
  checkDiff args.actionType diff
  let relPath ← vault.host.resolve args.targetPath
  let existing := files.lookup relPath
  requireStageAccess vault m relPath existing
  Write.refuse (existing.isNone ∧ args.actionType ≠ "write")
    ("vault_stage_action: target document not found: " ++ args.targetPath)
  let stored ← storedDiff vault args diff relPath files
  Write.refuse (args.ttlDays = some none) "vault_stage_action 'ttl_days' must be a number"
  .ok
    { actionType := args.actionType
      targetPath := relPath
      proposedBy := args.proposedBy
      rationale := args.rationale
      proposedDiff := some (vault.host.json stored)
      ttlDays := args.ttlDays
      runId := args.runId }

/-! ## A propose-only role's writes -/

/-- What a full-document write of a propose-only role is staged as: anchored to the
    file it was composed over, if there is one. -/
def writeProposal (a : AccessContext) (args : WriteArgs) (further : Raw)
    (reason : Option String) (relPath : String) (onDisk : Option B) :
    Staged.StageActionInput where
  actionType := "write"
  targetPath := relPath
  proposedBy := args.agent
  rationale := ((reason.map Staged.trimText).filter (· ≠ "")).getD
    ("propose-only role '" ++ a.roleName ++ "': write staged for ratification")
  proposedDiff := some (vault.host.json (.obj
    ([("frontmatter", .obj args.frontmatter), ("body", .str (String.ofList args.body))]
      ++ further)))
  runId := args.runId
  baseVersion := onDisk.map vault.host.sha256Hex

def shownEdits (args : PatchArgs) : Value :=
  .arr (args.edits.map fun e =>
    .obj [("old", .str (String.ofList e.old)), ("new", .str (String.ofList e.new))])

/-- What an assert of a propose-only role is staged as. -/
def assertProposal (a : AccessContext) (args : AssertArgs) (principal : String)
    (target : Write.Target B) : Staged.StageActionInput :=
  let after := Write.assertFrontmatter m.setting args principal target.parsed.frontmatter
  let capped := after.contested = some true
    ∧ target.parsed.frontmatter.orgPosition = none
  { actionType := "write"
    targetPath := target.relPath
    proposedBy := args.agent
    rationale := "propose-only role '" ++ a.roleName ++ "': position "
      ++ Choice.text args.stance ++ " by '" ++ principal ++ "' staged for ratification"
    proposedDiff := some (vault.host.json (.obj
      [("frontmatter", .obj
        ([("positions", (after.toRaw.lookup "positions").getD .null),
          ("contested", .bool (after.contested.getD false))]
          ++ if capped then [("confidence", .str "low")] else [])),
        ("body", .str (String.ofList target.parsed.content))]))
    runId := args.runId
    baseVersion := some (vault.host.sha256Hex target.text) }

/-- What a staged call puts into the queue; `reason` is `vault_write`'s. -/
def queued (a : AccessContext) (call : Write.Call) (reason : Option String)
    (files : Files B) : Except String Staged.StageActionInput :=
  match call with
  | .write args => do
      let relPath ← vault.host.resolve args.path
      .ok (writeProposal vault a args [] reason relPath (files.lookup relPath))
  | .patch args => do
      let target ← Write.loadTargetDocument vault.host "vault_patch" args.path files
      let body ← Write.applyBodyEdits 0 target.parsed.content args.edits
      .ok (writeProposal vault a (Write.patchWrite vault.host args target body)
        [("body_edits", shownEdits args)] (some args.reason) target.relPath
        (some target.text))
  | .assert args => do
      let principal ← Write.positionPrincipal m.setting "vault_assert"
        "assert a position for another principal" args.principal
      let target ← Write.loadTargetDocument vault.host "vault_assert" args.path files
      .ok (assertProposal vault m a args principal target)
  | _ => .error "not staged"

/-! ## Handlers -/

/-- A call of a write tool: landed, staged, or shadow-logged. -/
def callTool (call : Write.Call) (reason : Option String) (sys : System B) :
    Except String (System B) :=
  match Write.attempt vault.host m.setting call sys.files sys.files, m.setting.access with
  | .error e, _ => .error e
  | .ok (.write plan), _ => do
      let files ← Write.land vault.host plan sys.files
      .ok { sys with files := files }
  | .ok .staged, some a => do
      let input ← queued vault m a call reason sys.files
      let outcome ← Staged.stageActionWithConflictCheck m.clock sys.staged input
      .ok { sys with staged := outcome.2 }
  | .ok _, _ => .ok sys

/-- A call of `vault_stage_action`. -/
def stageTool (args : StageArgs) (sys : System B) : Except String (System B) := do
  let input ← vaultStageAction vault m args sys.files
  let outcome ← Staged.stageActionWithConflictCheck m.clock sys.staged input
  .ok { sys with staged := outcome.2 }

def decided (args : Ratify.Args) (status : Staged.Status) (records : List Staged.RawRecord) :
    List Staged.RawRecord :=
  (Staged.recordDecision records args.id
    (args.decisionInput status m.clock.nowISO)).toOption.getD records

/-- The access checks of `vault_ratify`. -/
def requireRatify : Except String Unit := do
  Write.requireGrant m.setting canRatify "ratify staged actions"
  match m.setting.access with
  | none => .ok ()
  | some a =>
      Write.refuse (isProposeOnly a.role) ("access denied: role '" ++ a.roleName
        ++ "' is propose-only — it cannot ratify staged actions")

/-- An approval: the dispatched call, and the decision when it landed. -/
def approveTool (args : Ratify.Args) (row : Staged.StagedActionRow) (sys : System B) :
    Except String (System B) := do
  let call ← Write.approve vault.host m.setting vault.ratifier row args.principal sys.files
  match Write.attempt vault.host m.setting call sys.files sys.files with
  | .error e => .error e
  | .ok (.write plan) => do
      let files ← Write.land vault.host plan sys.files
      .ok { files := files
            staged := { sys.staged with
              records := decided m args .ratified sys.staged.records } }
  | .ok _ => .ok sys

/-- A call of `vault_ratify`, with nothing running in between. -/
def vaultRatify (args : Ratify.Args) (sys : System B) : Except String (System B) := do
  requireRatify m
  Write.requireTexts "vault_ratify" [("id", args.id), ("principal", args.principal)]
  let row := Staged.getStagedActionById sys.staged.records args.id
  match Ratify.refusal args.id row, row with
  | none, some row =>
      match args.decision with
      | .reject =>
          .ok { sys with staged := { sys.staged with
            records := decided m args .rejected sys.staged.records } }
      | .approve => approveTool vault m args row sys
  | some e, _ => .error e
  | none, none => .ok sys

/-- The sweep of `vault_lint`. -/
def lintSweep (sys : System B) : System B :=
  { sys with staged := { sys.staged with
    records := sys.staged.records
      ++ Staged.sweepRecords vault.dateParse sys.staged.records m.millis m.clock.nowISO } }

/-! ## Requests -/

def toolOf : Write.Call → String
  | .write _ => "vault_write"
  | .patch _ => "vault_patch"
  | .append _ => "vault_append"
  | .promote _ => "vault_promote"
  | .deprecate _ => "vault_deprecate"
  | .setConfidence _ _ => "vault_set_confidence"
  | .setTier _ _ => "vault_set_tier"
  | .supersede _ => "vault_supersede"
  | .unsupersede _ => "vault_unsupersede"
  | .merge _ => "vault_merge"
  | .assert _ => "vault_assert"
  | .consolidate _ => "vault_consolidate"

/-- The path arguments of a write call, under the keys the tool reads them from. -/
def pathArgs : Write.Call → List (String × String)
  | .write args => [("path", args.path)]
  | .patch args => [("path", args.path)]
  | .append args => [("path", args.path)]
  | .promote args | .setConfidence args _ | .setTier args _ | .unsupersede args =>
      [("path", args.path)]
  | .deprecate args => [("path", args.path)]
  | .supersede args => [("old_path", args.oldPath), ("new_path", args.newPath)]
  | .merge args =>
      [("path_a", args.pathA), ("path_b", args.pathB), ("target_path", args.targetPath)]
  | .assert args => [("path", args.path)]
  | .consolidate args => [("path", args.path)]

/-- What a tool makes of its arguments.  The tools under `other` write no document and
    stage nothing. -/
inductive Handler where
  | call (call : Write.Call) (reason : Option String)
  | stage (args : StageArgs)
  | ratify (args : Ratify.Args)
  | lint
  | other (toolName : String)

def Handler.toolName : Handler → String
  | .call c _ => toolOf c
  | .stage _ => "vault_stage_action"
  | .ratify _ => "vault_ratify"
  | .lint => "vault_lint"
  | .other toolName => toolName

def Handler.pathArgs : Handler → List (String × String)
  | .call c _ => Federation.pathArgs c
  | .stage args => [("target_path", args.targetPath)]
  | _ => []

/-- A tool call: its arguments as they arrive hold, at least, the path arguments its
    handler reads. -/
structure Request where
  handler : Handler
  args : Raw
  moment : Moment
  reads : ∀ e ∈ handler.pathArgs, args.lookup e.1 = some (.str e.2)

def handle (req : Request) (sys : System B) : Except String (System B) :=
  match req.handler with
  | .call call reason => callTool vault req.moment call reason sys
  | .stage args => stageTool vault req.moment args sys
  | .ratify args => vaultRatify vault req.moment args sys
  | .lint => .ok (lintSweep vault req.moment sys)
  | .other _ => .ok sys

/-- `tools/call`: the guard, then the handler. -/
def serve (registry : MountRegistry) (req : Request) (sys : System B) : Except String (System B) :=
  match refusal registry req.handler.toolName req.args with
  | some e => .error ("Error: " ++ e)
  | none => handle vault req sys

/-- **The server**: any sequence of tool calls; one that fails changes nothing. -/
def server (registry : MountRegistry) : Machine (System B) Request where
  enabled _ _ := True
  next sys req := (serve vault registry req sys).toOption.getD sys

end Federation
