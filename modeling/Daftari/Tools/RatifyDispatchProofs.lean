import Daftari.Curation.StagedActionsProofs
import Daftari.Curation.Tier0Proofs
import Daftari.Tools.WriteEffectsProofs

/-! # Approving a staged action — the gate, and the call it becomes

    An approved action is turned back into a call of the write tool its type names,
    over the target path and the payload that were stored when it was staged.  A
    promote, a deprecate and a write pass the tier-0 gate first.

    * `dispatch`: one call for each action type;
    * `approve_creates`: **the approvals that can create a file**;
    * `created_of_landed`: **what a landed call creates.** -/

namespace Write

open Frontmatter Positions SupersedeChains Rbac Tier0
open Staged (StagedActionRow)

/-! ## Payloads -/

/-- What ratifying takes from outside: `JSON.parse` of a stored diff, and the
    replacements `computeRepin` finds, which depend on the code repositories. -/
structure Ratifier (B : Type) where
  parseDiff : String → Value
  computeRepin : Files B → String → Except String (List (String × String))

/-- The fields of a value whose `typeof` is `object`, each key once; an array's keys
    are its indices. -/
def asRecord : Option Value → Option Raw
  | some (.obj fields) => some (assign [] fields)
  | some (.arr items) => some (assign [] (items.zipIdx.map fun e => (toString e.2, e.1)))
  | _ => none

theorem nodup_asRecord {v : Option Value} {record : Raw} (h : asRecord v = some record) :
    (Assoc.keys record).Nodup := by
  have hnodup : ∀ fields : Raw, (Assoc.keys (assign [] fields)).Nodup := fun fields =>
    (assign_touches [] fields).nodup List.nodup_nil
  unfold asRecord at h
  split at h
  · obtain rfl := Option.some.inj h
    exact hnodup _
  · obtain rfl := Option.some.inj h
    exact hnodup _
  · cases h

def textField (diff : Raw) (field : String) : Option String := asString (diff.lookup field)

/-- The payload of a `write` action. -/
structure WritePayload where
  frontmatter : Raw
  nodup : (Assoc.keys frontmatter).Nodup
  body : List Char

/-- The payload check of a `write` action. -/
def writePayload (id : String) (diff : Raw) : Except String WritePayload :=
  match hfm : asRecord (diff.lookup "frontmatter") with
  | none =>
      .error ("vault_ratify: write action " ++ id ++ " needs proposed_diff.frontmatter")
  | some frontmatter =>
      match textField diff "body" with
      | none => .error ("vault_ratify: write action " ++ id ++ " needs proposed_diff.body")
      | some body => .ok ⟨frontmatter, nodup_asRecord hfm, body.toList⟩

/-- The payload of an action: only a `write` has one. -/
def payloadOf (row : StagedActionRow) (diff : Raw) : Except String (Option WritePayload) :=
  if row.actionType = "write" then (writePayload row.id diff).map some else .ok none

section Ratifying

variable {B : Type} (host : Host B) (s : Setting) (ratifier : Ratifier B)

/-! ## The tier-0 gate -/

/-- `visible`: every document without an access context, else what the role reads. -/
def visibleTo (doc : ParsedDocument) : Bool :=
  s.access.all fun a => canRead a.role doc.frontmatter.collection

/-- The document the gate takes a `write` to leave: the payload over the typed
    frontmatter of what is there. -/
def synthetic (existing : Option ParsedDocument) (payload : WritePayload) : ParsedDocument :=
  let mergedRaw := overlay [] ((existing.map fun doc => doc.frontmatter.toRaw).getD [])
    payload.frontmatter
  let checked := validateFrontmatter host.json mergedRaw host.config.extensions
  { frontmatter := checked.1, content := payload.body, raw := mergedRaw,
    issues := checked.2 }

/-- A gate that reports problems blocks. -/
def blocked (problems : Option String) (message : String → String) : Except String Unit :=
  match problems with
  | none => .ok ()
  | some problems => .error (message problems)

/-- The gate of a `write`: a promote when it leaves a canonical document, a deprecate
    when it takes one away without a successor. -/
def writeGate (row : StagedActionRow) (payload : WritePayload) (docs : Docs) : Except String Unit :=
  let existing := docs.lookup row.targetPath
  let after := synthetic host existing payload
  if after.frontmatter.status = .canonical then
    let others := docs.filter fun d => d.1 ≠ row.targetPath
    blocked (promoteGateProblems (tier0PromoteGate (others ++ [(row.targetPath, after)])
        row.targetPath (visibleTo s)))
      fun problems => "vault_ratify: tier-0 gate blocked canonical write of "
        ++ row.targetPath ++ ": " ++ problems ++ " — the action stays pending"
  else if existing.any (fun doc => doc.frontmatter.status = .canonical)
      ∧ (after.frontmatter.supersededBy.filter (· ≠ "")).isNone then
    blocked (deprecateGateProblems (tier0DeprecateGate docs row.targetPath (visibleTo s)))
      fun problems => "vault_ratify: tier-0 gate blocked demoting write of "
        ++ row.targetPath ++ " (canonical → " ++ Choice.text after.frontmatter.status
        ++ "): " ++ problems ++ " — supersede with a successor or update the dependents "
        ++ "first; the action stays pending"
  else .ok ()

/-- The tier-0 gate; a deprecate that names a successor strands nobody. -/
def tier0Gate (row : StagedActionRow) (diff : Raw) (payload : Option WritePayload)
    (files : Files B) : Except String Unit :=
  let docs := loadDocuments host files
  match row.actionType, payload with
  | "write", some payload => writeGate host s row payload docs
  | "promote", _ =>
      blocked (promoteGateProblems (tier0PromoteGate docs row.targetPath (visibleTo s)))
        fun problems => "vault_ratify: tier-0 gate blocked promote of " ++ row.targetPath
          ++ ": " ++ problems ++ " — the action stays pending"
  | "deprecate", _ =>
      if (textField diff "superseded_by").isSome then .ok ()
      else
        blocked (deprecateGateProblems (tier0DeprecateGate docs row.targetPath (visibleTo s)))
          fun problems => "vault_ratify: tier-0 gate blocked deprecate of "
            ++ row.targetPath ++ ": " ++ problems ++ " — supersede with a successor or "
            ++ "update the dependents first; the action stays pending"
  | _, _ => .ok ()

/-! ## The dispatch -/

/-- The call of a `write` action: a snapshot that is anchored where the proposal was. -/
def writeAction (row : StagedActionRow) (payload : WritePayload) (principal : String) :
    WriteArgs where
  path := row.targetPath
  agent := principal
  body := payload.body
  frontmatter := payload.frontmatter
  nodup := payload.nodup
  baseVersion := row.baseVersion.filter (· ≠ "")
  runId := row.runId.filter (· ≠ "")

/-- The two sources of a `merge` action. -/
def mergeFrom (diff : Raw) : Option (String × String) :=
  match diff.lookup "merge_from" with
  | some (.arr [.str a, .str b]) => some (a, b)
  | _ => none

/-- The call of a `merge` action. -/
def mergeAction (row : StagedActionRow) (diff : Raw) (principal : String) : Except String Call :=
  match mergeFrom diff, textField diff "body" with
  | some (a, b), some body =>
      .ok (.merge
        { pathA := a
          pathB := b
          targetPath := row.targetPath
          agent := principal
          body := body.toList
          frontmatter := (asRecord (diff.lookup "frontmatter")).getD []
          nodup := by
            cases h : asRecord (diff.lookup "frontmatter") with
            | none => exact List.nodup_nil
            | some record => exact nodup_asRecord h
          boundary := none
          runId := none })
  | _, _ =>
      .error ("vault_ratify: merge action " ++ row.id ++ " needs proposed_diff.merge_from "
        ++ "(two paths) and proposed_diff.body")

/-- The call of a `repin` action: the replacements are computed again, over the file
    as it is now. -/
def repinAction (row : StagedActionRow) (principal : String) (files : Files B) :
    Except String Call :=
  match ratifier.computeRepin files row.targetPath with
  | .error reason =>
      .error ("vault_ratify: computeRepin failed for " ++ row.targetPath ++ ": " ++ reason
        ++ " — the action stays pending")
  | .ok [] =>
      .error ("vault_ratify: nothing is currently relocated for " ++ row.targetPath
        ++ " — the pin may have been fixed or the block deleted; the action stays pending")
  | .ok (first :: rest) =>
      match host.resolve row.targetPath with
      | .error reason =>
          .error ("vault_ratify: cannot resolve path " ++ row.targetPath ++ ": " ++ reason
            ++ " — the action stays pending")
      | .ok relPath =>
          match files.lookup relPath with
          | none =>
              .error ("vault_ratify: document not found at dispatch: " ++ row.targetPath
                ++ " — the action stays pending")
          | some text =>
              match parseDocument host.codec host.json text with
              | .error reason =>
                  .error ("vault_ratify: cannot parse document " ++ row.targetPath ++ ": "
                    ++ reason ++ " — the action stays pending")
              | .ok doc =>
                  let replaced := doc.frontmatter.describes.map fun entry =>
                    ((first :: rest).reverse.lookup entry).getD entry
                  .ok (.write
                    { path := row.targetPath
                      agent := principal
                      body := doc.content
                      frontmatter := [("describes", texts replaced)]
                      nodup := List.nodup_singleton _
                      baseVersion := none
                      runId := row.runId.filter (· ≠ "") })

/-- The arguments of the frontmatter tools: the rationale is the reason. -/
def lifecycleAction (row : StagedActionRow) (principal : String) : LifecycleArgs where
  path := row.targetPath
  agent := principal
  reason := row.rationale
  baseVersion := none
  runId := none

/-- The call of a `supersede` action. -/
def supersedeAction (row : StagedActionRow) (diff : Raw) (principal : String) :
    Except String Call :=
  match (textField diff "superseded_by").filter fun new => !blank new with
  | none =>
      .error ("vault_ratify: supersede action " ++ row.id
        ++ " needs proposed_diff.superseded_by")
  | some new =>
      .ok (.supersede
        { oldPath := row.targetPath
          newPath := new
          agent := principal
          boundary := none
          baseVersion := none
          runId := none })

/-- The call of a `confidence-up` action. -/
def confidenceAction (row : StagedActionRow) (diff : Raw) (principal : String) :
    Except String Call :=
  match textField diff "confidence" with
  | none =>
      .error ("vault_ratify: confidence-up action " ++ row.id
        ++ " needs proposed_diff.confidence")
  | some word =>
      match (Choice.ofText word : Option Confidence) with
      | none =>
          .error ("vault_set_confidence: 'confidence' must be one of: "
            ++ ", ".intercalate (Choice.words Confidence))
      | some confidence => .ok (.setConfidence (lifecycleAction row principal) confidence)

def dispatch (row : StagedActionRow) (diff : Raw) (payload : Option WritePayload)
    (principal : String) (files : Files B) : Except String Call :=
  let args := lifecycleAction row principal
  match row.actionType with
  | "write" =>
      match payload with
      | none => .error ("vault_ratify: write action " ++ row.id ++ " lost its payload")
      | some payload => .ok (.write (writeAction row payload principal))
  | "promote" => .ok (.promote args)
  | "deprecate" =>
      .ok (.deprecate { args with
        supersededBy := textField diff "superseded_by"
        boundary := none })
  | "supersede" => supersedeAction row diff principal
  | "unsupersede" => .ok (.unsupersede args)
  | "confidence-up" => confidenceAction row diff principal
  | "merge" => mergeAction row diff principal
  | "repin" => repinAction host ratifier row principal files
  | other => .error ("vault_ratify: no dispatch for action type '" ++ other ++ "'")

/-- An approval up to its dispatched call: payload, gate, call. -/
def approve (row : StagedActionRow) (principal : String) (files : Files B) :
    Except String Call := do
  let diff := (asRecord (some (ratifier.parseDiff row.proposedDiff))).getD []
  let payload ← payloadOf row diff
  tier0Gate host s row diff payload files
  dispatch host ratifier row diff payload principal files

/-! ## What an approval calls -/

variable {host s ratifier} {row : StagedActionRow} {diff : Raw}
  {payload : Option WritePayload} {principal : String} {files : Files B} {call : Call}

/-- Can the call of an action create its target?  A merge can; a write can unless the
    proposal was anchored to a version of the file. -/
def creates (row : StagedActionRow) : Bool :=
  row.actionType = "merge"
    || (row.actionType = "write" && (row.baseVersion.filter (· ≠ "")).isNone)

/-- A call that only rewrites what is there: of a single-document tool, or of a write
    that is anchored to a version or whose file was found. -/
inductive Rewrites (host : Host B) (files : Files B) : Call → Prop where
  | single {call : Call} : call.single = true → Rewrites host files call
  | anchored {args : WriteArgs} {version : String} :
      args.baseVersion = some version → version ≠ "" → Rewrites host files (.write args)
  | found {args : WriteArgs} {relPath : String} :
      host.resolve args.path = .ok relPath → (files.lookup relPath).isSome = true →
        Rewrites host files (.write args)

theorem repinAction_rewrites (h : repinAction host ratifier row principal files = .ok call) :
    call.path = row.targetPath ∧ Rewrites host files call := by
  unfold repinAction at h
  split at h
  · cases h
  · cases h
  · split at h
    · cases h
    · rename_i relPath hresolve
      split at h
      · cases h
      · rename_i text hfile
        split at h
        · cases h
        · obtain rfl := Except.ok.inj h
          exact ⟨rfl, .found hresolve (by rw [hfile]; rfl)⟩

theorem mergeAction_path (h : mergeAction row diff principal = .ok call) :
    call.path = row.targetPath := by
  unfold mergeAction at h
  split at h
  · obtain rfl := Except.ok.inj h
    rfl
  · cases h

theorem supersedeAction_single (h : supersedeAction row diff principal = .ok call) :
    call.path = row.targetPath ∧ call.single = true := by
  unfold supersedeAction at h
  split at h
  · cases h
  · obtain rfl := Except.ok.inj h
    exact ⟨rfl, rfl⟩

theorem confidenceAction_single (h : confidenceAction row diff principal = .ok call) :
    call.path = row.targetPath ∧ call.single = true := by
  unfold confidenceAction at h
  split at h
  · cases h
  · split at h
    · cases h
    · obtain rfl := Except.ok.inj h
      exact ⟨rfl, rfl⟩

theorem writeAction_creates (payload : WritePayload) (hwrite : row.actionType = "write") :
    creates row = true ∨ Rewrites host files (.write (writeAction row payload principal)) := by
  cases hbase : row.baseVersion.filter (· ≠ "") with
  | none =>
      refine Or.inl ?_
      unfold creates
      rw [hbase, hwrite]
      rfl
  | some version =>
      exact Or.inr (.anchored hbase (by simpa using Option.filter_eq_some_iff.mp hbase |>.2))

/-- **The call of an action** is about the action's target, and only a merge or an
    unanchored write can create it. -/
theorem dispatch_creates (h : dispatch host ratifier row diff payload principal files = .ok call) :
    call.path = row.targetPath ∧ (creates row = true ∨ Rewrites host files call) := by
  unfold dispatch at h
  split at h
  · rename_i hwrite
    cases payload with
    | none => cases h
    | some payload =>
        obtain rfl := Except.ok.inj h
        exact ⟨rfl, writeAction_creates payload hwrite⟩
  · obtain rfl := Except.ok.inj h
    exact ⟨rfl, Or.inr (.single rfl)⟩
  · obtain rfl := Except.ok.inj h
    exact ⟨rfl, Or.inr (.single rfl)⟩
  · obtain ⟨hpath, hsingle⟩ := supersedeAction_single h
    exact ⟨hpath, Or.inr (.single hsingle)⟩
  · obtain rfl := Except.ok.inj h
    exact ⟨rfl, Or.inr (.single rfl)⟩
  · obtain ⟨hpath, hsingle⟩ := confidenceAction_single h
    exact ⟨hpath, Or.inr (.single hsingle)⟩
  · rename_i hmerge
    refine ⟨mergeAction_path h, Or.inl ?_⟩
    unfold creates
    rw [hmerge]
    rfl
  · obtain ⟨hpath, hrewrites⟩ := repinAction_rewrites h
    exact ⟨hpath, Or.inr hrewrites⟩
  · cases h

/-- **An approval's call**, past payload check and gate. -/
theorem approve_creates (h : approve host s ratifier row principal files = .ok call) :
    call.path = row.targetPath ∧ (creates row = true ∨ Rewrites host files call) := by
  obtain ⟨payload, _, h⟩ := bind_eq_ok h
  obtain ⟨_, _, h⟩ := bind_eq_ok h
  exact dispatch_creates h

end Ratifying

/-! ## What a landing creates -/

section Landing

variable {B : Type} {host : Host B} {s : Setting} {call : Call} {files docs files' : Files B}
  {plan : Plan B}

variable {p : String}

theorem found_of_single (hsingle : call.single = true)
    (hattempt : attempt host s call files docs = .ok (.write plan))
    (hp : p ∈ plan.writes.map Prod.fst) : (files.lookup p).isSome = true := by
  obtain ⟨target, text, r, r', hrw, -⟩ := attempt_changes hsingle hattempt
  rw [hrw.writes, List.map_singleton, List.mem_singleton] at hp
  rw [hp, hrw.loaded.file]
  rfl

theorem found_of_merge {args : MergeArgs}
    (hattempt : attempt host s (.merge args) files docs = .ok (.write plan))
    (hp : p ∈ plan.writes.map Prod.fst) :
    (files.lookup p).isSome = true ∨ host.resolve args.targetPath = .ok p := by
  obtain ⟨a, targetRel, text, r', sources, hm⟩ := vaultMerge_merges hattempt
  rw [hm.writes, List.map_cons, List.mem_cons] at hp
  rcases hp with rfl | hp
  · exact Or.inr hm.resolve
  · obtain ⟨w, hw, rfl⟩ := List.mem_map.mp hp
    obtain ⟨e, he, rfl⟩ := List.mem_map.mp hw
    refine Or.inl ?_
    rw [(hm.source e he).1]
    rfl

theorem found_of_write {args : WriteArgs}
    (hattempt : attempt host s (.write args) files docs = .ok (.write plan))
    (hland : land host plan files = .ok files') (hp : p ∈ plan.writes.map Prod.fst) :
    host.resolve args.path = .ok p
      ∧ (Rewrites host files (.write args) → (files.lookup p).isSome = true) := by
  obtain ⟨relPath, hresolve, hdirect⟩ := direct_of_writeDocument
    (show writeDocument host s args none files = .ok (.write plan) from hattempt)
  obtain ⟨text, hsnap, hwrites, -, -⟩ := writeDirect_updates hdirect
  rw [hwrites, List.map_singleton, List.mem_singleton] at hp
  refine ⟨hp ▸ hresolve, ?_⟩
  intro hrewrites
  rw [hp]
  cases hrewrites with
  | single hsingle => cases hsingle
  | anchored hbase hne =>
      -- the version the write declares was found under the lock
      have hsnaps := (land_eq_ok host hland).1
      rw [hsnap] at hsnaps
      unfold declared at hsnaps
      rw [hbase, Option.filter_some_pos (by simpa using hne)] at hsnaps
      have hversion := hsnaps _ List.mem_cons_self
      cases hl : files.lookup relPath with
      | none => rw [hl] at hversion; cases hversion
      | some text => rfl
  | found hres hfound =>
      obtain rfl := Except.ok.inj (hresolve.symm.trans hres)
      exact hfound

/-- **What a landing creates**: a file that was not there before is the one a write or a
    merge names, and the call is not one that only rewrites. -/
theorem created_of_landed (hattempt : attempt host s call files docs = .ok (.write plan))
    (hland : land host plan files = .ok files') (hafter : (files'.lookup p).isSome = true) :
    (files.lookup p).isSome = true
      ∨ (host.resolve call.path = .ok p ∧ ¬ Rewrites host files call) := by
  rw [(land_eq_ok host hland).2] at hafter
  by_cases hp : p ∈ plan.writes.map Prod.fst
  · by_cases hsingle : call.single = true
    · exact Or.inl (found_of_single hsingle hattempt hp)
    · cases call with
      | write args =>
          obtain ⟨hresolve, hfound⟩ := found_of_write hattempt hland hp
          by_cases hrewrites : Rewrites host files (.write args)
          · exact Or.inl (hfound hrewrites)
          · exact Or.inr ⟨hresolve, hrewrites⟩
      | merge args =>
          refine (found_of_merge hattempt hp).imp_right fun hresolve => ⟨hresolve, ?_⟩
          rintro ⟨hs⟩
          cases hs
      | _ => exact absurd rfl hsingle
  · rw [lookup_writeAll_of_not_mem hp] at hafter
    exact Or.inl hafter

end Landing

end Write
