import Daftari.Federation.ServerProofs

/-! # Runs of the guarded server — no write shadows a mount

    The guard reads the text of a path argument.  The file lands where that text resolves to; a
    staged action is stored under the resolved path, trimmed, and lands where that resolves to.  The
    guard keeps shadowing files out exactly as far as the three agree.

    * `Inv.serve`: **one tool call**;
    * `no_shadow_of_spelled`: **every sequence of tool calls**. -/

namespace Federation

open Rbac
open Write (creates)

variable {B : Type} (vault : Vault B) (registry : MountRegistry)

/-! ## Where a path argument ends up -/

/-- The file an argument's text resolves to; for a staged action, the file its stored
    target resolves to. -/
def landsAt (queue : Bool) (raw : String) : Option String :=
  (vault.host.resolve raw).toOption.bind fun relPath =>
    if queue then (vault.host.resolve (Staged.trimText relPath)).toOption else some relPath

/-- If an argument ends up shadowing a mount, it shadows it as it is written. -/
def spelled (queue : Bool) (raw : String) : Bool :=
  (landsAt vault queue raw).all fun relPath =>
    !shadows registry relPath || shadows registry raw

def present (sys : System B) (raw : String) : Bool :=
  (vault.host.resolve raw).toOption.any fun relPath => (sys.files.lookup relPath).isSome

/-- Does the caller only propose? -/
def Moment.proposes (m : Moment) : Bool :=
  m.setting.access.any fun a => isProposeOnly a.role

/-- **The condition on a call**: where it may create a file, now or out of the queue,
    the path it names is spelled as it ends up. -/
def spellsOut (sys : System B) (req : Request) : Bool :=
  match req.handler with
  | .call (.write args) _ =>
      present vault sys args.path || spelled vault registry req.moment.proposes args.path
  | .call (.merge args) _ =>
      present vault sys args.targetPath || spelled vault registry false args.targetPath
  | .stage args =>
      !(args.actionType = "write" || args.actionType = "merge")
        || spelled vault registry true args.targetPath
  | _ => true

/-- **The condition on the queue**: a pending action that can create its target does
    not create a shadowing file. -/
def safeRow (row : Staged.StagedActionRow) : Bool :=
  !creates row || (vault.host.resolve row.targetPath).toOption.all fun relPath =>
    !shadows registry relPath

def Unshadowed (sys : System B) : Prop :=
  ∀ path, (sys.files.lookup path).isSome = true → shadows registry path = false

/-- No pending action would create one that does. -/
def QueueSafe (records : List Staged.RawRecord) : Prop :=
  ∀ id row, Staged.getStagedActionById records id = some row → row.status = .pending →
    safeRow vault registry row = true

structure Inv (sys : System B) : Prop where
  files : Unshadowed registry sys
  queue : QueueSafe vault registry sys.staged.records

variable {vault registry} {m : Moment} {sys sys' : System B}

/-! ## What the guard lets through -/

variable {req : Request}

theorem plain_of_passed (hpass : refusal registry req.handler.toolName req.args = none)
    (htool : req.handler.toolName ∉ federatedTools) (key : String) {text : String}
    (harg : (key, text) ∈ req.handler.pathArgs) (hkey : isPathKey key = true) :
    shadows registry text = false := by
  rw [← Bool.not_eq_true]
  intro hshadows
  have hmem := Assoc.mem_of_lookup (req.reads _ harg)
  have hsome := refusal_of_shadows htool hmem hkey hshadows
  rw [hpass] at hsome
  cases hsome

theorem toolOf_not_federated (call : Write.Call) : toolOf call ∉ federatedTools := by
  cases call with
  | _ => simp [toolOf, federatedTools]

variable {reason : Option String} {call : Write.Call}

theorem plain_argument (hcall : req.handler = .call call reason)
    (hpass : refusal registry req.handler.toolName req.args = none) (key : String) {text : String}
    (harg : (key, text) ∈ pathArgs call) (hkey : isPathKey key = true) :
    shadows registry text = false := by
  refine plain_of_passed hpass ?_ key ?_ hkey
  · rw [hcall]
    exact toolOf_not_federated call
  · rw [hcall]
    exact harg

variable {relPath raw : String}

theorem plain_of_spelled {queue : Bool} (hspelled : spelled vault registry queue raw = true)
    (hraw : shadows registry raw = false) (hlands : landsAt vault queue raw = some relPath) :
    shadows registry relPath = false := by
  unfold spelled at hspelled
  rw [hlands, Option.all_some, hraw, Bool.or_false, Bool.not_eq_true'] at hspelled
  exact hspelled

theorem landsAt_now (h : vault.host.resolve raw = .ok relPath) :
    landsAt vault false raw = some relPath := by
  unfold landsAt
  rw [h]
  rfl

theorem landsAt_queued {final : String} (h : vault.host.resolve raw = .ok relPath)
    (hfinal : vault.host.resolve (Staged.trimText relPath) = .ok final) :
    landsAt vault true raw = some final := by
  unfold landsAt
  rw [h]
  show (vault.host.resolve (Staged.trimText relPath)).toOption = some final
  rw [hfinal]
  rfl

/-! ## The queue -/

variable {input : Staged.StageActionInput}

theorem safeRow_seed {id proposedAt expiresAt : String}
    (h : input.actionType = "merge"
        ∨ input.actionType = "write" ∧ (input.baseVersion.filter (· ≠ "")).isNone = true →
      ∀ final, vault.host.resolve (Staged.trimText input.targetPath) = .ok final →
        shadows registry final = false) :
    safeRow vault registry
      ((Staged.proposalRecord input id proposedAt expiresAt).seed input.actionType) = true := by
  unfold safeRow
  cases hcreates : creates
      ((Staged.proposalRecord input id proposedAt expiresAt).seed input.actionType) with
  | false => rfl
  | true =>
      unfold creates at hcreates
      rw [Bool.or_eq_true, Bool.and_eq_true, decide_eq_true_iff, decide_eq_true_iff]
        at hcreates
      have hbase : ((input.baseVersion.filter (· ≠ "")).filter (· ≠ ""))
          = input.baseVersion.filter (· ≠ "") := by
        rw [Option.filter_filter]
        simp only [Bool.and_self]
      have hplain := h (hcreates.imp_right fun hw => ⟨hw.1, by
        have hnone := hw.2
        change (Option.filter _ (Option.filter _ _)).isNone = true at hnone
        rw [hbase] at hnone
        exact hnone⟩)
      show (vault.host.resolve (Staged.trimText input.targetPath)).toOption.all _ = true
      cases hres : vault.host.resolve (Staged.trimText input.targetPath) with
      | error e => rfl
      | ok final =>
          show (!shadows registry final) = true
          rw [hplain final hres]
          rfl

/-- **Staging keeps the queue safe** when the stored target does not shadow. -/
theorem QueueSafe.stage {host : Staged.Host} {files files' : Staged.Files}
    {outcome : Staged.StageOutcome} (hq : QueueSafe vault registry files.records)
    (hstage : Staged.stageActionWithConflictCheck host files input = .ok (outcome, files'))
    (h : input.actionType = "merge"
        ∨ input.actionType = "write" ∧ (input.baseVersion.filter (· ≠ "")).isNone = true →
      ∀ final, vault.host.resolve (Staged.trimText input.targetPath) = .ok final →
        shadows registry final = false) : QueueSafe vault registry files'.records := by
  obtain ⟨-, -, proposedAt, expiresAt, hrecords⟩ := Staged.stageChecked_ok hstage
  intro id row hrow hpending
  rw [hrecords] at hrow
  unfold Staged.getStagedActionById at hrow
  rw [Staged.collapse_snoc] at hrow
  change (Assoc.set (Staged.collapse files.records) outcome.id
    ((Staged.proposalRecord input outcome.id proposedAt expiresAt).seed input.actionType)).lookup
      id = some row at hrow
  rw [Assoc.lookup_set] at hrow
  split at hrow
  · obtain rfl := Option.some.inj hrow
    exact safeRow_seed h
  · exact hq id row hrow hpending

theorem QueueSafe.decide {records : List Staged.RawRecord}
    (hq : QueueSafe vault registry records) (d : Staged.DecisionInput)
    (hclosed : d.status ≠ .pending) (ids : List String) :
    QueueSafe vault registry (records ++ ids.map d.record) := by
  intro id row hrow hpending
  have hstatus := Staged.statusOf_decisions d ids records id
  unfold Staged.statusOf at hstatus
  rw [hrow, Option.map_some, hpending] at hstatus
  by_cases hid : id ∈ ids
  · split at hstatus
    · exact absurd (Option.some.inj hstatus).symm hclosed
    · rename_i hnone
      exact absurd ⟨hid, by rw [← hstatus]; rfl⟩ hnone
  · rw [(Staged.lookup_decisions d ids records id).2 hid] at hrow
    exact hq id row hrow hpending

/-! ## Write calls -/

variable {plan : Write.Plan B}

theorem Unshadowed.land {setting : Write.Setting} {files' : Write.Files B}
    (hf : Unshadowed registry sys)
    (hattempt : Write.attempt vault.host setting call sys.files sys.files = .ok (.write plan))
    (hland : Write.land vault.host plan sys.files = .ok files')
    (hnew : ∀ path, vault.host.resolve call.path = .ok path →
      ¬ Write.Rewrites vault.host sys.files call → (sys.files.lookup path).isSome = true
        ∨ shadows registry path = false) :
    ∀ path, (files'.lookup path).isSome = true → shadows registry path = false := by
  intro path hafter
  rcases Write.created_of_landed hattempt hland hafter with hbefore | ⟨hresolve, hcreates⟩
  · exact hf path hbefore
  · rcases hnew path hresolve hcreates with hbefore | hplain
    · exact hf path hbefore
    · exact hplain

theorem present_eq_true {path : String} (hresolve : vault.host.resolve raw = .ok path) :
    present vault sys raw = (sys.files.lookup path).isSome := by
  unfold present
  rw [hresolve]
  rfl

theorem not_proposes_of_plan {args : Write.WriteArgs}
    (hattempt : Write.attempt vault.host m.setting (.write args) sys.files sys.files
      = .ok (.write plan)) : m.proposes = false := by
  change Write.writeDocument vault.host m.setting args none sys.files = .ok (.write plan)
    at hattempt
  unfold Write.writeDocument at hattempt
  simp only [Write.bind_eq_ok_iff] at hattempt
  obtain ⟨_, _, _, _, _, _, hattempt⟩ := hattempt
  split at hattempt
  · unfold Write.stageWrite at hattempt
    obtain ⟨_, _, hattempt⟩ := Write.bind_eq_ok hattempt
    obtain ⟨_, _, hattempt⟩ := Write.bind_eq_ok hattempt
    cases hattempt
  · rename_i hnone
    unfold Moment.proposes
    cases ha : m.setting.access with
    | none => rfl
    | some a =>
        rw [ha, Option.filter_eq_none_iff] at hnone
        simpa using hnone a rfl

theorem not_staged_of_writeDirect {args : Write.WriteArgs} {patching : Bool} {existing : Option B} :
    ¬ Write.writeDirect vault.host m.setting args patching relPath existing = .ok .staged := by
  intro h
  unfold Write.writeDirect at h
  simp only [Write.bind_eq_ok_iff] at h
  obtain ⟨_, _, _, _, _, _, _, _, _, _, h⟩ := h
  obtain ⟨_, _, h⟩ := Write.bind_eq_ok h
  split at h
  · cases h
  · cases h

/-- **A write call that creates a file** creates one that does not shadow. -/
theorem plain_of_call (hcall : req.handler = .call call reason)
    (hpass : refusal registry req.handler.toolName req.args = none)
    (hspelled : spellsOut vault registry sys req = true)
    (hattempt : Write.attempt vault.host req.moment.setting call sys.files sys.files
      = .ok (.write plan)) (path : String) (hresolve : vault.host.resolve call.path = .ok path)
    (hcreates : ¬ Write.Rewrites vault.host sys.files call) :
    (sys.files.lookup path).isSome = true ∨ shadows registry path = false := by
  unfold spellsOut at hspelled
  rw [hcall] at hspelled
  cases call with
  | write args =>
      change vault.host.resolve args.path = .ok path at hresolve
      have hraw : shadows registry args.path = false :=
        plain_argument hcall hpass "path" List.mem_cons_self (by decide)
      rw [Bool.or_eq_true, present_eq_true hresolve] at hspelled
      refine hspelled.imp_right fun h => ?_
      rw [not_proposes_of_plan hattempt] at h
      exact plain_of_spelled h hraw (landsAt_now hresolve)
  | merge args =>
      change vault.host.resolve args.targetPath = .ok path at hresolve
      have harg : ("target_path", args.targetPath) ∈ pathArgs (.merge args) :=
        List.mem_cons_of_mem _ (List.mem_cons_of_mem _ List.mem_cons_self)
      have hraw : shadows registry args.targetPath = false :=
        plain_argument hcall hpass "target_path" harg (by decide)
      rw [Bool.or_eq_true, present_eq_true hresolve] at hspelled
      exact hspelled.imp_right fun h =>
        plain_of_spelled h hraw (landsAt_now hresolve)
  | _ => exact absurd (.single rfl) hcreates

theorem not_creates_of_base {actionType : String} {base : Option String} {version : String}
    (hwrite : actionType = "write") (hbase : base = some version) (hne : version ≠ "") :
    ¬ (actionType = "merge"
      ∨ actionType = "write" ∧ (base.filter (· ≠ "")).isNone = true) := by
  rintro (hmerge | ⟨-, hnone⟩)
  · rw [hwrite] at hmerge
    exact absurd hmerge (by decide)
  · rw [hbase, Option.filter_some_pos (by simpa using hne)] at hnone
    cases hnone

/-- **What a propose-only write stages** does not shadow out of the queue. -/
theorem plain_of_queued (hcall : req.handler = .call call reason)
    (hpass : refusal registry req.handler.toolName req.args = none)
    (hspelled : spellsOut vault registry sys req = true) {a : AccessContext}
    (hstaged : Write.attempt vault.host req.moment.setting call sys.files sys.files = .ok .staged)
    (ha : req.moment.setting.access = some a)
    (hqueued : queued vault req.moment a call reason sys.files = .ok input)
    (hcreates : input.actionType = "merge"
      ∨ input.actionType = "write" ∧ (input.baseVersion.filter (· ≠ "")).isNone = true)
    (final : String) (hfinal : vault.host.resolve (Staged.trimText input.targetPath) = .ok final) :
    shadows registry final = false := by
  have hanchored : ∀ text : B, vault.host.sha256Hex text ≠ "" :=
    vault.host.sha256Hex_ne_empty
  cases call with
  | write args =>
      obtain ⟨relPath, hresolve, hinput⟩ := Write.bind_eq_ok hqueued
      obtain rfl := Except.ok.inj hinput
      have hraw : shadows registry args.path = false :=
        plain_argument hcall hpass "path" List.mem_cons_self (by decide)
      unfold spellsOut at hspelled
      rw [hcall, Bool.or_eq_true, present_eq_true hresolve] at hspelled
      have habsent : (sys.files.lookup relPath).isSome = false := by
        cases hfile : sys.files.lookup relPath with
        | none => rfl
        | some text =>
            refine absurd hcreates (not_creates_of_base rfl ?_ (hanchored text))
            show (sys.files.lookup relPath).map vault.host.sha256Hex = _
            rw [hfile]
            rfl
      rw [habsent] at hspelled
      have h := hspelled.resolve_left Bool.false_ne_true
      have hproposes : req.moment.proposes = true := by
        change Write.writeDocument vault.host req.moment.setting args none sys.files
          = .ok .staged at hstaged
        unfold Moment.proposes
        rw [ha]
        show isProposeOnly a.role = true
        by_contra hno
        unfold Write.writeDocument at hstaged
        simp only [Write.bind_eq_ok_iff] at hstaged
        obtain ⟨_, _, _, _, _, _, hstaged⟩ := hstaged
        rw [ha, Option.filter_some_neg (by simpa using hno)] at hstaged
        exact not_staged_of_writeDirect hstaged
      rw [hproposes] at h
      exact plain_of_spelled h hraw (landsAt_queued hresolve hfinal)
  | patch args =>
      obtain ⟨target, _, hqueued⟩ := Write.bind_eq_ok hqueued
      obtain ⟨body, _, hinput⟩ := Write.bind_eq_ok hqueued
      obtain rfl := Except.ok.inj hinput
      exact absurd hcreates (not_creates_of_base rfl rfl (hanchored target.text))
  | assert args =>
      obtain ⟨principal, _, hqueued⟩ := Write.bind_eq_ok hqueued
      obtain ⟨target, _, hinput⟩ := Write.bind_eq_ok hqueued
      obtain rfl := Except.ok.inj hinput
      exact absurd hcreates (not_creates_of_base rfl rfl (hanchored target.text))
  | _ => cases hqueued

/-! ## One tool call -/

theorem Inv.callTool (hs : Inv vault registry sys) (hcall : req.handler = .call call reason)
    (hpass : refusal registry req.handler.toolName req.args = none)
    (hspelled : spellsOut vault registry sys req = true)
    (h : callTool vault req.moment call reason sys = .ok sys') : Inv vault registry sys' := by
  unfold Federation.callTool at h
  split at h
  · cases h
  · rename_i plan hattempt
    obtain ⟨files', hland, h⟩ := Write.bind_eq_ok h
    obtain rfl := Except.ok.inj h
    exact ⟨hs.files.land hattempt hland (plain_of_call hcall hpass hspelled hattempt), hs.queue⟩
  · rename_i a hattempt ha
    obtain ⟨input, hqueued, h⟩ := Write.bind_eq_ok h
    obtain ⟨⟨outcome, staged⟩, hstage, h⟩ := Write.bind_eq_ok h
    obtain rfl := Except.ok.inj h
    exact ⟨hs.files, hs.queue.stage hstage
      (plain_of_queued hcall hpass hspelled hattempt ha hqueued)⟩
  · obtain rfl := Except.ok.inj h
    exact hs

theorem vaultStageAction_ok {args : StageArgs} {files : Write.Files B}
    (h : vaultStageAction vault m args files = .ok input) : input.actionType = args.actionType
      ∧ vault.host.resolve args.targetPath = .ok input.targetPath := by
  unfold vaultStageAction at h
  simp only [Write.bind_eq_ok_iff] at h
  obtain ⟨_, _, _, _, _, _, _, _, _, _, relPath, hresolve, _, _, _, _, _, _, _, _, h⟩ := h
  obtain rfl := Except.ok.inj h
  exact ⟨rfl, hresolve⟩

theorem Inv.stageTool (hs : Inv vault registry sys) {args : StageArgs}
    (hstage : req.handler = .stage args)
    (hpass : refusal registry req.handler.toolName req.args = none)
    (hspelled : spellsOut vault registry sys req = true)
    (h : stageTool vault req.moment args sys = .ok sys') : Inv vault registry sys' := by
  obtain ⟨input, hinput, h⟩ := Write.bind_eq_ok h
  obtain ⟨⟨outcome, staged⟩, hchecked, h⟩ := Write.bind_eq_ok h
  obtain rfl := Except.ok.inj h
  obtain ⟨htype, hresolve⟩ := vaultStageAction_ok hinput
  refine ⟨hs.files, hs.queue.stage hchecked ?_⟩
  intro hcreates final hfinal
  have htool : req.handler.toolName ∉ federatedTools := by
    rw [hstage]
    show "vault_stage_action" ∉ federatedTools
    decide
  have hraw : shadows registry args.targetPath = false :=
    plain_of_passed hpass htool "target_path" (by rw [hstage]; exact List.mem_cons_self)
      (by decide)
  have hkind : (decide (args.actionType = "write") || decide (args.actionType = "merge"))
      = true := by
    rw [htype] at hcreates
    rw [Bool.or_eq_true, decide_eq_true_iff, decide_eq_true_iff]
    exact hcreates.symm.imp_left And.left
  unfold spellsOut at hspelled
  rw [hstage] at hspelled
  dsimp only at hspelled
  rw [hkind, Bool.not_true, Bool.false_or] at hspelled
  exact plain_of_spelled hspelled hraw (landsAt_queued hresolve hfinal)

theorem QueueSafe.decided {records : List Staged.RawRecord}
    (hq : QueueSafe vault registry records) (args : Ratify.Args) (status : Staged.Status)
    (hclosed : status ≠ .pending) : QueueSafe vault registry (decided m args status records) := by
  unfold Federation.decided Staged.recordDecision
  split
  · exact hq
  · exact hq.decide (args.decisionInput status m.clock.nowISO) hclosed [args.id]

/-- **An approval** creates what a safe row allows. -/
theorem Inv.approveTool (hs : Inv vault registry sys) {args : Ratify.Args}
    {row : Staged.StagedActionRow} (hsafe : safeRow vault registry row = true)
    (h : approveTool vault m args row sys = .ok sys') : Inv vault registry sys' := by
  obtain ⟨call, happrove, h⟩ := Write.bind_eq_ok h
  obtain ⟨hpath, hkind⟩ := Write.approve_creates happrove
  split at h
  · cases h
  · rename_i plan hattempt
    obtain ⟨files', hland, h⟩ := Write.bind_eq_ok h
    obtain rfl := Except.ok.inj h
    refine ⟨hs.files.land hattempt hland ?_, hs.queue.decided args .ratified (by rintro ⟨⟩)⟩
    intro path hresolve hcreates
    refine Or.inr ?_
    rw [hpath] at hresolve
    unfold safeRow at hsafe
    rw [hkind.resolve_right hcreates, Bool.not_true, Bool.false_or, hresolve] at hsafe
    exact (Bool.not_eq_true' _).mp hsafe
  · obtain rfl := Except.ok.inj h
    exact hs

theorem Inv.vaultRatify (hs : Inv vault registry sys) {args : Ratify.Args}
    (h : vaultRatify vault m args sys = .ok sys') : Inv vault registry sys' := by
  obtain ⟨_, _, h⟩ := Write.bind_eq_ok h
  obtain ⟨_, _, h⟩ := Write.bind_eq_ok h
  dsimp only at h
  split at h
  · rename_i row hrefusal hrow
    split at h
    · obtain rfl := Except.ok.inj h
      exact ⟨hs.files, hs.queue.decided args .rejected (by rintro ⟨⟩)⟩
    · have hpending : row.status = .pending := by
        rw [hrow] at hrefusal
        by_contra hne
        simp only [Ratify.refusal, if_neg hne] at hrefusal
        cases hrefusal
      exact hs.approveTool (hs.queue _ row hrow hpending) h
  · cases h
  · obtain rfl := Except.ok.inj h
    exact hs

theorem Inv.lintSweep (hs : Inv vault registry sys) :
    Inv vault registry (lintSweep vault m sys) := by
  refine ⟨hs.files, ?_⟩
  unfold Federation.lintSweep
  rw [Staged.sweepRecords_eq]
  exact hs.queue.decide _ (by rintro ⟨⟩) _

/-- **One tool call** whose creating path is spelled as it ends up keeps the invariant. -/
theorem Inv.serve (hs : Inv vault registry sys) (hspelled : spellsOut vault registry sys req = true)
    (h : serve vault registry req sys = .ok sys') : Inv vault registry sys' := by
  unfold Federation.serve at h
  split at h
  · cases h
  · rename_i hpass
    unfold handle at h
    split at h
    · rename_i call reason hcall
      exact hs.callTool hcall hpass hspelled h
    · rename_i args hstage
      exact hs.stageTool hstage hpass hspelled h
    · exact hs.vaultRatify h
    · obtain rfl := Except.ok.inj h
      exact hs.lintSweep
    · obtain rfl := Except.ok.inj h
      exact hs

/-! ## Every sequence of tool calls -/

theorem Inv.step (hs : Inv vault registry sys) {req : Request}
    (hspelled : spellsOut vault registry sys req = true) :
    Inv vault registry ((server vault registry).next sys req) := by
  show Inv vault registry ((Federation.serve vault registry req sys).toOption.getD sys)
  cases hserve : Federation.serve vault registry req sys with
  | error e => exact hs
  | ok sys' => exact hs.serve hspelled hserve

/-- **NO WRITE SHADOWS A MOUNT** in any sequence of tool calls, from any vault without a
    shadowing file and any queue that would not create one, when every call that may
    create a file names it as it ends up. -/
theorem no_shadow_of_spelled (vault : Vault B) (registry : MountRegistry)
    {start sys : System B} (hfiles : Unshadowed registry start)
    (hqueue : QueueSafe vault registry start.staged.records)
    (h : ((server vault registry).restrict fun sys req =>
      spellsOut vault registry sys req = true).Reach start sys) :
    Unshadowed registry sys := by
  have hinv : Inv vault registry sys := by
    refine Machine.reach_invariant (I := Inv vault registry) ?_ ⟨hfiles, hqueue⟩ h
    rintro sys req hs ⟨-, hspelled⟩
    exact hs.step hspelled
  exact hinv.files

/-! ## A vault with one mount -/

def newNote : Frontmatter.Raw :=
  [("title", .str "Note"), ("domain", .str "accumulation"), ("collection", .str "notes"),
    ("status", .str "draft"), ("confidence", .str "high"), ("created", .str "2026-01-01"),
    ("updated", .str "2026-01-01"), ("updated_by", .str "human:ann"),
    ("provenance", .str "direct")]

/-- A vault of plain files, without links; every staged payload is a new note. -/
def plainVault : Vault Frontmatter.PlainFile where
  host := { Write.plainHost Write.plainConfig with
    resolve := Storage.resolveVaultPath Storage.plainFiles [] }
  fs := Storage.plainFiles
  resolves _ := rfl
  ratifier :=
    { parseDiff := fun _ => .obj [("frontmatter", .obj newNote), ("body", .str "Text.\n")]
      computeRepin := fun _ _ => .ok [] }
  dateParse _ := none

def researchMount : MountRegistry := ⟨["research"], by decide⟩

def noon : Moment where
  setting := Write.operatorSetting "2026-01-01"
  clock :=
    { nowISO := "2026-01-01T12:00:00.000Z"
      today := "2026-01-01".toList
      addDaysISO := fun _ _ => .ok "2026-01-15T12:00:00.000Z" }
  millis := 1767268800000

def writeNote (path : String) : Request where
  handler := .call (.write
    { path := path, agent := "agent:ada", body := "Text.\n".toList, frontmatter := newNote,
      nodup := by decide, baseVersion := none, runId := none }) none
  args := [("path", .str path), ("agent", .str "agent:ada")]
  moment := noon
  reads := by
    rintro e he
    obtain rfl := List.mem_singleton.mp he
    rfl

def stageNote (path : String) : Request where
  handler := .stage
    { actionType := "write", targetPath := path, proposedBy := "agent:ada",
      rationale := "a note", proposedDiff := some (.obj
        [("frontmatter", .obj newNote), ("body", .str "Text.\n")]),
      runId := none, ttlDays := none }
  args := [("action_type", .str "write"), ("target_path", .str path)]
  moment := noon
  reads := by
    rintro e he
    obtain rfl := List.mem_singleton.mp he
    rfl

def ratifyFirst : Request where
  handler := .ratify { id := "stage-001", decision := .approve, principal := "human:ann" }
  args := [("id", .str "stage-001"), ("decision", .str "approve")]
  moment := noon
  reads := by
    rintro e ⟨⟩

def emptyVault : System Frontmatter.PlainFile := ⟨[], ⟨[], none⟩⟩

theorem unshadowed_emptyVault : Unshadowed researchMount emptyVault := by
  rintro path ⟨⟩

theorem queueSafe_emptyVault : QueueSafe plainVault researchMount emptyVault.staged.records := by
  rintro id row ⟨⟩

instance (sys : System Frontmatter.PlainFile) (req : Request) :
    Decidable ((server plainVault researchMount).enabled sys req) :=
  inferInstanceAs (Decidable True)

/-- **PLAIN CALLS, NOTHING SHADOWED**: a note is written, another staged and ratified. -/
theorem plain_calls_unshadowed :
    ∃ sys, ((server plainVault researchMount).restrict fun sys req =>
        spellsOut plainVault researchMount sys req = true).Reach emptyVault sys
      ∧ Assoc.keys sys.files = ["notes/a.md", "notes/b.md"]
      ∧ Unshadowed researchMount sys := by
  have hrun : (((server plainVault researchMount).restrict fun sys req =>
      spellsOut plainVault researchMount sys req = true).runs emptyVault
      [writeNote "notes/a.md", stageNote "notes/b.md", ratifyFirst]).any
      (fun sys => decide (Assoc.keys sys.files = ["notes/a.md", "notes/b.md"])) = true := by
    decide +kernel
  obtain ⟨sys, hreach, hkeys⟩ := Machine.reach_of_runs_any hrun
  exact ⟨sys, hreach, of_decide_eq_true hkeys,
    no_shadow_of_spelled plainVault researchMount unshadowed_emptyVault
      queueSafe_emptyVault hreach⟩

/-- **A SPELLING THE GUARD DOES NOT SEE** creates a shadowing file: a segment `.` in a
    write's path, and a blank before a staged one's. -/
theorem shadowed_by_spelling :
    ∃ written ratified, (server plainVault researchMount).Reach emptyVault written
      ∧ Assoc.keys written.files = ["research:x.md"] ∧ ¬ Unshadowed researchMount written
      ∧ (server plainVault researchMount).Reach emptyVault ratified
      ∧ Assoc.keys ratified.files = ["research:y.md"]
      ∧ ¬ Unshadowed researchMount ratified := by
  have hwrite : ((server plainVault researchMount).runs emptyVault
      [writeNote "./research:x.md"]).any (fun sys =>
        decide (Assoc.keys sys.files = ["research:x.md"])
          && (sys.files.lookup "research:x.md").isSome) = true := by
    decide +kernel
  have hratify : ((server plainVault researchMount).runs emptyVault
      [stageNote " research:y.md", ratifyFirst]).any (fun sys =>
        decide (Assoc.keys sys.files = ["research:y.md"])
          && (sys.files.lookup "research:y.md").isSome) = true := by
    decide +kernel
  obtain ⟨written, hreach, hwritten⟩ := Machine.reach_of_runs_any hwrite
  obtain ⟨ratified, hreach', hratified⟩ := Machine.reach_of_runs_any hratify
  rw [Bool.and_eq_true, decide_eq_true_iff] at hwritten hratified
  refine ⟨written, ratified, hreach, hwritten.1, ?_, hreach', hratified.1, ?_⟩
  · intro hplain
    exact absurd (hplain _ hwritten.2) (by decide)
  · intro hplain
    exact absurd (hplain _ hratified.2) (by decide)

end Federation
