import Daftari.Access.SpellingProofs
import Daftari.Curation.BlastProofs
import Daftari.Curation.EdgesProofs
import Daftari.Tools.WriteProofs

/-! # Erasing — what a history rewrite takes with it

    An erase is planned on the target as it is written: the paths it selects, and
    what depends on them.  Git then takes over: `git log --follow` gives the names
    each path has carried, and `filter-repo` removes whatever is at these names or
    under them, from every commit and from the worktree.

    * `vaultErasePlan`, `dispatch`, `vaultErase`: the tool, check by check;
    * `followed`, `gitLog`: names along a history of commits;
    * `erase_within_plan_iff`: **an erase stays inside its plan exactly when the
      names git gives for the targets are at no other document.** -/

namespace Erase

open Rbac Blast Edges Write

/-! ## The vault and its history -/

structure Commit where
  paths : List String
  renamed : List (String × String)
deriving DecidableEq

/-- A line of `erasures.jsonl`. -/
structure Receipt where
  refused : Bool
  instant : String
  principal : String
  paths : List String
  incomplete : List String
deriving DecidableEq

/-- A vault: the documents in its worktree, those that load, and its commits, newest first. -/
structure Vault where
  files : List String
  docs : List LoadedDoc
  present : ∀ d ∈ docs, d.path ∈ files
  history : List Commit
  receipts : List Receipt

/-- Does a name given to `filter-repo` take a file: it is there, or under it? -/
def covers (name file : String) : Bool := file = name ∨ (name ++ "/").toList <+: file.toList

def taken (names : List String) (file : String) : Bool := names.any fun name => covers name file

/-- The vault after `filter-repo --invert-paths`. -/
def Vault.without (v : Vault) (names : List String) : Vault where
  files := v.files.filter fun f => !taken names f
  docs := v.docs.filter fun d => !taken names d.path
  present := by
    intro d hd
    rw [List.mem_filter] at hd ⊢
    exact ⟨v.present d hd.1, hd.2⟩
  history := v.history.map fun c =>
    ⟨c.paths.filter fun f => !taken names f,
      c.renamed.filter fun r => !taken names r.1 && !taken names r.2⟩
  receipts := v.receipts

/-! ## The tool's surroundings -/

structure Remote where
  name : String
  url : String

inductive EraseTarget where
  | path (value : String)
  | sourceRef (value : String)
deriving DecidableEq

def EraseTarget.value : EraseTarget → String
  | .path value => value
  | .sourceRef value => value

structure HashPayload where
  target : EraseTarget
  targetPaths : List String
  downstream : List BlastDownstreamEntry
  vaultHead : String
  principal : String
  roleName : String
  readableCollections : List String

/-- Git and the disk, as the tool meets them, and the digest of a plan. -/
structure Host where
  /-- Whether `loadDocuments` can list the vault. -/
  lists : Except String Unit
  headFullSha : List Commit → Except String String
  /-- `sha256` of the payload's JSON. -/
  planHash : HashPayload → String
  filterRepoAvailable : Bool
  resolveGitDir : Except String Unit
  /-- The lines of `git log --follow --name-only --format= -- path`. -/
  log : List Commit → String → Except String (List String)
  remotes : List Remote
  runFilterRepo : List String → Except String Unit
  reflogExpire : Except String Unit
  gc : Except String Unit
  runForcePush : String → Except String Unit
  looksSecretShaped : String → Bool
  appendReceipt : Except String Unit
  now : String

/-- A caller, with what `canErase` says of its role. -/
structure Caller where
  access : AccessContext
  canErase : Bool
deriving DecidableEq

/-- The arguments of `vault_erase`. -/
structure EraseArgs where
  path : Option JsonValue
  sourceRef : Option JsonValue
  confirm : Option JsonValue
  planHash : Option JsonValue

/-! ## The plan -/

def eraseAccess : Option Caller → Except String Caller
  | none => .error
      "vault_erase requires an authenticated access context (fail-closed — no default)"
  | some caller =>
      if caller.canErase then .ok caller
      else .error ("access denied: role '" ++ caller.access.roleName
        ++ "' cannot erase from history")

def nonEmpty (v : Option JsonValue) : Option String := (stringOf v).filter fun s => s ≠ ""

def eraseTarget (args : EraseArgs) : Except String EraseTarget :=
  match nonEmpty args.path, nonEmpty args.sourceRef with
  | some path, none => .ok (.path path)
  | none, some ref => .ok (.sourceRef ref)
  | _, _ => .error "vault_erase requires exactly one of 'path' or 'source_ref'"

def selectedPaths (docs : List LoadedDoc) : EraseTarget → List String
  | .path value => [value]
  | .sourceRef ref =>
      Stable.sort Staleness.compareTexts (paths (docs.filter fun d => ref ∈ d.sources))

structure ErasePlan where
  target : EraseTarget
  targetPaths : List String
  hiddenTargets : String
  downstream : List BlastDownstreamEntry
  primaryBlast : Nat
  advisoryBlast : Nat
  hiddenDownstream : String
  vaultHead : String
  planHash : String

/-- The plan, once the target's paths and the commit are known. -/
def planOf (host : Host) (v : Vault) (caller : Caller) (target : EraseTarget) (head : String) :
    ErasePlan :=
  let selected := selectedPaths v.docs target
  let blast := computeBlast v.docs selected
  let readable := fun path : String =>
    sourceReadable collectionForPath caller.access path.toList
  let visibleDownstream := blast.downstream.filter fun e => readable e.path
  let visibleTargets := match target with
    | .path _ => selected
    | .sourceRef _ => selected.filter readable
  { target := target
    targetPaths := visibleTargets
    hiddenTargets := Tier0.bucketHiddenDownstream (selected.length - visibleTargets.length)
    downstream := visibleDownstream
    primaryBlast := (visibleDownstream.filter fun e => e.dependencyType = .source).length
    advisoryBlast := (visibleDownstream.filter fun e => e.dependencyType ≠ .source).length
    hiddenDownstream :=
      Tier0.bucketHiddenDownstream (blast.downstream.length - visibleDownstream.length)
    vaultHead := head
    planHash := host.planHash
      ⟨target, selected, blast.downstream, head, caller.access.user, caller.access.roleName,
        Stable.sort Staleness.compareTexts
          ((caller.access.role.map RoleConfig.read).getD [])⟩ }

def noCitations (ref : String) : String :=
  "vault_erase: no documents cite source_ref '" ++ ref ++ "'"

def vaultErasePlan (host : Host) (v : Vault) (args : EraseArgs) (caller : Option Caller) :
    Except String ErasePlan := do
  let authorized ← eraseAccess caller
  let target ← eraseTarget args
  host.lists
  refuse (selectedPaths v.docs target = []) (noCitations target.value)
  let head ← host.headFullSha v.history
  return planOf host v authorized target head

/-! ## The history rewrite -/

def historicalNames (host : Host) (history : List Commit) (path : String) :
    Except String (List String) :=
  (host.log history path).map fun lines =>
    ((lines.map fun line => String.ofList (Text.trim line.toList)).filter fun s =>
      s ≠ "").eraseDups

def notInHistory (path : String) : String :=
  "vault_erase: '" ++ path ++ "' is not present in git history — nothing to erase "
    ++ "(check the path for a typo; a never-committed file has no history to scrub)"

/-- The names of all the paths; each path must have one. -/
def allNames (host : Host) (history : List Commit) : List String → Except String (List String)
  | [] => .ok []
  | path :: rest => do
      let names ← historicalNames host history path
      refuse (names = []) (notInHistory path)
      let more ← allNames host history rest
      return names ++ more

structure EraseResult where
  paths : List String
  incomplete : List String
  refused : Bool
deriving DecidableEq

def failure (what : String) : Except String Unit → List String
  | .ok _ => []
  | .error reason => [what ++ reason]

/-- What a rewrite cannot vouch for. -/
def leftovers (host : Host) : List String :=
  failure "git-local: reflog expire failed: " host.reflogExpire
    ++ failure "git-local: gc failed: " host.gc
    ++ host.remotes.flatMap fun remote =>
      failure ("git-remote: force-push to '" ++ remote.name ++ "' (" ++ remote.url
        ++ ") failed: ") (host.runForcePush remote.url)
      ++ ["git-remote: '" ++ remote.name ++ "' has rewritten refs but remote-side gc is not "
        ++ "self-serve — request a repository garbage-collect / purge from the host"]

def eraseFromHistory (host : Host) (history : List Commit) (targets : List String)
    (validateBeforeRewrite : Except String Unit) : Except String EraseResult :=
  if host.filterRepoAvailable then do
    host.resolveGitDir
    let names ← allNames host history targets
    validateBeforeRewrite
    host.runFilterRepo names.eraseDups
    return ⟨names.eraseDups, leftovers host, false⟩
  else .ok ⟨targets, ["git-history: filter-repo not installed"], true⟩

/-! ## The tool -/

def stalePlanError : String :=
  "vault_erase aborted: plan_hash does not match the current erase plan — the plan is "
    ++ "missing, stale, or belongs to a different target/principal; review a fresh plan "
    ++ "before retrying"

def confirmError : String :=
  "vault_erase aborted: 'confirm' did not match — re-issue with 'confirm' set to the exact "
    ++ "path or source_ref you intend to erase (the expected value is not echoed here on purpose)"

/-- Is there anything downstream, shown or not? -/
def ErasePlan.hasDownstream (plan : ErasePlan) : Prop :=
  plan.downstream ≠ [] ∨ plan.hiddenDownstream ≠ "none"

instance (plan : ErasePlan) : Decidable plan.hasDownstream :=
  inferInstanceAs (Decidable (_ ∨ _))

/-- The plan is made again, and must have the hash that was accepted. -/
def revalidate (host : Host) (v : Vault) (args : EraseArgs) (caller : Option Caller)
    (accepted : String) : Except String Unit := do
  let fresh ← vaultErasePlan host v args caller
  refuse (fresh.planHash ≠ accepted) stalePlanError

/-- A call that has come through to the end of `eraseFromHistory`. -/
structure Dispatched where
  caller : Caller
  target : EraseTarget
  scrub : EraseResult
deriving DecidableEq

/-- `vaultErase`, up to the rewrite. -/
def dispatch (host : Host) (v : Vault) (args : EraseArgs) (caller : Option Caller) :
    Except String Dispatched := do
  let authorized ← eraseAccess caller
  let target ← eraseTarget args
  refuse (stringOf args.confirm ≠ some target.value) confirmError
  let plan ← vaultErasePlan host v args caller
  refuse ((plan.hasDownstream ∨ args.planHash ≠ none) ∧
    args.planHash ≠ some (.str plan.planHash)) stalePlanError
  refuse (selectedPaths v.docs target = []) (noCitations target.value)
  let scrub ← eraseFromHistory host v.history (selectedPaths v.docs target)
    (revalidate host v args caller plan.planHash)
  return ⟨authorized, target, scrub⟩

structure EraseOutcome where
  erased : List String
  incomplete : List String
  refused : Bool
  guidance : Option String

def rotateFirst : String :=
  "The erased target looks secret-shaped: a history rewrite cannot un-disclose what was "
    ++ "already pushed or cloned. ROTATE the secret now, then treat the old value as compromised."

/-- What is said besides what git left over. -/
def EraseTarget.caveat : EraseTarget → List String
  | .path _ => []
  | .sourceRef _ =>
      ["source-ref: resolved against the current worktree only — history copies of deleted or "
        ++ "superseded docs citing this ref are NOT covered; erase those by path"]

def EraseResult.leaves (scrub : EraseResult) (v : Vault) : Vault :=
  if scrub.refused then v else v.without scrub.paths

/-- `vaultErase`: the answer, and the vault as it is then. -/
def vaultErase (host : Host) (v : Vault) (args : EraseArgs) (caller : Option Caller) :
    Except String EraseOutcome × Vault :=
  match dispatch host v args caller with
  | .error e => (.error e, v)
  | .ok d =>
      let after := d.scrub.leaves v
      let incomplete := d.scrub.incomplete ++ d.target.caveat
      let erased := if d.scrub.refused then [] else d.scrub.paths
      match host.appendReceipt with
      | .error e => (.error e, after)
      | .ok _ =>
          (.ok ⟨erased, incomplete, d.scrub.refused,
              if host.looksSecretShaped d.target.value then some rotateFirst else none⟩,
            { after with receipts := after.receipts ++
                [⟨d.scrub.refused, host.now, d.caller.access.user, erased, incomplete⟩] })

/-! ## What git answers -/

/-- A path as a pathspec at the vault's root; none outside the repository. -/
def pathspec (path : String) : Option Path :=
  let segments := normalSegments true (path.toList.splitOn '/')
  if path.toList.head? = some '/' ∨ segments.head? = some ['.', '.'] then none
  else some (joinSegments segments)

def matchesSpec (spec : Path) (file : String) : Bool :=
  spec = [] || covers (String.ofList spec) file

/-- The names along a history, newest first: where a commit renames the file, what is
    older goes by the former name. -/
def followed : List Commit → Path → List String
  | [], _ => []
  | c :: older, spec =>
      match c.renamed.find? fun r => r.2.toList = spec with
      | some r => r.2 :: followed older r.1.toList
      | none => c.paths.filter (matchesSpec spec) ++ followed older spec

def gitLog (history : List Commit) (path : String) : Except String (List String) :=
  match pathspec path with
  | none => .error ("git log failed: '" ++ path ++ "' is outside repository")
  | some spec => .ok (followed history spec)

/-! ## What has passed -/

section

variable {host : Host} {v : Vault} {args : EraseArgs} {caller : Option Caller} {d : Dispatched}

theorem mem_allNames {history : List Commit} {targets names : List String}
    (h : allNames host history targets = .ok names) {name : String} :
    name ∈ names ↔ ∃ p ∈ targets, ∃ ns, historicalNames host history p = .ok ns ∧ name ∈ ns := by
  induction targets generalizing names with
  | nil =>
      cases h
      simp
  | cons p rest ih =>
      rw [allNames] at h
      simp only [bind_eq_ok_iff] at h
      obtain ⟨ns, hns, _, -, more, hmore, h⟩ := h
      cases h
      rw [List.mem_append, ih hmore]
      constructor
      · rintro (hin | ⟨q, hq, hin⟩)
        · exact ⟨p, List.mem_cons_self, ns, hns, hin⟩
        · exact ⟨q, List.mem_cons_of_mem _ hq, hin⟩
      · rintro ⟨q, hq, ns', hns', hin⟩
        rcases List.mem_cons.mp hq with rfl | hq
        · rw [hns] at hns'
          cases hns'
          exact Or.inl hin
        · exact Or.inr ⟨q, hq, ns', hns', hin⟩

theorem scrub_names {history : List Commit} {targets : List String}
    {validate : Except String Unit} {scrub : EraseResult}
    (h : eraseFromHistory host history targets validate = .ok scrub)
    (hrewritten : scrub.refused = false) :
    ∃ names, allNames host history targets = .ok names ∧ scrub.paths = names.eraseDups := by
  unfold eraseFromHistory at h
  by_cases hav : host.filterRepoAvailable = true
  · rw [if_pos hav] at h
    simp only [bind_eq_ok_iff] at h
    obtain ⟨_, -, names, hnames, _, -, _, -, h⟩ := h
    cases h
    exact ⟨names, hnames, rfl⟩
  · rw [if_neg hav] at h
    cases h
    cases hrewritten

/-- **A call that comes through has a plan, acknowledged where anything is downstream.** -/
theorem dispatch_cases (h : dispatch host v args caller = .ok d) :
    ∃ plan, vaultErasePlan host v args caller = .ok plan ∧
      (plan.hasDownstream → args.planHash = some (.str plan.planHash)) ∧
      eraseFromHistory host v.history (selectedPaths v.docs d.target)
        (revalidate host v args caller plan.planHash) = .ok d.scrub ∧
      ∃ head, plan = planOf host v d.caller d.target head := by
  obtain ⟨authorized, hauth, h⟩ := bind_eq_ok h
  obtain ⟨target, htarget, h⟩ := bind_eq_ok h
  obtain ⟨_, -, h⟩ := bind_eq_ok h
  obtain ⟨plan, hplan, h⟩ := bind_eq_ok h
  obtain ⟨_, hstale, h⟩ := bind_eq_ok h
  obtain ⟨_, -, h⟩ := bind_eq_ok h
  obtain ⟨scrub, hscrub, h⟩ := bind_eq_ok h
  cases h
  refine ⟨plan, hplan, ?_, hscrub, ?_⟩
  · intro hdown
    by_contra hsupplied
    exact refuse_eq_ok hstale ⟨Or.inl hdown, hsupplied⟩
  · obtain ⟨authorized', hauth', hplan⟩ := bind_eq_ok hplan
    obtain ⟨target', htarget', hplan⟩ := bind_eq_ok hplan
    obtain ⟨_, -, hplan⟩ := bind_eq_ok hplan
    obtain ⟨_, -, hplan⟩ := bind_eq_ok hplan
    obtain ⟨head, -, hplan⟩ := bind_eq_ok hplan
    rw [hauth] at hauth'
    rw [htarget] at htarget'
    cases hauth'
    cases htarget'
    cases hplan
    exact ⟨head, rfl⟩

theorem bucket_eq_none {n : Nat} : Tier0.bucketHiddenDownstream n = "none" ↔ n = 0 := by
  unfold Tier0.bucketHiddenDownstream
  by_cases hzero : n = 0
  · simp [hzero]
  · rw [if_neg hzero]
    by_cases hmany : Tier0.hiddenManyThreshold ≤ n
    · rw [if_pos hmany]
      exact iff_of_false (by decide) hzero
    · rw [if_neg hmany]
      exact iff_of_false (by decide) hzero

/-- A plan that shows and hides nothing downstream has nothing downstream: what is
    hidden is counted in classes, but none is a class of its own. -/
theorem downstream_nil {c : Caller} {target : EraseTarget} {head : String}
    (h : ¬ (planOf host v c target head).hasDownstream) :
    (computeBlast v.docs (selectedPaths v.docs target)).downstream = [] := by
  obtain ⟨hshown, hhidden⟩ := not_or.mp h
  have hnil : (computeBlast v.docs (selectedPaths v.docs target)).downstream.filter
      (fun e => sourceReadable collectionForPath c.access e.path.toList) = [] := not_not.mp hshown
  have hcount : (computeBlast v.docs (selectedPaths v.docs target)).downstream.length -
      ((computeBlast v.docs (selectedPaths v.docs target)).downstream.filter
        (fun e => sourceReadable collectionForPath c.access e.path.toList)).length = 0 :=
    bucket_eq_none.mp (not_not.mp hhidden)
  rw [hnil] at hcount
  exact List.eq_nil_of_length_eq_zero hcount

end

/-! ## Inside the plan -/

/-- Is a document at, or under, a name that git gives for a target path? -/
def Named (host : Host) (v : Vault) (target : EraseTarget) (file : String) : Prop :=
  ∃ p ∈ selectedPaths v.docs target, ∃ names, historicalNames host v.history p = .ok names ∧
    ∃ name ∈ names, covers name file = true

def Acknowledged (host : Host) (v : Vault) (args : EraseArgs) (caller : Option Caller) : Prop :=
  ∃ plan, vaultErasePlan host v args caller = .ok plan ∧
    args.planHash = some (.str plan.planHash)

/-- A document that stays depends on one that goes. -/
def Strands (v after : Vault) : Prop :=
  ∃ live ∈ v.files, live ∈ after.files ∧ ∃ lost ∈ v.files, lost ∉ after.files ∧
    Relation.TransGen (DependsOn v.docs) live lost

/-- What an operator may expect of an erase of a target. -/
structure WithinPlan (host : Host) (v : Vault) (args : EraseArgs) (caller : Option Caller)
    (target : EraseTarget) : Prop where
  /-- Nothing is left without what it depends on, unless that was acknowledged. -/
  dependents : ¬ Strands v (vaultErase host v args caller).2 ∨ Acknowledged host v args caller
  /-- Only target paths go. -/
  targets : ∀ file ∈ v.files, file ∉ (vaultErase host v args caller).2.files →
    file ∈ selectedPaths v.docs target

/-- The names git gives for the target paths are the targets' own. -/
structure NamesOwnTargets (host : Host) (v : Vault) (args : EraseArgs) (caller : Option Caller)
    (target : EraseTarget) : Prop where
  /-- A document at or under one of the names is a target path. -/
  names : ∀ file ∈ v.files, Named host v target file → file ∈ selectedPaths v.docs target
  /-- A target path that no name is for does not depend on one that a name is for. -/
  missed : Acknowledged host v args caller ∨ ∀ p ∈ selectedPaths v.docs target,
    ¬ Named host v target p → ∀ lost ∈ v.files, Named host v target lost →
      ¬ Relation.TransGen (DependsOn v.docs) p lost

section

variable {host : Host} {v : Vault} {args : EraseArgs} {caller : Option Caller} {d : Dispatched}

theorem taken_iff_named (h : dispatch host v args caller = .ok d)
    (hrewritten : d.scrub.refused = false) {file : String} :
    taken d.scrub.paths file = true ↔ Named host v d.target file := by
  obtain ⟨plan, -, -, hscrub, -⟩ := dispatch_cases h
  obtain ⟨names, hnames, hpaths⟩ := scrub_names hscrub hrewritten
  rw [taken, List.any_eq_true, hpaths]
  constructor
  · rintro ⟨name, hname, hcovers⟩
    obtain ⟨p, hp, ns, hns, hin⟩ := (mem_allNames hnames).mp (List.mem_eraseDups.mp hname)
    exact ⟨p, hp, ns, hns, name, hin, hcovers⟩
  · rintro ⟨p, hp, ns, hns, name, hin, hcovers⟩
    exact ⟨name, List.mem_eraseDups.mpr ((mem_allNames hnames).mpr ⟨p, hp, ns, hns, hin⟩), hcovers⟩

theorem vaultErase_files (h : dispatch host v args caller = .ok d)
    (hrewritten : d.scrub.refused = false) : (vaultErase host v args caller).2.files =
      v.files.filter fun f => !taken d.scrub.paths f := by
  unfold vaultErase
  rw [h]
  cases host.appendReceipt with
  | error e =>
      show (d.scrub.leaves v).files = _
      rw [EraseResult.leaves, if_neg (by rw [hrewritten]; decide)]
      rfl
  | ok u =>
      show (d.scrub.leaves v).files = _
      rw [EraseResult.leaves, if_neg (by rw [hrewritten]; decide)]
      rfl

theorem not_mem_files_iff (h : dispatch host v args caller = .ok d)
    (hrewritten : d.scrub.refused = false) {file : String} (hfile : file ∈ v.files) :
    file ∉ (vaultErase host v args caller).2.files ↔ Named host v d.target file := by
  rw [vaultErase_files h hrewritten, ← taken_iff_named h hrewritten]
  simp [hfile]

theorem mem_files_of_dependsOn {a b : String} (h : Relation.TransGen (DependsOn v.docs) a b) :
    a ∈ v.files := by
  obtain ⟨c, hac, -⟩ := Relation.TransGen.head'_iff.mp h
  obtain ⟨doc, hdoc, rfl⟩ := List.mem_map.mp (mem_paths_of_successors hac)
  exact v.present doc hdoc

/-- With the names at target paths only, a live dependent that was not acknowledged is a
    target path itself: otherwise it is downstream, and the plan must be acknowledged. -/
theorem mem_selected_of_strands (h : dispatch host v args caller = .ok d)
    (hack : ¬ Acknowledged host v args caller) {live lost : String}
    (hlost : lost ∈ selectedPaths v.docs d.target)
    (hdep : Relation.TransGen (DependsOn v.docs) live lost) :
    live ∈ selectedPaths v.docs d.target := by
  obtain ⟨plan, hplan, hgate, -, head, rfl⟩ := dispatch_cases h
  have hnone : ¬ (planOf host v d.caller d.target head).hasDownstream := by
    intro hdown
    exact hack ⟨_, hplan, hgate hdown⟩
  exact mem_seeds_of_downstream_nil (downstream_nil hnone) hlost hdep.to_reflTransGen

/-- **An erase that rewrites history stays inside its plan exactly when the names that
    git gives for the target paths are at no other document**, and no target that they
    miss rests on one that they reach. -/
theorem erase_within_plan_iff (h : dispatch host v args caller = .ok d)
    (hrewritten : d.scrub.refused = false) :
    WithinPlan host v args caller d.target ↔ NamesOwnTargets host v args caller d.target := by
  constructor
  · intro hwithin
    refine ⟨fun file hfile hnamed => hwithin.targets file hfile
      ((not_mem_files_iff h hrewritten hfile).mpr hnamed), ?_⟩
    rcases hwithin.dependents with hstrands | hack
    · right
      intro p hp hmissed lost hlost hnamed hdep
      have hpfile := mem_files_of_dependsOn hdep
      have hstays : p ∈ (vaultErase host v args caller).2.files := by
        by_contra hgone
        exact hmissed ((not_mem_files_iff h hrewritten hpfile).mp hgone)
      exact hstrands ⟨p, hpfile, hstays, lost, hlost,
        (not_mem_files_iff h hrewritten hlost).mpr hnamed, hdep⟩
    · exact Or.inl hack
  · intro hown
    constructor
    · by_cases hack : Acknowledged host v args caller
      · exact Or.inr hack
      · left
        rintro ⟨live, hlive, hstays, lost, hlost, hgone, hdep⟩
        have hnamed := (not_mem_files_iff h hrewritten hlost).mp hgone
        have hsel := mem_selected_of_strands h hack (hown.names lost hlost hnamed) hdep
        refine hown.missed.resolve_left hack live hsel ?_ lost hlost hnamed hdep
        intro hlivenamed
        exact (not_mem_files_iff h hrewritten hlive).mpr hlivenamed hstays
    · intro file hfile hgone
      exact hown.names file hfile ((not_mem_files_iff h hrewritten hfile).mp hgone)

end

/-! ## Two erases -/

/-- A vault at the root of a repository where `filter-repo` is installed. -/
def localHost : Host where
  lists := .ok ()
  headFullSha _ := .ok "c0ffee"
  planHash payload := "sha256:" ++ payload.vaultHead
  filterRepoAvailable := true
  resolveGitDir := .ok ()
  log := gitLog
  remotes := []
  runFilterRepo _ := .ok ()
  reflogExpire := .ok ()
  gc := .ok ()
  runForcePush _ := .ok ()
  looksSecretShaped _ := false
  appendReceipt := .ok ()
  now := "2026-08-01T00:00:00.000Z"

def operator : Caller := ⟨⟨"op", "admin", some ⟨["*"], ["*"], true, true, false⟩⟩, true⟩

def erasing (path : String) : EraseArgs :=
  ⟨some (.str path), none, some (.str path), none⟩

def plainVault : Vault where
  files := ["a.md", "c.md"]
  docs := [⟨"a.md", [], []⟩, ⟨"c.md", [], []⟩]
  present := by decide
  history := [⟨["a.md", "c.md"], []⟩]
  receipts := []

/-- The note `a.md` became `b.md`, and a new `a.md` was written, which `c.md` links to. -/
def reusedVault : Vault where
  files := ["a.md", "b.md", "c.md"]
  docs := [⟨"a.md", [], []⟩, ⟨"b.md", [], []⟩, ⟨"c.md", [], ["a.md"]⟩]
  present := by decide
  history := [⟨["a.md", "c.md"], []⟩, ⟨["a.md", "b.md"], [("a.md", "b.md")]⟩, ⟨["a.md"], []⟩]
  receipts := []

/-- An erase of a note whose one name is its own. -/
theorem erase_within_plan_plain :
    WithinPlan localHost plainVault (erasing "a.md") (some operator) (.path "a.md") := by
  have h : dispatch localHost plainVault (erasing "a.md") (some operator) =
      .ok ⟨operator, .path "a.md", ⟨["a.md"], [], false⟩⟩ := by decide +kernel
  have hnames : historicalNames localHost plainVault.history "a.md" = .ok ["a.md"] := by
    decide +kernel
  have hown : Named localHost plainVault (.path "a.md") "a.md" :=
    ⟨"a.md", List.mem_singleton_self _, _, hnames, "a.md", List.mem_singleton_self _,
      by decide⟩
  refine (erase_within_plan_iff h rfl).mpr ⟨?_, Or.inr ?_⟩
  · rintro file hfile ⟨p, hp, ns, hns, name, hname, hcovers⟩
    obtain rfl : p = "a.md" := List.mem_singleton.mp hp
    cases hns
    obtain rfl : name = "a.md" := List.mem_singleton.mp hname
    rcases List.mem_pair.mp hfile with rfl | rfl
    · exact List.mem_singleton_self _
    · exact absurd hcovers (by decide)
  · intro p hp hmissed
    obtain rfl : p = "a.md" := List.mem_singleton.mp hp
    exact absurd hown hmissed

/-- Erasing `b.md` takes the live `a.md`, which merely sits at its former name; erasing
    `./a.md` takes the same note, without a plan, from under the `c.md` that links to it. -/
theorem reused_name_erased :
    (∃ d, dispatch localHost reusedVault (erasing "b.md") (some operator) = .ok d ∧
      d.scrub = ⟨["b.md", "a.md"], [], false⟩ ∧
      ¬ WithinPlan localHost reusedVault (erasing "b.md") (some operator) d.target) ∧
    ∃ d, dispatch localHost reusedVault (erasing "./a.md") (some operator) = .ok d ∧
      d.scrub = ⟨["a.md"], [], false⟩ ∧
      Strands reusedVault
        (vaultErase localHost reusedVault (erasing "./a.md") (some operator)).2 ∧
      ¬ WithinPlan localHost reusedVault (erasing "./a.md") (some operator) d.target := by
  have hgone : "a.md" ∉
      (vaultErase localHost reusedVault (erasing "./a.md") (some operator)).2.files := by
    decide +kernel
  constructor
  · refine ⟨⟨operator, .path "b.md", ⟨["b.md", "a.md"], [], false⟩⟩, by decide +kernel, rfl, ?_⟩
    intro hwithin
    have hin := hwithin.targets "a.md" (by decide) (by decide +kernel)
    exact absurd hin (by decide)
  · refine ⟨⟨operator, .path "./a.md", ⟨["a.md"], [], false⟩⟩, by decide +kernel, rfl, ?_, ?_⟩
    · exact ⟨"c.md", by decide, by decide +kernel, "a.md", by decide, hgone,
        Relation.TransGen.single (by
          show "c.md" ∈ successors reusedVault.docs "a.md"
          decide +kernel)⟩
    · intro hwithin
      exact absurd (hwithin.targets "a.md" (by decide) hgone) (by decide)

end Erase
