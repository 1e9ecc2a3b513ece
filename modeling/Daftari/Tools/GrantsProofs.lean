import Daftari.Tools.Tier1WritesProofs

/-! # Write grants — what a gate asks, and where the bytes go

    A gate asks for the write grant of a collection.  `vault_write`, `vault_patch` and the target of
    a merge are asked for the folder that their path argument names; the tools that load a document
    first are asked for the collection the document declares; `vault_promote` is asked for the
    promote grant only.  The bytes go to the resolved file, and the status is whatever was composed.

    * `Call.names`, `Call.canonises`: the files it writes, and whether it hands the canonical status
      to its document;
    * `Confined`, `Covered`, `write_grants_confine`: **a landing stays within its role's grants
      exactly when its gates cover where it goes and what it makes**. -/

namespace Write

open Frontmatter Positions SupersedeChains Rbac

section Calls

variable {B : Type} (host : Host B) (s : Setting) (files : Files B)

/-! ## What a call asks for -/

/-- The document a path argument names. -/
def documentOf (rawPath : String) : Option ParsedDocument :=
  (host.resolve rawPath).toOption.bind (documentAt host files)

/-- The collection of a named document, over a path to fall back on. -/
def declaredBy (rawPath fallback : String) : List String :=
  (documentOf host files rawPath).toList.map fun doc => collectionOf fallback doc.frontmatter

/-- The collections whose write grant the gates of a call ask for. -/
def Call.asks : Call → List String
  | .write args => [targetCollection host.root args.path]
  | .patch args => targetCollection host.root args.path
      :: declaredBy host files args.path ((host.resolve args.path).toOption.getD args.path)
  | .append args => declaredBy host files args.path args.path
  | .promote _ => []
  | .setConfidence args _ | .setTier args _ | .unsupersede args =>
      declaredBy host files args.path args.path
  | .deprecate args => declaredBy host files args.path args.path
  | .supersede args => declaredBy host files args.oldPath args.oldPath
  | .merge args => targetCollection host.root args.targetPath
      :: (declaredBy host files args.pathA args.pathA
        ++ declaredBy host files args.pathB args.pathB)
  | .assert args => [targetCollection host.root args.path]
  | .consolidate _ => []

def Call.names : Call → List String
  | .merge args => [args.targetPath, args.pathA, args.pathB]
  | call => [call.path]

/-- The status of the record a payload makes of a document, as the hooks leave it. -/
def updateStatus (path : String) (payload : Raw) (doc : Option ParsedDocument) : Option Status :=
  asChoice ((runPreWriteTransformHooks host.config.transformHooks
    (doc.elim payload fun d => mergeUnder s.now d.raw payload)
    { path := path, operation := if doc.isSome then "update" else "create" }).1.lookup "status")

def namesCanonical (rawPath : String) : Bool :=
  (documentOf host files rawPath).any fun doc => doc.frontmatter.status = .canonical

/-- Does the call hand the canonical status to its document? -/
def Call.canonises : Call → Bool
  | .write args => updateStatus host s args.path args.frontmatter
      (documentOf host files args.path) = some .canonical
  | .patch args => updateStatus host s args.path args.fields
      (documentOf host files args.path) = some .canonical
  | .append args => (documentOf host files args.path).any fun doc =>
      asChoice ((appendRecord host s args doc.frontmatter).1.lookup "status")
        = some Status.canonical
  | .promote _ => true
  | .setConfidence args _ | .setTier args _ => namesCanonical host files args.path
  | .deprecate _ | .supersede _ | .unsupersede _ => false
  | .merge args => (documentOf host files args.pathA).any fun doc =>
      asChoice (inherited args doc.raw "status") = some Status.canonical
  | .assert args => namesCanonical host files args.path
  | .consolidate args => namesCanonical host files args.path

end Calls

section Gates

variable {B : Type} {host : Host B} {s : Setting} {files docs : Files B} {plan : Plan B}
  {a : AccessContext}

variable {target : Target B} {rawPath : String}

theorem documentOf_of_load {tool : String}
    (h : loadTargetDocument host tool rawPath files = .ok target) :
    documentOf host files rawPath = some target.parsed := by
  unfold documentOf
  rw [(loaded_of_load h).resolve]
  exact (documentAt_of_load h).symm

theorem declaredBy_of_load {tool fallback : String}
    (h : loadTargetDocument host tool rawPath files = .ok target) :
    declaredBy host files rawPath fallback = [collectionOf fallback target.parsed.frontmatter] := by
  unfold declaredBy
  rw [documentOf_of_load h]
  rfl

theorem granted_of_gate (ha : s.access = some a) {collection : String} {u : Unit}
    (h : requireWriteAccess s collection = .ok u) : canWrite a.role collection = true := by
  unfold requireWriteAccess at h
  rw [ha] at h
  have hno := refuse_eq_ok h
  simpa using hno

theorem granted_of_declared (ha : s.access = some a) {tool fallback : String} {u : Unit}
    (hload : loadTargetDocument host tool rawPath files = .ok target)
    (h : requireWriteAccess s (collectionOf fallback target.parsed.frontmatter) = .ok u) :
    ∀ c ∈ declaredBy host files rawPath fallback, canWrite a.role c = true := by
  rw [declaredBy_of_load hload]
  intro c hc
  rw [List.mem_singleton.mp hc]
  exact granted_of_gate ha h

theorem granted_of_writeDocument (ha : s.access = some a) {args : WriteArgs}
    {patch : Option B} (h : writeDocument host s args patch files = .ok (.write plan)) :
    canWrite a.role (targetCollection host.root args.path) = true := by
  obtain ⟨_, _, h⟩ := bind_eq_ok h
  obtain ⟨_, hgate, h⟩ := bind_eq_ok h
  exact granted_of_gate ha hgate

theorem granted_of_patch (ha : s.access = some a) {args : PatchArgs}
    (h : vaultPatch host s args files = .ok (.write plan)) :
    ∀ c ∈ (Call.patch args).asks host files, canWrite a.role c = true := by
  unfold vaultPatch at h
  simp only [bind_eq_ok_iff] at h
  obtain ⟨_, _, _, _, _, _, _, _, _, hphysical, target, hload, _, hdeclared, h⟩ := h
  obtain ⟨_, hphysical, _⟩ := bind_eq_ok hphysical
  obtain ⟨_, hdeclared, _⟩ := bind_eq_ok hdeclared
  intro c hc
  rcases List.mem_cons.mp hc with rfl | hc
  · exact granted_of_gate ha hphysical
  · rw [(loaded_of_load hload).resolve] at hc
    exact granted_of_declared ha hload hdeclared c hc

theorem granted_of_append (ha : s.access = some a) {args : AppendArgs}
    (h : vaultAppend host s args files = .ok (.write plan)) :
    ∀ c ∈ (Call.append args).asks host files, canWrite a.role c = true := by
  unfold vaultAppend at h
  simp only [bind_eq_ok_iff] at h
  obtain ⟨_, _, _, _, target, hload, _, hgate, h⟩ := h
  exact granted_of_declared ha hload hgate

theorem granted_of_deprecate (ha : s.access = some a) {args : DeprecateArgs}
    (h : vaultDeprecate host s args files docs = .ok (.write plan)) :
    ∀ c ∈ (Call.deprecate args).asks host files, canWrite a.role c = true := by
  unfold vaultDeprecate at h
  simp only [bind_eq_ok_iff] at h
  obtain ⟨_, _, _, _, _, _, target, hload, _, hgate, h⟩ := h
  exact granted_of_declared ha hload hgate

variable {args : LifecycleArgs}

theorem granted_of_setConfidence (ha : s.access = some a) {confidence : Confidence}
    (h : vaultSetConfidence host s args confidence files = .ok (.write plan)) :
    ∀ c ∈ declaredBy host files args.path args.path, canWrite a.role c = true := by
  unfold vaultSetConfidence at h
  simp only [bind_eq_ok_iff] at h
  obtain ⟨_, _, _, _, target, hload, _, hgate, h⟩ := h
  exact granted_of_declared ha hload hgate

theorem granted_of_setTier (ha : s.access = some a) {tier : Tier}
    (h : vaultSetTier host s args tier files = .ok (.write plan)) :
    ∀ c ∈ declaredBy host files args.path args.path, canWrite a.role c = true := by
  unfold vaultSetTier at h
  simp only [bind_eq_ok_iff] at h
  obtain ⟨_, _, _, _, target, hload, _, hgate, h⟩ := h
  exact granted_of_declared ha hload hgate

theorem granted_of_unsupersede (ha : s.access = some a)
    (h : vaultUnsupersede host s args files = .ok (.write plan)) :
    ∀ c ∈ declaredBy host files args.path args.path, canWrite a.role c = true := by
  unfold vaultUnsupersede at h
  simp only [bind_eq_ok_iff] at h
  obtain ⟨_, _, _, _, _, _, target, hload, _, hgate, h⟩ := h
  exact granted_of_declared ha hload hgate

theorem granted_of_supersede (ha : s.access = some a) {args : SupersedeArgs}
    (h : vaultSupersede host s args files docs = .ok (.write plan)) :
    ∀ c ∈ (Call.supersede args).asks host files, canWrite a.role c = true := by
  unfold vaultSupersede at h
  simp only [bind_eq_ok_iff] at h
  obtain ⟨_, _, _, _, _, _, _, _, _, _, _, _, _, _, _, _, target, hload, _, _, _, hgate, h⟩ := h
  exact granted_of_declared ha hload hgate

theorem documentOf_of_sources {args : MergeArgs} {source : Target B × Target B}
    (h : loadSources host args files = .ok source) :
    documentOf host files args.pathA = some source.1.parsed
      ∧ documentOf host files args.pathB = some source.2.parsed := by
  obtain ⟨hA, hB, _⟩ := loaded_of_loadSources (a := source.1) (b := source.2) h
  obtain ⟨hdocA, hdocB⟩ := documentAt_of_sources (a := source.1) (b := source.2) h
  unfold documentOf
  rw [hA.resolve, hB.resolve]
  exact ⟨hdocA.symm, hdocB.symm⟩

theorem granted_of_merge (ha : s.access = some a) {args : MergeArgs}
    (h : vaultMerge host s args files docs = .ok (.write plan)) :
    ∀ c ∈ (Call.merge args).asks host files, canWrite a.role c = true := by
  unfold vaultMerge at h
  simp only [bind_eq_ok_iff] at h
  obtain ⟨_, _, _, _, _, _, _, _, sources, hsources, _, _, _, _, _, _, _, _, _, hgateA, _,
    hgateB, _, hgate, h⟩ := h
  obtain ⟨hdocA, hdocB⟩ := documentOf_of_sources hsources
  intro c hc
  rcases List.mem_cons.mp hc with rfl | hc
  · exact granted_of_gate ha hgate
  · unfold declaredBy at hc
    rw [hdocA, hdocB] at hc
    rcases List.mem_append.mp hc with hc | hc
    · rw [List.mem_singleton.mp hc]
      exact granted_of_gate ha hgateA
    · rw [List.mem_singleton.mp hc]
      exact granted_of_gate ha hgateB

theorem granted_of_assert (ha : s.access = some a) {args : AssertArgs}
    (h : vaultAssert host s args files = .ok (.write plan)) :
    canWrite a.role (targetCollection host.root args.path) = true := by
  unfold vaultAssert at h
  simp only [bind_eq_ok_iff] at h
  obtain ⟨_, _, _, _, _, hgate, h⟩ := h
  exact granted_of_gate ha hgate

/-- **A call that writes was granted every collection it was asked for.** -/
theorem granted_of_attempt (ha : s.access = some a) {call : Call}
    (h : attempt host s call files docs = .ok (.write plan)) :
    ∀ c ∈ call.asks host files, canWrite a.role c = true := by
  cases call with
  | write args =>
      intro c hc
      rw [List.mem_singleton.mp hc]
      exact granted_of_writeDocument ha h
  | patch args => exact granted_of_patch ha h
  | append args => exact granted_of_append ha h
  | promote args =>
      intro c hc
      cases hc
  | «deprecate» args => exact granted_of_deprecate ha h
  | setConfidence args confidence => exact granted_of_setConfidence ha h
  | setTier args tier => exact granted_of_setTier ha h
  | supersede args => exact granted_of_supersede ha h
  | unsupersede args => exact granted_of_unsupersede ha h
  | merge args => exact granted_of_merge ha h
  | assert args =>
      intro c hc
      rw [List.mem_singleton.mp hc]
      exact granted_of_assert ha h
  | consolidate args =>
      intro c hc
      cases hc

end Gates

section Changes

variable {B : Type} {host : Host B} {s : Setting} {files docs : Files B} {plan : Plan B}

/-! ## What a call writes -/

def Change.status (c : Change) : Option Status := asChoice (c.newFrontmatter.lookup "status")

def statusOf (host : Host B) (file : B) : Option Status :=
  (host.codec.parse file).toOption.bind fun parsed => asChoice (parsed.1.lookup "status")

theorem statusOf_fileText (c : Change) : statusOf host (c.fileText host) = c.status := by
  unfold statusOf Change.fileText Change.status
  rw [parse_serializeDocument]
  show asChoice ((serializedFields _ _ _).lookup "status") = _
  rw [lookup_always host.config.extensions _ _ (by decide) (by decide)]
  cases c.newFrontmatter.lookup "status" <;> rfl

theorem status_frontmatterChange (target : Target B) (fm : Fields) (action : String) :
    (frontmatterChange target fm action).status = some fm.status :=
  asChoice_text fm.status

theorem status_coerce (host : Host B) (raw : Raw) : (coerce host.json raw).status = .canonical
    ↔ (asChoice (raw.lookup "status") : Option Status) = some .canonical := by
  show (requireEnum host.json raw "status" Status.draft).1 = _ ↔ _
  rw [requireEnum_fst]
  cases (asChoice (raw.lookup "status") : Option Status) <;> simp

/-- The only change of a call: the document its path names, canonical when the call
    hands it the status. -/
structure Sole (host : Host B) (s : Setting) (call : Call) (files : Files B)
    (changes : List Change) (c : Change) : Prop where
  only : changes = [c]
  resolve : host.resolve call.path = .ok c.relPath
  status : c.status = some .canonical ↔ call.canonises host s files = true

variable {call : Call}

theorem sole_frontmatterChange {tool action : String} {target : Target B} {fm : Fields}
    (hload : loadTargetDocument host tool call.path files = .ok target)
    (hstatus : fm.status = .canonical ↔ call.canonises host s files = true) :
    Sole host s call files [frontmatterChange target fm action]
      (frontmatterChange target fm action) where
  only := rfl
  resolve := (loaded_of_load hload).resolve
  status := by
    rw [status_frontmatterChange, Option.some.injEq]
    exact hstatus

theorem namesCanonical_of_load {tool rawPath : String} {target : Target B}
    (h : loadTargetDocument host tool rawPath files = .ok target) :
    target.parsed.frontmatter.status = .canonical ↔ namesCanonical host files rawPath = true := by
  unfold namesCanonical
  rw [documentOf_of_load h]
  simp

variable {changes : List Change}

theorem sole_writeChanges {args : WriteArgs} {patch : Option B}
    (hpatch : ∀ relPath, host.resolve args.path = .ok relPath →
      (patch <|> files.lookup relPath) = files.lookup relPath)
    (h : writeChanges host s args patch files = .ok changes) :
    ∃ c, changes = [c] ∧ host.resolve args.path = .ok c.relPath
      ∧ (c.status = some .canonical ↔ updateStatus host s args.path args.frontmatter
        (documentOf host files args.path) = some .canonical) := by
  obtain ⟨relPath, hresolve, h⟩ := bind_eq_ok h
  obtain ⟨doc, hdoc, h⟩ := bind_eq_ok h
  obtain ⟨⟨fm, raw⟩, hcomposed, h⟩ := bind_eq_ok h
  obtain ⟨rfl, rfl⟩ := composeWrite_eq_ok hcomposed
  obtain rfl := Except.ok.inj h
  refine ⟨_, rfl, hresolve, ?_⟩
  have hdocument : documentOf host files args.path = doc := by
    unfold documentOf
    rw [hresolve]
    exact (documentAt_of_existing (hpatch relPath hresolve) hdoc).symm
  have hrecord : (composeRaw host s args doc).1.lookup "status"
      = (runPreWriteTransformHooks host.config.transformHooks (mergedRecord s args doc)
          (writeContext args doc)).1.lookup "status" := lookup_composeRaw (by decide)
  have htyped := status_coerce host (composeRaw host s args doc).1
  rw [hrecord] at htyped
  rw [hdocument]
  show asChoice (some (Value.str (Choice.text
    (coerce host.json (composeRaw host s args doc).1).status))) = some Status.canonical ↔ _
  rw [asChoice_text, Option.some.injEq, htyped]
  cases doc <;> rfl

theorem sole_patchChanges {args : PatchArgs} (h : patchChanges host s args files = .ok changes) :
    ∃ c, Sole host s (.patch args) files changes c := by
  obtain ⟨target, hload, h⟩ := bind_eq_ok h
  obtain ⟨body, _, h⟩ := bind_eq_ok h
  have hloaded := loaded_of_load hload
  obtain ⟨c, honly, hresolve, hstatus⟩ := sole_writeChanges (by
    -- the patch was computed from the file under the path
    intro relPath hresolve
    have hsame : host.resolve args.path = .ok relPath := hresolve
    rw [hloaded.resolve] at hsame
    rw [← Except.ok.inj hsame, hloaded.file]
    rfl) h
  refine ⟨c, honly, hresolve, hstatus.trans ?_⟩
  exact decide_eq_true_iff.symm

/-- **A call that is no merge changes one document.** -/
theorem sole_of_changesOf (hcall : ∀ args, call ≠ .merge args)
    (h : changesOf host s call files = .ok changes) : ∃ c, Sole host s call files changes c := by
  have hdeprecated : Status.deprecated ≠ .canonical := by decide
  have hsuperseded : Status.superseded ≠ .canonical := by decide
  have hdraft : Status.draft ≠ .canonical := by decide
  cases call with
  | merge args => exact absurd rfl (hcall args)
  | write args =>
      obtain ⟨c, honly, hresolve, hstatus⟩ := sole_writeChanges (fun _ _ => rfl) h
      exact ⟨c, honly, hresolve, hstatus.trans decide_eq_true_iff.symm⟩
  | patch args => exact sole_patchChanges h
  | append args =>
      obtain ⟨target, hload, h⟩ := bind_eq_ok h
      obtain rfl := Except.ok.inj h
      refine ⟨_, rfl, (loaded_of_load hload).resolve, ?_⟩
      show _ ↔ (documentOf host files args.path).any _ = true
      rw [documentOf_of_load hload]
      exact decide_eq_true_iff.symm
  | promote args =>
      obtain ⟨target, hload, h⟩ := bind_eq_ok h
      obtain rfl := Except.ok.inj h
      exact ⟨_, sole_frontmatterChange hload (iff_of_true rfl rfl)⟩
  | «deprecate» args =>
      obtain ⟨_, _, h⟩ := bind_eq_ok h
      obtain ⟨target, hload, h⟩ := bind_eq_ok h
      obtain ⟨_, _, h⟩ := bind_eq_ok h
      obtain rfl := Except.ok.inj h
      exact ⟨_, sole_frontmatterChange hload (iff_of_false hdeprecated Bool.false_ne_true)⟩
  | setConfidence args confidence =>
      obtain ⟨target, hload, h⟩ := bind_eq_ok h
      obtain rfl := Except.ok.inj h
      exact ⟨_, sole_frontmatterChange hload (namesCanonical_of_load hload)⟩
  | setTier args tier =>
      obtain ⟨target, hload, h⟩ := bind_eq_ok h
      obtain rfl := Except.ok.inj h
      exact ⟨_, sole_frontmatterChange hload (namesCanonical_of_load hload)⟩
  | supersede args =>
      obtain ⟨_, _, h⟩ := bind_eq_ok h
      obtain ⟨target, hload, h⟩ := bind_eq_ok h
      obtain ⟨_, _, h⟩ := bind_eq_ok h
      obtain rfl := Except.ok.inj h
      exact ⟨_, sole_frontmatterChange hload (iff_of_false hsuperseded Bool.false_ne_true)⟩
  | unsupersede args =>
      obtain ⟨target, hload, h⟩ := bind_eq_ok h
      obtain rfl := Except.ok.inj h
      exact ⟨_, sole_frontmatterChange hload (iff_of_false hdraft Bool.false_ne_true)⟩
  | assert args =>
      obtain ⟨_, _, h⟩ := bind_eq_ok h
      obtain ⟨target, hload, h⟩ := bind_eq_ok h
      obtain rfl := Except.ok.inj h
      exact ⟨_, sole_frontmatterChange hload (namesCanonical_of_load hload)⟩
  | consolidate args =>
      obtain ⟨_, _, h⟩ := bind_eq_ok h
      obtain ⟨target, hload, h⟩ := bind_eq_ok h
      obtain rfl := Except.ok.inj h
      exact ⟨_, sole_frontmatterChange hload (namesCanonical_of_load hload)⟩

theorem sourceChanges_cases {args : MergeArgs} {boundary : Option String}
    {targetRel path : String} {source : Target B}
    (h : sourceChanges s args boundary targetRel path source = .ok changes) :
    changes = [] ∧ source.relPath = targetRel
      ∨ ∃ c, changes = [c] ∧ c.relPath = source.relPath ∧ c.relPath ≠ targetRel
        ∧ c.status = some .superseded := by
  unfold sourceChanges at h
  split at h
  · rename_i hsame
    exact Or.inl ⟨(Except.ok.inj h).symm, hsame⟩
  · rename_i hne
    obtain ⟨_, _, h⟩ := bind_eq_ok h
    obtain rfl := Except.ok.inj h
    exact Or.inr ⟨_, rfl, rfl, hne, status_frontmatterChange _ _ _⟩

/-- What a call wrote: the files its path arguments name, each once, and the canonical
    status to its document at most. -/
structure Wrote (host : Host B) (s : Setting) (call : Call) (files : Files B)
    (changes : List Change) : Prop where
  resolves : ∃ path, host.resolve call.path = .ok path
  names : ∀ path, path ∈ changes.map Change.relPath
    ↔ ∃ name ∈ call.names, host.resolve name = .ok path
  nodup : (changes.map Change.relPath).Nodup
  status : ∀ c ∈ changes, c.status = some .canonical
    ↔ host.resolve call.path = .ok c.relPath ∧ call.canonises host s files = true

theorem Sole.wrote {c : Change} (h : Sole host s call files changes c)
    (hcall : ∀ args, call ≠ .merge args) : Wrote host s call files changes := by
  have hnames : call.names = [call.path] := by
    cases call with
    | merge args => exact absurd rfl (hcall args)
    | _ => rfl
  obtain ⟨rfl, hresolve, hstatus⟩ := h
  refine ⟨⟨_, hresolve⟩, ?_, List.nodup_singleton _, ?_⟩
  · intro path
    rw [hnames, List.map_singleton, List.mem_singleton]
    constructor
    · rintro rfl
      exact ⟨call.path, List.mem_cons_self, hresolve⟩
    · rintro ⟨name, hname, hpath⟩
      rw [List.mem_singleton.mp hname, hresolve] at hpath
      exact (Except.ok.inj hpath).symm
  · intro c' hc'
    rw [List.mem_singleton.mp hc']
    exact hstatus.trans ⟨fun hcanonises => ⟨hresolve, hcanonises⟩, fun hboth => hboth.2⟩

/-- **A merge writes its target and the sources that are not the target.** -/
theorem mergeChanges_wrote {args : MergeArgs} (h : mergeChanges host s args files = .ok changes) :
    Wrote host s (.merge args) files changes := by
  obtain ⟨boundary, _, h⟩ := bind_eq_ok h
  obtain ⟨⟨a, b⟩, hsources, h⟩ := bind_eq_ok h
  obtain ⟨targetRel, hresolve, h⟩ := bind_eq_ok h
  obtain ⟨⟨fm, raw⟩, htarget, h⟩ := bind_eq_ok h
  obtain ⟨changeA, hchangeA, h⟩ := bind_eq_ok h
  obtain ⟨changeB, hchangeB, h⟩ := bind_eq_ok h
  obtain rfl := Except.ok.inj h
  obtain ⟨hA, hB, hAB⟩ := loaded_of_loadSources hsources
  obtain ⟨hdocA, _⟩ := documentOf_of_sources hsources
  obtain ⟨_, created, hraw, hfm⟩ := composeTarget_eq_ok htarget
  have hcanonical : fm.status = .canonical
      ↔ (Call.merge args).canonises host s files = true := by
    have htyped := status_coerce host raw
    rw [hraw, lookup_mergeRaw s args created a.parsed.raw b.parsed.raw (by decide), ← hraw]
      at htyped
    rw [hfm]
    show (coerce host.json raw).status = .canonical
      ↔ (documentOf host files args.pathA).any _ = true
    rw [hdocA, htyped]
    exact decide_eq_true_iff.symm
  have htargetStatus : asChoice (fm.toRaw.lookup "status") = some fm.status :=
    asChoice_text fm.status
  -- where each source goes
  have hpaths : ∀ {path : String} {source : Target B} {sources : List Change},
      sourceChanges s args boundary targetRel path source = .ok sources →
      (∀ p, p ∈ sources.map Change.relPath ↔ p = source.relPath ∧ p ≠ targetRel)
        ∧ (sources.map Change.relPath).Nodup
        ∧ ∀ c ∈ sources, c.relPath ≠ targetRel ∧ c.status = some .superseded := by
    intro path source sources hsource
    rcases sourceChanges_cases hsource with ⟨rfl, hsame⟩ | ⟨c, rfl, hpath, hne, hstatus⟩
    · refine ⟨?_, List.nodup_nil, by rintro _ ⟨⟩⟩
      simp [hsame]
    · refine ⟨?_, List.nodup_singleton _, ?_⟩
      · intro p
        rw [List.map_singleton, List.mem_singleton, ← hpath]
        exact ⟨fun hp => ⟨hp, hp ▸ hne⟩, fun hp => hp.1⟩
      · intro c' hc'
        rw [List.mem_singleton.mp hc']
        exact ⟨hne, hstatus⟩
  obtain ⟨hmemA, hnodupA, hallA⟩ := hpaths hchangeA
  obtain ⟨hmemB, hnodupB, hallB⟩ := hpaths hchangeB
  refine ⟨⟨targetRel, hresolve⟩, ?_, ?_, ?_⟩
  · intro path
    rw [List.map_cons, List.map_append, List.mem_cons, List.mem_append, hmemA, hmemB]
    constructor
    · rintro (rfl | ⟨rfl, _⟩ | ⟨rfl, _⟩)
      · exact ⟨args.targetPath, List.mem_cons_self, hresolve⟩
      · exact ⟨args.pathA, List.mem_cons_of_mem _ List.mem_cons_self, hA.resolve⟩
      · exact ⟨args.pathB, List.mem_cons_of_mem _ (List.mem_cons_of_mem _
          List.mem_cons_self), hB.resolve⟩
    · rintro ⟨name, hname, hpath⟩
      have hcases : name = args.targetPath ∨ name = args.pathA ∨ name = args.pathB := by
        simpa [Call.names] using hname
      rcases hcases with rfl | rfl | rfl
      · rw [hresolve] at hpath
        exact Or.inl (Except.ok.inj hpath).symm
      · rw [hA.resolve] at hpath
        obtain rfl := Except.ok.inj hpath
        by_cases hsame : a.relPath = targetRel
        · exact Or.inl hsame
        · exact Or.inr (Or.inl ⟨rfl, hsame⟩)
      · rw [hB.resolve] at hpath
        obtain rfl := Except.ok.inj hpath
        by_cases hsame : b.relPath = targetRel
        · exact Or.inl hsame
        · exact Or.inr (Or.inr ⟨rfl, hsame⟩)
  · rw [List.map_cons, List.map_append, List.nodup_cons, List.nodup_append]
    refine ⟨?_, hnodupA, hnodupB, ?_⟩
    · intro hmem
      rcases List.mem_append.mp hmem with hmem | hmem
      · exact ((hmemA _).mp hmem).2 rfl
      · exact ((hmemB _).mp hmem).2 rfl
    · intro p hp q hq hpq
      exact hAB (((hmemA p).mp hp).1.symm.trans (hpq.trans ((hmemB q).mp hq).1))
  · have hsource : ∀ c : Change, c.relPath ≠ targetRel ∧ c.status = some .superseded →
        (c.status = some .canonical ↔ host.resolve (Call.merge args).path = .ok c.relPath
          ∧ (Call.merge args).canonises host s files = true) := by
      rintro c ⟨hne, hstatus⟩
      refine iff_of_false ?_ ?_
      · rw [hstatus]
        decide
      · rintro ⟨hpath, _⟩
        have hpath' : host.resolve args.targetPath = .ok c.relPath := hpath
        rw [hresolve] at hpath'
        exact hne (Except.ok.inj hpath').symm
    intro c hc
    rcases List.mem_cons.mp hc with rfl | hc
    · show asChoice (fm.toRaw.lookup "status") = some Status.canonical ↔ _
      rw [htargetStatus, Option.some.injEq, hcanonical]
      exact ⟨fun hcanonises => ⟨hresolve, hcanonises⟩, fun hboth => hboth.2⟩
    · rcases List.mem_append.mp hc with hc | hc
      · exact hsource c (hallA c hc)
      · exact hsource c (hallB c hc)

/-- **What a call wrote.** -/
theorem wrote_of_changesOf (h : changesOf host s call files = .ok changes) :
    Wrote host s call files changes := by
  by_cases hmerge : ∃ args, call = .merge args
  · obtain ⟨args, rfl⟩ := hmerge
    exact mergeChanges_wrote h
  · have hcall : ∀ args, call ≠ .merge args := fun args heq => hmerge ⟨args, heq⟩
    obtain ⟨c, hsole⟩ := sole_of_changesOf hcall h
    exact hsole.wrote hcall

/-! ## Within the grants -/

def CanonicalAt (host : Host B) (files : Files B) (path : String) : Prop :=
  (files.lookup path).bind (statusOf host) = some .canonical

instance (host : Host B) (files : Files B) (path : String) :
    Decidable (CanonicalAt host files path) :=
  inferInstanceAs (Decidable ((files.lookup path).bind (statusOf host) = some .canonical))

/-- **A landing stays within the grants of its role**: every file it wrote lies in a folder the role
    may write, and a document that became canonical by it needed, and had, the promote grant. -/
structure Confined (host : Host B) (role : Option RoleConfig) (plan : Plan B)
    (found left : Files B) : Prop where
  folders : ∀ w ∈ plan.writes, canWrite role (collectionOfPath w.1) = true
  promotion : ∀ path, ¬ CanonicalAt host found path → CanonicalAt host left path →
    canPromote role = true

/-- **The gates cover the call**: each file it names lies in a folder that a gate asked
    for, or that the role may write; and a call that hands out the canonical status is
    made with the promote grant, or on a document that is canonical. -/
structure Covered (host : Host B) (s : Setting) (role : Option RoleConfig) (call : Call)
    (files found : Files B) : Prop where
  folders : ∀ name ∈ call.names, ∀ path, host.resolve name = .ok path →
    collectionOfPath path ∈ call.asks host files
      ∨ canWrite role (collectionOfPath path) = true
  promotion : call.canonises host s files = true → canPromote role = true
    ∨ ∃ path, host.resolve call.path = .ok path ∧ CanonicalAt host found path

/-- **WRITE GRANTS CONFINE WRITES** exactly when the gates cover the call. -/
theorem write_grants_confine {a : AccessContext} (ha : s.access = some a) {call : Call}
    {found left : Files B} (hattempt : attempt host s call files docs = .ok (.write plan))
    (hland : land host plan found = .ok left) :
    Confined host a.role plan found left ↔ Covered host s a.role call files found := by
  obtain ⟨changes, hchanges, hwrites⟩ := attempt_changesOf hattempt
  have hwrote := wrote_of_changesOf hchanges
  obtain rfl := (land_eq_ok host hland).2
  have hpaths : plan.writes.map Prod.fst = changes.map Change.relPath := by
    rw [hwrites]
    unfold writesOf
    rw [List.map_map]
    rfl
  have hnodup : (plan.writes.map Prod.fst).Nodup := by
    rw [hpaths]
    exact hwrote.nodup
  -- a written file reads with the status of its change
  have hleft : ∀ c ∈ changes, (CanonicalAt host (writeAll found plan.writes) c.relPath
      ↔ c.status = some .canonical) := by
    intro c hc
    have hmem : (c.relPath, c.fileText host) ∈ plan.writes := by
      rw [hwrites]
      exact List.mem_map_of_mem hc
    unfold CanonicalAt
    rw [lookup_writeAll_of_mem hnodup hmem, Option.bind_some, statusOf_fileText]
  constructor
  · intro hconfined
    refine ⟨?_, ?_⟩
    · intro name hname path hpath
      have hmem := (hwrote.names path).mpr ⟨name, hname, hpath⟩
      rw [← hpaths] at hmem
      obtain ⟨w, hw, rfl⟩ := List.mem_map.mp hmem
      exact Or.inr (hconfined.folders w hw)
    · intro hcanonises
      by_cases hpromote : canPromote a.role = true
      · exact Or.inl hpromote
      · right
        have htarget : call.path ∈ call.names := by
          cases call <;> exact List.mem_cons_self
        obtain ⟨path, hpath⟩ := hwrote.resolves
        refine ⟨path, hpath, ?_⟩
        obtain ⟨c, hc, rfl⟩ := List.mem_map.mp ((hwrote.names path).mpr ⟨_, htarget, hpath⟩)
        by_contra hbefore
        refine hpromote (hconfined.promotion _ hbefore ((hleft c hc).mpr ?_))
        exact (hwrote.status c hc).mpr ⟨hpath, hcanonises⟩
  · intro hcovered
    refine ⟨?_, ?_⟩
    · intro w hw
      have hmem : w.1 ∈ changes.map Change.relPath := by
        rw [← hpaths]
        exact List.mem_map_of_mem hw
      obtain ⟨name, hname, hpath⟩ := (hwrote.names w.1).mp hmem
      rcases hcovered.folders name hname w.1 hpath with hasked | hgranted
      · exact granted_of_attempt ha hattempt _ hasked
      · exact hgranted
    · intro path hbefore hafter
      by_cases hmem : path ∈ changes.map Change.relPath
      · obtain ⟨c, hc, rfl⟩ := List.mem_map.mp hmem
        obtain ⟨hpath, hcanonises⟩ := (hwrote.status c hc).mp ((hleft c hc).mp hafter)
        rcases hcovered.promotion hcanonises with hpromote | ⟨path, hpath', hcanonical⟩
        · exact hpromote
        · obtain rfl := Except.ok.inj (hpath.symm.trans hpath')
          exact absurd hcanonical hbefore
      · unfold CanonicalAt at hbefore hafter
        rw [lookup_writeAll_of_not_mem (by rw [hpaths]; exact hmem)] at hafter
        exact absurd hafter hbefore

end Changes

/-! ## A scribe -/

def scribe : AccessContext where
  user := "ann"
  roleName := "scribe"
  role := some
    { read := ["*"], write := ["notes"], promote := false, ratify := false,
      proposeOnly := false }

def officeVault : Files PlainFile :=
  [("notes/today.md", plainNote [] "Old."), ("policies/leave.md", plainNote [] "Ten days.")]

def appendTo (path : String) : Call := .append
  { path := path, agent := "agent:bot", sectionText := "More.".toList, baseVersion := none
    runId := none }

def canonicalDraft : Call := .write
  { path := "notes/today.md", agent := "agent:bot", body := "New.".toList
    frontmatter := [("status", .str "canonical")], nodup := by decide
    baseVersion := none, runId := none }

/-- **A scribe's note stays in the notes.** -/
theorem scribe_appends_note :
    ∃ plan left, attempt (plainHost plainConfig) (memberSetting scribe "2026-02-01")
        (appendTo "notes/today.md") officeVault officeVault = .ok (.write plan)
      ∧ land (plainHost plainConfig) plan officeVault = .ok left
      ∧ Confined (plainHost plainConfig) scribe.role plan officeVault left := by
  have hlands : (landed (plainHost plainConfig) (memberSetting scribe "2026-02-01")
      (appendTo "notes/today.md") officeVault).isSome = true := by
    decide +kernel
  obtain ⟨left, hleft⟩ := Option.isSome_iff_exists.mp hlands
  obtain ⟨plan, hplan, hland⟩ := Option.bind_eq_some_iff.mp hleft
  have hattempt := planOf_eq_some hplan
  have hasked : collectionOfPath "notes/today.md"
      ∈ (appendTo "notes/today.md").asks (plainHost plainConfig) officeVault := by
    decide +kernel
  have hdraft : ¬ (appendTo "notes/today.md").canonises (plainHost plainConfig)
      (memberSetting scribe "2026-02-01") officeVault = true := by
    decide +kernel
  cases hl : land (plainHost plainConfig) plan officeVault with
  | error e =>
      rw [hl] at hland
      cases hland
  | ok files =>
      refine ⟨plan, files, hattempt, hl, (write_grants_confine rfl hattempt hl).mpr ⟨?_, ?_⟩⟩
      · intro name hname path hpath
        have hsame : name = "notes/today.md" := List.mem_singleton.mp hname
        obtain rfl := Except.ok.inj hpath
        rw [hsame]
        exact Or.inl hasked
      · intro hcanonises
        exact absurd hcanonises hdraft

/-- **A scribe changes a policy, and makes a note canonical.** -/
theorem scribe_beyond_grants :
    (∃ left ∈ landed (plainHost plainConfig) (memberSetting scribe "2026-02-01")
        (appendTo "policies/leave.md") officeVault,
      left.lookup "policies/leave.md" ≠ officeVault.lookup "policies/leave.md"
        ∧ canWrite scribe.role (collectionOfPath "policies/leave.md") = false)
      ∧ ∃ left ∈ landed (plainHost plainConfig) (memberSetting scribe "2026-02-01")
          canonicalDraft officeVault,
        ¬ CanonicalAt (plainHost plainConfig) officeVault "notes/today.md"
          ∧ CanonicalAt (plainHost plainConfig) left "notes/today.md"
          ∧ canPromote scribe.role = false := by
  decide +kernel

end Write
