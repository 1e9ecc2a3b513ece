import Daftari.Curation.CertificatesProofs
import Daftari.Tools.WriteRecordsProofs

/-! # Tier-1 certificates of writes — which changes leave a trace

    Every write logs an entry with the difference of the typed frontmatter before and after it, and
    a flag for the body.  A change that is in neither is one no reader of the log sees.

    * `certificates_sound_iff`: **tier 1 is right about a write exactly when the write shows in the
      typed frontmatter or in the body**. -/

namespace Write

open Frontmatter Positions SupersedeChains Rbac
open Staleness (ProvenanceEntry differs frontmatterDiff mem_keys_frontmatterDiff
  bookkeepingFields bodyTouched changedFieldsFromProvenance mem_changedFieldsFromProvenance
  Certified certified_iff ConsumesEdge UpstreamStaleness compiledUpstreamStaleness)

section Changes

variable {B : Type}

/-- The entry a change is logged with. -/
def Change.entry (json : Value → String) (c : Change) (timestamp : String)
    (stamped : timestamp ≠ "") : ProvenanceEntry where
  timestamp := timestamp
  file := c.relPath
  action := c.action
  bodyChanged := some c.bodyChanged
  frontmatterDiff := some
    (frontmatterDiff json (c.before.map fun doc => doc.frontmatter.toRaw) c.newFrontmatter)
  stamped := stamped

def documentAt (host : Host B) (files : Files B) (path : String) : Option ParsedDocument :=
  (files.lookup path).bind fun text => (parseDocument host.codec host.json text).toOption

/-! ## What every tool logs a change with -/

/-- A change that is logged with the document it was made from, the truth about the
    body and, but for an append, typed frontmatter. -/
structure Recorded (host : Host B) (files : Files B) (c : Change) : Prop where
  before : c.before = documentAt host files c.relPath
  flag : c.bodyChanged = (decide (c.action = "append") || decide (c.action = "merge")
    || c.before.all fun doc => !sameBody doc.content c.body)
  typed : c.action = "append" ∨ ∃ fm : Fields, c.newFrontmatter = fm.toRaw
  landed : c.action ≠ "rejected_stale"

variable {host : Host B} {s : Setting} {files docs : Files B} {plan : Plan B}

theorem sameBody_refl (body : List Char) : sameBody body body = true :=
  (sameBody_iff body body).mpr rfl

variable {target : Target B}

theorem documentAt_of_load {tool rawPath : String}
    (h : loadTargetDocument host tool rawPath files = .ok target) :
    some target.parsed = documentAt host files target.relPath := by
  obtain ⟨relPath, _, h⟩ := bind_eq_ok h
  unfold documentAt
  cases hfile : files.lookup relPath with
  | none =>
      rw [hfile] at h
      cases h
  | some text =>
      rw [hfile] at h
      obtain ⟨parsed, hparsed, h⟩ := bind_eq_ok h
      obtain rfl := Except.ok.inj h
      rw [hfile, Option.bind_some, hparsed]
      rfl

theorem documentAt_of_existing {tool path relPath : String} {existing : Option B}
    {doc : Option ParsedDocument} (hexisting : existing = files.lookup relPath)
    (h : existingDocument host tool path existing = .ok doc) :
    doc = documentAt host files relPath := by
  unfold documentAt
  rw [← hexisting]
  unfold existingDocument at h
  cases existing with
  | none => exact (Except.ok.inj h).symm
  | some text =>
      cases hparse : parseDocument host.codec host.json text with
      | error reason =>
          simp only [hparse] at h
          cases h
      | ok parsed =>
          simp only [hparse] at h
          rw [Option.bind_some, hparse]
          exact (Except.ok.inj h).symm

theorem recorded_frontmatterChange {fm : Fields} {action : String}
    (hbefore : some target.parsed = documentAt host files target.relPath)
    (haction : action ∉ ["append", "merge", "rejected_stale"]) :
    Recorded host files (frontmatterChange target fm action) := by
  simp only [List.mem_cons, List.not_mem_nil, or_false, not_or] at haction
  obtain ⟨happend, hmerge, hstale⟩ := haction
  refine ⟨hbefore, ?_, Or.inr ⟨fm, rfl⟩, hstale⟩
  show false = (decide (action = "append") || decide (action = "merge")
    || !sameBody target.parsed.content target.parsed.content)
  rw [sameBody_refl, decide_eq_false happend, decide_eq_false hmerge]
  rfl

variable {changes : List Change}

theorem writeChanges_recorded {args : WriteArgs} {patch : Option B}
    (hpatch : ∀ relPath, host.resolve args.path = .ok relPath →
      (patch <|> files.lookup relPath) = files.lookup relPath)
    (h : writeChanges host s args patch files = .ok changes) :
    ∀ c ∈ changes, Recorded host files c := by
  unfold writeChanges at h
  simp only [bind_eq_ok_iff] at h
  obtain ⟨relPath, hresolve, doc, hdoc, composed, _, h⟩ := h
  obtain rfl := Except.ok.inj h
  intro c hc
  obtain rfl := List.mem_singleton.mp hc
  have hbefore := documentAt_of_existing (hpatch relPath hresolve) hdoc
  have hname : (if patch.isSome then "patch" else if doc.isSome then "update" else "create")
      ∉ ["append", "merge", "rejected_stale"] := by
    split
    · decide
    · split <;> decide
  simp only [List.mem_cons, List.not_mem_nil, or_false, not_or] at hname
  refine ⟨hbefore, ?_, Or.inr ⟨_, rfl⟩, hname.2.2⟩
  rw [decide_eq_false hname.1, decide_eq_false hname.2.1]
  rfl

theorem patchChanges_recorded {args : PatchArgs}
    (h : patchChanges host s args files = .ok changes) : ∀ c ∈ changes, Recorded host files c := by
  unfold patchChanges at h
  obtain ⟨target, hload, h⟩ := bind_eq_ok h
  obtain ⟨body, _, h⟩ := bind_eq_ok h
  have hloaded := loaded_of_load hload
  refine writeChanges_recorded ?_ h
  -- the patch was computed from the file under the path
  intro relPath hresolve
  have hpath : relPath = target.relPath := by
    have hsame : host.resolve args.path = .ok relPath := hresolve
    rw [hloaded.resolve] at hsame
    exact (Except.ok.inj hsame).symm
  rw [hpath, hloaded.file]
  rfl

theorem appendChanges_recorded {args : AppendArgs}
    (h : appendChanges host s args files = .ok changes) : ∀ c ∈ changes, Recorded host files c := by
  unfold appendChanges at h
  obtain ⟨target, hload, h⟩ := bind_eq_ok h
  obtain rfl := Except.ok.inj h
  intro c hc
  obtain rfl := List.mem_singleton.mp hc
  exact ⟨documentAt_of_load hload, rfl, Or.inl rfl, by simp⟩

variable {args : MergeArgs}

theorem sourceChanges_recorded {boundary : Option String} {targetRel path : String}
    {source : Target B} (hbefore : some source.parsed = documentAt host files source.relPath)
    (h : sourceChanges s args boundary targetRel path source = .ok changes) :
    ∀ c ∈ changes, Recorded host files c := by
  unfold sourceChanges at h
  split at h
  · obtain rfl := Except.ok.inj h
    intro c hc
    cases hc
  · obtain ⟨_, _, h⟩ := bind_eq_ok h
    obtain rfl := Except.ok.inj h
    intro c hc
    obtain rfl := List.mem_singleton.mp hc
    exact recorded_frontmatterChange hbefore (by decide)

theorem documentAt_of_sources {a b : Target B} (h : loadSources host args files = .ok (a, b)) :
    some a.parsed = documentAt host files a.relPath
      ∧ some b.parsed = documentAt host files b.relPath := by
  unfold loadSources at h
  simp only [bind_eq_ok_iff] at h
  obtain ⟨_, _, _, _, _, _, _, _, _, _, _, _, a', hloadA, b', hloadB, h⟩ := h
  obtain ⟨rfl, rfl⟩ := Prod.mk.inj (Except.ok.inj h)
  exact ⟨documentAt_of_load hloadA, documentAt_of_load hloadB⟩

theorem mergeChanges_recorded (h : mergeChanges host s args files = .ok changes) :
    ∀ c ∈ changes, Recorded host files c := by
  obtain ⟨boundary, _, h⟩ := bind_eq_ok h
  obtain ⟨⟨a, b⟩, hsources, h⟩ := bind_eq_ok h
  obtain ⟨hbeforeA, hbeforeB⟩ := documentAt_of_sources hsources
  simp only [bind_eq_ok_iff] at h
  obtain ⟨targetRel, _, target, _, changeA, hchangeA, changeB, hchangeB, h⟩ := h
  obtain rfl := Except.ok.inj h
  intro c hc
  rcases List.mem_cons.mp hc with rfl | hc
  · exact ⟨rfl, rfl, Or.inr ⟨_, rfl⟩, by simp⟩
  · rcases List.mem_append.mp hc with hc | hc
    · exact sourceChanges_recorded hbeforeA hchangeA c hc
    · exact sourceChanges_recorded hbeforeB hchangeB c hc

theorem recorded_singleton {tool rawPath action : String} {fm : Fields}
    (hload : loadTargetDocument host tool rawPath files = .ok target)
    (haction : action ∉ ["append", "merge", "rejected_stale"]) :
    ∀ c ∈ [frontmatterChange target fm action], Recorded host files c := by
  intro c hc
  obtain rfl := List.mem_singleton.mp hc
  exact recorded_frontmatterChange (documentAt_of_load hload) haction

/-- **Every tool logs its changes with the document it read and the truth about the body.** -/
theorem recorded_of_changesOf {call : Call} (h : changesOf host s call files = .ok changes) :
    ∀ c ∈ changes, Recorded host files c := by
  match call, h with
  | .write args, h => exact writeChanges_recorded (fun _ _ => rfl) h
  | .patch args, h => exact patchChanges_recorded h
  | .append args, h => exact appendChanges_recorded h
  | .merge args, h => exact mergeChanges_recorded h
  | .promote args, h =>
      obtain ⟨target, hload, h⟩ := bind_eq_ok h
      obtain rfl := Except.ok.inj h
      exact recorded_singleton hload (by decide)
  | .deprecate args, h =>
      obtain ⟨_, _, h⟩ := bind_eq_ok h
      obtain ⟨target, hload, h⟩ := bind_eq_ok h
      obtain ⟨_, _, h⟩ := bind_eq_ok h
      obtain rfl := Except.ok.inj h
      exact recorded_singleton hload (by decide)
  | .setConfidence args confidence, h =>
      obtain ⟨target, hload, h⟩ := bind_eq_ok h
      obtain rfl := Except.ok.inj h
      exact recorded_singleton hload (by decide)
  | .setTier args tier, h =>
      obtain ⟨target, hload, h⟩ := bind_eq_ok h
      obtain rfl := Except.ok.inj h
      exact recorded_singleton hload (by decide)
  | .supersede args, h =>
      obtain ⟨_, _, h⟩ := bind_eq_ok h
      obtain ⟨target, hload, h⟩ := bind_eq_ok h
      obtain ⟨_, _, h⟩ := bind_eq_ok h
      obtain rfl := Except.ok.inj h
      exact recorded_singleton hload (by decide)
  | .unsupersede args, h =>
      obtain ⟨target, hload, h⟩ := bind_eq_ok h
      obtain rfl := Except.ok.inj h
      exact recorded_singleton hload (by decide)
  | .assert args, h =>
      obtain ⟨_, _, h⟩ := bind_eq_ok h
      obtain ⟨target, hload, h⟩ := bind_eq_ok h
      obtain rfl := Except.ok.inj h
      exact recorded_singleton hload (by decide)
  | .consolidate args, h =>
      obtain ⟨_, _, h⟩ := bind_eq_ok h
      obtain ⟨target, hload, h⟩ := bind_eq_ok h
      obtain rfl := Except.ok.inj h
      exact recorded_singleton hload (by decide)

/-! ## What is changed and what is seen -/

def valueAt (raw : Raw) (k : String) : Option Value := (raw.lookup k).filter (· ≠ .null)

/-- A file is there and its body, or a field that is no bookkeeping, is not as in the
    file before, if there was one. -/
def ContentChanged (codec : Codec B) (old new : Option B) : Prop :=
  ∃ after ∈ new.bind fun file => (codec.parse file).toOption,
    ∀ before ∈ old.bind fun file => (codec.parse file).toOption,
      (∃ k, k ∉ bookkeepingFields ∧ valueAt before.1 k ≠ valueAt after.1 k)
        ∨ sameBody before.2 after.2 = false

/-- A change that shows: an append, the target of a merge, a new document, another
    body, or another value of a built-in field that is no bookkeeping. -/
def Shows (host : Host B) (files : Files B) (c : Change) : Prop :=
  c.action = "append" ∨ c.action = "merge"
    ∨ ∀ doc ∈ documentAt host files c.relPath, sameBody doc.content c.body = false
      ∨ ∃ k ∈ builtinFields, k ∉ bookkeepingFields
        ∧ differs host.json (doc.frontmatter.toRaw.lookup k) (c.newFrontmatter.lookup k) = true

theorem lookup_toRaw_of_not_builtin {fm : Fields} {k : String} (hk : k ∉ builtinFields) :
    fm.toRaw.lookup k = none := by
  cases h : fm.toRaw.lookup k with
  | none => rfl
  | some v =>
      have hkeys : Assoc.keys fm.toRaw = builtinFields := rfl
      have hmem : k ∈ Assoc.keys fm.toRaw :=
        List.mem_map_of_mem (f := Prod.fst) (Assoc.mem_of_lookup h)
      exact absurd hmem hk

/-- **The entry of a change names a changed field exactly when the change shows.** -/
theorem changed_iff_shows {c : Change} (h : Recorded host files c) {timestamp : String}
    (stamped : timestamp ≠ "") :
    changedFieldsFromProvenance (c.entry host.json timestamp stamped) ≠ []
      ↔ Shows host files c := by
  have hmem {f : String} := mem_changedFieldsFromProvenance
    (e := c.entry host.json timestamp stamped) (f := f)
  have hkeys {f : String} : f ∈ (((c.entry host.json timestamp stamped).frontmatterDiff.getD
      []).map Prod.fst) ↔ differs host.json
        (((c.before.map fun doc => doc.frontmatter.toRaw).getD []).lookup f)
        (c.newFrontmatter.lookup f) = true :=
    mem_keys_frontmatterDiff
  have hbody : bodyTouched (c.entry host.json timestamp stamped) = c.bodyChanged := rfl
  rw [h.flag] at hbody
  unfold Shows
  rw [← h.before]
  constructor
  · intro hchanged
    by_cases happend : c.action = "append"
    · exact Or.inl happend
    by_cases hmerge : c.action = "merge"
    · exact Or.inr (Or.inl hmerge)
    refine Or.inr (Or.inr ?_)
    intro doc hdoc
    obtain ⟨f, hf⟩ := List.exists_mem_of_ne_nil _ hchanged
    rcases hmem.mp hf with ⟨hdiff, hcontent⟩ | ⟨-, htouched⟩
    · rw [hkeys, hdoc] at hdiff
      refine Or.inr ⟨f, ?_, hcontent, hdiff⟩
      -- a key that is not built in is in neither record
      by_contra hbuiltin
      obtain ⟨fm, hfm⟩ := h.typed.resolve_left happend
      rw [hfm, lookup_toRaw_of_not_builtin hbuiltin] at hdiff
      exact of_decide_eq_true hdiff (congrArg (Option.map host.json)
        (lookup_toRaw_of_not_builtin hbuiltin))
    · rw [hbody, hdoc, decide_eq_false happend, decide_eq_false hmerge] at htouched
      exact Or.inl (by simpa using htouched)
  · intro hshows
    -- a body that is flagged is a changed field
    have hflagged : c.bodyChanged = true →
        changedFieldsFromProvenance (c.entry host.json timestamp stamped) ≠ [] := by
      intro hflag
      exact List.ne_nil_of_mem (hmem.mpr (Or.inr ⟨rfl, hflag⟩))
    rcases hshows with happend | hmerge | hdoc
    · exact hflagged (by rw [h.flag, decide_eq_true happend]; rfl)
    · exact hflagged (by rw [h.flag, decide_eq_true hmerge, Bool.or_true]; rfl)
    · cases hbefore : c.before with
      | none => exact hflagged (by rw [h.flag, hbefore]; simp)
      | some doc =>
          rcases hdoc doc hbefore with hsame | ⟨k, -, hcontent, hdiffers⟩
          · exact hflagged (by rw [h.flag, hbefore]; simp [hsame])
          · refine List.ne_nil_of_mem (hmem.mpr (Or.inl ⟨hkeys.mpr ?_, hcontent⟩))
            rw [hbefore]
            exact hdiffers

theorem nodup_writes {call : Call} (h : attempt host s call files docs = .ok (.write plan)) :
    (plan.writes.map Prod.fst).Nodup := by
  match call, h with
  | .merge args, h =>
      obtain ⟨_, _, _, _, _, hmerges⟩ := vaultMerge_merges h
      exact hmerges.nodup
  | .write args, h =>
      obtain ⟨relPath, _, hdirect⟩ := direct_of_writeDocument h
      obtain ⟨text, _, hwrites, _, _⟩ := writeDirect_updates hdirect
      rw [hwrites]
      exact List.nodup_singleton _
  | .patch _, h | .append _, h | .promote _, h | .deprecate _, h | .setConfidence _ _, h
  | .setTier _ _, h | .supersede _, h | .unsupersede _, h | .assert _, h
  | .consolidate _, h =>
      obtain ⟨_, _, _, _, hrewrite, _⟩ := attempt_changes rfl h
      rw [hrewrite.writes]
      exact List.nodup_singleton _

/-- **TIER 1 IS RIGHT ABOUT A WRITE EXACTLY WHEN THE WRITE SHOWS**: for every change of
    every landed write of every tool, composed from whatever files and landed on
    whatever files, with whatever log around its entry. -/
theorem certificates_sound_iff {call : Call} {now files' : Files B}
    (h : attempt host s call files docs = .ok (.write plan))
    (hland : land host plan now = .ok files') :
    ∃ changes, changesOf host s call files = .ok changes
      ∧ plan.writes = writesOf host changes
      ∧ ∀ c ∈ changes, files'.lookup c.relPath = some (c.fileText host)
        ∧ ∀ timestamp (stamped : timestamp ≠ ""),
          (ContentChanged host.codec (now.lookup c.relPath) (files'.lookup c.relPath) →
              Certified (c.entry host.json timestamp stamped))
            ↔ (ContentChanged host.codec (now.lookup c.relPath) (files'.lookup c.relPath) →
              Shows host files c) := by
  obtain ⟨changes, hchanges, hwrites⟩ := attempt_changesOf h
  refine ⟨changes, hchanges, hwrites, ?_⟩
  intro c hc
  have hrecorded := recorded_of_changesOf hchanges c hc
  refine ⟨?_, ?_⟩
  · rw [(land_eq_ok host hland).2]
    refine lookup_writeAll_of_mem (nodup_writes h) ?_
    rw [hwrites]
    exact List.mem_map_of_mem hc
  · intro timestamp stamped
    have hlanded : (c.entry host.json timestamp stamped).rejectedStale = false :=
      decide_eq_false hrecorded.landed
    rw [certified_iff hlanded, changed_iff_shows hrecorded stamped]

instance (host : Host B) (files : Files B) (c : Change) : Decidable (Shows host files c) :=
  inferInstanceAs (Decidable (_ ∨ _ ∨ ∀ doc ∈ documentAt host files c.relPath,
    _ ∨ ∃ k ∈ builtinFields, _ ∧ _))

end Changes

/-! ## An update of a field the schema does not have -/

-- `JSON.stringify`, for texts that need no escape.
mutual
def jsonChars : Value → List Char
  | .null => "null".toList
  | .bool b => if b then "true".toList else "false".toList
  | .num text finite => if finite then text.toList else "null".toList
  | .str text | .date text => '"' :: text.toList ++ ['"']
  | .arr items => '[' :: jsonItems items ++ [']']
  | .obj fields => '\x7b' :: jsonMembers fields ++ ['\x7d']

def jsonItems : List Value → List Char
  | [] => []
  | v :: rest => jsonChars v ++ (if rest.isEmpty then [] else [',']) ++ jsonItems rest

def jsonMembers : List (String × Value) → List Char
  | [] => []
  | (k, v) :: rest => '"' :: k.toList ++ ['"', ':'] ++ jsonChars v
      ++ (if rest.isEmpty then [] else [',']) ++ jsonMembers rest
end

def printingHost : Host PlainFile :=
  { plainHost plainConfig with json := fun v => String.ofList (jsonChars v) }

/-- A note, and an update that gives it a priority and nothing else. -/
def pricingVault : Files PlainFile := [("note.md", plainNote [] "Prices rose.")]

def addPriority : Call := .write
  { path := "note.md", agent := "human:ann", body := "Prices rose.".toList
    frontmatter := [("priority", .str "high")], nodup := by decide, baseVersion := none
    runId := none }

def doubtNote : Call := .setConfidence
  { path := "note.md", agent := "human:ann", reason := "one source only", baseVersion := none
    runId := none } .low

def digestEdge : ConsumesEdge where
  artifact := "digest.md"
  unit := "note.md"
  fields := ["*"]
  compileTs := "2026-01-15T00:00:00.000Z"

theorem contentChanged_of_value {old new : PlainFile} {k : String}
    (hk : k ∉ bookkeepingFields) (h : valueAt old.data k ≠ valueAt new.data k) :
    ContentChanged plainCodec (some old) (some new) := by
  refine ⟨(new.data, new.content), rfl, ?_⟩
  intro before hbefore
  obtain rfl := Option.some.inj hbefore
  exact Or.inl ⟨k, hk, h⟩

theorem landed_note (call : Call) {k : String} {v : Value}
    (h : ((landed printingHost (operatorSetting "2026-02-01") call pricingVault).bind
      fun files' => files'.lookup "note.md").any
        (fun file => decide (valueAt file.data k = some v)) = true) :
    ∃ plan files' text,
      attempt printingHost (operatorSetting "2026-02-01") call pricingVault pricingVault
          = .ok (.write plan)
        ∧ land printingHost plan pricingVault = .ok files'
        ∧ files'.lookup "note.md" = some text ∧ valueAt text.data k = some v := by
  obtain ⟨text, hbind, hvalue⟩ := (Option.any_eq_true _ _).mp h
  obtain ⟨files', hlanded, hfile⟩ := Option.bind_eq_some_iff.mp hbind
  obtain ⟨plan, hplan, hland⟩ := Option.bind_eq_some_iff.mp hlanded
  refine ⟨plan, files', text, planOf_eq_some hplan, ?_, hfile, of_decide_eq_true hvalue⟩
  cases hl : land printingHost plan pricingVault with
  | error e =>
      rw [hl] at hland
      cases hland
  | ok files'' =>
      rw [hl] at hland
      obtain rfl := Option.some.inj hland
      rfl

/-- **A CHANGE OF A BUILT-IN FIELD IS CERTIFIED.** -/
theorem confidence_change_certified :
    ∃ plan files' changes,
      attempt printingHost (operatorSetting "2026-02-01") doubtNote pricingVault pricingVault
          = .ok (.write plan)
        ∧ land printingHost plan pricingVault = .ok files'
        ∧ changesOf printingHost (operatorSetting "2026-02-01") doubtNote pricingVault
          = .ok changes
        ∧ ∀ c ∈ changes, ∀ timestamp (stamped : timestamp ≠ ""),
          Certified (c.entry printingHost.json timestamp stamped) := by
  obtain ⟨plan, files', text, hattempt, hland, hfile, hvalue⟩ :=
    landed_note doubtNote (k := "confidence") (v := .str "low") (by decide +kernel)
  obtain ⟨changes, hchanges, _, hsound⟩ := certificates_sound_iff hattempt hland
  refine ⟨plan, files', changes, hattempt, hland, hchanges, ?_⟩
  intro c hc timestamp stamped
  have hshows : (changesOf printingHost (operatorSetting "2026-02-01") doubtNote
      pricingVault).toOption.all (fun changes => changes.all fun c =>
        decide (c.relPath = "note.md" ∧ Shows printingHost pricingVault c)) = true := by
    decide +kernel
  rw [hchanges] at hshows
  obtain ⟨hpath, hc'⟩ := of_decide_eq_true (List.all_eq_true.mp hshows c hc)
  refine ((hsound c hc).2 timestamp stamped).mpr (fun _ => hc') ?_
  rw [hpath, hfile]
  refine contentChanged_of_value (k := "confidence") (by decide) ?_
  rw [hvalue]
  decide

/-- **AN UPDATE OF A FIELD THE SCHEMA DOES NOT HAVE IS NOT SEEN**: the digest of the
    whole note is found compatible with it. -/
theorem undeclared_field_hides_change :
    ∃ plan files' c,
      attempt printingHost (operatorSetting "2026-02-01") addPriority pricingVault pricingVault
          = .ok (.write plan)
        ∧ land printingHost plan pricingVault = .ok files'
        ∧ changesOf printingHost (operatorSetting "2026-02-01") addPriority pricingVault
          = .ok [c]
        ∧ ContentChanged plainCodec (pricingVault.lookup "note.md") (files'.lookup "note.md")
        ∧ changedFieldsFromProvenance
            (c.entry printingHost.json "2026-02-01T00:00:00.000Z" (by decide)) = []
        ∧ (compiledUpstreamStaleness "digest.md" [digestEdge]
            [c.entry printingHost.json "2026-02-01T00:00:00.000Z" (by decide)] none).map
              UpstreamStaleness.staleness = [.pendingCompatible] := by
  obtain ⟨plan, files', text, hattempt, hland, hfile, hvalue⟩ :=
    landed_note addPriority (k := "priority") (v := .str "high") (by decide +kernel)
  have hhidden : (changesOf printingHost (operatorSetting "2026-02-01") addPriority
      pricingVault).toOption.any (fun changes => changes.length = 1 ∧ changes.all fun c =>
        decide (changedFieldsFromProvenance
            (c.entry printingHost.json "2026-02-01T00:00:00.000Z" (by decide)) = []
          ∧ (compiledUpstreamStaleness "digest.md" [digestEdge]
            [c.entry printingHost.json "2026-02-01T00:00:00.000Z" (by decide)] none).map
              UpstreamStaleness.staleness = [.pendingCompatible])) = true := by
    decide +kernel
  obtain ⟨changes, hchanges, hall⟩ := (Option.any_eq_true _ _).mp hhidden
  obtain ⟨hone, hall⟩ := of_decide_eq_true hall
  obtain ⟨c, rfl⟩ := List.length_eq_one_iff.mp hone
  obtain ⟨hnone, hcompatible⟩ := of_decide_eq_true
    (List.all_eq_true.mp hall c List.mem_cons_self)
  refine ⟨plan, files', c, hattempt, hland, ?_, ?_, hnone, hcompatible⟩
  · cases hok : changesOf printingHost (operatorSetting "2026-02-01") addPriority
      pricingVault with
    | error e =>
        rw [hok] at hchanges
        cases hchanges
    | ok changes =>
        rw [hok] at hchanges
        exact congrArg Except.ok (Option.some.inj hchanges)
  · rw [hfile]
    refine contentChanged_of_value (k := "priority") (by decide) ?_
    rw [hvalue]
    decide

end Write
