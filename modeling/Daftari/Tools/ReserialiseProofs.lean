import Daftari.Frontmatter.FidelityProofs
import Daftari.Tools.WriteRecordsProofs

/-! # Re-serialising a document — what a lifecycle write leaves untouched

    Seven tools rebuild the file of the document they loaded and mean to change a few fields of it.
    The rest of the record, well formed or not, is promised to stay.

    * `nonDestructive_iff`: **a write is non-destructive exactly when the validator reads each other
      built-in value as it is**; keys that are not built in always come through. -/

namespace Write

open Frontmatter Positions SupersedeChains Rbac

/-! ## The tools and what they change -/

/-- The tools that rebuild the file of a document they loaded. -/
def Call.reserialises : Call → Bool
  | .append _ | .deprecate _ | .setConfidence _ _ | .setTier _ _ | .supersede _
  | .unsupersede _ | .assert _ => true
  | .write _ | .patch _ | .promote _ | .merge _ | .consolidate _ => false

/-- The body a re-serialising tool writes. -/
def Call.bodyAfter : Call → List Char → List Char
  | .append args, content => appendSection content args.sectionText
  | _, content => content

/-- The server's stamps, on every write. -/
def stampFields : List String := ["updated", "updated_by"]

section Tools

variable {B : Type} (host : Host B) (s : Setting)

/-- Does an assert leave the document contested with no ratified stance? -/
def lowersConfidence (args : AssertArgs) (fm : Fields) : Bool :=
  match positionPrincipal s "vault_assert" "assert a position for another principal"
    args.principal with
  | .ok principal =>
      (assertFrontmatter s args principal fm).contested = some true ∧ fm.orgPosition = none
  | .error _ => false

def hookedFields (args : AppendArgs) (fm : Fields) : List String :=
  builtinFields.filter fun k => (appendRecord host s args fm).1.lookup k
    ≠ (stamp s fm args.agent).toRaw.lookup k

/-- The frontmatter change set of a call on a document. -/
def changeSet (call : Call) (fm : Fields) : List String :=
  stampFields ++ match call with
  | .append args => hookedFields host s args fm
  | .deprecate args =>
      ["status", "superseded_by"] ++ (if args.boundary.isSome then ["valid_until"] else [])
  | .supersede args =>
      ["status", "superseded_by"] ++ (if args.boundary.isSome then ["valid_until"] else [])
  | .setConfidence _ _ => ["confidence"]
  | .setTier _ _ => ["tier"]
  | .unsupersede _ => ["status", "superseded_by"]
  | .assert args =>
      ["positions", "contested"] ++ (if lowersConfidence s args fm then ["confidence"] else [])
  | .write _ | .patch _ | .promote _ | .merge _ | .consolidate _ => builtinFields

/-! ## The typed record outside the change set -/

theorem closingUntil_none {fm : Fields} {tool path : String} {validUntil : Option String}
    (h : closingUntil fm none tool path = .ok validUntil) : validUntil = none := by
  exact (Except.ok.inj h).symm

theorem readBoundary_none {tool : String} {boundary : Option String}
    (h : readBoundary tool none = .ok boundary) : boundary = none := by
  exact (Except.ok.inj h).symm

variable (fm : Fields)

theorem toRaw_stamp (agent : String) :
    (stamp s fm agent).toRaw
      = Assoc.set (Assoc.set fm.toRaw "updated" (.str s.today)) "updated_by" (.str agent) :=
  rfl

theorem toRaw_status (status : Status) : Fields.toRaw { fm with status := status }
      = Assoc.set fm.toRaw "status" (.str (Choice.text status)) :=
  rfl

theorem toRaw_supersededBy (successor : Option String) :
    Fields.toRaw { fm with supersededBy := successor }
      = Assoc.set fm.toRaw "superseded_by" (textOrNull successor) :=
  rfl

theorem toRaw_validUntil (validUntil : Option String) :
    Fields.toRaw { fm with validUntil := validUntil }
      = Assoc.set fm.toRaw "valid_until" (textOrNull validUntil) :=
  rfl

theorem toRaw_confidence (confidence : Confidence) :
    Fields.toRaw { fm with confidence := confidence }
      = Assoc.set fm.toRaw "confidence" (.str (Choice.text confidence)) :=
  rfl

theorem toRaw_tier (tier : Option Tier) :
    Fields.toRaw { fm with tier := tier } = Assoc.set fm.toRaw "tier" (wordOrNull tier) :=
  rfl

theorem toRaw_contested (contested : Bool) : Fields.toRaw { fm with contested := some contested }
      = Assoc.set fm.toRaw "contested" (.bool contested) :=
  rfl

theorem toRaw_created (created : String) : Fields.toRaw { fm with created := created }
      = Assoc.set fm.toRaw "created" (.str created) :=
  rfl

theorem toRaw_positions (ps : List Position) : Fields.toRaw { fm with positions := some ps }
      = Assoc.set fm.toRaw "positions" (.arr (ps.map Position.toValue)) :=
  rfl

end Tools

section Changes

variable {B : Type} {host : Host B} {s : Setting} {files docs : Files B} {plan : Plan B}

variable {k : String}

theorem lookup_stamp {fm : Fields} {agent : String} (hk : k ∉ stampFields) :
    (stamp s fm agent).toRaw.lookup k = fm.toRaw.lookup k := by
  unfold stampFields at hk
  simp only [List.mem_cons, List.not_mem_nil, or_false, not_or] at hk
  rw [toRaw_stamp, Assoc.lookup_set_of_ne _ _ hk.2, Assoc.lookup_set_of_ne _ _ hk.1]

/-- A change that rebuilds the file of a loaded document. -/
structure Rebuilds (host : Host B) (s : Setting) (call : Call) (files : Files B)
    (target : Target B) (c : Change) : Prop where
  loaded : Loaded host files call.path target
  relPath : c.relPath = target.relPath
  raw : c.raw = target.parsed.raw
  body : c.body = call.bodyAfter target.parsed.content
  record : ∀ k ∉ changeSet host s call target.parsed.frontmatter, k ∈ builtinFields →
    c.newFrontmatter.lookup k = target.parsed.frontmatter.toRaw.lookup k

/-- A deprecation and a supersede set the status, the successor and, when a boundary
    was given, the closing date. -/
theorem lookup_retired {fm : Fields} {agent tool path : String} {status : Status}
    {successor given boundary validUntil : Option String}
    (hboundary : readBoundary tool given = .ok boundary)
    (huntil : closingUntil fm boundary tool path = .ok validUntil)
    (hk : k ∉ stampFields ++ (["status", "superseded_by"]
      ++ (if given.isSome then ["valid_until"] else []))) :
    (stamp s { fm with
      status := status
      supersededBy := successor
      validUntil := validUntil <|> fm.validUntil } agent).toRaw.lookup k
      = fm.toRaw.lookup k := by
  simp only [List.mem_append, List.mem_cons, List.not_mem_nil, or_false, not_or] at hk
  obtain ⟨hstamp, ⟨hstatus, hsuccessor⟩, hclosing⟩ := hk
  rw [lookup_stamp hstamp, toRaw_validUntil { fm with
    status := status, supersededBy := successor }]
  by_cases hvalid : k = "valid_until"
  · -- no boundary was given, so the date that is set is the one that was there
    cases given with
    | some date => exact absurd (by simp [hvalid]) hclosing
    | none =>
        obtain rfl := readBoundary_none hboundary
        obtain rfl := closingUntil_none huntil
        rw [hvalid, Assoc.lookup_set_self]
        rfl
  · rw [Assoc.lookup_set_of_ne _ _ hvalid, toRaw_supersededBy { fm with status := status },
      Assoc.lookup_set_of_ne _ _ hsuccessor, toRaw_status, Assoc.lookup_set_of_ne _ _ hstatus]

variable {changes : List Change}

theorem appendChanges_rebuilds {args : AppendArgs}
    (h : appendChanges host s args files = .ok changes) :
    ∃ target c, changes = [c] ∧ Rebuilds host s (.append args) files target c := by
  obtain ⟨target, hload, h⟩ := bind_eq_ok h
  obtain rfl := Except.ok.inj h
  refine ⟨target, _, rfl, loaded_of_load hload, rfl, rfl, rfl, ?_⟩
  intro k hk hbuiltin
  obtain ⟨hstamp, hhooked⟩ := not_or.mp (fun h => hk (List.mem_append.mpr h))
  have hsame : (appendRecord host s args target.parsed.frontmatter).1.lookup k
      = (stamp s target.parsed.frontmatter args.agent).toRaw.lookup k := by
    by_contra hne
    exact hhooked (List.mem_filter.mpr ⟨hbuiltin, decide_eq_true hne⟩)
  exact hsame.trans (lookup_stamp hstamp)

theorem deprecateChanges_rebuilds {args : DeprecateArgs}
    (h : deprecateChanges host s args files = .ok changes) :
    ∃ target c, changes = [c] ∧ Rebuilds host s (.deprecate args) files target c := by
  unfold deprecateChanges at h
  simp only [bind_eq_ok_iff] at h
  obtain ⟨boundary, hboundary, target, hload, validUntil, huntil, h⟩ := h
  obtain rfl := Except.ok.inj h
  refine ⟨target, _, rfl, loaded_of_load hload, rfl, rfl, rfl, ?_⟩
  intro k hk _
  exact lookup_retired hboundary huntil hk

theorem supersedeChanges_rebuilds {args : SupersedeArgs}
    (h : supersedeChanges host s args files = .ok changes) :
    ∃ target c, changes = [c] ∧ Rebuilds host s (.supersede args) files target c := by
  unfold supersedeChanges at h
  simp only [bind_eq_ok_iff] at h
  obtain ⟨boundary, hboundary, target, hload, validUntil, huntil, h⟩ := h
  obtain rfl := Except.ok.inj h
  refine ⟨target, _, rfl, loaded_of_load hload, rfl, rfl, rfl, ?_⟩
  intro k hk _
  exact lookup_retired hboundary huntil hk

variable {args : LifecycleArgs}

theorem setConfidenceChanges_rebuilds {confidence : Confidence}
    (h : setConfidenceChanges host s args confidence files = .ok changes) :
    ∃ target c, changes = [c]
      ∧ Rebuilds host s (.setConfidence args confidence) files target c := by
  obtain ⟨target, hload, h⟩ := bind_eq_ok h
  obtain rfl := Except.ok.inj h
  refine ⟨target, _, rfl, loaded_of_load hload, rfl, rfl, rfl, ?_⟩
  intro k hk _
  obtain ⟨hstamp, hset⟩ := not_or.mp (fun h => hk (List.mem_append.mpr h))
  refine (lookup_stamp hstamp).trans ?_
  rw [toRaw_confidence, Assoc.lookup_set_of_ne _ _ (fun hc => hset (by simp [hc]))]

theorem setTierChanges_rebuilds {tier : Tier}
    (h : setTierChanges host s args tier files = .ok changes) :
    ∃ target c, changes = [c] ∧ Rebuilds host s (.setTier args tier) files target c := by
  obtain ⟨target, hload, h⟩ := bind_eq_ok h
  obtain rfl := Except.ok.inj h
  refine ⟨target, _, rfl, loaded_of_load hload, rfl, rfl, rfl, ?_⟩
  intro k hk _
  obtain ⟨hstamp, hset⟩ := not_or.mp (fun h => hk (List.mem_append.mpr h))
  refine (lookup_stamp hstamp).trans ?_
  rw [toRaw_tier, Assoc.lookup_set_of_ne _ _ (fun hc => hset (by simp [hc]))]

theorem unsupersedeChanges_rebuilds (h : unsupersedeChanges host s args files = .ok changes) :
    ∃ target c, changes = [c] ∧ Rebuilds host s (.unsupersede args) files target c := by
  obtain ⟨target, hload, h⟩ := bind_eq_ok h
  obtain rfl := Except.ok.inj h
  refine ⟨target, _, rfl, loaded_of_load hload, rfl, rfl, rfl, ?_⟩
  intro k hk _
  obtain ⟨hstamp, hset⟩ := not_or.mp (fun h => hk (List.mem_append.mpr h))
  refine (lookup_stamp hstamp).trans ?_
  rw [toRaw_supersededBy { target.parsed.frontmatter with status := .draft },
    Assoc.lookup_set_of_ne _ _ (fun hc => hset (by simp [hc])), toRaw_status,
    Assoc.lookup_set_of_ne _ _ (fun hc => hset (by simp [hc]))]

theorem lookup_positioned {fm : Fields} {agent : String} {ps : List Position} {contested : Bool}
    {confidence : Confidence} (hstamp : k ∉ stampFields) (hpositions : k ≠ "positions")
    (hcontested : k ≠ "contested") (hconfidence : k = "confidence" → confidence = fm.confidence) :
    (stamp s { fm with
      positions := some ps
      contested := some contested
      confidence := confidence } agent).toRaw.lookup k = fm.toRaw.lookup k := by
  rw [lookup_stamp hstamp,
    toRaw_confidence { fm with positions := some ps, contested := some contested }]
  by_cases hk : k = "confidence"
  · rw [hconfidence hk, hk, Assoc.lookup_set_self]
    rfl
  · rw [Assoc.lookup_set_of_ne _ _ hk, toRaw_contested { fm with positions := some ps },
      Assoc.lookup_set_of_ne _ _ hcontested, toRaw_positions,
      Assoc.lookup_set_of_ne _ _ hpositions]

theorem assertChanges_rebuilds {args : AssertArgs}
    (h : assertChanges host s args files = .ok changes) :
    ∃ target c, changes = [c] ∧ Rebuilds host s (.assert args) files target c := by
  obtain ⟨principal, hprincipal, h⟩ := bind_eq_ok h
  obtain ⟨target, hload, h⟩ := bind_eq_ok h
  obtain rfl := Except.ok.inj h
  refine ⟨target, _, rfl, loaded_of_load hload, rfl, rfl, rfl, ?_⟩
  intro k hk _
  unfold changeSet at hk
  simp only [List.mem_append, List.mem_cons, List.not_mem_nil, or_false, not_or] at hk
  obtain ⟨hstamp, ⟨hpositions, hcontested⟩, hlowered⟩ := hk
  refine lookup_positioned hstamp hpositions hcontested ?_
  -- the confidence is kept unless the document is left contested without a stance
  intro hconfidence
  apply if_neg
  intro hc
  apply hlowered
  unfold lowersConfidence
  rw [hprincipal]
  dsimp only
  have hlowers : (assertFrontmatter s args principal target.parsed.frontmatter).contested
      = some true := congrArg some hc.1
  rw [if_pos (by rw [hlowers, hc.2]; rfl), hconfidence]
  exact List.mem_cons_self

/-- **Each of the tools rebuilds the file of the document it loaded.** -/
theorem rebuilds_of_changesOf {call : Call} (hkind : call.reserialises = true)
    (h : changesOf host s call files = .ok changes) :
    ∃ target c, changes = [c] ∧ Rebuilds host s call files target c := by
  match call, hkind, h with
  | .append args, _, h => exact appendChanges_rebuilds h
  | .deprecate args, _, h => exact deprecateChanges_rebuilds h
  | .setConfidence args confidence, _, h => exact setConfidenceChanges_rebuilds h
  | .setTier args tier, _, h => exact setTierChanges_rebuilds h
  | .supersede args, _, h => exact supersedeChanges_rebuilds h
  | .unsupersede args, _, h => exact unsupersedeChanges_rebuilds h
  | .assert args, _, h => exact assertChanges_rebuilds h

/-! ## What is promised -/

/-- A rewritten file that leaves alone what the call did not mean to change: its
    record against the old document's, its body against the given one. -/
def NonDestructive (codec : Codec B) (changed : List String) (doc : ParsedDocument)
    (body : List Char) (file : B) : Prop :=
  ∃ raw content, codec.parse file = .ok (raw, content)
    ∧ (∀ k v, k ∉ changed → doc.raw.lookup k = some v → v ≠ .null →
        ∃ w, raw.lookup k = some w ∧ comesThrough v w = true)
    ∧ (∀ k w, k ∉ changed → missing (doc.raw.lookup k) = true → raw.lookup k = some w →
        w ≠ .null → builtinDefaults.lookup k = some w)
    ∧ content = endLine (startLine body)

def ReadAsIs (changed : List String) (raw : Raw) : Prop :=
  ∀ k v, k ∉ changed → raw.lookup k = some v → v ≠ .null → keeps k v = true

theorem keeps_of_not_builtin (hk : k ∉ builtinFields) (v : Value) : keeps k v = true := by
  unfold keeps
  have hnone : fidelity.lookup k = none := by
    cases hlookup : fidelity.lookup k with
    | none => rfl
    | some f =>
        have hmem := List.mem_map_of_mem (f := Prod.fst) (Assoc.mem_of_lookup hlookup)
        exact absurd hmem hk
  rw [hnone]
  rfl

/-- **A rebuilt file is non-destructive exactly when the old values are read as they
    are.**  The new keys and the body never fail. -/
theorem nonDestructive_rebuilt {call : Call} {target : Target B} {c : Change}
    (h : Rebuilds host s call files target c) :
    NonDestructive host.codec (changeSet host s call target.parsed.frontmatter) target.parsed
        (call.bodyAfter target.parsed.content) (c.fileText host)
      ↔ ReadAsIs (changeSet host s call target.parsed.frontmatter) target.parsed.raw := by
  have hparse := parse_serializeDocument host.codec c.newFrontmatter c.body
    host.config.extensions c.raw
  rw [h.raw, h.body] at hparse
  have hfile : c.fileText host = serializeDocument host.codec c.newFrontmatter
      (call.bodyAfter target.parsed.content) host.config.extensions target.parsed.raw := by
    unfold Change.fileText
    rw [h.raw, h.body]
  have hnodup := h.loaded.nodup
  have hrecord {k : String} (hk : k ∉ changeSet host s call target.parsed.frontmatter)
      (hbuiltin : k ∈ builtinFields) :
      c.newFrontmatter.lookup k = (coerce host.json target.parsed.raw).toRaw.lookup k := by
    rw [h.record k hk hbuiltin, h.loaded.frontmatter]
  rw [hfile]
  constructor
  · rintro ⟨raw, content, hread, hkept, _, _⟩ k v hk hv hnull
    rw [hparse] at hread
    obtain ⟨rfl, rfl⟩ := Prod.mk.inj (Except.ok.inj hread)
    by_cases hbuiltin : k ∈ builtinFields
    · exact (comesThrough_iff host.json host.config.extensions hnodup hbuiltin
        (hrecord hk hbuiltin) hv hnull).mp (hkept k v hk hv hnull)
    · exact keeps_of_not_builtin hbuiltin v
  · intro hcondition
    refine ⟨_, _, hparse, ?_, ?_, rfl⟩
    · intro k v hk hv hnull
      by_cases hbuiltin : k ∈ builtinFields
      · exact (comesThrough_iff host.json host.config.extensions hnodup hbuiltin
          (hrecord hk hbuiltin) hv hnull).mpr (hcondition k v hk hv hnull)
      · exact lookup_further host.config.extensions hnodup hbuiltin hv hnull
    · intro k w hk hmissing hw hnull
      by_cases hbuiltin : k ∈ builtinFields
      · exact lookup_fresh host.json host.config.extensions hnodup hbuiltin
          (hrecord hk hbuiltin) hmissing hw hnull
      · rw [lookup_further_missing host.config.extensions hnodup hbuiltin hmissing] at hw
        cases hw

/-- **A LIFECYCLE WRITE IS NON-DESTRUCTIVE EXACTLY WHEN** every built-in value it
    does not mean to change is one the validator reads as it is: whatever document it
    loaded, whatever files it lands on. -/
theorem nonDestructive_iff {call : Call} (hkind : call.reserialises = true)
    (h : attempt host s call files docs = .ok (.write plan)) :
    ∃ target text, Loaded host files call.path target
      ∧ (∀ now files', land host plan now = .ok files' → files'.lookup target.relPath = some text)
      ∧ (NonDestructive host.codec (changeSet host s call target.parsed.frontmatter)
            target.parsed (call.bodyAfter target.parsed.content) text
          ↔ ReadAsIs (changeSet host s call target.parsed.frontmatter)
              target.parsed.raw) := by
  obtain ⟨changes, hchanges, hwrites⟩ := attempt_changesOf h
  obtain ⟨target, c, rfl, hrebuilds⟩ := rebuilds_of_changesOf hkind hchanges
  refine ⟨target, c.fileText host, hrebuilds.loaded, ?_, nonDestructive_rebuilt hrebuilds⟩
  intro now files' hland
  rw [(land_eq_ok host hland).2, hwrites]
  unfold writesOf
  rw [List.map_singleton, hrebuilds.relPath]
  exact Assoc.lookup_set_self _ _ _

end Changes

/-! ## A list of tags written as one text -/

def taggedVault (tags : Value) : Files PlainFile :=
  [("note.md", plainNote [("tags", tags)] "Prices rose.")]

def lowerConfidence : Call := .setConfidence
  { path := "note.md", agent := "human:ann", reason := "one source only", baseVersion := none
    runId := none } .low

/-- **A WELL FORMED NOTE COMES THROUGH** a change of its confidence. -/
theorem setConfidence_keeps_tags :
    ∃ plan, ∃ target : Target PlainFile, ∃ text,
      attempt (plainHost plainConfig) (operatorSetting "2026-02-01") lowerConfidence
          (taggedVault (texts ["pricing"])) [] = .ok (.write plan)
      ∧ (∀ now files', land (plainHost plainConfig) plan now = .ok files' →
          files'.lookup target.relPath = some text)
      ∧ NonDestructive plainCodec ["updated", "updated_by", "confidence"] target.parsed
          target.parsed.content text := by
  have hwrites : (planOf (attempt (plainHost plainConfig) (operatorSetting "2026-02-01")
      lowerConfidence (taggedVault (texts ["pricing"])) [])).isSome = true := by
    decide +kernel
  obtain ⟨plan, hplan⟩ := Option.isSome_iff_exists.mp hwrites
  have hattempt := planOf_eq_some hplan
  obtain ⟨target, text, hloaded, hlands, hiff⟩ := nonDestructive_iff rfl hattempt
  refine ⟨plan, target, text, hattempt, hlands, hiff.mpr ?_⟩
  intro k v _ hv _
  have hpath : "note.md" = target.relPath := Except.ok.inj hloaded.resolve
  have hfile := hloaded.file
  rw [← hpath] at hfile
  have hraw : target.text.data = target.parsed.raw :=
    (Prod.mk.inj (Except.ok.inj hloaded.parse)).1
  rw [← hraw, ← Option.some.inj hfile] at hv
  have hall : ∀ e ∈ (plainNote [("tags", texts ["pricing"])] "Prices rose.").data,
      keeps e.1 e.2 = true := by
    decide +kernel
  exact hall (k, v) (Assoc.mem_of_lookup hv)

/-- **TAGS WRITTEN AS ONE TEXT ARE GONE** after a change of confidence. -/
theorem setConfidence_rewrites_tags :
    ∃ files' doc text, landed (plainHost plainConfig) (operatorSetting "2026-02-01")
        lowerConfidence (taggedVault (.str "pricing")) = some files'
      ∧ parseDocument plainCodec (plainHost plainConfig).json
          (plainNote [("tags", .str "pricing")] "Prices rose.") = .ok doc
      ∧ files'.lookup "note.md" = some text
      ∧ ¬ NonDestructive plainCodec ["updated", "updated_by", "confidence"] doc
          doc.content text := by
  have hgone : ((landed (plainHost plainConfig) (operatorSetting "2026-02-01") lowerConfidence
      (taggedVault (.str "pricing"))).bind fun files' => files'.lookup "note.md").map
        (fun file => file.data.lookup "tags") = some (some (.arr [])) := by
    decide +kernel
  obtain ⟨text, hbind, htags⟩ := Option.map_eq_some_iff.mp hgone
  obtain ⟨files', hlanded, hfile⟩ := Option.bind_eq_some_iff.mp hbind
  refine ⟨files', _, text, hlanded, rfl, hfile, ?_⟩
  rintro ⟨raw, content, hread, hkept, _, _⟩
  obtain ⟨rfl, rfl⟩ := Prod.mk.inj (Except.ok.inj hread)
  obtain ⟨w, hw, hcome⟩ := hkept "tags" (.str "pricing") (by decide) rfl (by simp)
  rw [htags] at hw
  obtain rfl := Option.some.inj hw
  cases hcome

end Write
