import Daftari.Consolidate.SessionProofs
import Daftari.Tools.UpdateRecordsProofs

/-! # Recording a reader — a read, the write tool's load, a landing

    The lineage appender reads a document and hands the whole of it back to `vault_write`, with one
    more lineage entry.  The write loads the document once more, merges what it was handed over it,
    and declares no version, so nothing asks whether the document is still what was read.

    * `LineageSystem`, `lineageSystem`: recordings in flight, and other writers landing on the same
      files in between;
    * `recording_erases_nothing`: **in every run whose recordings find their document current, none
      reverts what another writer landed**. -/

namespace Consolidate

open Frontmatter
open Write (readerLists readerScalarFields stampFields HandsOn)

variable {B : Type}

/-! ## The system -/

structure InFlight (B : Type) where
  path : String
  entry : String
  doc : VaultRead
  loaded : Option (Write.Files B)

structure RecordedReader (B : Type) where
  entry : String
  doc : VaultRead
  found : Option B
  left : Option B

structure LineageSystem (B : Type) where
  files : Write.Files B
  inFlight : Nat → Option (InFlight B)
  recorded : List (RecordedReader B)

def LineageSystem.quiet (files : Write.Files B) : LineageSystem B where
  files := files
  inFlight _ := none
  recorded := []

inductive LineageAction (B : Type) where
  /-- A recording begins with its read. -/
  | read (id : Nat) (path entry : String)
  /-- Its write loads the document it is to update. -/
  | load (id : Nat)
  /-- Its write composes what it loaded and was handed, and lands. -/
  | land (id : Nat) (s : Write.Setting)
  /-- Another writer's text for a file lands. -/
  | others (path : String) (text : B)

def LineageSystem.put (sys : LineageSystem B) (id : Nat) (p : Option (InFlight B)) :
    LineageSystem B :=
  { sys with inFlight := Function.update sys.inFlight id p }

def recordingLands (host : Write.Host B) (s : Write.Setting) (p : InFlight B)
    (loaded files : Write.Files B) : Option (Write.Files B) :=
  (Write.planOf (Write.vaultWrite host { s with access := none }
    (lineageWrite p.path p.entry p.doc) loaded)).bind fun plan =>
      (Write.land host plan files).toOption

def LineageSystem.land (host : Write.Host B) (sys : LineageSystem B) (id : Nat)
    (s : Write.Setting) (p : InFlight B) (loaded : Write.Files B) : LineageSystem B :=
  match recordingLands host s p loaded sys.files with
  | none => sys.put id none
  | some files =>
      { files := files
        inFlight := Function.update sys.inFlight id none
        recorded := sys.recorded ++ [⟨p.entry, p.doc, sys.files.lookup p.doc.relPath,
          files.lookup p.doc.relPath⟩] }

def LineageSystem.next (host : Write.Host B) (sys : LineageSystem B) :
    LineageAction B → LineageSystem B
  | .read id path entry =>
      match vaultRead host path sys.files with
      | .error _ => sys
      | .ok doc => sys.put id (some ⟨path, entry, doc, none⟩)
  | .load id =>
      sys.put id ((sys.inFlight id).map fun p => { p with loaded := some sys.files })
  | .land id s =>
      match sys.inFlight id with
      | some p => (p.loaded.map (sys.land host id s p)).getD sys
      | none => sys
  | .others path text => { sys with files := Assoc.set sys.files path text }

/-- Every interleaving of recordings with other writers. -/
def lineageSystem (host : Write.Host B) : Machine (LineageSystem B) (LineageAction B) where
  enabled sys
    | .read id _ _ => (sys.inFlight id).isNone = true
    | .load id => (sys.inFlight id).any (fun p => p.loaded.isNone) = true
    | .land id _ => (sys.inFlight id).any (fun p => p.loaded.isSome) = true
    | .others _ _ => True
  next sys a := sys.next host a

instance (host : Write.Host B) (sys : LineageSystem B) (a : LineageAction B) :
    Decidable ((lineageSystem host).enabled sys a) :=
  match a with
  | .read id _ _ => inferInstanceAs (Decidable ((sys.inFlight id).isNone = true))
  | .load id =>
      inferInstanceAs (Decidable ((sys.inFlight id).any (fun p => p.loaded.isNone) = true))
  | .land id _ =>
      inferInstanceAs (Decidable ((sys.inFlight id).any (fun p => p.loaded.isSome) = true))
  | .others _ _ => isTrue trivial

section Steps

variable {host : Write.Host B} {sys : LineageSystem B} {path entry : String} {id : Nat}

theorem next_read_error {e : String} (h : vaultRead host path sys.files = .error e) :
    sys.next host (.read id path entry) = sys := by
  unfold LineageSystem.next
  dsimp only
  rw [h]

theorem next_read_ok {doc : VaultRead} (h : vaultRead host path sys.files = .ok doc) :
    sys.next host (.read id path entry) = sys.put id (some ⟨path, entry, doc, none⟩) := by
  unfold LineageSystem.next
  dsimp only
  rw [h]

end Steps

/-! ## What a landing has to leave -/

/-- The value a recording's write has for a field: the one it was handed, a null taking
    the field away, or else the one it loaded.  The creation date stays as loaded. -/
def restated (read loaded : Raw) (k : String) : Option Value :=
  if k = "created" then loaded.lookup k
  else if (read.lookup k).isNone then loaded.lookup k
  else (read.lookup k).filter fun v => !missing (some v)

/-- **The document is current** for a recording: it has the body that was read, each
    field as it was read or as the recording restates it, the reader lists that were
    loaded, and among its readers all that were read. -/
structure Current (doc : VaultRead) (loaded found : Raw × List Char) : Prop where
  body : normBody found.2 = normBody doc.content
  fields : ∀ k ∈ Assoc.keys found.1 ++ Assoc.keys doc.raw, k ∉ readerLists ++ stampFields →
    found.1.lookup k = doc.raw.lookup k ∨ found.1.lookup k = restated doc.raw loaded.1 k
  lists : ∀ k ∈ readerLists, found.1.lookup k = loaded.1.lookup k
  readers : ∀ r ∈ stringsIn (doc.raw.lookup "readers"),
    r ∈ stringsIn (found.1.lookup "readers")
  named : doc.raw.lookup "readers" = some .null → stringsIn (found.1.lookup "readers") = []

instance (doc : VaultRead) (loaded found : Raw × List Char) :
    Decidable (Current doc loaded found) :=
  decidable_of_iff
    (normBody found.2 = normBody doc.content
      ∧ (∀ k ∈ Assoc.keys found.1 ++ Assoc.keys doc.raw, k ∉ readerLists ++ stampFields →
        found.1.lookup k = doc.raw.lookup k ∨ found.1.lookup k = restated doc.raw loaded.1 k)
      ∧ (∀ k ∈ readerLists, found.1.lookup k = loaded.1.lookup k)
      ∧ (∀ r ∈ stringsIn (doc.raw.lookup "readers"), r ∈ stringsIn (found.1.lookup "readers"))
      ∧ (doc.raw.lookup "readers" = some .null → stringsIn (found.1.lookup "readers") = []))
    ⟨fun ⟨body, fields, lists, readers, named⟩ => ⟨body, fields, lists, readers, named⟩,
      fun h => ⟨h.body, h.fields, h.lists, h.readers, h.named⟩⟩

/-- **A landing keeps what it found**, `found`, in what it left, `left`, where that is
    not what its recording had read. -/
structure Keeps (host : Write.Host B) (entry : String) (read : Raw)
    (found left : Raw × List Char) : Prop where
  body : normBody left.2 = normBody found.2
  /-- A field another writer changed is written as it was found; one that claims a
      single reader may be dropped. -/
  field : ∀ k ∉ readerLists ++ stampFields, HandsOn host.config k →
    found.1.lookup k ≠ read.lookup k →
    left.1.lookup k = (Write.written host found.1).lookup k
      ∨ k ∈ readerScalarFields ∧ left.1.lookup k = (Write.written host []).lookup k
  /-- No reader and no lineage entry goes. -/
  listed : ∀ k ∈ readerLists, HandsOn host.config k →
    ∀ r ∈ stringsIn (found.1.lookup k), r ∈ stringsIn (left.1.lookup k)
  /-- A reader that was taken out stays out. -/
  readers : HandsOn host.config "readers" → ∀ r ∈ stringsIn (read.lookup "readers"),
    r ∉ stringsIn (found.1.lookup "readers") → r ∉ stringsIn (left.1.lookup "readers")
  /-- To a lineage nothing is added but the entry. -/
  lineage : HandsOn host.config "reader_lineage" →
    stringsIn (found.1.lookup "reader_lineage") ≠ [] →
    ∀ e ∈ stringsIn (left.1.lookup "reader_lineage"),
      e ∈ stringsIn (found.1.lookup "reader_lineage") ∨ e = entry

def versionOf (host : Write.Host B) (file : Option B) : Option (Raw × List Char) :=
  file.bind fun text => (host.codec.parse text).toOption

/-- **A landed recording erases nothing**: what it found can be read, and is kept. -/
def ErasesNothing (host : Write.Host B) (ρ : RecordedReader B) : Prop :=
  ∃ found left, versionOf host ρ.found = some found ∧ versionOf host ρ.left = some left
    ∧ Keeps host ρ.entry ρ.doc.raw found left

/-! ## What a recording's write composes -/

section Composed

variable {host : Write.Host B} {s : Write.Setting} {path entry now : String}
  {doc : VaultRead} {oldRaw : Raw}

/-- What a recording hands to the write tool. -/
abbrev handed (entry : String) (doc : VaultRead) : Raw :=
  Assoc.set doc.raw "reader_lineage" (texts [entry])

theorem lookup_handed_lineage (entry : String) (doc : VaultRead) :
    (handed entry doc).lookup "reader_lineage" = some (.arr [.str entry]) :=
  Assoc.lookup_set_self _ _ _

variable {k : String}

theorem lookup_handed (hk : k ≠ "reader_lineage") :
    (handed entry doc).lookup k = doc.raw.lookup k :=
  Assoc.lookup_set_of_ne _ _ hk

theorem lookup_overlay_handed (hk : k ∉ readerLists) (hcreated : k ≠ "created") :
    (Write.overlay readerLists oldRaw (handed entry doc)).lookup k
      = restated doc.raw oldRaw k := by
  have hlineage : k ≠ "reader_lineage" := fun h => hk (h ▸ by decide)
  rw [Write.lookup_overlay _ _ (Assoc.nodup_set _ _ doc.nodup), lookup_handed hlineage]
  unfold restated
  rw [if_neg hcreated]
  cases doc.raw.lookup k with
  | none => rfl
  | some v =>
      dsimp only
      rw [if_neg hk, if_neg (show ¬ (some v).isNone = true from Bool.false_ne_true),
        Option.filter_some]
      cases missing (some v) <;> rfl

theorem lookup_overlay_lists (hk : k ∈ readerLists)
    (hnamed : k = "readers" → doc.raw.lookup "readers" ≠ some .null) :
    (Write.overlay readerLists oldRaw (handed entry doc)).lookup k = oldRaw.lookup k := by
  rw [Write.lookup_overlay _ _ (Assoc.nodup_set _ _ doc.nodup)]
  by_cases hlineage : k = "reader_lineage"
  · subst hlineage
    rw [lookup_handed_lineage]
    rfl
  · have hreaders : k = "readers" := by
      unfold readerLists at hk
      simpa [hlineage] using hk
    subst hreaders
    rw [lookup_handed hlineage]
    cases hv : doc.raw.lookup "readers" with
    | none => rfl
    | some v =>
        cases v with
        | null => exact absurd hv (hnamed rfl)
        | _ => rfl

theorem mergeUnder_handed (now : String) (oldRaw : Raw) :
    Write.mergeUnder now oldRaw (handed entry doc)
      = if doc.raw.lookup "readers" = some .null then
          Write.overlay readerLists oldRaw (handed entry doc)
        else Write.fuseReaders now (handed entry doc)
          (Write.overlay readerLists oldRaw (handed entry doc)) := by
  have hlineage : Write.nulled (handed entry doc) "reader_lineage" = false := by
    unfold Write.nulled
    rw [lookup_handed_lineage]
  have hreaders : (Write.nulled (handed entry doc) "readers" = true)
      ↔ doc.raw.lookup "readers" = some .null := by
    unfold Write.nulled
    rw [lookup_handed (by decide)]
    cases doc.raw.lookup "readers" with
    | none => simp
    | some v => cases v <;> simp
  unfold Write.mergeUnder
  rw [hlineage]
  by_cases hnull : doc.raw.lookup "readers" = some .null
  · rw [if_pos hnull, if_pos (Or.inl (hreaders.mpr hnull))]
    rfl
  · rw [if_neg hnull, if_neg (by simp [hreaders, hnull])]
    rfl

theorem readers_of_merge {r : String} (hnamed : doc.raw.lookup "readers" ≠ some .null)
    (h : r ∈ stringsIn (oldRaw.lookup "readers")) :
    r ∈ stringsIn ((Write.mergeUnder now oldRaw (handed entry doc)).lookup "readers") := by
  rw [mergeUnder_handed, if_neg hnamed]
  apply Write.mem_fuseReaders
  rw [lookup_overlay_lists (by decide) fun _ => hnamed]
  exact h

theorem lineage_of_merge (now : String) (entry : String) (doc : VaultRead)
    (h : stringsIn (oldRaw.lookup "reader_lineage") ≠ []) :
    let merged := (Write.mergeUnder now oldRaw (handed entry doc)).lookup "reader_lineage"
    (∀ e ∈ stringsIn (oldRaw.lookup "reader_lineage"), e ∈ stringsIn merged)
      ∧ ∀ e ∈ stringsIn merged, e ∈ stringsIn (oldRaw.lookup "reader_lineage") ∨ e = entry := by
  have hlist : (Write.overlay readerLists oldRaw (handed entry doc)).lookup "reader_lineage"
      = oldRaw.lookup "reader_lineage" :=
    lookup_overlay_lists (by decide) fun hne => absurd hne (by decide)
  intro merged
  by_cases hnull : doc.raw.lookup "readers" = some .null
  · have hmerged : merged = oldRaw.lookup "reader_lineage" := by
      show (Write.mergeUnder now oldRaw (handed entry doc)).lookup "reader_lineage" = _
      rw [mergeUnder_handed, if_pos hnull, hlist]
    rw [hmerged]
    exact ⟨fun e he => he, fun e he => Or.inl he⟩
  · have hexisting : Write.existingLineage now
        (Write.overlay readerLists oldRaw (handed entry doc))
          = stringsIn (oldRaw.lookup "reader_lineage") := by
      rw [Write.existingLineage_of_ne (by rw [hlist]; exact h), hlist]
    have hmerged : merged = some (texts (Write.unionLineage
        (stringsIn (oldRaw.lookup "reader_lineage")) [entry])) := by
      show (Write.mergeUnder now oldRaw (handed entry doc)).lookup "reader_lineage" = _
      rw [mergeUnder_handed, if_neg hnull,
        Write.lineage_fuseReaders now (lookup_handed_lineage entry doc), hexisting]
      rfl
    rw [hmerged, stringsIn_texts]
    refine ⟨fun e he => Write.mem_unionLineage_left he, ?_⟩
    intro e he
    rcases Write.mem_unionLineage he with he | he
    · exact Or.inl he
    · exact Or.inr (List.mem_singleton.mp he)

theorem stringsIn_writtenUpdate {a : Write.WriteArgs} {d : ParsedDocument}
    (hd : (Assoc.keys d.raw).Nodup) (hk : k ∈ readerLists) (hhooks : HandsOn host.config k)
    (h : stringsIn ((Write.mergedRecord s a (some d)).lookup k) ≠ []) :
    stringsIn ((Write.writtenUpdate host s a d).lookup k)
      = stringsIn ((Write.mergedRecord s a (some d)).lookup k) := by
  have hbuiltin : k ∉ builtinFields := by
    rcases List.mem_cons.mp hk with rfl | hk
    · decide
    · rw [List.mem_singleton.mp hk]
      decide
  cases hv : (Write.mergedRecord s a (some d)).lookup k with
  | none => exact absurd (by rw [hv]; rfl) h
  | some v =>
      cases v with
      | arr items => rw [Write.writtenUpdate_list hd hbuiltin hhooks hv]
      | _ => exact absurd (by rw [hv]; rfl) h

/-- **A recording that finds its document current keeps it.** -/
theorem keeps_of_current {d : ParsedDocument} {found : Raw × List Char}
    (hd : (Assoc.keys d.raw).Nodup) (hfm : d.frontmatter = coerce host.json d.raw)
    (hfound : (Assoc.keys found.1).Nodup) (h : Current doc (d.raw, d.content) found) :
    Keeps host entry doc.raw found
      (Write.writtenUpdate host s (lineageWrite path entry doc) d,
        endLine (startLine doc.content)) where
  body := (normBody_written _).trans h.body.symm
  field := by
    intro k hk hhooks hchanged
    have hlists : k ∉ readerLists := fun hmem => hk (List.mem_append_left _ hmem)
    have hstamps : k ∉ stampFields := fun hmem => hk (List.mem_append_right _ hmem)
    have hrestated : found.1.lookup k = restated doc.raw d.raw k := by
      refine (h.fields k ?_ hk).resolve_left hchanged
      by_contra hnot
      rw [List.mem_append, not_or] at hnot
      exact hchanged ((Assoc.lookup_of_not_mem hnot.1).trans (Assoc.lookup_of_not_mem hnot.2).symm)
    by_cases hcreated : k = "created"
    · subst hcreated
      left
      rw [Write.writtenUpdate_created, hfm]
      refine (Write.written_created ?_).symm
      rw [hrestated]
      rfl
    · rcases Write.lookup_mergeUnder s.now d.raw (handed entry doc) hlists with
        hmerged | ⟨hscalar, hmerged⟩
      · left
        refine Write.writtenUpdate_lookup hd hfound hhooks hcreated hstamps ?_
        show (Write.mergeUnder s.now d.raw (handed entry doc)).lookup k = _
        rw [hmerged, lookup_overlay_handed hlists hcreated, hrestated]
      · refine Or.inr ⟨hscalar, ?_⟩
        exact Write.writtenUpdate_lookup hd List.nodup_nil hhooks hcreated hstamps hmerged
  listed := by
    intro k hk hhooks r hr
    have hmerged : r ∈ stringsIn
        ((Write.mergeUnder s.now d.raw (handed entry doc)).lookup k) := by
      have hloaded : r ∈ stringsIn (d.raw.lookup k) := by
        rw [← h.lists k hk]
        exact hr
      by_cases hlineage : k = "reader_lineage"
      · subst hlineage
        exact (lineage_of_merge s.now entry doc (List.ne_nil_of_mem hloaded)).1 r hloaded
      · have hreaders : k = "readers" := by
          unfold readerLists at hk
          simpa [hlineage] using hk
        subst hreaders
        refine readers_of_merge ?_ hloaded
        intro hnull
        rw [h.named hnull] at hr
        cases hr
    show r ∈ stringsIn ((Write.writtenUpdate host s (lineageWrite path entry doc) d).lookup k)
    rw [stringsIn_writtenUpdate hd hk hhooks (List.ne_nil_of_mem hmerged)]
    exact hmerged
  readers := by
    intro _ r hr hout
    exact absurd (h.readers r hr) hout
  lineage := by
    intro hhooks hne e he
    have hloaded : stringsIn (d.raw.lookup "reader_lineage") ≠ [] := by
      rw [← h.lists _ (by decide)]
      exact hne
    obtain ⟨hkept, hadded⟩ := lineage_of_merge s.now entry doc hloaded
    have hmerged : stringsIn ((Write.mergeUnder s.now d.raw (handed entry doc)).lookup
        "reader_lineage") ≠ [] := by
      obtain ⟨e', he'⟩ := List.exists_mem_of_ne_nil _ hloaded
      exact List.ne_nil_of_mem (hkept e' he')
    have hwritten := stringsIn_writtenUpdate (s := s) (a := lineageWrite path entry doc) hd
      (by decide) hhooks hmerged
    rw [h.lists _ (by decide)]
    exact hadded e (hwritten ▸ he)

end Composed

/-! ## Runs -/

section Runs

variable {host : Write.Host B} {sys : LineageSystem B}

/-- A recording's landing finds its document current: against what the recording read
    and what its write loaded. -/
def FindsCurrent (host : Write.Host B) (sys : LineageSystem B) (a : LineageAction B) : Prop :=
  match a with
  | .land id _ => ∀ p ∈ sys.inFlight id, ∀ files ∈ p.loaded,
      ∀ loaded ∈ versionOf host (files.lookup p.doc.relPath),
        ∃ found ∈ versionOf host (sys.files.lookup p.doc.relPath), Current p.doc loaded found
  | _ => True

instance (host : Write.Host B) (sys : LineageSystem B) (a : LineageAction B) :
    Decidable (FindsCurrent host sys a) :=
  match a with
  | .land id _ => inferInstanceAs (Decidable (∀ p ∈ sys.inFlight id, ∀ files ∈ p.loaded,
      ∀ loaded ∈ versionOf host (files.lookup p.doc.relPath),
        ∃ found ∈ versionOf host (sys.files.lookup p.doc.relPath), Current p.doc loaded found))
  | .read .. | .load .. | .others .. => isTrue trivial

structure Names (host : Write.Host B) (files : Write.Files B) (p : InFlight B) : Prop where
  resolve : host.resolve p.path = .ok p.doc.relPath
  there : (files.lookup p.doc.relPath).isSome = true
  loaded : ∀ loaded ∈ p.loaded, (loaded.lookup p.doc.relPath).isSome = true

/-- What every run keeps. -/
structure Recording (host : Write.Host B) (sys : LineageSystem B) : Prop where
  names : ∀ id p, sys.inFlight id = some p → Names host sys.files p
  erases : ∀ ρ ∈ sys.recorded, ErasesNothing host ρ

theorem nodup_of_versionOf {file : Option B} {version : Raw × List Char}
    (h : versionOf host file = some version) : (Assoc.keys version.1).Nodup := by
  obtain ⟨text, _, htext⟩ := Option.bind_eq_some_iff.mp h
  cases hparse : host.codec.parse text with
  | error e =>
      rw [hparse] at htext
      cases htext
  | ok parsed =>
      rw [hparse] at htext
      obtain rfl := Option.some.inj htext
      exact host.codec.nodup_parse _ _ _ hparse

theorem names_of_read {path entry : String} {doc : VaultRead} {files : Write.Files B}
    (h : vaultRead host path files = .ok doc) : Names host files ⟨path, entry, doc, none⟩ := by
  unfold vaultRead at h
  split at h
  · cases h
  cases hresolve : host.resolve path with
  | error e =>
      rw [hresolve] at h
      cases h
  | ok relPath =>
      rw [hresolve] at h
      dsimp only at h
      cases hfile : files.lookup relPath with
      | none =>
          rw [hfile] at h
          cases h
      | some text =>
          rw [hfile] at h
          dsimp only at h
          split at h
          · cases h
          · obtain rfl := Except.ok.inj h
            refine ⟨hresolve, ?_, by rintro _ ⟨⟩⟩
            show (files.lookup relPath).isSome = true
            rw [hfile]
            rfl

theorem Names.set {files : Write.Files B} {p : InFlight B} (h : Names host files p)
    (path : String) (text : B) : Names host (Assoc.set files path text) p := by
  refine ⟨h.resolve, ?_, h.loaded⟩
  by_cases hpath : p.doc.relPath = path
  · rw [hpath, Assoc.lookup_set_self]
    rfl
  · rw [Assoc.lookup_set_of_ne _ _ hpath]
    exact h.there

theorem Recording.put (h : Recording host sys) (id : Nat) {p : Option (InFlight B)}
    (hp : ∀ q ∈ p, Names host sys.files q) : Recording host (sys.put id p) := by
  refine ⟨?_, h.erases⟩
  intro j q hq
  have hq' : Function.update sys.inFlight id p j = some q := hq
  by_cases hj : j = id
  · subst hj
    rw [Function.update_self] at hq'
    exact hp q hq'
  · rw [Function.update_of_ne hj] at hq'
    exact h.names j q hq'

/-- **What a landing writes**: the document it loaded, updated with what it was handed. -/
theorem lands_update {s : Write.Setting} {p : InFlight B} {loaded files files' : Write.Files B}
    (h : recordingLands host s p loaded files = some files')
    (hresolve : host.resolve p.path = .ok p.doc.relPath) {old : B}
    (hold : loaded.lookup p.doc.relPath = some old) :
    ∃ d text, host.codec.parse old = .ok (d.raw, d.content)
      ∧ d.frontmatter = coerce host.json d.raw
      ∧ files' = Assoc.set files p.doc.relPath text
      ∧ host.codec.parse text = .ok
        (Write.writtenUpdate host { s with access := none }
          (lineageWrite p.path p.entry p.doc) d, endLine (startLine p.doc.content)) := by
  obtain ⟨plan, hplan, hland⟩ := Option.bind_eq_some_iff.mp h
  obtain ⟨d, text, hparse, hfm, _, hwrites, htext⟩ :=
    Write.vaultWrite_block (Write.planOf_eq_some hplan) hresolve hold
  refine ⟨d, text, hparse, hfm, ?_, htext⟩
  cases hl : Write.land host plan files with
  | error e =>
      rw [hl] at hland
      cases hland
  | ok files'' =>
      rw [hl] at hland
      obtain rfl := Option.some.inj hland
      rw [(Write.land_eq_ok host hl).2, hwrites]
      rfl

theorem Recording.land (h : Recording host sys) {id : Nat} {s : Write.Setting}
    {p : InFlight B} {loaded : Write.Files B} (hp : sys.inFlight id = some p)
    (hloaded : p.loaded = some loaded) (hcurrent : FindsCurrent host sys (.land id s)) :
    Recording host (sys.land host id s p loaded) := by
  have hnames := h.names id p hp
  obtain ⟨old, hold⟩ := Option.isSome_iff_exists.mp (hnames.loaded loaded hloaded)
  unfold LineageSystem.land
  cases hlands : recordingLands host s p loaded sys.files with
  | none => exact h.put _ (by rintro _ ⟨⟩)
  | some files =>
      obtain ⟨d, text, hparse, hfm, rfl, htext⟩ := lands_update hlands hnames.resolve hold
      have hversion : versionOf host (loaded.lookup p.doc.relPath)
          = some (d.raw, d.content) := by
        unfold versionOf
        rw [hold, Option.bind_some, hparse]
        rfl
      obtain ⟨found, hfound, hcur⟩ := hcurrent p hp loaded hloaded _ hversion
      have hleft : versionOf host ((Assoc.set sys.files p.doc.relPath text).lookup
          p.doc.relPath) = some (Write.writtenUpdate host { s with access := none }
            (lineageWrite p.path p.entry p.doc) d, endLine (startLine p.doc.content)) := by
        unfold versionOf
        rw [Assoc.lookup_set_self, Option.bind_some, htext]
        rfl
      refine ⟨?_, ?_⟩
      · intro j q hq
        have hmoved := (h.put id (p := none) (by rintro _ ⟨⟩)).names j q hq
        exact hmoved.set _ _
      · intro ρ hρ
        rcases List.mem_append.mp hρ with hρ | hρ
        · exact h.erases ρ hρ
        · rw [List.mem_singleton.mp hρ]
          exact ⟨found, _, hfound, hleft, keeps_of_current
            (host.codec.nodup_parse _ _ _ hparse) hfm (nodup_of_versionOf hfound) hcur⟩

/-- **The step lemma.** -/
theorem Recording.step (h : Recording host sys) {a : LineageAction B}
    (hcurrent : FindsCurrent host sys a) : Recording host ((lineageSystem host).next sys a) := by
  cases a with
  | read id path entry =>
      cases hread : vaultRead host path sys.files with
      | error e =>
          show Recording host (sys.next host (.read id path entry))
          rw [next_read_error hread]
          exact h
      | ok doc =>
          show Recording host (sys.next host (.read id path entry))
          rw [next_read_ok hread]
          refine h.put _ ?_
          rintro q hq
          obtain rfl := Option.some.inj hq
          exact names_of_read hread
  | load id =>
      refine h.put _ ?_
      intro q hq
      obtain ⟨p, hp, rfl⟩ := Option.map_eq_some_iff.mp hq
      have hnames := h.names id p hp
      refine ⟨hnames.resolve, hnames.there, ?_⟩
      intro loaded hloaded
      obtain rfl := Option.some.inj hloaded
      exact hnames.there
  | land id s =>
      show Recording host (sys.next host (.land id s))
      unfold LineageSystem.next
      dsimp only
      cases hp : sys.inFlight id with
      | none => exact h
      | some p =>
          dsimp only
          cases hloaded : p.loaded with
          | none => exact h
          | some loaded => exact h.land hp hloaded hcurrent
  | others path text =>
      refine ⟨?_, h.erases⟩
      intro id p hp
      exact (h.names id p hp).set path text

/-- **RECORDING A READER ERASES NOTHING** that another writer landed between its read
    and its write, in every run whose recordings find their document current. -/
theorem recording_erases_nothing {files : Write.Files B}
    (h : ((lineageSystem host).restrict (FindsCurrent host)).Reach
      (LineageSystem.quiet files) sys) :
    ∀ ρ ∈ sys.recorded, ErasesNothing host ρ := by
  have hstart : Recording host (LineageSystem.quiet files) := by
    refine ⟨?_, ?_⟩
    · intro id p hp
      cases hp
    · intro ρ hρ
      cases hρ
  refine (Machine.reach_invariant (I := Recording host) ?_ hstart h).erases
  rintro sys a hrecording ⟨_, hcurrent⟩
  exact hrecording.step hcurrent

end Runs

/-! ## A field added in between, and a section -/

def noteAlone : Write.Files PlainFile := [("note.md", Write.plainNote [] "Old.")]

def plainRecordings : Machine (LineageSystem PlainFile) (LineageAction PlainFile) :=
  lineageSystem (Write.plainHost Write.plainConfig)

instance (sys : LineageSystem PlainFile) (a : LineageAction PlainFile) :
    Decidable (plainRecordings.enabled sys a) :=
  inferInstanceAs (Decidable ((lineageSystem _).enabled sys a))

def noteWithSection : Option PlainFile :=
  (Write.landed (Write.plainHost Write.plainConfig) (Write.operatorSetting "2026-02-01")
    (.append { path := "note.md", agent := "agent:bot", sectionText := "More.".toList
               baseVersion := none, runId := none }) noteAlone).bind (List.lookup "note.md")

/-- **An owner that is added in between stays.** -/
theorem added_field_stays :
    ∃ sys, (plainRecordings.restrict (FindsCurrent (Write.plainHost Write.plainConfig))).Reach
        (LineageSystem.quiet noteAlone) sys
      ∧ (∃ ρ ∈ sys.recorded, ρ.doc.raw.lookup "owner" = none
        ∧ (ρ.left.bind fun file => file.data.lookup "owner") = some (.str "ann"))
      ∧ ∀ ρ ∈ sys.recorded, ErasesNothing (Write.plainHost Write.plainConfig) ρ := by
  have hrun : ((plainRecordings.restrict
      (FindsCurrent (Write.plainHost Write.plainConfig))).runs (LineageSystem.quiet noteAlone)
      [.read 1 "note.md" "2026-02-01T00:00:00Z|revise|model-a",
        .others "note.md" (Write.plainNote [("owner", .str "ann")] "Old."), .load 1,
        .land 1 (Write.operatorSetting "2026-02-01")]).any
      (fun sys => decide (∃ ρ ∈ sys.recorded, ρ.doc.raw.lookup "owner" = none
        ∧ (ρ.left.bind fun file => file.data.lookup "owner") = some (.str "ann"))) = true := by
    decide +kernel
  obtain ⟨sys, hreach, hadded⟩ := Machine.reach_of_runs_any hrun
  exact ⟨sys, hreach, of_decide_eq_true hadded, recording_erases_nothing hreach⟩

/-- **A SECTION APPENDED IN BETWEEN IS ERASED**: the body that was read comes back. -/
theorem appended_section_erased :
    ∃ file ∈ noteWithSection, ∃ sys, plainRecordings.Reach (LineageSystem.quiet noteAlone) sys
      ∧ ∃ ρ ∈ sys.recorded, ρ.found = some file
        ∧ normBody file.content = "Old.\n\nMore.".toList
        ∧ ρ.left.map (fun file => normBody file.content) = some "Old.".toList
        ∧ ¬ ErasesNothing (Write.plainHost Write.plainConfig) ρ := by
  have hrun : ∃ file ∈ noteWithSection, (plainRecordings.runs (LineageSystem.quiet noteAlone)
      [.read 1 "note.md" "2026-02-01T00:00:00Z|revise|model-a", .others "note.md" file,
        .load 1, .land 1 (Write.operatorSetting "2026-02-01")]).any
      (fun sys => decide (∃ ρ ∈ sys.recorded, ρ.found = some file
        ∧ normBody file.content = "Old.\n\nMore.".toList
        ∧ ρ.left.map (fun file => normBody file.content) = some "Old.".toList)) = true := by
    decide +kernel
  obtain ⟨file, hfile, hrun⟩ := hrun
  obtain ⟨sys, hreach, hend⟩ := Machine.reach_of_runs_any hrun
  obtain ⟨ρ, hρ, hfound, hgrown, hleft⟩ := of_decide_eq_true hend
  refine ⟨file, hfile, sys, hreach, ρ, hρ, hfound, hgrown, hleft, ?_⟩
  rintro ⟨found, left, hversion, hversion', hkeeps⟩
  obtain ⟨after, hafter, hsame⟩ := Option.map_eq_some_iff.mp hleft
  rw [hfound] at hversion
  rw [hafter] at hversion'
  obtain rfl := Option.some.inj hversion
  obtain rfl := Option.some.inj hversion'
  have hbody : normBody after.content = normBody file.content := hkeeps.body
  rw [hsame, hgrown] at hbody
  exact absurd hbody (by decide)

end Consolidate
