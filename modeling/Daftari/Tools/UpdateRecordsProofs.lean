import Daftari.Frontmatter.KeywiseProofs
import Daftari.Tools.ReserialiseProofs

/-! # What an update leaves under each key

    An update merges its payload over the record it loaded, joins the reader
    lists, lets the hooks at the result, stamps and pins it, and re-serialises.
    Here is the way of one key, and of the reader lists, through all of that.

    * `lookup_overlay`, `lookup_mergeUnder`: the merged record;
    * `readers_kept`, `lineage_kept`, `lineage_of_merge`: the reader lists;
    * `written`: the block a record is written as, and `writtenUpdate_lookup`:
      **each key of an update's file is written as its merged value is**. -/

namespace Write

open Frontmatter

/-! ## Overlays -/

variable {k : String}

theorem lookup_remove_of_mem {ks : List String} (h : k ∈ ks) (raw : Raw) :
    (Assoc.remove raw ks).lookup k = none := by
  rw [List.lookup_eq_none_iff]
  intro e he
  have hkept := (List.mem_filter.mp he).2
  rw [bne_iff_ne]
  rintro rfl
  simp [h] at hkept

theorem lookup_overlay (deferred : List String) (oldRaw : Raw) {payload : Raw}
    (h : (Assoc.keys payload).Nodup) (k : String) :
    (overlay deferred oldRaw payload).lookup k
      = match payload.lookup k with
        | none => oldRaw.lookup k
        | some v =>
            if missing (some v) then none
            else if k ∈ deferred then oldRaw.lookup k
            else some v := by
  induction payload generalizing oldRaw with
  | nil => rfl
  | cons e payload ih =>
      obtain ⟨k', v⟩ := e
      obtain ⟨hk', h⟩ := List.nodup_cons.mp h
      unfold overlay
      refine (ih _ h).trans ?_
      by_cases hk : k = k'
      · subst hk
        have hnone : payload.lookup k = none := by
          cases hl : payload.lookup k with
          | none => rfl
          | some w =>
              exact absurd (List.mem_map_of_mem (f := Prod.fst)
                (Assoc.mem_of_lookup hl)) hk'
        rw [hnone, List.lookup_cons_self]
        dsimp only
        split
        · exact lookup_remove_of_mem List.mem_cons_self _
        · split
          · rfl
          · exact Assoc.lookup_set_self _ _ _
      · -- another key's entry leaves this one alone
        rw [Assoc.lookup_cons_of_ne _ _ hk]
        have hsame : (if missing (some v) = true then Assoc.remove oldRaw [k']
            else if k' ∈ deferred then oldRaw else Assoc.set oldRaw k' v).lookup k
              = oldRaw.lookup k := by
          split
          · exact Assoc.lookup_remove_of_not_mem _ (by simpa using hk)
          · split
            · rfl
            · exact Assoc.lookup_set_of_ne _ _ hk
        rw [hsame]

/-- The lists a merge joins. -/
def readerLists : List String := ["readers", "reader_lineage"]

/-- **The merged value of a key**: a field that claims a single reader may be dropped,
    and the reader lists go their own way. -/
theorem lookup_mergeUnder (now : String) (oldRaw payload : Raw) (hk : k ∉ readerLists) :
    (mergeUnder now oldRaw payload).lookup k = (overlay readerLists oldRaw payload).lookup k
      ∨ k ∈ readerScalarFields ∧ (mergeUnder now oldRaw payload).lookup k = none := by
  unfold mergeUnder
  split
  · exact Or.inl rfl
  · -- joining the lists writes the lists
    have hjoined : ∀ merged : Raw, (unionReaderLineage (existingLineage now merged) payload
        (unionReaders payload merged)).lookup k = merged.lookup k := by
      intro merged
      have hreaders : k ≠ "readers" := fun h => hk (h ▸ by decide)
      have hlineage : k ≠ "reader_lineage" := fun h => hk (h ▸ by decide)
      have hunion : (unionReaders payload merged).lookup k = merged.lookup k := by
        unfold unionReaders
        split
        · exact Assoc.lookup_set_of_ne _ _ hreaders
        · rfl
      unfold unionReaderLineage
      split
      · unfold lineageReaders
        dsimp only
        split
        · exact (Assoc.lookup_set_of_ne _ _ hlineage).trans hunion
        · rw [Assoc.lookup_set_of_ne _ _ hreaders, Assoc.lookup_set_of_ne _ _ hlineage, hunion]
      · exact hunion
    unfold fuseReaders dropScalars
    dsimp only
    split
    · by_cases hscalar : k ∈ readerScalarFields
      · exact Or.inr ⟨hscalar, lookup_remove_of_mem hscalar _⟩
      · left
        rw [Assoc.lookup_remove_of_not_mem _ hscalar]
        exact hjoined _
    · exact Or.inl (hjoined _)

/-! ## The reader lists -/

variable {existing incoming : List String} {r : String}

theorem mem_unionStrings_left (h : r ∈ existing) : r ∈ unionStrings existing incoming := by
  induction incoming generalizing existing with
  | nil => exact h
  | cons a incoming ih =>
      show r ∈ unionStrings (if a ∈ existing then existing else existing ++ [a]) incoming
      apply ih
      split
      · exact h
      · exact List.mem_append_left _ h

theorem mem_unionLineage_left {e : String} (h : e ∈ existing) :
    e ∈ unionLineage existing incoming := by
  induction incoming generalizing existing with
  | nil => exact h
  | cons a incoming ih =>
      unfold unionLineage
      rw [List.foldl_cons]
      apply ih
      split
      · exact h
      · split
        · exact h
        · exact List.mem_append_left _ h

theorem mem_unionLineage {e : String} (h : e ∈ unionLineage existing incoming) :
    e ∈ existing ∨ e ∈ incoming := by
  induction incoming generalizing existing with
  | nil => exact Or.inl h
  | cons a incoming ih =>
      unfold unionLineage at h
      rw [List.foldl_cons] at h
      rcases ih h with hmem | hmem
      · split at hmem
        · exact Or.inl hmem
        · split at hmem
          · exact Or.inl hmem
          · rcases List.mem_append.mp hmem with hmem | hmem
            · exact Or.inl hmem
            · exact Or.inr (List.mem_singleton.mp hmem ▸ List.mem_cons_self)
      · exact Or.inr (List.mem_cons_of_mem _ hmem)

theorem mem_stringsOf {items : List Value} : r ∈ stringsOf items ↔ Value.str r ∈ items := by
  unfold stringsOf
  rw [List.mem_filterMap]
  constructor
  · rintro ⟨v, hv, hr⟩
    cases v with
    | str t =>
        obtain rfl := Option.some.inj hr
        exact hv
    | _ => cases hr
  · intro h
    exact ⟨_, h, rfl⟩

theorem mem_lineageReaders {unioned : List String} {raw : Raw}
    (h : r ∈ stringsIn (raw.lookup "readers")) :
    r ∈ stringsIn ((lineageReaders unioned raw).lookup "readers") := by
  unfold lineageReaders
  dsimp only
  split
  · exact h
  · rw [Assoc.lookup_set_self]
    show r ∈ stringsOf (_ ++ _)
    rw [mem_stringsOf, List.mem_append]
    by_cases hr : r ∈ readersFromLineage unioned
    · exact Or.inl (List.mem_map_of_mem hr)
    · right
      rw [List.mem_filter]
      refine ⟨?_, decide_eq_true hr⟩
      cases hv : raw.lookup "readers" with
      | none =>
          rw [hv] at h
          cases h
      | some v =>
          rw [hv] at h
          cases v with
          | arr items => exact mem_stringsOf.mp h
          | _ => cases h

theorem lookup_dropScalars (hk : k ∈ readerLists) (n : Nat) (raw : Raw) :
    (dropScalars n raw).lookup k = raw.lookup k := by
  have hscalar : k ∉ readerScalarFields := by
    rcases List.mem_cons.mp hk with rfl | hk
    · decide
    · rw [List.mem_singleton.mp hk]
      decide
  unfold dropScalars
  split
  · exact Assoc.lookup_remove_of_not_mem _ hscalar
  · rfl

variable {merged : Raw}

theorem mem_fuseReaders {now : String} {payload : Raw}
    (h : r ∈ stringsIn (merged.lookup "readers")) :
    r ∈ stringsIn ((fuseReaders now payload merged).lookup "readers") := by
  have hunion : r ∈ stringsIn ((unionReaders payload merged).lookup "readers") := by
    unfold unionReaders
    split
    · rw [Assoc.lookup_set_self, stringsIn_texts]
      exact mem_unionStrings_left h
    · exact h
  unfold fuseReaders
  rw [lookup_dropScalars (by decide)]
  unfold unionReaderLineage
  split
  · refine mem_lineageReaders ?_
    rw [Assoc.lookup_set_of_ne _ _ (by decide)]
    exact hunion
  · exact hunion

/-- **The lineage of a merge with a lineage to add.** -/
theorem lineage_fuseReaders (now : String) {payload : Raw} {items : List Value}
    (h : payload.lookup "reader_lineage" = some (.arr items)) :
    (fuseReaders now payload merged).lookup "reader_lineage"
      = some (texts (unionLineage (existingLineage now merged) (stringsOf items))) := by
  unfold fuseReaders
  rw [lookup_dropScalars (by decide)]
  unfold unionReaderLineage
  rw [h]
  unfold lineageReaders
  dsimp only
  split
  · exact Assoc.lookup_set_self _ _ _
  · rw [Assoc.lookup_set_of_ne _ _ (by decide), Assoc.lookup_set_self]

theorem existingLineage_of_ne {now : String} (h : stringsIn (merged.lookup "reader_lineage") ≠ []) :
    existingLineage now merged = stringsIn (merged.lookup "reader_lineage") := by
  unfold existingLineage
  rw [if_neg (fun hnil => h hnil.1)]

theorem mem_existingLineage {now : String} {e : String}
    (h : e ∈ stringsIn (merged.lookup "reader_lineage")) : e ∈ existingLineage now merged := by
  rw [existingLineage_of_ne (List.ne_nil_of_mem h)]
  exact h

/-! ## From the record to the file -/

/-- The hooks hand a field on as they were given it. -/
def HandsOn (config : Config) (k : String) : Prop :=
  ∀ fm context,
    (runPreWriteTransformHooks config.transformHooks fm context).1.lookup k = fm.lookup k

variable (extensions : List SchemaExtension)

theorem lookup_applyExtensionDefaults_congr {raw raw' : Raw} (h : raw.lookup k = raw'.lookup k) :
    (applyExtensionDefaults raw extensions).lookup k
      = (applyExtensionDefaults raw' extensions).lookup k := by
  induction extensions generalizing raw raw' with
  | nil => exact h
  | cons ext extensions ih =>
      show (applyExtensionDefaults (applyExtensionDefaults raw [ext]) extensions).lookup k
        = (applyExtensionDefaults (applyExtensionDefaults raw' [ext]) extensions).lookup k
      apply ih
      have hother : ∀ raw : Raw, k ≠ ext.field →
          (applyExtensionDefaults raw [ext]).lookup k = raw.lookup k := by
        intro raw hne
        unfold applyExtensionDefaults
        rw [List.foldl_cons, List.foldl_nil]
        split
        · split
          · exact Assoc.lookup_set_of_ne _ _ hne
          · rfl
        · rfl
      by_cases hk : k = ext.field
      · subst hk
        unfold applyExtensionDefaults
        rw [List.foldl_cons, List.foldl_nil, List.foldl_cons, List.foldl_nil, h]
        split
        · split
          · exact (Assoc.lookup_set_self _ _ _).trans (Assoc.lookup_set_self _ _ _).symm
          · exact h
        · exact h
      · rw [hother raw hk, hother raw' hk]
        exact h

theorem lookup_applyExtensionDefaults_of_there {raw : Raw} (h : missing (raw.lookup k) = false) :
    (applyExtensionDefaults raw extensions).lookup k = raw.lookup k := by
  induction extensions generalizing raw with
  | nil => rfl
  | cons ext extensions ih =>
      have hstep : (applyExtensionDefaults raw [ext]).lookup k = raw.lookup k := by
        unfold applyExtensionDefaults
        rw [List.foldl_cons, List.foldl_nil]
        split
        · rename_i hmissing
          have hne : k ≠ ext.field := by
            rintro rfl
            rw [h] at hmissing
            cases hmissing
          split
          · exact Assoc.lookup_set_of_ne _ _ hne
          · rfl
        · rfl
      show (applyExtensionDefaults (applyExtensionDefaults raw [ext]) extensions).lookup k = _
      rw [ih (by rw [hstep]; exact h), hstep]

section Tools

variable {B : Type} (host : Host B) {s : Setting}

theorem lookup_mintPins_congr {raw raw' : Raw} (h : raw.lookup k = raw'.lookup k) :
    (mintPins host raw).lookup k = (mintPins host raw').lookup k := by
  by_cases hk : k = "describes"
  · subst hk
    unfold mintPins
    rw [h]
    split
    · split
      · split
        · exact (Assoc.lookup_set_self _ _ _).trans (Assoc.lookup_set_self _ _ _).symm
        · exact h
      · exact h
    · exact h
  · have hnot : k ∉ ["describes"] := fun hmem => hk (List.mem_singleton.mp hmem)
    rw [(mintPins_touches host raw).lookup_eq hnot, (mintPins_touches host raw').lookup_eq hnot]
    exact h

/-- The block a record is written as: pinned, typed and serialised. -/
def written (raw : Raw) : Raw :=
  let pinned := mintPins host raw
  serializedFields (coerce host.json pinned).toRaw host.config.extensions
    (applyExtensionDefaults pinned host.config.extensions)

/-- The block of an update over a document. -/
def writtenUpdate (s : Setting) (args : WriteArgs) (doc : ParsedDocument) : Raw :=
  let raw := (composeRaw host s args (some doc)).1
  serializedFields
    (stamp s { coerce host.json raw with created := doc.frontmatter.created } args.agent).toRaw
    host.config.extensions (applyExtensionDefaults raw host.config.extensions)

variable {host}

variable {args : WriteArgs} {doc : ParsedDocument}

theorem lookup_composed {raw : Raw} (hhooks : HandsOn host.config k) (hstamps : k ∉ stampFields)
    (h : (mergedRecord s args (some doc)).lookup k = raw.lookup k) :
    (composeRaw host s args (some doc)).1.lookup k = (mintPins host raw).lookup k := by
  unfold composeRaw
  apply lookup_mintPins_congr
  rw [(fillStamps_touches s _ _).lookup_eq hstamps, hhooks]
  exact h

/-- **Each key of an update is written as its merged value is.** -/
theorem writtenUpdate_lookup {raw : Raw} (hdoc : (Assoc.keys doc.raw).Nodup)
    (hraw : (Assoc.keys raw).Nodup) (hhooks : HandsOn host.config k) (hcreated : k ≠ "created")
    (hk : k ∉ stampFields) (h : (mergedRecord s args (some doc)).lookup k = raw.lookup k) :
    (writtenUpdate host s args doc).lookup k = (written host raw).lookup k := by
  have hcomposed := lookup_composed hhooks hk h
  have hnodup : (Assoc.keys (composeRaw host s args (some doc)).1).Nodup := by
    apply nodup_composeRaw
    rintro d hd
    obtain rfl := Option.some.inj hd
    exact hdoc
  unfold writtenUpdate written
  refine serializedFields_congr _ ((applyExtensionDefaults_touches _ _).nodup hnodup)
    ((applyExtensionDefaults_touches _ _).nodup ((mintPins_touches host raw).nodup hraw)) ?_
    (lookup_applyExtensionDefaults_congr _ hcomposed)
  intro hbuiltin
  rw [← toRaw_coerce_congr host.json hbuiltin hcomposed, lookup_stamp hk, toRaw_created,
    Assoc.lookup_set_of_ne _ _ hcreated]

theorem writtenUpdate_created (s : Setting) (args : WriteArgs) (doc : ParsedDocument) :
    (writtenUpdate host s args doc).lookup "created"
      = some (.str doc.frontmatter.created) := by
  unfold writtenUpdate
  rw [lookup_always host.config.extensions _ _ (by decide) (by decide), lookup_stamp (by decide),
    toRaw_created, Assoc.lookup_set_self]
  rfl

theorem written_created {raw raw' : Raw} (h : raw.lookup "created" = raw'.lookup "created") :
    (written host raw).lookup "created"
      = some (.str (coerce host.json raw').created) := by
  have hpinned : (mintPins host raw).lookup "created" = raw'.lookup "created" := by
    rw [(mintPins_touches host raw).lookup_eq (by decide)]
    exact h
  unfold written
  rw [lookup_always host.config.extensions _ _ (by decide) (by decide),
    toRaw_coerce_congr host.json (by decide) hpinned]
  rfl

theorem writtenUpdate_list {items : List Value} (hdoc : (Assoc.keys doc.raw).Nodup)
    (hk : k ∉ builtinFields) (hhooks : HandsOn host.config k)
    (h : (mergedRecord s args (some doc)).lookup k = some (.arr items)) :
    (writtenUpdate host s args doc).lookup k = some (.arr items) := by
  have hnodup : (Assoc.keys (composeRaw host s args (some doc)).1).Nodup := by
    apply nodup_composeRaw
    rintro d hd
    obtain rfl := Option.some.inj hd
    exact hdoc
  have hcomposed : (composeRaw host s args (some doc)).1.lookup k = some (.arr items) := by
    have hbuiltin : ["updated", "updated_by", "describes"] ⊆ builtinFields := by decide
    rw [lookup_composeRaw (fun hmem => hk (hbuiltin hmem)), hhooks]
    exact h
  unfold writtenUpdate
  refine lookup_further_list _ ((applyExtensionDefaults_touches _ _).nodup hnodup) hk ?_
  rw [lookup_applyExtensionDefaults_of_there _ (by rw [hcomposed]; rfl)]
  exact hcomposed

/-- **The file a full-document write leaves** where there was one. -/
theorem vaultWrite_block {files : Files B} {plan : Plan B} {relPath : String} {old : B}
    (h : vaultWrite host s args files = .ok (.write plan))
    (hresolve : host.resolve args.path = .ok relPath) (hold : files.lookup relPath = some old) :
    ∃ doc text, host.codec.parse old = .ok (doc.raw, doc.content)
      ∧ doc.frontmatter = coerce host.json doc.raw
      ∧ plan.snapshots = declared relPath args.baseVersion ∧ plan.writes = [(relPath, text)]
      ∧ host.codec.parse text
        = .ok (writtenUpdate host s args doc, endLine (startLine args.body)) := by
  obtain ⟨relPath', hresolve', hdirect⟩ := direct_of_writeDocument h
  obtain rfl := Except.ok.inj (hresolve.symm.trans hresolve')
  rw [show (none <|> files.lookup relPath) = some old from hold] at hdirect
  obtain ⟨doc, hdoc, hdirect⟩ := bind_eq_ok hdirect
  obtain ⟨_, _, hdirect⟩ := bind_eq_ok hdirect
  obtain ⟨⟨fm, raw⟩, hcompose, hdirect⟩ := bind_eq_ok hdirect
  obtain ⟨rfl, rfl⟩ := composeWrite_eq_ok hcompose
  obtain ⟨_, _, hdirect⟩ := bind_eq_ok hdirect
  obtain ⟨_, _, hdirect⟩ := bind_eq_ok hdirect
  obtain ⟨hsnapshots, hwrites, _⟩ := performWrite_eq_ok hdirect
  obtain ⟨d, rfl, hparse, hfm⟩ := parse_of_existingDocument hdoc rfl
  exact ⟨d, _, hparse, hfm, hsnapshots, hwrites, parse_serializeDocument _ _ _ _ _⟩

end Tools

end Write
