import Daftari.Tools.UpdateRecordsProofs

/-! # The update merge, key by key

    An update's payload goes over the record that is there: a null removes its key, any other key is
    written, and the two reader lists are joined instead of replaced.  A null on either list takes
    the other list's part of the payload with it, and only a payload with a lineage brings the
    readers in line with it.

    * `joinReaders`, `leadWith`: the value a merge leaves under `readers`;
    * `honours_iff`: **the merge honours its payload, and merging twice is merging once, exactly
      for what `MergesWell`.** -/

namespace Write

open Frontmatter

/-! ## What is owed -/

/-- What a payload asks of a key: to go, to be set, or to stay as it is. -/
def asked (old payload : Raw) (k : String) : Option Value :=
  match payload.lookup k with
  | none => old.lookup k
  | some v => if missing (some v) then none else some v

/-- The operations and readers a lineage names. -/
def traces (v : Option Value) : List (String × String) :=
  (stringsIn v).filterMap parseLineageEntry

/-- The merged record honours every key of the payload. -/
structure Honours (old payload merged : Raw) : Prop where
  /-- Ordinary keys are as the payload asks. -/
  plain : ∀ k, k ∉ readerFields → merged.lookup k = asked old payload k
  /-- A null removes its key, whichever it is. -/
  nulls : ∀ k, payload.lookup k = some .null → merged.lookup k = none
  /-- No reader goes, and the payload's come in. -/
  readers : payload.lookup "readers" ≠ some .null → ∀ r,
    r ∈ stringsIn (old.lookup "readers") ∨ r ∈ stringsIn (payload.lookup "readers") →
      r ∈ stringsIn (merged.lookup "readers")
  /-- No entry of the lineage goes. -/
  entries : payload.lookup "reader_lineage" ≠ some .null → ∀ e,
    e ∈ stringsIn (old.lookup "reader_lineage") → e ∈ stringsIn (merged.lookup "reader_lineage")
  /-- What the payload's entries name is named. -/
  lineage : payload.lookup "reader_lineage" ≠ some .null → ∀ key,
    key ∈ traces (payload.lookup "reader_lineage") → key ∈ traces (merged.lookup "reader_lineage")
  /-- A lineage the payload does not mention stays. -/
  alone : payload.lookup "reader_lineage" = none →
    merged.lookup "reader_lineage" = old.lookup "reader_lineage"
  /-- Readers stay when the payload mentions neither list. -/
  untouched : payload.lookup "readers" = none → payload.lookup "reader_lineage" = none →
    merged.lookup "readers" = old.lookup "readers"
  /-- More than one reader: no field claims a single one. -/
  scalars : ∀ k ∈ readerScalarFields, merged.lookup k
    = if 1 < (itemsIn (merged.lookup "readers")).length then none else asked old payload k
  /-- Every reader the lineage names is a reader. -/
  named : ∀ key ∈ traces (merged.lookup "reader_lineage"),
    key.2 ∈ stringsIn (merged.lookup "readers")

/-- The records and payloads a merge comes out right for. -/
def MergesWell (old payload : Raw) : Prop :=
  if nulled payload "readers" then
    nulled payload "reader_lineage" = true ∨
      traces (old.lookup "reader_lineage") = [] ∧ traces (payload.lookup "reader_lineage") = []
  else if nulled payload "reader_lineage" then
    (∀ r ∈ stringsIn (payload.lookup "readers"), r ∈ stringsIn (old.lookup "readers")) ∧
      (1 < (itemsIn (old.lookup "readers")).length →
        ∀ k ∈ readerScalarFields, asked old payload k = none)
  else
    match payload.lookup "reader_lineage" with
    | some (.arr items) =>
        stringsIn (payload.lookup "readers") = [] ∨ stringsIn (old.lookup "readers") ≠ [] ∨
          stringsIn (old.lookup "reader_lineage") ≠ [] ∨
            (stringsOf items).filterMap parseLineageEntry ≠ []
    | _ => ∀ key ∈ traces (old.lookup "reader_lineage"),
        key.2 ∈ stringsIn (old.lookup "readers") ∨ key.2 ∈ stringsIn (payload.lookup "readers")

/-! ## Unions -/

section Unions

variable {existing incoming : List String}

theorem mem_unionStrings {r : String} :
    r ∈ unionStrings existing incoming ↔ r ∈ existing ∨ r ∈ incoming := by
  induction incoming generalizing existing with
  | nil => simp [unionStrings]
  | cons a incoming ih =>
      show r ∈ unionStrings (if a ∈ existing then existing else existing ++ [a]) incoming ↔ _
      rw [ih, List.mem_cons]
      split
      · constructor
        · rintro (h | h)
          · exact Or.inl h
          · exact Or.inr (Or.inr h)
        · rintro (h | rfl | h)
          · exact Or.inl h
          · exact Or.inl ‹_›
          · exact Or.inr h
      · rw [List.mem_append, List.mem_singleton, or_assoc]

theorem unionStrings_eq_self (h : ∀ r ∈ incoming, r ∈ existing) :
    unionStrings existing incoming = existing := by
  induction incoming with
  | nil => rfl
  | cons a incoming ih =>
      show unionStrings (if a ∈ existing then existing else existing ++ [a]) incoming = existing
      rw [if_pos (h a List.mem_cons_self)]
      exact ih fun r hr => h r (List.mem_cons_of_mem _ hr)

variable (existing incoming) in
theorem unionLineage_cons (a : String) : unionLineage existing (a :: incoming)
        = unionLineage existing incoming ∧
          (parseLineageEntry a).toList ⊆ existing.filterMap parseLineageEntry ∨
      unionLineage existing (a :: incoming) = unionLineage (existing ++ [a]) incoming ∧
        (∃ key, parseLineageEntry a = some key) ∧
          ¬ (parseLineageEntry a).toList ⊆ existing.filterMap parseLineageEntry := by
  unfold unionLineage
  rw [List.foldl_cons]
  cases hkey : parseLineageEntry a with
  | none => exact Or.inl ⟨rfl, by simp⟩
  | some key =>
      dsimp only
      by_cases hmem : key ∈ existing.filterMap parseLineageEntry
      · left
        rw [if_pos hmem]
        exact ⟨rfl, by simpa using hmem⟩
      · right
        rw [if_neg hmem]
        exact ⟨rfl, ⟨key, rfl⟩, by simpa using hmem⟩

theorem mem_traces_unionLineage {key : String × String} :
    key ∈ (unionLineage existing incoming).filterMap parseLineageEntry ↔
      key ∈ existing.filterMap parseLineageEntry ∨ key ∈ incoming.filterMap parseLineageEntry := by
  induction incoming generalizing existing with
  | nil => simp [unionLineage]
  | cons a incoming ih =>
      rcases unionLineage_cons existing incoming a with
        ⟨hu, hsub⟩ | ⟨hu, ⟨key', hkey⟩, _⟩
      · rw [hu, ih]
        cases hkey : parseLineageEntry a with
        | none => rw [List.filterMap_cons_none hkey]
        | some key' =>
            rw [List.filterMap_cons_some hkey, List.mem_cons]
            rw [hkey] at hsub
            have hmem : key' ∈ existing.filterMap parseLineageEntry := hsub (by simp)
            constructor
            · rintro (h | h)
              · exact Or.inl h
              · exact Or.inr (Or.inr h)
            · rintro (h | rfl | h)
              · exact Or.inl h
              · exact Or.inl hmem
              · exact Or.inr h
      · rw [hu, ih, List.filterMap_append, List.mem_append, List.filterMap_cons_some hkey,
          List.filterMap_nil, List.mem_singleton, List.filterMap_cons_some hkey, List.mem_cons,
          or_assoc]

theorem unionLineage_eq_self
    (h : incoming.filterMap parseLineageEntry ⊆ existing.filterMap parseLineageEntry) :
    unionLineage existing incoming = existing := by
  induction incoming with
  | nil => rfl
  | cons a incoming ih =>
      have hrest : incoming.filterMap parseLineageEntry ⊆ existing.filterMap parseLineageEntry := by
        intro key hkey
        refine h ?_
        rw [← List.singleton_append, List.filterMap_append]
        exact List.mem_append_right _ hkey
      have ha : (parseLineageEntry a).toList ⊆ existing.filterMap parseLineageEntry := by
        intro key hkey
        refine h ?_
        rw [List.filterMap_cons_some (Option.mem_toList.mp hkey)]
        exact List.mem_cons_self
      rcases unionLineage_cons existing incoming a with
        ⟨hu, _⟩ | ⟨_, _, hnot⟩
      · rw [hu, ih hrest]
      · exact absurd ha hnot

theorem mem_readersFromLineage {r : String} {lineage : List String} :
    r ∈ readersFromLineage lineage ↔ ∃ key ∈ lineage.filterMap parseLineageEntry, key.2 = r := by
  unfold readersFromLineage
  rw [mem_unionStrings, List.mem_map]
  constructor
  · rintro (h | h)
    · cases h
    · exact h
  · exact Or.inr

end Unions

/-! ## The value under `readers` -/

def joinReaders (payload : Raw) (v : Option Value) : Option Value :=
  match payload.lookup "readers" with
  | some (.arr items) => some (texts (unionStrings (stringsIn v) (stringsOf items)))
  | _ => v

/-- An entry that is none of these readers. -/
def outside (readers : List String) : Value → Bool
  | .str r => r ∉ readers
  | _ => true

/-- The readers a lineage names, and after them the entries it does not name. -/
def leadWith (unioned : List String) (v : Option Value) : Option Value :=
  if readersFromLineage unioned = [] then v
  else some (.arr ((readersFromLineage unioned).map Value.str
    ++ (itemsIn v).filter (outside (readersFromLineage unioned))))

theorem lookup_unionReaders (payload merged : Raw) :
    (unionReaders payload merged).lookup "readers"
      = joinReaders payload (merged.lookup "readers") := by
  cases hv : payload.lookup "readers" with
  | none => simp only [unionReaders, joinReaders, hv]
  | some w =>
      cases w with
      | arr items => simp only [unionReaders, joinReaders, hv, Assoc.lookup_set_self]
      | _ => simp only [unionReaders, joinReaders, hv]

theorem lookup_lineageReaders (unioned : List String) (raw : Raw) :
    (lineageReaders unioned raw).lookup "readers" = leadWith unioned (raw.lookup "readers") := by
  unfold lineageReaders leadWith
  dsimp only
  split
  · rfl
  · rw [Assoc.lookup_set_self]
    refine congrArg (fun extras => some (Value.arr (_ ++ extras))) ?_
    refine List.filter_congr fun v _ => ?_
    cases v <;> rfl

section Values

variable {payload : Raw} {unioned : List String} {v : Option Value}

theorem mem_joinReaders {r : String} :
    r ∈ stringsIn (joinReaders payload v) ↔
      r ∈ stringsIn v ∨ r ∈ stringsIn (payload.lookup "readers") := by
  unfold joinReaders
  split
  · rename_i items h
    rw [stringsIn_texts, mem_unionStrings, h]
    rfl
  · rename_i h
    have hnone : stringsIn (payload.lookup "readers") = [] := by
      unfold stringsIn
      split
      · exact absurd ‹_› (h _)
      · rfl
    rw [hnone]
    simp

theorem mem_stringsIn {r : String} : r ∈ stringsIn v ↔ Value.str r ∈ itemsIn v := by
  unfold stringsIn itemsIn
  split
  · exact mem_stringsOf
  · simp

theorem mem_leadWith {r : String} :
    r ∈ stringsIn (leadWith unioned v) ↔ r ∈ readersFromLineage unioned ∨ r ∈ stringsIn v := by
  unfold leadWith
  split
  · rename_i hnil
    rw [hnil]
    simp
  · rw [mem_stringsIn, mem_stringsIn]
    show Value.str r ∈ _ ++ _ ↔ _
    rw [List.mem_append, List.mem_map, List.mem_filter]
    by_cases hr : r ∈ readersFromLineage unioned
    · exact iff_of_true (Or.inl ⟨r, hr, rfl⟩) (Or.inl hr)
    · constructor
      · rintro (⟨r', hr', he⟩ | ⟨hmem, _⟩)
        · exact Or.inl (Value.str.inj he ▸ hr')
        · exact Or.inr hmem
      · rintro (h | h)
        · exact absurd h hr
        · exact Or.inr ⟨h, decide_eq_true hr⟩

variable (unioned) in
theorem leadWith_texts (l : List String) :
    ∃ l', leadWith unioned (some (texts l)) = some (texts l') := by
  unfold leadWith
  split
  · exact ⟨l, rfl⟩
  · refine ⟨readersFromLineage unioned ++ l.filter (· ∉ readersFromLineage unioned), ?_⟩
    show some (Value.arr (_ ++ (l.map Value.str).filter _)) = some (Value.arr _)
    rw [List.map_append, List.filter_map]
    rfl

theorem leadWith_leadWith : leadWith unioned (leadWith unioned v) = leadWith unioned v := by
  unfold leadWith
  split
  · rfl
  · show some (Value.arr (_ ++ List.filter _ (_ ++ _))) = some (Value.arr _)
    have hnamed : ((readersFromLineage unioned).map Value.str).filter
        (outside (readersFromLineage unioned)) = [] := by
      refine List.filter_eq_nil_iff.mpr fun w hw => ?_
      obtain ⟨r, hr, rfl⟩ := List.mem_map.mp hw
      show ¬ decide (r ∉ readersFromLineage unioned) = true
      simpa using hr
    rw [List.filter_append, hnamed, List.nil_append, List.filter_filter]
    simp only [Bool.and_self]

variable (unioned) in
theorem joinReaders_leadWith : joinReaders payload (leadWith unioned (joinReaders payload v))
      = leadWith unioned (joinReaders payload v) := by
  have hkeep : ∀ r ∈ stringsIn (payload.lookup "readers"),
      r ∈ stringsIn (leadWith unioned (joinReaders payload v)) := by
    intro r hr
    exact mem_leadWith.mpr (Or.inr (mem_joinReaders.mpr (Or.inr hr)))
  generalize hw : leadWith unioned (joinReaders payload v) = w at hkeep
  unfold joinReaders at hw ⊢
  split
  · rename_i items h
    rw [h] at hw hkeep
    obtain ⟨l, hl⟩ := leadWith_texts unioned
      (unionStrings (stringsIn v) (stringsOf items))
    obtain rfl := hl.symm.trans hw
    rw [stringsIn_texts, unionStrings_eq_self]
    rwa [stringsIn_texts] at hkeep
  · rfl

theorem joinReaders_joinReaders :
    joinReaders payload (joinReaders payload v) = joinReaders payload v :=
  joinReaders_leadWith []

end Values

/-! ## The merged record -/

theorem nulled_iff {payload : Raw} {field : String} :
    nulled payload field = true ↔ payload.lookup field = some .null := by
  unfold nulled
  split
  · rename_i h
    exact iff_of_true rfl h
  · rename_i h
    exact iff_of_false Bool.false_ne_true h

theorem existingLineage_eq_nil {now : String} {merged : Raw} :
    existingLineage now merged = [] ↔
      stringsIn (merged.lookup "reader_lineage") = [] ∧
        stringsIn (merged.lookup "readers") = [] := by
  unfold existingLineage
  dsimp only
  split
  · rename_i h
    rw [List.map_eq_nil_iff]
    exact iff_of_false h.2 fun hnil => h.2 hnil.2
  · rename_i h
    constructor
    · intro hnil
      refine ⟨hnil, ?_⟩
      by_contra hne
      exact h ⟨hnil, hne⟩
    · exact And.left

section Merge

variable {now : String} {old payload : Raw}

theorem overlay_asked (h : (Assoc.keys payload).Nodup) {k : String} (hk : k ∉ readerLists) :
    (overlay readerLists old payload).lookup k = asked old payload k := by
  rw [lookup_overlay _ _ h]
  unfold asked
  cases payload.lookup k with
  | none => rfl
  | some v =>
      dsimp only
      rw [if_neg hk]

theorem overlay_deferred (h : (Assoc.keys payload).Nodup) {k : String} (hk : k ∈ readerLists) :
    (overlay readerLists old payload).lookup k
      = if nulled payload k then none else old.lookup k := by
  rw [lookup_overlay _ _ h]
  cases hv : payload.lookup k with
  | none =>
      have hnot : ¬ nulled payload k = true := by simp [nulled_iff, hv]
      rw [if_neg hnot]
  | some v =>
      dsimp only
      rw [if_pos hk]
      cases v with
      | null =>
          rw [if_pos (nulled_iff.mpr hv)]
          rfl
      | _ =>
          have hnot : ¬ nulled payload k = true := by simp [nulled_iff, hv]
          rw [if_neg hnot]
          rfl

theorem mergeUnder_of_nulled
    (h : nulled payload "readers" = true ∨ nulled payload "reader_lineage" = true) :
    mergeUnder now old payload = overlay readerLists old payload := if_pos h

theorem overlay_overlay (h : (Assoc.keys payload).Nodup) (k : String) :
    (overlay readerLists (overlay readerLists old payload) payload).lookup k
      = (overlay readerLists old payload).lookup k := by
  rw [lookup_overlay _ _ h, lookup_overlay _ _ h]
  cases payload.lookup k with
  | none => rfl
  | some v =>
      dsimp only
      split
      · rfl
      · split <;> rfl

theorem mergeUnder_of_not_nulled (hr : ¬ nulled payload "readers" = true)
    (hl : ¬ nulled payload "reader_lineage" = true) :
    mergeUnder now old payload = fuseReaders now payload (overlay readerLists old payload) :=
  if_neg (not_or.mpr ⟨hr, hl⟩)

section Joined

variable (h : (Assoc.keys payload).Nodup) (hr : ¬ nulled payload "readers" = true)
  (hl : ¬ nulled payload "reader_lineage" = true)

/-- The lineage a merge finds, backfilled where there is none. -/
def foundLineage (now : String) (old payload : Raw) : List String :=
  existingLineage now (overlay readerLists old payload)

include h hr hl

theorem scalars_mergeUnder {k : String} (hk : k ∈ readerScalarFields) :
    (mergeUnder now old payload).lookup k
      = if 1 < (itemsIn ((mergeUnder now old payload).lookup "readers")).length then none
        else asked old payload k := by
  have hlists : k ∉ readerLists := by
    intro hmem
    have hdisjoint : ∀ k ∈ readerScalarFields, k ∉ readerLists := by decide
    exact hdisjoint k hk hmem
  rw [mergeUnder_of_not_nulled hr hl]
  unfold fuseReaders
  dsimp only
  rw [lookup_dropScalars (k := "readers") (by decide)]
  unfold dropScalars
  split
  · exact lookup_remove_of_mem hk _
  · rename_i hone
    have hreaders : k ≠ "readers" := fun he => hlists (he ▸ by decide)
    have hlineage : k ≠ "reader_lineage" := fun he => hlists (he ▸ by decide)
    rw [← overlay_asked h hlists]
    have hunion : (unionReaders payload (overlay readerLists old payload)).lookup k
        = (overlay readerLists old payload).lookup k := by
      unfold unionReaders
      split
      · exact Assoc.lookup_set_of_ne _ _ hreaders
      · rfl
    rw [← hunion]
    unfold unionReaderLineage
    split
    · unfold lineageReaders
      dsimp only
      split
      · exact Assoc.lookup_set_of_ne _ _ hlineage
      · rw [Assoc.lookup_set_of_ne _ _ hreaders, Assoc.lookup_set_of_ne _ _ hlineage]
    · rfl

omit h hr hl in
theorem plain_mergeUnder (h : (Assoc.keys payload).Nodup) {k : String} (hk : k ∉ readerFields) :
    (mergeUnder now old payload).lookup k = asked old payload k := by
  have hlists : k ∉ readerLists := fun hmem => hk (List.mem_append_left _ hmem)
  rcases lookup_mergeUnder now old payload hlists with hsame | ⟨hscalar, _⟩
  · rw [hsame, overlay_asked h hlists]
  · exact absurd (List.mem_append_right _ hscalar) hk

/-- **The readers of a merge with a lineage to add.** -/
theorem readers_of_lineage {items : List Value}
    (hitems : payload.lookup "reader_lineage" = some (.arr items)) :
    (mergeUnder now old payload).lookup "readers"
      = leadWith (unionLineage (foundLineage now old payload) (stringsOf items))
          (joinReaders payload (old.lookup "readers")) := by
  rw [mergeUnder_of_not_nulled hr hl]
  unfold fuseReaders
  rw [lookup_dropScalars (by decide)]
  unfold unionReaderLineage
  rw [hitems]
  rw [lookup_lineageReaders, Assoc.lookup_set_of_ne _ _ (by decide), lookup_unionReaders,
    overlay_deferred h (by decide), if_neg hr]
  rfl

omit h in
theorem lineage_of_lineage {items : List Value}
    (hitems : payload.lookup "reader_lineage" = some (.arr items)) :
    (mergeUnder now old payload).lookup "reader_lineage"
      = some (texts (unionLineage (foundLineage now old payload) (stringsOf items))) := by
  rw [mergeUnder_of_not_nulled hr hl]
  exact lineage_fuseReaders now hitems

/-- **The readers of a merge without a lineage to add.** -/
theorem readers_of_none
    (hnone : ∀ items, payload.lookup "reader_lineage" ≠ some (.arr items)) :
    (mergeUnder now old payload).lookup "readers"
      = joinReaders payload (old.lookup "readers") := by
  rw [mergeUnder_of_not_nulled hr hl]
  unfold fuseReaders
  rw [lookup_dropScalars (by decide)]
  unfold unionReaderLineage
  split
  · exact absurd ‹_› (hnone _)
  · rw [lookup_unionReaders, overlay_deferred h (by decide), if_neg hr]

theorem lineage_of_none
    (hnone : ∀ items, payload.lookup "reader_lineage" ≠ some (.arr items)) :
    (mergeUnder now old payload).lookup "reader_lineage" = old.lookup "reader_lineage" := by
  rw [mergeUnder_of_not_nulled hr hl]
  unfold fuseReaders
  rw [lookup_dropScalars (by decide)]
  unfold unionReaderLineage
  split
  · exact absurd ‹_› (hnone _)
  · unfold unionReaders
    split
    · rw [Assoc.lookup_set_of_ne _ _ (by decide), overlay_deferred h (by decide), if_neg hl]
    · rw [overlay_deferred h (by decide), if_neg hl]

theorem foundLineage_eq_nil : foundLineage now old payload = [] ↔
    stringsIn (old.lookup "reader_lineage") = [] ∧ stringsIn (old.lookup "readers") = [] := by
  unfold foundLineage
  rw [existingLineage_eq_nil, overlay_deferred h (by decide), overlay_deferred h (by decide),
    if_neg hr, if_neg hl]

omit hr in
theorem mem_foundLineage {e : String} (he : e ∈ stringsIn (old.lookup "reader_lineage")) :
    e ∈ foundLineage now old payload := by
  apply mem_existingLineage
  rw [overlay_deferred h (by decide), if_neg hl]
  exact he

omit hr in
theorem foundLineage_of_ne (hne : stringsIn (old.lookup "reader_lineage") ≠ []) :
    foundLineage now old payload = stringsIn (old.lookup "reader_lineage") := by
  have hsame : (overlay readerLists old payload).lookup "reader_lineage"
      = old.lookup "reader_lineage" := by
    rw [overlay_deferred h (by decide), if_neg hl]
  unfold foundLineage
  rw [existingLineage_of_ne (hsame ▸ hne), hsame]

end Joined

/-! ## Merging again -/

theorem asked_of_lookup {merged : Raw} {k : String}
    (h : merged.lookup k = asked old payload k) : asked merged payload k = asked old payload k := by
  unfold asked at h ⊢
  cases hv : payload.lookup k with
  | none =>
      rw [hv] at h
      exact h
  | some v => rfl

theorem asked_of_null {k : String} (hk : payload.lookup k = some .null) :
    asked old payload k = none := by
  unfold asked
  rw [hk]
  rfl

/-- The merge of the payload into its own result leaves it. -/
def Settled (now now' : String) (old payload : Raw) : Prop :=
  ∀ k, (mergeUnder now' (mergeUnder now old payload) payload).lookup k
    = (mergeUnder now old payload).lookup k

variable {now' : String} (h : (Assoc.keys payload).Nodup)

include h

theorem settled_of_nulled
    (hnull : nulled payload "readers" = true ∨ nulled payload "reader_lineage" = true) :
    Settled now now' old payload := by
  intro k
  rw [mergeUnder_of_nulled hnull, mergeUnder_of_nulled hnull]
  exact overlay_overlay h k

section Joined

variable (hr : ¬ nulled payload "readers" = true) (hl : ¬ nulled payload "reader_lineage" = true)

include hr hl

theorem settled_of_lists (hreaders :
      (mergeUnder now' (mergeUnder now old payload) payload).lookup "readers"
        = (mergeUnder now old payload).lookup "readers")
    (hlineage : (mergeUnder now' (mergeUnder now old payload) payload).lookup "reader_lineage"
        = (mergeUnder now old payload).lookup "reader_lineage") :
    Settled now now' old payload := by
  intro k
  by_cases hk : k ∈ readerFields
  · rcases List.mem_append.mp hk with hlist | hscalar
    · rcases List.mem_cons.mp hlist with rfl | hlist
      · exact hreaders
      · rw [List.mem_singleton.mp hlist]
        exact hlineage
    · have hfirst : (mergeUnder now old payload).lookup k
          = if 1 < (itemsIn ((mergeUnder now old payload).lookup "readers")).length then none
            else asked old payload k := scalars_mergeUnder h hr hl hscalar
      rw [scalars_mergeUnder h hr hl hscalar, hreaders]
      split
      · rename_i hmany
        rw [hfirst, if_pos hmany]
      · rename_i hone
        rw [if_neg hone] at hfirst
        rw [hfirst, asked_of_lookup hfirst]
  · have hfirst : (mergeUnder now old payload).lookup k = asked old payload k :=
      plain_mergeUnder h hk
    rw [plain_mergeUnder h hk, hfirst, asked_of_lookup hfirst]

theorem settled_of_none (hnone : ∀ items, payload.lookup "reader_lineage" ≠ some (.arr items)) :
    Settled now now' old payload := by
  refine settled_of_lists h hr hl ?_ ?_
  · rw [readers_of_none h hr hl hnone, readers_of_none h hr hl hnone, joinReaders_joinReaders]
  · rw [lineage_of_none h hr hl hnone]

theorem settled_of_lineage {items : List Value}
    (hitems : payload.lookup "reader_lineage" = some (.arr items))
    (hfound : foundLineage now' (mergeUnder now old payload) payload
      = unionLineage (foundLineage now old payload) (stringsOf items)) :
    Settled now now' old payload := by
  have hsame : unionLineage (unionLineage (foundLineage now old payload) (stringsOf items))
      (stringsOf items) = unionLineage (foundLineage now old payload) (stringsOf items) := by
    apply unionLineage_eq_self
    intro key hkey
    exact mem_traces_unionLineage.mpr (Or.inr hkey)
  refine settled_of_lists h hr hl ?_ ?_
  · rw [readers_of_lineage h hr hl hitems, hfound, hsame, readers_of_lineage h hr hl hitems,
      joinReaders_leadWith, leadWith_leadWith]
  · rw [lineage_of_lineage hr hl hitems, hfound, hsame, lineage_of_lineage hr hl hitems]

/-- **Merging again adds nothing, unless it backfills**: a lineage that was written as
    empty is filled, at the second merge, from readers the first one added. -/
theorem settled_iff {items : List Value}
    (hitems : payload.lookup "reader_lineage" = some (.arr items)) :
    Settled now now' old payload ↔
      stringsIn (payload.lookup "readers") = [] ∨ stringsIn (old.lookup "readers") ≠ [] ∨
        stringsIn (old.lookup "reader_lineage") ≠ [] ∨
          (stringsOf items).filterMap parseLineageEntry ≠ [] := by
  have hlineage : (mergeUnder now old payload).lookup "reader_lineage"
      = some (texts (unionLineage (foundLineage now old payload) (stringsOf items))) :=
    lineage_of_lineage hr hl hitems
  by_cases hempty : unionLineage (foundLineage now old payload) (stringsOf items) = []
  · -- nothing there, nothing to add
    have hfound : foundLineage now old payload = [] := by
      refine List.eq_nil_iff_forall_not_mem.mpr fun e he => ?_
      have hmem : e ∈ unionLineage (foundLineage now old payload) (stringsOf items) :=
        mem_unionLineage_left he
      rw [hempty] at hmem
      cases hmem
    obtain ⟨hnolineage, hnoreaders⟩ := (foundLineage_eq_nil h hr hl).mp hfound
    have hunnamed : (stringsOf items).filterMap parseLineageEntry = [] := by
      refine List.eq_nil_iff_forall_not_mem.mpr fun key hkey => ?_
      have hmem : key ∈ (unionLineage (foundLineage now old payload)
          (stringsOf items)).filterMap parseLineageEntry :=
        mem_traces_unionLineage.mpr (Or.inr hkey)
      rw [hempty] at hmem
      cases hmem
    have hreaders : ∀ r, r ∈ stringsIn ((mergeUnder now old payload).lookup "readers") ↔
        r ∈ stringsIn (payload.lookup "readers") := by
      intro r
      rw [readers_of_lineage h hr hl hitems, mem_leadWith, hempty, mem_joinReaders, hnoreaders]
      simp [readersFromLineage, unionStrings]
    have hwritten : stringsIn ((mergeUnder now old payload).lookup "reader_lineage") = [] := by
      rw [hlineage, stringsIn_texts, hempty]
    constructor
    · intro hsettled
      left
      refine List.eq_nil_iff_forall_not_mem.mpr fun r hmem => ?_
      -- the second merge finds this reader, and backfills its lineage
      have hagain := hsettled "reader_lineage"
      rw [lineage_of_lineage hr hl hitems, hlineage, hempty] at hagain
      have hnil : foundLineage now' (mergeUnder now old payload) payload = [] := by
        refine List.eq_nil_iff_forall_not_mem.mpr fun e he => ?_
        have hkept : e ∈ unionLineage (foundLineage now' (mergeUnder now old payload) payload)
            (stringsOf items) := mem_unionLineage_left he
        have htexts := congrArg stringsIn hagain
        rw [stringsIn_texts, stringsIn_texts] at htexts
        rw [htexts] at hkept
        cases hkept
      have hno := ((foundLineage_eq_nil h hr hl).mp hnil).2
      have hin := (hreaders r).mpr hmem
      rw [hno] at hin
      cases hin
    · rintro (hnone | hne | hne | hne)
      · refine settled_of_lineage h hr hl hitems ?_
        rw [hempty, foundLineage_eq_nil h hr hl]
        refine ⟨hwritten, List.eq_nil_iff_forall_not_mem.mpr fun r hmem => ?_⟩
        have hin := (hreaders r).mp hmem
        rw [hnone] at hin
        cases hin
      · exact absurd hnoreaders hne
      · exact absurd hnolineage hne
      · exact absurd hunnamed hne
  · refine iff_of_true ?_ ?_
    · refine settled_of_lineage h hr hl hitems ?_
      have hwritten : stringsIn ((mergeUnder now old payload).lookup "reader_lineage")
          = unionLineage (foundLineage now old payload) (stringsOf items) := by
        rw [hlineage, stringsIn_texts]
      rw [foundLineage_of_ne h hl (hwritten ▸ hempty), hwritten]
    · by_contra hnot
      push Not at hnot
      obtain ⟨_, hnoreaders, hnolineage, hunnamed⟩ := hnot
      apply hempty
      rw [(foundLineage_eq_nil h hr hl).mpr ⟨hnolineage, hnoreaders⟩]
      apply unionLineage_eq_self
      rw [hunnamed]
      exact List.nil_subset _

end Joined

end Merge

/-! ## What a merge honours -/

section Honours

variable {now : String} {old payload : Raw} (h : (Assoc.keys payload).Nodup)

include h

theorem honours_of_readers_nulled (hr : nulled payload "readers" = true) :
    Honours old payload (mergeUnder now old payload) ↔
      nulled payload "reader_lineage" = true ∨
        traces (old.lookup "reader_lineage") = [] ∧
          traces (payload.lookup "reader_lineage") = [] := by
  have hnone : (mergeUnder now old payload).lookup "readers" = none := by
    rw [mergeUnder_of_nulled (Or.inl hr), overlay_deferred h (by decide), if_pos hr]
  have hlineage : (mergeUnder now old payload).lookup "reader_lineage"
      = if nulled payload "reader_lineage" then none else old.lookup "reader_lineage" := by
    rw [mergeUnder_of_nulled (Or.inl hr), overlay_deferred h (by decide)]
  constructor
  · intro hon
    by_cases hl : nulled payload "reader_lineage" = true
    · exact Or.inl hl
    · right
      rw [if_neg hl] at hlineage
      have hold : traces (old.lookup "reader_lineage") = [] := by
        refine List.eq_nil_iff_forall_not_mem.mpr fun key hkey => ?_
        have hmem := hon.named key (hlineage ▸ hkey)
        rw [hnone] at hmem
        cases hmem
      refine ⟨hold, List.eq_nil_iff_forall_not_mem.mpr fun key hkey => ?_⟩
      have hmem := hon.lineage (fun hnull => hl (nulled_iff.mpr hnull)) key hkey
      rw [hlineage, hold] at hmem
      cases hmem
  · intro hwell
    have hscalars : ∀ k ∈ readerScalarFields, k ∉ readerLists := by decide
    refine ⟨fun k hk => plain_mergeUnder h hk, ?_, ?_, ?_, ?_, ?_, ?_, ?_, ?_⟩
    · intro k hk
      rw [mergeUnder_of_nulled (Or.inl hr), lookup_overlay _ _ h, hk]
      rfl
    · intro hnull
      exact absurd (nulled_iff.mp hr) hnull
    · intro hl e he
      rw [hlineage, if_neg fun hnull => hl (nulled_iff.mp hnull)]
      exact he
    · intro hl key hkey
      rcases hwell with hnull | ⟨_, hnothing⟩
      · exact absurd (nulled_iff.mp hnull) hl
      · rw [hnothing] at hkey
        cases hkey
    · intro habsent
      rw [hlineage, if_neg (by simp [nulled_iff, habsent])]
    · intro habsent
      rw [nulled_iff, habsent] at hr
      cases hr
    · intro k hk
      rw [hnone, if_neg (by simp [itemsIn]), mergeUnder_of_nulled (Or.inl hr),
        overlay_asked h (hscalars k hk)]
    · intro key hkey
      rcases hwell with hnull | ⟨hnothing, _⟩
      · rw [hlineage, if_pos hnull] at hkey
        cases hkey
      · by_cases hl : nulled payload "reader_lineage" = true
        · rw [hlineage, if_pos hl] at hkey
          cases hkey
        · rw [hlineage, if_neg hl, hnothing] at hkey
          cases hkey

/-- A null on the lineage alone leaves the readers alone: the payload may add none, and
    no field may claim one of several. -/
theorem honours_of_lineage_nulled (hr : ¬ nulled payload "readers" = true)
    (hl : nulled payload "reader_lineage" = true) :
    Honours old payload (mergeUnder now old payload) ↔
      (∀ r ∈ stringsIn (payload.lookup "readers"), r ∈ stringsIn (old.lookup "readers")) ∧
        (1 < (itemsIn (old.lookup "readers")).length →
          ∀ k ∈ readerScalarFields, asked old payload k = none) := by
  have hnone : (mergeUnder now old payload).lookup "reader_lineage" = none := by
    rw [mergeUnder_of_nulled (Or.inr hl), overlay_deferred h (by decide), if_pos hl]
  have hreaders : (mergeUnder now old payload).lookup "readers" = old.lookup "readers" := by
    rw [mergeUnder_of_nulled (Or.inr hl), overlay_deferred h (by decide), if_neg hr]
  have hscalar : ∀ k ∈ readerScalarFields,
      (mergeUnder now old payload).lookup k = asked old payload k := by
    intro k hk
    have hscalars : ∀ k ∈ readerScalarFields, k ∉ readerLists := by decide
    rw [mergeUnder_of_nulled (Or.inr hl), overlay_asked h (hscalars k hk)]
  constructor
  · intro hon
    refine ⟨?_, ?_⟩
    · intro r hmem
      have hin := hon.readers (fun hnull => hr (nulled_iff.mpr hnull)) r (Or.inr hmem)
      rwa [hreaders] at hin
    · intro hmany k hk
      rw [← hscalar k hk, hon.scalars k hk, hreaders, if_pos hmany]
  · rintro ⟨hsub, hdropped⟩
    refine ⟨fun k hk => plain_mergeUnder h hk, ?_, ?_, ?_, ?_, ?_, ?_, ?_, ?_⟩
    · intro k hk
      rw [mergeUnder_of_nulled (Or.inr hl), lookup_overlay _ _ h, hk]
      rfl
    · intro _ r hmem
      rw [hreaders]
      rcases hmem with hold | hnew
      · exact hold
      · exact hsub r hnew
    · intro hnull
      exact absurd (nulled_iff.mp hl) hnull
    · intro hnull
      exact absurd (nulled_iff.mp hl) hnull
    · intro habsent
      rw [nulled_iff, habsent] at hl
      cases hl
    · intro _ habsent
      rw [nulled_iff, habsent] at hl
      cases hl
    · intro k hk
      rw [hscalar k hk, hreaders]
      split
      · exact hdropped ‹_› k hk
      · rfl
    · intro key hkey
      rw [hnone] at hkey
      cases hkey

section Joined

variable (hr : ¬ nulled payload "readers" = true) (hl : ¬ nulled payload "reader_lineage" = true)

include hr hl

theorem nulls_mergeUnder {k : String} (hk : payload.lookup k = some .null) :
    (mergeUnder now old payload).lookup k = none := by
  by_cases hfield : k ∈ readerFields
  · rcases List.mem_append.mp hfield with hlist | hscalar
    · rcases List.mem_cons.mp hlist with rfl | hlist
      · exact absurd (nulled_iff.mpr hk) hr
      · rw [List.mem_singleton.mp hlist] at hk
        exact absurd (nulled_iff.mpr hk) hl
    · rw [scalars_mergeUnder h hr hl hscalar, asked_of_null hk]
      split <;> rfl
  · rw [plain_mergeUnder h hfield, asked_of_null hk]

theorem honours_of_lineage {items : List Value}
    (hitems : payload.lookup "reader_lineage" = some (.arr items)) :
    Honours old payload (mergeUnder now old payload) := by
  have hreaders : (mergeUnder now old payload).lookup "readers"
      = leadWith (unionLineage (foundLineage now old payload) (stringsOf items))
          (joinReaders payload (old.lookup "readers")) := readers_of_lineage h hr hl hitems
  have hlineage : (mergeUnder now old payload).lookup "reader_lineage"
      = some (texts (unionLineage (foundLineage now old payload) (stringsOf items))) :=
    lineage_of_lineage hr hl hitems
  refine ⟨fun k hk => plain_mergeUnder h hk, fun k hk => nulls_mergeUnder h hr hl hk, ?_, ?_, ?_,
    ?_, ?_, fun k hk => scalars_mergeUnder h hr hl hk, ?_⟩
  · intro _ r hmem
    rw [hreaders, mem_leadWith, mem_joinReaders]
    exact Or.inr hmem
  · intro _ e he
    rw [hlineage, stringsIn_texts]
    exact mem_unionLineage_left (mem_foundLineage h hl he)
  · intro _ key hkey
    rw [hitems] at hkey
    rw [hlineage]
    unfold traces
    rw [stringsIn_texts, mem_traces_unionLineage]
    exact Or.inr hkey
  · intro habsent
    rw [habsent] at hitems
    cases hitems
  · intro _ habsent
    rw [habsent] at hitems
    cases hitems
  · intro key hkey
    rw [hlineage] at hkey
    unfold traces at hkey
    rw [stringsIn_texts] at hkey
    rw [hreaders, mem_leadWith, mem_readersFromLineage]
    exact Or.inl ⟨key, hkey, rfl⟩

theorem honours_of_none (hnone : ∀ items, payload.lookup "reader_lineage" ≠ some (.arr items)) :
    Honours old payload (mergeUnder now old payload) ↔
      ∀ key ∈ traces (old.lookup "reader_lineage"),
        key.2 ∈ stringsIn (old.lookup "readers") ∨
          key.2 ∈ stringsIn (payload.lookup "readers") := by
  have hreaders : (mergeUnder now old payload).lookup "readers"
      = joinReaders payload (old.lookup "readers") := readers_of_none h hr hl hnone
  have hlineage : (mergeUnder now old payload).lookup "reader_lineage"
      = old.lookup "reader_lineage" := lineage_of_none h hr hl hnone
  have hstrings : stringsIn (payload.lookup "reader_lineage") = [] := by
    unfold stringsIn
    split
    · exact absurd ‹_› (hnone _)
    · rfl
  constructor
  · intro hon key hkey
    have hmem := hon.named key (hlineage ▸ hkey)
    rwa [hreaders, mem_joinReaders] at hmem
  · intro hnamed
    refine ⟨fun k hk => plain_mergeUnder h hk, fun k hk => nulls_mergeUnder h hr hl hk, ?_, ?_, ?_,
      ?_, ?_, fun k hk => scalars_mergeUnder h hr hl hk, ?_⟩
    · intro _ r hmem
      rw [hreaders, mem_joinReaders]
      exact hmem
    · intro _ e he
      rw [hlineage]
      exact he
    · intro _ key hkey
      unfold traces at hkey
      rw [hstrings] at hkey
      cases hkey
    · exact fun _ => hlineage
    · intro habsent _
      rw [hreaders]
      unfold joinReaders
      rw [habsent]
    · intro key hkey
      rw [hreaders, mem_joinReaders]
      exact hnamed key (hlineage ▸ hkey)

end Joined

/-- **When the merge does what is owed**: it honours every key of the payload, and merging
    the payload again changes nothing, exactly for these. -/
theorem honours_iff (now' : String) :
    (Honours old payload (mergeUnder now old payload) ∧ Settled now now' old payload) ↔
      MergesWell old payload := by
  unfold MergesWell
  by_cases hr : nulled payload "readers" = true
  · rw [if_pos hr, honours_of_readers_nulled h hr]
    exact and_iff_left (settled_of_nulled h (Or.inl hr))
  · rw [if_neg hr]
    by_cases hl : nulled payload "reader_lineage" = true
    · rw [if_pos hl, honours_of_lineage_nulled h hr hl]
      exact and_iff_left (settled_of_nulled h (Or.inr hl))
    · rw [if_neg hl]
      by_cases hitems : ∃ items, payload.lookup "reader_lineage" = some (.arr items)
      · obtain ⟨items, hitems⟩ := hitems
        rw [hitems]
        exact (and_iff_right (honours_of_lineage h hr hl hitems)).trans
          (settled_iff h hr hl hitems)
      · have hnone : ∀ items, payload.lookup "reader_lineage" ≠ some (.arr items) :=
          fun items hi => hitems ⟨items, hi⟩
        rw [honours_of_none h hr hl hnone, and_iff_left (settled_of_none h hr hl hnone)]
        cases hv : payload.lookup "reader_lineage" with
        | none => rfl
        | some v =>
            cases v with
            | arr items => exact absurd hv (hnone items)
            | _ => rfl

end Honours

/-- A second reader joins the first, and its single-reader field goes. -/
theorem secondReader_honoured :
    Honours [("readers", texts ["a"]), ("reader_model", .str "a")]
        [("readers", texts ["b"]), ("title", .null)]
        (mergeUnder "" [("readers", texts ["a"]), ("reader_model", .str "a")]
          [("readers", texts ["b"]), ("title", .null)]) ∧
      Settled "" "" [("readers", texts ["a"]), ("reader_model", .str "a")]
        [("readers", texts ["b"]), ("title", .null)] := by
  refine (honours_iff (by decide) "").mpr ?_
  unfold MergesWell
  intro key hkey
  cases hkey

/-- A payload that takes the lineage out loses the reader it brings. -/
theorem lineageNulled_drops_reader :
    ¬ Honours [("readers", texts ["a"])]
      [("reader_lineage", .null), ("readers", texts ["b"])]
      (mergeUnder "" [("readers", texts ["a"])]
        [("reader_lineage", .null), ("readers", texts ["b"])]) := by
  intro hon
  have hadded : "b" ∈ stringsIn (List.lookup "readers"
      [("reader_lineage", Value.null), ("readers", texts ["b"])]) := by decide +kernel
  have hmem := hon.readers (by rintro ⟨⟩) "b" (Or.inr hadded)
  revert hmem
  decide +kernel

end Write
