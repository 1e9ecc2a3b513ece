import Daftari.Frontmatter.FidelityProofs

/-! # One key at a time — what a write leaves under a key

    A write re-serialises a whole record, but what it leaves under one key comes
    from what the record has under that key and from nothing else.

    * `toRaw_coerce_congr`: the typed value of a built-in field;
    * `serializedFields_congr`: **the written block, key by key**. -/

namespace Frontmatter

variable (json : Value → String) (extensions : List SchemaExtension)
variable {fm fm' raw raw' : Raw} {k : String}

theorem toRaw_coerce_congr (hk : k ∈ builtinFields) (h : raw.lookup k = raw'.lookup k) :
    (coerce json raw).toRaw.lookup k = (coerce json raw').toRaw.lookup k := by
  have hstring : (requireString raw k).1 = (requireString raw' k).1 := by
    unfold requireString
    rw [h]
  have henum : ∀ {α : Type} [Choice α] (fallback : α),
      (requireEnum json raw k fallback).1 = (requireEnum json raw' k fallback).1 := by
    intro α _ fallback
    unfold requireEnum
    rw [h]
  have hdate : (requireDate raw k).1 = (requireDate raw' k).1 := by
    unfold requireDate
    rw [h]
  have hword : ∀ {α : Type} [Choice α],
      (optionalEnum json raw k : Checked (Option α)).1 = (optionalEnum json raw' k).1 := by
    intro α _
    unfold optionalEnum
    rw [h]
  have htexts : (optionalStringArray raw k).1 = (optionalStringArray raw' k).1 := by
    unfold optionalStringArray
    rw [h]
  have htext : (optionalString raw k).1 = (optionalString raw' k).1 := by
    unfold optionalString
    rw [h]
  have hday : (optionalDate raw k).1 = (optionalDate raw' k).1 := by
    unfold optionalDate
    rw [h]
  have hmoment : (optionalTimestamp raw k).1 = (optionalTimestamp raw' k).1 := by
    unfold optionalTimestamp
    rw [h]
  have hnumber : (optionalNumber raw k).1 = (optionalNumber raw' k).1 := by
    unfold optionalNumber
    rw [h]
  have hboolean : (optionalBoolean json raw k).1 = (optionalBoolean json raw' k).1 := by
    unfold optionalBoolean
    rw [h]
  have hpositions : (optionalPositions raw k).1 = (optionalPositions raw' k).1 := by
    unfold optionalPositions
    rw [h]
  have horg : (optionalOrgPosition raw k).1 = (optionalOrgPosition raw' k).1 :=
    congrArg Prod.fst (optionalOrgPosition_congr h)
  unfold builtinFields at hk
  simp only [List.mem_cons, List.not_mem_nil, or_false] at hk
  rcases hk with rfl | rfl | rfl | rfl | rfl | rfl | rfl | rfl | rfl | rfl | rfl | rfl | rfl
    | rfl | rfl | rfl | rfl | rfl | rfl | rfl | rfl | rfl | rfl | rfl | rfl | rfl | rfl
  · exact congrArg (fun t => some (Value.str t)) hstring
  · exact congrArg (fun t => some (Value.str (Choice.text t))) (henum Domain.accumulation)
  · exact congrArg (fun t => some (Value.str t)) hstring
  · exact congrArg (fun t => some (Value.str (Choice.text t))) (henum Status.draft)
  · exact congrArg (fun t => some (Value.str (Choice.text t))) (henum Confidence.low)
  · exact congrArg (fun t => some (Value.str t)) hdate
  · exact congrArg (fun t => some (Value.str t)) hdate
  · exact congrArg (fun t => some (Value.str t)) hstring
  · exact congrArg (fun t => some (Value.str (Choice.text t))) (henum Provenance.inferred)
  · exact congrArg (fun t => some (wordOrNull t)) (hword (α := Tier))
  · exact congrArg (fun t => some (wordOrNull t)) (hword (α := Criticality))
  · exact congrArg (fun t => some (texts t)) htexts
  · exact congrArg (fun t => some (textOrNull t)) htext
  · show some _ = some _
    rw [show (coerce json raw).ttlDays = (coerce json raw').ttlDays from hnumber]
  · exact congrArg (fun t => some (textOrNull t)) htext
  · exact congrArg (fun t => some (textOrNull t)) hday
  · exact congrArg (fun t => some (textOrNull t)) hday
  · exact congrArg (fun t => some (textOrNull t)) hmoment
  · exact congrArg (fun t => some (texts t)) htexts
  · exact congrArg (fun t => some (texts t)) htexts
  · exact congrArg (fun t => some (texts t)) htexts
  · exact congrArg (fun t => some (texts t)) htexts
  · exact congrArg (fun t => some (texts t)) htexts
  · exact congrArg (fun t => some (texts t)) htexts
  · rw [lookup_toRaw_positions, lookup_toRaw_positions]
    exact congrArg (fun t => some (positionsValue t)) hpositions
  · show some _ = some _
    rw [show (coerce json raw).orgPosition = (coerce json raw').orgPosition from horg]
  · show some _ = some _
    rw [show (coerce json raw).contested = (coerce json raw').contested from hboolean]

theorem emit_congr (h : fm.lookup k = fm'.lookup k) : emit fm k = emit fm' k := by
  unfold emit
  rw [h]

theorem lookup_extensionPart_of_ne (base raw : Raw) {ext : SchemaExtension}
    (h : k ≠ ext.field) : (extensionPart base [ext] raw).lookup k = base.lookup k := by
  unfold extensionPart
  rw [List.foldl_cons, List.foldl_nil]
  cases extensionValue raw ext with
  | none => rfl
  | some v => exact Assoc.lookup_set_of_ne _ _ h

theorem lookup_extensionPart_congr (h : raw.lookup k = raw'.lookup k) {base base' : Raw}
    (hbase : base.lookup k = base'.lookup k) : (extensionPart base extensions raw).lookup k
      = (extensionPart base' extensions raw').lookup k := by
  induction extensions generalizing base base' with
  | nil => exact hbase
  | cons ext extensions ih =>
      show (extensionPart (extensionPart base [ext] raw) extensions raw).lookup k
        = (extensionPart (extensionPart base' [ext] raw') extensions raw').lookup k
      apply ih
      by_cases hk : k = ext.field
      · subst hk
        have hvalue : extensionValue raw ext = extensionValue raw' ext := by
          unfold extensionValue
          rw [h]
        unfold extensionPart
        rw [List.foldl_cons, List.foldl_nil, List.foldl_cons, List.foldl_nil, hvalue]
        cases extensionValue raw' ext with
        | none => exact hbase
        | some v => exact (Assoc.lookup_set_self _ _ _).trans (Assoc.lookup_set_self _ _ _).symm
      · rw [lookup_extensionPart_of_ne base raw hk, lookup_extensionPart_of_ne base' raw' hk]
        exact hbase

/-- **What a write leaves under a key** comes from the typed and the raw value there. -/
theorem serializedFields_congr (hraw : (Assoc.keys raw).Nodup) (hraw' : (Assoc.keys raw').Nodup)
    (hfm : k ∈ builtinFields → fm.lookup k = fm'.lookup k) (h : raw.lookup k = raw'.lookup k) :
    (serializedFields fm extensions raw).lookup k
      = (serializedFields fm' extensions raw').lookup k := by
  by_cases hk : k ∈ builtinFields
  · have hemit := emit_congr (hfm hk)
    rcases emit_eq fm k with he | ⟨v, he⟩
    · rw [lookup_preserved fm extensions hraw hk he,
        lookup_preserved fm' extensions hraw' hk (hemit ▸ he), h]
    · rw [lookup_serializedFields fm extensions raw hk he,
        lookup_serializedFields fm' extensions raw' hk (hemit ▸ he)]
  · have hbase : (extensionPart (builtinPart fm) extensions raw).lookup k
        = (extensionPart (builtinPart fm') extensions raw').lookup k := by
      apply lookup_extensionPart_congr extensions h
      rw [lookup_builtinPart_of_not_mem hk, lookup_builtinPart_of_not_mem hk]
    unfold serializedFields
    by_cases hdeclared : k ∈ extensions.map SchemaExtension.field
    · rw [lookup_restPart _ (List.mem_append_right _ hdeclared),
        lookup_restPart _ (List.mem_append_right _ hdeclared), hbase]
    · have hhandled : ∀ fm : Raw, k ∉ Assoc.keys (builtinPart fm)
          ++ extensions.map SchemaExtension.field := by
        intro fm hmem
        rcases List.mem_append.mp hmem with hmem | hmem
        · exact hk (mem_of_mem_keys_flatMap fm hmem)
        · exact hdeclared hmem
      rw [lookup_restPart_of_not_handled _ (hhandled fm) hraw,
        lookup_restPart_of_not_handled _ (hhandled fm') hraw', h, hbase]

theorem lookup_extensionPart_list {items : List Value} (h : raw.lookup k = some (.arr items))
    (base : Raw) : (extensionPart base extensions raw).lookup k
      = if k ∈ extensions.map SchemaExtension.field then some (.arr items) else base.lookup k := by
  induction extensions generalizing base with
  | nil => rfl
  | cons ext extensions ih =>
      show (extensionPart (extensionPart base [ext] raw) extensions raw).lookup k = _
      rw [ih]
      by_cases hk : k = ext.field
      · subst hk
        have hvalue : extensionValue raw ext = some (.arr items) := by
          unfold extensionValue
          rw [h]
          cases ext.type <;> rfl
        have hwritten : (extensionPart base [ext] raw).lookup ext.field
            = some (.arr items) := by
          unfold extensionPart
          rw [List.foldl_cons, List.foldl_nil, hvalue]
          exact Assoc.lookup_set_self _ _ _
        rw [hwritten, List.map_cons, if_pos List.mem_cons_self]
        split <;> rfl
      · rw [lookup_extensionPart_of_ne base raw hk, List.map_cons]
        simp only [List.mem_cons, hk, false_or]

/-- **A list under a key that is not built in is written as it is.** -/
theorem lookup_further_list {items : List Value} (hraw : (Assoc.keys raw).Nodup)
    (hk : k ∉ builtinFields) (h : raw.lookup k = some (.arr items)) :
    (serializedFields fm extensions raw).lookup k = some (.arr items) := by
  unfold serializedFields
  by_cases hdeclared : k ∈ extensions.map SchemaExtension.field
  · rw [lookup_restPart _ (List.mem_append_right _ hdeclared),
      lookup_extensionPart_list extensions h, if_pos hdeclared]
  · have hhandled : k ∉ Assoc.keys (builtinPart fm)
        ++ extensions.map SchemaExtension.field := by
      intro hmem
      rcases List.mem_append.mp hmem with hmem | hmem
      · exact hk (mem_of_mem_keys_flatMap fm hmem)
      · exact hdeclared hmem
    rw [lookup_restPart_of_not_handled _ hhandled hraw, h]
    rfl

end Frontmatter
