import Daftari.Frontmatter.ReadingProofs

/-! # Fidelity — which values come through a re-serialisation

    A write rebuilds the block from the typed frontmatter and copies the rest of the
    old record after it.  A value the validator replaced comes back as its
    replacement, unless the field is one the serializer leaves out.

    * `Value.canon`, `sameAs`: values up to the order of an object's members;
    * `comesThrough_iff`: **a built-in value comes through exactly when its field's
      reading keeps it**. -/

namespace Frontmatter

/-! ## The same value -/

/-- An object's member put before the first one with a larger key. -/
def insertMember (e : String × Value) : List (String × Value) → List (String × Value)
  | [] => [e]
  | e' :: rest => if e.1 < e'.1 then e :: e' :: rest else e' :: insertMember e rest

-- Objects have no order of their members; the canonical form sorts them, at every depth.
mutual
def Value.canon : Value → Value
  | .null => .null
  | .bool b => .bool b
  | .num text finite => .num text finite
  | .str s => .str s
  | .date iso => .date iso
  | .arr items => .arr (canonItems items)
  | .obj fields => .obj (canonMembers fields)

def canonItems : List Value → List Value
  | [] => []
  | v :: rest => Value.canon v :: canonItems rest

def canonMembers : List (String × Value) → List (String × Value)
  | [] => []
  | (k, v) :: rest => insertMember (k, Value.canon v) (canonMembers rest)
end

attribute [local simp] Value.canon canonItems canonMembers

/-- Equal up to the order of members. -/
def Value.sameAs (a b : Value) : Bool := a.canon = b.canon

/-- A value read back with the same value, a parsed date as its day. -/
def comesThrough (v w : Value) : Bool :=
  w.sameAs v || w = writtenValue v

variable (v : Value)

theorem comesThrough_self : comesThrough v v = true := by
  simp [comesThrough, Value.sameAs]

theorem comesThrough_written : comesThrough v (writtenValue v) = true := by
  simp [comesThrough]

theorem comesThrough_null {v : Value} (h : v ≠ .null) : comesThrough v .null = false := by
  cases v with
  | null => exact absurd rfl h
  | _ => simp [comesThrough, Value.sameAs, Value.canon, writtenValue]

theorem comesThrough_str (t : String) :
    comesThrough v (.str t) = decide (writtenValue v = .str t) := by
  cases v <;> simp [comesThrough, Value.sameAs, Value.canon, writtenValue, eq_comm]

theorem canonItems_eq_texts (items : List Value) (l : List String) :
    canonItems items = l.map Value.str ↔ items = l.map Value.str := by
  induction items generalizing l with
  | nil => simp [canonItems]
  | cons v items ih =>
      cases l with
      | nil => simp [canonItems]
      | cons s l =>
          have hv : v.canon = .str s ↔ v = .str s := by
            cases v <;> simp [Value.canon]
          simp only [canonItems, List.map_cons, List.cons.injEq, hv, ih]

theorem canonItems_texts (l : List String) : canonItems (l.map Value.str) = l.map Value.str :=
  (canonItems_eq_texts _ l).mpr rfl

theorem comesThrough_texts (l : List String) : comesThrough v (texts l) = decide (v = texts l) := by
  cases v with
  | arr items =>
      have hsame := canonItems_eq_texts items l
      simp only [comesThrough, Value.sameAs, Value.canon, writtenValue, texts,
        canonItems_texts, Value.arr.injEq, eq_comm (a := l.map Value.str), hsame, Bool.or_self]
  | _ => simp [comesThrough, Value.sameAs, Value.canon, writtenValue, texts]

theorem comesThrough_arr (items : List Value) :
    comesThrough v (.arr items) = (Value.arr items).sameAs v := by
  cases v with
  | arr old =>
      by_cases h : items = old
      · simp [comesThrough, Value.sameAs, h]
      · simp [comesThrough, writtenValue, h]
  | _ => simp [comesThrough, writtenValue]

theorem comesThrough_obj (fields : List (String × Value)) :
    comesThrough v (.obj fields) = (Value.obj fields).sameAs v := by
  cases v with
  | obj old =>
      by_cases h : fields = old
      · simp [comesThrough, Value.sameAs, h]
      · simp [comesThrough, writtenValue, h]
  | _ => simp [comesThrough, writtenValue]

/-! ## What a field's reading keeps -/

def dayIs (t : String) : Value → Bool
  | .date iso => dateOnly iso = t
  | _ => false

/-- A required text: kept if it is a text. -/
def keepsText : Value → Bool
  | .str _ => true
  | v => dayIs "" v

/-- A required word: kept if it is on the list. -/
def keepsWord {α : Type} [Choice α] (fallback : α) : Value → Bool
  | .str s => (Choice.ofText s : Option α).isSome
  | v => dayIs (Choice.text fallback) v

/-- A required date: any text, or a parsed date. -/
def keepsDate : Value → Bool
  | .str _ | .date _ => true
  | _ => false

/-- A nullable word: kept if it is on the list. -/
def keepsNullableWord (α : Type) [Choice α] : Value → Bool
  | .str s => (Choice.ofText s : Option α).isSome
  | _ => false

/-- A nullable text that is always written. -/
def keepsNullableText : Value → Bool
  | .str _ => true
  | _ => false

def keepsNumber : Value → Bool
  | .num _ finite => finite
  | _ => false

/-- A list of texts: kept if every element is one. -/
def keepsTexts : Value → Bool
  | .arr items => items.all isString
  | _ => false

/-- `said_at`: a parsed date-time is cut to its day only at midnight; anything that
    is no date-time is copied. -/
def keepsTimestamp : Value → Bool
  | .date iso => timestampText iso = dateOnly iso
  | _ => true

/-- `amends`: a list without any text is copied. -/
def keepsAmends : Value → Bool
  | .arr items => items.all isString || (stringsOf items).isEmpty
  | _ => true

/-- `positions`: kept if the validated list is spelled as the old one; anything that
    is no list is copied. -/
def keepsPositions (v : Value) : Bool :=
  (positionsIn (some v)).all fun ps => (positionsValue (some ps)).sameAs v

/-- `org_position`, likewise. -/
def keepsOrgPosition (v : Value) : Bool :=
  (optionalOrgPosition [("org_position", v)] "org_position").1.all
    fun o => o.toValue.sameAs v

/-- What each built-in field's reading keeps.  `series` and `contested` keep
    everything: what they do not read is copied. -/
def fidelity : List (String × (Value → Bool)) :=
  [("title", keepsText), ("domain", keepsWord Domain.accumulation),
    ("collection", keepsText), ("status", keepsWord Status.draft),
    ("confidence", keepsWord Confidence.low), ("created", keepsDate),
    ("updated", keepsDate), ("updated_by", keepsText),
    ("provenance", keepsWord Provenance.inferred), ("tier", keepsNullableWord Tier),
    ("criticality", keepsNullableWord Criticality), ("sources", keepsTexts),
    ("superseded_by", keepsNullableText), ("ttl_days", keepsNumber),
    ("series", fun _ => true), ("valid_from", keepsDate), ("valid_until", keepsDate),
    ("said_at", keepsTimestamp), ("tags", keepsTexts), ("describes", keepsTexts),
    ("amends", keepsAmends), ("questions_answered", keepsTexts),
    ("questions_raised", keepsTexts), ("subjects", keepsTexts),
    ("positions", keepsPositions), ("org_position", keepsOrgPosition),
    ("contested", fun _ => true)]

/-- Whether a key's value survives the reading: it does under every key that is not built in. -/
def keeps (key : String) (v : Value) : Bool :=
  ((fidelity.lookup key).map fun f => f v).getD true

/-! ## Each family -/

section Families

variable (json : Value → String) {raw : Raw} {field : String} {v : Value}

theorem text_ne_of_ofText {α : Type} [Choice α] {s : String} (a : α)
    (h : (Choice.ofText s : Option α) = none) : s ≠ Choice.text a := by
  rintro rfl
  rw [Choice.ofText_text] at h
  cases h

theorem requireString_comesThrough (hv : raw.lookup field = some v) (hnull : v ≠ .null) :
    comesThrough v (.str (requireString raw field).1) = keepsText v := by
  unfold requireString
  rw [hv, comesThrough_str]
  cases v with
  | null => exact absurd rfl hnull
  | str s => by_cases hs : s = "" <;> simp [writtenValue, keepsText, hs]
  | _ => simp [writtenValue, keepsText, dayIs]

theorem requireEnum_comesThrough {α : Type} [Choice α] (fallback : α)
    (hv : raw.lookup field = some v) (hnull : v ≠ .null) :
    comesThrough v (.str (Choice.text (requireEnum json raw field fallback).1))
      = keepsWord fallback v := by
  unfold requireEnum
  rw [hv, comesThrough_str]
  cases v with
  | null => exact absurd rfl hnull
  | str s =>
      cases hs : (Choice.ofText s : Option α) with
      | none => simp [writtenValue, keepsWord, hs, text_ne_of_ofText fallback hs]
      | some a => simp [writtenValue, keepsWord, hs, Choice.text_of_ofText hs]
  | _ => simp [writtenValue, keepsWord, dayIs]

theorem requireDate_comesThrough (hv : raw.lookup field = some v) (hnull : v ≠ .null) :
    comesThrough v (.str (requireDate raw field).1) = keepsDate v := by
  unfold requireDate
  rw [hv, comesThrough_str]
  cases v with
  | null => exact absurd rfl hnull
  | str s => by_cases hs : normalizeIsoDate s = some s <;> simp [writtenValue, keepsDate, hs]
  | _ => simp [writtenValue, keepsDate]

theorem optionalEnum_comesThrough {α : Type} [Choice α]
    (hv : raw.lookup field = some v) (hnull : v ≠ .null) :
    comesThrough v (wordOrNull (optionalEnum json raw field : Checked (Option α)).1)
      = keepsNullableWord α v := by
  rw [optionalEnum_fst, hv]
  cases v with
  | null => exact absurd rfl hnull
  | str s =>
      have hread : (asChoice (some (.str s)) : Option α) = Choice.ofText s := rfl
      rw [hread]
      cases hs : (Choice.ofText s : Option α) with
      | none =>
          rw [wordOrNull, comesThrough_null hnull]
          simp [keepsNullableWord, hs]
      | some a =>
          rw [wordOrNull, comesThrough_str]
          simp [writtenValue, keepsNullableWord, hs, Choice.text_of_ofText hs]
  | _ => exact comesThrough_null hnull

theorem optionalString_comesThrough (hv : raw.lookup field = some v) (hnull : v ≠ .null) :
    comesThrough v (textOrNull (optionalString raw field).1) = keepsNullableText v := by
  rw [optionalString_fst, hv]
  cases v with
  | null => exact absurd rfl hnull
  | str s => exact comesThrough_self _
  | _ => exact comesThrough_null hnull

theorem optionalDate_comesThrough (hv : raw.lookup field = some v) (hnull : v ≠ .null) :
    comesThrough v (textOrNull (optionalDate raw field).1) = keepsDate v := by
  unfold optionalDate
  rw [hv]
  cases v with
  | null => exact absurd rfl hnull
  | str s => exact comesThrough_self _
  | date iso => exact comesThrough_written (.date iso)
  | _ => exact comesThrough_null hnull

theorem texts_stringsOf (items : List Value) :
    Value.arr items = texts (stringsOf items) ↔ items.all isString = true := by
  unfold texts
  rw [Value.arr.injEq]
  induction items with
  | nil => simp [stringsOf]
  | cons v items ih =>
      cases v with
      | str s => simpa [stringsOf, isString] using ih
      | _ =>
          -- an element that is no text is missing on the right
          simp only [List.all_cons, isString, Bool.false_and, Bool.false_eq_true, iff_false]
          intro h
          have hmem := congrArg (fun l : List Value => l.all isString) h
          simp [isString, List.all_map, Function.comp_def] at hmem

theorem optionalStringArray_comesThrough (hv : raw.lookup field = some v) (hnull : v ≠ .null) :
    comesThrough v (texts (optionalStringArray raw field).1) = keepsTexts v := by
  unfold optionalStringArray
  rw [hv, comesThrough_texts]
  cases v with
  | null => exact absurd rfl hnull
  | arr items =>
      rw [Bool.eq_iff_iff, decide_eq_true_iff]
      exact texts_stringsOf items
  | _ => simp [keepsTexts, texts]

theorem optionalNumber_comesThrough (hv : raw.lookup field = some v) (hnull : v ≠ .null) :
    comesThrough v (match (optionalNumber raw field).1 with
      | none => .null
      | some text => .num text true) = keepsNumber v := by
  unfold optionalNumber
  rw [hv]
  cases v with
  | null => exact absurd rfl hnull
  | num text finite =>
      cases finite with
      | true => exact comesThrough_self _
      | false => exact comesThrough_null hnull
  | _ => exact comesThrough_null hnull

end Families

/-! ## Fields that are left out when they are not set -/

/-- What is written for a built-in field with the typed value `t` over the old value `v`. -/
def writtenOver (emission : Emission) (t v : Value) : Value :=
  match emission with
  | .always => t
  | .whenSet => if t = .null then writtenValue v else t
  | .whenNonempty => if lengthPositive t then t else writtenValue v

theorem comesThrough_whenSet (t v : Value) :
    comesThrough v (writtenOver .whenSet t v) = (decide (t = .null) || comesThrough v t) := by
  unfold writtenOver
  by_cases ht : t = .null
  · simp [ht, comesThrough_written]
  · simp [ht]

section Families

variable (json : Value → String) {raw : Raw} {field : String} {v : Value}

theorem series_comesThrough (hv : raw.lookup field = some v) :
    comesThrough v (writtenOver .whenSet (textOrNull (optionalString raw field).1) v) = true := by
  rw [comesThrough_whenSet, optionalString_fst, hv]
  cases v with
  | str s =>
      rw [asString_str, textOrNull, comesThrough_self]
      rfl
  | _ => rfl

theorem contested_comesThrough (hv : raw.lookup field = some v) :
    comesThrough v (writtenOver .whenSet (match (optionalBoolean json raw field).1 with
      | none => .null
      | some b => .bool b) v) = true := by
  rw [comesThrough_whenSet]
  unfold optionalBoolean
  rw [hv]
  cases v with
  | bool b =>
      show (decide (Value.bool b = .null) || comesThrough (.bool b) (.bool b)) = true
      rw [comesThrough_self, Bool.or_true]
  | _ => rfl

theorem timestamp_comesThrough (hv : raw.lookup field = some v) :
    comesThrough v (writtenOver .whenSet (textOrNull (optionalTimestamp raw field).1) v)
      = keepsTimestamp v := by
  rw [comesThrough_whenSet]
  unfold optionalTimestamp
  rw [hv]
  cases v with
  | str s =>
      show (decide (Value.str s = .null) || comesThrough (.str s) (.str s)) = true
      rw [comesThrough_self, Bool.or_true]
  | date iso => simp [textOrNull, comesThrough_str, writtenValue, keepsTimestamp, eq_comm]
  | _ => rfl

theorem lengthPositive_texts (l : List String) : lengthPositive (texts l) = !l.isEmpty := by
  cases l <;> rfl

theorem amends_comesThrough (hv : raw.lookup field = some v) (hnull : v ≠ .null) :
    comesThrough v (writtenOver .whenNonempty (texts (optionalStringArray raw field).1) v)
      = keepsAmends v := by
  have hcome := optionalStringArray_comesThrough hv hnull
  unfold writtenOver
  rw [lengthPositive_texts]
  unfold optionalStringArray at hcome ⊢
  rw [hv] at hcome ⊢
  cases v with
  | null => exact absurd rfl hnull
  | arr items =>
      show comesThrough _ (if !(stringsOf items).isEmpty then texts (stringsOf items)
        else writtenValue (.arr items)) = (items.all isString || (stringsOf items).isEmpty)
      cases (stringsOf items).isEmpty with
      | true =>
          rw [Bool.or_true]
          exact comesThrough_written _
      | false =>
          rw [Bool.or_false]
          exact hcome
  | _ => exact comesThrough_written _

theorem positions_comesThrough (hv : raw.lookup "positions" = some v) :
    comesThrough v (writtenOver .whenSet
      (positionsValue (optionalPositions raw "positions").1) v) = keepsPositions v := by
  rw [comesThrough_whenSet, optionalPositions_fst, hv]
  unfold keepsPositions
  cases hps : positionsIn (some v) with
  | none => rfl
  | some ps =>
      show (decide (Value.arr _ = .null) || comesThrough v (.arr _)) = _
      rw [comesThrough_arr]
      simp [positionsValue]

theorem optionalOrgPosition_congr {raw' : Raw} (h : raw.lookup field = raw'.lookup field) :
    optionalOrgPosition raw field = optionalOrgPosition raw' field := by
  unfold optionalOrgPosition
  rw [h]

theorem orgPosition_comesThrough (hv : raw.lookup "org_position" = some v) :
    comesThrough v (writtenOver .whenSet
      (match (optionalOrgPosition raw "org_position").1 with
        | none => .null
        | some o => o.toValue) v) = keepsOrgPosition v := by
  have hsame : raw.lookup "org_position"
      = List.lookup "org_position" [("org_position", v)] := hv
  rw [comesThrough_whenSet, optionalOrgPosition_congr hsame]
  unfold keepsOrgPosition
  cases (optionalOrgPosition [("org_position", v)] "org_position").1 with
  | none => rfl
  | some o =>
      show (decide (Value.obj _ = .null) || comesThrough v (.obj _)) = _
      rw [comesThrough_obj]
      simp [OrgPosition.toValue]

end Families

/-! ## Every key -/

section Written

variable (json : Value → String) (extensions : List SchemaExtension)
variable {fm raw : Raw} {k : String} {t v : Value}

theorem lookup_writtenOver (hraw : (Assoc.keys raw).Nodup) (hk : k ∈ builtinFields)
    (ht : fm.lookup k = some t) (hv : raw.lookup k = some v) (hnull : v ≠ .null) :
    (serializedFields fm extensions raw).lookup k = some (writtenOver (emission k) t v) := by
  have hthere : missing (raw.lookup k) = false := by
    rw [hv]
    cases v with
    | null => exact absurd rfl hnull
    | _ => rfl
  -- what the typed block leaves out comes from the old record
  have hcopied (he : emit fm k = []) :
      (serializedFields fm extensions raw).lookup k = some (writtenValue v) := by
    rw [lookup_preserved fm extensions hraw hk he, hthere, hv]
    rfl
  cases hemission : emission k with
  | always =>
      rw [lookup_always extensions fm raw hk hemission, ht]
      rfl
  | whenSet =>
      unfold writtenOver
      by_cases hset : t = .null
      · rw [if_pos hset]
        apply hcopied
        unfold emit
        rw [hemission, ht, hset]
      · rw [if_neg hset]
        apply lookup_serializedFields fm extensions raw hk
        unfold emit
        rw [hemission, ht]
        cases t with
        | null => exact absurd rfl hset
        | _ => rfl
  | whenNonempty =>
      unfold writtenOver
      cases hlength : lengthPositive t with
      | true =>
          apply lookup_serializedFields fm extensions raw hk
          unfold emit
          rw [hemission, ht]
          exact if_pos hlength
      | false =>
          apply hcopied
          unfold emit
          rw [hemission, ht]
          dsimp only
          rw [hlength]
          rfl

/-- The typed value of a built-in field comes through exactly when the field's
    reading keeps the old one. -/
theorem typed_comesThrough (hk : k ∈ builtinFields) (hv : raw.lookup k = some v)
    (hnull : v ≠ .null) : ∃ t, (coerce json raw).toRaw.lookup k = some t
      ∧ comesThrough v (writtenOver (emission k) t v) = keeps k v := by
  unfold builtinFields at hk
  simp only [List.mem_cons, List.not_mem_nil, or_false] at hk
  rcases hk with rfl | rfl | rfl | rfl | rfl | rfl | rfl | rfl | rfl | rfl | rfl | rfl | rfl
    | rfl | rfl | rfl | rfl | rfl | rfl | rfl | rfl | rfl | rfl | rfl | rfl | rfl | rfl
  · exact ⟨_, rfl, requireString_comesThrough hv hnull⟩
  · exact ⟨_, rfl, requireEnum_comesThrough json _ hv hnull⟩
  · exact ⟨_, rfl, requireString_comesThrough hv hnull⟩
  · exact ⟨_, rfl, requireEnum_comesThrough json _ hv hnull⟩
  · exact ⟨_, rfl, requireEnum_comesThrough json _ hv hnull⟩
  · exact ⟨_, rfl, requireDate_comesThrough hv hnull⟩
  · exact ⟨_, rfl, requireDate_comesThrough hv hnull⟩
  · exact ⟨_, rfl, requireString_comesThrough hv hnull⟩
  · exact ⟨_, rfl, requireEnum_comesThrough json _ hv hnull⟩
  · exact ⟨_, rfl, optionalEnum_comesThrough json hv hnull⟩
  · exact ⟨_, rfl, optionalEnum_comesThrough json hv hnull⟩
  · exact ⟨_, rfl, optionalStringArray_comesThrough hv hnull⟩
  · exact ⟨_, rfl, optionalString_comesThrough hv hnull⟩
  · exact ⟨_, rfl, optionalNumber_comesThrough hv hnull⟩
  · exact ⟨_, rfl, series_comesThrough hv⟩
  · exact ⟨_, rfl, optionalDate_comesThrough hv hnull⟩
  · exact ⟨_, rfl, optionalDate_comesThrough hv hnull⟩
  · exact ⟨_, rfl, timestamp_comesThrough hv⟩
  · exact ⟨_, rfl, optionalStringArray_comesThrough hv hnull⟩
  · exact ⟨_, rfl, optionalStringArray_comesThrough hv hnull⟩
  · exact ⟨_, rfl, amends_comesThrough hv hnull⟩
  · exact ⟨_, rfl, optionalStringArray_comesThrough hv hnull⟩
  · exact ⟨_, rfl, optionalStringArray_comesThrough hv hnull⟩
  · exact ⟨_, rfl, optionalStringArray_comesThrough hv hnull⟩
  · exact ⟨_, lookup_toRaw_positions _, positions_comesThrough hv⟩
  · exact ⟨_, rfl, orgPosition_comesThrough hv⟩
  · exact ⟨_, rfl, contested_comesThrough json hv⟩

/-- **A built-in value comes through exactly when its field's reading keeps it.** -/
theorem comesThrough_iff (hraw : (Assoc.keys raw).Nodup) (hk : k ∈ builtinFields)
    (hfm : fm.lookup k = (coerce json raw).toRaw.lookup k) (hv : raw.lookup k = some v)
    (hnull : v ≠ .null) :
    (∃ w, (serializedFields fm extensions raw).lookup k = some w ∧ comesThrough v w = true)
      ↔ keeps k v = true := by
  obtain ⟨t, ht, hcome⟩ := typed_comesThrough json hk hv hnull
  rw [lookup_writtenOver extensions hraw hk (hfm.trans ht) hv hnull, ← hcome]
  simp

/-! ## Keys that are not built in -/

theorem lookup_extensionPart_of_missing (hmissing : missing (raw.lookup k) = true)
    (base : Raw) : (extensionPart base extensions raw).lookup k = base.lookup k := by
  induction extensions generalizing base with
  | nil => rfl
  | cons ext extensions ih =>
      unfold extensionPart
      rw [List.foldl_cons]
      cases hvalue : extensionValue raw ext with
      | none => exact ih base
      | some w =>
          have hne : k ≠ ext.field := by
            rintro rfl
            unfold extensionValue at hvalue
            generalize raw.lookup ext.field = old at hmissing hvalue
            match old, hmissing with
            | none, _ => cases hvalue
            | some .null, _ => cases hvalue
          exact (ih _).trans (Assoc.lookup_set_of_ne _ _ hne)

theorem extensionValue_comesThrough {ext : SchemaExtension} (hv : raw.lookup ext.field = some v)
    (hnull : v ≠ .null) : ∃ w, extensionValue raw ext = some w ∧ comesThrough v w = true := by
  unfold extensionValue
  rw [hv]
  cases v with
  | null => exact absurd rfl hnull
  | _ =>
      cases ext.type with
      | date => exact ⟨_, rfl, comesThrough_written _⟩
      | _ => exact ⟨_, rfl, comesThrough_self _⟩

theorem lookup_extensionPart_of_mem (hv : raw.lookup k = some v) (hnull : v ≠ .null)
    (base : Raw) (h : k ∈ extensions.map SchemaExtension.field
      ∨ ∃ w, base.lookup k = some w ∧ comesThrough v w = true) :
    ∃ w, (extensionPart base extensions raw).lookup k = some w ∧ comesThrough v w = true := by
  induction extensions generalizing base with
  | nil =>
      rcases h with h | h
      · cases h
      · exact h
  | cons ext extensions ih =>
      unfold extensionPart
      rw [List.foldl_cons]
      by_cases hk : k = ext.field
      · subst hk
        obtain ⟨w, hvalue, hcome⟩ := extensionValue_comesThrough hv hnull
        rw [hvalue]
        exact ih _ (Or.inr ⟨w, Assoc.lookup_set_self _ _ _, hcome⟩)
      · have hrest : k ∈ extensions.map SchemaExtension.field
            ∨ ∃ w, base.lookup k = some w ∧ comesThrough v w = true :=
          h.imp_left fun h => (List.mem_cons.mp h).resolve_left hk
        cases extensionValue raw ext with
        | none => exact ih base hrest
        | some w =>
            refine ih _ (hrest.imp_right ?_)
            rintro ⟨w', hw', hcome⟩
            exact ⟨w', (Assoc.lookup_set_of_ne _ _ hk).trans hw', hcome⟩

theorem lookup_builtinPart_of_not_mem (hk : k ∉ builtinFields) :
    (builtinPart fm).lookup k = none := by
  cases h : (builtinPart fm).lookup k with
  | none => rfl
  | some w =>
      have hmem := List.mem_map_of_mem (f := Prod.fst) (Assoc.mem_of_lookup h)
      exact absurd (mem_of_mem_keys_flatMap fm hmem) hk

/-- **Every value under a key that is not built in comes through**, whether the key
    is declared or not. -/
theorem lookup_further (hraw : (Assoc.keys raw).Nodup) (hk : k ∉ builtinFields)
    (hv : raw.lookup k = some v) (hnull : v ≠ .null) :
    ∃ w, (serializedFields fm extensions raw).lookup k = some w ∧ comesThrough v w = true := by
  unfold serializedFields
  by_cases hdeclared : k ∈ extensions.map SchemaExtension.field
  · rw [lookup_restPart _ (List.mem_append_right _ hdeclared)]
    exact lookup_extensionPart_of_mem extensions hv hnull _ (Or.inl hdeclared)
  · have hhandled : k ∉ Assoc.keys (builtinPart fm)
        ++ extensions.map SchemaExtension.field := by
      intro hmem
      rcases List.mem_append.mp hmem with h | h
      · exact hk (mem_of_mem_keys_flatMap fm h)
      · exact hdeclared h
    have hthere : missing (some v) = false := by
      cases v with
      | null => exact absurd rfl hnull
      | _ => rfl
    rw [lookup_restPart_of_not_handled _ hhandled hraw, hv, hthere]
    exact ⟨_, rfl, comesThrough_written v⟩

/-- **No key appears that is not built in.** -/
theorem lookup_further_missing (hraw : (Assoc.keys raw).Nodup) (hk : k ∉ builtinFields)
    (hmissing : missing (raw.lookup k) = true) :
    (serializedFields fm extensions raw).lookup k = none := by
  have hbase : (extensionPart (builtinPart fm) extensions raw).lookup k = none := by
    rw [lookup_extensionPart_of_missing extensions hmissing, lookup_builtinPart_of_not_mem hk]
  unfold serializedFields
  by_cases hhandled : k ∈ Assoc.keys (builtinPart fm) ++ extensions.map SchemaExtension.field
  · rw [lookup_restPart _ hhandled, hbase]
  · rw [lookup_restPart_of_not_handled _ hhandled hraw, hmissing, if_pos rfl, hbase]

/-! ## Built-in fields the old record had no value for -/

/-- What the typed block says of a field that is missing; null where it is not here. -/
def builtinDefaults : Raw :=
  [("title", .str ""), ("domain", .str "accumulation"), ("collection", .str ""),
    ("status", .str "draft"), ("confidence", .str "low"), ("created", .str ""),
    ("updated", .str ""), ("updated_by", .str ""), ("provenance", .str "inferred"),
    ("sources", .arr []), ("tags", .arr []), ("describes", .arr []), ("amends", .arr []),
    ("questions_answered", .arr []), ("questions_raised", .arr []), ("subjects", .arr [])]

theorem missing_cases {o : Option Value} (h : missing o = true) : o = none ∨ o = some .null := by
  match o, h with
  | none, _ => exact Or.inl rfl
  | some .null, _ => exact Or.inr rfl

theorem requireString_missing (h : missing (raw.lookup k) = true) :
    (requireString raw k).1 = "" := by
  unfold requireString
  rcases missing_cases h with h | h <;> rw [h]

theorem requireEnum_missing {α : Type} [Choice α] (fallback : α)
    (h : missing (raw.lookup k) = true) : (requireEnum json raw k fallback).1 = fallback := by
  unfold requireEnum
  rcases missing_cases h with h | h <;> rw [h]

theorem requireDate_missing (h : missing (raw.lookup k) = true) :
    (requireDate raw k).1 = "" := by
  unfold requireDate
  rcases missing_cases h with h | h <;> rw [h]

theorem optionalStringArray_missing (h : missing (raw.lookup k) = true) :
    (optionalStringArray raw k).1 = [] := by
  unfold optionalStringArray
  rcases missing_cases h with h | h <;> rw [h]

theorem optionalEnum_missing {α : Type} [Choice α] (h : missing (raw.lookup k) = true) :
    (optionalEnum json raw k : Checked (Option α)).1 = none := by
  unfold optionalEnum
  rcases missing_cases h with h | h <;> rw [h]

theorem optionalString_missing (h : missing (raw.lookup k) = true) :
    (optionalString raw k).1 = none := by
  unfold optionalString
  rcases missing_cases h with h | h <;> rw [h]

theorem optionalDate_missing (h : missing (raw.lookup k) = true) :
    (optionalDate raw k).1 = none := by
  unfold optionalDate
  rcases missing_cases h with h | h <;> rw [h]

theorem optionalTimestamp_missing (h : missing (raw.lookup k) = true) :
    (optionalTimestamp raw k).1 = none := by
  unfold optionalTimestamp
  rcases missing_cases h with h | h <;> rw [h]

theorem optionalNumber_missing (h : missing (raw.lookup k) = true) :
    (optionalNumber raw k).1 = none := by
  unfold optionalNumber
  rcases missing_cases h with h | h <;> rw [h]

theorem optionalBoolean_missing (h : missing (raw.lookup k) = true) :
    (optionalBoolean json raw k).1 = none := by
  unfold optionalBoolean
  rcases missing_cases h with h | h <;> rw [h]

theorem optionalPositions_missing (h : missing (raw.lookup k) = true) :
    (optionalPositions raw k).1 = none := by
  unfold optionalPositions
  rcases missing_cases h with h | h <;> rw [h]

theorem optionalOrgPosition_missing (h : missing (raw.lookup k) = true) :
    (optionalOrgPosition raw k).1 = none := by
  unfold optionalOrgPosition
  rcases missing_cases h with h | h <;> rw [h]

theorem typed_missing (hk : k ∈ builtinFields) (h : missing (raw.lookup k) = true) :
    (coerce json raw).toRaw.lookup k = some ((builtinDefaults.lookup k).getD .null) := by
  have text {s : String} : s = "" → some (Value.str s) = some (.str "") :=
    congrArg fun s => some (Value.str s)
  have word {α : Type} [Choice α] {a b : α} :
      a = b → some (Value.str (Choice.text a)) = some (.str (Choice.text b)) :=
    congrArg fun a => some (Value.str (Choice.text a))
  have list {l : List String} : l = [] → some (texts l) = some (.arr []) :=
    congrArg fun l => some (texts l)
  have nullableWord {α : Type} [Choice α] {a : Option α} :
      a = none → some (wordOrNull a) = some .null := congrArg fun a => some (wordOrNull a)
  have nullableText {s : Option String} : s = none → some (textOrNull s) = some .null :=
    congrArg fun s => some (textOrNull s)
  unfold builtinFields at hk
  simp only [List.mem_cons, List.not_mem_nil, or_false] at hk
  rcases hk with rfl | rfl | rfl | rfl | rfl | rfl | rfl | rfl | rfl | rfl | rfl | rfl | rfl
    | rfl | rfl | rfl | rfl | rfl | rfl | rfl | rfl | rfl | rfl | rfl | rfl | rfl | rfl
  · exact text (requireString_missing h)
  · exact word (requireEnum_missing json _ h)
  · exact text (requireString_missing h)
  · exact word (requireEnum_missing json _ h)
  · exact word (requireEnum_missing json _ h)
  · exact text (requireDate_missing h)
  · exact text (requireDate_missing h)
  · exact text (requireString_missing h)
  · exact word (requireEnum_missing json _ h)
  · exact nullableWord (optionalEnum_missing json h)
  · exact nullableWord (optionalEnum_missing json h)
  · exact list (optionalStringArray_missing h)
  · exact nullableText (optionalString_missing h)
  · exact congrArg (fun n : Option String => some (match n with
      | none => Value.null
      | some text => .num text true)) (optionalNumber_missing h)
  · exact nullableText (optionalString_missing h)
  · exact nullableText (optionalDate_missing h)
  · exact nullableText (optionalDate_missing h)
  · exact nullableText (optionalTimestamp_missing h)
  · exact list (optionalStringArray_missing h)
  · exact list (optionalStringArray_missing h)
  · exact list (optionalStringArray_missing h)
  · exact list (optionalStringArray_missing h)
  · exact list (optionalStringArray_missing h)
  · exact list (optionalStringArray_missing h)
  · rw [lookup_toRaw_positions]
    exact congrArg (fun ps => some (positionsValue ps)) (optionalPositions_missing h)
  · exact congrArg (fun o : Option OrgPosition => some (match o with
      | none => Value.null
      | some o => o.toValue)) (optionalOrgPosition_missing h)
  · exact congrArg (fun b : Option Bool => some (match b with
      | none => Value.null
      | some b => .bool b)) (optionalBoolean_missing json h)

theorem default_of_emission (hk : k ∈ builtinFields) :
    emission k = .always ∨ (emission k = .whenSet ∧ builtinDefaults.lookup k = none)
      ∨ (emission k = .whenNonempty ∧ builtinDefaults.lookup k = some (.arr [])) := by
  revert k
  decide

/-- **A built-in key the old record had no value for is written with its default, or as null.** -/
theorem lookup_fresh (hraw : (Assoc.keys raw).Nodup) (hk : k ∈ builtinFields)
    (hfm : fm.lookup k = (coerce json raw).toRaw.lookup k)
    (hmissing : missing (raw.lookup k) = true)
    (hv : (serializedFields fm extensions raw).lookup k = some v) (hnull : v ≠ .null) :
    builtinDefaults.lookup k = some v := by
  have ht := hfm.trans (typed_missing json hk hmissing)
  -- a field that is left out has nothing to be copied
  have hcopied (he : emit fm k = []) : False := by
    rw [lookup_preserved fm extensions hraw hk he, hmissing] at hv
    cases hv
  rcases default_of_emission hk with hemission | ⟨hemission, hdefault⟩ | ⟨hemission, hdefault⟩
  · rw [lookup_always extensions fm raw hk hemission, ht] at hv
    cases hdefault : builtinDefaults.lookup k with
    | none =>
        rw [hdefault] at hv
        exact absurd (Option.some.inj hv).symm hnull
    | some w =>
        rw [hdefault] at hv
        exact hv
  · refine (hcopied ?_).elim
    rw [hdefault] at ht
    unfold emit
    rw [hemission, ht]
    rfl
  · refine (hcopied ?_).elim
    rw [hdefault] at ht
    unfold emit
    rw [hemission, ht]
    rfl

end Written

end Frontmatter
