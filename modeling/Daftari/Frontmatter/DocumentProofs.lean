import Daftari.Frontmatter.SchemaProofs

/-! # Documents — parsing, serializing, what is read back

    A vault file is a frontmatter block and a body.  Its bytes are an abstract type here: the
    `Codec` is the frontmatter library under the parser and the serializer, with the one law the
    store rests on, that a block it wrote is read back with its fields and its body.

    * `lookup_serializedFields`, `lookup_preserved`: **what each field of a written block holds**;
    * `sameBody`: bodies up to leading line breaks and trailing white space, the equality the write
      tools use, and `normBody_written`. -/

namespace Frontmatter

/-! ## The library below -/

def startLine (body : List Char) : List Char :=
  match body with
  | '\n' :: _ => body
  | _ => '\n' :: body

def endLine (body : List Char) : List Char :=
  if body.getLast? = some '\n' then body else body ++ ['\n']

/-- `matter()` and `matter.stringify` over files of type `B`. -/
structure Codec (B : Type) where
  /-- The data and the content of a file, or why its YAML is malformed. -/
  parse : B → Except String (Raw × List Char)
  stringify : List Char → Raw → B
  byteLength : B → Nat
  /-- The data is an object: it has each key once. -/
  nodup_parse : ∀ b raw content, parse b = .ok (raw, content) →
    (Assoc.keys raw).Nodup
  /-- A block that was written is read back; the body gets its final line break.
      A body that starts with a line break is never taken for a block. -/
  parse_stringify : ∀ body data, (Assoc.keys data).Nodup → body.head? = some '\n' →
    parse (stringify body data) = .ok (data, endLine body)

structure PlainFile where
  data : Raw
  content : List Char
  nodup : (Assoc.keys data).Nodup
deriving DecidableEq

/-- The codec of files that are kept as their parts: the laws can be met. -/
def plainCodec : Codec PlainFile where
  parse file := .ok (file.data, file.content)
  stringify body data :=
    if h : (Assoc.keys data).Nodup then
      { data := data, content := endLine body, nodup := h }
    else { data := [], content := endLine body, nodup := List.nodup_nil }
  byteLength file := file.content.length
  nodup_parse file raw content h := by
    obtain ⟨rfl, rfl⟩ := Prod.mk.inj (Except.ok.inj h)
    exact file.nodup
  parse_stringify body data hnodup _ := by
    rw [dif_pos hnodup]

def maxParseBytes : Nat := 5 * 1024 * 1024

structure ParsedDocument where
  frontmatter : Fields
  content : List Char
  raw : Raw
  issues : List Issue

variable {B : Type}

def parseDocument (codec : Codec B) (json : Value → String) (source : B) :
    Except String ParsedDocument :=
  if maxParseBytes < codec.byteLength source then
    .error ("document too large to parse: " ++ toString (codec.byteLength source)
      ++ " bytes exceeds the " ++ toString maxParseBytes ++ "-byte cap")
  else
    match codec.parse source with
    | .error reason => .error ("malformed YAML frontmatter: " ++ reason)
    | .ok (raw, content) =>
        let checked := validateFrontmatter json raw []
        .ok { frontmatter := checked.1, content := content, raw := raw,
              issues := checked.2 }

theorem parse_of_parseDocument {codec : Codec B} {json : Value → String}
    {source : B} {doc : ParsedDocument} (h : parseDocument codec json source = .ok doc) :
    codec.parse source = .ok (doc.raw, doc.content) ∧ doc.frontmatter = coerce json doc.raw := by
  unfold parseDocument at h
  split at h
  · cases h
  · cases hp : codec.parse source with
    | error reason => simp only [hp, reduceCtorEq] at h
    | ok parsed =>
        simp only [hp, Except.ok.injEq] at h
        subst h
        exact ⟨rfl, rfl⟩

/-! ## Typed fields as values -/

def textOrNull : Option String → Value
  | none => .null
  | some s => .str s

/-- A nullable member of a closed list. -/
def wordOrNull {α : Type} [Choice α] : Option α → Value
  | none => .null
  | some a => .str (Choice.text a)

def texts (l : List String) : Value := .arr (l.map Value.str)

def Position.toValue (p : Position) : Value :=
  .obj [("id", .str p.id), ("principal", .str p.principal),
    ("stance", .str (Choice.text p.stance)), ("statement", textOrNull p.statement),
    ("confidence", .str (Choice.text p.confidence)),
    ("provenance", .str (Choice.text p.provenance)),
    ("valid_from", textOrNull p.validFrom),
    ("superseded_by", textOrNull p.supersededBy), ("created", .str p.created),
    ("sources", texts p.sources)]

def OrgPosition.toValue (o : OrgPosition) : Value :=
  .obj [("stance", .str (Choice.text o.stance)),
    ("confidence", .str (Choice.text o.confidence)),
    ("ratified_by", .str o.ratifiedBy), ("ratified_at", .str o.ratifiedAt),
    ("dissent", texts o.dissent)]

/-- The typed frontmatter as the object it is. -/
def Fields.toRaw (fm : Fields) : Raw :=
  [("title", .str fm.title), ("domain", .str (Choice.text fm.domain)),
    ("collection", .str fm.collection), ("status", .str (Choice.text fm.status)),
    ("confidence", .str (Choice.text fm.confidence)), ("created", .str fm.created),
    ("updated", .str fm.updated), ("updated_by", .str fm.updatedBy),
    ("provenance", .str (Choice.text fm.provenance)), ("tier", wordOrNull fm.tier),
    ("criticality", wordOrNull fm.criticality), ("sources", texts fm.sources),
    ("superseded_by", textOrNull fm.supersededBy),
    ("ttl_days", match fm.ttlDays with
      | none => .null
      | some text => .num text true),
    ("series", textOrNull fm.series), ("valid_from", textOrNull fm.validFrom),
    ("valid_until", textOrNull fm.validUntil), ("said_at", textOrNull fm.saidAt),
    ("tags", texts fm.tags), ("describes", texts fm.describes),
    ("amends", texts fm.amends),
    ("questions_answered", texts fm.questionsAnswered),
    ("questions_raised", texts fm.questionsRaised), ("subjects", texts fm.subjects),
    ("positions", match fm.positions with
      | none => .null
      | some ps => .arr (ps.map Position.toValue)),
    ("org_position", match fm.orgPosition with
      | none => .null
      | some o => o.toValue),
    ("contested", match fm.contested with
      | none => .null
      | some b => .bool b)]

/-! ## Serializing -/

/-- When a built-in field is written: always, when it is not null, or when it is not empty. -/
inductive Emission where
  | always
  | whenSet
  | whenNonempty
deriving DecidableEq

def emission (field : String) : Emission :=
  if field ∈ ["series", "said_at", "positions", "org_position", "contested"] then
    .whenSet
  else if field = "amends" then .whenNonempty
  else .always

/-- `v.length > 0`. -/
def lengthPositive : Value → Bool
  | .str s => s ≠ ""
  | .arr items => !items.isEmpty
  | _ => false

/-- What one built-in field contributes. -/
def emit (fm : Raw) (field : String) : Raw :=
  match emission field, fm.lookup field with
  | .always, v => [(field, v.getD .null)]
  | .whenSet, none | .whenSet, some .null => []
  | .whenSet, some v => [(field, v)]
  | .whenNonempty, none => []
  | .whenNonempty, some v => if lengthPositive v then [(field, v)] else []

def writtenValue : Value → Value
  | .date iso => .str (dateOnly iso)
  | v => v

def extensionValue (raw : Raw) (ext : SchemaExtension) : Option Value :=
  match raw.lookup ext.field with
  | none | some .null => none
  | some v =>
      match ext.type with
      | .date => some (writtenValue v)
      | _ => some v

/-- The built-in fields, in schema order. -/
def builtinPart (fm : Raw) : Raw := builtinFields.flatMap (emit fm)

/-- Then the declared extension fields, in declaration order. -/
def extensionPart (base : Raw) (extensions : List SchemaExtension) (raw : Raw) : Raw :=
  extensions.foldl
    (fun acc ext =>
      match extensionValue raw ext with
      | none => acc
      | some v => Assoc.set acc ext.field v) base

/-- Then whatever else the document carries, so that no write drops a field. -/
def restPart (base : Raw) (handled : List String) (raw : Raw) : Raw :=
  raw.foldl
    (fun acc e =>
      if e.1 ∈ handled ∨ missing (some e.2) then acc
      else Assoc.set acc e.1 (writtenValue e.2)) base

/-- The fields `serializeDocument` writes. -/
def serializedFields (fm : Raw) (extensions : List SchemaExtension) (raw : Raw) : Raw :=
  let ordered := builtinPart fm
  restPart (extensionPart ordered extensions raw)
    (Assoc.keys ordered ++ extensions.map SchemaExtension.field) raw

def serializeDocument (codec : Codec B) (fm : Raw) (body : List Char)
    (extensions : List SchemaExtension) (raw : Raw) : B :=
  codec.stringify (startLine body) (serializedFields fm extensions raw)

/-! ## Which fields a write carries -/

variable (fm : Raw)

theorem emit_eq (field : String) : emit fm field = [] ∨ ∃ v, emit fm field = [(field, v)] := by
  unfold emit
  split
  · exact Or.inr ⟨_, rfl⟩
  · exact Or.inl rfl
  · exact Or.inl rfl
  · exact Or.inr ⟨_, rfl⟩
  · exact Or.inl rfl
  · split
    · exact Or.inr ⟨_, rfl⟩
    · exact Or.inl rfl

theorem keys_emit (field : String) : ∀ k ∈ Assoc.keys (emit fm field), k = field := by
  intro k hk
  rcases emit_eq fm field with h | ⟨v, h⟩
  · rw [h] at hk
    cases hk
  · rw [h] at hk
    simpa [Assoc.keys] using hk

variable {field : String}

theorem lookup_emit_of_ne {k : String} (h : k ≠ field) (m : Raw) :
    (emit fm field ++ m).lookup k = m.lookup k := by
  rcases emit_eq fm field with he | ⟨v, he⟩
  · rw [he]
    rfl
  · rw [he]
    exact Assoc.lookup_cons_of_ne _ _ h

variable {fields : List String}

theorem mem_of_mem_keys_flatMap {k : String} (h : k ∈ Assoc.keys (fields.flatMap (emit fm))) :
    k ∈ fields := by
  obtain ⟨e, he, rfl⟩ := List.mem_map.mp h
  obtain ⟨field, hfield, hemit⟩ := List.mem_flatMap.mp he
  have hk := keys_emit fm field e.1 (List.mem_map_of_mem hemit)
  rw [hk]
  exact hfield

theorem nodup_flatMap_emit (h : fields.Nodup) : (Assoc.keys (fields.flatMap (emit fm))).Nodup := by
  induction fields with
  | nil => exact List.nodup_nil
  | cons field fields ih =>
      rw [List.nodup_cons] at h
      have hrest := ih h.2
      rw [List.flatMap_cons]
      rcases emit_eq fm field with he | ⟨v, he⟩
      · rw [he]
        exact hrest
      · rw [he]
        show (field :: Assoc.keys (fields.flatMap (emit fm))).Nodup
        rw [List.nodup_cons]
        exact ⟨fun hmem => h.1 (mem_of_mem_keys_flatMap fm hmem), hrest⟩

theorem lookup_flatMap_emit (h : fields.Nodup) (hf : field ∈ fields) :
    (fields.flatMap (emit fm)).lookup field = (emit fm field).lookup field := by
  induction fields with
  | nil => cases hf
  | cons f fields ih =>
      rw [List.nodup_cons] at h
      rw [List.flatMap_cons]
      rcases List.mem_cons.mp hf with rfl | hmem
      · rcases emit_eq fm field with he | ⟨v, he⟩
        · rw [he, List.nil_append]
          cases hl : (fields.flatMap (emit fm)).lookup field with
          | none => rfl
          | some v =>
              have hk : field ∈ Assoc.keys (fields.flatMap (emit fm)) :=
                List.mem_map_of_mem (f := Prod.fst) (Assoc.mem_of_lookup hl)
              exact absurd (mem_of_mem_keys_flatMap fm hk) h.1
        · rw [he]
          simp
      · have hne : field ≠ f := by
          intro he
          exact h.1 (he ▸ hmem)
        rw [lookup_emit_of_ne fm hne]
        exact ih h.2 hmem

theorem nodup_builtinFields : builtinFields.Nodup := by decide

theorem lookup_extensionPart (raw : Raw) (extensions : List SchemaExtension)
    (hf : field ∈ builtinFields) : ∀ base : Raw, (extensionPart base extensions raw).lookup field
      = base.lookup field := by
  induction extensions with
  | nil =>
      intro base
      rfl
  | cons ext extensions ih =>
      intro base
      have hne : field ≠ ext.field := by
        intro he
        exact ext.fresh (he ▸ hf)
      unfold extensionPart
      rw [List.foldl_cons]
      cases extensionValue raw ext with
      | none => exact ih base
      | some v =>
          refine (ih (Assoc.set base ext.field v)).trans ?_
          exact Assoc.lookup_set_of_ne _ _ hne

theorem lookup_restPart (handled : List String) (hf : field ∈ handled) (raw : Raw) :
    ∀ base : Raw, (restPart base handled raw).lookup field = base.lookup field := by
  induction raw with
  | nil =>
      intro base
      rfl
  | cons e raw ih =>
      intro base
      unfold restPart
      rw [List.foldl_cons]
      by_cases h : e.1 ∈ handled ∨ missing (some e.2)
      · rw [if_pos h]
        exact ih base
      · rw [if_neg h]
        have hne : field ≠ e.1 := by
          intro he
          exact h (Or.inl (he ▸ hf))
        refine (ih (Assoc.set base e.1 (writtenValue e.2))).trans ?_
        exact Assoc.lookup_set_of_ne _ _ hne

theorem nodup_extensionPart (raw : Raw) (extensions : List SchemaExtension) :
    ∀ base : Raw, (Assoc.keys base).Nodup →
      (Assoc.keys (extensionPart base extensions raw)).Nodup := by
  induction extensions with
  | nil =>
      intro base h
      exact h
  | cons ext extensions ih =>
      intro base h
      unfold extensionPart
      rw [List.foldl_cons]
      cases extensionValue raw ext with
      | none => exact ih base h
      | some v => exact ih _ (Assoc.nodup_set _ _ h)

theorem nodup_restPart (handled : List String) (raw : Raw) : ∀ base : Raw, (Assoc.keys base).Nodup →
      (Assoc.keys (restPart base handled raw)).Nodup := by
  induction raw with
  | nil =>
      intro base h
      exact h
  | cons e raw ih =>
      intro base h
      unfold restPart
      rw [List.foldl_cons]
      split
      · exact ih base h
      · exact ih _ (Assoc.nodup_set _ _ h)

variable (extensions : List SchemaExtension)

theorem nodup_serializedFields (raw : Raw) :
    (Assoc.keys (serializedFields fm extensions raw)).Nodup :=
  nodup_restPart _ _ _ (nodup_extensionPart _ _ _ (nodup_flatMap_emit fm nodup_builtinFields))

/-- **A built-in field that is emitted is written as it is**, whatever the
    extensions and the old block hold. -/
theorem lookup_serializedFields (raw : Raw) {v : Value} (hf : field ∈ builtinFields)
    (hv : emit fm field = [(field, v)]) :
    (serializedFields fm extensions raw).lookup field = some v := by
  have hbase : (builtinPart fm).lookup field = some v := by
    unfold builtinPart
    rw [lookup_flatMap_emit fm nodup_builtinFields hf, hv]
    simp
  unfold serializedFields
  rw [lookup_restPart, lookup_extensionPart raw extensions hf, hbase]
  refine List.mem_append_left _ ?_
  exact List.mem_map_of_mem (f := Prod.fst) (Assoc.mem_of_lookup hbase)

theorem lookup_restPart_of_not_handled (handled : List String) (hf : field ∉ handled) {raw : Raw}
    (hraw : (Assoc.keys raw).Nodup) : ∀ base : Raw, (restPart base handled raw).lookup field
      = if missing (raw.lookup field) then base.lookup field
        else (raw.lookup field).map writtenValue := by
  induction raw with
  | nil =>
      intro base
      rfl
  | cons e raw ih =>
      intro base
      obtain ⟨k, v⟩ := e
      obtain ⟨hk, hraw⟩ := List.nodup_cons.mp hraw
      unfold restPart
      refine (ih hraw _).trans ?_
      by_cases hne : field = k
      · subst hne
        have hnone : raw.lookup field = none := by
          cases hl : raw.lookup field with
          | none => rfl
          | some w =>
              exact absurd (List.mem_map_of_mem (f := Prod.fst)
                (Assoc.mem_of_lookup hl)) hk
        rw [hnone, List.lookup_cons_self, if_pos (show missing none = true from rfl)]
        dsimp only
        by_cases hm : missing (some v) = true
        · rw [if_pos (Or.inr hm), if_pos hm]
        · rw [if_neg (not_or.mpr ⟨hf, hm⟩), if_neg hm, Assoc.lookup_set_self]
          rfl
      · rw [Assoc.lookup_cons_of_ne _ _ hne]
        dsimp only
        by_cases h : k ∈ handled ∨ missing (some v)
        · rw [if_pos h]
        · rw [if_neg h, Assoc.lookup_set_of_ne _ _ hne]

/-- **A field the typed block leaves out is kept as the old block has it.** -/
theorem lookup_preserved {raw : Raw} (hraw : (Assoc.keys raw).Nodup) (hf : field ∈ builtinFields)
    (hv : emit fm field = []) :
    (serializedFields fm extensions raw).lookup field = if missing (raw.lookup field) then none
        else (raw.lookup field).map writtenValue := by
  have hbase : (builtinPart fm).lookup field = none := by
    unfold builtinPart
    rw [lookup_flatMap_emit fm nodup_builtinFields hf, hv]
    rfl
  have hhandled : field ∉ Assoc.keys (builtinPart fm)
      ++ extensions.map SchemaExtension.field := by
    intro hmem
    rcases List.mem_append.mp hmem with h | h
    · obtain ⟨e, he, hfst⟩ := List.mem_map.mp h
      have hne := List.lookup_eq_none_iff.mp hbase e he
      rw [hfst] at hne
      simp at hne
    · obtain ⟨ext, _, hext⟩ := List.mem_map.mp h
      exact ext.fresh (hext ▸ hf)
  unfold serializedFields
  rw [lookup_restPart_of_not_handled _ hhandled hraw, lookup_extensionPart raw extensions hf, hbase]

theorem parse_serializeDocument (codec : Codec B) (fm : Raw) (body : List Char)
    (extensions : List SchemaExtension) (raw : Raw) :
    codec.parse (serializeDocument codec fm body extensions raw)
      = .ok (serializedFields fm extensions raw, endLine (startLine body)) := by
  refine codec.parse_stringify _ _ (nodup_serializedFields fm extensions raw) ?_
  unfold startLine
  split <;> rfl

/-! ## Bodies -/

/-- A body without its leading line breaks and its trailing white space. -/
def normBody (s : List Char) : List Char :=
  Text.trimEnd (s.dropWhile (· = '\n'))

def sameBody (a b : List Char) : Bool := normBody a = normBody b

theorem normBody_eq (s : List Char) : normBody s = (Text.trimEnd s).dropWhile (· = '\n') := by
  refine (Text.dropWhile_trimEnd ?_ s).symm
  intro c hc
  rw [of_decide_eq_true hc]
  decide

theorem normBody_startLine (s : List Char) : normBody (startLine s) = normBody s := by
  unfold startLine
  split
  · rfl
  · unfold normBody
    simp

theorem normBody_endLine (s : List Char) : normBody (endLine s) = normBody s := by
  unfold endLine
  split
  · rfl
  · rename_i hlast
    unfold normBody
    have hnl : ∀ c ∈ ['\n'], Text.isSpace c = true := Text.forall_mem_of_all (by decide)
    by_cases hd : s.dropWhile (· = '\n') = []
    · -- only line breaks, and not ending in one: nothing at all
      cases hs : s with
      | nil => simp [Text.trimEnd]
      | cons c rest =>
          exfalso
          have hall := List.dropWhile_eq_nil_iff.mp hd
          have hne : s ≠ [] := by rw [hs]; exact List.cons_ne_nil _ _
          have hmem := List.getLast_mem hne
          have hc : s.getLast hne = '\n' := by simpa using hall _ hmem
          exact hlast (by rw [List.getLast?_eq_some_getLast hne, hc])
    · rw [List.dropWhile_append, if_neg (by simpa [List.isEmpty_iff] using hd)]
      exact Text.trimEnd_append_space hnl

/-- **A body that is written is the same body when it is read.** -/
theorem normBody_written (body : List Char) :
    normBody (endLine (startLine body)) = normBody body := by
  rw [normBody_endLine, normBody_startLine]

theorem sameBody_iff (a b : List Char) : sameBody a b = true ↔ normBody a = normBody b := by
  exact decide_eq_true_iff

end Frontmatter
