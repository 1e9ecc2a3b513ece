import Daftari.Frontmatter.DocumentProofs

/-! # Readings — what a file says, and what a write leaves it saying

    Every promise of the write tools is about four things a document says: its
    write-protection tier, the document that supersedes it, its positions, and
    its body up to leading line breaks and trailing white space.

    * `readingOf`, `read`: these four, read off a block or off a file;
    * `read_serialize`: **what a write emits is what a read finds**, and a block
      of positions that is not emitted stays as the old block has it. -/

namespace Frontmatter

/-! ## Reading single values -/

/-- The positions of a block: the elements the schema keeps. -/
def positionsIn : Option Value → Option (List Position)
  | some (.arr items) => some (checkPositions "positions" items).1
  | _ => none

/-- What a document says. -/
@[ext] structure Reading where
  tier : Option Tier
  supersededBy : Option String
  positions : Option (List Position)
  body : List Char
deriving DecidableEq

def readingOf (raw : Raw) (content : List Char) : Reading where
  tier := asChoice (raw.lookup "tier")
  supersededBy := asString (raw.lookup "superseded_by")
  positions := positionsIn (raw.lookup "positions")
  body := normBody content

def read {B : Type} (codec : Codec B) (file : B) : Option Reading :=
  match codec.parse file with
  | .error _ => none
  | .ok (raw, content) => some (readingOf raw content)

theorem read_of_parse {B : Type} {codec : Codec B} {file : B} {raw : Raw}
    {content : List Char} (h : codec.parse file = .ok (raw, content)) :
    read codec file = some (readingOf raw content) := by
  unfold read
  rw [h]

/-! ## Typed frontmatter reads the same -/

theorem optionalEnum_fst {α : Type} [Choice α] (json : Value → String) (raw : Raw)
    (field : String) :
    (optionalEnum json raw field : Checked (Option α)).1 = asChoice (raw.lookup field) := by
  unfold optionalEnum asChoice
  cases raw.lookup field with
  | none => rfl
  | some v =>
      cases v with
      | str s =>
          show _ = (Choice.ofText s : Option α)
          cases hs : (Choice.ofText s : Option α) <;> simp only [hs]
      | _ => rfl

theorem requireEnum_fst {α : Type} [Choice α] (json : Value → String) (raw : Raw)
    (field : String) (fallback : α) :
    (requireEnum json raw field fallback).1 = (asChoice (raw.lookup field)).getD fallback := by
  unfold requireEnum asChoice
  cases raw.lookup field with
  | none => rfl
  | some v =>
      cases v with
      | str s =>
          show _ = (Choice.ofText s : Option α).getD fallback
          cases hs : (Choice.ofText s : Option α) <;> simp only [hs] <;> rfl
      | _ => rfl

theorem optionalString_fst (raw : Raw) (field : String) :
    (optionalString raw field).1 = asString (raw.lookup field) := by
  unfold optionalString
  cases raw.lookup field with
  | none => rfl
  | some v => cases v <;> rfl

theorem optionalPositions_fst (raw : Raw) :
    (optionalPositions raw "positions").1 = positionsIn (raw.lookup "positions") := by
  unfold optionalPositions
  cases raw.lookup "positions" with
  | none => rfl
  | some v => cases v <;> rfl

section Coerce

variable (json : Value → String) (raw : Raw)

theorem coerce_tier : (coerce json raw).tier = asChoice (raw.lookup "tier") :=
  optionalEnum_fst json raw "tier"

theorem coerce_supersededBy :
    (coerce json raw).supersededBy = asString (raw.lookup "superseded_by") :=
  optionalString_fst raw "superseded_by"

theorem coerce_positions :
    (coerce json raw).positions = positionsIn (raw.lookup "positions") :=
  optionalPositions_fst raw

end Coerce

/-! ## Values written by the serializer -/

@[simp] theorem asString_str (s : String) : asString (some (.str s)) = some s := rfl

@[simp] theorem asDateString_str (s : String) :
    asDateString (some (.str s)) = some s := rfl

@[simp] theorem asString_textOrNull (s : Option String) :
    asString (some (textOrNull s)) = s := by
  cases s with
  | none => rfl
  | some s => rfl

@[simp] theorem asDateString_textOrNull (s : Option String) :
    asDateString (some (textOrNull s)) = s := by
  cases s with
  | none => rfl
  | some s => rfl

@[simp] theorem asChoice_text {α : Type} [Choice α] (a : α) :
    asChoice (some (.str (Choice.text a))) = some a := by
  unfold asChoice
  exact Choice.ofText_text a

@[simp] theorem asChoice_wordOrNull {α : Type} [Choice α] (a : Option α) :
    asChoice (some (wordOrNull a)) = a := by
  cases a with
  | none => rfl
  | some a => exact asChoice_text a

@[simp] theorem stringsIn_texts (l : List String) :
    stringsIn (some (texts l)) = l := by
  show stringsOf (l.map Value.str) = l
  induction l with
  | nil => rfl
  | cons s l ih =>
      unfold stringsOf at ih ⊢
      exact congrArg _ ih

/-- What the schema asks of a position before it keeps it. -/
def Position.wellFormed (p : Position) : Bool :=
  isPositionId p.id && p.principal ≠ "" && p.created ≠ ""

theorem checkPosition_toValue (field : String) (i : Nat) (p : Position) :
    (checkPosition field i p.toValue).1 = if p.wellFormed then some p else none := by
  unfold Position.toValue checkPosition Position.wellFormed
  by_cases hid : isPositionId p.id = true <;>
    by_cases hprincipal : p.principal = "" <;>
      by_cases hcreated : p.created = "" <;>
        simp [List.lookup_cons, asText, positionProvenance, missing, hid, hprincipal,
          hcreated, Option.filter]

theorem positionsIn_toValue (ps : List Position) :
    positionsIn (some (.arr (ps.map Position.toValue))) = some (ps.filter Position.wellFormed) := by
  have hall : ∀ (l : List Position) (n : Nat),
      (((l.map Position.toValue).zipIdx n).map
        (fun e => checkPosition "positions" e.2 e.1)).filterMap Prod.fst
        = l.filter Position.wellFormed := by
    intro l
    induction l with
    | nil =>
        intro n
        rfl
    | cons p l ih =>
        intro n
        rw [List.map_cons, List.zipIdx_cons, List.map_cons, List.filterMap_cons,
          checkPosition_toValue "positions" n p, List.filter_cons]
        cases p.wellFormed with
        | true => exact congrArg _ (ih (n + 1))
        | false => exact ih (n + 1)
  exact congrArg some (hall ps 0)

theorem wellFormed_of_checkPosition {field : String} {i : Nat} {v : Value}
    {p : Position} (h : (checkPosition field i v).1 = some p) : p.wellFormed = true := by
  unfold checkPosition at h
  split at h
  · rename_i o
    dsimp only at h
    split at h
    · rename_i id principal stance confidence created hid hprincipal _ _ hcreated
      simp only [Option.some.injEq] at h
      subst h
      unfold Position.wellFormed
      rw [(Option.filter_eq_some_iff.mp hid).2, (Option.filter_eq_some_iff.mp hprincipal).2,
        (Option.filter_eq_some_iff.mp hcreated).2]
      rfl
    · cases h
  · cases h

/-- **Positions that were read are well formed.** -/
theorem wellFormed_of_positionsIn {v : Option Value} {ps : List Position}
    (h : positionsIn v = some ps) : ∀ p ∈ ps, p.wellFormed = true := by
  unfold positionsIn at h
  split at h
  · rename_i items
    obtain rfl := Option.some.inj h
    intro p hp
    unfold checkPositions at hp
    obtain ⟨c, hc, hcp⟩ := List.mem_filterMap.mp hp
    obtain ⟨e, _, rfl⟩ := List.mem_map.mp hc
    exact wellFormed_of_checkPosition hcp
  · cases h

theorem positionsIn_preserved (v : Option Value) :
    positionsIn (if missing v then none else v.map writtenValue) = positionsIn v := by
  cases v with
  | none => rfl
  | some v => cases v <;> rfl

/-! ## What a write leaves a file saying -/

section Write

variable {B : Type} (codec : Codec B) (extensions : List SchemaExtension) {raw : Raw}

theorem lookup_always (fm raw : Raw) {field : String} (hf : field ∈ builtinFields)
    (he : emission field = .always) : (serializedFields fm extensions raw).lookup field
      = some ((fm.lookup field).getD .null) := by
  refine lookup_serializedFields fm extensions raw hf ?_
  unfold emit
  rw [he]

/-- **What a write emits is what a read finds**; positions that are not emitted
    stay as the old block has them. -/
theorem read_serialize (fm : Raw) (body : List Char) (hraw : (Assoc.keys raw).Nodup) :
    read codec (serializeDocument codec fm body extensions raw)
      = some { tier := asChoice (fm.lookup "tier")
               supersededBy := asString (fm.lookup "superseded_by")
               positions := if missing (fm.lookup "positions") then
                   positionsIn (raw.lookup "positions")
                 else positionsIn (fm.lookup "positions")
               body := normBody body } := by
  rw [read_of_parse (parse_serializeDocument codec fm body extensions raw)]
  refine congrArg some (Reading.ext ?_ ?_ ?_ ?_)
  · show asChoice ((serializedFields fm extensions raw).lookup "tier") = _
    rw [lookup_always extensions fm raw (by decide) (by decide)]
    cases fm.lookup "tier" <;> rfl
  · show asString ((serializedFields fm extensions raw).lookup "superseded_by") = _
    rw [lookup_always extensions fm raw (by decide) (by decide)]
    cases fm.lookup "superseded_by" <;> rfl
  · show positionsIn ((serializedFields fm extensions raw).lookup "positions") = _
    by_cases hm : missing (fm.lookup "positions") = true
    · rw [if_pos hm, lookup_preserved fm extensions hraw (by decide),
        positionsIn_preserved]
      unfold emit
      generalize fm.lookup "positions" = v at hm
      match v, hm with
      | none, _ => rfl
      | some .null, _ => rfl
    · rw [if_neg hm]
      generalize hv : fm.lookup "positions" = v at hm
      cases v with
      | none => exact absurd rfl hm
      | some v =>
          rw [lookup_serializedFields fm extensions raw (v := v) (by decide)]
          unfold emit
          rw [hv]
          cases v with
          | null => exact absurd rfl hm
          | _ => rfl
  · exact normBody_written body

/-- The positions a write of typed frontmatter leaves. -/
def writtenPositions (raw : Raw) : Option (List Position) → Option (List Position)
  | none => positionsIn (raw.lookup "positions")
  | some ps => some (ps.filter Position.wellFormed)

def positionsValue : Option (List Position) → Value
  | none => .null
  | some ps => .arr (ps.map Position.toValue)

theorem lookup_toRaw_positions (fm : Fields) :
    fm.toRaw.lookup "positions" = some (positionsValue fm.positions) := by
  cases hps : fm.positions with
  | none =>
      show some _ = _
      rw [hps]
      rfl
  | some ps =>
      show some _ = _
      rw [hps]
      rfl

/-- **The same for typed frontmatter.** -/
theorem read_fields (fm : Fields) (body : List Char) (hraw : (Assoc.keys raw).Nodup) :
    read codec (serializeDocument codec fm.toRaw body extensions raw)
      = some { tier := fm.tier
               supersededBy := fm.supersededBy
               positions := writtenPositions raw fm.positions
               body := normBody body } := by
  rw [read_serialize codec extensions fm.toRaw body hraw]
  have htier : fm.toRaw.lookup "tier" = some (wordOrNull fm.tier) := rfl
  have hsuperseded : fm.toRaw.lookup "superseded_by"
      = some (textOrNull fm.supersededBy) := rfl
  rw [htier, hsuperseded, lookup_toRaw_positions, asChoice_wordOrNull, asString_textOrNull]
  refine congrArg some (Reading.ext rfl rfl ?_ rfl)
  cases fm.positions with
  | none => rfl
  | some ps => exact positionsIn_toValue ps

theorem writtenPositions_coerce (json : Value → String) (raw : Raw) :
    writtenPositions raw (coerce json raw).positions
      = positionsIn (raw.lookup "positions") := by
  rw [coerce_positions]
  cases h : positionsIn (raw.lookup "positions") with
  | none => exact h
  | some ps =>
      exact congrArg some (List.filter_eq_self.mpr (wellFormed_of_positionsIn h))

end Write

end Frontmatter
