import Daftari.Lib.AssocProofs
import Daftari.Lib.TextProofs

/-! # The frontmatter schema — raw blocks, typed frontmatter, the validator

    A document's frontmatter is read from YAML as a raw record and coerced to the built-in schema.
    The validator never fails: every field gets a value, whatever the block held, and every
    structural problem is listed.

    The fields fall into a few families (required text, closed word lists, dates, lists of strings,
    nullable values); each is one definition, applied to the field's own name.  `Choice` packs a
    closed word list with the proof that a word is read back as itself, so no later proof enumerates
    words. -/

namespace Frontmatter

/-! ## Raw values -/

/-- A YAML or JSON value.  A number is kept by its text; `date` is a parsed
    date-time, by its ISO text. -/
inductive Value where
  | null
  | bool (b : Bool)
  | num (text : String) (finite : Bool)
  | str (s : String)
  | date (iso : String)
  | arr (items : List Value)
  | obj (fields : List (String × Value))
deriving Repr

-- The structural recursion goes through the lists a value holds, so equality is
-- decided for the three together.
mutual
def Value.decEq : (a b : Value) → Decidable (a = b)
  | .null, .null => isTrue rfl
  | .bool a, .bool b => decidable_of_iff (a = b) (by simp)
  | .num a f, .num b g => decidable_of_iff (a = b ∧ f = g) (by simp)
  | .str a, .str b => decidable_of_iff (a = b) (by simp)
  | .date a, .date b => decidable_of_iff (a = b) (by simp)
  | .arr a, .arr b =>
      match decEqItems a b with
      | isTrue h => isTrue (congrArg Value.arr h)
      | isFalse h => isFalse (fun he => h (Value.arr.inj he))
  | .obj a, .obj b =>
      match decEqFields a b with
      | isTrue h => isTrue (congrArg Value.obj h)
      | isFalse h => isFalse (fun he => h (Value.obj.inj he))
  | .null, .bool _ | .null, .num _ _ | .null, .str _ | .null, .date _ | .null, .arr _
  | .null, .obj _ | .bool _, .null | .bool _, .num _ _ | .bool _, .str _
  | .bool _, .date _ | .bool _, .arr _ | .bool _, .obj _ | .num _ _, .null
  | .num _ _, .bool _ | .num _ _, .str _ | .num _ _, .date _ | .num _ _, .arr _
  | .num _ _, .obj _ | .str _, .null | .str _, .bool _ | .str _, .num _ _
  | .str _, .date _ | .str _, .arr _ | .str _, .obj _ | .date _, .null
  | .date _, .bool _ | .date _, .num _ _ | .date _, .str _ | .date _, .arr _
  | .date _, .obj _ | .arr _, .null | .arr _, .bool _ | .arr _, .num _ _
  | .arr _, .str _ | .arr _, .date _ | .arr _, .obj _ | .obj _, .null
  | .obj _, .bool _ | .obj _, .num _ _ | .obj _, .str _ | .obj _, .date _
  | .obj _, .arr _ => isFalse (by intro h; cases h)

def decEqItems : (a b : List Value) → Decidable (a = b)
  | [], [] => isTrue rfl
  | a :: as, b :: bs =>
      match Value.decEq a b, decEqItems as bs with
      | isTrue h, isTrue hs => isTrue (by rw [h, hs])
      | isFalse h, _ => isFalse (fun he => h (List.cons.inj he).1)
      | _, isFalse hs => isFalse (fun he => hs (List.cons.inj he).2)
  | [], _ :: _ | _ :: _, [] => isFalse (by intro h; cases h)

def decEqFields : (a b : List (String × Value)) → Decidable (a = b)
  | [], [] => isTrue rfl
  | (k, a) :: as, (l, b) :: bs =>
      if hk : k = l then
        match Value.decEq a b, decEqFields as bs with
        | isTrue h, isTrue hs => isTrue (by rw [hk, h, hs])
        | isFalse h, _ => isFalse (fun he => h (Prod.mk.inj (List.cons.inj he).1).2)
        | _, isFalse hs => isFalse (fun he => hs (List.cons.inj he).2)
      else isFalse (fun he => hk (Prod.mk.inj (List.cons.inj he).1).1)
  | [], _ :: _ | _ :: _, [] => isFalse (by intro h; cases h)
end

instance : DecidableEq Value := Value.decEq

/-- A JavaScript object: unique keys in insertion order. -/
abbrev Raw := List (String × Value)

/-- `v === undefined || v === null`. -/
def missing : Option Value → Bool
  | none | some .null => true
  | _ => false

/-- `typeof v`. -/
def Value.typeOf : Value → String
  | .bool _ => "boolean"
  | .num _ _ => "number"
  | .str _ => "string"
  | .null | .date _ | .arr _ | .obj _ => "object"

/-- `iso.slice(0, 10)`. -/
def dateOnly (iso : String) : String := String.ofList (iso.toList.take 10)

/-! ## Closed word lists -/

/-- A closed list of words (`as const`), each read back as itself. -/
class Choice (α : Type) where
  choices : List α
  text : α → String
  complete : ∀ a, a ∈ choices
  injective : ∀ a b, text a = text b → a = b

/-- The word a text names, if it is on the list. -/
def Choice.ofText {α : Type} [Choice α] (s : String) : Option α :=
  (Choice.choices : List α).find? fun a => Choice.text a = s

theorem Choice.ofText_text {α : Type} [Choice α] (a : α) :
    Choice.ofText (Choice.text a) = some a := by
  unfold Choice.ofText
  cases h : (Choice.choices : List α).find? fun b => Choice.text b = Choice.text a with
  | none =>
      have := List.find?_eq_none.mp h a (Choice.complete a)
      simp at this
  | some b =>
      have := List.find?_some h
      rw [Choice.injective b a (of_decide_eq_true this)]

theorem Choice.text_of_ofText {α : Type} [Choice α] {s : String} {a : α}
    (h : (Choice.ofText s : Option α) = some a) : Choice.text a = s := by
  have hfound := List.find?_some h
  exact of_decide_eq_true hfound

def Choice.words (α : Type) [Choice α] : List String :=
  (Choice.choices : List α).map Choice.text

inductive Domain where
  | accumulation
  | generative
deriving DecidableEq, Repr

inductive Status where
  | draft
  | canonical
  | deprecated
  | superseded
  | archived
deriving DecidableEq, Repr

inductive Confidence where
  | low
  | medium
  | high
deriving DecidableEq, Repr

inductive Provenance where
  | direct
  | synthesized
  | inferred
deriving DecidableEq, Repr

inductive Stance where
  | assert
  | dispute
  | qualify
deriving DecidableEq, Repr

inductive Tier where
  | source
  | compiled
  | manual
deriving DecidableEq, Repr

inductive Criticality where
  | low
  | medium
  | high
deriving DecidableEq, Repr

instance : Choice Domain where
  choices := [.accumulation, .generative]
  text
    | .accumulation => "accumulation"
    | .generative => "generative"
  complete a := by cases a <;> decide
  injective a b := by cases a <;> cases b <;> decide

instance : Choice Status where
  choices := [.draft, .canonical, .deprecated, .superseded, .archived]
  text
    | .draft => "draft"
    | .canonical => "canonical"
    | .deprecated => "deprecated"
    | .superseded => "superseded"
    | .archived => "archived"
  complete a := by cases a <;> decide
  injective a b := by cases a <;> cases b <;> decide

instance : Choice Confidence where
  choices := [.low, .medium, .high]
  text
    | .low => "low"
    | .medium => "medium"
    | .high => "high"
  complete a := by cases a <;> decide
  injective a b := by cases a <;> cases b <;> decide

instance : Choice Provenance where
  choices := [.direct, .synthesized, .inferred]
  text
    | .direct => "direct"
    | .synthesized => "synthesized"
    | .inferred => "inferred"
  complete a := by cases a <;> decide
  injective a b := by cases a <;> cases b <;> decide

instance : Choice Stance where
  choices := [.assert, .dispute, .qualify]
  text
    | .assert => "assert"
    | .dispute => "dispute"
    | .qualify => "qualify"
  complete a := by cases a <;> decide
  injective a b := by cases a <;> cases b <;> decide

instance : Choice Tier where
  choices := [.source, .compiled, .manual]
  text
    | .source => "source"
    | .compiled => "compiled"
    | .manual => "manual"
  complete a := by cases a <;> decide
  injective a b := by cases a <;> cases b <;> decide

instance : Choice Criticality where
  choices := [.low, .medium, .high]
  text
    | .low => "low"
    | .medium => "medium"
    | .high => "high"
  complete a := by cases a <;> decide
  injective a b := by cases a <;> cases b <;> decide

/-! ## Typed frontmatter -/

/-- One principal's position on the claim a document carries. -/
structure Position where
  id : String
  principal : String
  stance : Stance
  statement : Option String
  confidence : Confidence
  provenance : Provenance
  validFrom : Option String
  supersededBy : Option String
  created : String
  sources : List String
deriving DecidableEq, Repr

/-- The ratified consolidated stance. -/
structure OrgPosition where
  stance : Stance
  confidence : Confidence
  ratifiedBy : String
  ratifiedAt : String
  dissent : List String
deriving DecidableEq, Repr

/-- `BuiltinFrontmatter`, always complete. -/
structure Fields where
  title : String
  domain : Domain
  collection : String
  status : Status
  confidence : Confidence
  created : String
  updated : String
  updatedBy : String
  provenance : Provenance
  tier : Option Tier
  criticality : Option Criticality
  sources : List String
  supersededBy : Option String
  ttlDays : Option String
  series : Option String
  validFrom : Option String
  validUntil : Option String
  saidAt : Option String
  tags : List String
  describes : List String
  amends : List String
  questionsAnswered : List String
  questionsRaised : List String
  subjects : List String
  positions : Option (List Position)
  orgPosition : Option OrgPosition
  contested : Option Bool
deriving DecidableEq, Repr

/-- `ValidationIssue`. -/
structure Issue where
  field : String
  message : String
deriving DecidableEq, Repr

/-! ## Dates -/

/-- A run of decimal digits as a number. -/
def digits (s : List Char) : Option Nat :=
  if s ≠ [] ∧ s.all Char.isDigit then some (Nat.ofDigitChars 10 s 0) else none

def daysInMonth (year month : Nat) : Nat :=
  if month = 2 then
    if (year % 4 = 0 ∧ year % 100 ≠ 0) ∨ year % 400 = 0 then 29 else 28
  else if month ∈ [4, 6, 9, 11] then 30 else 31

/-- `padStart(2, "0")` of one or two characters. -/
def padTwo (s : List Char) : List Char := if s.length = 1 then '0' :: s else s

/-- `normalizeIsoDate`: the `YYYY-MM-DD` of a real calendar date whose month or
    day may lack a leading zero. -/
def normalizeIsoDate (s : String) : Option String :=
  match s.toList.splitOn '-' with
  | [y, m, d] =>
      match digits y, digits m, digits d with
      | some year, some month, some day =>
          if y.length = 4 ∧ m.length ≤ 2 ∧ d.length ≤ 2
              ∧ 1 ≤ month ∧ month ≤ 12 ∧ 1 ≤ day ∧ day ≤ daysInMonth year month then
            some (String.ofList (y ++ '-' :: padTwo m ++ '-' :: padTwo d))
          else none
      | _, _, _ => none
  | _ => none

/-! ## Field families -/

/-- A coerced value with the problems found on the way. -/
abbrev Checked (α : Type) := α × List Issue

def missingIssue (field : String) : Issue := ⟨field, "missing required field"⟩

def requireString (raw : Raw) (field : String) : Checked String :=
  match raw.lookup field with
  | none | some .null => ("", [missingIssue field])
  | some (.str s) => if s = "" then ("", [missingIssue field]) else (s, [])
  | some v => ("", [⟨field, "expected string, got " ++ v.typeOf⟩])

section Messages

-- `JSON.stringify`, which some messages quote a value with.
variable (json : Value → String)

/-- `[a, b, c]` in a message. -/
def wordList (words : List String) : String :=
  "[" ++ ", ".intercalate words ++ "]"

def requireEnum {α : Type} [Choice α] (raw : Raw) (field : String) (fallback : α) : Checked α :=
  match raw.lookup field with
  | none | some .null => (fallback, [missingIssue field])
  | some v =>
      let issue : Issue :=
        ⟨field, "expected one of " ++ wordList (Choice.words α) ++ ", got " ++ json v⟩
      match v with
      | .str s =>
          match (Choice.ofText s : Option α) with
          | some a => (a, [])
          | none => (fallback, [issue])
      | _ => (fallback, [issue])

/-- `requireDate`: the author's text is kept whatever it is; anything but a
    canonical date is flagged. -/
def requireDate (raw : Raw) (field : String) : Checked String :=
  match raw.lookup field with
  | none | some .null => ("", [missingIssue field])
  | some (.date iso) => (dateOnly iso, [])
  | some (.str s) =>
      if normalizeIsoDate s = some s then (s, [])
      else (s, [⟨field, "expected YYYY-MM-DD date, got \"" ++ s ++ "\""⟩])
  | some v => ("", [⟨field, "expected date, got " ++ v.typeOf⟩])

def stringsOf (items : List Value) : List String :=
  items.filterMap fun
    | .str s => some s
    | _ => none

def isString : Value → Bool
  | .str _ => true
  | _ => false

def optionalStringArray (raw : Raw) (field : String) : Checked (List String) :=
  match raw.lookup field with
  | none | some .null => ([], [])
  | some (.arr items) =>
      (stringsOf items,
        (items.zipIdx.filter fun e => !isString e.1).map fun e =>
          ⟨field, "element " ++ toString e.2 ++ " is not a string"⟩)
  | some v => ([], [⟨field, "expected array, got " ++ v.typeOf⟩])

/-- `optionalEnum`: null when missing or malformed, never a member. -/
def optionalEnum {α : Type} [Choice α] (raw : Raw) (field : String) : Checked (Option α) :=
  match raw.lookup field with
  | none | some .null => (none, [])
  | some v =>
      let issue : Issue :=
        ⟨field, "expected one of " ++ wordList (Choice.words α) ++ " or null, got "
          ++ json v⟩
      match v with
      | .str s =>
          match (Choice.ofText s : Option α) with
          | some a => (some a, [])
          | none => (none, [issue])
      | _ => (none, [issue])

def optionalString (raw : Raw) (field : String) : Checked (Option String) :=
  match raw.lookup field with
  | none | some .null => (none, [])
  | some (.str s) => (some s, [])
  | some v => (none, [⟨field, "expected string or null, got " ++ v.typeOf⟩])

/-- `optionalDate`: a malformed date string is kept and not flagged. -/
def optionalDate (raw : Raw) (field : String) : Checked (Option String) :=
  match raw.lookup field with
  | none | some .null => (none, [])
  | some (.date iso) => (some (dateOnly iso), [])
  | some (.str s) => (some s, [])
  | some v => (none, [⟨field, "expected date string or null, got " ++ v.typeOf⟩])

/-- A date-time for `said_at`: date-only at UTC midnight, without zero milliseconds otherwise. -/
def timestampText (iso : String) : String :=
  if "T00:00:00.000Z".toList <:+ iso.toList then dateOnly iso
  else if ".000Z".toList <:+ iso.toList then
    String.ofList (iso.toList.take (iso.toList.length - 5) ++ ['Z'])
  else iso

def optionalTimestamp (raw : Raw) (field : String) : Checked (Option String) :=
  match raw.lookup field with
  | none | some .null => (none, [])
  | some (.date iso) => (some (timestampText iso), [])
  | some (.str s) => (some s, [])
  | some v => (none, [⟨field, "expected date-time string or null, got " ++ v.typeOf⟩])

def optionalNumber (raw : Raw) (field : String) : Checked (Option String) :=
  match raw.lookup field with
  | none | some .null => (none, [])
  | some (.num text true) => (some text, [])
  | some v => (none, [⟨field, "expected number or null, got " ++ v.typeOf⟩])

def optionalBoolean (raw : Raw) (field : String) : Checked (Option Bool) :=
  match raw.lookup field with
  | none | some .null => (none, [])
  | some (.bool b) => (some b, [])
  | some v => (none, [⟨field, "expected boolean or null, got " ++ json v⟩])

/-! ## Positions -/

def asDateString : Option Value → Option String
  | some (.date iso) => some (dateOnly iso)
  | some (.str s) => some s
  | _ => none

/-- `typeof v === "string"`. -/
def asString : Option Value → Option String
  | some (.str s) => some s
  | _ => none

/-- `typeof v === "string" && v.length > 0`. -/
def asText (v : Option Value) : Option String := (asString v).filter (· ≠ "")

/-- A member of a closed list. -/
def asChoice {α : Type} [Choice α] (v : Option Value) : Option α :=
  (asString v).bind Choice.ofText

/-- `/^pos-\d+$/`. -/
def isPositionId (s : String) : Bool :=
  match s.toList with
  | 'p' :: 'o' :: 's' :: '-' :: ds => ds ≠ [] ∧ ds.all Char.isDigit
  | _ => false

/-- The strings of a list-valued member, `[]` when it is no list. -/
def stringsIn : Option Value → List String
  | some (.arr items) => stringsOf items
  | _ => []

/-- An element's provenance: `direct` when missing, and when it is no member, with an issue. -/
def positionProvenance (field : String) (i : Nat) (v : Option Value) : Checked Provenance :=
  if missing v then (.direct, [])
  else
    match (asChoice v : Option Provenance) with
    | some p => (p, [])
    | none =>
        (.direct, [⟨field, "element " ++ toString i
          ++ ": invalid provenance, coerced to direct"⟩])

/-- One element of a positions block: a position, or dropped with an issue. -/
def checkPosition (field : String) (i : Nat) : Value → Checked (Option Position)
  | .obj p =>
      let id := (asString (p.lookup "id")).filter isPositionId
      let principal := asText (p.lookup "principal")
      let stance : Option Stance := asChoice (p.lookup "stance")
      let confidence : Option Confidence := asChoice (p.lookup "confidence")
      let created := (asDateString (p.lookup "created")).filter (· ≠ "")
      match id, principal, stance, confidence, created with
      | some id, some principal, some stance, some confidence, some created =>
          let provenance := positionProvenance field i (p.lookup "provenance")
          (some { id := id, principal := principal, stance := stance,
                  statement := asString (p.lookup "statement"),
                  confidence := confidence, provenance := provenance.1,
                  validFrom := asDateString (p.lookup "valid_from"),
                  supersededBy := asString (p.lookup "superseded_by"),
                  created := created, sources := stringsIn (p.lookup "sources") },
            provenance.2)
      | _, _, _, _, _ =>
          (none, [⟨field, "element " ++ toString i ++ " dropped: requires id (pos-NNN), "
            ++ "principal, stance (" ++ "|".intercalate (Choice.words Stance)
            ++ "), confidence, created"⟩])
  | _ => (none, [⟨field, "element " ++ toString i ++ " is not an object"⟩])

/-- Every element, in order. -/
def checkPositions (field : String) (items : List Value) : Checked (List Position) :=
  let checked := items.zipIdx.map fun e => checkPosition field e.2 e.1
  (checked.filterMap Prod.fst, checked.flatMap Prod.snd)

def optionalPositions (raw : Raw) (field : String) : Checked (Option (List Position)) :=
  match raw.lookup field with
  | none | some .null => (none, [])
  | some (.arr items) =>
      let checked := checkPositions field items
      (some checked.1, checked.2)
  | some v => (none, [⟨field, "expected array, got " ++ v.typeOf⟩])

def optionalOrgPosition (raw : Raw) (field : String) : Checked (Option OrgPosition) :=
  match raw.lookup field with
  | none | some .null => (none, [])
  | some (.obj o) =>
      let stance : Option Stance := asChoice (o.lookup "stance")
      let confidence : Option Confidence := asChoice (o.lookup "confidence")
      let ratifiedBy := asText (o.lookup "ratified_by")
      let ratifiedAt := (asDateString (o.lookup "ratified_at")).filter (· ≠ "")
      match stance, confidence, ratifiedBy, ratifiedAt with
      | some stance, some confidence, some ratifiedBy, some ratifiedAt =>
          (some { stance := stance, confidence := confidence, ratifiedBy := ratifiedBy,
                  ratifiedAt := ratifiedAt, dissent := stringsIn (o.lookup "dissent") },
            [])
      | _, _, _, _ =>
          (none, [⟨field,
            "dropped: requires stance, confidence, ratified_by, ratified_at"⟩])
  -- a parsed date is an object without the fields
  | some (.date _) =>
      (none, [⟨field, "dropped: requires stance, confidence, ratified_by, ratified_at"⟩])
  | some v => (none, [⟨field, "expected object or null, got " ++ v.typeOf⟩])

/-! ## Extension fields -/

/-- The type of a config-declared field; a pattern is given by its test. -/
inductive ExtensionType where
  | string (pattern : Option (String × (String → Bool)))
  | date
  | number
  | boolean
  | array
  | enum (allowed : List String)

/-- `BUILTIN_FRONTMATTER_FIELDS`. -/
def builtinFields : List String :=
  ["title", "domain", "collection", "status", "confidence", "created", "updated",
    "updated_by", "provenance", "tier", "criticality", "sources", "superseded_by",
    "ttl_days", "series", "valid_from", "valid_until", "said_at", "tags", "describes",
    "amends", "questions_answered", "questions_raised", "subjects", "positions",
    "org_position", "contested"]

/-- `SchemaExtension`.  A config that declares a built-in field does not load. -/
structure SchemaExtension where
  field : String
  type : ExtensionType
  required : Bool
  default : Option Value
  fresh : field ∉ builtinFields

def maxPatternInputLength : Nat := 4096

def validateExtensionField (raw : Raw) (ext : SchemaExtension) : List Issue :=
  let issue (message : String) : List Issue := [⟨ext.field, message⟩]
  match raw.lookup ext.field with
  | none | some .null =>
      if ext.required ∧ ext.default.isNone then issue "missing required field" else []
  | some v =>
      match ext.type, v with
      | .string none, .str _ => []
      | .string (some (source, test)), .str s =>
          let length := (Text.units s.toList).length
          if maxPatternInputLength < length then
            issue ("value too long to pattern-validate (" ++ toString length ++ " > "
              ++ toString maxPatternInputLength ++ ")")
          else if test s then []
          else issue ("does not match pattern /" ++ source ++ "/")
      | .string _, v => issue ("expected string, got " ++ v.typeOf)
      | .date, .date _ => []
      | .date, v =>
          match v with
          | .str s =>
              if normalizeIsoDate s = some s then []
              else issue ("expected a YYYY-MM-DD date, got " ++ json v)
          | _ => issue ("expected a YYYY-MM-DD date, got " ++ json v)
      | .number, .num _ true => []
      | .number, v => issue ("expected number, got " ++ v.typeOf)
      | .boolean, .bool _ => []
      | .boolean, v => issue ("expected boolean, got " ++ v.typeOf)
      | .array, .arr items =>
          if items.all isString then [] else issue "expected an array of strings"
      | .array, _ => issue "expected an array of strings"
      | .enum allowed, v =>
          if (asString (some v)).any (· ∈ allowed) then []
          else issue ("expected one of " ++ wordList allowed ++ ", got " ++ json v)

/-! ## The validator -/

/-- The typed frontmatter of a raw block. -/
def coerce (raw : Raw) : Fields where
  title := (requireString raw "title").1
  domain := (requireEnum json raw "domain" .accumulation).1
  collection := (requireString raw "collection").1
  status := (requireEnum json raw "status" .draft).1
  confidence := (requireEnum json raw "confidence" .low).1
  created := (requireDate raw "created").1
  updated := (requireDate raw "updated").1
  updatedBy := (requireString raw "updated_by").1
  provenance := (requireEnum json raw "provenance" .inferred).1
  tier := (optionalEnum json raw "tier").1
  criticality := (optionalEnum json raw "criticality").1
  sources := (optionalStringArray raw "sources").1
  supersededBy := (optionalString raw "superseded_by").1
  ttlDays := (optionalNumber raw "ttl_days").1
  series := (optionalString raw "series").1
  validFrom := (optionalDate raw "valid_from").1
  validUntil := (optionalDate raw "valid_until").1
  saidAt := (optionalTimestamp raw "said_at").1
  tags := (optionalStringArray raw "tags").1
  describes := (optionalStringArray raw "describes").1
  amends := (optionalStringArray raw "amends").1
  questionsAnswered := (optionalStringArray raw "questions_answered").1
  questionsRaised := (optionalStringArray raw "questions_raised").1
  subjects := (optionalStringArray raw "subjects").1
  positions := (optionalPositions raw "positions").1
  orgPosition := (optionalOrgPosition raw "org_position").1
  contested := (optionalBoolean json raw "contested").1

/-- The problems of a raw block, field by field in schema order, the extension fields last. -/
def issuesOf (raw : Raw) (extensions : List SchemaExtension) : List Issue :=
  (requireString raw "title").2
  ++ (requireEnum json raw "domain" Domain.accumulation).2
  ++ (requireString raw "collection").2
  ++ (requireEnum json raw "status" Status.draft).2
  ++ (requireEnum json raw "confidence" Confidence.low).2
  ++ (requireDate raw "created").2
  ++ (requireDate raw "updated").2
  ++ (requireString raw "updated_by").2
  ++ (requireEnum json raw "provenance" Provenance.inferred).2
  ++ (optionalEnum json raw "tier" : Checked (Option Tier)).2
  ++ (optionalEnum json raw "criticality" : Checked (Option Criticality)).2
  ++ (optionalStringArray raw "sources").2
  ++ (optionalString raw "superseded_by").2
  ++ (optionalNumber raw "ttl_days").2
  ++ (optionalString raw "series").2
  ++ (optionalDate raw "valid_from").2
  ++ (optionalDate raw "valid_until").2
  ++ (optionalTimestamp raw "said_at").2
  ++ (optionalStringArray raw "tags").2
  ++ (optionalStringArray raw "describes").2
  ++ (optionalStringArray raw "amends").2
  ++ (optionalStringArray raw "questions_answered").2
  ++ (optionalStringArray raw "questions_raised").2
  ++ (optionalStringArray raw "subjects").2
  ++ (optionalPositions raw "positions").2
  ++ (optionalOrgPosition raw "org_position").2
  ++ (optionalBoolean json raw "contested").2
  ++ extensions.flatMap (validateExtensionField json raw)

def validateFrontmatter (raw : Raw) (extensions : List SchemaExtension) : Fields × List Issue :=
  (coerce json raw, issuesOf json raw extensions)

end Messages

end Frontmatter
