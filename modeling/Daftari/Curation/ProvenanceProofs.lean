import Daftari.Frontmatter.DocumentProofs
import Daftari.Lib.SortProofs

/-! # The provenance log — entries, and the fields a change touched

    `curation/provenance.ts` and the reading half of `curation/tier1.ts`: every write tool appends
    one entry, a refused write one of a `rejected_` action. What a change touched is read off its
    entry: the keys of the frontmatter diff, and the body.

    * `changedFieldsFromProvenance`, with **what is in it** as `mem_changedFieldsFromProvenance`;
    * `tier1Dispatch`, and its verdict on one dependent of one class. -/

namespace Staleness

open Frontmatter (Value)

/-! ## Entries -/

structure FieldDiff where
  before : Option Value
  after : Option Value
deriving DecidableEq

abbrev FrontmatterDiff := List (String × FieldDiff)

/-- `ProvenanceEntry`, as far as a reader of changes looks at it.  It is stamped
    when it is appended, so its timestamp is never empty. -/
structure ProvenanceEntry where
  timestamp : String
  file : String
  action : String
  bodyChanged : Option Bool := none
  frontmatterDiff : Option FrontmatterDiff := none
  stamped : timestamp ≠ "" := by decide

/-- A write that was refused: "rejection is signaled by the `rejected_*` actions". -/
def ProvenanceEntry.refused (e : ProvenanceEntry) : Bool :=
  "rejected_".toList.isPrefixOf e.action.toList

/-- `JSON.stringify(b) !== JSON.stringify(a)`; what is absent has no text. -/
def differs (json : Value → String) (b a : Option Value) : Bool := b.map json ≠ a.map json

/-- `frontmatterDiff`: the keys of either block whose values differ, with both. -/
def frontmatterDiff (json : Value → String) (before : Option (List (String × Value)))
    (after : List (String × Value)) : FrontmatterDiff :=
  let keys := (Assoc.keys (before.getD []) ++ Assoc.keys after).eraseDups
  (keys.filter fun k => differs json ((before.getD []).lookup k) (after.lookup k)).map fun k =>
    (k, ⟨(before.getD []).lookup k, after.lookup k⟩)

/-- **The keys of a diff** are those whose values differ. -/
theorem mem_keys_frontmatterDiff {json : Value → String}
    {before : Option (List (String × Value))} {after : List (String × Value)} {k : String} :
    k ∈ (frontmatterDiff json before after).map Prod.fst ↔
      differs json ((before.getD []).lookup k) (after.lookup k) = true := by
  unfold frontmatterDiff
  rw [List.map_map]
  constructor
  · intro hk
    obtain ⟨k', hk', rfl⟩ := List.mem_map.mp hk
    exact (List.mem_filter.mp hk').2
  · intro hdiffers
    refine List.mem_map.mpr ⟨k, List.mem_filter.mpr ⟨?_, hdiffers⟩, rfl⟩
    rw [List.mem_eraseDups, List.mem_append]
    -- a key of neither block differs in nothing
    by_contra hnone
    rw [not_or] at hnone
    have hlookup : ∀ m : List (String × Value), k ∉ Assoc.keys m → m.lookup k = none := by
      intro m hm
      cases hv : m.lookup k with
      | none => rfl
      | some v => exact absurd (List.mem_map_of_mem (f := Prod.fst) (Assoc.mem_of_lookup hv)) hm
    rw [hlookup _ hnone.1, hlookup _ hnone.2] at hdiffers
    exact of_decide_eq_true hdiffers rfl

/-! ## Changed fields -/

def bookkeepingFields : List String := ["updated", "updated_by"]

def contentChangedFields (fields : List String) : List String :=
  (fields.filter fun f => f ∉ bookkeepingFields).eraseDups

@[simp] theorem mem_contentChangedFields {fields : List String} {f : String} :
    f ∈ contentChangedFields fields ↔ f ∈ fields ∧ f ∉ bookkeepingFields := by
  unfold contentChangedFields
  rw [List.mem_eraseDups, List.mem_filter, decide_eq_true_iff]

/-- Was the body changed?  An entry from before the flag says so for a content write. -/
def bodyTouched (e : ProvenanceEntry) : Bool :=
  e.bodyChanged.getD (e.action = "create" || e.action = "update" || e.action = "append")

def changedFieldsFromProvenance (e : ProvenanceEntry) : List String :=
  contentChangedFields ((e.frontmatterDiff.getD []).map Prod.fst ++
    if bodyTouched e then ["body"] else [])

/-- **The changed fields of an entry**: the keys of its diff but for the
    bookkeeping, and the body. -/
theorem mem_changedFieldsFromProvenance {e : ProvenanceEntry} {f : String} :
    f ∈ changedFieldsFromProvenance e ↔
      (f ∈ (e.frontmatterDiff.getD []).map Prod.fst ∧ f ∉ bookkeepingFields) ∨
        (f = "body" ∧ bodyTouched e = true) := by
  unfold changedFieldsFromProvenance
  rw [mem_contentChangedFields, List.mem_append]
  cases hb : bodyTouched e with
  | false => simp
  | true =>
      simp only [if_true, List.mem_singleton, and_true]
      constructor
      · rintro ⟨hdiff | rfl, hne⟩
        · exact Or.inl ⟨hdiff, hne⟩
        · exact Or.inr rfl
      · rintro (⟨hdiff, hne⟩ | rfl)
        · exact ⟨Or.inl hdiff, hne⟩
        · exact ⟨Or.inr rfl, by decide⟩

/-! ## Compiled edges -/

/-- `ConsumesEdge`, without its run. -/
structure ConsumesEdge where
  artifact : String
  unit : String
  fields : List String
  compileTs : String
deriving DecidableEq

/-- `currentConsumesEdges`: the edges of each artifact's newest compile. -/
def currentConsumesEdges (all : List ConsumesEdge) : List ConsumesEdge :=
  let latestTs := all.foldl (fun m e =>
    match m.lookup e.artifact with
    | none => Assoc.set m e.artifact e.compileTs
    | some seen =>
        if Text.lt e.compileTs seen then m else Assoc.set m e.artifact e.compileTs) []
  all.filter fun e => latestTs.lookup e.artifact = some e.compileTs

def forwardConsumes (all : List ConsumesEdge) (artifact : String) : List ConsumesEdge :=
  (currentConsumesEdges all).filter fun e => e.artifact = artifact

/-! ## Tier 1 -/

inductive Tier1VerdictKind where
  | unaffected
  | affected
  | possiblyAffected
  | semanticReview
deriving DecidableEq

inductive Tier1EdgeClass where
  | compiled
  | declared
  | earned
deriving DecidableEq

def Tier1EdgeClass.text : Tier1EdgeClass → String
  | .compiled => "compiled"
  | .declared => "declared"
  | .earned => "earned"

/-- `CLASS_RANK`. -/
def Tier1EdgeClass.rank : Tier1EdgeClass → Nat
  | .compiled => 3
  | .declared => 2
  | .earned => 1

structure Tier1Verdict where
  artifact : String
  verdict : Tier1VerdictKind
  edgeClass : Tier1EdgeClass
  reason : String
deriving DecidableEq

/-- `Tier1Inputs`, but for the unit, which the dispatch does not read. -/
structure Tier1Inputs where
  changedFields : List String
  compiled : List ConsumesEdge
  declaredDependents : List String
  earnedDependents : List String

def bookkeepingOnly (artifact : String) (edgeClass : Tier1EdgeClass) : Tier1Verdict :=
  ⟨artifact, .unaffected, edgeClass, "only bookkeeping fields changed"⟩

def joined (l : List String) : String := ", ".intercalate l

/-- The verdict on a compiled edge. -/
def compiledVerdict (changed : List String) (e : ConsumesEdge) : Tier1Verdict :=
  if changed = [] then bookkeepingOnly e.artifact .compiled
  else
    let consumesAll := "*" ∈ e.fields
    let overlap := if consumesAll then changed else e.fields.filter fun f => f ∈ changed
    if overlap = [] then
      ⟨e.artifact, .unaffected, .compiled,
        "consumed fields [" ++ joined e.fields ++ "] untouched by change [" ++ joined changed
          ++ "]"⟩
    else
      ⟨e.artifact, .affected, .compiled,
        "consumed " ++ (if consumesAll then "the whole doc" else "[" ++ joined overlap ++ "]")
          ++ ", which the change touched"⟩

def declaredVerdict (changed : List String) (artifact : String) : Tier1Verdict :=
  if changed = [] then bookkeepingOnly artifact .declared
  else
    ⟨artifact, .possiblyAffected, .declared,
      "declared sources citation — a claim, so [" ++ joined changed ++ "] may or may not matter"⟩

def earnedVerdict (changed : List String) (artifact : String) : Tier1Verdict :=
  if changed = [] then bookkeepingOnly artifact .earned
  else
    ⟨artifact, .semanticReview, .earned,
      "earned derives_from edge — routes to semantic review, never a hard verdict"⟩

/-- `put`: the verdict of the class with the higher rank stays. -/
def putVerdict (m : List (String × Tier1Verdict)) (v : Tier1Verdict) :
    List (String × Tier1Verdict) :=
  match m.lookup v.artifact with
  | none => Assoc.set m v.artifact v
  | some prev =>
      if v.edgeClass.rank > prev.edgeClass.rank then Assoc.set m v.artifact v else m

/-- `a < b ? -1 : a > b ? 1 : 0`. -/
def compareTexts (a b : String) : Ordering :=
  if Text.lt a b then .lt else if Text.lt b a then .gt else .eq

theorem compareTexts_eq_gt {a b : String} : compareTexts a b = .gt ↔ Text.lt b a = true := by
  unfold compareTexts
  cases hab : Text.lt a b with
  | true =>
      rw [if_pos rfl, Text.not_lt_of_lt hab]
      simp
  | false =>
      cases Text.lt b a <;> simp

theorem compareTexts_eq_eq {a b : String} : compareTexts a b = .eq ↔ a = b := by
  constructor
  · intro h
    unfold compareTexts at h
    cases hab : Text.lt a b with
    | true =>
        rw [if_pos hab] at h
        cases h
    | false =>
        rw [if_neg (by simp [hab])] at h
        cases hba : Text.lt b a with
        | true =>
            rw [if_pos hba] at h
            cases h
        | false => exact Text.eq_of_not_lt hab hba
  · rintro rfl
    have hirr : Text.lt a a = false := by
      cases h : Text.lt a a with
      | false => rfl
      | true => exact h.symm.trans (Text.not_lt_of_lt h)
    unfold compareTexts
    rw [hirr]
    rfl

instance : Std.TransCmp compareTexts where
  eq_swap := by
    intro a b
    unfold compareTexts
    cases hab : Text.lt a b with
    | true =>
        rw [Text.not_lt_of_lt hab]
        rfl
    | false => cases Text.lt b a <;> rfl
  isLE_trans := by
    intro a b c hab hbc
    have hle : ∀ {x y : String}, (compareTexts x y).isLE = true ↔ Text.lt y x = false := by
      intro x y
      rw [Ordering.isLE_iff_ne_gt, compareTexts_eq_gt, Bool.not_eq_true]
    rw [hle] at hab hbc ⊢
    exact Text.not_lt_trans hbc hab

def tier1Dispatch (input : Tier1Inputs) : List Tier1Verdict :=
  let changed := contentChangedFields input.changedFields
  let all := input.compiled.map (compiledVerdict changed) ++
    input.declaredDependents.map (declaredVerdict changed) ++
    input.earnedDependents.map (earnedVerdict changed)
  Stable.sort (fun a b => compareTexts a.artifact b.artifact)
    ((all.foldl putVerdict []).map Prod.snd)

end Staleness
