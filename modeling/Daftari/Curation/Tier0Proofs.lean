import Daftari.Curation.SupersedeChainsProofs
import Daftari.Frontmatter.DocumentProofs
import Daftari.Lib.SortProofs

/-! # Tier 0 — what a ratification must not create

    A document's `sources` cite other documents, code, the web, or nothing that can be resolved.
    The tier-0 gates look at the vault's documents and say what would be wrong with one of them
    being canonical, or with its being retired.

    * `parseSourceRef`, `resolveVaultSourceRef`: what a source names;
    * `tier0PromoteGate`, `tier0DeprecateGate`: the two gates. -/

namespace Tier0

open Frontmatter SupersedeChains Rbac

/-! ## Sources -/

/-- `ParsedSourceRef`, each kind with what is resolved of it. -/
inductive ParsedSourceRef where
  | vault (target : List Char)
  | repo (target : List Char)
  | external
  | distill
  | otherScheme
  | legacy (target : List Char)

/-- `/^[a-z][a-z0-9+.-]*:/i`. -/
def hasUriScheme : List Char → Bool
  | [] => false
  | c :: rest => c.isAlpha
      && (rest.dropWhile fun c => c.isAlphanum || c ∈ ['+', '.', '-']).head? = some ':'

/-- Does a text start with a scheme, in whatever case? -/
def startsWithScheme (scheme : String) (raw : List Char) : Bool :=
  scheme.toList.isPrefixOf (raw.map Char.toLower)

def parseSourceRef (value : String) : ParsedSourceRef :=
  let raw := Text.trim value.toList
  if startsWithScheme "vault:" raw then .vault (Text.trim (raw.drop 6))
  else if startsWithScheme "repo:" raw then .repo (Text.trim (raw.drop 5))
  else if startsWithScheme "http:" raw || startsWithScheme "https:" raw
      || startsWithScheme "mailto:" raw then .external
  else if startsWithScheme "distill:" raw then .distill
  else if hasUriScheme raw then .otherScheme
  else .legacy raw

def normalizeExplicitVaultTarget (rawTarget : List Char) : Option String :=
  if rawTarget = [] ∨ '\\' ∈ rawTarget ∨ rawTarget.head? = some '/'
      ∨ ['.', '.'] ∈ rawTarget.splitOn '/' then none
  else
    let normalized := normalize rawTarget
    if normalized = ['.'] ∨ "../".toList <+: normalized then none
    else some (withMd (String.ofList normalized))

inductive VaultSourceResolution where
  | nonVault
  | vault (explicit : Bool) (target : Option String)

/-- `resolveVaultSourceRef`, over the paths of `buildPathIndexes`. -/
def resolveVaultSourceRef (paths : List String) (raw fromPath : String) : VaultSourceResolution :=
  match parseSourceRef raw with
  | .vault target =>
      .vault true ((normalizeExplicitVaultTarget target).filter (· ∈ paths))
  | .legacy target =>
      match resolveLink paths (String.ofList target) fromPath with
      | some found => .vault false (some found)
      | none => .nonVault
  | _ => .nonVault

/-! ## The promote gate -/

def conflictingSourceStatuses : List Status := [.draft, .deprecated, .archived]

/-- The loaded documents, by path. -/
abbrev Docs := List (String × ParsedDocument)

/-- What one source is charged with. -/
inductive SourceProblem where
  | unresolvable (raw : String)
  | conflicting (path : String) (source : ParsedDocument)

/-- One round of the gate's loop over the sources. -/
def sourceProblem (docs : Docs) (path raw : String) : Option SourceProblem :=
  match resolveVaultSourceRef (docs.map Prod.fst) raw path with
  | .nonVault => none
  | .vault explicit none => if explicit then some (.unresolvable raw) else none
  | .vault _ (some resolved) =>
      if resolved = path then none
      else
        (docs.lookup resolved).bind fun source =>
          if source.frontmatter.status ∈ conflictingSourceStatuses then
            some (.conflicting resolved source)
          else none

def SourceProblem.hidden (visible : ParsedDocument → Bool) : SourceProblem → Bool
  | .unresolvable _ => false
  | .conflicting _ source => !visible source

def SourceProblem.text : SourceProblem → String
  | .unresolvable raw => "unresolvable source: " ++ raw
  | .conflicting path source =>
      "source " ++ path ++ " is " ++ Choice.text source.frontmatter.status

structure PromoteGateResult where
  violations : List String
  hiddenConflicts : Nat

/-- The issues of a report, as the gate joins them. -/
def schemaViolation (issues : List Issue) : List String :=
  if issues = [] then []
  else ["schema-invalid frontmatter ("
    ++ "; ".intercalate (issues.map fun i => i.field ++ ": " ++ i.message) ++ ")"]

def sourceProblems (docs : Docs) (path : String) (doc : ParsedDocument) : List SourceProblem :=
  doc.frontmatter.sources.filterMap (sourceProblem docs path)

/-- `tier0PromoteGate`; a missing target is the dispatch's to report. -/
def tier0PromoteGate (docs : Docs) (targetPath : String)
    (visible : ParsedDocument → Bool) : PromoteGateResult :=
  match docs.lookup targetPath with
  | none => ⟨[], 0⟩
  | some target =>
      let problems := sourceProblems docs targetPath target
      { violations := schemaViolation target.issues
          ++ (problems.filter fun p => !p.hidden visible).map SourceProblem.text
        hiddenConflicts := (problems.filter fun p => p.hidden visible).length }

/-! ## The deprecate gate -/

structure DeprecateGateResult where
  dependents : List String
  hiddenDependents : Nat

def cites (docs : Docs) (e : String × ParsedDocument) (targetPath : String) : Bool :=
  e.2.frontmatter.sources.any fun raw =>
    match resolveVaultSourceRef (docs.map Prod.fst) raw e.1 with
    | .vault _ (some found) => found = targetPath
    | _ => false

def tier0DeprecateGate (docs : Docs) (targetPath : String)
    (visible : ParsedDocument → Bool) : DeprecateGateResult :=
  let dependents := docs.filter fun e =>
    e.1 ≠ targetPath && e.2.frontmatter.status = .canonical && cites docs e targetPath
  { dependents := ((dependents.filter fun e => visible e.2).map Prod.fst).insertionSort
      fun a b => ¬ Text.lt b a
    hiddenDependents := (dependents.filter fun e => !visible e.2).length }

/-! ## Messages -/

def hiddenManyThreshold : Nat := 5

def bucketHiddenDownstream (hiddenCount : Nat) : String :=
  if hiddenCount = 0 then "none"
  else if hiddenManyThreshold ≤ hiddenCount then "many" else "some"

def promoteGateProblems (gate : PromoteGateResult) : Option String :=
  let problems := gate.violations ++
    if 0 < gate.hiddenConflicts then
      ["non-canonical sources hidden from your role: "
        ++ bucketHiddenDownstream gate.hiddenConflicts]
    else []
  if problems = [] then none else some ("; ".intercalate problems)

def deprecateGateProblems (gate : DeprecateGateResult) : Option String :=
  let problems :=
    (if gate.dependents = [] then []
      else ["cited as a source by canonical: " ++ ", ".intercalate gate.dependents]) ++
    if 0 < gate.hiddenDependents then
      ["hidden canonical dependents: " ++ bucketHiddenDownstream gate.hiddenDependents]
    else []
  if problems = [] then none else some ("; ".intercalate problems)

end Tier0
