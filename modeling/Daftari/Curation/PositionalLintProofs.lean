import Daftari.Curation.PositionsProofs
import Daftari.Curation.TensionLogProofs

/-! # Positional tensions in lint — positions and the log, reconciled

    When two live positions on a document oppose each other, the log should say
    so: an open positional tension names the pair, or a resolution that lets the
    disagreement stand.  Lint reports the pairs without such a record, and the
    open tensions whose pair is no longer live and opposed. -/

namespace Positional

open Tension Frontmatter Positions

structure PositionalTensionRef where
  id : Option Str
  resolved : Bool
  resolutionKind : Option ResolutionKind
  positionA : Str
  positionB : Str
deriving DecidableEq

def refOf (t : TensionEntry) : Option PositionalTensionRef :=
  if t.kind ≠ .positional then none
  else t.positionA.bind fun a => t.positionB.map fun b =>
    ⟨t.id, t.resolved, t.resolution.map TensionResolution.kind, a, b⟩

/-- `positionalByDoc`, at one document. -/
def positionalByDoc (entries : List TensionEntry) (path : Str) : List PositionalTensionRef :=
  (entries.filter fun t => t.sourceA = path).filterMap refOf

/-- Does a ref name the pair, whichever way round? -/
def names (t : PositionalTensionRef) (a b : String) : Bool :=
  (String.ofList t.positionA = a ∧ String.ofList t.positionB = b) ∨
    (String.ofList t.positionA = b ∧ String.ofList t.positionB = a)

/-- Does a ref say that the disagreement is known, or stands? -/
def covers (t : PositionalTensionRef) : Bool :=
  !t.resolved || t.resolutionKind = some .accepted || t.resolutionKind = some .consolidated

structure UncoveredPair where
  a : Position
  b : Position
  resolvedKinds : List ResolutionKind
deriving DecidableEq

def uncoveredConflictPairs (positions : List Position) (tensions : List PositionalTensionRef) :
    List UncoveredPair :=
  let live := unsuperseded positions
  (live.filter fun p => p.stance = .assert).flatMap fun a =>
    (live.filter fun p => p.stance = .dispute).filterMap fun b =>
      let named := tensions.filter fun t => names t a.id b.id
      if named.any covers then none
      else some ⟨a, b, named.filterMap PositionalTensionRef.resolutionKind⟩

def byId (positions : List Position) (id : String) : Option Position :=
  positions.reverse.find? fun p => p.id = id

/-- The walk of `chainEnd`: it ends at a position it has met before, so a step for each
    position is enough. -/
def chainWalk (positions : List Position) : Nat → List String → Position → Option Position
  | 0, _, _ => none
  | steps + 1, met, cur =>
      match cur.supersededBy with
      | none => some cur
      | some nextId =>
          if nextId = "" then some cur
          else (byId positions nextId).bind fun next =>
            if next.id ∈ met then none else chainWalk positions steps (next.id :: met) next

def chainEnd (positions : List Position) (id : String) : Option Position :=
  (byId positions id).bind fun cur => chainWalk positions (positions.length + 1) [cur.id] cur

/-- Do two chain ends oppose each other? -/
def opposed (a b : Option Position) : Bool :=
  match a, b with
  | some ea, some eb => (ea.stance = .assert ∧ eb.stance = .dispute) ∨
      (ea.stance = .dispute ∧ eb.stance = .assert)
  | _, _ => false

def flipped (named : String) (position : Option Position) : Bool :=
  match position with
  | none => true
  | some p => p.id ≠ named ∨ p.stance = .qualify

def UncoveredPair.detail (p : UncoveredPair) : String :=
  if p.resolvedKinds = [] then
    "contested pair " ++ p.a.id ++ " (assert, " ++ p.a.principal ++ ") x " ++ p.b.id
      ++ " (dispute, " ++ p.b.principal ++ ") has no open positional tension — mint may have "
      ++ "failed silently (vault_assert tension_error); a re-assert by either party will re-mint"
  else
    "contested pair " ++ p.a.id ++ " x " ++ p.b.id ++ " was resolved '"
      ++ "', '".intercalate (p.resolvedKinds.map fun k => String.ofList k.text)
      ++ "' but both positions remain live and opposed"

/-- What lint says of a ref that has nothing left to adjudicate. -/
def mootDetail (positions : List Position) (t : PositionalTensionRef) : Option String :=
  let a := String.ofList t.positionA
  let b := String.ofList t.positionB
  let ea := chainEnd positions a
  let eb := chainEnd positions b
  if t.resolved ∨ opposed ea eb then none
  else some ("open positional tension " ++ String.ofList (t.id.getD "(no id)".toList) ++ " names "
    ++ (if flipped a ea then a else if flipped b eb then b else a)
    ++ " but the pair is no longer live and opposed — resolve via vault_tension_resolve")

def reconciliation (entries : List TensionEntry) (path : Str) (positions : List Position) :
    List String :=
  let tensions := positionalByDoc entries path
  (uncoveredConflictPairs positions tensions).map UncoveredPair.detail
    ++ tensions.filterMap (mootDetail positions)

end Positional
