import Daftari.Lib.TableProofs
import Daftari.Lib.TextProofs
import Mathlib.Data.List.Dedup

/-! # The distill state — one record per source

    `distill/state.ts`: re-distilling a source joins its claims with those that have landed, offers
    what is left to the emitter and rewrites the source's record.  An incomplete emit leaves the
    staged keys and the failed remainder in the record, under the content hash of the run; a
    complete one advances the hash of its scope.

    A run reads the state file, awaits the emitter and then writes the file from the copy it has
    read.

    * `joinClaims`: skip, update in place, or a new write. -/

namespace Distill

/-- `ExtractedClaim`, without the metadata of its extraction. -/
structure ExtractedClaim where
  key : String
  statement : String
  title : String
  saidAt : Option String
deriving DecidableEq, Repr

/-- `DistillSourceState`. -/
structure SourceState where
  contentHash : String
  /-- Claim key to landed path. -/
  claims : Table String String
  pendingContentHash : Option String
  emittedClaimKeys : List String
  pendingClaims : List ExtractedClaim
  scopeHashes : Table String String
deriving DecidableEq

/-- `DistillState`: the record of each source. -/
abbrev DistillState := Table String SourceState

/-- `recordLandedClaim`, on the source's landed map: an older key that maps to
    the path is removed. -/
def landClaim (claims : Table String String) (key path : String) : Table String String :=
  Table.set (claims.keys.foldl (fun m k =>
    if claims.find k = some path ∧ k ≠ key then m.erase k else m) claims) key path

/-- The record of a source no run has completed. -/
def SourceState.initial : SourceState := ⟨"", .empty, none, [], [], .empty⟩

/-- `recordLandedClaim`, on the state it has read. -/
def recordLanded (state : DistillState) (sourceId key path : String) : DistillState :=
  let src := (state.find sourceId).getD .initial
  state.set sourceId { src with claims := landClaim src.claims key path }

/-! ## The join -/

inductive ClaimAction where
  | skip (claim : ExtractedClaim) (landedPath : String)
  | update (claim : ExtractedClaim) (landedPath : String)
  | new (claim : ExtractedClaim)

/-- `claimKeyPrefix`: the key without its eight-character suffix. -/
def claimKeyStem (key : String) : String :=
  match key.toList.reverse.dropWhile (· ≠ '-') with
  | [] => key
  | _ :: before =>
      if (Text.units (key.toList.reverse.takeWhile (· ≠ '-'))).length = 8 then
        String.ofList before.reverse
      else key

def siblings (landed : Table String String) (key : String) : List String :=
  (landed.entries.filter fun e => claimKeyStem e.1 = claimKeyStem key).map Prod.snd

/-- `joinClaims`, for one claim. -/
def joinClaim (landed : Table String String) (claim : ExtractedClaim) : ClaimAction :=
  match landed.find claim.key with
  | some path => .skip claim path
  | none =>
      match siblings landed claim.key with
      | [path] => .update claim path
      | _ => .new claim

/-! ## A run -/

/-- `DistillUpsertInput`: what the record depends on. -/
structure Input where
  content : List Char
  claims : List ExtractedClaim
  scope : Option String
  extractionErrors : Nat

/-- The scope, where an empty one is none. -/
def Input.scopeKey (input : Input) : Option String := input.scope.filter (· ≠ "")

/-- `\r\n` and `\r` as `\n`. -/
def normalizeNewlines : List Char → List Char
  | '\r' :: '\n' :: rest => '\n' :: normalizeNewlines rest
  | '\r' :: rest => '\n' :: normalizeNewlines rest
  | c :: rest => c :: normalizeNewlines rest
  | [] => []

variable (hash : List Char → String)

/-- `sourceContentHash` of a run: a scoped run hashes its scope with the content. -/
def contentHashOf (scope : Option String) (content : List Char) : String :=
  hash (normalizeNewlines (match scope with
    | some scope => scope.toList ++ Char.ofNat 0 :: content
    | none => content))

def Input.contentHash (input : Input) : String :=
  contentHashOf hash input.scopeKey input.content

/-- The hash the record holds for a scope. -/
def SourceState.hashOf (st : SourceState) (scope : Option String) : Option String :=
  match scope with
  | some scope => st.scopeHashes.find scope
  | none => some st.contentHash

/-- What the emitter reports: the staged keys, and the failed keys with their errors. -/
structure Attempt where
  results : List String
  errors : List (String × String)

/-- `DistillUpsertOutcome`. -/
structure Outcome where
  noop : Bool
  skipped : List String
  updated : List (String × String)
  created : List String
  propose : Option Attempt
  stateWritten : Bool
  stateError : Option String

/-- What a run holds while it awaits the emitter. -/
structure Plan where
  contentHash : String
  scope : Option String
  alreadyEmitted : List String
  skipped : List String
  updated : List (String × String)
  created : List String
  toPropose : List ExtractedClaim
  pathOverrides : List (String × String)

/-- How a run starts. -/
inductive Opening where
  | returns (outcome : Outcome)
  | offers (plan : Plan)

/-- A claim of the join that is neither landed nor already emitted. -/
def ClaimAction.offered (alreadyEmitted : List String) : ClaimAction → Option ExtractedClaim
  | .skip _ _ => none
  | .update claim _ => if claim.key ∈ alreadyEmitted then none else some claim
  | .new claim => if claim.key ∈ alreadyEmitted then none else some claim

/-- The claims a run works on: the failed remainder of its own content, if there
    is one, and the extracted claims if not. -/
def claimsOf (prior : Option SourceState) (input : Input) : List ExtractedClaim :=
  match prior with
  | some st =>
      if st.pendingContentHash = some (input.contentHash hash) ∧ 0 < st.pendingClaims.length then
        st.pendingClaims
      else input.claims
  | none => input.claims

def alreadyEmitted (prior : Option SourceState) (input : Input) : List String :=
  match prior with
  | some st =>
      if st.pendingContentHash = some (input.contentHash hash) then st.emittedClaimKeys else []
  | none => []

/-- `prior?.claims ?? {}`. -/
def landedOf (prior : Option SourceState) : Table String String :=
  (prior.map SourceState.claims).getD .empty

/-- The run up to its emitter. -/
def planOf (prior : Option SourceState) (input : Input) : Plan :=
  let actions := (claimsOf hash prior input).map (joinClaim (landedOf prior))
  let emitted := alreadyEmitted hash prior input
  let updates := actions.filterMap fun a => match a with
    | .update claim path => if claim.key ∈ emitted then none else some (claim.key, path)
    | _ => none
  { contentHash := input.contentHash hash
    scope := input.scopeKey
    alreadyEmitted := emitted
    skipped := actions.filterMap fun a => match a with
      | .skip claim _ => some claim.key
      | _ => none
    updated := updates
    created := actions.filterMap fun a => match a with
      | .new claim => if claim.key ∈ emitted then none else some claim.key
      | _ => none
    toPropose := actions.filterMap (ClaimAction.offered emitted)
    pathOverrides := updates }

/-- `distillUpsert` up to its emitter: an unchanged content is a no-op, and a run
    whose extraction failed and found nothing leaves no trace. -/
def openRun (prior : Option SourceState) (input : Input) : Opening :=
  if prior.bind (·.hashOf input.scopeKey) = some (input.contentHash hash) then
    .returns ⟨true, [], [], [], none, true, none⟩
  else if 0 < input.extractionErrors ∧ input.claims = [] then
    .returns ⟨false, [], [], [], none, false, some ("extraction failed for "
      ++ toString input.extractionErrors
      ++ " chunk(s) and produced no claims; source state not recorded")⟩
  else .offers (planOf hash prior input)

/-- The failures that stand: a success wins over an error of the same claim, and
    a claim the emitter says nothing about has failed. -/
def unresolved (plan : Plan) (attempted : Attempt) : List (String × String) :=
  attempted.errors.filter (fun e => e.1 ∉ attempted.results)
    ++ (plan.toPropose.filter fun claim => claim.key ∉ attempted.results
        ∧ claim.key ∉ attempted.errors.map Prod.fst).map fun claim =>
      (claim.key, "proposal result was missing")

/-- `distillUpsert` after its emitter: the record it writes and its outcome. -/
def closeRun (prior : Option SourceState) (plan : Plan) (attempted : Attempt) :
    SourceState × Outcome :=
  let errors := unresolved plan attempted
  let propose : Attempt := ⟨attempted.results, errors⟩
  let old := prior.getD .initial
  if errors ≠ [] then
    ({ contentHash := old.contentHash
       claims := landedOf prior
       pendingContentHash := some plan.contentHash
       emittedClaimKeys := (plan.alreadyEmitted ++ attempted.results).dedup.mergeSort
         fun a b => !Text.lt b a
       pendingClaims := plan.toPropose.filter fun claim => claim.key ∈ errors.map Prod.fst
       scopeHashes := old.scopeHashes },
     ⟨false, plan.skipped, plan.updated, plan.created, some propose, true,
      some "proposal staging was incomplete"⟩)
  else
    (match plan.scope with
      | some scope => ⟨old.contentHash, landedOf prior, none, [], [],
          old.scopeHashes.set scope plan.contentHash⟩
      | none => ⟨plan.contentHash, landedOf prior, none, [], [], old.scopeHashes⟩,
     ⟨false, plan.skipped, plan.updated, plan.created, some propose, true, none⟩)

theorem claims_closeRun {prior : Option SourceState} (plan : Plan) (attempted : Attempt) :
    (closeRun prior plan attempted).1.claims = landedOf prior := by
  unfold closeRun
  by_cases hun : unresolved plan attempted ≠ []
  · rw [if_pos hun]
  · rw [if_neg hun]
    cases plan.scope with
    | none => rfl
    | some _ => rfl

end Distill
