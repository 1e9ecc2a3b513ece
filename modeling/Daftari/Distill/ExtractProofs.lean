import Mathlib.Data.List.Infix
import Daftari.Distill.StateProofs
import Daftari.Frontmatter.SchemaProofs

/-! # Claim extraction — one call a chunk, two ways to stop early

    `distill/extract.ts`: every chunk of a source is one call to the model.  The loop ends before
    the last chunk when the claims reach their cap or the budget of calls is spent; a chunk whose
    call fails, or whose response is unusable, is an error, and the loop goes on.

    * `extractClaims_spec`: **the loop answers, fails and finds what the inputs say**. -/

namespace Distill

open Frontmatter (Value)

/-- A chunk: its position, its locators, its text and its messages' timestamps. -/
structure Chunk where
  index : Nat
  anchor : String
  firstTs : String
  text : String
  timestamps : List String
deriving DecidableEq

/-! ## Calls -/

/-- `CortexEvalError.kind`. -/
inductive ErrorKind where
  | config
  | runtime
  | llm
deriving DecidableEq

structure CortexEvalError where
  kind : ErrorKind
  message : String

/-- What `completeJson` returns: an error, or a parsed response and its text. -/
abbrev Reply := Except CortexEvalError (Value × String)

def budgetExhaustedMarker : String := "LLM call budget exhausted"

def isBudgetExhaustedError (e : CortexEvalError) : Bool :=
  e.kind = .runtime && decide (budgetExhaustedMarker.toList <:+: e.message.toList)

/-- `withCallBudget`: after `maxCalls` calls no other is made. -/
def withCallBudget (llm : Nat → Chunk → Reply) (maxCalls used : Nat) (chunk : Chunk) : Reply :=
  if maxCalls ≤ used then
    .error ⟨.runtime, budgetExhaustedMarker ++ " (--max-llm-calls " ++ toString maxCalls ++ ")"⟩
  else llm used chunk

/-! ## Keys and titles -/

structure TextHost where
  toLowerCase : String → String
  sha256Hex : String → String

/-- `/[^a-z0-9]+/g` as `-`; the flag is set inside a match. -/
def dashed : Bool → List Char → List Char
  | _, [] => []
  | inMatch, c :: rest =>
      if ('a' ≤ c ∧ c ≤ 'z') ∨ ('0' ≤ c ∧ c ≤ '9') then c :: dashed false rest
      else if inMatch then dashed true rest
      else '-' :: dashed true rest

def slugify (host : TextHost) (statement : String) : String :=
  let slug := ((dashed false (host.toLowerCase statement).toList).dropWhile (· = '-')).rdropWhile
    (· = '-')
  let slug := (slug.take 48).rdropWhile (· = '-')
  if slug = [] then "claim" else String.ofList slug

def claimKey (host : TextHost) (anchor statement : String) : String :=
  anchor ++ ":" ++ slugify host statement ++ "-"
    ++ String.ofList ((host.sha256Hex statement).toList.take 8)

/-- `slice(0, n)`, whole characters only. -/
def takeUnits : Nat → List Char → List Char
  | _, [] => []
  | n, c :: rest =>
      if (Text.unitsOf c).length ≤ n then
        c :: takeUnits (n - (Text.unitsOf c).length) rest
      else []

def titleMax : Nat := 80

/-- `titleOf`: cut before the last space within the limit. -/
def titleOf (statement : String) : String :=
  let text := statement.toList
  if (Text.units text).length ≤ titleMax then statement
  else
    let words := ((takeUnits (titleMax + 1) text).rdropWhile (· ≠ ' ')).dropLast
    String.ofList (if words ≠ [] then words else takeUnits titleMax text)

/-! ## Responses -/

/-- A cited timestamp, without the brackets around it. -/
def citedTs (text : String) : String :=
  let t := Text.trim text.toList
  let t := if t.head? = some '[' then t.tail else t
  String.ofList (if t.getLast? = some ']' then t.dropLast else t)

/-- When it was said: the earliest citation of a message of the chunk. -/
def saidAt (chunkTs : List String) (cited : Option Value) : Option String :=
  let texts := match cited with
    | some (.arr items) => items.filterMap fun (v : Value) => match v with
        | .str s => some s
        | _ => none
    | _ => []
  (((texts.map citedTs).filter (· ∈ chunkTs)).mergeSort fun a b => !Text.lt b a).head?

/-- A usable entry of a response. -/
def statementOf (chunkTs : List String) (entry : Value) : Option (String × Option String) :=
  match entry with
  | .obj fields =>
      match fields.lookup "statement" with
      | some (.str statement) =>
          let trimmed := Text.trim statement.toList
          if trimmed = [] then none
          else some (String.ofList trimmed, saidAt chunkTs (fields.lookup "source_ts"))
      | _ => none
  | _ => none

/-- `parseStatements`: none for an unusable response. -/
def parseStatements (parsed : Value) (chunkTs : List String) :
    Option (List (String × Option String)) :=
  match parsed with
  | .obj fields =>
      match fields.lookup "claims" with
      | some (.arr entries) => some (entries.filterMap (statementOf chunkTs))
      | _ => none
  | _ => none

/-! ## The loop -/

/-- The inputs of a run: chunks, model, and the two limits. -/
structure Extractor where
  chunks : List Chunk
  llm : Nat → Chunk → Reply
  maxLlmCalls : Nat
  maxClaims : Nat

/-- `ExtractOutcome`, and (a ghost) the chunks that were answered. -/
structure Extraction where
  claims : List ExtractedClaim
  budgetExhausted : Bool
  llmCalls : Nat
  chunkErrors : List (String × String)
  answered : List Chunk

/-- One statement of a response becomes a claim, up to the cap and once a key. -/
def addStatement (host : TextHost) (maxClaims : Nat) (anchor : String)
    (claims : List ExtractedClaim) (statement : String × Option String) : List ExtractedClaim :=
  if maxClaims ≤ claims.length then claims
  else if claimKey host anchor statement.1 ∈ claims.map ExtractedClaim.key then claims
  else claims ++ [⟨claimKey host anchor statement.1, statement.1, titleOf statement.1, statement.2⟩]

/-- The loop of `extractClaims` over the chunks that are left. -/
def extractFrom (host : TextHost) (x : Extractor) : List Chunk → Extraction → Extraction
  | [], acc => acc
  | chunk :: rest, acc =>
      if x.maxClaims ≤ acc.claims.length then acc
      else
        match withCallBudget x.llm x.maxLlmCalls acc.llmCalls chunk with
        | .error e =>
            if isBudgetExhaustedError e then
              { acc with budgetExhausted := true, llmCalls := acc.llmCalls + 1 }
            else
              extractFrom host x rest { acc with
                llmCalls := acc.llmCalls + 1
                chunkErrors := acc.chunkErrors ++ [(chunk.anchor, e.message)] }
        | .ok (parsed, text) =>
            match parseStatements parsed chunk.timestamps with
            | none =>
                extractFrom host x rest { acc with
                  llmCalls := acc.llmCalls + 1
                  chunkErrors := acc.chunkErrors ++ [(chunk.anchor, "unusable response shape: "
                    ++ String.ofList (takeUnits 120 text.toList))] }
            | some statements =>
                extractFrom host x rest { acc with
                  llmCalls := acc.llmCalls + 1
                  claims := statements.foldl (addStatement host x.maxClaims chunk.anchor)
                    acc.claims
                  answered := acc.answered ++ [chunk] }

def extractClaims (host : TextHost) (x : Extractor) : Extraction :=
  extractFrom host x x.chunks ⟨[], false, 0, [], []⟩

/-! ## What the inputs say -/

namespace Extractor

variable (host : TextHost) (x : Extractor)

/-- The statements of the response to the call about a chunk, if it is usable. -/
def statements (i : Nat) : Option (List (String × Option String)) :=
  x.chunks[i]?.bind fun chunk => match x.llm i chunk with
    | .ok (parsed, _) => parseStatements parsed chunk.timestamps
    | .error _ => none

/-- The call about a chunk fails as a spent budget does. -/
def marked (i : Nat) : Bool :=
  x.chunks[i]?.any fun chunk => match x.llm i chunk with
    | .ok _ => false
    | .error e => isBudgetExhaustedError e

def keys (i : Nat) : List String :=
  ((x.statements i).getD []).map fun s =>
    claimKey host ((x.chunks[i]?.map Chunk.anchor).getD "") s.1

/-- The keys of the statements about the chunks before one. -/
def keysBefore (i : Nat) : List String := (List.range i).flatMap (x.keys host)

/-- **A chunk is submitted**: the budget covers it, nothing before it looks like a
    spent one, and the claims before it are under their cap. -/
def Submitted (i : Nat) : Prop :=
  i < x.chunks.length ∧ i < x.maxLlmCalls ∧ (∀ j < i, x.marked j = false)
    ∧ (x.keysBefore host i).dedup.length < x.maxClaims

/-- A chunk is answered: it is submitted and the response is usable. -/
def Answered (i : Nat) : Prop := x.Submitted host i ∧ (x.statements i).isSome = true

/-- A chunk has failed: it is submitted, and it is an error. -/
def Failed (i : Nat) : Prop :=
  x.Submitted host i ∧ x.statements i = none ∧ x.marked i = false

def LearnsNothing : Prop :=
  (∃ i, x.Failed host i) ∧ ∀ i, x.Answered host i → x.statements i = some []

variable {host x}

theorem keysBefore_succ (i : Nat) :
    x.keysBefore host (i + 1) = x.keysBefore host i ++ x.keys host i := by
  rw [keysBefore, List.range_succ, List.flatMap_append]
  simp [keysBefore]

theorem keysBefore_mono {i j : Nat} (h : i ≤ j) :
    (x.keysBefore host i).dedup.length ≤ (x.keysBefore host j).dedup.length := by
  have hsub : (x.keysBefore host i).dedup ⊆ (x.keysBefore host j).dedup := by
    intro k hk
    rw [List.mem_dedup] at hk ⊢
    obtain ⟨n, hn, hkn⟩ := List.mem_flatMap.mp hk
    have hlt : n < i := List.mem_range.mp hn
    exact List.mem_flatMap.mpr ⟨n, List.mem_range.mpr (hlt.trans_le h), hkn⟩
  exact (List.subperm_of_subset (List.nodup_dedup _) hsub).length_le

end Extractor

/-! ## The claims of a run -/

variable {host : TextHost} {x : Extractor}

/-- The claims found so far: once a key, each of a key that was stated, and every one
    of them while the cap is not reached. -/
structure Found (maxClaims : Nat) (stated : List String) (claims : List ExtractedClaim) :
    Prop where
  nodup : (claims.map ExtractedClaim.key).Nodup
  sound : claims.map ExtractedClaim.key ⊆ stated
  complete : claims.length < maxClaims → stated ⊆ claims.map ExtractedClaim.key

variable {claims : List ExtractedClaim} {stated : List String}

/-- **The cap is reached** when that many different keys were stated. -/
theorem Found.lt_cap_iff {maxClaims : Nat} (h : Found maxClaims stated claims) :
    claims.length < maxClaims ↔ stated.dedup.length < maxClaims := by
  have hle : claims.length ≤ stated.dedup.length := by
    have hsub : claims.map ExtractedClaim.key ⊆ stated.dedup :=
      fun k hk => List.mem_dedup.mpr (h.sound hk)
    have hlen := (List.subperm_of_subset h.nodup hsub).length_le
    rwa [List.length_map] at hlen
  constructor
  · intro hlt
    have hsub : stated.dedup ⊆ claims.map ExtractedClaim.key :=
      fun k hk => h.complete hlt (List.mem_dedup.mp hk)
    have hlen := (List.subperm_of_subset (List.nodup_dedup _) hsub).length_le
    rw [List.length_map] at hlen
    exact hlen.trans_lt hlt
  · exact hle.trans_lt

theorem Found.addStatement {maxClaims : Nat} (h : Found maxClaims stated claims) (anchor : String)
    (statement : String × Option String) :
    Found maxClaims (stated ++ [claimKey host anchor statement.1])
      (Distill.addStatement host maxClaims anchor claims statement) := by
  have hold : ∀ k ∈ claims.map ExtractedClaim.key,
      k ∈ stated ++ [claimKey host anchor statement.1] :=
    fun k hk => List.mem_append_left _ (h.sound hk)
  unfold Distill.addStatement
  split
  · rename_i hfull
    exact ⟨h.nodup, hold, fun hlt => absurd hlt (Nat.not_lt.mpr hfull)⟩
  · rename_i hroom
    split
    · rename_i hmem
      refine ⟨h.nodup, hold, fun hlt k hk => ?_⟩
      rcases List.mem_append.mp hk with hk | hk
      · exact h.complete hlt hk
      · exact List.mem_singleton.mp hk ▸ hmem
    · rename_i hnew
      have hkeys : (claims ++ [(⟨claimKey host anchor statement.1, statement.1,
          titleOf statement.1, statement.2⟩ : ExtractedClaim)]).map ExtractedClaim.key
          = claims.map ExtractedClaim.key ++ [claimKey host anchor statement.1] :=
        List.map_append
      refine ⟨?_, ?_, ?_⟩
      · rw [hkeys]
        refine List.nodup_append.mpr ⟨h.nodup, List.nodup_singleton _, ?_⟩
        intro a ha b hb hab
        exact hnew (List.mem_singleton.mp hb ▸ hab ▸ ha)
      · rw [hkeys]
        intro k hk
        rcases List.mem_append.mp hk with hk | hk
        · exact hold k hk
        · exact List.mem_append_right _ hk
      · rw [hkeys]
        intro _ k hk
        rcases List.mem_append.mp hk with hk | hk
        · exact List.mem_append_left _ (h.complete (Nat.not_le.mp hroom) hk)
        · exact List.mem_append_right _ hk

theorem Found.addStatements {maxClaims : Nat} (h : Found maxClaims stated claims)
    (anchor : String) (statements : List (String × Option String)) :
    Found maxClaims (stated ++ statements.map fun s => claimKey host anchor s.1)
      (statements.foldl (Distill.addStatement host maxClaims anchor) claims) := by
  induction statements generalizing stated claims with
  | nil =>
      rw [List.map_nil, List.append_nil]
      exact h
  | cons statement statements ih =>
      rw [List.map_cons, ← List.singleton_append, ← List.append_assoc]
      exact ih (h.addStatement anchor statement)

/-! ## The spec of the loop -/

/-- What the loop has when it has gone through the first `n` chunks. -/
structure Upto (host : TextHost) (x : Extractor) (n : Nat) (acc : Extraction) : Prop where
  submitted : ∀ i < n, x.Submitted host i
  unmarked : ∀ i < n, x.marked i = false
  found : Found x.maxClaims (x.keysBefore host n) acc.claims
  answered : ∀ c, c ∈ acc.answered ↔
    ∃ i < n, (x.statements i).isSome = true ∧ x.chunks[i]? = some c
  errors : acc.chunkErrors ≠ [] ↔ ∃ i < n, x.statements i = none
  counted : acc.chunkErrors.length + acc.answered.length = n

variable {n : Nat}

theorem exists_lt_succ {P : Nat → Prop} : (∃ i < n + 1, P i) ↔ (∃ i < n, P i) ∨ P n := by
  constructor
  · rintro ⟨i, hi, hP⟩
    rcases Nat.lt_succ_iff_lt_or_eq.mp hi with hi | rfl
    · exact Or.inl ⟨i, hi, hP⟩
    · exact Or.inr hP
  · rintro (⟨i, hi, hP⟩ | hP)
    · exact ⟨i, hi.trans (Nat.lt_succ_self n), hP⟩
    · exact ⟨n, Nat.lt_succ_self n, hP⟩

theorem forall_lt_succ {P : Nat → Prop} (h : ∀ i < n, P i) (hn : P n) : ∀ i < n + 1, P i := by
  intro i hi
  rcases Nat.lt_succ_iff_lt_or_eq.mp hi with hi | rfl
  · exact h i hi
  · exact hn

variable {acc : Extraction}

theorem Upto.answer (h : Upto host x n acc) {chunk : Chunk}
    {statements : List (String × Option String)} (hsub : x.Submitted host n)
    (hmark : x.marked n = false) (hchunk : x.chunks[n]? = some chunk)
    (hst : x.statements n = some statements) :
    Upto host x (n + 1) { acc with
      llmCalls := acc.llmCalls + 1
      claims := statements.foldl (addStatement host x.maxClaims chunk.anchor) acc.claims
      answered := acc.answered ++ [chunk] } := by
  refine ⟨forall_lt_succ h.submitted hsub, forall_lt_succ h.unmarked hmark, ?_, ?_, ?_, ?_⟩
  · rw [Extractor.keysBefore_succ]
    have hkeys : x.keys host n = statements.map fun s => claimKey host chunk.anchor s.1 := by
      simp only [Extractor.keys, hst, hchunk, Option.getD_some, Option.map_some]
    rw [hkeys]
    exact h.found.addStatements chunk.anchor statements
  · intro c
    show c ∈ acc.answered ++ [chunk] ↔ _
    have hself : ((some statements).isSome = true ∧ some chunk = some c) ↔ c = chunk :=
      ⟨fun hc => (Option.some.inj hc.2).symm, fun hc => ⟨rfl, congrArg some hc.symm⟩⟩
    rw [List.mem_append, h.answered, List.mem_singleton, exists_lt_succ, hst, hchunk, hself]
  · show acc.chunkErrors ≠ [] ↔ _
    rw [h.errors, exists_lt_succ, hst]
    simp
  · show acc.chunkErrors.length + (acc.answered ++ [chunk]).length = n + 1
    rw [List.length_append, List.length_singleton, ← Nat.add_assoc, h.counted]

theorem Upto.error (h : Upto host x n acc) (hsub : x.Submitted host n)
    (hmark : x.marked n = false) (hst : x.statements n = none) (e : String × String) :
    Upto host x (n + 1) { acc with
      llmCalls := acc.llmCalls + 1
      chunkErrors := acc.chunkErrors ++ [e] } := by
  refine ⟨forall_lt_succ h.submitted hsub, forall_lt_succ h.unmarked hmark, ?_, ?_, ?_, ?_⟩
  · have hkeys : x.keys host n = [] := by
      simp only [Extractor.keys, hst, Option.getD_none, List.map_nil]
    rw [Extractor.keysBefore_succ, hkeys, List.append_nil]
    exact h.found
  · intro c
    show c ∈ acc.answered ↔ _
    rw [h.answered, exists_lt_succ, hst]
    simp
  · show acc.chunkErrors ++ [e] ≠ [] ↔ _
    rw [exists_lt_succ]
    simp [hst]
  · show (acc.chunkErrors ++ [e]).length + acc.answered.length = n + 1
    rw [List.length_append, List.length_singleton, ← h.counted]
    omega

/-- What the loop leaves: where it has stopped, and that nothing is answered or fails
    from there on. -/
def Stopped (host : TextHost) (x : Extractor) (out : Extraction) : Prop :=
  ∃ n, Upto host x n out ∧ out.llmCalls - (if out.budgetExhausted then 1 else 0) = n
    ∧ ∀ i, n ≤ i → ¬ x.Answered host i ∧ ¬ x.Failed host i

/-- **The loop**, from the chunk it has come to. -/
theorem stopped_extractFrom {rest : List Chunk} (hrest : x.chunks.drop n = rest)
    (h : Upto host x n acc) (hcalls : acc.llmCalls = n) (hbudget : acc.budgetExhausted = false) :
    Stopped host x (extractFrom host x rest acc) := by
  induction rest generalizing n acc with
  | nil =>
      have hlen : x.chunks.length ≤ n := List.drop_eq_nil_iff.mp hrest
      refine ⟨n, h, ?_, ?_⟩
      · show acc.llmCalls - (if acc.budgetExhausted then 1 else 0) = n
        rw [hcalls, hbudget]
        rfl
      · intro i hi
        have hno : ¬ x.Submitted host i := fun hs =>
          absurd (hs.1.trans_le (hlen.trans hi)) (Nat.lt_irrefl _)
        exact ⟨fun ha => hno ha.1, fun hf => hno hf.1⟩
  | cons chunk rest ih =>
      have hchunk : x.chunks[n]? = some chunk := by
        have hhead := congrArg List.head? hrest
        rwa [List.head?_drop] at hhead
      have hlt : n < x.chunks.length := (List.getElem?_eq_some_iff.mp hchunk).1
      have htail : x.chunks.drop (n + 1) = rest := by
        have htl := congrArg List.tail hrest
        rwa [List.tail_drop] at htl
      simp only [extractFrom]
      split
      · -- the cap is reached, and stays reached
        rename_i hfull
        refine ⟨n, h, by rw [hcalls, hbudget]; rfl, ?_⟩
        intro i hi
        have hno : ¬ x.Submitted host i := by
          rintro ⟨-, -, -, hcap⟩
          have hcap' := (Extractor.keysBefore_mono hi).trans_lt hcap
          exact absurd (h.found.lt_cap_iff.mpr hcap') (Nat.not_lt.mpr hfull)
        exact ⟨fun ha => hno ha.1, fun hf => hno hf.1⟩
      · rename_i hroom
        by_cases hspent : x.maxLlmCalls ≤ n
        · -- the budget is spent, and stays spent
          have hrefused : isBudgetExhaustedError ⟨.runtime, budgetExhaustedMarker
              ++ " (--max-llm-calls " ++ toString x.maxLlmCalls ++ ")"⟩ = true := by
            simp only [isBudgetExhaustedError, decide_true, Bool.true_and, decide_eq_true_eq]
            rw [String.append_assoc, String.append_assoc, String.toList_append]
            exact (List.prefix_append _ _).isInfix
          rw [withCallBudget, hcalls, if_pos hspent]
          simp only [hrefused, if_true]
          refine ⟨n, ⟨h.submitted, h.unmarked, h.found, h.answered, h.errors, h.counted⟩, rfl, ?_⟩
          intro i hi
          have hno : ¬ x.Submitted host i := fun hs =>
            absurd (hs.2.1.trans_le (hspent.trans hi)) (Nat.lt_irrefl _)
          exact ⟨fun ha => hno ha.1, fun hf => hno hf.1⟩
        · have hsub : x.Submitted host n :=
            ⟨hlt, Nat.not_le.mp hspent, h.unmarked, h.found.lt_cap_iff.mp (Nat.not_le.mp hroom)⟩
          rw [withCallBudget, hcalls, if_neg hspent]
          cases hreply : x.llm n chunk with
          | error e =>
              have hmark : x.marked n = isBudgetExhaustedError e := by
                simp only [Extractor.marked, hchunk, Option.any_some, hreply]
              have hst : x.statements n = none := by
                simp only [Extractor.statements, hchunk, Option.bind_some, hreply]
              dsimp only
              split
              · -- an error of the model that reads like a spent budget
                rename_i hlooks
                rw [hlooks] at hmark
                refine ⟨n, ⟨h.submitted, h.unmarked, h.found, h.answered, h.errors,
                  h.counted⟩, rfl, ?_⟩
                intro i hi
                rcases Nat.eq_or_lt_of_le hi with rfl | hi
                · refine ⟨fun ha => ?_, fun hf => ?_⟩
                  · rw [Extractor.Answered, hst] at ha
                    cases ha.2
                  · rw [Extractor.Failed, hmark] at hf
                    cases hf.2.2
                · have hno : ¬ x.Submitted host i := by
                    rintro ⟨-, -, hmarks, -⟩
                    rw [hmarks n hi] at hmark
                    cases hmark
                  exact ⟨fun ha => hno ha.1, fun hf => hno hf.1⟩
              · rename_i hnot
                rw [Bool.not_eq_true] at hnot
                have hacc := h.error hsub (hmark.trans hnot) hst (chunk.anchor, e.message)
                rw [hcalls] at hacc
                exact ih htail hacc rfl hbudget
          | ok reply =>
              obtain ⟨parsed, text⟩ := reply
              have hmark : x.marked n = false := by
                simp only [Extractor.marked, hchunk, Option.any_some, hreply]
              have hst : x.statements n = parseStatements parsed chunk.timestamps := by
                simp only [Extractor.statements, hchunk, Option.bind_some, hreply]
              dsimp only
              cases hparsed : parseStatements parsed chunk.timestamps with
              | none =>
                  have hacc := h.error hsub hmark (hst.trans hparsed)
                    (chunk.anchor, "unusable response shape: "
                      ++ String.ofList (takeUnits 120 text.toList))
                  rw [hcalls] at hacc
                  exact ih htail hacc rfl hbudget
              | some statements =>
                  have hacc := h.answer hsub hmark hchunk (hst.trans hparsed)
                  rw [hcalls] at hacc
                  exact ih htail hacc rfl hbudget

theorem stopped_extractClaims (host : TextHost) (x : Extractor) :
    Stopped host x (extractClaims host x) := by
  refine stopped_extractFrom (n := 0) List.drop_zero ⟨?_, ?_, ?_, ?_, ?_, rfl⟩ rfl rfl
  · intro i hi
    exact absurd hi (Nat.not_lt_zero i)
  · intro i hi
    exact absurd hi (Nat.not_lt_zero i)
  · exact ⟨List.nodup_nil, List.nil_subset _, fun _ => List.nil_subset _⟩
  · intro c
    simp
  · simp

/-- **What the loop answers, fails and finds is what the inputs say**: the chunks that
    are answered; whether some chunk is an error while nothing is claimed; and whether
    every attempt is an error. -/
theorem extractClaims_spec (host : TextHost) (x : Extractor) :
    (∀ c, c ∈ (extractClaims host x).answered ↔ ∃ i, x.Answered host i ∧ x.chunks[i]? = some c)
      ∧ ((extractClaims host x).chunkErrors ≠ [] ∧ (extractClaims host x).claims = []
          ↔ x.LearnsNothing host) ∧ ((extractClaims host x).llmCalls
            - (if (extractClaims host x).budgetExhausted then 1 else 0)
            = (extractClaims host x).chunkErrors.length →
          (extractClaims host x).chunkErrors ≠ [] → x.LearnsNothing host) := by
  obtain ⟨n, h, hattempted, hlater⟩ := stopped_extractClaims host x
  -- nothing is answered or fails from where the loop has stopped
  have hbelow : ∀ i, x.Answered host i → i < n := by
    intro i hi
    by_contra hn
    exact (hlater i (Nat.not_lt.mp hn)).1 hi
  have hfailed : (∃ i, x.Failed host i) ↔ (extractClaims host x).chunkErrors ≠ [] := by
    rw [h.errors]
    constructor
    · rintro ⟨i, hi⟩
      refine ⟨i, ?_, hi.2.1⟩
      by_contra hn
      exact (hlater i (Nat.not_lt.mp hn)).2 hi
    · rintro ⟨i, hi, hst⟩
      exact ⟨i, h.submitted i hi, hst, h.unmarked i hi⟩
  have hclaims : (extractClaims host x).claims = [] ↔
      ∀ i, x.Answered host i → x.statements i = some [] := by
    constructor
    · intro hnil i hi
      obtain ⟨statements, hst⟩ := Option.isSome_iff_exists.mp hi.2
      have hcap : (extractClaims host x).claims.length < x.maxClaims := by
        rw [hnil]
        exact Nat.lt_of_le_of_lt (Nat.zero_le _) hi.1.2.2.2
      have hsub := h.found.complete hcap
      rw [hnil] at hsub
      cases statements with
      | nil => exact hst
      | cons s statements =>
          have hkey : claimKey host ((x.chunks[i]?.map Chunk.anchor).getD "") s.1
              ∈ x.keysBefore host n := by
            refine List.mem_flatMap.mpr ⟨i, List.mem_range.mpr (hbelow i hi), ?_⟩
            rw [Extractor.keys, hst]
            exact List.mem_cons_self
          exact absurd (hsub hkey) List.not_mem_nil
    · intro hnone
      have hkeys : x.keysBefore host n = [] := by
        rw [Extractor.keysBefore, List.flatMap_eq_nil_iff]
        intro i hi
        rw [Extractor.keys]
        cases hst : x.statements i with
        | none => rfl
        | some statements =>
            have ha : x.Answered host i :=
              ⟨h.submitted i (List.mem_range.mp hi), by rw [hst]; rfl⟩
            rw [hnone i ha] at hst
            obtain rfl := Option.some.inj hst
            rfl
      have hsound := h.found.sound
      rw [hkeys] at hsound
      exact List.map_eq_nil_iff.mp (List.subset_nil.mp hsound)
  refine ⟨?_, ?_, ?_⟩
  · intro c
    rw [h.answered]
    constructor
    · rintro ⟨i, hi, hst, hc⟩
      exact ⟨i, ⟨h.submitted i hi, hst⟩, hc⟩
    · rintro ⟨i, hi, hc⟩
      exact ⟨i, hbelow i hi, hi.2, hc⟩
  · rw [Extractor.LearnsNothing, hfailed, hclaims]
  · intro hall hne
    refine ⟨hfailed.mpr hne, ?_⟩
    intro i hi
    have hcounted := h.counted
    have hnil : (extractClaims host x).answered = [] :=
      List.length_eq_zero_iff.mp (by omega)
    obtain ⟨chunk, hchunk⟩ : ∃ chunk, x.chunks[i]? = some chunk :=
      ⟨_, List.getElem?_eq_getElem hi.1.1⟩
    have hmem := (h.answered chunk).mpr ⟨i, hbelow i hi, hi.2, hchunk⟩
    rw [hnil] at hmem
    cases hmem

end Distill
