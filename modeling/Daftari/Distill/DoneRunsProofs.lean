import Daftari.Distill.ExtractProofs
import Daftari.Distill.UpsertRunsProofs

/-! # What is recorded as done — extraction, then the upsert

    `distill/cli.ts`: a `--propose` run extracts the claims of every chunk it can and
    hands the claims, with the number of errors, to the upsert, which records the
    content's hash for the scope.  The upsert does not know which chunks were read.

    * `done_means_read`: **in every sequence of such runs what is done was read, and a
      run keeps this exactly when it is one of them**. -/

namespace Distill

/-! ## A run -/

/-- The inputs of a `--propose` run: the document, the sender it is for, its chunks
    with the model and the limits, the emitter, and whether the state can be written. -/
structure ProposeRun where
  content : List Char
  sender : Option String
  extractor : Extractor
  emitter : Emitter
  stateWrites : Bool

variable (hash : List Char → String) (host : TextHost)

/-- What the run hands to the upsert. -/
def ProposeRun.input (r : ProposeRun) : Input where
  content := r.content
  claims := (extractClaims host r.extractor).claims
  scope := r.sender.map fun sender => "sender:" ++ sender
  extractionErrors := (extractClaims host r.extractor).chunkErrors.length

/-- Every attempted chunk was an error: the run ends before the upsert. -/
def Extraction.allFailed (out : Extraction) : Bool :=
  let attempted := out.llmCalls - (if out.budgetExhausted then 1 else 0)
  decide (0 < attempted) && decide (out.chunkErrors.length = attempted)

/-- The record after a run, and whether the run was a no-op. -/
def proposeRecord (record : Option SourceState) (r : ProposeRun) : Option SourceState × Bool :=
  if (extractClaims host r.extractor).allFailed then (record, false)
  else
    match openRun hash record (r.input host) with
    | .returns outcome => (record, outcome.noop)
    | .offers plan =>
        if r.stateWrites then
          (some (closeRun record plan (r.emitter.propose plan.toPropose)).1, false)
        else (record, false)

/-! ## Sequences of runs -/

/-- One run in the log; `done` when the run has recorded the content's hash. -/
structure DoneEntry where
  scope : Option String
  content : List Char
  chunks : List Chunk
  answered : List Chunk
  noop : Bool
  done : Bool
deriving DecidableEq

structure DoneSession where
  record : Option SourceState
  log : List DoneEntry

def hasDone (record : Option SourceState) (input : Input) : Bool :=
  decide (record.bind (·.hashOf input.scopeKey) = some (input.contentHash hash))

namespace DoneSession

/-- The log's entry of a run. -/
def entry (s : DoneSession) (r : ProposeRun) : DoneEntry where
  scope := (r.input host).scopeKey
  content := r.content
  chunks := r.extractor.chunks
  answered := (extractClaims host r.extractor).answered
  noop := (proposeRecord hash host s.record r).2
  done := !hasDone hash s.record (r.input host)
    && hasDone hash (proposeRecord hash host s.record r).1 (r.input host)

def propose (s : DoneSession) (r : ProposeRun) : DoneSession :=
  ⟨(proposeRecord hash host s.record r).1, s.log ++ [s.entry hash host r]⟩

def land (s : DoneSession) (key path : String) : DoneSession :=
  ⟨some { s.record.getD .initial with
    claims := landClaim (s.record.getD .initial).claims key path }, s.log⟩

end DoneSession

inductive DoneAction where
  | propose (r : ProposeRun)
  | land (key path : String)

/-- **Any sequence of runs and ratifications of one source.** -/
def proposals : Machine DoneSession DoneAction where
  enabled _ _ := True
  next s
    | .propose r => s.propose hash host r
    | .land key path => s.land key path

instance (s : DoneSession) (a : DoneAction) : Decidable ((proposals hash host).enabled s a) :=
  inferInstanceAs (Decidable True)

/-- What is done was read, in that run or an earlier one over the same content. -/
def DoneMeansRead (log : List DoneEntry) : Prop :=
  ∀ pre e post, log = pre ++ e :: post → e.done = true →
    ∀ c ∈ e.chunks, ∃ f ∈ pre ++ [e], f.scope = e.scope ∧ f.content = e.content
      ∧ c ∈ f.answered

/-- What is skipped as unchanged was done before. -/
def SkipsDone (log : List DoneEntry) : Prop :=
  ∀ pre e post, log = pre ++ e :: post → e.noop = true →
    ∃ f ∈ pre, f.done = true ∧ f.scope = e.scope
      ∧ contentHashOf hash f.scope f.content = contentHashOf hash e.scope e.content

/-! ## The condition on one run -/

def Covered (s : DoneSession) (r : ProposeRun) : Prop :=
  ∀ c ∈ r.extractor.chunks,
    (∃ i, r.extractor.Answered host i ∧ r.extractor.chunks[i]? = some c)
      ∨ ∃ f ∈ s.log, f.scope = (r.input host).scopeKey ∧ f.content = r.content
        ∧ c ∈ f.answered

def Staged (record : Option SourceState) (r : ProposeRun) : Prop :=
  unresolved (planOf hash record (r.input host))
    (r.emitter.propose (planOf hash record (r.input host)).toPropose) = []

/-- **The condition on one run**: every chunk is covered; or the run records nothing, since it
    learns nothing, the content is done, staging is incomplete, or the state cannot be written. -/
def Fine (s : DoneSession) : DoneAction → Prop
  | .land _ _ => True
  | .propose r => Covered host s r ∨ r.extractor.LearnsNothing host
      ∨ hasDone hash s.record (r.input host) = true ∨ ¬ Staged hash host s.record r
      ∨ r.stateWrites = false

variable {hash host} {s : DoneSession} {r : ProposeRun}

/-! ## What one run does to the record -/

theorem learnsNothing_of_allFailed (h : (extractClaims host r.extractor).allFailed = true) :
    r.extractor.LearnsNothing host := by
  obtain ⟨hpos, hall⟩ := Bool.and_eq_true_iff.mp h
  have hpos' := of_decide_eq_true hpos
  have hall' := of_decide_eq_true hall
  refine (extractClaims_spec host r.extractor).2.2 hall'.symm ?_
  intro hnil
  rw [hnil, List.length_nil] at hall'
  omega

/-- **A run of the record**: it stays, or the run closes with what it has planned. -/
theorem proposeRecord_cases (hash : List Char → String) (host : TextHost)
    (record : Option SourceState) (r : ProposeRun) : (proposeRecord hash host record r).1 = record
        ∧ ((proposeRecord hash host record r).2 = true → hasDone hash record (r.input host) = true)
        ∧ (r.extractor.LearnsNothing host ∨ hasDone hash record (r.input host) = true
          ∨ r.stateWrites = false) ∨ (proposeRecord hash host record r).1 = some (closeRun record
            (planOf hash record (r.input host))
            (r.emitter.propose (planOf hash record (r.input host)).toPropose)).1
        ∧ (proposeRecord hash host record r).2 = false ∧ ¬ r.extractor.LearnsNothing host
        ∧ hasDone hash record (r.input host) = false ∧ r.stateWrites = true := by
  simp only [proposeRecord]
  split
  · rename_i hfailed
    exact Or.inl ⟨rfl, fun h => (Bool.false_ne_true h).elim,
      Or.inl (learnsNothing_of_allFailed hfailed)⟩
  · simp only [openRun]
    by_cases hdone : record.bind (·.hashOf (r.input host).scopeKey)
        = some ((r.input host).contentHash hash)
    · rw [if_pos hdone]
      have hhas : hasDone hash record (r.input host) = true := decide_eq_true hdone
      exact Or.inl ⟨rfl, fun _ => hhas, Or.inr (Or.inl hhas)⟩
    · rw [if_neg hdone]
      have hlearns : (0 < (r.input host).extractionErrors ∧ (r.input host).claims = [])
          ↔ r.extractor.LearnsNothing host := by
        rw [← (extractClaims_spec host r.extractor).2.1]
        show (0 < (extractClaims host r.extractor).chunkErrors.length ∧ _) ↔ _
        rw [List.length_pos_iff]
        rfl
      by_cases hnothing : 0 < (r.input host).extractionErrors ∧ (r.input host).claims = []
      · rw [if_pos hnothing]
        exact Or.inl ⟨rfl, fun h => (Bool.false_ne_true h).elim, Or.inl (hlearns.mp hnothing)⟩
      · rw [if_neg hnothing]
        cases hwrites : r.stateWrites with
        | false =>
            exact Or.inl ⟨rfl, fun h => (Bool.false_ne_true h).elim, Or.inr (Or.inr rfl)⟩
        | true =>
            exact Or.inr ⟨rfl, rfl, fun h => hnothing (hlearns.mpr h), decide_eq_false hdone,
              rfl⟩

theorem hasDone_closeRun (hne : ∀ c, hash c ≠ "") {record : Option SourceState}
    (hdone : hasDone hash record (r.input host) = false) :
    hasDone hash (some (closeRun record (planOf hash record (r.input host))
        (r.emitter.propose (planOf hash record (r.input host)).toPropose)).1) (r.input host)
      = true ↔ Staged hash host record r := by
  have hbefore := of_decide_eq_false hdone
  rw [hasDone, decide_eq_true_eq, Option.bind_some]
  constructor
  · intro hafter
    by_contra hnot
    rw [hashOf_incomplete hnot] at hafter
    cases record with
    | some st => exact hbefore hafter
    | none =>
        -- before the first record there is no hash but the empty one
        cases hscope : (r.input host).scopeKey with
        | some scope =>
            rw [hscope] at hafter
            cases hafter
        | none =>
            rw [hscope] at hafter
            exact hne _ (Option.some.inj hafter).symm
  · intro hstaged
    have hscope : (r.input host).scopeKey = (planOf hash record (r.input host)).scope := rfl
    rw [hashOf_complete hstaged, if_pos hscope]
    rfl

/-- **A run records its content as done** exactly when it is none of those that record nothing. -/
theorem entry_done_iff (hne : ∀ c, hash c ≠ "") (s : DoneSession) (r : ProposeRun) :
    (s.entry hash host r).done = true ↔ ¬ r.extractor.LearnsNothing host
      ∧ hasDone hash s.record (r.input host) = false ∧ Staged hash host s.record r
      ∧ r.stateWrites = true := by
  rw [DoneSession.entry, Bool.and_eq_true, Bool.not_eq_true']
  rcases proposeRecord_cases hash host s.record r with
    ⟨hsame, -, hwhy⟩ | ⟨hclosed, -, hlearns, hdone, hwrites⟩
  · rw [hsame]
    constructor
    · rintro ⟨hno, hyes⟩
      rw [hno] at hyes
      cases hyes
    · rintro ⟨hlearns, hdone, -, hwrites⟩
      rcases hwhy with h | h | h
      · exact absurd h hlearns
      · rw [hdone] at h
        cases h
      · rw [hwrites] at h
        cases h
  · rw [hclosed, hasDone_closeRun hne hdone]
    constructor
    · rintro ⟨-, hstaged⟩
      exact ⟨hlearns, hdone, hstaged, hwrites⟩
    · rintro ⟨-, -, hstaged, -⟩
      exact ⟨hdone, hstaged⟩

/-! ## The record's hashes and the log -/

def HashesLogged (hash : List Char → String) (s : DoneSession) : Prop :=
  ∀ scope h, s.record.bind (·.hashOf scope) = some h → h ≠ "" →
    ∃ f ∈ s.log, f.done = true ∧ f.scope = scope ∧ contentHashOf hash f.scope f.content = h

theorem HashesLogged.propose (hne : ∀ c, hash c ≠ "") (h : HashesLogged hash s)
    (r : ProposeRun) : HashesLogged hash (s.propose hash host r) := by
  -- a hash that was there before is logged still
  have hkept : ∀ scope h', s.record.bind (·.hashOf scope) = some h' → h' ≠ "" →
      ∃ f ∈ s.log ++ [s.entry hash host r], f.done = true ∧ f.scope = scope
        ∧ contentHashOf hash f.scope f.content = h' := by
    intro scope h' hrecord hempty
    obtain ⟨f, hf, hrest⟩ := h scope h' hrecord hempty
    exact ⟨f, List.mem_append_left _ hf, hrest⟩
  intro scope h' hrecord hempty
  replace hrecord : (proposeRecord hash host s.record r).1.bind (·.hashOf scope) = some h' :=
    hrecord
  rcases proposeRecord_cases hash host s.record r with
    ⟨hsame, -, -⟩ | ⟨hclosed, -, hlearns, hdone, hwrites⟩
  · rw [hsame] at hrecord
    exact hkept scope h' hrecord hempty
  · rw [hclosed, Option.bind_some] at hrecord
    have hold : (s.record.getD .initial).hashOf scope = some h' →
        s.record.bind (·.hashOf scope) = some h' := by
      intro hget
      cases hrec : s.record with
      | some st =>
          rw [hrec] at hget
          exact hget
      | none =>
          rw [hrec, Option.getD_none] at hget
          cases scope with
          | none => exact absurd (Option.some.inj hget).symm hempty
          | some scope => cases hget
    by_cases hstaged : Staged hash host s.record r
    · rw [hashOf_complete hstaged] at hrecord
      split at hrecord
      · rename_i hscope
        refine ⟨s.entry hash host r, List.mem_append_right _ (List.mem_singleton_self _),
          (entry_done_iff hne s r).mpr ⟨hlearns, hdone, hstaged, hwrites⟩, hscope.symm, ?_⟩
        exact Option.some.inj hrecord
      · exact hkept scope h' (hold hrecord) hempty
    · rw [hashOf_incomplete hstaged] at hrecord
      exact hkept scope h' (hold hrecord) hempty

theorem HashesLogged.land (h : HashesLogged hash s) (key path : String) :
    HashesLogged hash (s.land key path) := by
  intro scope h' hrecord hempty
  refine h scope h' ?_ hempty
  have hget : (s.record.getD .initial).hashOf scope = some h' := hrecord
  cases hrec : s.record with
  | some st =>
      rw [hrec] at hget
      exact hget
  | none =>
      rw [hrec, Option.getD_none] at hget
      cases scope with
      | none => exact absurd (Option.some.inj hget).symm hempty
      | some scope => cases hget

theorem SkipsDone.propose (hne : ∀ c, hash c ≠ "") (hskips : SkipsDone hash s.log)
    (h : HashesLogged hash s) (r : ProposeRun) :
    SkipsDone hash (s.propose hash host r).log := by
  intro pre e post hlog hnoop
  rcases Machine.split_append hlog with ⟨rfl, rfl, -⟩ | ⟨post', rfl, hold⟩
  · have hdone : hasDone hash s.record (r.input host) = true := by
      rcases proposeRecord_cases hash host s.record r with
        ⟨-, hwhy, -⟩ | ⟨-, hno, -⟩
      · exact hwhy hnoop
      · rw [DoneSession.entry, hno] at hnoop
        cases hnoop
    exact h _ _ (of_decide_eq_true hdone) (hne _)
  · exact hskips pre e post' hold hnoop

/-! ## Every run -/

/-- **A run keeps what is done read exactly when it is fine.** -/
theorem doneMeansRead_propose_iff (hne : ∀ c, hash c ≠ "") (h : DoneMeansRead s.log) :
    DoneMeansRead (s.propose hash host r).log ↔ Fine hash host s (.propose r) := by
  have hanswered : ∀ c, c ∈ (s.entry hash host r).answered ↔
      ∃ i, r.extractor.Answered host i ∧ r.extractor.chunks[i]? = some c :=
    (extractClaims_spec host r.extractor).1
  -- the new entry asks for what `Covered` says
  have hcovered : (∀ c ∈ (s.entry hash host r).chunks, ∃ f ∈ s.log ++ [s.entry hash host r],
      f.scope = (s.entry hash host r).scope ∧ f.content = (s.entry hash host r).content
        ∧ c ∈ f.answered) ↔ Covered host s r := by
    constructor
    · intro hall c hc
      obtain ⟨f, hf, hscope, hcontent, hmem⟩ := hall c hc
      rcases List.mem_append.mp hf with hf | hf
      · exact Or.inr ⟨f, hf, hscope, hcontent, hmem⟩
      · obtain rfl := List.mem_singleton.mp hf
        exact Or.inl ((hanswered c).mp hmem)
    · intro hall c hc
      rcases hall c hc with hhere | ⟨f, hf, hrest⟩
      · exact ⟨s.entry hash host r, List.mem_append_right _ (List.mem_singleton_self _),
          rfl, rfl, (hanswered c).mpr hhere⟩
      · exact ⟨f, List.mem_append_left _ hf, hrest⟩
  constructor
  · intro hread
    by_cases hdone : (s.entry hash host r).done = true
    · exact Or.inl (hcovered.mp (hread s.log _ [] rfl hdone))
    · by_contra hfine
      simp only [Fine, not_or, not_not, Bool.not_eq_true, Bool.not_eq_false] at hfine
      exact hdone ((entry_done_iff hne s r).mpr
        ⟨hfine.2.1, hfine.2.2.1, hfine.2.2.2.1, hfine.2.2.2.2⟩)
  · intro hfine pre e post hlog hdone
    rcases Machine.split_append hlog with ⟨rfl, rfl, -⟩ | ⟨post', rfl, hold⟩
    · obtain ⟨hlearns, hnew, hstaged, hwrites⟩ := (entry_done_iff hne s r).mp hdone
      rcases hfine with hcov | h | h | h | h
      · exact hcovered.mpr hcov
      · exact absurd h hlearns
      · rw [hnew] at h
        cases h
      · exact absurd hstaged h
      · rw [hwrites] at h
        cases h
    · exact h pre e post' hold hdone

/-- **Done means read.**  In every sequence of runs that are fine, what is recorded as done was read
    and what is skipped was done; and there a run keeps this exactly when it is fine. -/
theorem done_means_read (hash : List Char → String) (hne : ∀ c, hash c ≠ "")
    (host : TextHost) {s : DoneSession}
    (h : ((proposals hash host).restrict (Fine hash host)).Reach ⟨none, []⟩ s) :
    DoneMeansRead s.log ∧ SkipsDone hash s.log
      ∧ ∀ r, DoneMeansRead (s.propose hash host r).log ↔ Fine hash host s (.propose r) := by
  have hinv : DoneMeansRead s.log ∧ SkipsDone hash s.log ∧ HashesLogged hash s := by
    refine Machine.reach_invariant (I := fun s =>
      DoneMeansRead s.log ∧ SkipsDone hash s.log ∧ HashesLogged hash s) ?_ ?_ h
    · rintro s a ⟨hread, hskips, hlogged⟩ ⟨-, hfine⟩
      cases a with
      | propose r =>
          exact ⟨(doneMeansRead_propose_iff hne hread).mpr hfine,
            hskips.propose hne hlogged r, hlogged.propose hne r⟩
      | land key path => exact ⟨hread, hskips, hlogged.land key path⟩
    · refine ⟨?_, ?_, ?_⟩
      · intro pre e post hlog
        exact absurd hlog.symm (List.append_ne_nil_of_right_ne_nil _ (List.cons_ne_nil _ _))
      · intro pre e post hlog
        exact absurd hlog.symm (List.append_ne_nil_of_right_ne_nil _ (List.cons_ne_nil _ _))
      · intro scope h' hrecord
        cases hrecord
  exact ⟨hinv.1, hinv.2.1, fun r => doneMeansRead_propose_iff hne hinv.1⟩

/-! ## Two sources -/

private def plainText : TextHost := ⟨id, id⟩

private def chunkAt (i : Nat) (anchor : String) : Chunk := ⟨i, anchor, "t", "text", ["t"]⟩

private def oneClaim : Reply :=
  .ok (.obj [("claims", .arr [.obj [("statement", .str "ships")]])], "")

/-- A run over two chunks, where the model may fail on the second one. -/
private def twoChunks (second : Reply) : ProposeRun where
  content := ['x']
  sender := none
  extractor :=
    { chunks := [chunkAt 0 "a", chunkAt 1 "b"]
      llm := fun i _ => if i = 0 then oneClaim else second
      maxLlmCalls := 10
      maxClaims := 50 }
  emitter := failing []
  stateWrites := true

private theorem textHash_ne (c : List Char) : textHash c ≠ "" := by
  intro hc
  have htext := congrArg String.toList hc
  rw [textHash, String.toList_ofList] at htext
  cases htext

/-- A run whose chunks are both answered is done, and was read. -/
theorem both_chunks_read :
    ((DoneSession.mk none []).propose textHash plainText (twoChunks oneClaim)).log.map
        DoneEntry.done = [true]
      ∧ DoneMeansRead
        ((DoneSession.mk none []).propose textHash plainText (twoChunks oneClaim)).log := by
  refine ⟨by decide +kernel, ?_⟩
  have hread : ∀ c ∈ (twoChunks oneClaim).extractor.chunks,
      c ∈ (extractClaims plainText (twoChunks oneClaim).extractor).answered := by
    decide +kernel
  have hfine : Fine textHash plainText ⟨none, []⟩ (.propose (twoChunks oneClaim)) :=
    Or.inl fun c hc => Or.inl (((extractClaims_spec _ _).1 c).mp (hread c hc))
  exact (done_means_read textHash textHash_ne plainText
    ((Machine.Reach.refl _).step (a := .propose (twoChunks oneClaim)) ⟨trivial, hfine⟩)).1

/-- The log of the run whose second chunk fails, and of the run after it. -/
private def skipped : List DoneEntry :=
  [⟨none, ['x'], [chunkAt 0 "a", chunkAt 1 "b"], [chunkAt 0 "a"], false, true⟩,
    ⟨none, ['x'], [chunkAt 0 "a", chunkAt 1 "b"], [chunkAt 0 "a", chunkAt 1 "b"], true, false⟩]

/-- **An unread chunk is done.**  The second chunk fails, the hash is recorded, and the
    next run over the same content is skipped. -/
theorem unread_chunk_is_done : ∃ s, (proposals textHash plainText).Reach ⟨none, []⟩ s
    ∧ s.log.map DoneEntry.noop = [false, true] ∧ ¬ DoneMeansRead s.log := by
  obtain ⟨s, hs, hlog⟩ : ∃ s, (proposals textHash plainText).Reach ⟨none, []⟩ s
      ∧ decide (s.log = skipped) = true :=
    Machine.reach_of_runs_any
      (l := [.propose (twoChunks (.error ⟨.llm, "overloaded"⟩)), .propose (twoChunks oneClaim)])
      (by decide +kernel)
  have hlog' := of_decide_eq_true hlog
  refine ⟨s, hs, by rw [hlog']; rfl, ?_⟩
  intro hread
  obtain ⟨f, hf, -, -, hmem⟩ := hread [] _ _ hlog' rfl (chunkAt 1 "b")
    (List.mem_cons_of_mem _ List.mem_cons_self)
  obtain rfl := List.mem_singleton.mp hf
  exact absurd hmem (by decide)

end Distill
