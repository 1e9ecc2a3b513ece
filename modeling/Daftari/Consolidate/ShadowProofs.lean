import Daftari.Consolidate.SessionProofs
import Daftari.Tools.WriteEffectsProofs
import Mathlib.Algebra.Order.BigOperators.Group.List

/-! # Shadow mode — what a session changes when it should change nothing

    In shadow mode the observer and the contester are stubs.  The tension
    recorder and the lineage appender are not: the first appends to the tension
    log, the second reads the document (which is logged) and calls `vault_write`,
    which stops at its own shadow gate after it has advanced the shared spend.

    * `Shadowed.foldl`: what the steps of a loop add to each store;
    * `shadow_changes_iff`: **exactly when each store stands**. -/

namespace Consolidate

open Frontmatter (Value asString texts ParsedDocument parseDocument Raw)
open Edges (DerivesFromEdge EdgeStatus ObserveEdgeInput ContestEdgeInput edgeAxes canonPair)
open Tension (Str TensionInput)

variable {B T S : Type} {env : Env B T S}

/-! ## Steps -/

/-- The log after one recorded tension, dated by the clock. -/
def record (log : Option Str) (x : Str × TensionInput) : Option Str :=
  recordTension x.1 x.2 log

/-- **What a shadow step adds**: the tensions it records, the reads it logs and the
    impacts it spends; documents and edges stand, and the journals grow. -/
structure Shadowed (w w' : World B S) (pending : List (Str × TensionInput))
    (served : List ReadLogEntry) (impacts : List ℚ) : Prop where
  files : w'.files = w.files
  edges : w'.edges = w.edges
  tensions : w'.tensions = pending.foldl record w.tensions
  readLog : w'.readLog = w.readLog ++ served
  spent : w'.spent = w.spent + impacts.sum
  journal : w.journal <+: w'.journal
  births : w.births <+: w'.births
  revisions : w.revisions <+: w'.revisions

theorem Shadowed.refl (w : World B S) : Shadowed w w [] [] [] where
  files := rfl
  edges := rfl
  tensions := rfl
  readLog := (List.append_nil _).symm
  spent := (add_zero _).symm
  journal := List.prefix_rfl
  births := List.prefix_rfl
  revisions := List.prefix_rfl

theorem Shadowed.recorded {w w' : World B S} (h : Shadowed w w' [] [] [])
    (x : Str × TensionInput) :
    Shadowed w { w' with tensions := record w'.tensions x } [x] [] [] where
  files := h.files
  edges := h.edges
  tensions := congrArg (record · x) h.tensions
  readLog := h.readLog
  spent := h.spent
  journal := h.journal
  births := h.births
  revisions := h.revisions

theorem Shadowed.trans {w₁ w₂ w₃ : World B S} {p₁ p₂ : List (Str × TensionInput)}
    {r₁ r₂ : List ReadLogEntry} {i₁ i₂ : List ℚ} (h₁ : Shadowed w₁ w₂ p₁ r₁ i₁)
    (h₂ : Shadowed w₂ w₃ p₂ r₂ i₂) : Shadowed w₁ w₃ (p₁ ++ p₂) (r₁ ++ r₂) (i₁ ++ i₂) where
  files := h₂.files.trans h₁.files
  edges := h₂.edges.trans h₁.edges
  tensions := by rw [h₂.tensions, h₁.tensions, List.foldl_append]
  readLog := by rw [h₂.readLog, h₁.readLog, List.append_assoc]
  spent := by rw [h₂.spent, h₁.spent, List.sum_append, add_assoc]
  journal := h₁.journal.trans h₂.journal
  births := h₁.births.trans h₂.births
  revisions := h₁.revisions.trans h₂.revisions

theorem Shadowed.of_journal {w w' : World B S} (hfiles : w'.files = w.files)
    (hedges : w'.edges = w.edges) (htensions : w'.tensions = w.tensions)
    (hreads : w'.readLog = w.readLog) (hspent : w'.spent = w.spent)
    (hjournal : w.journal <+: w'.journal) (hbirths : w.births <+: w'.births)
    (hrevisions : w.revisions <+: w'.revisions) : Shadowed w w' [] [] [] where
  files := hfiles
  edges := hedges
  tensions := htensions
  readLog := hreads.trans (List.append_nil _).symm
  spent := hspent.trans (add_zero _).symm
  journal := hjournal
  births := hbirths
  revisions := hrevisions

theorem Shadowed.foldl {α σ : Type} (world : σ → World B S) (step : σ → α → σ)
    (P : α → List (Str × TensionInput)) (R : α → List ReadLogEntry) (I : α → List ℚ)
    (files : Write.Files B) (hstep : ∀ s a, (world s).files = files →
      Shadowed (world s) (world (step s a)) (P a) (R a) (I a)) :
    ∀ (l : List α) (s : σ), (world s).files = files →
      Shadowed (world s) (world (l.foldl step s)) (l.flatMap P) (l.flatMap R) (l.flatMap I) := by
  intro l
  induction l with
  | nil => exact fun s _ => .refl (world s)
  | cons a l ih =>
      intro s hs
      have ha := hstep s a hs
      exact ha.trans (ih (step s a) (ha.files.trans hs))

theorem flatMap_nothing {α β : Type} (l : List α) : l.flatMap (fun _ => ([] : List β)) = [] :=
  List.flatMap_eq_nil_iff.mpr fun _ _ => rfl

/-! ## The tension log -/

/-- The condition under which `recordTension` adds nothing: the tension is open, or
    `addTension` refuses it. -/
def Recorded (log : Option Str) (input : TensionInput) : Prop :=
  openTitle log input.title = true ∨ ∃ e, Tension.checkInput input = .error e

theorem record_of_recorded {log : Option Str} {x : Str × TensionInput}
    (h : Recorded log x.2) : record log x = log := by
  unfold record recordTension
  rcases h with h | ⟨e, he⟩
  · rw [if_pos h]
  · unfold Tension.addTension
    rw [he]
    exact ite_self log

theorem length_lt_record {log : Option Str} {x : Str × TensionInput} (h : ¬ Recorded log x.2) :
    (log.getD []).length < ((record log x).getD []).length := by
  unfold Recorded at h
  rw [not_or] at h
  unfold record recordTension
  rw [if_neg h.1]
  unfold Tension.addTension
  cases hc : Tension.checkInput x.2 with
  | error e => exact absurd ⟨e, hc⟩ h.2
  | ok kind =>
      show (log.getD []).length < (log.getD [] ++ '\n' :: _).length
      rw [List.length_append, List.length_cons]
      omega

theorem length_le_recordAll (xs : List (Str × TensionInput)) (log : Option Str) :
    (log.getD []).length ≤ ((xs.foldl record log).getD []).length := by
  induction xs generalizing log with
  | nil => exact le_refl _
  | cons x xs ih =>
      refine le_trans ?_ (ih (record log x))
      by_cases h : Recorded log x.2
      · rw [record_of_recorded h]
      · exact (length_lt_record h).le

/-- **The log stands exactly when every tension was already open.** -/
theorem recordAll_eq_iff (xs : List (Str × TensionInput)) (log : Option Str) :
    xs.foldl record log = log ↔ ∀ x ∈ xs, Recorded log x.2 := by
  induction xs with
  | nil => exact ⟨fun _ _ h => absurd h List.not_mem_nil, fun _ => rfl⟩
  | cons x xs ih =>
      rw [List.foldl_cons, List.forall_mem_cons]
      by_cases h : Recorded log x.2
      · rw [record_of_recorded h, ih]
        exact ⟨fun hxs => ⟨h, hxs⟩, And.right⟩
      · constructor
        · intro heq
          have hlt := lt_of_lt_of_le (length_lt_record h) (length_le_recordAll xs (record log x))
          rw [heq] at hlt
          exact absurd hlt (lt_irrefl _)
        · exact fun hall => absurd hall.1 h

/-! ## The spend -/

theorem shadowImpact_update_pos (power : BlastPower) (blast : Nat) :
    0 < shadowImpact power "update" blast := by
  refine lt_min ?_ one_pos
  have hbase : (shadowIBase.lookup "update").getD (1 / 5) = 1 / 5 := rfl
  have hk : (0 : ℚ) ≤ shadowKBlast * power.pow (max 1 blast - 1) :=
    mul_nonneg (by norm_num [shadowKBlast]) (power.nonneg _)
  linarith

theorem sum_impacts_eq_zero_iff {impacts : List ℚ} (hpos : ∀ i ∈ impacts, 0 < i) :
    impacts.sum = 0 ↔ impacts = [] := by
  constructor
  · intro hsum
    by_contra hne
    exact absurd hsum (List.sum_pos impacts hpos hne).ne'
  · rintro rfl
    rfl

/-! ## Births -/

section Births

variable (docs : List (String × List Char)) (answers : Answers T)

def admitted (answer : Option EnvelopeVerdict) : Bool := answer.any EnvelopeVerdict.admits

/-- The tension a pair is due: both orders come to no direction, and it is admitted. -/
def pendingTension (env : Env B T S) (i : Nat) (docPath : String) (content : List Char)
    (jn : String × Nat) : List (Str × TensionInput) :=
  match readPair env docs answers i jn.2 jn.1 with
  | .ok (neighborContent, .symmetric contested, _) =>
      if admitted (answers.admitPair i jn.2) then
        [((answers.moment (.pair i jn.2)).today,
          directionTension env docPath content jn.1 neighborContent contested)]
      else []
  | _ => []

def servedHits (i : Nat) : List String := ((answers.hits i).toOption).getD []

def neighborsOf (i : Nat) (docPath : String) : List String :=
  ((servedHits answers i).map canonPath).filter (· ≠ docPath)

def pendingOfBirth (env : Env B T S) (item : String × Nat) : List (Str × TensionInput) :=
  match docs.lookup (canonPath item.1) with
  | none => []
  | some content => (neighborsOf answers item.2 (canonPath item.1)).zipIdx.flatMap
      (pendingTension docs answers env item.2 (canonPath item.1) content)

def servedOfBirth (item : String × Nat) : List ReadLogEntry :=
  match docs.lookup (canonPath item.1) with
  | none => []
  | some _ => (servedHits answers item.2).map fun h => ⟨"vault_search_related", h⟩

end Births

variable {docs : List (String × List Char)} {answers : Answers T}

theorem safeAdmit_shadowed (action : EnvelopeAction) (fromPath toPath : String)
    (answer : Option EnvelopeVerdict) (w : World B S) :
    Shadowed w (safeAdmit action fromPath toPath answer w).2 [] [] [] := by
  cases answer with
  | none => exact .refl w
  | some v =>
      exact .of_journal rfl rfl rfl rfl rfl (List.prefix_append _ _) List.prefix_rfl
        List.prefix_rfl

theorem admitted_safeAdmit (action : EnvelopeAction) (fromPath toPath : String)
    (answer : Option EnvelopeVerdict) (w : World B S) :
    (safeAdmit action fromPath toPath answer w).1.admits = admitted answer := by
  cases answer with
  | none => rfl
  | some v => rfl

section Passes

variable [LinearOrder S]

/-- **One neighbour of a birth** in shadow mode records the tension it is due. -/
theorem birthPair_shadowed (hshadow : env.vault.config.shadowMode = true) (i : Nat)
    (docPath : String) (content : List Char) (p : Pass B S) (jn : String × Nat) :
    Shadowed p.world (birthPair env docs answers i docPath content p jn).world
      (pendingTension docs answers env i docPath content jn) [] [] := by
  cases hread : readPair env docs answers i jn.2 jn.1 with
  | error e =>
      simp only [birthPair, pendingTension, hread]
      exact .refl _
  | ok read =>
      obtain ⟨neighborContent, outcome, reason⟩ := read
      cases outcome with
      | unrelated =>
          simp only [birthPair, pendingTension, hread]
          exact .refl _
      | directed premise =>
          simp only [birthPair, pendingTension, hread, hshadow, makeObserve, if_true]
          generalize (if premise = .doc then (jn.1, docPath) else (docPath, jn.1)) = ends
          split
          · exact safeAdmit_shadowed _ _ _ _ _
          · exact safeAdmit_shadowed _ _ _ _ _
      | symmetric contested =>
          simp only [birthPair, pendingTension, hread, hshadow, makeObserve, if_true,
            admitted_safeAdmit]
          have hasked := safeAdmit_shadowed .edgeObserve (canonPair docPath jn.1).1
            (canonPair docPath jn.1).2 (answers.admitPair i jn.2) p.world
          split
          · -- the observation is a stub, the tension is not
            exact hasked.recorded ((answers.moment (.pair i jn.2)).today,
              directionTension env docPath content jn.1 neighborContent contested)
          · exact hasked

theorem birthOne_shadowed (hshadow : env.vault.config.shadowMode = true) (i : Nat)
    (docPath : String) (content : List Char) (w : World B S) :
    Shadowed w (birthOne env docs answers i docPath content w)
      ((neighborsOf answers i docPath).zipIdx.flatMap
        (pendingTension docs answers env i docPath content))
      ((servedHits answers i).map fun h => ⟨"vault_search_related", h⟩) [] := by
  cases hhits : answers.hits i with
  | error e =>
      simp only [birthOne, searchNeighbors, neighborsOf, servedHits, hhits]
      exact .refl w
  | ok hits =>
      simp only [birthOne, searchNeighbors, neighborsOf, servedHits, hhits, Except.toOption,
        Option.getD_some]
      have hserved : Shadowed w
          { w with readLog := w.readLog ++ hits.map fun h => ⟨"vault_search_related", h⟩ } []
          (hits.map fun h => ⟨"vault_search_related", h⟩) [] :=
        ⟨rfl, rfl, rfl, rfl, (add_zero _).symm, List.prefix_rfl, List.prefix_rfl, List.prefix_rfl⟩
      have hpairs := Shadowed.foldl Pass.world (birthPair env docs answers i docPath content)
        (pendingTension docs answers env i docPath content) (fun _ => []) (fun _ => []) w.files
        (fun p jn _ => birthPair_shadowed hshadow i docPath content p jn)
        ((hits.map canonPath).filter (· ≠ docPath)).zipIdx
        ⟨{ w with readLog := w.readLog ++ hits.map fun h => ⟨"vault_search_related", h⟩ },
          [], [], 0⟩ rfl
      have hall := hserved.trans hpairs
      rw [List.nil_append, flatMap_nothing, flatMap_nothing, List.append_nil,
        List.append_nil] at hall
      exact ⟨hall.files, hall.edges, hall.tensions, hall.readLog, hall.spent, hall.journal,
        hall.births.trans (List.prefix_append _ _), hall.revisions⟩

theorem birthItem_shadowed (hshadow : env.vault.config.shadowMode = true) (w : World B S)
    (item : String × Nat) :
    Shadowed w (birthItem env docs answers w item) (pendingOfBirth docs answers env item)
      (servedOfBirth docs answers item) [] := by
  unfold birthItem pendingOfBirth servedOfBirth
  cases docs.lookup (canonPath item.1) with
  | none => exact .refl w
  | some content => exact birthOne_shadowed hshadow item.2 (canonPath item.1) content w

end Passes

/-! ## Panels -/

theorem vaultWrite_ne_write (hshadow : env.vault.config.shadowMode = true)
    (s : Write.Setting) (args : Write.WriteArgs) (files : Write.Files B) (plan : Write.Plan B) :
    Write.vaultWrite env.vault s args files ≠ .ok (.write plan) := by
  intro h
  obtain ⟨relPath, -, hdirect⟩ := Write.direct_of_writeDocument h
  unfold Write.writeDirect at hdirect
  simp only [Write.bind_eq_ok_iff] at hdirect
  obtain ⟨_, _, _, _, _, _, _, _, _, _, hdirect⟩ := hdirect
  unfold Write.performWrite at hdirect
  obtain ⟨_, _, hdirect⟩ := Write.bind_eq_ok hdirect
  rw [if_pos hshadow] at hdirect
  cases hdirect

variable (answers)

def applied (env : Env B T S) (i : Nat) : Bool :=
  (majority (castVotes env answers i)).isSome && admitted (answers.admitPanel i)

/-- The document a panel's lineage appender reads. -/
def lineageRead (env : Env B T S) (files : Write.Files B) (i : Nat)
    (edge : DerivesFromEdge S) : Option VaultRead :=
  if applied answers env i then (vaultRead env.vault (canonPath edge.fromPath) files).toOption
  else none

/-- `vault_write` would rewrite the document, but for shadow mode. -/
def rewrites (env : Env B T S) (files : Write.Files B) (i : Nat) (edge : DerivesFromEdge S)
    (doc : VaultRead) : Bool :=
  match Write.vaultWrite env.vault (answers.moment (.panel i)).operator
    (lineageWrite (canonPath edge.fromPath) (revisionEntry env (answers.moment (.panel i))) doc)
    files with
  | .ok .shadow => true
  | _ => false

def impactsOfPanel (env : Env B T S) (files : Write.Files B) (i : Nat)
    (edge : DerivesFromEdge S) : List ℚ :=
  match lineageRead answers env files i edge with
  | none => []
  | some doc =>
      if rewrites answers env files i edge doc then
        [shadowImpact env.power "update" (1 + env.downstream files doc.relPath)]
      else []

def servedOfPanel (env : Env B T S) (files : Write.Files B) (i : Nat)
    (edge : DerivesFromEdge S) : List ReadLogEntry :=
  match lineageRead answers env files i edge with
  | none => []
  | some doc => [⟨"vault_read", doc.relPath⟩]

variable {answers} {files : Write.Files B}

variable {edge : DerivesFromEdge S}

theorem impactsOfPanel_pos {i : Nat} :
    ∀ impact ∈ impactsOfPanel answers env files i edge, 0 < impact := by
  intro impact himpact
  unfold impactsOfPanel at himpact
  split at himpact
  · exact absurd himpact List.not_mem_nil
  · split at himpact
    · rw [List.mem_singleton.mp himpact]
      exact shadowImpact_update_pos env.power _
    · exact absurd himpact List.not_mem_nil

theorem impactsOfPanel_eq_nil_iff {i : Nat} : impactsOfPanel answers env files i edge = []
      ↔ ∀ doc, lineageRead answers env files i edge = some doc →
        rewrites answers env files i edge doc = false := by
  unfold impactsOfPanel
  cases lineageRead answers env files i edge with
  | none => exact ⟨fun _ _ h => (nomatch h), fun _ => rfl⟩
  | some doc =>
      cases hrewrites : rewrites answers env files i edge doc with
      | false =>
          refine ⟨fun _ doc' hdoc' => ?_, fun _ => by simp only [hrewrites, Bool.false_eq_true,
            if_false]⟩
          obtain rfl := Option.some.inj hdoc'
          exact hrewrites
      | true =>
          simp only [hrewrites, if_true, List.cons_ne_nil, false_iff, not_forall]
          exact ⟨doc, rfl, by rw [hrewrites]; exact Bool.noConfusion⟩

theorem servedOfPanel_eq_nil_iff {i : Nat} :
    servedOfPanel answers env files i edge = [] ↔ lineageRead answers env files i edge = none := by
  unfold servedOfPanel
  cases lineageRead answers env files i edge with
  | none => exact ⟨fun _ => rfl, fun _ => rfl⟩
  | some doc => exact ⟨fun h => (nomatch h), fun h => (nomatch h)⟩

theorem servedOfBirth_eq_nil_iff {item : String × Nat} : servedOfBirth docs answers item = []
      ↔ (docs.lookup (canonPath item.1) ≠ none → servedHits answers item.2 = []) := by
  unfold servedOfBirth
  cases docs.lookup (canonPath item.1) with
  | none => exact ⟨fun _ h => absurd rfl h, fun _ => rfl⟩
  | some content =>
      rw [List.map_eq_nil_iff]
      exact ⟨fun h _ => h, fun h => h (Option.some_ne_none content)⟩

/-- The lineage appender, handed in live, in shadow mode: the read is logged, and the
    spend advanced when `vault_write` would rewrite the document. -/
theorem appendReaderLineage_shadowed (hshadow : env.vault.config.shadowMode = true) (i : Nat)
    (edge : DerivesFromEdge S) (w : World B S) (happlied : applied answers env i = true) :
    Shadowed w
      (makeAppendReaderLineage env false (answers.moment (.panel i)) (canonPath edge.fromPath)
        (revisionEntry env (answers.moment (.panel i))) w) []
      (servedOfPanel answers env w.files i edge) (impactsOfPanel answers env w.files i edge) := by
  unfold servedOfPanel impactsOfPanel lineageRead makeAppendReaderLineage
  rw [if_pos happlied, if_neg Bool.false_ne_true]
  cases vaultRead env.vault (canonPath edge.fromPath) w.files with
  | error e => exact .refl w
  | ok doc =>
      have hlogged : Shadowed w
          { w with readLog := w.readLog ++ [⟨"vault_read", doc.relPath⟩] } []
          [⟨"vault_read", doc.relPath⟩] [] :=
        ⟨rfl, rfl, rfl, rfl, (add_zero _).symm, List.prefix_rfl, List.prefix_rfl, List.prefix_rfl⟩
      rcases hwrite : Write.vaultWrite env.vault (answers.moment (.panel i)).operator
          (lineageWrite (canonPath edge.fromPath)
            (revisionEntry env (answers.moment (.panel i))) doc) w.files with e | outcome
      · simp only [Except.toOption, writeLineage, rewrites, hwrite, Bool.false_eq_true, if_false]
        exact hlogged
      cases outcome with
      | staged =>
          simp only [Except.toOption, writeLineage, rewrites, hwrite, Bool.false_eq_true, if_false]
          exact hlogged
      | write plan => exact absurd hwrite (vaultWrite_ne_write hshadow _ _ _ plan)
      | shadow =>
          simp only [Except.toOption, writeLineage, rewrites, hwrite, if_true]
          refine ⟨rfl, rfl, rfl, rfl, ?_, List.prefix_append _ _, List.prefix_rfl, List.prefix_rfl⟩
          rw [List.sum_singleton]
          rfl

variable [LinearOrder S]

theorem foldl_observeVote (hshadow : env.vault.config.shadowMode = true) (i : Nat)
    (fromPath toPath : String) (votes : List ((String × String) × Nat)) (acc : Nat × World B S) :
    votes.foldl (observeVote env answers i fromPath toPath) acc
      = (acc.1 + votes.length, acc.2) := by
  induction votes generalizing acc with
  | nil => rfl
  | cons vote votes ih =>
      have hone : observeVote env answers i fromPath toPath acc vote = (acc.1 + 1, acc.2) := by
        simp only [observeVote, makeObserve, hshadow, if_true]
      rw [List.foldl_cons, hone, ih, List.length_cons]
      exact Prod.ext (by show acc.1 + 1 + _ = _; omega) rfl

variable (answers) in
/-- **The second phase of a panel** in shadow mode journals, and counts a write exactly
    when the decision is applied. -/
theorem applyDecision_shadowed (hshadow : env.vault.config.shadowMode = true) (i : Nat)
    (fromPath toPath : String) (w : World B S) :
    Shadowed w (applyDecision env answers i fromPath toPath (castVotes env answers i) w).world
        [] [] [] ∧ ((0 < (applyDecision env answers i fromPath toPath (castVotes env answers i)
            w).observedCount
          ∨ 0 < (applyDecision env answers i fromPath toPath (castVotes env answers i)
            w).contestedCount) ↔ applied answers env i = true) := by
  unfold applyDecision applied
  cases hmajority : majority (castVotes env answers i) with
  | none => exact ⟨.refl w, by simp⟩
  | some action =>
      have hasked := safeAdmit_shadowed action fromPath toPath (answers.admitPanel i) w
      rw [Option.isSome_some, Bool.true_and]
      by_cases hadmit : admitted (answers.admitPanel i) = true
      · simp only [admitted_safeAdmit, hadmit, if_true, iff_true]
        cases action with
        | edgeContest =>
            simp only [makeContest, hshadow, if_true]
            exact ⟨hasked, Or.inr Nat.one_pos⟩
        | edgeObserve =>
            simp only [foldl_observeVote hshadow]
            refine ⟨hasked, Or.inl ?_⟩
            -- a majority that survives has a surviving vote
            have hpos : 0 < (surviving (castVotes env answers i)).length := by
              unfold majority at hmajority
              split at hmajority
              · cases hmajority
              split at hmajority
              · omega
              · cases hmajority
            rw [List.length_zipIdx, Nat.zero_add]
            exact hpos
      · simp only [admitted_safeAdmit, hadmit]
        exact ⟨hasked, by simp⟩

/-- **A panel** in shadow mode. -/
theorem revisionPanel_shadowed (hshadow : env.vault.config.shadowMode = true) (i : Nat)
    (edge : DerivesFromEdge S) (w : World B S) : Shadowed w (revisionPanel env answers i edge w) []
      (servedOfPanel answers env w.files i edge) (impactsOfPanel answers env w.files i edge) := by
  obtain ⟨hdone, hcount⟩ := applyDecision_shadowed answers hshadow i
    (canonPath edge.fromPath) (canonPath edge.toPath) w
  unfold revisionPanel
  set done := applyDecision env answers i (canonPath edge.fromPath) (canonPath edge.toPath)
    (castVotes env answers i) w with hdef
  have htraced : ∀ rows, Shadowed w
      { done.world with revisions := done.world.revisions ++ rows } [] [] [] := fun rows =>
    ⟨hdone.files, hdone.edges, hdone.tensions, hdone.readLog, hdone.spent, hdone.journal,
      hdone.births, hdone.revisions.trans (List.prefix_append _ _)⟩
  by_cases happlied : applied answers env i = true
  · rw [if_pos (hcount.mpr happlied)]
    have happend := fun rows => appendReaderLineage_shadowed (w := { done.world with
      revisions := done.world.revisions ++ rows }) hshadow i edge happlied
    rw [← hdone.files]
    exact (htraced _).trans (happend _)
  · rw [if_neg fun h => happlied (hcount.mp h)]
    unfold servedOfPanel impactsOfPanel lineageRead
    rw [if_neg happlied]
    exact htraced _

variable (docs answers) in
theorem revisionItem_shadowed (hshadow : env.vault.config.shadowMode = true)
    (edges : List (DerivesFromEdge S)) (w : World B S) (item : (String × String) × Nat) :
    Shadowed w (revisionItem env docs edges answers w item) []
      ((dueEdge docs edges item.1).toList.flatMap (servedOfPanel answers env w.files item.2))
      ((dueEdge docs edges item.1).toList.flatMap (impactsOfPanel answers env w.files item.2)) := by
  unfold revisionItem
  cases dueEdge docs edges item.1 with
  | none => exact .refl w
  | some edge =>
      rw [Option.toList_some, List.flatMap_singleton, List.flatMap_singleton]
      exact revisionPanel_shadowed hshadow item.2 edge w

/-! ## Sessions -/

section Conditions

variable (env : Env B T S) (q : Queue S) (answers : Answers T) (files : Write.Files B)

/-- The tensions a session's births are due, each with its date. -/
def pendingTensions : List (Str × TensionInput) :=
  q.birthsRun.zipIdx.flatMap (pendingOfBirth (docByPath env files) answers env)

def panelEdges : List (Nat × DerivesFromEdge S) :=
  q.panelsRun.zipIdx.flatMap fun item =>
    (dueEdge (docByPath env files) q.edges item.1).toList.map fun edge => (item.2, edge)

/-- **Every tension the births are due is open already**, or refused. -/
def NoNewTension (log : Option Str) : Prop :=
  ∀ x ∈ pendingTensions env q answers files, Recorded log x.2

/-- **No document of an applied panel would be rewritten** by `vault_write`. -/
def NoRewrite : Prop :=
  ∀ e ∈ panelEdges env q files, ∀ doc, lineageRead answers env files e.1 e.2 = some doc →
    rewrites answers env files e.1 e.2 doc = false

/-- **Nothing is served**: the searches of the births find nothing, and no document of
    an applied panel can be read. -/
def NothingServed : Prop :=
  (∀ item ∈ q.birthsRun.zipIdx, (docByPath env files).lookup (canonPath item.1) ≠ none →
      servedHits answers item.2 = [])
    ∧ ∀ e ∈ panelEdges env q files, lineageRead answers env files e.1 e.2 = none

end Conditions

/-- **A whole session** in shadow mode, by what it adds to each store. -/
theorem runConsolidate_shadowed (hshadow : env.vault.config.shadowMode = true) (q : Queue S)
    (answers : Answers T) (w : World B S) :
    Shadowed w (runConsolidate env q answers w) (pendingTensions env q answers w.files)
      (q.birthsRun.zipIdx.flatMap (servedOfBirth (docByPath env w.files) answers)
        ++ (panelEdges env q w.files).flatMap fun e => servedOfPanel answers env w.files e.1 e.2)
      ((panelEdges env q w.files).flatMap fun e => impactsOfPanel answers env w.files e.1 e.2) := by
  have hbirths := Shadowed.foldl id (birthItem env (docByPath env w.files) answers)
    (pendingOfBirth (docByPath env w.files) answers env)
    (servedOfBirth (docByPath env w.files) answers) (fun _ => []) w.files
    (fun v item _ => birthItem_shadowed hshadow v item) q.birthsRun.zipIdx
    { w with birthProcessed := canonMarks w.birthProcessed } rfl
  have hpanels := Shadowed.foldl id
    (revisionItem env (docByPath env w.files) q.edges answers) (fun _ => [])
    (fun item => (dueEdge (docByPath env w.files) q.edges item.1).toList.flatMap
      (servedOfPanel answers env w.files item.2))
    (fun item => (dueEdge (docByPath env w.files) q.edges item.1).toList.flatMap
      (impactsOfPanel answers env w.files item.2)) w.files
    (fun v item hv => by
      have h := revisionItem_shadowed (docByPath env w.files) answers
        hshadow q.edges v item
      rw [show v.files = w.files from hv] at h
      exact h)
    q.panelsRun.zipIdx _ hbirths.files
  have hall := hbirths.trans hpanels
  rw [flatMap_nothing, flatMap_nothing, List.append_nil, List.nil_append] at hall
  unfold panelEdges pendingTensions
  simp only [List.flatMap_assoc, List.flatMap_map]
  exact ⟨hall.files, hall.edges, hall.tensions, hall.readLog, hall.spent, hall.journal,
    hall.births, hall.revisions⟩

/-- **SHADOW MODE, STORE BY STORE.**  In every shadow session the documents and the
    edge log stand and the journals only grow; the tension log stands exactly when
    no new tension is due, the shared spend exactly when no applied panel's document
    would be rewritten, and the read log exactly when nothing is served. -/
theorem shadow_changes_iff (env : Env B T S) (hshadow : env.vault.config.shadowMode = true)
    (q : Queue S) (answers : Answers T) (w : World B S) :
    (runConsolidate env q answers w).files = w.files
      ∧ (runConsolidate env q answers w).edges = w.edges
      ∧ ((runConsolidate env q answers w).tensions = w.tensions
        ↔ NoNewTension env q answers w.files w.tensions)
      ∧ ((runConsolidate env q answers w).spent = w.spent ↔ NoRewrite env q answers w.files)
      ∧ ((runConsolidate env q answers w).readLog = w.readLog ↔ NothingServed env q answers w.files)
      ∧ w.journal <+: (runConsolidate env q answers w).journal
      ∧ w.births <+: (runConsolidate env q answers w).births
      ∧ w.revisions <+: (runConsolidate env q answers w).revisions := by
  have h := runConsolidate_shadowed hshadow q answers w
  refine ⟨h.files, h.edges, ?_, ?_, ?_, h.journal, h.births, h.revisions⟩
  · rw [h.tensions]
    exact recordAll_eq_iff _ _
  · rw [h.spent, add_eq_left, sum_impacts_eq_zero_iff, List.flatMap_eq_nil_iff]
    · exact forall₂_congr fun e _ => impactsOfPanel_eq_nil_iff
    · intro impact himpact
      obtain ⟨e, -, he⟩ := List.mem_flatMap.mp himpact
      exact impactsOfPanel_pos impact he
  · rw [h.readLog, List.append_right_eq_self, List.append_eq_nil_iff,
      List.flatMap_eq_nil_iff, List.flatMap_eq_nil_iff]
    exact and_congr (forall₂_congr fun item _ => servedOfBirth_eq_nil_iff)
      (forall₂_congr fun e _ => servedOfPanel_eq_nil_iff)

/-! ## Two sessions -/

def shadowEnv : Env Frontmatter.PlainFile Nat Nat where
  vault := Write.plainHost { Write.plainConfig with shadowMode := true }
  edges := Edges.plainHost
  downstream _ _ := 0
  power := ⟨fun _ => 0, fun _ => le_refl 0⟩
  sha256Hex content := String.ofList content
  readerFromContent _ := none
  model := "model"
  readerPromptVersion := "v1"

def freshWorld : World Frontmatter.PlainFile Nat where
  files := [("a.md", Write.plainNote [] "alpha"), ("b.md", Write.plainNote [] "beta")]
  edges := ⟨none, [], none⟩
  tensions := none
  spent := 0
  journal := []
  readLog := []
  births := []
  revisions := []
  birthProcessed := []
  lastConsolidationCommit := none

def twoItems : Queue Nat where
  mode := .both
  births := ["a.md"]
  panels := [("a.md", "b.md")]
  edges := [⟨"a.md", "b.md", 1, 1, "2026-01-01", "2026-01-01", .candidate, .directed, 1, none,
    .null⟩]
  head := none

def answersOf (hits : List String) (premise : String) (votes : List String) : Answers Nat where
  hits _ := .ok hits
  order1 _ _ := .ok (.obj [("related", .bool true), ("premise", .str premise),
    ("reason", .str "both")])
  order2 _ _ := .ok (.obj [("related", .bool true), ("premise", .str premise),
    ("reason", .str "both")])
  vote _ k := .ok (.obj [("verdict", .str (votes.getD k "survives")), ("reason", .str "read")])
  admitPair _ _ := some ⟨true, none, "admitted", 1 / 20⟩
  admitPanel _ := some ⟨true, none, "admitted", 1 / 20⟩
  moment _ := ⟨"2026-01-02T00:00:00Z", "2026-01-02".toList,
    Write.operatorSetting "2026-01-02", fun n => n, 0, false⟩

/-- No neighbour is found, and the panel is tied: nothing is changed. -/
theorem shadow_changes_iff_quiet :
    (runConsolidate shadowEnv twoItems (answersOf [] "A" ["survives", "fails"])
        freshWorld).tensions = none
      ∧ (runConsolidate shadowEnv twoItems (answersOf [] "A" ["survives", "fails"])
        freshWorld).spent = 0
      ∧ (runConsolidate shadowEnv twoItems (answersOf [] "A" ["survives", "fails"])
        freshWorld).readLog = [] := by
  obtain ⟨-, -, htensions, hspent, hreads, -⟩ := shadow_changes_iff shadowEnv rfl twoItems
    (answersOf [] "A" ["survives", "fails"]) freshWorld
  have hread : ∀ i edge, lineageRead (answersOf [] "A" ["survives", "fails"]) shadowEnv
      freshWorld.files i edge = none := by
    intro i edge
    exact if_neg Bool.false_ne_true
  refine ⟨htensions.mpr ?_, hspent.mpr ?_, hreads.mpr ⟨fun _ _ _ => rfl, fun _ _ => hread _ _⟩⟩
  · intro x hx
    have hnone : pendingTensions shadowEnv twoItems (answersOf [] "A" ["survives", "fails"])
        freshWorld.files = [] := List.eq_nil_of_length_eq_zero (by decide +kernel)
    exact absurd hx List.not_mem_nil
  · intro e _ doc hdoc
    exact absurd ((hread _ _).symm.trans hdoc) (Option.some_ne_none doc).symm

/-- **A SHADOW SESSION THAT CHANGES BOTH.**  The pair is symmetric and the panel's
    majority survives: a tension is logged and the shared spend advances. -/
theorem shadow_and_changed : shadowEnv.vault.config.shadowMode = true
    ∧ (runConsolidate shadowEnv twoItems (answersOf ["b.md"] "symmetric" []) freshWorld).tensions
      ≠ freshWorld.tensions
    ∧ (runConsolidate shadowEnv twoItems (answersOf ["b.md"] "symmetric" []) freshWorld).spent
      ≠ freshWorld.spent := by
  decide +kernel

end Consolidate
