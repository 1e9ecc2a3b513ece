import Daftari.Access.PathsProofs
import Daftari.Curation.EdgesProofs
import Daftari.Lib.TableProofs

/-! # The tension scan — one pass

    A pass takes the documents that were never scanned or have changed, asks retrieval for
    the neighbours of each, and puts one pair after another before a judge.  A document
    whose pairs were gone through is marked as scanned with its content hash; a pair that
    was judged is remembered by a hash of both sides.

    * `Dealt`: what going through a pair may leave behind;
    * `runScan_sound`: **a whole pass**, by the exits of its inner loop. -/

namespace TensionScan

open Edges (Fields stringOf)

/-! ## Paths, pairs and hashes -/

def canon (p : String) : String :=
  let normal := Rbac.normalize (Text.trim p.toList)
  String.ofList (if ['.', '/'].isPrefixOf normal then normal.drop 2 else normal)

def pairKey (a b : String) : String :=
  if Text.lt a b then a ++ "\x00" ++ b else b ++ "\x00" ++ a

/-- A document, by the path it is loaded under. -/
structure Doc where
  path : String
  content : String
deriving DecidableEq, Repr

/-- `scanContentHash`, over `sha256Hex`. -/
def scanContentHash (sha256Hex : String → String) (content : String) : String :=
  String.ofList ((sha256Hex content).toList.take 16)

/-- `pairHash`: each side is a path and a content hash; the sides are sorted and hashed. -/
def pairHash (sha256Hex : String → String) (a b : String × String) : String :=
  let sideA := a.1 ++ " " ++ a.2
  let sideB := b.1 ++ " " ++ b.2
  sha256Hex (if Text.lt sideB sideA then sideB ++ sideA else sideA ++ sideB)

theorem pairHash_comm (sha256Hex : String → String) (a b : String × String) :
    pairHash sha256Hex a b = pairHash sha256Hex b a :=
  congrArg sha256Hex (Text.sorted_comm (· ++ ·) _ _)

theorem pairKey_comm (a b : String) : pairKey a b = pairKey b a :=
  (Text.sorted_comm (fun a b => a ++ "\x00" ++ b) a b).symm

theorem nul_append_inj {a b c d : String} (ha : '\x00' ∉ a.toList) (hc : '\x00' ∉ c.toList)
    (h : a ++ "\x00" ++ b = c ++ "\x00" ++ d) : a = c ∧ b = d := by
  have hl : a.toList ++ '\x00' :: b.toList = c.toList ++ '\x00' :: d.toList := by
    have h' := congrArg String.toList h
    simpa using h'
  rcases List.append_eq_append_iff.mp hl with ⟨t, ht, ht'⟩ | ⟨t, ht, ht'⟩
  · cases t with
    | nil =>
        simp only [List.append_nil, List.nil_append, List.cons.injEq, true_and] at ht ht'
        exact ⟨String.toList_inj.mp ht.symm, String.toList_inj.mp ht'⟩
    | cons x t =>
        rw [List.cons_append, List.cons.injEq] at ht'
        exact absurd (by rw [ht, ← ht'.1]; simp) hc
  · cases t with
    | nil =>
        simp only [List.append_nil, List.nil_append, List.cons.injEq, true_and] at ht ht'
        exact ⟨String.toList_inj.mp ht, String.toList_inj.mp ht'.symm⟩
    | cons x t =>
        rw [List.cons_append, List.cons.injEq] at ht'
        exact absurd (by rw [ht, ← ht'.1]; simp) ha

theorem pairKey_inj {a b c d : String} (ha : '\x00' ∉ a.toList) (hb : '\x00' ∉ b.toList)
    (hc : '\x00' ∉ c.toList) (hd : '\x00' ∉ d.toList) (h : pairKey a b = pairKey c d) :
    (a = c ∧ b = d) ∨ (a = d ∧ b = c) := by
  unfold pairKey at h
  split at h <;> split at h
  · exact Or.inl (nul_append_inj ha hc h)
  · exact Or.inr (nul_append_inj ha hd h)
  · obtain ⟨h₁, h₂⟩ := nul_append_inj hb hc h
    exact Or.inr ⟨h₂, h₁⟩
  · obtain ⟨h₁, h₂⟩ := nul_append_inj hb hd h
    exact Or.inl ⟨h₂, h₁⟩

/-! ## Verdicts -/

inductive ConflictKind where
  | factual
  | temporal
  | interpretive
deriving DecidableEq, Repr

structure Verdict where
  conflict : Bool
  kind : ConflictKind
  reason : String
deriving DecidableEq, Repr

/-- A kind outside the taxonomy is taken for `factual`. -/
def conflictKind : Option String → ConflictKind
  | some "temporal" => .temporal
  | some "interpretive" => .interpretive
  | _ => .factual

/-- `parseVerdict`, of an object or of something else. -/
def parseVerdict : Option Fields → Option Verdict
  | none => none
  | some obj =>
      match obj.lookup "conflict" with
      | some (.bool conflict) =>
          some { conflict := conflict
                 kind := conflictKind (stringOf (obj.lookup "kind"))
                 reason := (stringOf (obj.lookup "reason")).getD "" }
      | _ => none

/-! ## Passes -/

/-- `TensionScanState`. -/
structure ScanState where
  lastScanCommit : Option String
  scanned : Table String String
  judgedPairs : List String

structure Tension where
  sourceA : String
  sourceB : String
  resolved : Bool
deriving DecidableEq, Repr

/-- What one pass is run with: its caller and bounds, and what its surroundings answer. -/
structure Pass where
  /-- `loadDocuments`. -/
  loaded : List Doc
  sourceVisible : String → Bool
  searchNeighbors : String → Nat → Option (List String)
  /-- The reply to a call of the judge, by its number; `none` where the call fails. -/
  completeJson : Nat → Option (Option Fields)
  /-- The id of the tension that is logged upon a call; `none` where logging fails. -/
  addTension : Nat → Option (Option String)
  relatedLimit : Nat
  maxLlmCalls : Nat
  maxDocs : Nat
  isGitRepo : Bool
  changedSince : String → Option (List String)
  headCommit : Option String
  localeCompare : String → String → Ordering

namespace Pass

variable (pass : Pass)

def docs : List Doc := pass.loaded.map fun d => { d with path := canon d.path }

def byPath (path : String) : Option Doc := Assoc.lastBy Doc.path pass.docs path

/-- `hashes.get(path) ?? ""`. -/
def hashOf (sha256Hex : String → String) (path : String) : String :=
  ((pass.byPath path).map fun d => scanContentHash sha256Hex d.content).getD ""

/-- The documents of a pass, in the order they are gone through. -/
def candidates (sha256Hex : String → String) (state : ScanState) : List Doc :=
  let byName := fun a b : Doc => pass.localeCompare a.path b.path
  let neverScanned := Stable.sort byName
    (pass.docs.filter fun d => state.scanned.find d.path = none)
  let gitChanged := ((state.lastScanCommit.filter fun _ => pass.isGitRepo).bind
    pass.changedSince).getD [] |>.map canon
  let rank := fun d : Doc => if d.path ∈ gitChanged then 0 else 1
  let changed := Stable.sort
    (compareLex (fun a b => compare (rank a) (rank b)) byName)
    (pass.docs.filter fun d => (state.scanned.find d.path).any
      fun prior => prior ≠ pass.hashOf sha256Hex d.path)
  ((neverScanned ++ changed).filter fun d => pass.sourceVisible d.path).take pass.maxDocs

end Pass

def openKeys (ledger : List Tension) : List String :=
  (ledger.filter fun t => ¬ t.resolved).map fun t => pairKey (canon t.sourceA) (canon t.sourceB)

/-! ## The loop -/

structure LoggedTension where
  id : Option String
  kind : ConflictKind
  sourceA : String
  sourceB : String
  reason : String
deriving DecidableEq, Repr

/-- `TensionScanOutcome`, less the write of the state. -/
structure Outcome where
  candidates : Nat
  docsScanned : Nat
  searchCalls : Nat
  pairsConsidered : Nat
  pairsJudged : Nat
  pairsSkippedJudged : Nat
  pairsSkippedExistingTension : Nat
  pairsSkippedAccess : Nat
  parseFailures : Nat
  tensionsLogged : Nat
  tensionLogFailures : Nat
  budgetExhausted : Bool
  tensions : List LoggedTension

/-- A call of the judge: the two documents, and whether its verdict was dealt with, there
    being no conflict or one that was logged. -/
structure Call where
  a : Doc
  b : Doc
  settled : Bool
deriving DecidableEq, Repr

/-- What a pass carries through its loops. -/
structure Progress where
  judged : List String
  seenThisRun : List String
  failedDocs : List String
  completedDocs : List String
  openPairs : List String
  outcome : Outcome
  calls : List Call

def Progress.retryPair (p : Progress) (doc other : Doc) : Progress :=
  { p with failedDocs := doc.path :: other.path :: p.failedDocs }

section Loop

variable (sha256Hex : String → String) (pass : Pass)

def Pass.pairHash (doc other : Doc) : String :=
  TensionScan.pairHash sha256Hex (doc.path, pass.hashOf sha256Hex doc.path)
    (other.path, pass.hashOf sha256Hex other.path)

/-- A call of the judge, and what is made of its verdict. -/
def judgePair (doc other : Doc) (p : Progress) : Progress :=
  let n := p.outcome.pairsJudged
  let o := { p.outcome with pairsJudged := n + 1 }
  let judged := pass.pairHash sha256Hex doc other :: p.judged
  match (pass.completeJson n).bind parseVerdict with
  | none =>
      Progress.retryPair
        { p with outcome := { o with parseFailures := o.parseFailures + 1 }
                 calls := p.calls ++ [⟨doc, other, false⟩] } doc other
  | some verdict =>
      if ¬ verdict.conflict then
        { p with judged := judged, outcome := o, calls := p.calls ++ [⟨doc, other, true⟩] }
      else
        match pass.addTension n with
        | none =>
            Progress.retryPair
              { p with outcome := { o with tensionLogFailures := o.tensionLogFailures + 1 }
                       calls := p.calls ++ [⟨doc, other, false⟩] } doc other
        | some id =>
            { p with
              judged := judged
              openPairs := pairKey doc.path other.path :: p.openPairs
              outcome := { o with
                tensionsLogged := o.tensionsLogged + 1
                tensions := o.tensions ++
                  [⟨id, verdict.kind, doc.path, other.path, verdict.reason⟩] }
              calls := p.calls ++ [⟨doc, other, true⟩] }

/-- One pair; `false` where the budget is spent. -/
def examinePair (doc other : Doc) (p : Progress) : Progress × Bool :=
  let key := pairKey doc.path other.path
  if key ∈ p.seenThisRun then (p, true)
  else
    let o := { p.outcome with pairsConsidered := p.outcome.pairsConsidered + 1 }
    let p : Progress := { p with seenThisRun := key :: p.seenThisRun, outcome := o }
    if ¬ (pass.sourceVisible doc.path ∧ pass.sourceVisible other.path) then
      ({ p with outcome := { o with pairsSkippedAccess := o.pairsSkippedAccess + 1 } }, true)
    else if key ∈ p.openPairs then
      ({ p with outcome := { o with
          pairsSkippedExistingTension := o.pairsSkippedExistingTension + 1 } }, true)
    else if pass.pairHash sha256Hex doc other ∈ p.judged then
      ({ p with outcome := { o with pairsSkippedJudged := o.pairsSkippedJudged + 1 } }, true)
    else if pass.maxLlmCalls ≤ o.pairsJudged then
      ({ p with outcome := { o with budgetExhausted := true } }, false)
    else (judgePair sha256Hex pass doc other p, true)

/-- The neighbours of a document, one after another. -/
def scanNeighbors (doc : Doc) : List String → Progress → Progress × Bool
  | [], p => ({ p with completedDocs := p.completedDocs.insert doc.path }, true)
  | raw :: rest, p =>
      match pass.byPath (canon raw) with
      | none => scanNeighbors doc rest p
      | some other =>
          if other.path = doc.path then scanNeighbors doc rest p
          else
            let (p', goesOn) := examinePair sha256Hex pass doc other p
            if goesOn then scanNeighbors doc rest p' else (p', false)

def scanDocs : List Doc → Progress → Progress
  | [], p => p
  | doc :: rest, p =>
      if pass.maxLlmCalls ≤ p.outcome.pairsJudged then
        { p with outcome := { p.outcome with budgetExhausted := true } }
      else
        let p : Progress :=
          { p with outcome := { p.outcome with searchCalls := p.outcome.searchCalls + 1 } }
        match pass.searchNeighbors doc.path pass.relatedLimit with
        | none => scanDocs rest p
        | some neighbors =>
            let (p', goesOn) := scanNeighbors sha256Hex pass doc neighbors p
            if goesOn then scanDocs rest p' else p'

/-- What a pass starts its loops with. -/
def startScan (state : ScanState) (ledger : List Tension) : Progress where
  judged := state.judgedPairs
  seenThisRun := []
  failedDocs := []
  completedDocs := []
  openPairs := openKeys ledger
  outcome := ⟨(pass.candidates sha256Hex state).length, 0, 0, 0, 0, 0, 0, 0, 0, 0, 0, false, []⟩
  calls := []

def runScan (state : ScanState) (ledger : List Tension) : Progress :=
  scanDocs sha256Hex pass (pass.candidates sha256Hex state)
    (startScan sha256Hex pass state ledger)

def Progress.marked (p : Progress) : List String :=
  p.completedDocs.filter fun path => path ∉ p.failedDocs

/-- What a pass leaves in the state file. -/
def persisted (state : ScanState) (p : Progress) : ScanState where
  lastScanCommit :=
    if pass.isGitRepo then pass.headCommit <|> state.lastScanCommit else state.lastScanCommit
  scanned := p.marked.foldl (fun scanned path => scanned.set path (pass.hashOf sha256Hex path))
    (p.failedDocs.foldl (fun scanned path => scanned.erase path) state.scanned)
  judgedPairs := p.judged

def Progress.ledgerAfter (p : Progress) (ledger : List Tension) : List Tension :=
  ledger ++ p.outcome.tensions.map fun t => ⟨t.sourceA, t.sourceB, false⟩

end Loop

/-! ## Documents of a pass -/

/-- Every vault path is its own canonical form, names one document and holds no NUL. -/
structure Pass.Plain (pass : Pass) : Prop where
  canonical : ∀ d ∈ pass.loaded, canon d.path = d.path
  distinct : (pass.loaded.map Doc.path).Nodup
  noNul : ∀ d ∈ pass.loaded, '\x00' ∉ d.path.toList

namespace Pass.Plain

variable {pass : Pass} (h : pass.Plain)
include h

theorem docs_eq : pass.docs = pass.loaded := by
  conv_rhs => rw [← List.map_id pass.loaded]
  refine List.map_congr_left fun d hd => ?_
  rw [h.canonical d hd]
  rfl

theorem byPath_of_mem {d : Doc} (hd : d ∈ pass.docs) : pass.byPath d.path = some d :=
  Assoc.lastBy_of_mem (by rw [h.docs_eq]; exact h.distinct) hd

theorem eq_of_path {a b : Doc} (ha : a ∈ pass.docs) (hb : b ∈ pass.docs)
    (hpath : a.path = b.path) : a = b := by
  have hfind := h.byPath_of_mem ha
  rw [hpath, h.byPath_of_mem hb] at hfind
  exact (Option.some.inj hfind).symm

theorem hashOf_eq (sha256Hex : String → String) {d : Doc} (hd : d ∈ pass.docs) :
    pass.hashOf sha256Hex d.path = scanContentHash sha256Hex d.content := by
  unfold Pass.hashOf
  rw [h.byPath_of_mem hd]
  rfl

theorem noNul_of_mem {d : Doc} (hd : d ∈ pass.docs) : '\x00' ∉ d.path.toList :=
  h.noNul d (h.docs_eq ▸ hd)

theorem canon_of_mem {d : Doc} (hd : d ∈ pass.docs) : canon d.path = d.path :=
  h.canonical d (h.docs_eq ▸ hd)

theorem same_of_key {a b c d : Doc} (ha : a ∈ pass.docs) (hb : b ∈ pass.docs)
    (hc : c ∈ pass.docs) (hd : d ∈ pass.docs)
    (hkey : pairKey a.path b.path = pairKey c.path d.path) : (a = c ∧ b = d) ∨ (a = d ∧ b = c) := by
  rcases pairKey_inj (h.noNul_of_mem ha) (h.noNul_of_mem hb) (h.noNul_of_mem hc)
    (h.noNul_of_mem hd) hkey with ⟨h₁, h₂⟩ | ⟨h₁, h₂⟩
  · exact Or.inl ⟨h.eq_of_path ha hc h₁, h.eq_of_path hb hd h₂⟩
  · exact Or.inr ⟨h.eq_of_path ha hd h₁, h.eq_of_path hb hc h₂⟩

end Pass.Plain

theorem mem_of_byPath {pass : Pass} {path : String} {d : Doc} (h : pass.byPath path = some d) :
    d ∈ pass.docs ∧ d.path = path :=
  Assoc.mem_of_lastBy h

theorem mem_candidates {sha256Hex : String → String} {pass : Pass} {state : ScanState} {d : Doc}
    (h : d ∈ pass.candidates sha256Hex state) : d ∈ pass.docs ∧ pass.sourceVisible d.path := by
  obtain ⟨hmem, hvisible⟩ := List.mem_filter.mp (List.mem_of_mem_take h)
  refine ⟨?_, hvisible⟩
  rcases List.mem_append.mp hmem with hmem | hmem
  · exact List.mem_of_mem_filter ((Stable.sort_perm _ _).mem_iff.mp hmem)
  · exact List.mem_of_mem_filter ((Stable.sort_perm _ _).mem_iff.mp hmem)

/-! ## What going through a pair leaves behind -/

def docsHash (sha256Hex : String → String) (c : Doc × Doc) : String :=
  pairHash sha256Hex (c.1.path, scanContentHash sha256Hex c.1.content)
    (c.2.path, scanContentHash sha256Hex c.2.content)

def Dealt (sha256Hex : String → String) (p : Progress) (a b : Doc) : Prop :=
  pairKey a.path b.path ∈ p.openPairs ∨ docsHash sha256Hex (a, b) ∈ p.judged ∨
    (a.path ∈ p.failedDocs ∧ b.path ∈ p.failedDocs)

/-- Nothing that counts is taken back. -/
structure Grows (p p' : Progress) : Prop where
  openPairs : p.openPairs ⊆ p'.openPairs
  judged : p.judged ⊆ p'.judged
  failedDocs : p.failedDocs ⊆ p'.failedDocs

theorem Grows.refl (p : Progress) : Grows p p :=
  ⟨List.Subset.refl _, List.Subset.refl _, List.Subset.refl _⟩

variable {sha256Hex : String → String} {p p' : Progress} {a b : Doc}

theorem Dealt.symm (h : Dealt sha256Hex p a b) : Dealt sha256Hex p b a := by
  rcases h with hopen | hjudged | ⟨ha, hb⟩
  · exact Or.inl (pairKey_comm a.path b.path ▸ hopen)
  · right
    left
    unfold docsHash at hjudged ⊢
    rw [pairHash_comm]
    exact hjudged
  · exact Or.inr (Or.inr ⟨hb, ha⟩)

theorem Dealt.mono (h : Dealt sha256Hex p a b) (hgrows : Grows p p') : Dealt sha256Hex p' a b := by
  rcases h with hopen | hjudged | ⟨ha, hb⟩
  · exact Or.inl (hgrows.openPairs hopen)
  · exact Or.inr (Or.inl (hgrows.judged hjudged))
  · exact Or.inr (Or.inr ⟨hgrows.failedDocs ha, hgrows.failedDocs hb⟩)

/-- The pairs whose verdict was dealt with. -/
def settledPairs (calls : List Call) : List (Doc × Doc) :=
  (calls.filter Call.settled).map fun c => (c.a, c.b)

def Progress.settled (p : Progress) : List (Doc × Doc) := settledPairs p.calls

def Progress.loggedKeys (p : Progress) : List String :=
  p.outcome.tensions.map fun t => pairKey t.sourceA t.sourceB

section Sound

variable (sha256Hex : String → String) (pass : Pass) (state : ScanState) (ledger : List Tension)

/-- What holds at every point of a pass: its calls are counted and within the budget; a hash
    is remembered for each verdict, and none twice; a key is open for each open tension, of
    the ledger or logged, and none is logged twice. -/
structure Core (p : Progress) : Prop where
  counted : p.outcome.pairsJudged = p.calls.length
  budget : p.calls.length ≤ pass.maxLlmCalls
  judged : ∀ ph, ph ∈ p.judged ↔
    ph ∈ state.judgedPairs ∨ ∃ c ∈ p.settled, docsHash sha256Hex c = ph
  once : (p.settled.map (docsHash sha256Hex)).Nodup
  anew : ∀ c ∈ p.settled, docsHash sha256Hex c ∉ state.judgedPairs
  opens : ∀ key, key ∈ p.openPairs ↔ key ∈ openKeys ledger ∨ key ∈ p.loggedKeys
  loggedOnce : p.loggedKeys.Nodup
  loggedAnew : ∀ key ∈ p.loggedKeys, key ∉ openKeys ledger
  settledDocs : ∀ c ∈ p.settled, c.1 ∈ pass.docs ∧ c.2 ∈ pass.docs
  loggedDocs : ∀ t ∈ p.outcome.tensions, ∃ a ∈ pass.docs, ∃ b ∈ pass.docs,
    t.sourceA = a.path ∧ t.sourceB = b.path
  completed : ∀ path ∈ p.completedDocs, ∃ d ∈ pass.candidates sha256Hex state, d.path = path ∧
    ∃ neighbors, pass.searchNeighbors d.path pass.relatedLimit = some neighbors ∧
      ∀ raw ∈ neighbors, ∀ other ∈ pass.docs, other.path = canon raw → other.path ≠ d.path →
        Dealt sha256Hex p d other

/-- Every pair that was gone through is dealt with. -/
def SeenDealt (p : Progress) : Prop :=
  ∀ a ∈ pass.docs, ∀ b ∈ pass.docs, pairKey a.path b.path ∈ p.seenThisRun →
    Dealt sha256Hex p a b

/-- The condition on a pass: what retrieval returns for a candidate, its caller may see, or
    there is an open tension or a verdict on the same contents already. -/
def Pass.SeesNeighbors : Prop :=
  ∀ d ∈ pass.candidates sha256Hex state, ∀ neighbors,
    pass.searchNeighbors d.path pass.relatedLimit = some neighbors →
    ∀ raw ∈ neighbors, ∀ other ∈ pass.docs, other.path = canon raw → other.path ≠ d.path →
      pass.sourceVisible other.path ∨ pairKey d.path other.path ∈ openKeys ledger ∨
        docsHash sha256Hex (d, other) ∈ state.judgedPairs

variable {sha256Hex pass state ledger}

theorem Pass.Plain.pairHash_eq (h : pass.Plain) (ha : a ∈ pass.docs) (hb : b ∈ pass.docs) :
    pass.pairHash sha256Hex a b = docsHash sha256Hex (a, b) := by
  unfold Pass.pairHash docsHash
  rw [h.hashOf_eq sha256Hex ha, h.hashOf_eq sha256Hex hb]

/-! ## One call of the judge -/

theorem settledPairs_failed (calls : List Call) (a b : Doc) :
    settledPairs (calls ++ [⟨a, b, false⟩]) = settledPairs calls := by
  unfold settledPairs
  rw [List.filter_append]
  exact congrArg _ (List.append_nil _)

theorem settledPairs_settled (calls : List Call) (a b : Doc) :
    settledPairs (calls ++ [⟨a, b, true⟩]) = settledPairs calls ++ [(a, b)] := by
  unfold settledPairs
  rw [List.filter_append, List.map_append]
  rfl

/-- The three ways a call of the judge may end. -/
inductive Judged (sha256Hex : String → String) (pass : Pass) (doc other : Doc) (p : Progress) :
    Progress → Prop where
  | failed {o} (hcount : o.pairsJudged = p.outcome.pairsJudged + 1)
      (htensions : o.tensions = p.outcome.tensions) :
      Judged sha256Hex pass doc other p
        { p with failedDocs := doc.path :: other.path :: p.failedDocs, outcome := o,
                 calls := p.calls ++ [⟨doc, other, false⟩] }
  | clear {o} (hcount : o.pairsJudged = p.outcome.pairsJudged + 1)
      (htensions : o.tensions = p.outcome.tensions) :
      Judged sha256Hex pass doc other p
        { p with judged := pass.pairHash sha256Hex doc other :: p.judged, outcome := o,
                 calls := p.calls ++ [⟨doc, other, true⟩] }
  | logged {o t} (hcount : o.pairsJudged = p.outcome.pairsJudged + 1)
      (htensions : o.tensions = p.outcome.tensions ++ [t]) (hA : t.sourceA = doc.path)
      (hB : t.sourceB = other.path) :
      Judged sha256Hex pass doc other p
        { p with judged := pass.pairHash sha256Hex doc other :: p.judged,
                 openPairs := pairKey doc.path other.path :: p.openPairs, outcome := o,
                 calls := p.calls ++ [⟨doc, other, true⟩] }

theorem judgePair_cases (doc other : Doc) (p : Progress) :
    Judged sha256Hex pass doc other p (judgePair sha256Hex pass doc other p) := by
  unfold judgePair
  dsimp only
  cases (pass.completeJson p.outcome.pairsJudged).bind parseVerdict with
  | none => exact .failed rfl rfl
  | some verdict =>
      dsimp only
      by_cases hconflict : ¬ verdict.conflict
      · rw [if_pos hconflict]
        exact .clear rfl rfl
      · rw [if_neg hconflict]
        cases pass.addTension p.outcome.pairsJudged with
        | none => exact .failed rfl rfl
        | some id => exact .logged rfl rfl rfl rfl

variable {doc other : Doc}

theorem Judged.grows (h : Judged sha256Hex pass doc other p p') : Grows p p' := by
  cases h with
  | failed =>
      exact ⟨List.Subset.refl _, List.Subset.refl _, fun x hx => by simp [hx]⟩
  | clear => exact ⟨List.Subset.refl _, List.subset_cons_self _ _, List.Subset.refl _⟩
  | logged => exact ⟨List.subset_cons_self _ _, List.subset_cons_self _ _, List.Subset.refl _⟩

/-- **A judged pair is dealt with.** -/
theorem Judged.dealt (h : Judged sha256Hex pass doc other p p') (hplain : pass.Plain)
    (hdoc : doc ∈ pass.docs) (hother : other ∈ pass.docs) : Dealt sha256Hex p' doc other := by
  have hash : pass.pairHash sha256Hex doc other = docsHash sha256Hex (doc, other) :=
    hplain.pairHash_eq hdoc hother
  cases h with
  | failed => exact Or.inr (Or.inr ⟨by simp, by simp⟩)
  | clear => exact Or.inr (Or.inl (hash ▸ List.mem_cons_self))
  | logged => exact Or.inr (Or.inl (hash ▸ List.mem_cons_self))

theorem Judged.seen (h : Judged sha256Hex pass doc other p p') :
    p'.seenThisRun = p.seenThisRun ∧ p'.completedDocs = p.completedDocs := by
  cases h <;> exact ⟨rfl, rfl⟩

/-- **A call of the judge keeps what holds of a pass**: the hash is new, the key not open. -/
theorem Judged.core (h : Judged sha256Hex pass doc other p p')
    (hcore : Core sha256Hex pass state ledger p) (hplain : pass.Plain)
    (hdoc : doc ∈ pass.docs) (hother : other ∈ pass.docs)
    (hbudget : p.outcome.pairsJudged < pass.maxLlmCalls)
    (hopen : pairKey doc.path other.path ∉ p.openPairs)
    (hnew : pass.pairHash sha256Hex doc other ∉ p.judged) :
    Core sha256Hex pass state ledger p' := by
  have hash : pass.pairHash sha256Hex doc other = docsHash sha256Hex (doc, other) :=
    hplain.pairHash_eq hdoc hother
  have hdealt : ∀ path ∈ p'.completedDocs, ∃ d ∈ pass.candidates sha256Hex state,
      d.path = path ∧ ∃ neighbors,
        pass.searchNeighbors d.path pass.relatedLimit = some neighbors ∧
        ∀ raw ∈ neighbors, ∀ other ∈ pass.docs, other.path = canon raw → other.path ≠ d.path →
          Dealt sha256Hex p' d other := by
    intro path hpath
    rw [h.seen.2] at hpath
    obtain ⟨d, hd, hdpath, neighbors, hsearch, hall⟩ := hcore.completed path hpath
    exact ⟨d, hd, hdpath, neighbors, hsearch, fun raw hraw o ho hname hne =>
      (hall raw hraw o ho hname hne).mono h.grows⟩
  rw [hcore.counted] at hbudget
  rw [hash] at hnew
  have hsettledNew : ∀ c ∈ p.settled, docsHash sha256Hex c ≠ docsHash sha256Hex (doc, other) :=
    fun c hc heq => hnew ((hcore.judged _).mpr (Or.inr ⟨c, hc, heq⟩))
  have hnotBefore : docsHash sha256Hex (doc, other) ∉ state.judgedPairs :=
    fun hin => hnew ((hcore.judged _).mpr (Or.inl hin))
  have hlength : ∀ c : Call, (p.calls ++ [c]).length ≤ pass.maxLlmCalls := by
    intro c
    rw [List.length_append]
    exact hbudget
  have hcounted : ∀ (o : Outcome) (c : Call), o.pairsJudged = p.outcome.pairsJudged + 1 →
      o.pairsJudged = (p.calls ++ [c]).length := by
    intro o c ho
    rw [ho, hcore.counted, List.length_append]
    rfl
  -- a settled pair is remembered by its own hash
  have hjudged : ∀ ph, ph ∈ pass.pairHash sha256Hex doc other :: p.judged ↔
      ph ∈ state.judgedPairs ∨ ∃ c ∈ p.settled ++ [(doc, other)], docsHash sha256Hex c = ph := by
    intro ph
    rw [List.mem_cons, hcore.judged, hash]
    constructor
    · rintro (rfl | hin | ⟨c, hc, hph⟩)
      · exact Or.inr ⟨(doc, other), by simp, rfl⟩
      · exact Or.inl hin
      · exact Or.inr ⟨c, List.mem_append_left _ hc, hph⟩
    · rintro (hin | ⟨c, hc, hph⟩)
      · exact Or.inr (Or.inl hin)
      · rcases List.mem_append.mp hc with hc | hc
        · exact Or.inr (Or.inr ⟨c, hc, hph⟩)
        · rw [List.mem_singleton.mp hc] at hph
          exact Or.inl hph.symm
  have honce : ((p.settled ++ [(doc, other)]).map (docsHash sha256Hex)).Nodup := by
    rw [List.map_append, List.map_singleton, List.nodup_append]
    refine ⟨hcore.once, List.nodup_singleton _, ?_⟩
    intro x hx y hy
    obtain ⟨c, hc, rfl⟩ := List.mem_map.mp hx
    rw [List.mem_singleton.mp hy]
    exact hsettledNew c hc
  have hanew : ∀ c ∈ p.settled ++ [(doc, other)],
      docsHash sha256Hex c ∉ state.judgedPairs := by
    exact List.forall_mem_append.mpr ⟨hcore.anew, List.forall_mem_singleton.mpr hnotBefore⟩
  have hdocs : ∀ c ∈ p.settled ++ [(doc, other)], c.1 ∈ pass.docs ∧ c.2 ∈ pass.docs := by
    exact List.forall_mem_append.mpr
      ⟨hcore.settledDocs, List.forall_mem_singleton.mpr ⟨hdoc, hother⟩⟩
  cases h with
  | @failed o hcount htensions =>
      have hsettled := settledPairs_failed p.calls doc other
      have hlogged : o.tensions.map (fun t => pairKey t.sourceA t.sourceB) = p.loggedKeys := by
        rw [htensions]
        rfl
      exact
        { counted := hcounted o _ hcount
          budget := hlength _
          judged := by unfold Progress.settled; rw [hsettled]; exact hcore.judged
          once := by unfold Progress.settled; rw [hsettled]; exact hcore.once
          anew := by unfold Progress.settled; rw [hsettled]; exact hcore.anew
          opens := by unfold Progress.loggedKeys; rw [hlogged]; exact hcore.opens
          loggedOnce := by unfold Progress.loggedKeys; rw [hlogged]; exact hcore.loggedOnce
          loggedAnew := by unfold Progress.loggedKeys; rw [hlogged]; exact hcore.loggedAnew
          settledDocs := by unfold Progress.settled; rw [hsettled]; exact hcore.settledDocs
          loggedDocs := by rw [htensions]; exact hcore.loggedDocs
          completed := hdealt }
  | @clear o hcount htensions =>
      have hsettled := settledPairs_settled p.calls doc other
      have hlogged : o.tensions.map (fun t => pairKey t.sourceA t.sourceB) = p.loggedKeys := by
        rw [htensions]
        rfl
      exact
        { counted := hcounted o _ hcount
          budget := hlength _
          judged := by unfold Progress.settled; rw [hsettled]; exact hjudged
          once := by unfold Progress.settled; rw [hsettled]; exact honce
          anew := by unfold Progress.settled; rw [hsettled]; exact hanew
          opens := by unfold Progress.loggedKeys; rw [hlogged]; exact hcore.opens
          loggedOnce := by unfold Progress.loggedKeys; rw [hlogged]; exact hcore.loggedOnce
          loggedAnew := by unfold Progress.loggedKeys; rw [hlogged]; exact hcore.loggedAnew
          settledDocs := by unfold Progress.settled; rw [hsettled]; exact hdocs
          loggedDocs := by rw [htensions]; exact hcore.loggedDocs
          completed := hdealt }
  | @logged o t hcount htensions hA hB =>
      have hsettled := settledPairs_settled p.calls doc other
      have hlogged : o.tensions.map (fun t => pairKey t.sourceA t.sourceB)
          = p.loggedKeys ++ [pairKey doc.path other.path] := by
        rw [htensions, List.map_append, List.map_singleton, hA, hB]
        rfl
      rw [hcore.opens, not_or] at hopen
      exact
        { counted := hcounted o _ hcount
          budget := hlength _
          judged := by unfold Progress.settled; rw [hsettled]; exact hjudged
          once := by unfold Progress.settled; rw [hsettled]; exact honce
          anew := by unfold Progress.settled; rw [hsettled]; exact hanew
          opens := by
            unfold Progress.loggedKeys
            intro key
            rw [hlogged, List.mem_cons, hcore.opens, List.mem_append, List.mem_singleton]
            tauto
          loggedOnce := by
            unfold Progress.loggedKeys
            rw [hlogged, List.nodup_append]
            refine ⟨hcore.loggedOnce, List.nodup_singleton _, ?_⟩
            intro x hx y hy heq
            rw [List.mem_singleton.mp hy] at heq
            exact hopen.2 (heq ▸ hx)
          loggedAnew := by
            unfold Progress.loggedKeys
            rw [hlogged]
            exact List.forall_mem_append.mpr
              ⟨hcore.loggedAnew, List.forall_mem_singleton.mpr hopen.1⟩
          settledDocs := by unfold Progress.settled; rw [hsettled]; exact hdocs
          loggedDocs := by
            rw [htensions]
            exact List.forall_mem_append.mpr
              ⟨hcore.loggedDocs, List.forall_mem_singleton.mpr ⟨doc, hdoc, other, hother, hA, hB⟩⟩
          completed := hdealt }

/-! ## One pair -/

theorem Core.recount (h : Core sha256Hex pass state ledger p) (seen : List String) {o : Outcome}
    (hcount : o.pairsJudged = p.outcome.pairsJudged)
    (htensions : o.tensions = p.outcome.tensions) :
    Core sha256Hex pass state ledger { p with seenThisRun := seen, outcome := o } where
  counted := hcount.trans h.counted
  budget := h.budget
  judged := h.judged
  once := h.once
  anew := h.anew
  opens := by unfold Progress.loggedKeys; rw [htensions]; exact h.opens
  loggedOnce := by unfold Progress.loggedKeys; rw [htensions]; exact h.loggedOnce
  loggedAnew := by unfold Progress.loggedKeys; rw [htensions]; exact h.loggedAnew
  settledDocs := h.settledDocs
  loggedDocs := by rw [htensions]; exact h.loggedDocs
  completed := h.completed

/-- The exits of the inner loop. -/
inductive Examined (sha256Hex : String → String) (pass : Pass) (doc other : Doc)
    (p : Progress) : Progress × Bool → Prop where
  | seen (hseen : pairKey doc.path other.path ∈ p.seenThisRun) :
      Examined sha256Hex pass doc other p (p, true)
  | skipped {o} (hcount : o.pairsJudged = p.outcome.pairsJudged)
      (htensions : o.tensions = p.outcome.tensions)
      (hwhy : ¬ (pass.sourceVisible doc.path ∧ pass.sourceVisible other.path) ∨
        pairKey doc.path other.path ∈ p.openPairs ∨
        pass.pairHash sha256Hex doc other ∈ p.judged) :
      Examined sha256Hex pass doc other p
        ({ p with seenThisRun := pairKey doc.path other.path :: p.seenThisRun, outcome := o },
          true)
  | spent {o} (hcount : o.pairsJudged = p.outcome.pairsJudged)
      (htensions : o.tensions = p.outcome.tensions) :
      Examined sha256Hex pass doc other p
        ({ p with seenThisRun := pairKey doc.path other.path :: p.seenThisRun, outcome := o },
          false)
  | judged {o p'} (hcount : o.pairsJudged = p.outcome.pairsJudged)
      (htensions : o.tensions = p.outcome.tensions)
      (hbudget : o.pairsJudged < pass.maxLlmCalls)
      (hopen : pairKey doc.path other.path ∉ p.openPairs)
      (hnew : pass.pairHash sha256Hex doc other ∉ p.judged)
      (hjudged : Judged sha256Hex pass doc other
        { p with seenThisRun := pairKey doc.path other.path :: p.seenThisRun, outcome := o } p') :
      Examined sha256Hex pass doc other p (p', true)

theorem examinePair_cases (doc other : Doc) (p : Progress) :
    Examined sha256Hex pass doc other p (examinePair sha256Hex pass doc other p) := by
  unfold examinePair
  by_cases hseen : pairKey doc.path other.path ∈ p.seenThisRun
  · rw [if_pos hseen]
    exact .seen hseen
  rw [if_neg hseen]
  by_cases hhidden : ¬ (pass.sourceVisible doc.path ∧ pass.sourceVisible other.path)
  · rw [if_pos hhidden]
    exact .skipped rfl rfl (Or.inl hhidden)
  rw [if_neg hhidden]
  by_cases hopen : pairKey doc.path other.path ∈ p.openPairs
  · rw [if_pos hopen]
    exact .skipped rfl rfl (Or.inr (Or.inl hopen))
  rw [if_neg hopen]
  by_cases hold : pass.pairHash sha256Hex doc other ∈ p.judged
  · rw [if_pos hold]
    exact .skipped rfl rfl (Or.inr (Or.inr hold))
  rw [if_neg hold]
  by_cases hspent : pass.maxLlmCalls ≤ p.outcome.pairsJudged
  · rw [if_pos hspent]
    exact .spent rfl rfl
  · rw [if_neg hspent]
    refine .judged ?_ ?_ ?_ hopen hold (judgePair_cases doc other _)
    · rfl
    · rfl
    · exact Nat.lt_of_not_le hspent

theorem SeenDealt.cons {key : String} (h : SeenDealt sha256Hex pass p) (hplain : pass.Plain)
    (hdoc : doc ∈ pass.docs) (hother : other ∈ pass.docs) (hgrows : Grows p p')
    (hkey : key = pairKey doc.path other.path) (hseen : p'.seenThisRun = key :: p.seenThisRun)
    (hdealt : Dealt sha256Hex p' doc other) : SeenDealt sha256Hex pass p' := by
  intro a ha b hb hmem
  rw [hseen, hkey] at hmem
  rcases List.mem_cons.mp hmem with heq | hmem
  · rcases hplain.same_of_key ha hb hdoc hother heq with ⟨rfl, rfl⟩ | ⟨rfl, rfl⟩
    · exact hdealt
    · exact hdealt.symm
  · exact (h a ha b hb hmem).mono hgrows

/-- **One pair**: what holds of the pass holds still, and unless the budget is spent, the
    pair is dealt with. -/
theorem examinePair_sound {r : Progress × Bool} (h : Examined sha256Hex pass doc other p r)
    (hcore : Core sha256Hex pass state ledger p) (hseen : SeenDealt sha256Hex pass p)
    (hplain : pass.Plain) (hdoc : doc ∈ pass.docs) (hother : other ∈ pass.docs)
    (hvisible : pass.sourceVisible doc.path)
    (hsees : pass.sourceVisible other.path ∨ pairKey doc.path other.path ∈ openKeys ledger ∨
      docsHash sha256Hex (doc, other) ∈ state.judgedPairs) :
    Core sha256Hex pass state ledger r.1 ∧ Grows p r.1 ∧
      (r.2 = true → SeenDealt sha256Hex pass r.1 ∧ Dealt sha256Hex r.1 doc other) := by
  cases h with
  | seen hmem =>
      exact ⟨hcore, .refl p, fun _ => ⟨hseen, hseen doc hdoc other hother hmem⟩⟩
  | @skipped o hcount htensions hwhy =>
      have hdealt : Dealt sha256Hex p doc other := by
        rcases hwhy with hhidden | hopen | hold
        · -- the caller does not see the other side: the condition on the pass
          rcases hsees with hother | hopen | hold
          · exact absurd ⟨hvisible, hother⟩ hhidden
          · exact Or.inl ((hcore.opens _).mpr (Or.inl hopen))
          · exact Or.inr (Or.inl ((hcore.judged _).mpr (Or.inl hold)))
        · exact Or.inl hopen
        · exact Or.inr (Or.inl (hplain.pairHash_eq hdoc hother ▸ hold))
      refine ⟨hcore.recount _ hcount htensions,
        ⟨List.Subset.refl _, List.Subset.refl _, List.Subset.refl _⟩, fun _ => ⟨?_, hdealt⟩⟩
      exact hseen.cons hplain hdoc hother
        ⟨List.Subset.refl _, List.Subset.refl _, List.Subset.refl _⟩ rfl rfl hdealt
  | spent hcount htensions =>
      refine ⟨hcore.recount _ hcount htensions,
        ⟨List.Subset.refl _, List.Subset.refl _, List.Subset.refl _⟩, ?_⟩
      intro hgo
      cases hgo
  | @judged o p' hcount htensions hbudget hopen hnew hjudged =>
      have hgrows : Grows p p' :=
        ⟨hjudged.grows.openPairs, hjudged.grows.judged, hjudged.grows.failedDocs⟩
      have hdealt := hjudged.dealt hplain hdoc hother
      refine ⟨hjudged.core (hcore.recount _ hcount htensions) hplain hdoc hother hbudget hopen hnew,
        hgrows, fun _ => ⟨?_, hdealt⟩⟩
      exact hseen.cons hplain hdoc hother hgrows rfl hjudged.seen.1 hdealt

/-! ## The loops -/

theorem Core.complete (h : Core sha256Hex pass state ledger p) {doc : Doc}
    (hdoc : doc ∈ pass.candidates sha256Hex state) {neighbors : List String}
    (hsearch : pass.searchNeighbors doc.path pass.relatedLimit = some neighbors)
    (hall : ∀ raw ∈ neighbors, ∀ other ∈ pass.docs, other.path = canon raw →
      other.path ≠ doc.path → Dealt sha256Hex p doc other) :
    Core sha256Hex pass state ledger
      { p with completedDocs := p.completedDocs.insert doc.path } where
  counted := h.counted
  budget := h.budget
  judged := h.judged
  once := h.once
  anew := h.anew
  opens := h.opens
  loggedOnce := h.loggedOnce
  loggedAnew := h.loggedAnew
  settledDocs := h.settledDocs
  loggedDocs := h.loggedDocs
  completed := by
    intro path hpath
    rcases List.mem_insert_iff.mp hpath with rfl | hpath
    · exact ⟨doc, hdoc, rfl, neighbors, hsearch, hall⟩
    · exact h.completed path hpath

/-- **The neighbours of a document**: the induction is on what is left of them. -/
theorem scanNeighbors_sound (hplain : pass.Plain)
    (hsees : pass.SeesNeighbors sha256Hex state ledger)
    (hdoc : doc ∈ pass.candidates sha256Hex state) {done rest : List String}
    (hsearch : pass.searchNeighbors doc.path pass.relatedLimit = some (done ++ rest))
    (hcore : Core sha256Hex pass state ledger p) (hseen : SeenDealt sha256Hex pass p)
    (hdone : ∀ raw ∈ done, ∀ other ∈ pass.docs, other.path = canon raw →
      other.path ≠ doc.path → Dealt sha256Hex p doc other) :
    Core sha256Hex pass state ledger (scanNeighbors sha256Hex pass doc rest p).1 ∧
      ((scanNeighbors sha256Hex pass doc rest p).2 = true →
        SeenDealt sha256Hex pass (scanNeighbors sha256Hex pass doc rest p).1) := by
  obtain ⟨hmem, hvisible⟩ := mem_candidates hdoc
  induction rest generalizing done p with
  | nil =>
      rw [List.append_nil] at hsearch
      exact ⟨hcore.complete hdoc hsearch hdone, fun _ => hseen⟩
  | cons raw rest ih =>
      have hsplit : done ++ raw :: rest = (done ++ [raw]) ++ rest := by simp
      have hcovers : ∀ p' : Progress, Grows p p' →
          (∀ other ∈ pass.docs, other.path = canon raw → other.path ≠ doc.path →
            Dealt sha256Hex p' doc other) →
          ∀ raw' ∈ done ++ [raw], ∀ other ∈ pass.docs, other.path = canon raw' →
            other.path ≠ doc.path → Dealt sha256Hex p' doc other := by
        intro p' hgrows hraw raw' hraw' other hother hname hne
        rcases List.mem_append.mp hraw' with hraw' | hraw'
        · exact (hdone raw' hraw' other hother hname hne).mono hgrows
        · rw [List.mem_singleton.mp hraw'] at hname
          exact hraw other hother hname hne
      rw [hsplit] at hsearch
      unfold scanNeighbors
      cases hfind : pass.byPath (canon raw) with
      | none =>
          refine ih hsearch hcore hseen (hcovers p (.refl p) ?_)
          intro other hother hname hne
          rw [← hname, hplain.byPath_of_mem hother] at hfind
          cases hfind
      | some other =>
          obtain ⟨hother, hname⟩ := mem_of_byPath hfind
          have honly : ∀ o ∈ pass.docs, o.path = canon raw → o = other :=
            fun o ho hpath => hplain.eq_of_path ho hother (hpath.trans hname.symm)
          dsimp only
          by_cases hself : other.path = doc.path
          · rw [if_pos hself]
            refine ih hsearch hcore hseen (hcovers p (.refl p) ?_)
            intro o ho hpath hne
            rw [honly o ho hpath] at hne
            exact absurd hself hne
          · rw [if_neg hself]
            have hexamined : Examined sha256Hex pass doc other p _ := examinePair_cases doc other p
            obtain ⟨hcore', hgrows, hgo⟩ := examinePair_sound hexamined hcore hseen hplain hmem
              hother hvisible (hsees doc hdoc _ hsearch raw (by simp) other hother hname hself)
            cases hflow : (examinePair sha256Hex pass doc other p).2 with
            | false =>
                refine ⟨hcore', fun hstop => ?_⟩
                cases hstop
            | true =>
                obtain ⟨hseen', hdealt⟩ := hgo hflow
                refine ih hsearch hcore' hseen' (hcovers _ hgrows ?_)
                intro o ho hpath hne
                rw [honly o ho hpath]
                exact hdealt

/-- **The documents of a pass.** -/
theorem scanDocs_sound (hplain : pass.Plain)
    (hsees : pass.SeesNeighbors sha256Hex state ledger) {docs : List Doc}
    (hdocs : ∀ d ∈ docs, d ∈ pass.candidates sha256Hex state)
    (hcore : Core sha256Hex pass state ledger p) (hseen : SeenDealt sha256Hex pass p) :
    Core sha256Hex pass state ledger (scanDocs sha256Hex pass docs p) := by
  induction docs generalizing p with
  | nil => exact hcore
  | cons doc docs ih =>
      have hrest : ∀ d ∈ docs, d ∈ pass.candidates sha256Hex state :=
        fun d hd => hdocs d (List.mem_cons_of_mem _ hd)
      unfold scanDocs
      by_cases hspent : pass.maxLlmCalls ≤ p.outcome.pairsJudged
      · rw [if_pos hspent]
        exact hcore.recount p.seenThisRun rfl rfl
      · rw [if_neg hspent]
        have hcore₁ := hcore.recount p.seenThisRun
          (o := { p.outcome with searchCalls := p.outcome.searchCalls + 1 }) rfl rfl
        cases hsearch : pass.searchNeighbors doc.path pass.relatedLimit with
        | none => exact ih hrest hcore₁ hseen
        | some neighbors =>
            dsimp only
            have hall : pass.searchNeighbors doc.path pass.relatedLimit
              = some ([] ++ neighbors) := hsearch
            obtain ⟨hcore₂, hgo⟩ := scanNeighbors_sound hplain hsees
              (hdocs doc List.mem_cons_self) hall hcore₁ hseen (fun raw hraw => by cases hraw)
            split
            · rename_i hflow
              exact ih hrest hcore₂ (hgo hflow)
            · exact hcore₂

/-- **A whole pass.** -/
theorem runScan_sound (hplain : pass.Plain) (hsees : pass.SeesNeighbors sha256Hex state ledger) :
    Core sha256Hex pass state ledger (runScan sha256Hex pass state ledger) := by
  refine scanDocs_sound hplain hsees (fun _ hd => hd) ?_ ?_
  · exact
      { counted := rfl
        budget := Nat.zero_le _
        judged := fun ph => ⟨Or.inl, fun h => h.elim id fun ⟨_, hc, _⟩ => by cases hc⟩
        once := List.nodup_nil
        anew := fun _ hc => by cases hc
        opens := fun key => ⟨Or.inl, fun h => h.elim id fun hk => by cases hk⟩
        loggedOnce := List.nodup_nil
        loggedAnew := fun _ hk => by cases hk
        settledDocs := fun _ hc => by cases hc
        loggedDocs := fun _ ht => by cases ht
        completed := fun _ hpath => by cases hpath }
  · intro a _ b _ hmem
    cases hmem

end Sound

end TensionScan
