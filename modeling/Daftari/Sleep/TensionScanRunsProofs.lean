import Daftari.Sleep.TensionScanProofs
import Daftari.Lib.MachineProofs

/-! # The tension scan — what a mark means, over passes

    Passes of any callers share one state file, and between them the vault and the ledger
    are edited.  A mark stays until its document changes or one of its pairs fails, so what
    it says has to have been true when it was made.

    * `World`, `machine`: the state file and the ledger, passes and edits;
    * `scanned_mark_means_examined`: **a mark hides no pair, where callers see what
      retrieval returns**. -/

namespace TensionScan

/-! ## Worlds -/

/-- What a document was marked upon: the documents and the retrieval of the pass, and the
    open tensions and the verdicts there were at its end. -/
structure Recorded where
  doc : Doc
  docs : List Doc
  retrieved : List String
  openPairs : List String
  settled : List (Doc × Doc)

/-- Every vault document that retrieval returned had an open tension with the document, or
    was judged against it on the contents both had then. -/
def Recorded.Examined (r : Recorded) : Prop :=
  ∀ raw ∈ r.retrieved, ∀ other ∈ r.docs, other.path = canon raw → other.path ≠ r.doc.path →
    pairKey r.doc.path other.path ∈ r.openPairs ∨ (r.doc, other) ∈ r.settled ∨
      (other, r.doc) ∈ r.settled

instance (r : Recorded) : Decidable r.Examined :=
  inferInstanceAs (Decidable (∀ raw ∈ r.retrieved, ∀ other ∈ r.docs, other.path = canon raw →
    other.path ≠ r.doc.path → _ ∨ _ ∨ _))

/-- The state file and the ledger; the verdicts dealt with so far, and what each mark was
    made upon. -/
structure World where
  state : ScanState
  ledger : List Tension
  settled : List (Doc × Doc)
  recorded : List Recorded

/-- A vault that was never scanned. -/
def World.start (ledger : List Tension) : World := ⟨⟨none, Table.empty, []⟩, ledger, [], []⟩

inductive Event where
  | pass (pass : Pass)
  | edit (ledger : List Tension)

def World.scan (sha256Hex : String → String) (w : World) (pass : Pass) : World :=
  let p := runScan sha256Hex pass w.state w.ledger
  let ledger := p.ledgerAfter w.ledger
  let settled := w.settled ++ p.settled
  { state := persisted sha256Hex pass w.state p
    ledger := ledger
    settled := settled
    recorded := w.recorded ++ p.marked.filterMap fun path => (pass.byPath path).map fun d =>
      { doc := d
        docs := pass.docs
        retrieved := (pass.searchNeighbors path pass.relatedLimit).getD []
        openPairs := openKeys ledger
        settled := settled } }

def machine (sha256Hex : String → String) : Machine World Event where
  enabled _ _ := True
  next w
    | .pass pass => w.scan sha256Hex pass
    | .edit ledger => { w with ledger := ledger }

instance (sha256Hex : String → String) (w : World) (e : Event) :
    Decidable ((machine sha256Hex).enabled w e) :=
  inferInstanceAs (Decidable True)

/-- Every mark with the hash of a document was made upon that content, and upon all pairs
    that retrieval returned then. -/
def World.MarksExamined (sha256Hex : String → String) (w : World) : Prop :=
  ∀ path h, w.state.scanned.find path = some h → ∃ r ∈ w.recorded, r.doc.path = path ∧
    scanContentHash sha256Hex r.doc.content = h ∧ r.Examined

def SamePair (c c' : Doc × Doc) : Prop := c' = c ∨ c' = c.swap

def NoCollisions (sha256Hex : String → String) (versions : Doc → Prop) : Prop :=
  ∀ c c' : Doc × Doc, versions c.1 → versions c.2 → versions c'.1 → versions c'.2 →
    docsHash sha256Hex c = docsHash sha256Hex c' → SamePair c c'

/-- The condition on a step: the paths of a pass are plain, its documents are among the
    versions, and its caller sees what retrieval returns. -/
def Sees (sha256Hex : String → String) (versions : Doc → Prop) (w : World) : Event → Prop
  | .pass pass => pass.Plain ∧ (∀ d ∈ pass.docs, versions d) ∧
      pass.SeesNeighbors sha256Hex w.state w.ledger
  | .edit _ => True

/-! ## The state file after a pass -/

variable {sha256Hex : String → String} {versions : Doc → Prop} {w : World} {pass : Pass}

theorem find_foldl_mark (t : Table String String) (ks : List String) (f : String → String)
    (k : String) : (ks.foldl (fun t k => t.set k (f k)) t).find k
      = if k ∈ ks then some (f k) else t.find k := by
  induction ks generalizing t with
  | nil => rfl
  | cons k₀ ks ih =>
      rw [List.foldl_cons, ih]
      by_cases hk : k ∈ ks
      · rw [if_pos hk, if_pos (List.mem_cons_of_mem _ hk)]
      · rw [if_neg hk, Table.find_set]
        by_cases hk₀ : k = k₀
        · rw [if_pos hk₀, if_pos (by simp [hk₀]), hk₀]
        · rw [if_neg hk₀, if_neg (by simp [hk₀, hk])]

theorem find_foldl_erase (t : Table String String) (ks : List String) (k : String) :
    (ks.foldl (fun t k => t.erase k) t).find k = if k ∈ ks then none else t.find k := by
  induction ks generalizing t with
  | nil => rfl
  | cons k₀ ks ih =>
      rw [List.foldl_cons, ih]
      by_cases hk : k ∈ ks
      · rw [if_pos hk, if_pos (List.mem_cons_of_mem _ hk)]
      · rw [if_neg hk, Table.find_erase]
        by_cases hk₀ : k = k₀
        · rw [if_pos hk₀, if_pos (by simp [hk₀])]
        · rw [if_neg hk₀, if_neg (by simp [hk₀, hk])]

theorem openKeys_logged {tensions : List LoggedTension}
    (h : ∀ t ∈ tensions, canon t.sourceA = t.sourceA ∧ canon t.sourceB = t.sourceB) :
    openKeys (tensions.map fun t => ⟨t.sourceA, t.sourceB, false⟩)
      = tensions.map fun t => pairKey t.sourceA t.sourceB := by
  induction tensions with
  | nil => rfl
  | cons t tensions ih =>
      have htail := ih fun x hx => h x (List.mem_cons_of_mem _ hx)
      obtain ⟨hA, hB⟩ := h t List.mem_cons_self
      unfold openKeys at htail ⊢
      rw [List.map_cons, List.filter_cons_of_pos (by simp), List.map_cons, htail, hA, hB,
        List.map_cons]

theorem openKeys_ledgerAfter {ledger : List Tension} {state : ScanState} {p : Progress}
    (hplain : pass.Plain) (hcore : Core sha256Hex pass state ledger p) :
    openKeys (p.ledgerAfter ledger) = openKeys ledger ++ p.loggedKeys := by
  have hlogged : openKeys (p.outcome.tensions.map fun t => ⟨t.sourceA, t.sourceB, false⟩)
      = p.loggedKeys := by
    refine openKeys_logged fun t ht => ?_
    obtain ⟨a, ha, b, hb, hA, hB⟩ := hcore.loggedDocs t ht
    rw [hA, hB]
    exact ⟨hplain.canon_of_mem ha, hplain.canon_of_mem hb⟩
  rw [← hlogged]
  unfold Progress.ledgerAfter openKeys
  rw [List.filter_append, List.map_append]

/-! ## What every pass leaves upheld -/

/-- The hashes are those of the verdicts, none twice; and every mark was made upon pairs
    that were all examined. -/
structure Upheld (sha256Hex : String → String) (versions : Doc → Prop) (w : World) : Prop where
  judged : ∀ ph, ph ∈ w.state.judgedPairs ↔ ∃ c ∈ w.settled, docsHash sha256Hex c = ph
  once : (w.settled.map (docsHash sha256Hex)).Nodup
  versions : ∀ c ∈ w.settled, versions c.1 ∧ versions c.2
  marks : w.MarksExamined sha256Hex

theorem Upheld.start (ledger : List Tension) :
    Upheld sha256Hex versions (World.start ledger) where
  judged := fun ph => ⟨fun h => (by cases h), fun ⟨_, hc, _⟩ => (by cases hc)⟩
  once := List.nodup_nil
  versions := fun _ hc => by cases hc
  marks := fun _ _ h => by cases h

/-- **Step lemma.** -/
theorem Upheld.scan (h : Upheld sha256Hex versions w) (hhash : NoCollisions sha256Hex versions)
    (hplain : pass.Plain) (hversions : ∀ d ∈ pass.docs, versions d)
    (hsees : pass.SeesNeighbors sha256Hex w.state w.ledger) :
    Upheld sha256Hex versions (w.scan sha256Hex pass) := by
  have hcore := runScan_sound hplain hsees
  set p := runScan sha256Hex pass w.state w.ledger with hp
  have hjudged : ∀ ph, ph ∈ p.judged ↔ ∃ c ∈ w.settled ++ p.settled,
      docsHash sha256Hex c = ph := by
    intro ph
    rw [hcore.judged, h.judged]
    constructor
    · rintro (⟨c, hc, hph⟩ | ⟨c, hc, hph⟩)
      · exact ⟨c, List.mem_append_left _ hc, hph⟩
      · exact ⟨c, List.mem_append_right _ hc, hph⟩
    · rintro ⟨c, hc, hph⟩
      rcases List.mem_append.mp hc with hc | hc
      · exact Or.inl ⟨c, hc, hph⟩
      · exact Or.inr ⟨c, hc, hph⟩
  have hsettled : ∀ c ∈ w.settled ++ p.settled, versions c.1 ∧ versions c.2 := by
    intro c hc
    rcases List.mem_append.mp hc with hc | hc
    · exact h.versions c hc
    · obtain ⟨ha, hb⟩ := hcore.settledDocs c hc
      exact ⟨hversions _ ha, hversions _ hb⟩
  refine ⟨hjudged, ?_, hsettled, ?_⟩
  · show ((w.settled ++ p.settled).map (docsHash sha256Hex)).Nodup
    rw [List.map_append, List.nodup_append]
    refine ⟨h.once, hcore.once, ?_⟩
    intro x hx y hy heq
    obtain ⟨c, hc, rfl⟩ := List.mem_map.mp hx
    obtain ⟨c', hc', rfl⟩ := List.mem_map.mp hy
    exact hcore.anew c' hc' ((h.judged _).mpr ⟨c, hc, heq⟩)
  · intro path hash hfind
    have hscanned : (w.scan sha256Hex pass).state.scanned.find path =
        if path ∈ p.marked then some (pass.hashOf sha256Hex path)
        else if path ∈ p.failedDocs then none else w.state.scanned.find path := by
      show (persisted sha256Hex pass w.state p).scanned.find path = _
      unfold persisted
      rw [find_foldl_mark, find_foldl_erase]
    rw [hscanned] at hfind
    by_cases hmarked : path ∈ p.marked
    · -- a mark of this pass
      rw [if_pos hmarked] at hfind
      obtain ⟨hcompleted, hnotFailed⟩ := List.mem_filter.mp hmarked
      obtain ⟨d, hd, rfl, neighbors, hsearch, hall⟩ := hcore.completed path hcompleted
      have hdocs := (mem_candidates hd).1
      refine ⟨⟨d, pass.docs, neighbors, openKeys (p.ledgerAfter w.ledger),
        w.settled ++ p.settled⟩, ?_, rfl, ?_, ?_⟩
      · refine List.mem_append_right _ (List.mem_filterMap.mpr ⟨d.path, hmarked, ?_⟩)
        rw [hplain.byPath_of_mem hdocs, Option.map_some, hsearch]
        rfl
      · rw [hplain.hashOf_eq sha256Hex hdocs] at hfind
        exact Option.some.inj hfind
      · intro raw hraw other hother hname hne
        show pairKey d.path other.path ∈ openKeys (p.ledgerAfter w.ledger) ∨ _
        rw [openKeys_ledgerAfter hplain hcore, List.mem_append, ← hcore.opens]
        rcases hall raw hraw other hother hname hne with hopen | hverdict | ⟨hfailed, -⟩
        · exact Or.inl hopen
        · obtain ⟨c, hc, hsame⟩ := (hjudged _).mp hverdict
          obtain ⟨h₁, h₂⟩ := hsettled c hc
          rcases hhash c (d, other) h₁ h₂ (hversions d hdocs) (hversions other hother) hsame with
            heq | heq
          · exact Or.inr (Or.inl (heq ▸ hc))
          · refine Or.inr (Or.inr ?_)
            have hswap : (other, d) = c := by
              rw [← Prod.swap_swap c, ← heq]
              rfl
            exact hswap ▸ hc
        · exact absurd hfailed (by simpa using hnotFailed)
    · -- a mark that was there before
      rw [if_neg hmarked] at hfind
      by_cases hfailed : path ∈ p.failedDocs
      · rw [if_pos hfailed] at hfind
        cases hfind
      · rw [if_neg hfailed] at hfind
        obtain ⟨r, hr, hpath, hcontent, hexamined⟩ := h.marks path hash hfind
        exact ⟨r, List.mem_append_left _ hr, hpath, hcontent, hexamined⟩

theorem upheld_of_reach (hhash : NoCollisions sha256Hex versions) {ledger : List Tension}
    (h : ((machine sha256Hex).restrict (Sees sha256Hex versions)).Reach (World.start ledger) w) :
    Upheld sha256Hex versions w := by
  refine Machine.reach_invariant ?_ (Upheld.start ledger) h
  rintro w e hw ⟨-, hcondition⟩
  cases e with
  | pass pass =>
      obtain ⟨hplain, hversions, hsees⟩ := hcondition
      exact hw.scan hhash hplain hversions hsees
  | edit ledger => exact ⟨hw.judged, hw.once, hw.versions, hw.marks⟩

/-- **A scanned mark never hides an unexamined pair, where callers see what retrieval
    returns**: in every run of passes that meet the condition, every mark was made upon a
    pass that judged each pair retrieval returned, on the contents of then, or found it with
    an open tension; no two verdicts are about the same contents; and the next pass logs no
    tension twice and none for a pair with an open one, and stays within its calls. -/
theorem scanned_mark_means_examined (sha256Hex : String → String) (versions : Doc → Prop)
    (hhash : NoCollisions sha256Hex versions) (ledger : List Tension) (w : World)
    (hreach : ((machine sha256Hex).restrict (Sees sha256Hex versions)).Reach
      (World.start ledger) w) :
    w.MarksExamined sha256Hex ∧
    w.settled.Pairwise (fun c c' => ¬ SamePair c c') ∧
    ∀ pass, Sees sha256Hex versions w (.pass pass) →
      let p := runScan sha256Hex pass w.state w.ledger
      p.loggedKeys.Nodup ∧ (∀ key ∈ p.loggedKeys, key ∉ openKeys w.ledger) ∧
        p.calls.length ≤ pass.maxLlmCalls := by
  have hupheld := upheld_of_reach hhash hreach
  refine ⟨hupheld.marks, ?_, ?_⟩
  · refine (List.pairwise_map.mp hupheld.once).imp ?_
    rintro c c' hne (rfl | rfl)
    · exact hne rfl
    · exact hne (pairHash_comm sha256Hex _ _)
  · rintro pass ⟨hplain, -, hsees⟩
    have hcore := runScan_sound hplain hsees
    exact ⟨hcore.loggedOnce, hcore.loggedAnew, hcore.budget⟩

/-- Two documents, of which retrieval returns the second for the first only. -/
def twoDocs : List Doc := [⟨"a.md", "A"⟩, ⟨"b.md", "B"⟩]

def passBy (visible : String → Bool) : Pass where
  loaded := twoDocs
  sourceVisible := visible
  searchNeighbors path _ := some (if path = "a.md" then ["b.md"] else [])
  completeJson _ := some (some [("conflict", .bool false)])
  addTension _ := some none
  relatedLimit := 6
  maxLlmCalls := 10
  maxDocs := 10
  isGitRepo := false
  changedSince _ := none
  headCommit := none
  localeCompare := compare

theorem noCollisions_twoDocs : NoCollisions id fun d => d ∈ twoDocs := by
  have hall : ∀ a ∈ twoDocs, ∀ b ∈ twoDocs, ∀ c ∈ twoDocs, ∀ d ∈ twoDocs,
      docsHash id (a, b) = docsHash id (c, d) → (c, d) = (a, b) ∨ (c, d) = (b, a) := by
    decide +kernel
  rintro ⟨a, b⟩ ⟨c, d⟩ ha hb hc hd hhash
  exact hall a ha b hb c hc d hd hhash

/-- A caller who sees both documents: the pair is judged, once. -/
theorem scanned_mark_after_full_pass :
    ((World.start []).scan id (passBy fun _ => true)).MarksExamined id := by
  have hsees : Sees id (fun d => d ∈ twoDocs) (World.start [])
      (.pass (passBy fun _ => true)) :=
    ⟨⟨by decide +kernel, by decide +kernel, by decide +kernel⟩, by decide +kernel,
      fun _ _ _ _ _ _ _ _ _ _ => Or.inl rfl⟩
  have hreach : ((machine id).restrict (Sees id fun d => d ∈ twoDocs)).Reach
      (World.start []) ((World.start []).scan id (passBy fun _ => true)) :=
    ⟨[.pass (passBy fun _ => true)], .cons ⟨trivial, hsees⟩ (.nil _)⟩
  exact (scanned_mark_means_examined id (fun d => d ∈ twoDocs) noCollisions_twoDocs []
    ((World.start []).scan id (passBy fun _ => true)) hreach).1

/-- The world after a caller who sees the first document only, and one who sees both. -/
def afterBoth : World :=
  ((World.start []).scan id (passBy fun path => path = "a.md")).scan id (passBy fun _ => true)

/-- **A pair that one caller cannot see is examined by none**: the first pass marks `a.md`
    although `b.md`, which retrieval returned, was hidden from its caller; the second, whose
    caller sees both, has only `b.md` left to go through and judges nothing. -/
theorem hidden_pair_never_examined :
    (machine id).Reach (World.start []) afterBoth ∧ afterBoth.settled = [] ∧
      afterBoth.ledger = [] ∧ afterBoth.state.scanned.find "a.md" = some "A" ∧
      afterBoth.state.scanned.find "b.md" = some "B" ∧ ¬ afterBoth.MarksExamined id := by
  refine ⟨?_, by decide +kernel, by decide +kernel, by decide +kernel, by decide +kernel, ?_⟩
  · exact ⟨[.pass (passBy fun path => path = "a.md"), .pass (passBy fun _ => true)],
      .cons trivial (.cons trivial (.nil _))⟩
  · intro hmarks
    obtain ⟨r, hr, hpath, -, hexamined⟩ := hmarks "a.md" "A" (by decide +kernel)
    have hnone : ∀ r ∈ afterBoth.recorded, r.doc.path = "a.md" → ¬ r.Examined := by
      decide +kernel
    exact hnone r hr hpath hexamined

end TensionScan
