import Daftari.Search.CurrentSourceProofs
import Daftari.Tools.ReceiptSafetyProofs

/-! # Suppression — replaced hits go to the tail, behind the heads of their chains

    `search/suppression.ts`: a hit whose chain resolves is demoted to the tail of the list.
    With `pullIn` its head is put into its place, unless it is in the list already.

    * `scan_demoted`, `scan_front`, `scan_new`: what the scan keeps and what it demotes;
    * `suppressed`: **nothing is lost, no path is there twice, and a head is before the hits
      that it replaced**, and a second pass changes nothing. -/

namespace Suppression

open Search (IndexedDocument)
open Rbac (AccessContext)
open Receipt (DecayState)
open Sources

/-! ## Hits -/

inductive EdgeType where
  | derivesFrom
  | tension
deriving DecidableEq

/-- `HybridHit`, with what the passes over the ranked hits read and write. -/
structure HybridHit where
  path : String
  title : String
  collection : String
  status : String
  score : ℚ
  bm25Score : ℚ
  vectorScore : ℚ
  snippet : List Nat
  decay : Option DecayState
  currentSource : Option CurrentSource
  viaCoverage : Bool
  viaEdge : Option (String × EdgeType)
  viaForeground : Bool
  demoted : Bool
deriving DecidableEq

def headOf : CurrentSource → Option String
  | .resolved path _ _ _ => some path
  | .restricted | .dangling _ | .cycle => none

def headAt (db : IndexDb) (access : Option AccessContext) (path : String) : Option String :=
  (resolveCurrentSource db path access).bind headOf

section Pass

variable (db : IndexDb) (access : Option AccessContext)

def foregroundHit (path title : String) (snippet : List Nat) : Option HybridHit :=
  (getDocument db path).map fun doc =>
    { path := path, title := title, collection := doc.collection,
      status := Frontmatter.Choice.text doc.status, score := 0, bm25Score := 0,
      vectorScore := 0, snippet := snippet, decay := none, currentSource := none,
      viaCoverage := false, viaEdge := none, viaForeground := true, demoted := false }

/-- The hit with its chain: what was cached, else what the index has. -/
def inspect (hit : HybridHit) : HybridHit :=
  match hit.currentSource with
  | some _ => hit
  | none => { hit with currentSource := resolveCurrentSource db hit.path access }

/-- The head that takes the slot of a replaced hit. -/
def pulledIn (pullIn : Bool) (present : List String) : Option CurrentSource → Option HybridHit
  | some (.resolved path title snippet _) =>
      if pullIn = true ∧ path ∉ present then foregroundHit db path title snippet else none
  | _ => none

/-- The loop of the pass, with the paths that are present: the hits that are kept, and those that
    are demoted. -/
def scan (pullIn : Bool) : List String → List HybridHit → List HybridHit × List HybridHit
  | _, [] => ([], [])
  | present, hit :: hits =>
      let seen := inspect db access hit
      if (seen.currentSource.bind headOf).isSome then
        let head := (pulledIn db pullIn present seen.currentSource).toList
        let rest := scan pullIn (present ++ head.map HybridHit.path) hits
        (head ++ rest.1, { seen with demoted := true } :: rest.2)
      else
        let rest := scan pullIn present hits
        (seen :: rest.1, rest.2)

/-- `applySupersededSuppression`, with its gate. -/
def applySupersededSuppression (suppressSuperseded : Bool) (hits : List HybridHit)
    (pullIn : Bool) : List HybridHit :=
  if suppressSuperseded = false ∨ hits = [] then hits
  else
    let passed := scan db access pullIn (hits.map HybridHit.path) hits
    passed.1 ++ passed.2

/-! ## Heads -/

/-- Does the index have a head for the hit? -/
def stale (hit : HybridHit) : Bool := (headAt db access hit.path).isSome

/-- A hit as the pass leaves it. -/
def settle (hit : HybridHit) : HybridHit :=
  if stale db access hit then { inspect db access hit with demoted := true }
  else inspect db access hit

/-- What the hit carries of its chain is of the chain that the index has. -/
def Cached (hit : HybridHit) : Prop :=
  ∀ cs, hit.currentSource = some cs → headOf cs = headAt db access hit.path

end Pass

variable {db : IndexDb} {access : Option AccessContext}

/-- A walk that resolves ends at a document that nothing replaced, and one that it went to is
    readable. -/
theorem resolveLoop_resolved {fuel : Nat} {visited : List String} {doc : IndexedDocument}
    {hops n : Nat} {path title : String} {snippet : List Nat} (hdoc : doc ∈ db.docs)
    (h : resolveLoop db access fuel visited doc hops = some (.resolved path title snippet n)) :
    ∃ row ∈ db.docs, row.path = path ∧ row.supersededBy = none ∧
      (doc.supersededBy ≠ none → readable access row = true) := by
  induction fuel generalizing visited doc hops with
  | zero => cases h
  | succ fuel ih =>
      unfold resolveLoop at h
      cases hby : doc.supersededBy with
      | none =>
          simp only [hby] at h
          obtain ⟨rfl, -⟩ := CurrentSource.resolved.inj (Option.some.inj h)
          exact ⟨doc, hdoc, rfl, hby, fun hne => absurd rfl hne⟩
      | some nextPath =>
          simp only [hby] at h
          by_cases hvisited : nextPath ∈ visited
          · rw [if_pos hvisited] at h
            cases h
          · rw [if_neg hvisited] at h
            cases hget : getDocument db nextPath with
            | none =>
                simp only [hget] at h
                cases h
            | some next =>
                simp only [hget] at h
                obtain ⟨hnext, -⟩ := getDocument_eq_some.mp hget
                by_cases hread : readable access next = true
                · rw [if_pos hread] at h
                  obtain ⟨row, hrow, hpath, hlast, hrowRead⟩ := ih hnext h
                  refine ⟨row, hrow, hpath, hlast, fun _ => ?_⟩
                  cases hnextBy : next.supersededBy with
                  | none =>
                      -- the walk ended where it went to
                      cases fuel with
                      | zero => cases h
                      | succ fuel =>
                          unfold resolveLoop at h
                          simp only [hnextBy] at h
                          obtain ⟨rfl, -⟩ := CurrentSource.resolved.inj (Option.some.inj h)
                          have hsame := List.inj_on_of_nodup_map db.distinct hrow hnext hpath
                          rw [hsame]
                          exact hread
                  | some _ => exact hrowRead (by simp [hnextBy])
                · rw [if_neg hread] at h
                  cases h

/-- **A head is readable, and nothing replaced it.** -/
theorem headAt_terminal {path head : String} (h : headAt db access path = some head) :
    ∃ row, getDocument db head = some row ∧ readable access row = true ∧
      row.supersededBy = none := by
  unfold headAt resolveCurrentSource at h
  cases hget : getDocument db path with
  | none => simp [hget] at h
  | some doc =>
      simp only [hget] at h
      by_cases hby : doc.supersededBy = none
      · rw [if_pos hby] at h
        cases h
      · rw [if_neg hby] at h
        obtain ⟨cs, hloop, hhead⟩ := Option.bind_eq_some_iff.mp h
        cases cs with
        | resolved p title snippet n =>
            obtain rfl := Option.some.inj hhead
            obtain ⟨row, hrow, hpath, hlast, hread⟩ :=
              resolveLoop_resolved (getDocument_eq_some.mp hget).1 hloop
            exact ⟨row, getDocument_eq_some.mpr ⟨hrow, hpath⟩, hread hby, hlast⟩
        | restricted => cases hhead
        | dangling _ => cases hhead
        | cycle => cases hhead

theorem headAt_head {path head : String} (h : headAt db access path = some head) :
    resolveCurrentSource db head access = none := by
  obtain ⟨row, hget, -, hlast⟩ := headAt_terminal h
  unfold resolveCurrentSource
  simp only [hget]
  exact if_pos hlast

/-! ## One hit -/

@[simp] theorem inspect_path (hit : HybridHit) : (inspect db access hit).path = hit.path := by
  unfold inspect
  split <;> rfl

@[simp] theorem settle_path (hit : HybridHit) : (settle db access hit).path = hit.path := by
  unfold settle
  split
  · exact inspect_path hit
  · exact inspect_path hit

theorem stale_of_path {a b : HybridHit} (h : a.path = b.path) :
    stale db access a = stale db access b := by
  unfold stale
  rw [h]

theorem inspect_head {hit : HybridHit} (h : Cached db access hit) :
    (inspect db access hit).currentSource.bind headOf = headAt db access hit.path := by
  unfold inspect
  cases hcs : hit.currentSource with
  | none => rfl
  | some cs =>
      rw [hcs]
      exact h cs hcs

theorem inspect_of_some {hit : HybridHit} {cs : CurrentSource} (h : hit.currentSource = some cs) :
    inspect db access hit = hit := by
  unfold inspect
  rw [h]

theorem inspect_of_none {hit : HybridHit} (h : hit.currentSource = none) : inspect db access hit
      = { hit with currentSource := resolveCurrentSource db hit.path access } := by
  unfold inspect
  rw [h]

theorem inspect_inspect (hit : HybridHit) :
    inspect db access (inspect db access hit) = inspect db access hit := by
  cases hcs : hit.currentSource with
  | some cs =>
      rw [inspect_of_some hcs, inspect_of_some hcs]
  | none =>
      rw [inspect_of_none hcs]
      cases hindex : resolveCurrentSource db hit.path access with
      | some cs => exact inspect_of_some rfl
      | none =>
          rw [inspect_of_none rfl]
          rw [hindex]

theorem settle_of_stale {hit : HybridHit} (h : stale db access hit = true) :
    settle db access hit = { inspect db access hit with demoted := true } := if_pos h

theorem settle_of_fresh {hit : HybridHit} (h : stale db access hit = false) :
    settle db access hit = inspect db access hit :=
  if_neg (by rw [h]; exact Bool.false_ne_true)

@[simp] theorem stale_settle (hit : HybridHit) :
    stale db access (settle db access hit) = stale db access hit :=
  stale_of_path (settle_path hit)

theorem cached_settle {hit : HybridHit} (h : Cached db access hit) :
    Cached db access (settle db access hit) := by
  intro cs hcs
  have hseen : (inspect db access hit).currentSource = some cs := by
    cases hs : stale db access hit with
    | true =>
        rw [settle_of_stale hs] at hcs
        exact hcs
    | false =>
        rw [settle_of_fresh hs] at hcs
        exact hcs
  have hhead := inspect_head h
  rw [hseen, Option.bind_some] at hhead
  rw [hhead, settle_path]

theorem settle_settle {hit : HybridHit} (h : Cached db access hit) :
    settle db access (settle db access hit) = settle db access hit := by
  cases hs : stale db access hit with
  | false =>
      rw [settle_of_fresh ((stale_settle hit).trans hs), settle_of_fresh hs, inspect_inspect]
  | true =>
      rw [settle_of_stale ((stale_settle hit).trans hs), settle_of_stale hs]
      -- a replaced hit carries its chain
      have hhead := inspect_head h
      obtain ⟨q, hq⟩ := Option.isSome_iff_exists.mp hs
      rw [hq] at hhead
      obtain ⟨cs, hcs, -⟩ := Option.bind_eq_some_iff.mp hhead
      have hsame : inspect db access { inspect db access hit with demoted := true }
          = { inspect db access hit with demoted := true } := inspect_of_some hcs
      rw [hsame]

/-! ## The heads that are pulled in -/

theorem pulledIn_spec {pullIn : Bool} {present : List String} {cs : Option CurrentSource}
    {head : HybridHit} (h : pulledIn db pullIn present cs = some head) :
    pullIn = true ∧ head.path ∉ present ∧ cs.bind headOf = some head.path ∧
      head.viaForeground = true ∧ head.currentSource = none := by
  unfold pulledIn at h
  split at h
  · rename_i path title snippet hops
    split at h
    · rename_i hcond
      obtain ⟨row, -, rfl⟩ := Option.map_eq_some_iff.mp h
      exact ⟨hcond.1, hcond.2, rfl, rfl, rfl⟩
    · cases h
  · cases h

theorem pulledIn_absent {pullIn : Bool} {present : List String} {cs : Option CurrentSource}
    {q : String} {row : IndexedDocument} (hpull : pullIn = true) (hq : cs.bind headOf = some q)
    (hrow : getDocument db q = some row) (habsent : q ∉ present) :
    ∃ head, pulledIn db pullIn present cs = some head ∧ head.path = q := by
  obtain ⟨c, rfl, hhead⟩ := Option.bind_eq_some_iff.mp hq
  cases c with
  | resolved path title snippet hops =>
      obtain rfl := Option.some.inj hhead
      unfold pulledIn foregroundHit
      dsimp only
      rw [if_pos ⟨hpull, habsent⟩, hrow]
      exact ⟨_, rfl, rfl⟩
  | restricted => cases hhead
  | dangling _ => cases hhead
  | cycle => cases hhead

/-- A head that is pulled in is a hit of its own kind: nothing replaced it, and the pass leaves it
    as it is. -/
theorem pulledIn_settled {head : HybridHit} {path : String}
    (hhead : headAt db access path = some head.path) (hcs : head.currentSource = none) :
    Cached db access head ∧ stale db access head = false ∧ settle db access head = head := by
  have hnone := headAt_head hhead
  have hfresh : stale db access head = false := by
    unfold stale headAt
    rw [hnone]
    rfl
  refine ⟨?_, hfresh, ?_⟩
  · intro cs hsome
    rw [hcs] at hsome
    cases hsome
  · rw [settle_of_fresh hfresh, inspect_of_none hcs, hnone]
    cases head
    simp only at hcs
    rw [hcs]

/-! ## The scan -/

variable {pullIn : Bool}

theorem scan_cons_stale {hit : HybridHit} (hits : List HybridHit) (present : List String)
    (hcached : Cached db access hit) (hstale : stale db access hit = true) {head : List HybridHit}
    (hhead : (pulledIn db pullIn present (inspect db access hit).currentSource).toList = head) :
    scan db access pullIn present (hit :: hits)
      = (head ++ (scan db access pullIn (present ++ head.map HybridHit.path) hits).1,
        settle db access hit :: (scan db access pullIn (present ++ head.map HybridHit.path)
          hits).2) := by
  subst hhead
  have hif : ((inspect db access hit).currentSource.bind headOf).isSome = true := by
    rw [inspect_head hcached]
    exact hstale
  rw [settle_of_stale hstale]
  exact if_pos hif

theorem scan_cons_fresh {hit : HybridHit} (hits : List HybridHit) (present : List String)
    (hcached : Cached db access hit) (hfresh : stale db access hit = false) :
    scan db access pullIn present (hit :: hits)
      = (settle db access hit :: (scan db access pullIn present hits).1,
        (scan db access pullIn present hits).2) := by
  have hif : ¬ ((inspect db access hit).currentSource.bind headOf).isSome = true := by
    rw [inspect_head hcached]
    unfold stale at hfresh
    rw [hfresh]
    exact Bool.false_ne_true
  rw [settle_of_fresh hfresh]
  exact if_neg hif

theorem scan_demoted {hits : List HybridHit} (present : List String)
    (hcached : ∀ hit ∈ hits, Cached db access hit) : (scan db access pullIn present hits).2
      = (hits.filter (stale db access)).map (settle db access) := by
  induction hits generalizing present with
  | nil => rfl
  | cons hit hits ih =>
      have hhit := hcached hit List.mem_cons_self
      have hrest := fun h hh => hcached h (List.mem_cons_of_mem _ hh)
      cases hs : stale db access hit with
      | true =>
          rw [scan_cons_stale hits present hhit hs rfl, List.filter_cons_of_pos hs, List.map_cons]
          exact congrArg _ (ih _ hrest)
      | false =>
          rw [scan_cons_fresh hits present hhit hs,
            List.filter_cons_of_neg (by rw [hs]; exact Bool.false_ne_true)]
          exact ih _ hrest

/-- What the scan keeps, with the paths that were given and those that are present: the given hits
    that nothing replaced, in their order, and heads that were not there. -/
structure Front (db : IndexDb) (access : Option AccessContext) (pullIn : Bool)
    (given present : List String) (hits front : List HybridHit) : Prop where
  old : front.filter (fun h => h.path ∈ given)
    = (hits.filter fun h => !stale db access h).map (settle db access)
  new : ∀ h ∈ front, h.path ∉ given → h.path ∉ present ∧ pullIn = true ∧
    h.viaForeground = true ∧ h.currentSource = none ∧
      ∃ hit ∈ hits, headAt db access hit.path = some h.path
  distinct : (front.map HybridHit.path).Nodup
  above : pullIn = true → ∀ hit ∈ hits, ∀ q, headAt db access hit.path = some q →
    q ∈ present ∨ q ∈ front.map HybridHit.path

theorem Front.mem_old {given present : List String} {hits front : List HybridHit}
    (h : Front db access pullIn given present hits front) {x : HybridHit} (hx : x ∈ front)
    (hpath : x.path ∈ given) :
    ∃ hit ∈ hits, stale db access hit = false ∧ settle db access hit = x := by
  have hmem : x ∈ front.filter fun h => h.path ∈ given :=
    List.mem_filter.mpr ⟨hx, decide_eq_true hpath⟩
  rw [h.old] at hmem
  obtain ⟨hit, hhit, rfl⟩ := List.mem_map.mp hmem
  obtain ⟨hin, hfresh⟩ := List.mem_filter.mp hhit
  exact ⟨hit, hin, by simpa using hfresh, rfl⟩

theorem Front.fresh {given present : List String} {hits front : List HybridHit} {hit : HybridHit}
    (h : Front db access pullIn given present hits front)
    (hgiven : hit.path ∈ given) (hnew : hit.path ∉ hits.map HybridHit.path)
    (hfresh : stale db access hit = false) :
    Front db access pullIn given present (hit :: hits) (settle db access hit :: front) where
  old := by
    rw [List.filter_cons_of_pos (by rw [settle_path]; exact decide_eq_true hgiven), h.old,
      List.filter_cons_of_pos (by rw [hfresh]; rfl), List.map_cons]
  new := by
    intro x hx hpath
    rcases List.mem_cons.mp hx with rfl | hx
    · rw [settle_path] at hpath
      exact absurd hgiven hpath
    · obtain ⟨habsent, hpull, hvia, hcs, y, hy, hhead⟩ := h.new x hx hpath
      exact ⟨habsent, hpull, hvia, hcs, y, List.mem_cons_of_mem _ hy, hhead⟩
  distinct := by
    rw [List.map_cons, settle_path]
    refine List.nodup_cons.mpr ⟨?_, h.distinct⟩
    intro hin
    obtain ⟨x, hx, hpath⟩ := List.mem_map.mp hin
    obtain ⟨y, hy, -, rfl⟩ := h.mem_old hx (hpath ▸ hgiven)
    rw [settle_path] at hpath
    exact hnew (List.mem_map.mpr ⟨y, hy, hpath⟩)
  above := by
    intro hpull x hx q hq
    rcases List.mem_cons.mp hx with rfl | hx
    · unfold stale at hfresh
      rw [hq] at hfresh
      cases hfresh
    · rw [List.map_cons]
      exact (h.above hpull x hx q hq).imp_right (List.mem_cons_of_mem _)

theorem Front.passed {given present : List String} {hits front : List HybridHit} {hit : HybridHit}
    (h : Front db access pullIn given present hits front) (hstale : stale db access hit = true)
    (hthere : pullIn = true → ∀ q, headAt db access hit.path = some q → q ∈ present) :
    Front db access pullIn given present (hit :: hits) front where
  old := by
    rw [List.filter_cons_of_neg (by rw [hstale]; exact Bool.false_ne_true)]
    exact h.old
  new := by
    intro x hx hpath
    obtain ⟨habsent, hpull, hvia, hcs, y, hy, hhead⟩ := h.new x hx hpath
    exact ⟨habsent, hpull, hvia, hcs, y, List.mem_cons_of_mem _ hy, hhead⟩
  distinct := h.distinct
  above := by
    intro hpull x hx q hq
    rcases List.mem_cons.mp hx with rfl | hx
    · exact Or.inl (hthere hpull q hq)
    · exact h.above hpull x hx q hq

theorem Front.pulled {given present : List String} {hits front : List HybridHit}
    {hit head : HybridHit}
    (h : Front db access pullIn given (present ++ [head.path]) hits front)
    (hstale : stale db access hit = true) (hpresent : given ⊆ present)
    (habsent : head.path ∉ present) (hpull : pullIn = true) (hvia : head.viaForeground = true)
    (hcs : head.currentSource = none) (hhead : headAt db access hit.path = some head.path) :
    Front db access pullIn given present (hit :: hits) (head :: front) where
  old := by
    have hout : head.path ∉ given := fun hin => habsent (hpresent hin)
    rw [List.filter_cons_of_neg (by simpa using hout), h.old,
      List.filter_cons_of_neg (by rw [hstale]; exact Bool.false_ne_true)]
  new := by
    intro x hx hpath
    rcases List.mem_cons.mp hx with rfl | hx
    · exact ⟨habsent, hpull, hvia, hcs, hit, List.mem_cons_self, hhead⟩
    · obtain ⟨hxabsent, -, hxvia, hxcs, y, hy, hyhead⟩ := h.new x hx hpath
      exact ⟨fun hin => hxabsent (List.mem_append_left _ hin), hpull, hxvia, hxcs, y,
        List.mem_cons_of_mem _ hy, hyhead⟩
  distinct := by
    refine List.nodup_cons.mpr ⟨?_, h.distinct⟩
    intro hin
    obtain ⟨x, hx, hpath⟩ := List.mem_map.mp hin
    have hout : x.path ∉ given := fun hgiven => habsent (hpresent (hpath ▸ hgiven))
    obtain ⟨hxabsent, -⟩ := h.new x hx hout
    exact hxabsent (List.mem_append_right _ (List.mem_singleton.mpr hpath))
  above := by
    intro _ x hx q hq
    rcases List.mem_cons.mp hx with rfl | hx
    · rw [hhead] at hq
      obtain rfl := Option.some.inj hq
      exact Or.inr List.mem_cons_self
    · rcases h.above hpull x hx q hq with hin | hin
      · rcases List.mem_append.mp hin with hin | hin
        · exact Or.inl hin
        · obtain rfl := List.mem_singleton.mp hin
          exact Or.inr List.mem_cons_self
      · exact Or.inr (List.mem_cons_of_mem _ hin)

/-- **What the scan keeps.** -/
theorem scan_front {given hits : List HybridHit} (present : List String)
    (hcached : ∀ hit ∈ hits, Cached db access hit)
    (hdistinct : (hits.map HybridHit.path).Nodup) (hgiven : hits ⊆ given)
    (hpresent : given.map HybridHit.path ⊆ present) :
    Front db access pullIn (given.map HybridHit.path) present hits
      (scan db access pullIn present hits).1 := by
  induction hits generalizing present with
  | nil =>
      refine ⟨rfl, ?_, List.nodup_nil, ?_⟩
      · intro _ hx
        cases hx
      · intro _ _ hx
        cases hx
  | cons hit hits ih =>
      have hhit := hcached hit List.mem_cons_self
      have hrest := fun h hh => hcached h (List.mem_cons_of_mem _ hh)
      obtain ⟨hin, hsub⟩ := List.cons_subset.mp hgiven
      obtain ⟨hnew, hnodup⟩ := List.nodup_cons.mp hdistinct
      have hpath : hit.path ∈ given.map HybridHit.path := List.mem_map_of_mem hin
      cases hs : stale db access hit with
      | false =>
          rw [scan_cons_fresh hits present hhit hs]
          exact (ih present hrest hnodup hsub hpresent).fresh hpath hnew hs
      | true =>
          have hseen := inspect_head hhit
          cases hpulled : pulledIn db pullIn present (inspect db access hit).currentSource with
          | some head =>
              obtain ⟨hpull, habsent, hhead, hvia, hcs⟩ := pulledIn_spec hpulled
              rw [scan_cons_stale hits present hhit hs (congrArg Option.toList hpulled)]
              have hfront := ih (present ++ [head.path]) hrest hnodup hsub
                fun p hp => List.mem_append_left _ (hpresent hp)
              exact hfront.pulled hs hpresent habsent hpull hvia hcs (hseen.symm.trans hhead)
          | none =>
              rw [scan_cons_stale hits present hhit hs (congrArg Option.toList hpulled)]
              have hfront := ih present hrest hnodup hsub hpresent
              rw [Option.toList_none, List.map_nil, List.append_nil, List.nil_append]
              refine hfront.passed hs fun hpull q hq => ?_
              by_contra habsent
              obtain ⟨row, hrow, -⟩ := headAt_terminal hq
              obtain ⟨head, hsome, -⟩ := pulledIn_absent hpull (hseen.trans hq) hrow habsent
              rw [hpulled] at hsome
              cases hsome

/-! ## A second pass -/

/-- A hit as the pass leaves one. -/
def Settled (db : IndexDb) (access : Option AccessContext) (hit : HybridHit) : Prop :=
  Cached db access hit ∧ settle db access hit = hit

theorem scan_append {front : List HybridHit} (rest : List HybridHit) (present : List String)
    (hsettled : ∀ h ∈ front, Settled db access h)
    (hfresh : ∀ h ∈ front, stale db access h = false) :
    scan db access pullIn present (front ++ rest)
      = (front ++ (scan db access pullIn present rest).1,
          (scan db access pullIn present rest).2) := by
  induction front with
  | nil => rfl
  | cons hit front ih =>
      obtain ⟨hcached, hsame⟩ := hsettled hit List.mem_cons_self
      rw [List.cons_append, scan_cons_fresh _ present hcached (hfresh hit List.mem_cons_self),
        ih (fun h hh => hsettled h (List.mem_cons_of_mem _ hh))
          (fun h hh => hfresh h (List.mem_cons_of_mem _ hh)), hsame]
      rfl

theorem scan_again {back : List HybridHit} (present : List String)
    (hsettled : ∀ h ∈ back, Settled db access h) (hstale : ∀ h ∈ back, stale db access h = true)
    (hthere : pullIn = true → ∀ h ∈ back, ∀ q, headAt db access h.path = some q → q ∈ present) :
    scan db access pullIn present back = ([], back) := by
  induction back with
  | nil => rfl
  | cons hit back ih =>
      obtain ⟨hcached, hsame⟩ := hsettled hit List.mem_cons_self
      have hnone : pulledIn db pullIn present (inspect db access hit).currentSource = none := by
        refine Option.eq_none_iff_forall_ne_some.mpr fun head hsome => ?_
        obtain ⟨hpull, habsent, hhead, -⟩ := pulledIn_spec hsome
        rw [inspect_head hcached] at hhead
        exact habsent (hthere hpull hit List.mem_cons_self _ hhead)
      rw [scan_cons_stale back present hcached (hstale hit List.mem_cons_self)
        (congrArg Option.toList hnone)]
      rw [Option.toList_none, List.map_nil, List.append_nil, List.nil_append, hsame,
        ih (fun h hh => hsettled h (List.mem_cons_of_mem _ hh))
          (fun h hh => hstale h (List.mem_cons_of_mem _ hh))
          (fun hpull h hh => hthere hpull h (List.mem_cons_of_mem _ hh))]

/-! ## The pass -/

/-- What the pass makes of the hits, with its gate on. -/
structure Suppressed (db : IndexDb) (access : Option AccessContext) (pullIn : Bool)
    (hits out : List HybridHit) : Prop where
  /-- No path is there twice. -/
  distinct : (out.map HybridHit.path).Nodup
  /-- Every hit is there once. -/
  once : (out.filter fun h => h.path ∈ hits.map HybridHit.path).Perm
    (hits.map (settle db access))
  /-- What else is there are heads of hits, pulled in. -/
  heads : ∀ h ∈ out, h.path ∉ hits.map HybridHit.path →
    pullIn = true ∧ h.viaForeground = true ∧ ∃ hit ∈ hits, headAt db access hit.path = some h.path
  /-- What was replaced is behind what was not. -/
  behind : out.Pairwise fun a b => stale db access a = true → stale db access b = true
  /-- A head is before the hits that it replaced, and it is readable. -/
  above : pullIn = true → ∀ front hit back, out = front ++ hit :: back →
    ∀ q, headAt db access hit.path = some q → q ∈ front.map HybridHit.path ∧
      ∃ row, getDocument db q = some row ∧ readable access row = true ∧ row.supersededBy = none
  /-- The hits that nothing replaced stay in their order. -/
  keptOrder : (out.filter fun h => h.path ∈ hits.map HybridHit.path && !stale db access h)
    = (hits.filter fun h => !stale db access h).map (settle db access)
  /-- So do those that something replaced. -/
  demotedOrder : out.filter (stale db access)
    = (hits.filter (stale db access)).map (settle db access)
  /-- A second pass changes nothing. -/
  again : applySupersededSuppression db access true out pullIn = out

theorem applySupersededSuppression_eq (hits : List HybridHit) :
    applySupersededSuppression db access true hits pullIn
      = (scan db access pullIn (hits.map HybridHit.path) hits).1 ++
        (scan db access pullIn (hits.map HybridHit.path) hits).2 := by
  cases hits with
  | nil => rfl
  | cons hit hits => exact if_neg (by simp)

section Result

variable {hits front : List HybridHit}
  (hfront : Front db access pullIn (hits.map HybridHit.path) (hits.map HybridHit.path) hits front)
  (hcached : ∀ hit ∈ hits, Cached db access hit)

include hfront

include hcached in
theorem front_settled {x : HybridHit} (hx : x ∈ front) :
    Settled db access x ∧ stale db access x = false := by
  by_cases hpath : x.path ∈ hits.map HybridHit.path
  · obtain ⟨hit, hhit, hfresh, rfl⟩ := hfront.mem_old hx hpath
    exact ⟨⟨cached_settle (hcached hit hhit), settle_settle (hcached hit hhit)⟩,
      (stale_settle hit).trans hfresh⟩
  · obtain ⟨-, -, -, hcs, hit, -, hhead⟩ := hfront.new x hx hpath
    obtain ⟨hxcached, hfresh, hsame⟩ := pulledIn_settled hhead hcs
    exact ⟨⟨hxcached, hsame⟩, hfresh⟩

theorem head_mem_front (hpull : pullIn = true) {hit : HybridHit} (hhit : hit ∈ hits) {q : String}
    (hq : headAt db access hit.path = some q) : q ∈ front.map HybridHit.path := by
  rcases hfront.above hpull hit hhit q hq with hin | hin
  · obtain ⟨y, hy, rfl⟩ := List.mem_map.mp hin
    have hfresh : stale db access y = false := by
      unfold stale headAt
      rw [headAt_head hq]
      rfl
    have hmem : settle db access y ∈ (hits.filter fun h => !stale db access h).map
        (settle db access) :=
      List.mem_map_of_mem (List.mem_filter.mpr ⟨hy, by rw [hfresh]; rfl⟩)
    rw [← hfront.old] at hmem
    exact List.mem_map.mpr ⟨_, (List.mem_filter.mp hmem).1, settle_path y⟩
  · exact hin

end Result

section Demoted

variable {hits : List HybridHit} {x : HybridHit}

theorem mem_demoted (hx : x ∈ (hits.filter (stale db access)).map (settle db access)) :
    ∃ hit ∈ hits, stale db access hit = true ∧ settle db access hit = x := by
  obtain ⟨hit, hhit, rfl⟩ := List.mem_map.mp hx
  obtain ⟨hin, hstale⟩ := List.mem_filter.mp hhit
  exact ⟨hit, hin, hstale, rfl⟩

theorem stale_demoted (hx : x ∈ (hits.filter (stale db access)).map (settle db access)) :
    stale db access x = true := by
  obtain ⟨hit, -, hstale, rfl⟩ := mem_demoted hx
  exact (stale_settle hit).trans hstale

theorem path_demoted (hx : x ∈ (hits.filter (stale db access)).map (settle db access)) :
    x.path ∈ hits.map HybridHit.path := by
  obtain ⟨hit, hhit, -, rfl⟩ := mem_demoted hx
  exact List.mem_map.mpr ⟨hit, hhit, (settle_path hit).symm⟩

end Demoted

/-- **SUPPRESSION DEMOTES WITHOUT LOSING**: for every index, every role and every list of hits
    with distinct paths, whose cached chains are of the chains that the index has. -/
theorem suppressed (db : IndexDb) (access : Option AccessContext) (pullIn : Bool)
    {hits : List HybridHit} (hdistinct : (hits.map HybridHit.path).Nodup)
    (hcached : ∀ hit ∈ hits, Cached db access hit) :
    Suppressed db access pullIn hits
      (applySupersededSuppression db access true hits pullIn) := by
  have hfront : Front db access pullIn (hits.map HybridHit.path) (hits.map HybridHit.path) hits
      (scan db access pullIn (hits.map HybridHit.path) hits).1 :=
    scan_front _ hcached hdistinct (List.Subset.refl _) (List.Subset.refl _)
  have hout := @applySupersededSuppression_eq db access pullIn hits
  rw [scan_demoted _ hcached] at hout
  generalize (scan db access pullIn (hits.map HybridHit.path) hits).1 = front at hfront hout
  rw [hout]
  have hfresh : ∀ x ∈ front, stale db access x = false :=
    fun x hx => (front_settled hfront hcached hx).2
  -- the two halves under the filters
  have hgivenBack : ((hits.filter (stale db access)).map (settle db access)).filter
      (fun h => h.path ∈ hits.map HybridHit.path)
      = (hits.filter (stale db access)).map (settle db access) :=
    List.filter_eq_self.mpr fun x hx => decide_eq_true (path_demoted hx)
  have hfreshBack : ((hits.filter (stale db access)).map (settle db access)).filter
      (fun h => h.path ∈ hits.map HybridHit.path && !stale db access h) = [] :=
    List.filter_eq_nil_iff.mpr fun x hx => by simp [stale_demoted hx]
  have hfreshFront : front.filter (fun h => h.path ∈ hits.map HybridHit.path &&
      !stale db access h) = front.filter fun h => h.path ∈ hits.map HybridHit.path :=
    List.filter_congr fun x hx => by rw [hfresh x hx, Bool.not_false, Bool.and_true]
  refine ⟨?_, ?_, ?_, ?_, ?_, ?_, ?_, ?_⟩
  · rw [List.map_append, List.nodup_append]
    refine ⟨hfront.distinct, ?_, ?_⟩
    · have hpaths : ((hits.filter (stale db access)).map (settle db access)).map HybridHit.path
          = (hits.filter (stale db access)).map HybridHit.path := by
        rw [List.map_map]
        exact List.map_congr_left fun x _ => settle_path x
      rw [hpaths]
      exact hdistinct.sublist (List.filter_sublist.map _)
    · rintro p hp q hq rfl
      obtain ⟨x, hx, rfl⟩ := List.mem_map.mp hp
      obtain ⟨y, hy, hpath⟩ := List.mem_map.mp hq
      have hsame := @stale_of_path db access _ _ hpath
      rw [stale_demoted hy, hfresh x hx] at hsame
      cases hsame
  · rw [List.filter_append, hfront.old, hgivenBack, ← List.map_append]
    refine List.Perm.map _ (List.perm_append_comm.trans ?_)
    exact List.filter_append_perm _ _
  · intro x hx hpath
    rcases List.mem_append.mp hx with hx | hx
    · obtain ⟨-, hpull, hvia, -, hhead⟩ := hfront.new x hx hpath
      exact ⟨hpull, hvia, hhead⟩
    · exact absurd (path_demoted hx) hpath
  · refine List.pairwise_append.mpr ⟨?_, ?_, fun _ _ y hy _ => stale_demoted hy⟩
    · refine List.pairwise_of_forall_mem_list fun x hx _ _ hstale => ?_
      rw [hfresh x hx] at hstale
      cases hstale
    · exact List.pairwise_of_forall_mem_list fun _ _ y hy _ => stale_demoted hy
  · intro hpull l hit r hsplit q hq
    have hstale : stale db access hit = true := Option.isSome_iff_exists.mpr ⟨q, hq⟩
    have hnot : hit ∉ front := by
      intro hin
      rw [hfresh hit hin] at hstale
      cases hstale
    have hmem : hit ∈ (hits.filter (stale db access)).map (settle db access) := by
      have hin : hit ∈ l ++ hit :: r := List.mem_append_right _ List.mem_cons_self
      rw [← hsplit] at hin
      exact (List.mem_append.mp hin).resolve_left hnot
    have hsub : front ⊆ l := by
      rcases List.append_eq_append_iff.mp hsplit with ⟨rest, hl, -⟩ | ⟨rest, hl, hrest⟩
      · rw [hl]
        exact List.subset_append_left _ _
      · cases rest with
        | nil =>
            rw [hl, List.append_nil]
            exact List.Subset.refl _
        | cons y rest =>
            obtain ⟨rfl, -⟩ := List.cons.inj hrest
            rw [hl] at hnot
            exact absurd (List.mem_append_right _ List.mem_cons_self) hnot
    obtain ⟨given, hgiven, -, rfl⟩ := mem_demoted hmem
    rw [settle_path] at hq
    exact ⟨List.map_subset _ hsub (head_mem_front hfront hpull hgiven hq), headAt_terminal hq⟩
  · rw [List.filter_append, hfreshBack, List.append_nil, hfreshFront, hfront.old]
  · have hnone : front.filter (stale db access) = [] :=
      List.filter_eq_nil_iff.mpr fun x hx => by simp [hfresh x hx]
    have hall : ((hits.filter (stale db access)).map (settle db access)).filter (stale db access)
        = (hits.filter (stale db access)).map (settle db access) :=
      List.filter_eq_self.mpr fun x hx => stale_demoted hx
    rw [List.filter_append, hnone, hall, List.nil_append]
  · rw [applySupersededSuppression_eq, scan_append _ _
      (fun x hx => (front_settled hfront hcached hx).1) hfresh, scan_again]
    · rw [List.append_nil]
    · intro x hx
      obtain ⟨hit, hhit, -, rfl⟩ := mem_demoted hx
      exact ⟨cached_settle (hcached hit hhit), settle_settle (hcached hit hhit)⟩
    · exact fun x hx => stale_demoted hx
    · intro hpull x hx q hq
      obtain ⟨hit, hhit, -, rfl⟩ := mem_demoted hx
      rw [settle_path] at hq
      rw [List.map_append]
      exact List.mem_append_left _ (head_mem_front hfront hpull hhit hq)

/-! ## A sample -/

def rankedHit (path : String) : HybridHit where
  path := path
  title := path
  collection := "notes"
  status := "canonical"
  score := 1
  bm25Score := 1
  vectorScore := 0
  snippet := []
  decay := none
  currentSource := none
  viaCoverage := false
  viaEdge := none
  viaForeground := false
  demoted := false

theorem suppressed_plain : Suppressed plainIndex none true [rankedHit "a.md"]
    (applySupersededSuppression plainIndex none true [rankedHit "a.md"] true) := by
  refine suppressed plainIndex none true (List.nodup_singleton _) fun hit hhit cs hcs => ?_
  obtain rfl := List.mem_singleton.mp hhit
  cases hcs

/-- The head takes the slot of the hit that it replaced. -/
example : (applySupersededSuppression plainIndex none true
    [rankedHit "a.md", rankedHit "c.md"] true).map HybridHit.path
      = ["b.md", "c.md", "a.md"] := by
  decide +kernel

end Suppression
