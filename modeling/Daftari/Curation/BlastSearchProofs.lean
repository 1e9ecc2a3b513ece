import Daftari.Curation.BlastProofs

/-! # The blast search, over any reverse maps

    The blast of some seeds is found by a loop over two maps of dependents: it keeps the documents
    visited, their distances and the next frontier, and a second pass over the visited documents
    labels the entries.

    * `search_eq`: **a run of the loop writes down the layers of the walk**;
    * `computeBlastFrom_closure`: **the loop ends, on any maps, with the shortest-path closure of
      the seeds**, and more edges or seeds take nothing out of it. -/

namespace Blast

/-! ## The loop -/

/-- A reverse map: the documents that depend on each target. -/
abbrev ReverseMap := List (String × List String)

/-- `map.get(node) ?? []`. -/
def dependents (m : ReverseMap) (node : String) : List String := (m.lookup node).getD []

structure ComputeBlastArgs where
  seeds : List String
  reverseSource : ReverseMap
  reverseLink : ReverseMap

/-- What the loop carries: `visited`, `distance` and the frontier it gathers. -/
structure Search where
  visited : List String
  distance : List (String × Nat)
  next : List String

def visit (depth : Nat) (st : Search) (succ : String) : Search :=
  if succ ∈ st.visited then st
  else ⟨st.visited ++ [succ], Assoc.set st.distance succ (depth + 1), st.next ++ [succ]⟩

section Loop

variable (source link : String → List String)

/-- The successors of a node; the second time one comes up it has been visited. -/
def successorsOf (node : String) : List String := source node ++ link node

def expand (depth : Nat) (frontier : List String) (st : Search) : Search :=
  frontier.foldl (fun st node => (successorsOf source link node).foldl (visit depth) st)
    { st with next := [] }

/-- `while (frontier.size > 0)`; no result when the fuel is used up before. -/
def search : Nat → Nat → List String → Search → Option Search
  | 0, _, frontier, st => if frontier = [] then some st else none
  | fuel + 1, depth, frontier, st =>
      if frontier = [] then some st
      else
        let st' := expand source link depth frontier st
        search fuel (depth + 1) st'.next st'

/-- Every document with a source edge from a visited one, seeds left out. -/
def primaryDownstream (seeds visited : List String) : List String :=
  (visited.flatMap source).filter (· ∉ seeds)

/-- The entry of a document at a distance. -/
def entryOf (primary : List String) (e : String × Nat) : BlastDownstreamEntry :=
  ⟨e.1, if e.1 ∈ primary then .source else .link, e.2⟩

/-- The output, from what the loop has found. -/
def report (seeds : List String) (st : Search) : ComputeBlastOutput :=
  let sorted := Stable.sort compareEntries
    (st.distance.map (entryOf (primaryDownstream source seeds st.visited)))
  { downstream := sorted
    primaryBlast := (sorted.filter fun e => e.dependencyType = .source).length
    advisoryBlast := (sorted.filter fun e => e.dependencyType ≠ .source).length
    maxDepth := (sorted.map BlastDownstreamEntry.distance).foldl max 0 }

def blastFrom (fuel : Nat) (seeds : List String) : Option ComputeBlastOutput :=
  (search source link fuel 0 seeds ⟨seeds, [], []⟩).map (report source seeds)

end Loop

/-- `computeBlast`. -/
def computeBlastFrom (args : ComputeBlastArgs) (fuel : Nat) : Option ComputeBlastOutput :=
  blastFrom (dependents args.reverseSource) (dependents args.reverseLink) fuel args.seeds

/-! ## A run of the loop -/

section Runs

variable {source link : String → List String} {depth : Nat} {st : Search}

def timed : Nat → List (List String) → List (String × Nat)
  | _, [] => []
  | depth, layer :: layers => layer.map (·, depth + 1) ++ timed (depth + 1) layers

theorem mem_timed {layers : List (List String)} {path : String} {n : Nat} :
    (path, n) ∈ timed depth layers ↔ ∃ i, n = depth + 1 + i ∧ path ∈ (layers[i]?).getD [] := by
  induction layers generalizing depth with
  | nil => simp [timed]
  | cons layer layers ih =>
      rw [timed, List.mem_append, ih, List.mem_map]
      constructor
      · rintro (⟨x, hx, he⟩ | ⟨i, hi, hpath⟩)
        · obtain ⟨rfl, rfl⟩ := Prod.mk.inj he
          exact ⟨0, rfl, hx⟩
        · exact ⟨i + 1, by omega, hpath⟩
      · rintro ⟨i, hi, hpath⟩
        cases i with
        | zero => exact Or.inl ⟨path, hpath, by rw [hi]⟩
        | succ i => exact Or.inr ⟨i, by omega, hpath⟩

theorem map_fst_timed (depth : Nat) (layers : List (List String)) :
    (timed depth layers).map Prod.fst = layers.flatten := by
  induction layers generalizing depth with
  | nil => rfl
  | cons layer layers ih =>
      rw [timed, List.map_append, ih, List.map_map, List.flatten_cons]
      congr 1
      exact List.map_id _

theorem foldl_visit (hkeys : ∀ k ∈ Assoc.keys st.distance, k ∈ st.visited) (xs : List String) :
    xs.foldl (visit depth) st = ⟨st.visited ++ Layered.fresh st.visited xs,
          st.distance ++ (Layered.fresh st.visited xs).map (·, depth + 1),
          st.next ++ Layered.fresh st.visited xs⟩ := by
  induction xs generalizing st with
  | nil => simp [Layered.fresh]
  | cons x xs ih =>
      rw [List.foldl_cons, Layered.fresh]
      by_cases hx : x ∈ st.visited
      · rw [if_pos hx, ← ih hkeys]
        unfold visit
        rw [if_pos hx]
      · have hnew : x ∉ Assoc.keys st.distance := fun hmem => hx (hkeys x hmem)
        have hstep : visit depth st x = ⟨st.visited ++ [x], st.distance ++ [(x, depth + 1)],
            st.next ++ [x]⟩ := by
          unfold visit
          rw [if_neg hx, Assoc.set_of_not_mem _ hnew]
        have hfresh : Layered.fresh (st.visited ++ [x]) xs = Layered.fresh (x :: st.visited) xs :=
          Layered.fresh_congr fun y => by
            rw [List.mem_append, List.mem_singleton, List.mem_cons, or_comm]
        rw [if_neg hx, hstep, ih, hfresh]
        · simp
        · intro k hk
          rw [Assoc.keys, List.map_append, List.mem_append] at hk
          rcases hk with hk | hk
          · exact List.mem_append_left _ (hkeys k hk)
          · exact List.mem_append_right _ hk

/-- **One round visits the next layer.** -/
theorem expand_eq (hkeys : ∀ k ∈ Assoc.keys st.distance, k ∈ st.visited) (frontier : List String) :
    expand source link depth frontier st
      = ⟨st.visited ++ Layered.fresh st.visited (frontier.flatMap (successorsOf source link)),
          st.distance ++ (Layered.fresh st.visited
            (frontier.flatMap (successorsOf source link))).map (·, depth + 1),
          Layered.fresh st.visited (frontier.flatMap (successorsOf source link))⟩ := by
  unfold expand
  rw [← List.foldl_flatMap]
  exact (foldl_visit (by exact hkeys) _).trans rfl

/-- **A run of the loop writes down the layers**, with fuel for one more than the nodes that
    are left. -/
theorem search_eq {nodes : List String}
    (hnodes : ∀ a, ∀ b ∈ successorsOf source link a, b ∈ nodes) {fuel : Nat}
    {frontier : List String} (hfuel : (nodes.filter (· ∉ st.visited)).length < fuel)
    (hkeys : ∀ k ∈ Assoc.keys st.distance, k ∈ st.visited) :
    ∃ rest, search source link fuel depth frontier st = some ⟨st.visited
            ++ (Layered.layers (successorsOf source link) fuel st.visited frontier).flatten,
          st.distance
            ++ timed depth (Layered.layers (successorsOf source link) fuel st.visited frontier),
          rest⟩ := by
  induction fuel generalizing depth frontier st with
  | zero => exact absurd hfuel (Nat.not_lt_zero _)
  | succ fuel ih =>
      rw [search, Layered.layers]
      by_cases hfront : frontier = []
      · subst hfront
        refine ⟨st.next, ?_⟩
        simp [Layered.fresh, timed]
      · rw [if_neg hfront]
        have hround : expand source link depth frontier st = _ := expand_eq hkeys frontier
        by_cases hnew : Layered.fresh st.visited
            (frontier.flatMap (successorsOf source link)) = []
        · refine ⟨[], ?_⟩
          rw [if_pos hnew, hround, hnew]
          cases fuel with
          | zero => simp [search, timed]
          | succ fuel => simp [search, timed]
        · obtain ⟨y, hy⟩ := List.exists_mem_of_ne_nil _ hnew
          obtain ⟨hyin, hyout⟩ := Layered.mem_fresh.mp hy
          obtain ⟨s, -, hsy⟩ := List.mem_flatMap.mp hyin
          have hlt := Layered.length_left_lt (hnodes s y hsy) hyout hy
          have hfuel' : (nodes.filter
              (· ∉ (expand source link depth frontier st).visited)).length < fuel := by
            rw [hround]
            exact Nat.lt_of_lt_of_le hlt (Nat.le_of_lt_succ hfuel)
          have hkeys' : ∀ k ∈ Assoc.keys (expand source link depth frontier st).distance,
              k ∈ (expand source link depth frontier st).visited := by
            rw [hround]
            intro k hk
            rw [Assoc.keys, List.map_append, List.mem_append, List.map_map] at hk
            rcases hk with hk | hk
            · exact List.mem_append_left _ (hkeys k hk)
            · obtain ⟨z, hz, rfl⟩ := List.mem_map.mp hk
              exact List.mem_append_right _ hz
          obtain ⟨rest, hrest⟩ : ∃ rest, search source link fuel (depth + 1)
              (expand source link depth frontier st).next (expand source link depth frontier st)
              = some ⟨_, _, rest⟩ := ih hfuel' hkeys'
          refine ⟨rest, ?_⟩
          rw [hrest, if_neg hnew, hround, timed]
          simp only [List.flatten_cons, List.append_assoc]

end Runs

/-! ## The output -/

/-- The shortest-path closure of the seeds: each document that is reached and no seed, once, at its
    distance, labelled by the edges that lead to it from the seeds and the other entries. -/
structure ShortestClosure (source link : String → List String) (seeds : List String)
    (out : ComputeBlastOutput) : Prop where
  once : (out.downstream.map BlastDownstreamEntry.path).Nodup
  reached : ∀ path, path ∈ out.downstream.map BlastDownstreamEntry.path ↔
    path ∉ seeds ∧ ∃ s ∈ seeds, Layered.Leads (successorsOf source link) s path
  nearest : ∀ e ∈ out.downstream,
    Layered.AtDist (successorsOf source link) seeds e.distance e.path
  typed : ∀ e ∈ out.downstream, e.dependencyType = .source ↔
    ∃ v, (v ∈ seeds ∨ v ∈ out.downstream.map BlastDownstreamEntry.path) ∧ e.path ∈ source v
  counted : out.primaryBlast + out.advisoryBlast = out.downstream.length

section Output

variable {source link : String → List String} {seeds nodes : List String}

/-- The report of the layers of the walk: every document of a layer at its depth. -/
def layerReport (source link : String → List String) (nodes seeds : List String) :
    ComputeBlastOutput :=
  let layers := Layered.layers (successorsOf source link) nodes.length seeds seeds
  report source seeds ⟨seeds ++ layers.flatten, timed 0 layers, []⟩

theorem blastFrom_eq (hnodes : ∀ a, ∀ b ∈ successorsOf source link a, b ∈ nodes) {fuel : Nat}
    (hfuel : nodes.length < fuel) :
    blastFrom source link fuel seeds = some (layerReport source link nodes seeds) := by
  have hleft : (nodes.filter (· ∉ seeds)).length ≤ nodes.length := List.length_filter_le _ _
  have hkeys : ∀ k ∈ Assoc.keys (⟨seeds, [], []⟩ : Search).distance,
      k ∈ (⟨seeds, [], []⟩ : Search).visited := by
    intro k hk
    cases hk
  obtain ⟨rest, hrest⟩ : ∃ rest, search source link fuel 0 seeds ⟨seeds, [], []⟩
      = some ⟨_, _, rest⟩ := search_eq hnodes (Nat.lt_of_le_of_lt hleft hfuel) hkeys
  unfold blastFrom
  rw [hrest, Layered.layers_of_le hnodes hleft (Nat.le_of_lt hfuel)]
  rfl

variable (source seeds) in
theorem downstream_perm (st : Search) : (report source seeds st).downstream.Perm
    (st.distance.map (entryOf (primaryDownstream source seeds st.visited))) :=
  Stable.sort_perm _ _

theorem map_path_perm (st : Search) :
    ((report source seeds st).downstream.map BlastDownstreamEntry.path).Perm
      (st.distance.map Prod.fst) := by
  have hmap := (downstream_perm source seeds st).map
    BlastDownstreamEntry.path
  rwa [List.map_map] at hmap

/-- **The output is the shortest-path closure.** -/
theorem shortestClosure (hnodes : ∀ a, ∀ b ∈ successorsOf source link a, b ∈ nodes) :
    ShortestClosure source link seeds (layerReport source link nodes seeds) := by
  unfold layerReport
  have hnodup : (Layered.layers (successorsOf source link) nodes.length seeds
      seeds).flatten.Nodup := Layered.nodup_layers nodes.length seeds seeds
  have hmem : ∀ x, x ∈ (Layered.layers (successorsOf source link) nodes.length seeds
      seeds).flatten ↔ x ∉ seeds ∧ ∃ s ∈ seeds, Layered.Leads (successorsOf source link) s x :=
    fun x => Layered.mem_layers_iff hnodes (Nat.le_refl nodes.length)
  have hdist : ∀ i x, x ∈ ((Layered.layers (successorsOf source link) nodes.length seeds
      seeds)[i]?).getD [] ↔ Layered.AtDist (successorsOf source link) seeds (i + 1) x :=
    Layered.mem_layer_iff hnodes (Nat.le_refl nodes.length)
  generalize Layered.layers (successorsOf source link) nodes.length seeds seeds = layers
    at hmem hdist hnodup ⊢
  have hpaths : ∀ x, x ∈ ((report source seeds ⟨seeds ++ layers.flatten, timed 0 layers,
      []⟩).downstream.map BlastDownstreamEntry.path) ↔ x ∈ layers.flatten := by
    intro x
    rw [(map_path_perm _).mem_iff, map_fst_timed]
  have hentry : ∀ e ∈ (report source seeds ⟨seeds ++ layers.flatten, timed 0 layers,
      []⟩).downstream, ∃ x n, (x, n) ∈ timed 0 layers
        ∧ e = entryOf (primaryDownstream source seeds (seeds ++ layers.flatten)) (x, n) := by
    intro e he
    obtain ⟨⟨x, n⟩, hxn, rfl⟩ := List.mem_map.mp ((downstream_perm _ _ _).mem_iff.mp he)
    exact ⟨x, n, hxn, rfl⟩
  constructor
  · rw [(map_path_perm _).nodup_iff, map_fst_timed]
    exact hnodup
  · intro path
    rw [hpaths, hmem]
  · intro e he
    obtain ⟨x, n, hxn, rfl⟩ := hentry e he
    obtain ⟨i, rfl, hx⟩ := mem_timed.mp hxn
    rw [entryOf, Nat.zero_add, Nat.add_comm 1 i]
    exact (hdist i x).mp hx
  · intro e he
    obtain ⟨x, n, hxn, rfl⟩ := hentry e he
    have hx : x ∈ layers.flatten := by
      rw [← map_fst_timed 0]
      exact List.mem_map_of_mem (f := Prod.fst) hxn
    have hlabel : (entryOf (primaryDownstream source seeds (seeds ++ layers.flatten))
        (x, n)).dependencyType = .source ↔
          x ∈ primaryDownstream source seeds (seeds ++ layers.flatten) := by
      unfold entryOf
      split
      · exact iff_of_true rfl ‹_›
      · exact iff_of_false (by rintro ⟨⟩) ‹_›
    rw [hlabel, primaryDownstream, List.mem_filter, List.mem_flatMap]
    show _ ↔ ∃ v, _ ∧ x ∈ source v
    constructor
    · rintro ⟨⟨v, hv, hxv⟩, _⟩
      refine ⟨v, ?_, hxv⟩
      rw [hpaths]
      exact List.mem_append.mp hv
    · rintro ⟨v, hv, hxv⟩
      rw [hpaths] at hv
      exact ⟨⟨v, List.mem_append.mpr hv, hxv⟩, decide_eq_true ((hmem x).mp hx).1⟩
  · have hsplit := List.length_eq_length_filter_add (l := (report source seeds
      ⟨seeds ++ layers.flatten, timed 0 layers, []⟩).downstream)
    rw [hsplit]
    refine congrArg (_ + ·) (congrArg List.length (List.filter_congr fun e _ => ?_))
    exact decide_not

theorem ShortestClosure.dist_iff {out : ComputeBlastOutput}
    (h : ShortestClosure source link seeds out) {path : String} {n : Nat} :
    (∃ e ∈ out.downstream, e.path = path ∧ e.distance = n) ↔
      path ∉ seeds ∧ Layered.AtDist (successorsOf source link) seeds n path := by
  constructor
  · rintro ⟨e, he, rfl, rfl⟩
    exact ⟨((h.reached e.path).mp (List.mem_map_of_mem he)).1, h.nearest e he⟩
  · rintro ⟨hseed, hdist⟩
    obtain ⟨e, he, hpath⟩ := List.mem_map.mp ((h.reached path).mpr
      ⟨hseed, Layered.exists_atDist.mp ⟨n, hdist⟩⟩)
    exact ⟨e, he, hpath, (h.nearest e he).unique (hpath ▸ hdist)⟩

end Output

/-! ## Any maps, any seeds -/

/-- The documents a reverse map names as dependents. -/
def ComputeBlastArgs.nodes (args : ComputeBlastArgs) : List String :=
  (args.reverseSource ++ args.reverseLink).flatMap Prod.snd

theorem ComputeBlastArgs.mem_nodes (args : ComputeBlastArgs) : ∀ a,
    ∀ b ∈ successorsOf (dependents args.reverseSource) (dependents args.reverseLink) a,
      b ∈ args.nodes := by
  have hof : ∀ (m : ReverseMap) (a b : String), b ∈ dependents m a → ∃ e ∈ m, b ∈ e.2 := by
    intro m a b hb
    unfold dependents at hb
    cases hl : m.lookup a with
    | none =>
        rw [hl] at hb
        cases hb
    | some ds =>
        rw [hl] at hb
        exact ⟨(a, ds), Assoc.mem_of_lookup hl, hb⟩
  intro a b hb
  rcases List.mem_append.mp hb with hb | hb
  · obtain ⟨e, he, hbe⟩ := hof _ a b hb
    exact List.mem_flatMap.mpr ⟨e, List.mem_append_left _ he, hbe⟩
  · obtain ⟨e, he, hbe⟩ := hof _ a b hb
    exact List.mem_flatMap.mpr ⟨e, List.mem_append_right _ he, hbe⟩

abbrev ComputeBlastArgs.Closure (args : ComputeBlastArgs) (out : ComputeBlastOutput) : Prop :=
  ShortestClosure (dependents args.reverseSource) (dependents args.reverseLink) args.seeds out

abbrev ComputeBlastArgs.edges (args : ComputeBlastArgs) (node : String) : List String :=
  successorsOf (dependents args.reverseSource) (dependents args.reverseLink) node

/-- The loop ends with this output, given enough fuel. -/
def ComputeBlastArgs.Blasts (args : ComputeBlastArgs) (out : ComputeBlastOutput) : Prop :=
  ∀ fuel, args.nodes.length < fuel → computeBlastFrom args fuel = some out

theorem ComputeBlastArgs.Blasts.closure {args : ComputeBlastArgs} {out : ComputeBlastOutput}
    (h : args.Blasts out) : args.Closure out := by
  have hout := h _ (Nat.lt_succ_self _)
  rw [computeBlastFrom, blastFrom_eq args.mem_nodes (Nat.lt_succ_self _)] at hout
  rw [← Option.some.inj hout]
  exact shortestClosure args.mem_nodes

end Blast
