import Daftari.Curation.ProvenanceProofs
import Daftari.Curation.SupersedeChainsProofs
import Daftari.Lib.LoopsProofs

/-! # Supersede findings — the broken topics, each reported once

    A topic is a chain of `superseded_by` pointers.  It is broken when it has no last entry, or a
    last entry that is not canonical.  Lint walks from every document that points somewhere, writes
    a loop out from its least member, and gathers the heads of the chains that stop at one document.

    * `closesSupersedeLoop_exact`: **the loop test refuses the loops through an edited document and
      nothing else**;
    * `found_loops`, `found_headsByEnd`: what the walks gather;
    * `supersedeChainFindings_exact`: **the findings are the broken topics.** -/

namespace SupersedeChains

open Staleness (compareTexts)

/-! ## The map of edges -/

/-- `put`: a pointer that resolves is an edge, another one removes it. -/
def put (paths : List String) (edges : List (String × String)) (p : Pointer) :
    List (String × String) :=
  match p.2.bind fun target => if target = "" then none else resolveLink paths target p.1 with
  | some target => Assoc.set edges p.1 target
  | none => Assoc.remove edges [p.1]

/-- The map of `supersedeEdges`: the documents' pointers, then the edits. -/
def edgeMap (docs edits : List Pointer) : List (String × String) :=
  (docs ++ edits).foldl (put (knownPaths docs edits)) []

theorem lookup_put (paths : List String) (edges : List (String × String)) (e : Pointer)
    (p : String) : (put paths edges e).lookup p =
      if e.1 = p then e.2.bind fun target =>
        if target = "" then none else resolveLink paths target p
      else edges.lookup p := by
  unfold put
  by_cases hp : e.1 = p
  · rw [if_pos hp, hp]
    cases e.2.bind fun target => if target = "" then none else resolveLink paths target p with
    | none =>
        refine Assoc.lookup_of_not_mem ?_
        intro hmem
        obtain ⟨d, hd, hdp⟩ := List.mem_map.mp hmem
        have hnot := of_decide_eq_true (List.mem_filter.mp hd).2
        exact hnot (List.mem_singleton.mpr hdp)
    | some target => exact Assoc.lookup_set_self edges p target
  · rw [if_neg hp]
    have hne : p ≠ e.1 := fun h => hp h.symm
    cases e.2.bind fun target => if target = "" then none else resolveLink paths target e.1 with
    | none =>
        refine Assoc.lookup_remove_of_not_mem edges ?_
        intro hmem
        exact hne (List.mem_singleton.mp hmem)
    | some target => exact Assoc.lookup_set_of_ne edges target hne

theorem lookup_foldl_put (paths : List String) (l : List Pointer) (p : String) :
    (l.foldl (put paths) []).lookup p =
      ((l.reverse.find? fun e => e.1 = p).bind Prod.snd).bind fun target =>
        if target = "" then none else resolveLink paths target p := by
  induction l using List.reverseRecOn with
  | nil => rfl
  | append_singleton l e ih =>
      rw [List.foldl_append, List.foldl_cons, List.foldl_nil, lookup_put, List.reverse_append,
        List.reverse_singleton, List.singleton_append]
      by_cases hp : e.1 = p
      · rw [if_pos hp, List.find?_cons_of_pos (by simpa using hp)]
        rfl
      · rw [if_neg hp, List.find?_cons_of_neg (by simpa using hp)]
        exact ih

/-- **The map is the function**: a path's edge is that of its last pointer. -/
theorem lookup_edgeMap (docs edits : List Pointer) (p : String) :
    (edgeMap docs edits).lookup p = supersedeEdges docs edits p :=
  lookup_foldl_put _ _ p

theorem nodup_edgeMap (docs edits : List Pointer) : (Assoc.keys (edgeMap docs edits)).Nodup := by
  have htouch : Assoc.Touches (fun _ => True) [] (edgeMap docs edits) := by
    refine Assoc.Touches.foldl ?_
    intro m e _
    unfold put
    split
    · exact Assoc.Touches.refl.set trivial _
    · exact Assoc.Touches.refl.remove fun _ _ => trivial
  exact htouch.nodup List.nodup_nil

/-! ## The loop test -/

theorem byBasename_mem {paths : List String} {base : Rbac.Path} {p : String}
    (h : byBasename paths base = some p) : p ∈ paths := by
  unfold byBasename at h
  split at h
  · rename_i q hq
    obtain rfl := Option.some.inj h
    have hmem : q ∈ paths.filter fun r => baseKey r = base := by
      rw [hq]
      exact List.mem_singleton_self q
    exact (List.mem_filter.mp hmem).1
  · cases h

theorem resolveLink_mem {paths : List String} {target fromPath p : String}
    (h : resolveLink paths target fromPath = some p) : p ∈ paths := by
  have hcase : ∀ {q : String}, q ∈ paths → some q = some p → p ∈ paths := by
    intro q hq he
    obtain rfl := Option.some.inj he
    exact hq
  unfold resolveLink at h
  split at h
  · exact hcase ‹_› h
  · split at h
    · exact hcase ‹_› h
    · simp only at h
      split at h
      · exact hcase ‹_› h
      · split at h
        · exact hcase ‹_› h
        · split at h
          · cases h
          · exact byBasename_mem h

theorem mem_knownPaths_of_target {docs edits : List Pointer} {p q : String}
    (h : supersedeEdges docs edits p = some q) : q ∈ knownPaths docs edits := by
  obtain ⟨target, _, hq⟩ := Option.bind_eq_some_iff.mp h
  split at hq
  · cases hq
  · exact resolveLink_mem hq

/-- **The loop test is exact.**  It answers, after a step for every known path,
    and says yes exactly when an edited path lies on a cycle of the graph that
    the documents' pointers and then the edits make. -/
theorem closesSupersedeLoop_exact (docs edits : List Pointer) :
    (closesSupersedeLoop docs edits = true ↔
      ∃ e ∈ edits, Chain.OnCycle (fun p => (edgeMap docs edits).lookup p) e.1) ∧
    ∀ e ∈ edits, ∀ fuel, (knownPaths docs edits).length < fuel →
      ∃ answer, Chain.exits (supersedeEdges docs edits) e.1 fuel []
          (supersedeEdges docs edits e.1) = some answer ∧
        (answer = true ↔ Chain.OnCycle (fun p => (edgeMap docs edits).lookup p) e.1) := by
  have hmap : (fun p => (edgeMap docs edits).lookup p) = supersedeEdges docs edits :=
    funext (lookup_edgeMap docs edits)
  rw [hmap]
  have hexact : ∀ (e : Pointer) (fuel : Nat), (knownPaths docs edits).length < fuel →
      (Chain.returns (supersedeEdges docs edits) e.1 fuel [] (supersedeEdges docs edits e.1) = true
        ↔ Chain.OnCycle (supersedeEdges docs edits) e.1) := by
    intro e fuel hfuel
    exact Chain.returns_iff_onCycle (fun _ _ => mem_knownPaths_of_edge) hfuel
  refine ⟨?_, ?_⟩
  · unfold closesSupersedeLoop
    rw [List.any_eq_true]
    constructor
    · rintro ⟨e, he, hreturns⟩
      exact ⟨e, he, (hexact e _ (Nat.lt_succ_self _)).mp hreturns⟩
    · rintro ⟨e, he, hcycle⟩
      exact ⟨e, he, (hexact e _ (Nat.lt_succ_self _)).mpr hcycle⟩
  · intro e _ fuel hfuel
    exact ⟨_, Chain.exits_of_nodes (fun _ _ => mem_knownPaths_of_target) hfuel,
      hexact e fuel hfuel⟩

/-! ## The findings -/

/-- A document, as far as the chains look at it. -/
structure LoadedDoc where
  path : String
  status : String
  supersededBy : Option String

structure LintFinding where
  path : String
  detail : String
deriving DecidableEq

def pointersOf (docs : List LoadedDoc) : List Pointer := docs.map fun d => (d.path, d.supersededBy)

/-- The walk from a document, with fuel for its own path and every successor. -/
def walkFrom (edges : List (String × String)) (start : String) : List String × Option String :=
  Chain.trail (fun p => edges.lookup p) (edges.length + 2) [] (some start)

/-- The loop a walk has run into, written out from its first member. -/
def loopFrom (walk : List String) (here : String) : String × List String :=
  let loop := walk.drop (walk.idxOf here)
  let first := (Stable.sort compareTexts loop).head?.getD ""
  let pivot := loop.idxOf first
  (first, loop.drop pivot ++ loop.take pivot)

/-- What the walks gather: `loops` and `headsByEnd`. -/
structure Gathered where
  loops : List (String × List String)
  headsByEnd : List (String × List String)

/-- One walk.  A chain that stops is gathered from its head only. -/
def visit (edges : List (String × String)) (g : Gathered) (start : String) : Gathered :=
  match walkFrom edges start with
  | (walk, some here) =>
      { g with loops := Assoc.set g.loops (loopFrom walk here).1 (loopFrom walk here).2 }
  | (walk, none) =>
      if start ∈ edges.map Prod.snd then g
      else
        let last := walk.getLast?.getD ""
        { g with
          headsByEnd := Assoc.set g.headsByEnd last
            ((g.headsByEnd.lookup last).getD [] ++ [start]) }

/-- The walks from every document that points somewhere. -/
def gathered (edges : List (String × String)) : Gathered :=
  (Assoc.keys edges).foldl (visit edges) ⟨[], []⟩

def loopFinding (path : String) (loop : List String) : LintFinding where
  path := path
  detail := "superseded_by loop, no current entry: " ++ " -> ".intercalate (loop ++ [path])

def endFinding (path : String) (heads : List String) (status : String) : LintFinding where
  path := path
  detail := "last entry of the superseded_by chain from "
    ++ ", ".intercalate (Stable.sort compareTexts heads) ++ " is " ++ status ++ ", not canonical"

def LoadedDoc.points (d : LoadedDoc) : Bool := d.supersededBy ≠ none ∧ d.supersededBy ≠ some ""

/-- The finding of the end of some chains, if its document is to be reported. -/
def endFinding? (docs : List LoadedDoc) (path : String) (heads : List String) :
    Option LintFinding :=
  match Assoc.lastBy LoadedDoc.path docs path with
  | none => none
  | some d =>
      if d.status = "canonical" ∨ d.points then none else some (endFinding path heads d.status)

def supersedeChainFindings (localeCompare : String → String → Ordering) (docs : List LoadedDoc) :
    List LintFinding :=
  let g := gathered (edgeMap (pointersOf docs) [])
  Stable.sort (fun a b => localeCompare a.path b.path)
    (g.loops.map (fun l => loopFinding l.1 l.2)
      ++ g.headsByEnd.filterMap fun h => endFinding? docs h.1 h.2)

/-! ## What a walk finds -/

section Walks

variable {edges : List (String × String)} {start : String}

structure LeastRound (next : String → Option String) (m : String) (l : List String) : Prop where
  round : Chain.Round next m l
  least : ∀ b ∈ l, Text.lt b m = false

/-- **One loop has one least round.** -/
theorem LeastRound.unique {next : String → Option String} {m m' : String} {l l' : List String}
    (h : LeastRound next m l) (h' : LeastRound next m' l') (hr : Chain.Reaches next m m') :
    m = m' ∧ l = l' := by
  have hmem : m' ∈ l := h.round.mem_iff.mpr hr
  have hmem' : m ∈ l' := h'.round.mem_iff.mpr (h.round.onCycle.reaches_back hr)
  obtain rfl := Text.eq_of_not_lt (h'.least m hmem') (h.least m' hmem)
  exact ⟨rfl, h.round.unique h'.round⟩

theorem loopFrom_least {next : String → Option String} {walk : List String} {here : String}
    (h : Chain.Round next here (walk.drop (walk.idxOf here))) :
    LeastRound next (loopFrom walk here).1 (loopFrom walk here).2 ∧
      Chain.Reaches next here (loopFrom walk here).1 := by
  obtain ⟨m, hm, hhead⟩ := Stable.exists_head?_sort compareTexts h.nonempty
  unfold loopFrom
  simp only [hhead, Option.getD_some]
  have hlt := List.idxOf_lt_length_iff.mpr hm
  have hget : (walk.drop (walk.idxOf here))[(walk.drop (walk.idxOf here)).idxOf m]? = some m := by
    rw [List.getElem?_eq_getElem hlt, List.getElem_idxOf]
  have hrotate := h.rotate hlt hget
  rw [List.rotate_eq_drop_append_take (Nat.le_of_lt hlt)] at hrotate
  refine ⟨⟨hrotate, ?_⟩, h.mem_iff.mp hm⟩
  intro b hb
  have hmem : b ∈ walk.drop (walk.idxOf here) := by
    rw [List.mem_append, or_comm, ← List.mem_append, List.take_append_drop] at hb
    exact hb
  rcases Stable.le_of_head?_sort compareTexts hhead hmem with rfl | hle
  · exact Bool.eq_false_iff.mpr fun hlt => by
      have := Text.not_lt_of_lt hlt
      rw [hlt] at this
      cases this
  · exact Bool.eq_false_iff.mpr fun hlt => hle (Staleness.compareTexts_eq_gt.mpr hlt)

theorem walkFrom_ended (edges : List (String × String)) (start : String) :
    Chain.IsTrail (fun p => edges.lookup p) start (walkFrom edges start).1
        (walkFrom edges start).2 ∧
      Chain.Ended (walkFrom edges start).1 (walkFrom edges start).2 := by
  have hnodes : ∀ a b, edges.lookup a = some b → b ∈ start :: edges.map Prod.snd :=
    fun a b hab =>
      List.mem_cons_of_mem _ (List.mem_map_of_mem (f := Prod.snd) (Assoc.mem_of_lookup hab))
  refine Chain.trail_ended hnodes List.mem_cons_self ?_
  rw [List.length_cons, List.length_map]
  omega

variable (edges) in
/-- **What one walk does**: its chain stops somewhere, and the end gains a head unless something
    points at the start; or it runs into a loop, which is gathered. -/
theorem visit_cases (g : Gathered) (start : String) :
    (∃ e n, Chain.Stops (fun p => edges.lookup p) start e n ∧
      visit edges g start = if start ∈ edges.map Prod.snd then g else
        { g with
          headsByEnd := Assoc.set g.headsByEnd e ((g.headsByEnd.lookup e).getD [] ++ [start]) }) ∨
    (∃ m l, LeastRound (fun p => edges.lookup p) m l ∧
      Chain.Reaches (fun p => edges.lookup p) start m ∧
      visit edges g start = { g with loops := Assoc.set g.loops m l }) := by
  obtain ⟨htrail, hended⟩ := walkFrom_ended edges start
  unfold visit
  generalize walkFrom edges start = r at htrail hended ⊢
  obtain ⟨walk, here⟩ := r
  rcases hended with hnone | ⟨a, ha, hsome⟩
  · left
    obtain rfl : here = none := hnone
    obtain ⟨e, n, hlast, hstops, _⟩ := htrail.stops
    refine ⟨e, n, hstops, ?_⟩
    simp only [hlast, Option.getD_some]
  · right
    obtain rfl : here = some a := hsome
    obtain ⟨hround, hreach⟩ := htrail.round ha
    obtain ⟨hleast, hfirst⟩ := loopFrom_least hround
    exact ⟨_, _, hleast, hreach.trans hfirst, rfl⟩

/-! ## What the walks gather -/

/-- What is gathered after the walks from some documents: the loops they reach,
    and under each end the heads among them that stop there. -/
structure Gathers (edges : List (String × String)) (starts : List String) (g : Gathered) :
    Prop where
  nodup_loops : (Assoc.keys g.loops).Nodup
  loops : ∀ m l, g.loops.lookup m = some l ↔ LeastRound (fun p => edges.lookup p) m l ∧
    ∃ s ∈ starts, Chain.Reaches (fun p => edges.lookup p) s m
  nodup_ends : (Assoc.keys g.headsByEnd).Nodup
  nodup_heads : ∀ e, ((g.headsByEnd.lookup e).getD []).Nodup
  heads : ∀ e h, h ∈ (g.headsByEnd.lookup e).getD [] ↔ h ∈ starts ∧
    h ∉ edges.map Prod.snd ∧ ∃ n, Chain.Stops (fun p => edges.lookup p) h e n
  nonempty : ∀ e, g.headsByEnd.lookup e ≠ some []

variable {starts : List String} {g : Gathered}

theorem mem_snoc {a : String} (hne : a ≠ start) : a ∈ starts ↔ a ∈ starts ++ [start] := by
  simp [hne]

theorem Gathers.loops_of_stops (h : Gathers edges starts g) {e : String} {n : Nat}
    (hstops : Chain.Stops (fun p => edges.lookup p) start e n) (m : String) (l : List String) :
    g.loops.lookup m = some l ↔ LeastRound (fun p => edges.lookup p) m l ∧
      ∃ s ∈ starts ++ [start], Chain.Reaches (fun p => edges.lookup p) s m := by
  rw [h.loops]
  refine and_congr_right fun hleast => exists_congr fun _ => and_congr_left fun hr => mem_snoc ?_
  rintro rfl
  exact hstops.not_onCycle hr hleast.round.onCycle

theorem Gathers.heads_of_loop (h : Gathers edges starts g) {m : String} {l : List String}
    (hleast : LeastRound (fun p => edges.lookup p) m l)
    (hreach : Chain.Reaches (fun p => edges.lookup p) start m) (e a : String) :
    a ∈ (g.headsByEnd.lookup e).getD [] ↔ a ∈ starts ++ [start] ∧
      a ∉ edges.map Prod.snd ∧ ∃ n, Chain.Stops (fun p => edges.lookup p) a e n := by
  rw [h.heads]
  refine and_congr_left fun ⟨_, _, hstops⟩ => mem_snoc ?_
  rintro rfl
  exact hstops.not_onCycle hreach hleast.round.onCycle

theorem Gathers.step_loop (h : Gathers edges starts g) {m : String} {l : List String}
    (hleast : LeastRound (fun p => edges.lookup p) m l)
    (hreach : Chain.Reaches (fun p => edges.lookup p) start m) :
    Gathers edges (starts ++ [start]) { g with loops := Assoc.set g.loops m l } where
  nodup_loops := Assoc.nodup_set m l h.nodup_loops
  loops m' l' := by
    rw [Assoc.lookup_set]
    by_cases hm : m' = m
    · subst hm
      rw [if_pos rfl]
      constructor
      · intro hl
        obtain rfl := Option.some.inj hl
        exact ⟨hleast, start, by simp, hreach⟩
      · rintro ⟨hleast', _⟩
        rw [hleast.round.unique hleast'.round]
    · rw [if_neg hm, h.loops]
      refine and_congr_right fun hleast' => exists_congr fun _ => and_congr_left fun hr =>
        mem_snoc ?_
      -- from here there is one loop only
      rintro rfl
      have hback := Chain.reaches_onCycle hr hreach hleast.round.onCycle
      exact hm (hleast'.unique hleast hback).1
  nodup_ends := h.nodup_ends
  nodup_heads := h.nodup_heads
  heads := h.heads_of_loop hleast hreach
  nonempty := h.nonempty

theorem Gathers.step_stops (h : Gathers edges starts g) (hnew : start ∉ starts) {e : String}
    {n : Nat} (hstops : Chain.Stops (fun p => edges.lookup p) start e n)
    (hhead : start ∉ edges.map Prod.snd) :
    Gathers edges (starts ++ [start]) { g with
      headsByEnd := Assoc.set g.headsByEnd e ((g.headsByEnd.lookup e).getD [] ++ [start]) } where
  nodup_loops := h.nodup_loops
  loops := h.loops_of_stops hstops
  nodup_ends := Assoc.nodup_set e _ h.nodup_ends
  nodup_heads e' := by
    rw [Assoc.lookup_set]
    by_cases he : e' = e
    · subst he
      rw [if_pos rfl, Option.getD_some]
      refine List.nodup_append.mpr ⟨h.nodup_heads e', List.nodup_singleton _, ?_⟩
      intro a ha b hb
      obtain rfl := List.mem_singleton.mp hb
      rintro rfl
      exact hnew ((h.heads e' a).mp ha).1
    · rw [if_neg he]
      exact h.nodup_heads e'
  heads e' a := by
    rw [Assoc.lookup_set]
    by_cases he : e' = e
    · subst he
      rw [if_pos rfl, Option.getD_some, List.mem_append, h.heads, List.mem_append, or_and_right,
        List.mem_singleton]
      exact or_congr_right ⟨fun ha => ⟨ha, ha ▸ ⟨hhead, n, hstops⟩⟩, And.left⟩
    · rw [if_neg he, h.heads]
      refine and_congr_left fun ⟨_, _, hk⟩ => mem_snoc ?_
      rintro rfl
      exact he (hk.unique hstops).1
  nonempty e' := by
    rw [Assoc.lookup_set]
    by_cases he : e' = e
    · rw [if_pos he]
      intro hnil
      have hlen := congrArg List.length (Option.some.inj hnil)
      rw [List.length_append, List.length_singleton, List.length_nil] at hlen
      omega
    · rw [if_neg he]
      exact h.nonempty e'

theorem Gathers.step_pointed (h : Gathers edges starts g) {e : String} {n : Nat}
    (hstops : Chain.Stops (fun p => edges.lookup p) start e n)
    (hhead : start ∈ edges.map Prod.snd) : Gathers edges (starts ++ [start]) g where
  nodup_loops := h.nodup_loops
  loops := h.loops_of_stops hstops
  nodup_ends := h.nodup_ends
  nodup_heads := h.nodup_heads
  heads e' a := by
    rw [h.heads]
    refine and_congr_left fun ⟨hnot, _⟩ => mem_snoc ?_
    rintro rfl
    exact hnot hhead
  nonempty := h.nonempty

/-- **One walk more.** -/
theorem Gathers.step (h : Gathers edges starts g) (hnew : start ∉ starts) :
    Gathers edges (starts ++ [start]) (visit edges g start) := by
  rcases visit_cases edges g start with
    ⟨e, n, hstops, hvisit⟩ | ⟨m, l, hleast, hreach, hvisit⟩
  · rw [hvisit]
    by_cases hhead : start ∈ edges.map Prod.snd
    · rw [if_pos hhead]
      exact h.step_pointed hstops hhead
    · rw [if_neg hhead]
      exact h.step_stops hnew hstops hhead
  · rw [hvisit]
    exact h.step_loop hleast hreach

theorem gathers_foldl (edges : List (String × String)) (hnd : starts.Nodup) :
    Gathers edges starts (starts.foldl (visit edges) ⟨[], []⟩) := by
  induction starts using List.reverseRecOn with
  | nil =>
      refine ⟨List.nodup_nil, ?_, List.nodup_nil, ?_, ?_, ?_⟩
      · simp
      · simp
      · simp
      · simp
  | append_singleton starts start ih =>
      rw [List.foldl_append, List.foldl_cons, List.foldl_nil]
      obtain ⟨hstarts, _, hdisjoint⟩ := List.nodup_append.mp hnd
      exact (ih hstarts).step fun hmem =>
        hdisjoint start hmem start (List.mem_singleton_self start) rfl

end Walks

/-! ## The findings are the broken topics -/

/-- The heads whose chains stop at a document: each points somewhere, and nothing points at it. -/
structure Heads (next : String → Option String) (e : String) (heads : List String) : Prop where
  nonempty : heads ≠ []
  nodup : heads.Nodup
  mem : ∀ h, h ∈ heads ↔ next h ≠ none ∧ (∀ b, next b ≠ some h) ∧ ∃ n, Chain.Stops next h e n

def Reported (docs : List LoadedDoc) (next : String → Option String) (f : LintFinding) : Prop :=
  (∃ m l, LeastRound next m l ∧ f = loopFinding m l) ∨
  ∃ d ∈ docs, ∃ heads, Heads next d.path heads ∧ d.status ≠ "canonical" ∧ d.points = false ∧
    f = endFinding d.path heads d.status

section Findings

variable {docs docs' : List LoadedDoc} {edges : List (String × String)}

variable {heads : List String}

theorem endFinding_congr {path status : String} {heads' : List String} (h : heads.Perm heads') :
    endFinding path heads status = endFinding path heads' status := by
  have hsort : Stable.sort compareTexts heads = Stable.sort compareTexts heads' :=
    Stable.sort_eq_of_perm compareTexts h fun a _ b _ he => Staleness.compareTexts_eq_eq.mp he
  unfold endFinding
  rw [hsort]

variable {e : String}

theorem Heads.perm {next : String → Option String} {heads' : List String} (h : Heads next e heads)
    (h' : Heads next e heads') : heads.Perm heads' := by
  refine (List.perm_ext_iff_of_nodup h.nodup h'.nodup).mpr fun a => ?_
  rw [h.mem, h'.mem]

theorem gathered_ok (hnd : (Assoc.keys edges).Nodup) :
    Gathers edges (Assoc.keys edges) (gathered edges) :=
  gathers_foldl edges hnd

/-- **The loops that are gathered are all of them.** -/
theorem gathered_loops (hnd : (Assoc.keys edges).Nodup) (m : String) (l : List String) :
    (gathered edges).loops.lookup m = some l ↔ LeastRound (fun p => edges.lookup p) m l := by
  rw [(gathered_ok hnd).loops]
  refine and_iff_left_of_imp fun hleast => ⟨m, ?_, Chain.Reaches.refl m⟩
  obtain ⟨n, hn⟩ := hleast.round.onCycle
  obtain ⟨b, hb, _⟩ := Option.bind_eq_some_iff.mp hn
  exact List.mem_map_of_mem (f := Prod.fst) (Assoc.mem_of_lookup hb)

/-- **The heads gathered under an end are all of them.** -/
theorem gathered_headsByEnd (hnd : (Assoc.keys edges).Nodup)
    (h : (gathered edges).headsByEnd.lookup e = some heads) :
    Heads (fun p => edges.lookup p) e heads := by
  have hg := gathered_ok hnd
  have hget : ((gathered edges).headsByEnd.lookup e).getD [] = heads := by
    rw [h]
    rfl
  refine ⟨?_, ?_, ?_⟩
  · rintro rfl
    exact hg.nonempty e h
  · rw [← hget]
    exact hg.nodup_heads e
  · intro a
    rw [← hget]
    refine (hg.heads e a).trans (and_congr ?_ (and_congr_left fun _ => ?_))
    · rw [Ne, List.lookup_eq_none_iff]
      constructor
      · intro ha hnone
        obtain ⟨p, hp, rfl⟩ := List.mem_map.mp ha
        exact absurd (hnone p hp) (by simp)
      · intro hsome
        by_contra ha
        refine hsome fun p hp => ?_
        rw [bne_iff_ne]
        rintro rfl
        exact ha (List.mem_map_of_mem (f := Prod.fst) hp)
    · constructor
      · intro ha b hb
        exact ha (List.mem_map_of_mem (f := Prod.snd) (Assoc.mem_of_lookup hb))
      · intro ha hmem
        obtain ⟨⟨b, t⟩, hp, rfl⟩ := List.mem_map.mp hmem
        exact ha b (Assoc.lookup_of_mem hnd hp)

theorem exists_headsByEnd (hnd : (Assoc.keys edges).Nodup)
    (h : Heads (fun p => edges.lookup p) e heads) :
    ∃ heads', (gathered edges).headsByEnd.lookup e = some heads' ∧ heads.Perm heads' := by
  obtain ⟨a, ha⟩ := List.exists_mem_of_ne_nil heads h.nonempty
  obtain ⟨hsome, hnot, hstops⟩ := (h.mem a).mp ha
  have hmem : a ∈ ((gathered edges).headsByEnd.lookup e).getD [] := by
    refine ((gathered_ok hnd).heads e a).mpr ⟨?_, ?_, hstops⟩
    · by_contra hkey
      exact hsome (Assoc.lookup_of_not_mem hkey)
    · intro hmem
      obtain ⟨⟨b, t⟩, hp, rfl⟩ := List.mem_map.mp hmem
      exact hnot b (Assoc.lookup_of_mem hnd hp)
  cases hl : (gathered edges).headsByEnd.lookup e with
  | none =>
      rw [hl] at hmem
      cases hmem
  | some heads' => exact ⟨heads', rfl, h.perm (gathered_headsByEnd hnd hl)⟩

theorem endFinding?_eq_some (hpaths : (docs.map LoadedDoc.path).Nodup) {f : LintFinding} :
    endFinding? docs e heads = some f ↔
      ∃ d ∈ docs, d.path = e ∧ d.status ≠ "canonical" ∧ d.points = false ∧
        f = endFinding e heads d.status := by
  unfold endFinding?
  constructor
  · intro h
    cases hd : Assoc.lastBy LoadedDoc.path docs e with
    | none =>
        rw [hd] at h
        cases h
    | some d =>
        obtain ⟨hmem, hpath⟩ := Assoc.mem_of_lastBy hd
        rw [hd] at h
        simp only at h
        split at h
        · cases h
        · rename_i hnot
          obtain ⟨hstatus, hpoints⟩ := not_or.mp hnot
          exact ⟨d, hmem, hpath, hstatus, Bool.eq_false_iff.mpr hpoints, (Option.some.inj h).symm⟩
  · rintro ⟨d, hmem, rfl, hstatus, hpoints, rfl⟩
    rw [Assoc.lastBy_of_mem hpaths hmem]
    simp only
    rw [if_neg (by rintro (h | h) <;> simp_all)]

def edgesOf (docs : List LoadedDoc) (p : String) : Option String :=
  supersedeEdges (pointersOf docs) [] p

theorem lookup_edges (docs : List LoadedDoc) :
    (fun p => (edgeMap (pointersOf docs) []).lookup p) = edgesOf docs :=
  funext (lookup_edgeMap _ _)

variable {localeCompare : String → String → Ordering}

/-- **What is reported is what is broken.** -/
theorem mem_supersedeChainFindings (hpaths : (docs.map LoadedDoc.path).Nodup) {f : LintFinding} :
    f ∈ supersedeChainFindings localeCompare docs ↔ Reported docs (edgesOf docs) f := by
  have hnd := nodup_edgeMap (pointersOf docs) []
  have hnodup := (gathered_ok hnd).nodup_loops
  have hends := (gathered_ok hnd).nodup_ends
  unfold supersedeChainFindings Reported
  rw [(Stable.sort_perm _ _).mem_iff, List.mem_append, List.mem_map, List.mem_filterMap,
    ← lookup_edges]
  refine or_congr ?_ ?_
  · constructor
    · rintro ⟨⟨m, l⟩, hl, rfl⟩
      exact ⟨m, l, (gathered_loops hnd m l).mp (Assoc.lookup_of_mem hnodup hl), rfl⟩
    · rintro ⟨m, l, hleast, rfl⟩
      exact ⟨(m, l), Assoc.mem_of_lookup ((gathered_loops hnd m l).mpr hleast), rfl⟩
  · constructor
    · rintro ⟨⟨e, heads⟩, he, hf⟩
      obtain ⟨d, hd, rfl, hstatus, hpoints, rfl⟩ := (endFinding?_eq_some hpaths).mp hf
      have hheads := gathered_headsByEnd hnd (Assoc.lookup_of_mem hends he)
      exact ⟨d, hd, heads, hheads, hstatus, hpoints, rfl⟩
    · rintro ⟨d, hd, heads, hheads, hstatus, hpoints, rfl⟩
      obtain ⟨heads', hl, hperm⟩ := exists_headsByEnd hnd hheads
      refine ⟨(d.path, heads'), Assoc.mem_of_lookup hl, ?_⟩
      rw [endFinding_congr hperm]
      exact (endFinding?_eq_some hpaths).mpr ⟨d, hd, rfl, hstatus, hpoints, rfl⟩

theorem path_of_endFinding? {f : LintFinding} (h : endFinding? docs e heads = some f) :
    f.path = e := by
  unfold endFinding? at h
  cases hd : Assoc.lastBy LoadedDoc.path docs e with
  | none =>
      rw [hd] at h
      cases h
  | some d =>
      rw [hd] at h
      simp only at h
      split at h
      · cases h
      · rw [← Option.some.inj h]
        rfl

/-- **No document is reported twice.** -/
theorem nodup_supersedeChainFindings (docs : List LoadedDoc) :
    ((supersedeChainFindings localeCompare docs).map LintFinding.path).Nodup := by
  have hnd := nodup_edgeMap (pointersOf docs) []
  have hg := gathered_ok hnd
  unfold supersedeChainFindings
  rw [((Stable.sort_perm _ _).map LintFinding.path).nodup_iff, List.map_append, List.nodup_append]
  have hsub : (((gathered (edgeMap (pointersOf docs) [])).headsByEnd.filterMap fun h =>
      endFinding? docs h.1 h.2).map LintFinding.path).Sublist
        (Assoc.keys (gathered (edgeMap (pointersOf docs) [])).headsByEnd) := by
    generalize (gathered (edgeMap (pointersOf docs) [])).headsByEnd = ends
    induction ends with
    | nil => exact List.Sublist.refl _
    | cons h ends ih =>
        rw [List.filterMap_cons]
        cases hf : endFinding? docs h.1 h.2 with
        | none => exact ih.cons _
        | some f =>
            simp only [List.map_cons, path_of_endFinding? hf]
            exact ih.cons_cons _
  refine ⟨?_, hg.nodup_ends.sublist hsub, ?_⟩
  · rw [List.map_map]
    exact hg.nodup_loops
  · intro a ha b hb
    rw [List.map_map, List.mem_map] at ha
    obtain ⟨⟨m, l⟩, hl, rfl⟩ := ha
    obtain ⟨⟨e, heads⟩, he, rfl⟩ := List.mem_map.mp (hsub.subset hb)
    -- a document on a loop is not the end of a chain
    rintro hsame
    obtain rfl : m = e := hsame
    have hleast := (gathered_loops hnd m l).mp (Assoc.lookup_of_mem hg.nodup_loops hl)
    have hheads := gathered_headsByEnd hnd (Assoc.lookup_of_mem hg.nodup_ends he)
    obtain ⟨c, hc⟩ := List.exists_mem_of_ne_nil heads hheads.nonempty
    obtain ⟨_, _, n, hstops⟩ := (hheads.mem c).mp hc
    exact hstops.not_onCycle ⟨n, hstops.1⟩ hleast.round.onCycle

/-! ## The order of the documents -/

theorem byBasename_perm {paths paths' : List String} (h : paths.Perm paths') (base : Rbac.Path) :
    byBasename paths base = byBasename paths' base := by
  have hfilter := h.filter fun p => decide (baseKey p = base)
  unfold byBasename
  generalize paths.filter (fun p => decide (baseKey p = base)) = l at hfilter ⊢
  generalize paths'.filter (fun p => decide (baseKey p = base)) = l' at hfilter ⊢
  have hlen := hfilter.length_eq
  rcases l with _ | ⟨a, _ | ⟨b, l⟩⟩
  · rw [List.nil_perm.mp hfilter]
  · rw [List.singleton_perm.mp hfilter]
  · rcases l' with _ | ⟨c, _ | ⟨d, l'⟩⟩
    · cases hlen
    · simp at hlen
    · rfl

theorem resolveLink_perm {paths paths' : List String} (h : paths.Perm paths')
    (target fromPath : String) :
    resolveLink paths target fromPath = resolveLink paths' target fromPath := by
  unfold resolveLink
  simp only [h.mem_iff, byBasename_perm h]

/-- **The order of the documents makes no other graph.** -/
theorem edgesOf_perm (hpaths : (docs.map LoadedDoc.path).Nodup) (h : docs'.Perm docs) :
    edgesOf docs' = edgesOf docs := by
  funext p
  have hptrs : (pointersOf docs').Perm (pointersOf docs) := h.map _
  have hfst : ∀ ds : List LoadedDoc, (pointersOf ds).map Prod.fst = ds.map LoadedDoc.path := by
    intro ds
    unfold pointersOf
    rw [List.map_map]
    rfl
  have hpaths' : (docs'.map LoadedDoc.path).Nodup := (h.map LoadedDoc.path).nodup_iff.mpr hpaths
  have hpointer : pointerOf (pointersOf docs') [] p = pointerOf (pointersOf docs) [] p := by
    unfold pointerOf
    rw [List.append_nil, List.append_nil, find?_reverse_eq_lookup (by rw [hfst]; exact hpaths'),
      find?_reverse_eq_lookup (by rw [hfst]; exact hpaths)]
    cases hl : (pointersOf docs).lookup p with
    | none =>
        have hnone : (pointersOf docs').lookup p = none := by
          rw [List.lookup_eq_none_iff] at hl ⊢
          intro e he
          exact hl e (hptrs.mem_iff.mp he)
        rw [hnone]
    | some q =>
        have hmem := hptrs.mem_iff.mpr (Assoc.mem_of_lookup hl)
        rw [Assoc.lookup_of_mem (by
          show ((pointersOf docs').map Prod.fst).Nodup
          rw [hfst]
          exact hpaths') hmem]
  have hknown : (knownPaths (pointersOf docs') []).Perm (knownPaths (pointersOf docs) []) := by
    unfold knownPaths
    rw [List.append_nil, List.append_nil]
    exact (hptrs.map Prod.fst).dedup
  unfold edgesOf supersedeEdges
  rw [hpointer]
  refine Option.bind_congr fun target _ => ?_
  rw [resolveLink_perm hknown]

theorem exists_leastRound {a : String} (h : Chain.OnCycle (edgesOf docs) a) :
    ∃ m l, LeastRound (edgesOf docs) m l ∧ Chain.Reaches (edgesOf docs) a m := by
  rw [← lookup_edges] at h ⊢
  rcases visit_cases (edgeMap (pointersOf docs) []) ⟨[], []⟩ a with
    ⟨e, n, hstops, _⟩ | ⟨m, l, hleast, hreach, _⟩
  · exact absurd h (hstops.not_onCycle (Chain.Reaches.refl a))
  · exact ⟨m, l, hleast, hreach⟩

/-- **The findings are the broken topics.**  Of documents with distinct paths, in whatever order
    they come: each cycle is reported once, on its least member and written out from there; each end
    that is not canonical and carries no pointer is reported once, with all the heads that stop
    there; what feeds a loop is not reported. -/
theorem supersedeChainFindings_exact (localeCompare : String → String → Ordering)
    (docs : List LoadedDoc) (hpaths : (docs.map LoadedDoc.path).Nodup) :
    (∀ f, f ∈ supersedeChainFindings localeCompare docs ↔ Reported docs (edgesOf docs) f) ∧
    ((supersedeChainFindings localeCompare docs).map LintFinding.path).Nodup ∧
    (∀ a, Chain.OnCycle (edgesOf docs) a → ∃ m l, LeastRound (edgesOf docs) m l ∧
      Chain.Reaches (edgesOf docs) a m ∧
      ∀ f, (f ∈ supersedeChainFindings localeCompare docs ∧
        Chain.Reaches (edgesOf docs) a f.path) ↔ f = loopFinding m l) ∧
    (∀ f ∈ supersedeChainFindings localeCompare docs, ∀ c, Chain.Reaches (edgesOf docs) f.path c →
      Chain.OnCycle (edgesOf docs) c → Chain.OnCycle (edgesOf docs) f.path) ∧
    ∀ docs' : List LoadedDoc, docs'.Perm docs →
      (supersedeChainFindings localeCompare docs').Perm
        (supersedeChainFindings localeCompare docs) := by
  have hend : ∀ {d : String} {heads : List String}, Heads (edgesOf docs) d heads →
      ∀ {c : String}, Chain.Reaches (edgesOf docs) d c → ¬ Chain.OnCycle (edgesOf docs) c := by
    intro d heads hheads c hr hcycle
    obtain ⟨b, hb⟩ := List.exists_mem_of_ne_nil heads hheads.nonempty
    obtain ⟨_, _, n, hstops⟩ := (hheads.mem b).mp hb
    exact hstops.not_onCycle (Chain.Reaches.trans ⟨n, hstops.1⟩ hr) hcycle
  refine ⟨fun f => mem_supersedeChainFindings hpaths, nodup_supersedeChainFindings docs, ?_, ?_, ?_⟩
  · intro a ha
    obtain ⟨m, l, hleast, hreach⟩ := exists_leastRound ha
    refine ⟨m, l, hleast, hreach, fun f => ?_⟩
    rw [mem_supersedeChainFindings hpaths]
    constructor
    · rintro ⟨⟨m', l', hleast', rfl⟩ | ⟨d, _, heads, hheads, _, _, rfl⟩, hr⟩
      · have hback := Chain.reaches_onCycle hr hreach hleast.round.onCycle
        obtain ⟨rfl, rfl⟩ := hleast'.unique hleast hback
        rfl
      · exact absurd ha (hend hheads (ha.reaches_back hr))
    · rintro rfl
      exact ⟨Or.inl ⟨m, l, hleast, rfl⟩, hreach⟩
  · intro f hf c hr hcycle
    rcases (mem_supersedeChainFindings hpaths).mp hf with
      ⟨m, l, hleast, rfl⟩ | ⟨d, _, heads, hheads, _, _, rfl⟩
    · exact hleast.round.onCycle
    · exact absurd hcycle (hend hheads hr)
  · intro docs' hperm
    have hpaths' : (docs'.map LoadedDoc.path).Nodup :=
      (hperm.map LoadedDoc.path).nodup_iff.mpr hpaths
    refine (List.perm_ext_iff_of_nodup (nodup_supersedeChainFindings docs').of_map
      (nodup_supersedeChainFindings docs).of_map).mpr fun f => ?_
    rw [mem_supersedeChainFindings hpaths', mem_supersedeChainFindings hpaths,
      edgesOf_perm hpaths hperm]
    unfold Reported
    simp only [hperm.mem_iff]

def twoBroken : List LoadedDoc :=
  [⟨"c.md", "superseded", some "a.md"⟩, ⟨"a.md", "superseded", some "c"⟩,
    ⟨"w.md", "superseded", some "c.md"⟩, ⟨"x.md", "superseded", some "y.md"⟩,
    ⟨"y.md", "draft", none⟩, ⟨"z.md", "superseded", some "./y.md"⟩]

theorem twoBroken_reported :
    (∀ f, f ∈ supersedeChainFindings compareTexts twoBroken ↔
      Reported twoBroken (edgesOf twoBroken) f) ∧
    (supersedeChainFindings compareTexts twoBroken).map LintFinding.path = ["a.md", "y.md"] :=
  ⟨(supersedeChainFindings_exact compareTexts twoBroken (by decide)).1, by decide +kernel⟩

end Findings

end SupersedeChains
