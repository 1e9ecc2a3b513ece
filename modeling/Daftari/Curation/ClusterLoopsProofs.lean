import Daftari.Curation.TensionClustersProofs
import Daftari.Lib.GroupsProofs
import Daftari.Lib.UnionFindProofs

/-! # Tension clusters, as the loops compute them

    The code joins the sources of the tensions in scope in a map of parents, groups the documents
    and the tensions by the roots it finds, and sorts. Every look-up compresses the map on the way.

    * `clustersByLoops_eq`: **the loops end, and compute the clusters**;
    * `components`: **the clusters are the connected components**;
    * `rearranged_eq`: **neither the order of the tensions nor the order of their sources matters**,
      unless two clusters share a digest;
    * `triage_shows_each`: **the triage card shows every live tension once**, unless they do. -/

namespace Clusters

open Tension Classes Blast

attribute [local instance] Text.decidableMem

/-! ## The loops -/

section Loops

variable {M H : Type} (host : Host M H)

/-- `docsByRoot`: every document under the root it is found at. -/
def groupDocs (parent : UnionFind.Parents Str) :
    Option (UnionFind.Parents Str × List (Str × List Str)) :=
  (Assoc.keys parent).foldlM
    (fun s doc => (UnionFind.find s.1 doc).map fun found =>
      (found.2, Groups.push s.2 found.1 doc)) (parent, [])

/-- `tensionsByRoot`: every tension under the root of its sources, if they share one. -/
def groupTensions (parent : UnionFind.Parents Str) (live : List TensionEntry) :
    Option (UnionFind.Parents Str × List (Str × List TensionEntry)) :=
  live.foldlM
    (fun s t => (UnionFind.find s.1 t.sourceA).bind fun a =>
      (UnionFind.find a.2 t.sourceB).map fun b =>
        (b.2, if a.1 ≠ b.1 then s.2 else Groups.push s.2 a.1 t)) (parent, [])

/-- The least age, which is nothing without tensions. -/
def newestAge : List Int → Int
  | [] => 0
  | age :: rest => rest.foldl min age

def buildCluster (docs : List Str) (tensions : List TensionEntry) : TensionCluster :=
  let members := Stable.sort comparePaths docs
  let ages := tensions.map fun t => host.ageInDays t.date
  { id := clusterIdFor host members
    size := members.length
    documents := members
    tensionCount := tensions.length
    kinds := tensionKinds.map fun k => (tensions.filter fun t => t.kind = k).length
    oldestTensionAgeDays := ages.foldl max 0
    newestTensionAgeDays := newestAge ages }

/-- `computeTensionClusters`, loop by loop; no result when a loop ran out of fuel. -/
def clustersByLoops (tensions : List TensionEntry) : Option (List TensionCluster) :=
  let live := tensions.filter inScope
  if live.isEmpty then some []
  else
    (UnionFind.unions (pairs live)).bind fun parent =>
      (groupDocs parent).bind fun docs =>
        (groupTensions docs.1 live).map fun grouped =>
          Stable.sort compareClusters
            (docs.2.map fun e => buildCluster host e.2 ((grouped.2.lookup e.1).getD []))

end Loops

section Runs

variable {parent : UnionFind.Parents Str} {r : Roots Str}

/-- **The documents are grouped by their roots.** -/
theorem groupDocs_spec (h : UnionFind.Represents parent r) :
    ∃ parent', groupDocs parent = some (parent', Groups.collect r.find r.keys)
      ∧ UnionFind.Represents parent' r := by
  have hfrom : ∀ (docs : List Str), docs ⊆ r.keys →
      ∀ (parent : UnionFind.Parents Str) (acc : List (Str × List Str)),
        UnionFind.Represents parent r →
          ∃ parent', docs.foldlM (fun s doc => (UnionFind.find s.1 doc).map fun found =>
              (found.2, Groups.push s.2 found.1 doc)) (parent, acc)
            = some (parent', docs.foldl (fun m doc => Groups.push m (r.find doc) doc) acc)
            ∧ UnionFind.Represents parent' r := by
    intro docs
    induction docs with
    | nil => exact fun _ parent acc h => ⟨parent, rfl, h⟩
    | cons doc docs ih =>
        intro hsub parent acc h
        obtain ⟨m, hm, hrep⟩ := UnionFind.find_spec h doc
        have hname : r.name doc = r := if_pos (hsub List.mem_cons_self)
        rw [hname] at hrep
        obtain ⟨parent', hrun, hrep'⟩ := ih (fun x hx => hsub (List.mem_cons_of_mem _ hx)) m
          (Groups.push acc (r.find doc) doc) hrep
        refine ⟨parent', ?_, hrep'⟩
        rw [List.foldlM_cons, hm]
        exact hrun
  unfold groupDocs
  rw [h.keys]
  exact hfrom r.keys (List.Subset.refl _) parent [] h

/-- **The tensions are grouped by the root of their sources.** -/
theorem groupTensions_spec (h : UnionFind.Represents parent r) {live : List TensionEntry}
    (hsources : ∀ t ∈ live, t.sourceA ∈ r.keys ∧ t.sourceB ∈ r.keys) :
    ∃ parent', groupTensions parent live = some (parent', Groups.collect (fun t => r.find t.sourceA)
          (live.filter fun t => r.find t.sourceA = r.find t.sourceB)) := by
  have hfrom : ∀ (ts : List TensionEntry), (∀ t ∈ ts, t.sourceA ∈ r.keys ∧ t.sourceB ∈ r.keys) →
      ∀ (parent : UnionFind.Parents Str) (acc : List (Str × List TensionEntry)),
        UnionFind.Represents parent r →
          ∃ parent', ts.foldlM (fun s t => (UnionFind.find s.1 t.sourceA).bind fun a =>
              (UnionFind.find a.2 t.sourceB).map fun b =>
                (b.2, if a.1 ≠ b.1 then s.2 else Groups.push s.2 a.1 t)) (parent, acc)
            = some (parent', (ts.filter fun t => r.find t.sourceA = r.find t.sourceB).foldl
                (fun m t => Groups.push m (r.find t.sourceA) t) acc) := by
    intro ts
    induction ts with
    | nil => exact fun _ parent acc _ => ⟨parent, rfl⟩
    | cons t ts ih =>
        intro hts parent acc h
        obtain ⟨hta, htb⟩ := hts t List.mem_cons_self
        obtain ⟨ma, hma, hrepa⟩ := UnionFind.find_spec h t.sourceA
        have hnamea : r.name t.sourceA = r := if_pos hta
        rw [hnamea] at hrepa
        obtain ⟨mb, hmb, hrepb⟩ := UnionFind.find_spec hrepa t.sourceB
        have hnameb : r.name t.sourceB = r := if_pos htb
        rw [hnameb] at hrepb
        obtain ⟨parent', hrun⟩ := ih (fun x hx => hts x (List.mem_cons_of_mem _ hx)) mb
          (if r.find t.sourceA ≠ r.find t.sourceB then acc
            else Groups.push acc (r.find t.sourceA) t) hrepb
        refine ⟨parent', ?_⟩
        rw [List.foldlM_cons, hma, Option.bind_some, hmb]
        refine hrun.trans ?_
        by_cases hsame : r.find t.sourceA = r.find t.sourceB
        · simp only [hsame, ne_eq, not_true_eq_false, if_false, List.filter_cons, decide_true,
            if_true, List.foldl_cons]
        · simp only [hsame, ne_eq, not_false_eq_true, if_true, List.filter_cons, decide_false,
            Bool.false_eq_true, if_false]
  exact hfrom live hsources parent [] h

end Runs

section Agreement

variable {M H : Type} {host : Host M H}

theorem clusterOf_eq (live : List TensionEntry) (root : Str) :
    clusterOf host live root = buildCluster host
      ((rootsOf live).keys.filter fun doc => (rootsOf live).find doc = root)
      (live.filter fun t => (rootsOf live).find t.sourceA = root
        ∧ (rootsOf live).find t.sourceB = root) := rfl

theorem sources_mem_keys {live : List TensionEntry} {t : TensionEntry} (ht : t ∈ live) :
    t.sourceA ∈ (rootsOf live).keys ∧ t.sourceB ∈ (rootsOf live).keys :=
  ⟨Roots.mem_keys_unions.mpr ⟨_, List.mem_map_of_mem ht, Or.inl rfl⟩,
    Roots.mem_keys_unions.mpr ⟨_, List.mem_map_of_mem ht, Or.inr rfl⟩⟩

/-- **The loops end, and compute the clusters.** -/
theorem clustersByLoops_eq (tensions : List TensionEntry) :
    clustersByLoops host tensions = some (computeTensionClusters host tensions) := by
  unfold clustersByLoops
  by_cases hempty : (tensions.filter inScope).isEmpty = true
  · rw [if_pos hempty]
    unfold computeTensionClusters
    rw [List.isEmpty_iff.mp hempty]
    rfl
  · rw [if_neg hempty]
    obtain ⟨parent, hparent, hrep⟩ := UnionFind.unions_spec (pairs (tensions.filter inScope))
    obtain ⟨parent', hdocs, hrep'⟩ := groupDocs_spec hrep
    obtain ⟨parent'', htensions⟩ := groupTensions_spec hrep'
      (fun t (ht : t ∈ tensions.filter inScope) => sources_mem_keys ht)
    have hgroups : groupDocs parent = some (parent', (groups (tensions.filter inScope)).map
        fun root => (root, (rootsOf (tensions.filter inScope)).keys.filter
          fun doc => (rootsOf (tensions.filter inScope)).find doc = root)) := by
      rw [hdocs, Groups.collect_eq]
      rfl
    simp only [hparent, hgroups, htensions, Option.bind_some, Option.map_some, List.map_map]
    refine congrArg (fun clusters => some (Stable.sort compareClusters clusters)) ?_
    refine List.map_congr_left fun root _ => ?_
    rw [clusterOf_eq, Function.comp_apply, Groups.lookup_collect, List.filter_filter]
    refine congrArg (buildCluster host _) (List.filter_congr fun t _ => ?_)
    show (decide ((rootsOf (tensions.filter inScope)).find t.sourceA = root)
      && decide ((rootsOf (tensions.filter inScope)).find t.sourceA
        = (rootsOf (tensions.filter inScope)).find t.sourceB)) = _
    rw [← Bool.decide_and, decide_eq_decide]
    constructor
    · rintro ⟨ha, hab⟩
      exact ⟨ha, hab ▸ ha⟩
    · rintro ⟨ha, hb⟩
      exact ⟨ha, ha.trans hb.symm⟩

/-! ## The components -/

def Joined (tensions : List TensionEntry) (a b : Str) : Prop :=
  ∃ t ∈ tensions, inScope t = true
    ∧ (a = t.sourceA ∧ b = t.sourceB ∨ a = t.sourceB ∧ b = t.sourceA)

/-- The clusters are the connected components of the tensions in scope. -/
structure Components (tensions : List TensionEntry) (clusters : List TensionCluster) : Prop where
  /-- Together exactly when a path of tensions joins the two. -/
  connected : ∀ a b, (∃ c ∈ clusters, a ∈ c.documents ∧ b ∈ c.documents) ↔
    Relation.TransGen (Joined tensions) a b
  /-- No document is in two clusters. -/
  apart : clusters.Pairwise fun c c' => c.documents.Disjoint c'.documents
  /-- Both sources of a tension are in one cluster, -/
  held : ∀ t ∈ tensions, inScope t = true →
    ∃ c ∈ clusters, t.sourceA ∈ c.documents ∧ t.sourceB ∈ c.documents
  /-- which counts it, with the others between its documents. -/
  counted : ∀ c ∈ clusters, c.tensionCount = (tensions.filter fun t => inScope t = true
    ∧ t.sourceA ∈ c.documents ∧ t.sourceB ∈ c.documents).length
  /-- A document is in a cluster for a tension. -/
  populated : ∀ c ∈ clusters, ∀ doc ∈ c.documents,
    ∃ t ∈ tensions, inScope t = true ∧ (doc = t.sourceA ∨ doc = t.sourceB)

variable {tensions : List TensionEntry} {a : Str}

theorem Joined.symm {b : Str} (h : Joined tensions a b) : Joined tensions b a := by
  obtain ⟨t, ht, hscope, hab | hab⟩ := h
  · exact ⟨t, ht, hscope, Or.inr hab.symm⟩
  · exact ⟨t, ht, hscope, Or.inl hab.symm⟩

theorem path_of_connected {b : Str} (h : Connected (pairs (tensions.filter inScope)) a b) :
    a = b ∨ Relation.TransGen (Joined tensions) a b := by
  induction h with
  | rel a b hab =>
      obtain ⟨t, ht, he⟩ := List.mem_map.mp hab
      obtain ⟨hin, hscope⟩ := List.mem_filter.mp ht
      obtain ⟨rfl, rfl⟩ := Prod.mk.inj he
      exact Or.inr (.single ⟨t, hin, hscope, Or.inl ⟨rfl, rfl⟩⟩)
  | refl a => exact Or.inl rfl
  | symm a b _ ih =>
      refine ih.imp Eq.symm fun hpath => ?_
      exact Relation.transGen_swap.mp
        (Relation.TransGen.mono (fun _ _ h => Joined.symm h) _ _ hpath)
  | trans a b c _ _ ih ih' =>
      rcases ih with rfl | hab
      · exact ih'
      · rcases ih' with rfl | hbc
        · exact Or.inr hab
        · exact Or.inr (hab.trans hbc)

theorem connected_of_path {b : Str} (h : Relation.TransGen (Joined tensions) a b) :
    Connected (pairs (tensions.filter inScope)) a b := by
  have hone : ∀ {a b}, Joined tensions a b →
      Connected (pairs (tensions.filter inScope)) a b := by
    rintro a b ⟨t, ht, hscope, ⟨rfl, rfl⟩ | ⟨rfl, rfl⟩⟩
    · exact .rel _ _ (List.mem_map_of_mem (List.mem_filter.mpr ⟨ht, hscope⟩))
    · exact .symm _ _ (.rel _ _ (List.mem_map_of_mem (List.mem_filter.mpr ⟨ht, hscope⟩)))
  induction h with
  | single hab => exact hone hab
  | tail _ hbc ih => exact .trans _ _ _ ih (hone hbc)

theorem exists_joined : (∃ t ∈ tensions, inScope t = true ∧ (a = t.sourceA ∨ a = t.sourceB)) ↔
      ∃ b, Joined tensions a b := by
  constructor
  · rintro ⟨t, ht, hscope, ha | ha⟩
    · exact ⟨t.sourceB, t, ht, hscope, Or.inl ⟨ha, rfl⟩⟩
    · exact ⟨t.sourceA, t, ht, hscope, Or.inr ⟨ha, rfl⟩⟩
  · rintro ⟨b, t, ht, hscope, ⟨ha, -⟩ | ⟨ha, -⟩⟩
    · exact ⟨t, ht, hscope, Or.inl ha⟩
    · exact ⟨t, ht, hscope, Or.inr ha⟩

/-- **In one cluster exactly when a path of tensions joins the two.** -/
theorem together_iff {b : Str} :
    (∃ c ∈ computeTensionClusters host tensions, a ∈ c.documents ∧ b ∈ c.documents) ↔
      Relation.TransGen (Joined tensions) a b := by
  rw [mem_cluster_iff, exists_joined, exists_joined]
  constructor
  · rintro ⟨⟨x, hax⟩, -, hab⟩
    rcases path_of_connected hab with rfl | hpath
    · exact .tail (.single hax) hax.symm
    · exact hpath
  · intro hpath
    refine ⟨?_, ?_, connected_of_path hpath⟩
    · obtain ⟨x, hax, -⟩ := Relation.TransGen.head'_iff.mp hpath
      exact ⟨x, hax⟩
    · obtain ⟨x, -, hxb⟩ := Relation.TransGen.tail'_iff.mp hpath
      exact ⟨x, hxb.symm⟩

theorem root_unique {live : List TensionEntry} {root root' doc : Str}
    (h : doc ∈ (clusterOf host live root).documents)
    (h' : doc ∈ (clusterOf host live root').documents) : root = root' :=
  (mem_clusterOf_documents.mp h).2.symm.trans (mem_clusterOf_documents.mp h').2

variable (host) in
theorem clusters_apart (tensions : List TensionEntry) :
    (computeTensionClusters host tensions).Pairwise
      fun c c' => c.documents.Disjoint c'.documents := by
  have hsymm : ∀ {c c' : TensionCluster}, c.documents.Disjoint c'.documents →
      c'.documents.Disjoint c.documents := fun h => h.symm
  refine ((Stable.sort_perm compareClusters _).pairwise_iff hsymm).mpr ?_
  refine List.pairwise_map.mpr ((Groups.nodup_eraseDups _).imp ?_)
  intro root root' hne doc h h'
  exact hne (root_unique h h')

theorem tensionCount_eq {root : Str} :
    (clusterOf host (tensions.filter inScope) root).tensionCount =
      (tensions.filter fun t => inScope t = true
        ∧ t.sourceA ∈ (clusterOf host (tensions.filter inScope) root).documents
        ∧ t.sourceB ∈ (clusterOf host (tensions.filter inScope) root).documents).length := by
  show ((tensions.filter inScope).filter _).length = _
  rw [List.filter_filter]
  refine congrArg List.length (List.filter_congr fun t ht => ?_)
  rw [Bool.eq_iff_iff, Bool.and_eq_true, decide_eq_true_iff, decide_eq_true_iff]
  constructor
  · rintro ⟨⟨ha, hb⟩, hscope⟩
    obtain ⟨hka, hkb⟩ := sources_mem_keys (List.mem_filter.mpr ⟨ht, hscope⟩)
    exact ⟨hscope, mem_clusterOf_documents.mpr ⟨hka, ha⟩, mem_clusterOf_documents.mpr ⟨hkb, hb⟩⟩
  · rintro ⟨hscope, ha, hb⟩
    exact ⟨⟨(mem_clusterOf_documents.mp ha).2, (mem_clusterOf_documents.mp hb).2⟩, hscope⟩

/-- **The clusters are the connected components.** -/
theorem components (tensions : List TensionEntry) :
    Components tensions (computeTensionClusters host tensions) := by
  refine ⟨fun a b => together_iff, clusters_apart host tensions, ?_, ?_, ?_⟩
  · intro t ht hscope
    exact exists_cluster ht hscope
  · intro c hc
    obtain ⟨root, -, rfl⟩ := mem_computeTensionClusters.mp hc
    exact tensionCount_eq
  · intro c hc doc hdoc
    exact (mem_cluster_iff.mp ⟨c, hc, hdoc, hdoc⟩).1

end Agreement

/-! ## The order of the log does not matter -/

/-- Two entries that clusters cannot tell apart: the same two sources, whichever way
    round, and the same date, kind and outcome. -/
structure Alike (t t' : TensionEntry) : Prop where
  sources : t.sourceA = t'.sourceA ∧ t.sourceB = t'.sourceB
    ∨ t.sourceA = t'.sourceB ∧ t.sourceB = t'.sourceA
  date : t.date = t'.date
  kind : t.kind = t'.kind
  resolved : t.resolved = t'.resolved
  resolution : t.resolution = t'.resolution

/-- The entries in another order, with the sources of any of them swapped. -/
def Rearranged (ts ts' : List TensionEntry) : Prop :=
  ∃ us, ts.Perm us ∧ List.Forall₂ Alike us ts'

def CollisionFree {M H : Type} (host : Host M H) (clusters : List TensionCluster) : Prop :=
  ∀ c ∈ clusters, ∀ c' ∈ clusters,
    host.digest c.documents = host.digest c'.documents → c.documents = c'.documents

section Rearranging

variable {M H : Type} {host : Host M H} {t t' : TensionEntry} {ts ts' : List TensionEntry}

theorem Alike.inScope_eq (h : Alike t t') : inScope t = inScope t' := by
  unfold inScope
  rw [h.resolved, h.resolution]
  rcases h.sources with ⟨ha, hb⟩ | ⟨ha, hb⟩
  · rw [ha, hb]
  · have hsame : (t'.sourceB = t'.sourceA) = (t'.sourceA = t'.sourceB) := propext eq_comm
    have hnone : (t'.sourceB ≠ [] ∧ t'.sourceA ≠ []) = (t'.sourceA ≠ [] ∧ t'.sourceB ≠ []) :=
      propext and_comm
    simp only [ha, hb, hsame, hnone]

theorem Alike.symm (h : Alike t t') : Alike t' t := by
  refine ⟨?_, h.date.symm, h.kind.symm, h.resolved.symm, h.resolution.symm⟩
  rcases h.sources with ⟨ha, hb⟩ | ⟨ha, hb⟩
  · exact Or.inl ⟨ha.symm, hb.symm⟩
  · exact Or.inr ⟨hb.symm, ha.symm⟩

theorem Rearranged.symm (h : Rearranged ts ts') : Rearranged ts' ts := by
  obtain ⟨us, hperm, halike⟩ := h
  have hback : List.Forall₂ Alike ts' us :=
    halike.flip.imp fun _ _ h => h.symm
  have hcomp : Relation.Comp (List.Forall₂ Alike) List.Perm ts' ts := ⟨us, hback, hperm.symm⟩
  rw [List.forall₂_comp_perm_eq_perm_comp_forall₂] at hcomp
  exact hcomp

theorem Rearranged.map {β : Type*} {f : TensionEntry → β} (h : Rearranged ts ts')
    (hf : ∀ t t', Alike t t' → f t = f t') : (ts.map f).Perm (ts'.map f) := by
  obtain ⟨us, hperm, halike⟩ := h
  refine (hperm.map f).trans (List.Perm.of_eq ?_)
  clear hperm
  induction halike with
  | nil => rfl
  | cons hab _ ih => rw [List.map_cons, List.map_cons, hf _ _ hab, ih]

theorem Rearranged.filter {p p' : TensionEntry → Bool} (h : Rearranged ts ts')
    (hp : ∀ t t', Alike t t' → p t = p' t') : Rearranged (ts.filter p) (ts'.filter p') := by
  obtain ⟨us, hperm, halike⟩ := h
  refine ⟨us.filter p, hperm.filter p, ?_⟩
  clear hperm
  induction halike with
  | nil => exact .nil
  | @cons a b _ _ hab _ ih =>
      rw [List.filter_cons, List.filter_cons, hp a b hab]
      split
      · exact .cons hab ih
      · exact ih

theorem Rearranged.exists_alike (h : Rearranged ts ts') (ht : t ∈ ts) : ∃ t' ∈ ts', Alike t t' := by
  obtain ⟨us, hperm, halike⟩ := h
  have hin := hperm.mem_iff.mp ht
  clear hperm
  induction halike with
  | nil => cases hin
  | cons hab _ ih =>
      rcases List.mem_cons.mp hin with rfl | hin
      · exact ⟨_, List.mem_cons_self, hab⟩
      · obtain ⟨t', ht', halike⟩ := ih hin
        exact ⟨t', List.mem_cons_of_mem _ ht', halike⟩

variable {a : Str}

theorem Rearranged.joined (h : Rearranged ts ts') {b : Str} (hab : Joined ts a b) :
    Joined ts' a b := by
  obtain ⟨t, ht, hscope, hab⟩ := hab
  obtain ⟨t', ht', halike⟩ := h.exists_alike ht
  refine ⟨t', ht', halike.inScope_eq ▸ hscope, ?_⟩
  rcases halike.sources with ⟨ha, hb⟩ | ⟨ha, hb⟩
  · rwa [ha, hb] at hab
  · rw [ha, hb] at hab
    exact hab.symm

theorem Rearranged.connected (h : Rearranged ts ts') {b : Str}
    (hab : Connected (pairs (ts.filter inScope)) a b) :
    Connected (pairs (ts'.filter inScope)) a b := by
  rcases path_of_connected hab with rfl | hpath
  · exact .refl _
  · exact connected_of_path (Relation.TransGen.mono (fun _ _ h' => h.joined h') _ _ hpath)

theorem Rearranged.find_iff (h : Rearranged ts ts') {b : Str} :
    (rootsOf (ts.filter inScope)).find a = (rootsOf (ts.filter inScope)).find b ↔
      (rootsOf (ts'.filter inScope)).find a = (rootsOf (ts'.filter inScope)).find b :=
  same_unions.trans (Iff.trans ⟨h.connected, h.symm.connected⟩ same_unions.symm)

theorem mem_keys_iff : a ∈ (rootsOf (ts.filter inScope)).keys ↔ ∃ b, Joined ts a b := by
  rw [← exists_joined]
  refine Roots.mem_keys_unions.trans ?_
  constructor
  · rintro ⟨p, hp, ha⟩
    obtain ⟨t, ht, rfl⟩ := List.mem_map.mp hp
    exact ⟨t, (List.mem_filter.mp ht).1, (List.mem_filter.mp ht).2, ha⟩
  · rintro ⟨t, ht, hscope, ha⟩
    exact ⟨_, List.mem_map_of_mem (List.mem_filter.mpr ⟨ht, hscope⟩), ha⟩

theorem nodup_keys (live : List TensionEntry) : (rootsOf live).keys.Nodup := by
  obtain ⟨m, -, h⟩ := UnionFind.unions_spec (pairs live)
  exact h.keys ▸ h.nodup

theorem newestAge_eq (ages : List Int) : newestAge ages = ages.min?.getD 0 := by
  cases ages <;> rfl

theorem newestAge_congr {ages ages' : List Int} (h : ages.Perm ages') :
    newestAge ages = newestAge ages' := by
  have hmin : ages.min? = ages'.min? := by
    ext a
    rw [List.min?_eq_some_iff, List.min?_eq_some_iff, h.mem_iff]
    exact and_congr_right fun _ => forall_congr' fun b => by rw [h.mem_iff]
  rw [newestAge_eq, newestAge_eq, hmin]

instance : Std.TransCmp comparePaths :=
  Stable.transCmp_on Staleness.compareTexts String.ofList

theorem eq_of_comparePaths {b : Str} (h : comparePaths a b = .eq) : a = b :=
  String.ofList_injective (Staleness.compareTexts_eq_eq.mp h)

instance : Std.TransCmp compareClusters := by
  have hsize : Std.TransCmp fun a b : TensionCluster => compare b.size a.size :=
    Stable.transCmp_on (fun a b : Nat => compare b a) TensionCluster.size
  have hid := Stable.transCmp_on comparePaths TensionCluster.id
  exact inferInstanceAs (Std.TransCmp (compareLex
    (fun a b : TensionCluster => compare b.size a.size) fun a b => comparePaths a.id b.id))

/-- **A cluster is made of its documents and tensions**, in any order. -/
theorem buildCluster_congr {docs docs' : List Str} (hdocs : docs.Perm docs')
    (h : Rearranged ts ts') : buildCluster host docs ts = buildCluster host docs' ts' := by
  have hmembers : Stable.sort comparePaths docs = Stable.sort comparePaths docs' :=
    Stable.sort_eq_of_perm comparePaths hdocs fun a _ b _ he => eq_of_comparePaths he
  have hages : (ts.map fun t => host.ageInDays t.date).Perm
      (ts'.map fun t => host.ageInDays t.date) := h.map fun t t' halike => by rw [halike.date]
  have hcount : ts.length = ts'.length := by
    simpa only [List.length_map] using hages.length_eq
  have hkinds : ∀ k, (ts.filter fun t => t.kind = k).length
      = (ts'.filter fun t => t.kind = k).length := by
    intro k
    have hof : Rearranged (ts.filter fun t => t.kind = k) (ts'.filter fun t => t.kind = k) :=
      h.filter fun t t' halike => by rw [halike.kind]
    simpa only [List.length_map] using (hof.map (f := TensionEntry.kind)
      fun t t' halike => halike.kind).length_eq
  have holdest : (ts.map fun t => host.ageInDays t.date).foldl max 0
      = (ts'.map fun t => host.ageInDays t.date).foldl max 0 := hages.foldl_eq 0
  unfold buildCluster
  simp only [hmembers, hcount, hkinds, holdest, newestAge_congr hages]

variable {c : TensionCluster}

/-- **Every cluster of the one log is a cluster of the other.** -/
theorem Rearranged.cluster (h : Rearranged ts ts') (hc : c ∈ computeTensionClusters host ts) :
    c ∈ computeTensionClusters host ts' := by
  obtain ⟨root, hroot, rfl⟩ := mem_computeTensionClusters.mp hc
  obtain ⟨doc, hdoc, rfl⟩ := List.mem_map.mp (List.mem_eraseDups.mp hroot)
  have hkeys : ∀ a, a ∈ (rootsOf (ts.filter inScope)).keys ↔
      a ∈ (rootsOf (ts'.filter inScope)).keys := by
    intro a
    rw [mem_keys_iff, mem_keys_iff]
    exact exists_congr fun b => ⟨h.joined, h.symm.joined⟩
  refine mem_computeTensionClusters.mpr ⟨(rootsOf (ts'.filter inScope)).find doc,
    List.mem_eraseDups.mpr (List.mem_map_of_mem ((hkeys doc).mp hdoc)), ?_⟩
  refine (buildCluster_congr ?_ ?_).symm
  · refine (List.perm_ext_iff_of_nodup ((nodup_keys _).filter _) ((nodup_keys _).filter _)).mpr ?_
    intro a
    rw [List.mem_filter, List.mem_filter, hkeys, decide_eq_true_iff, decide_eq_true_iff, h.find_iff]
  · refine (h.filter fun t t' halike => halike.inScope_eq).filter fun t t' halike => ?_
    rw [decide_eq_decide, h.find_iff, h.find_iff]
    rcases halike.sources with ⟨ha, hb⟩ | ⟨ha, hb⟩
    · rw [ha, hb]
    · rw [ha, hb, and_comm]

theorem cluster_unique {c' : TensionCluster} {doc : Str} (hc : c ∈ computeTensionClusters host ts)
    (hc' : c' ∈ computeTensionClusters host ts) (h : doc ∈ c.documents) (h' : doc ∈ c'.documents) :
    c = c' := by
  obtain ⟨root, -, rfl⟩ := mem_computeTensionClusters.mp hc
  obtain ⟨root', -, rfl⟩ := mem_computeTensionClusters.mp hc'
  rw [root_unique h h']

theorem id_eq (hc : c ∈ computeTensionClusters host ts) :
    c.id = "cluster:".toList ++ host.digest c.documents := by
  obtain ⟨root, -, rfl⟩ := mem_computeTensionClusters.mp hc
  rfl

theorem exists_document (hc : c ∈ computeTensionClusters host ts) : ∃ doc, doc ∈ c.documents := by
  obtain ⟨root, hroot, rfl⟩ := mem_computeTensionClusters.mp hc
  obtain ⟨doc, hdoc, hfind⟩ := List.mem_map.mp (List.mem_eraseDups.mp hroot)
  exact ⟨doc, mem_clusterOf_documents.mpr ⟨hdoc, hfind⟩⟩

theorem nodup_clusters (host : Host M H) (ts : List TensionEntry) :
    (computeTensionClusters host ts).Nodup := by
  refine (clusters_apart host ts).imp_of_mem ?_
  rintro c _ hc _ happart rfl
  obtain ⟨doc, hdoc⟩ := exists_document hc
  exact happart hdoc hdoc

/-- **Neither the order of the entries nor that of their sources shows.** -/
theorem rearranged_eq (h : Rearranged ts ts')
    (hfree : CollisionFree host (computeTensionClusters host ts)) :
    computeTensionClusters host ts' = computeTensionClusters host ts := by
  have hsort : ∀ us : List TensionEntry, ∃ l, computeTensionClusters host us
      = Stable.sort compareClusters l ∧ l.Perm (computeTensionClusters host us) :=
    fun us => ⟨_, rfl, (Stable.sort_perm compareClusters _).symm⟩
  obtain ⟨l, hl, hperm⟩ := hsort ts
  obtain ⟨l', hl', hperm'⟩ := hsort ts'
  have hsame : (computeTensionClusters host ts).Perm (computeTensionClusters host ts') :=
    (List.perm_ext_iff_of_nodup (nodup_clusters host ts) (nodup_clusters host ts')).mpr
      fun c => ⟨h.cluster, h.symm.cluster⟩
  rw [hl, hl']
  refine (Stable.sort_eq_of_perm compareClusters (hperm.trans (hsame.trans hperm'.symm)) ?_).symm
  -- clusters that tie have one id, so one digest
  intro c hc c' hc' htie
  have hid : c.id = c'.id := by
    exact eq_of_comparePaths (Ordering.then_eq_eq.mp htie).2
  have hin := hperm.mem_iff.mp hc
  have hin' := hperm.mem_iff.mp hc'
  rw [id_eq hin, id_eq hin'] at hid
  have hdigest : host.digest c.documents = host.digest c'.documents :=
    List.append_cancel_left hid
  obtain ⟨doc, hdoc⟩ := exists_document hin
  exact cluster_unique hin hin' hdoc (hfree c hin c' hin' hdigest ▸ hdoc)

/-- The first digits of a hash have no collision when they have none on the joined
    documents and every source is one line, as the log writes it. -/
theorem collisionFree_of_hash {hash : Str → Str}
    (hdigest : ∀ members, host.digest members = (hash (['\n'].intercalate members)).take 8)
    (hfree : ∀ c ∈ computeTensionClusters host ts, ∀ c' ∈ computeTensionClusters host ts,
      (hash (['\n'].intercalate c.documents)).take 8
          = (hash (['\n'].intercalate c'.documents)).take 8 →
        ['\n'].intercalate c.documents = ['\n'].intercalate c'.documents)
    (hlines : ∀ t ∈ ts, '\n' ∉ t.sourceA ∧ '\n' ∉ t.sourceB) :
    CollisionFree host (computeTensionClusters host ts) := by
  intro c hc c' hc' he
  rw [hdigest, hdigest] at he
  have hsplit : ∀ c ∈ computeTensionClusters host ts,
      (['\n'].intercalate c.documents).splitOn '\n' = c.documents := by
    intro c hc
    refine List.splitOn_intercalate '\n' (fun doc hdoc => ?_) ?_
    · obtain ⟨t, ht, -, rfl | rfl⟩ := (components ts).populated c hc doc hdoc
      · exact (hlines t ht).1
      · exact (hlines t ht).2
    · obtain ⟨doc, hdoc⟩ := exists_document hc
      exact List.ne_nil_of_mem hdoc
  rw [← hsplit c hc, ← hsplit c' hc', hfree c hc c' hc' he]

/-- **Tension clusters are the connected components**: the loops end with them, and
    with the very same list for the entries in any order and either way round. -/
theorem clustersByLoops_components (host : Host M H) (tensions : List TensionEntry) :
    ∃ clusters, clustersByLoops host tensions = some clusters ∧ Components tensions clusters
      ∧ (CollisionFree host clusters → ∀ tensions', Rearranged tensions tensions' →
        clustersByLoops host tensions' = some clusters) := by
  refine ⟨_, clustersByLoops_eq tensions, components tensions, ?_⟩
  intro hfree tensions' h
  rw [clustersByLoops_eq, rearranged_eq h hfree]

end Rearranging

def plainHost : Host Unit Unit where
  ageInDays := fun _ => 3
  digest := fun members => members.flatten
  docMeta := fun _ => none
  readHeat := fun _ => none

def between (a b : String) : TensionEntry :=
  { blankEntry "2026-05-31".toList "prices".toList with
    sourceA := a.toList
    sourceB := b.toList }

/-- Two tensions with a document in common, and the same ones turned round. -/
theorem clusters_turned :
    clustersByLoops plainHost [between "b" "c", between "b" "a"] =
      clustersByLoops plainHost [between "a" "b", between "b" "c"] := by
  obtain ⟨clusters, hrun, -, hsame⟩ :=
    clustersByLoops_components plainHost [between "a" "b", between "b" "c"]
  have hone : clusters.length = 1 := by
    have hlen : (clustersByLoops plainHost [between "a" "b", between "b" "c"]).map List.length
        = some 1 := by decide +kernel
    rw [hrun] at hlen
    exact Option.some.inj hlen
  obtain ⟨c, rfl⟩ := List.length_eq_one_iff.mp hone
  rw [hrun]
  refine hsame ?_ _ ⟨[between "b" "c", between "a" "b"], List.Perm.swap _ _ _, ?_⟩
  · intro x hx y hy _
    rw [List.mem_singleton.mp hx, List.mem_singleton.mp hy]
  · exact .cons ⟨Or.inl ⟨rfl, rfl⟩, rfl, rfl, rfl, rfl⟩
      (.cons ⟨Or.inr ⟨rfl, rfl⟩, rfl, rfl, rfl, rfl⟩ .nil)

/-! ## The triage card -/

section Triage

variable {M H : Type} {host : Host M H} {docs : List LoadedDoc} {ts : List TensionEntry}

/-- The card shows every live tension once, in the cluster that has both of its sources. -/
structure ShowsEach (host : Host M H) (docs : List LoadedDoc) (ts : List TensionEntry)
    (card : TensionTriageResult M H) : Prop where
  each : (card.clusters.flatMap TriageCluster.tensions).Perm
    ((ts.filter inScope).map (enrich host docs (ts.filter inScope)))
  within : ∀ c ∈ card.clusters, ∀ t ∈ c.tensions, t.a.path ∈ c.documents ∧ t.b.path ∈ c.documents

theorem clusterOfDoc_eq {cs : List TensionCluster} {c : TensionCluster} {doc : Str}
    (hc : c ∈ cs) (hdoc : doc ∈ c.documents)
    (honly : ∀ c' ∈ cs, doc ∈ c'.documents → c' = c) : clusterOfDoc cs doc = some c.id := by
  unfold clusterOfDoc
  cases hfind : cs.reverse.find? fun c => doc ∈ c.documents with
  | none => simpa [hdoc] using List.find?_eq_none.mp hfind c (List.mem_reverse.mpr hc)
  | some c' =>
      have hdoc' : doc ∈ c'.documents := by simpa using List.find?_some hfind
      rw [honly c' (List.mem_reverse.mp (List.mem_of_find?_eq_some hfind)) hdoc']
      rfl

/-- **THE CARD SHOWS EVERY LIVE TENSION ONCE**, unless two clusters share a digest. -/
theorem triage_shows_each (hfree : CollisionFree host (computeTensionClusters host ts)) :
    ShowsEach host docs ts (computeTensionTriage host docs ts) := by
  have hsame : computeTensionClusters host (ts.filter inScope) =
      computeTensionClusters host ts := by
    unfold computeTensionClusters
    rw [List.filter_filter]
    simp only [Bool.and_self]
  have hid : ∀ c ∈ computeTensionClusters host ts, ∀ c' ∈ computeTensionClusters host ts,
      c.id = c'.id → c = c' := by
    intro c hc c' hc' he
    rw [id_eq hc, id_eq hc'] at he
    obtain ⟨doc, hdoc⟩ := exists_document hc
    exact cluster_unique hc hc' hdoc (hfree c hc c' hc' (List.append_cancel_left he) ▸ hdoc)
  have hof : ∀ t ∈ ts.filter inScope, ∃ c ∈ computeTensionClusters host ts,
      t.sourceA ∈ c.documents ∧ t.sourceB ∈ c.documents ∧
        clusterOfDoc (computeTensionClusters host ts) t.sourceA = some c.id := by
    intro t ht
    obtain ⟨ht, hscope⟩ := List.mem_filter.mp ht
    obtain ⟨c, hc, ha, hb⟩ := exists_cluster ht hscope
    exact ⟨c, hc, ha, hb, clusterOfDoc_eq hc ha fun c' hc' h' => cluster_unique hc' hc h' ha⟩
  constructor
  · have hkeys : ((computeTensionClusters host ts).map fun c => some c.id).Nodup :=
      (nodup_clusters host ts).map_on fun c hc c' hc' he => hid c hc c' hc' (Option.some.inj he)
    have hall := Groups.flatMap_filter_perm
      (fun t => clusterOfDoc (computeTensionClusters host ts) t.sourceA) hkeys
      (l := ts.filter inScope) fun t ht => by
        obtain ⟨c, hc, -, -, he⟩ := hof t ht
        exact List.mem_map.mpr ⟨c, hc, he.symm⟩
    rw [List.flatMap_map] at hall
    show (List.flatMap _ (List.map _ _)).Perm _
    rw [hsame, List.flatMap_map]
    refine (List.Perm.flatMap_left _ fun c _ => Stable.sort_perm compareTriage _).trans ?_
    rw [← List.map_flatMap]
    exact hall.map _
  · intro card hcard shown hshown
    obtain ⟨c, hc, rfl⟩ := List.mem_map.mp hcard
    obtain ⟨t, ht, rfl⟩ := List.mem_map.mp ((Stable.sort_perm compareTriage _).mem_iff.mp hshown)
    obtain ⟨ht, he⟩ := List.mem_filter.mp ht
    rw [hsame] at hc he
    obtain ⟨c', hc', ha, hb, he'⟩ := hof t ht
    rw [hid c hc c' hc' (Option.some.inj ((of_decide_eq_true he).symm.trans he'))]
    exact ⟨ha, hb⟩

end Triage

theorem triage_shows_each_turned : ShowsEach plainHost [] [between "b" "c", between "b" "a"]
    (computeTensionTriage plainHost [] [between "b" "c", between "b" "a"]) := by
  refine triage_shows_each fun c hc c' hc' _ => ?_
  have hone : (computeTensionClusters plainHost [between "b" "c", between "b" "a"]).length = 1 := by
    decide +kernel
  obtain ⟨d, hd⟩ := List.length_eq_one_iff.mp hone
  rw [hd] at hc hc'
  rw [List.mem_singleton.mp hc, List.mem_singleton.mp hc']

end Clusters
