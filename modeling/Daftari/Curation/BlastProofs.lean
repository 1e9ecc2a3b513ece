import Daftari.Curation.Tier0Proofs
import Daftari.Curation.ProvenanceProofs
import Daftari.Lib.ReachProofs

/-! # Blast radius — what depends on a contested document

    A document depends on another when one of its sources or one of its links
    resolves to it.  The blast of some seeds is found by a walk, layer by layer,
    against these edges; seeds are never reported.

    * `mem_downstream_iff`: **the downstream paths are the documents that depend
      on a seed, in one step or more, and are no seed themselves**. -/

namespace Blast

open Tier0 SupersedeChains

/-- `LoadedDoc`: the path, `frontmatter.sources`, and what `extractLinks` finds in the body. -/
structure LoadedDoc where
  path : String
  sources : List String
  links : List String
deriving DecidableEq

def paths (docs : List LoadedDoc) : List String := docs.map LoadedDoc.path

def citesSource (docs : List LoadedDoc) (d : LoadedDoc) (target : String) : Bool :=
  d.sources.any fun raw =>
    match resolveVaultSourceRef (paths docs) raw d.path with
    | .vault _ (some found) => found = target
    | _ => false

def citesLink (docs : List LoadedDoc) (d : LoadedDoc) (target : String) : Bool :=
  d.links.any fun raw => resolveLink (paths docs) raw d.path = some target

/-- `buildReverseSourceMap`, at one target. -/
def reverseSource (docs : List LoadedDoc) (target : String) : List String :=
  paths (docs.filter fun d => citesSource docs d target && d.path ≠ target)

/-- `buildReverseLinkMap`, at one target. -/
def reverseLink (docs : List LoadedDoc) (target : String) : List String :=
  paths (docs.filter fun d => citesLink docs d target && d.path ≠ target)

/-- The documents that depend on a node directly. -/
def successors (docs : List LoadedDoc) (node : String) : List String :=
  reverseSource docs node ++ reverseLink docs node

inductive BlastDependencyType where
  | source
  | link
deriving DecidableEq

/-- Sources go before links. -/
def BlastDependencyType.rank : BlastDependencyType → Nat
  | .source => 0
  | .link => 1

structure BlastDownstreamEntry where
  path : String
  dependencyType : BlastDependencyType
  distance : Nat
deriving DecidableEq

/-- The order entries are reported in: near before far, sources before links. -/
def compareEntries (a b : BlastDownstreamEntry) : Ordering :=
  (compare a.distance b.distance).then <|
    (compare a.dependencyType.rank b.dependencyType.rank).then <|
      Staleness.compareTexts a.path b.path

structure ComputeBlastOutput where
  downstream : List BlastDownstreamEntry
  primaryBlast : Nat
  advisoryBlast : Nat
  maxDepth : Nat
deriving DecidableEq

/-- The layers of the walk; every document can be in one layer only. -/
def blastLayers (docs : List LoadedDoc) (seeds : List String) : List (List String) :=
  Layered.layers (successors docs) docs.length seeds seeds

/-- Is an entry reached by a source edge from a node that was visited? -/
def isPrimary (docs : List LoadedDoc) (visited : List String) (path : String) : Bool :=
  visited.any fun v => path ∈ reverseSource docs v

def layerEntries (docs : List LoadedDoc) (visited : List String) (layer : List String × Nat) :
    List BlastDownstreamEntry :=
  layer.1.map fun path =>
    ⟨path, if isPrimary docs visited path then .source else .link, layer.2 + 1⟩

def computeBlast (docs : List LoadedDoc) (seeds : List String) : ComputeBlastOutput :=
  let layers := blastLayers docs seeds
  let visited := seeds ++ layers.flatten
  let sorted := Stable.sort compareEntries
    (layers.zipIdx.flatMap (layerEntries docs visited))
  { downstream := sorted
    primaryBlast := (sorted.filter fun e => e.dependencyType = .source).length
    advisoryBlast := (sorted.filter fun e => e.dependencyType ≠ .source).length
    maxDepth := (sorted.map BlastDownstreamEntry.distance).foldl max 0 }

/-! ## What depends on what -/

def DependsOn (docs : List LoadedDoc) (a b : String) : Prop := a ∈ successors docs b

variable {docs : List LoadedDoc} {path : String}

theorem mem_paths_of_successors {node : String} (h : path ∈ successors docs node) :
    path ∈ paths docs := by
  have hof : ∀ p : LoadedDoc → Bool, path ∈ paths (docs.filter p) → path ∈ paths docs := by
    intro p hin
    obtain ⟨d, hd, rfl⟩ := List.mem_map.mp hin
    exact List.mem_map_of_mem (List.mem_of_mem_filter hd)
  rcases List.mem_append.mp h with h | h
  · exact hof _ h
  · exact hof _ h

theorem leads_iff {a b : String} :
    Layered.Leads (successors docs) b a ↔ Relation.ReflTransGen (DependsOn docs) a b :=
  Relation.reflTransGen_swap.symm

variable {seeds : List String}

theorem mem_downstream_paths :
    path ∈ (computeBlast docs seeds).downstream.map BlastDownstreamEntry.path ↔
      path ∈ (blastLayers docs seeds).flatten := by
  have hperm := (Stable.sort_perm compareEntries ((blastLayers docs seeds).zipIdx.flatMap
    (layerEntries docs (seeds ++ (blastLayers docs seeds).flatten)))).map
      BlastDownstreamEntry.path
  have hlayer : ∀ (visited : List String) (e : List String × Nat),
      (layerEntries docs visited e).map BlastDownstreamEntry.path = e.1 := by
    intro visited e
    rw [layerEntries, List.map_map]
    exact List.map_id _
  refine Iff.trans hperm.mem_iff ?_
  rw [List.map_flatMap]
  simp only [hlayer, List.mem_flatMap, List.mem_flatten]
  constructor
  · rintro ⟨e, he, hpath⟩
    exact ⟨e.1, List.fst_mem_of_mem_zipIdx he, hpath⟩
  · rintro ⟨layer, hlayer, hpath⟩
    obtain ⟨i, hi, rfl⟩ := List.mem_iff_getElem.mp hlayer
    exact ⟨((blastLayers docs seeds)[i], i),
      List.mem_zipIdx_iff_getElem?.mpr (List.getElem?_eq_getElem hi), hpath⟩

/-- **The blast of some seeds: all that depends on one of them, and is none.** -/
theorem mem_downstream_iff :
    path ∈ (computeBlast docs seeds).downstream.map BlastDownstreamEntry.path ↔
      path ∉ seeds ∧ ∃ s ∈ seeds, Relation.ReflTransGen (DependsOn docs) path s := by
  rw [mem_downstream_paths]
  refine (Layered.mem_layers_iff (fun a b hb => mem_paths_of_successors hb)
    (by rw [paths, List.length_map])).trans ?_
  simp only [leads_iff]

theorem mem_seeds_of_downstream_nil (h : (computeBlast docs seeds).downstream = []) {s : String}
    (hs : s ∈ seeds) (hpath : Relation.ReflTransGen (DependsOn docs) path s) : path ∈ seeds := by
  by_contra hout
  have hin := mem_downstream_iff.mpr ⟨hout, s, hs, hpath⟩
  rw [h] at hin
  exact List.not_mem_nil hin

end Blast
