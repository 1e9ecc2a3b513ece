import Daftari.Curation.BlastProofs
import Daftari.Curation.TensionLogProofs
import Daftari.Lib.ClassesProofs

/-! # Tension clusters — where contradictions hang together

    A cluster is what the live contested tensions connect.  Sources are joined
    as the log spells them; the same clusters group the triage card, and tell
    the blast radius of a document which cluster it is in.

    * `computeTensionClusters`, `computeTensionTriage`, `computeTensionBlast`;
    * `mem_cluster_iff`: **two sources are in one cluster exactly when live
      tensions connect them.** -/

namespace Clusters

open Tension Blast

attribute [local instance] Text.decidableMem

/-- The clock and the digests, and what the triage looks up for a document. -/
structure Host (M H : Type) where
  /-- `ageInDays`, at the moment of the call. -/
  ageInDays : Str → Int
  /-- The first eight hex digits of the digest of the members. -/
  digest : List Str → Str
  docMeta : Str → Option M
  readHeat : Str → Option H

/-- Does a tension take part in clusters? -/
def inScope (entry : TensionEntry) : Bool :=
  if entry.resolved then false
  else if entry.resolution.map TensionResolution.kind = some .accepted then false
  else if entry.sourceA = entry.sourceB then false
  else entry.sourceA ≠ [] ∧ entry.sourceB ≠ []

/-- `TENSION_KINDS`, in the source's order. -/
def tensionKinds : List TensionKind :=
  [.temporal, .factual, .interpretive, .interProposal, .positional, .unspecified]

structure TensionCluster where
  id : Str
  size : Nat
  documents : List Str
  tensionCount : Nat
  kinds : List Nat
  oldestTensionAgeDays : Int
  newestTensionAgeDays : Int
deriving DecidableEq

/-- `a < b` on paths, as `sort` and the comparators of the source see it. -/
def comparePaths (a b : Str) : Ordering :=
  Staleness.compareTexts (String.ofList a) (String.ofList b)

/-- The order of clusters: the largest first, ties by id. -/
def compareClusters (a b : TensionCluster) : Ordering :=
  (compare b.size a.size).then (comparePaths a.id b.id)

def pairs (live : List TensionEntry) : List (Str × Str) :=
  live.map fun t => (t.sourceA, t.sourceB)

/-- The union-find over the sources of the tensions in scope. -/
def rootsOf (live : List TensionEntry) : Classes.Roots Str :=
  Classes.Roots.unions (pairs live)

/-- The roots, in the order of their first members. -/
def groups (live : List TensionEntry) : List Str :=
  ((rootsOf live).keys.map (rootsOf live).find).eraseDups

section

variable {M H : Type} (host : Host M H)

def clusterIdFor (members : List Str) : Str := "cluster:".toList ++ host.digest members

def clusterOf (live : List TensionEntry) (root : Str) : TensionCluster :=
  let members := Stable.sort comparePaths
    ((rootsOf live).keys.filter fun doc => (rootsOf live).find doc = root)
  let tensions := live.filter fun t =>
    (rootsOf live).find t.sourceA = root ∧ (rootsOf live).find t.sourceB = root
  let ages := tensions.map fun t => host.ageInDays t.date
  { id := clusterIdFor host members
    size := members.length
    documents := members
    tensionCount := tensions.length
    kinds := tensionKinds.map fun k => (tensions.filter fun t => t.kind = k).length
    oldestTensionAgeDays := ages.foldl max 0
    newestTensionAgeDays := match ages with
      | [] => 0
      | age :: rest => rest.foldl min age }

def computeTensionClusters (tensions : List TensionEntry) : List TensionCluster :=
  let live := tensions.filter inScope
  Stable.sort compareClusters ((groups live).map (clusterOf host live))

/-! ## The triage card -/

/-- `TriageBlast`, without the hidden part, which is not computed here. -/
structure TriageBlast where
  primaryBlast : Nat
  advisoryBlast : Nat
deriving DecidableEq

/-- `TriageSide`: the fields looked up for the path are null when it is unknown. -/
structure TriageSide (M H : Type) where
  path : Str
  claim : Str
  docMeta : Option M
  readHeat : Option H

structure TriageTension (M H : Type) where
  id : Str
  title : Str
  kind : TensionKind
  ageDays : Int
  a : TriageSide M H
  b : TriageSide M H
  blast : Option TriageBlast

structure TriageCluster (M H : Type) where
  clusterId : Str
  documents : List Str
  tensions : List (TriageTension M H)

structure TensionTriageResult (M H : Type) where
  tensionCount : Nat
  clusters : List (TriageCluster M H)

def sideFor (path claim : Str) : TriageSide M H :=
  ⟨path, claim, host.docMeta path, host.readHeat path⟩

def blastOfPair (docs : List LoadedDoc) (t : TensionEntry) : TriageBlast :=
  let blast := computeBlast docs [String.ofList t.sourceA, String.ofList t.sourceB]
  ⟨blast.primaryBlast, blast.advisoryBlast⟩

/-- `blastByTension`: the last tension in scope with the id decides. -/
def blastByTension (docs : List LoadedDoc) (live : List TensionEntry) (id : Str) :
    Option TriageBlast :=
  (live.reverse.find? fun t => t.id = some id).map (blastOfPair docs)

def enrich (docs : List LoadedDoc) (live : List TensionEntry) (t : TensionEntry) :
    TriageTension M H where
  id := t.id.getD []
  title := t.title
  kind := t.kind
  ageDays := host.ageInDays t.date
  a := sideFor host t.sourceA t.claimA
  b := sideFor host t.sourceB t.claimB
  blast := t.id.bind fun id => if id = [] then none else blastByTension docs live id

/-- The order within a cluster: the oldest first, ties by id. -/
def compareTriage (x y : TriageTension M H) : Ordering :=
  if y.ageDays ≠ x.ageDays then compare y.ageDays x.ageDays
  else if Text.lt (String.ofList x.id) (String.ofList y.id) then .lt else .gt

/-- `clusterOfDoc`: the last cluster that lists the document. -/
def clusterOfDoc (clusters : List TensionCluster) (doc : Str) : Option Str :=
  (clusters.reverse.find? fun c => doc ∈ c.documents).map TensionCluster.id

def computeTensionTriage (docs : List LoadedDoc) (tensions : List TensionEntry) :
    TensionTriageResult M H :=
  let live := tensions.filter inScope
  let clusters := computeTensionClusters host live
  { tensionCount := live.length
    clusters := clusters.map fun c =>
      ⟨c.id, c.documents, Stable.sort compareTriage
        ((live.filter fun t => clusterOfDoc clusters t.sourceA = some c.id).map
          (enrich host docs live))⟩ }

/-! ## The blast of a document -/

/-- `TensionBlastResult`, for a document. -/
structure TensionBlastResult where
  contestedDocument : Str
  clusterId : Option Str
  clusterDocuments : List Str
  blast : ComputeBlastOutput
deriving DecidableEq

/-- `computeTensionBlast`, for a document. -/
def computeTensionBlast (docs : List LoadedDoc) (tensions : List TensionEntry)
    (document : Str) : Except String TensionBlastResult :=
  if String.ofList document ∉ paths docs then
    .error ("vault_tension_blast: document not found in vault: " ++ String.ofList document)
  else
    let containing := (computeTensionClusters host tensions).find? fun c =>
      document ∈ c.documents
    .ok ⟨document, containing.map TensionCluster.id,
      (containing.map TensionCluster.documents).getD [],
      computeBlast docs [String.ofList document]⟩

end

/-! ## What a cluster is -/

section

variable {M H : Type} {host : Host M H}

theorem mem_clusterOf_documents {live : List TensionEntry} {root doc : Str} :
    doc ∈ (clusterOf host live root).documents ↔
      doc ∈ (rootsOf live).keys ∧ (rootsOf live).find doc = root := by
  show doc ∈ Stable.sort comparePaths _ ↔ _
  rw [(Stable.sort_perm comparePaths _).mem_iff, List.mem_filter, decide_eq_true_iff]

variable {tensions : List TensionEntry}

theorem mem_computeTensionClusters {c : TensionCluster} : c ∈ computeTensionClusters host tensions ↔
      ∃ root ∈ groups (tensions.filter inScope),
        clusterOf host (tensions.filter inScope) root = c := by
  show c ∈ Stable.sort compareClusters _ ↔ _
  rw [(Stable.sort_perm compareClusters _).mem_iff, List.mem_map]

/-- **Two sources are in one cluster exactly when live tensions connect them.** -/
theorem mem_cluster_iff {a b : Str} :
    (∃ c ∈ computeTensionClusters host tensions, a ∈ c.documents ∧ b ∈ c.documents) ↔
      (∃ t ∈ tensions, inScope t = true ∧ (a = t.sourceA ∨ a = t.sourceB)) ∧
        (∃ t ∈ tensions, inScope t = true ∧ (b = t.sourceA ∨ b = t.sourceB)) ∧
        Classes.Connected (pairs (tensions.filter inScope)) a b := by
  have hkeys : ∀ x, x ∈ (rootsOf (tensions.filter inScope)).keys ↔
      ∃ t ∈ tensions, inScope t = true ∧ (x = t.sourceA ∨ x = t.sourceB) := by
    intro x
    rw [rootsOf, Classes.Roots.mem_keys_unions]
    constructor
    · rintro ⟨p, hp, hx⟩
      obtain ⟨t, ht, rfl⟩ := List.mem_map.mp hp
      exact ⟨t, (List.mem_filter.mp ht).1, (List.mem_filter.mp ht).2, hx⟩
    · rintro ⟨t, ht, hscope, hx⟩
      exact ⟨_, List.mem_map_of_mem (List.mem_filter.mpr ⟨ht, hscope⟩), hx⟩
  have hsame : (rootsOf (tensions.filter inScope)).find a =
      (rootsOf (tensions.filter inScope)).find b ↔
        Classes.Connected (pairs (tensions.filter inScope)) a b := Classes.same_unions
  rw [← hkeys a, ← hkeys b, ← hsame]
  constructor
  · rintro ⟨c, hc, ha, hb⟩
    obtain ⟨root, -, rfl⟩ := mem_computeTensionClusters.mp hc
    obtain ⟨hka, hra⟩ := mem_clusterOf_documents.mp ha
    obtain ⟨hkb, hrb⟩ := mem_clusterOf_documents.mp hb
    exact ⟨hka, hkb, hra.trans hrb.symm⟩
  · rintro ⟨hka, hkb, heq⟩
    refine ⟨_, mem_computeTensionClusters.mpr
      ⟨(rootsOf (tensions.filter inScope)).find a, ?_, rfl⟩, ?_, ?_⟩
    · exact List.mem_eraseDups.mpr (List.mem_map_of_mem hka)
    · exact mem_clusterOf_documents.mpr ⟨hka, rfl⟩
    · exact mem_clusterOf_documents.mpr ⟨hkb, heq.symm⟩

theorem exists_cluster {t : TensionEntry} (ht : t ∈ tensions) (hscope : inScope t = true) :
    ∃ c ∈ computeTensionClusters host tensions,
      t.sourceA ∈ c.documents ∧ t.sourceB ∈ c.documents := by
  refine mem_cluster_iff.mpr ⟨⟨t, ht, hscope, Or.inl rfl⟩, ⟨t, ht, hscope, Or.inr rfl⟩, ?_⟩
  exact .rel _ _ (List.mem_map.mpr ⟨t, List.mem_filter.mpr ⟨ht, hscope⟩, rfl⟩)

end

end Clusters
