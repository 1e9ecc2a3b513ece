import Daftari.Lib.ReachProofs
import Daftari.Tools.ReceiptProofs

/-! # Canon — what is settled and what is contested around a document

    A topic is what lies within some hops of a seed, along tensions and edges that are not revoked.
    The documents of the topic a caller can read, valid at a date and held by one of the holders
    asked for, are split: those in a tension with another of them are contested, the others are
    settled.

    * `topicEgoGraphFrom`, `resolveCanon`, `computeCanon`. -/

namespace Canon

open Tension Rbac Frontmatter Receipt

attribute [local instance] Text.decidableMem

abbrev TensionPair := Str × Str

/-- An edge, as far as a topic looks at it. -/
structure TopicEdge where
  fromPath : Str
  toPath : Str
  revoked : Bool

/-- `CanonDoc`, as far as the split looks at it. -/
structure CanonDoc where
  path : Str
  holder : String
  validFrom : Option String
  validUntil : Option String
  updated : String
  collection : String
deriving DecidableEq

/-- What the split looks up. -/
structure Host where
  receipt : Receipt.Host
  /-- `resolveHolder`, `isRegistered` and whether there are aliases at all. -/
  resolveHolder : String → String
  isRegistered : String → Bool
  hasAliases : Bool
  /-- Does `computeValidity` place a window around the date, or find none? -/
  inWindow : Option String → Option String → String → Bool
  localeCompare : String → String → Ordering

/-! ## Topics -/

/-- The links of a topic graph, in the order they are drawn. -/
def links (tensions : List TensionPair) (edges : List TopicEdge) : List (Str × Str) :=
  tensions ++ (edges.filter fun e => !e.revoked).map fun e => (e.fromPath, e.toPath)

/-- `buildAdjacencyFrom`, at one node. -/
def neighbours (drawn : List (Str × Str)) (node : Str) : List Str :=
  (drawn.flatMap fun l =>
    (if l.1 = node then [l.2] else []) ++ if l.2 = node then [l.1] else []).eraseDups

def topicEgoGraphFrom (tensions : List TensionPair) (edges : List TopicEdge) (seed : Str)
    (depth : Nat) : List Str :=
  seed :: (Layered.layers (neighbours (links tensions edges)) depth [seed] [seed]).flatten

/-! ## The split -/

structure TrajectoryNode where
  holder : String
  path : Str
  validFrom : Option String
  updated : String
deriving DecidableEq

structure SettledClaim where
  holder : String
  citations : List Str
deriving DecidableEq

structure CanonFlags where
  partialVisibility : Bool
  hiddenTensionCount : Nat
  unindexedPaths : List Str
  ghostHolders : List String
deriving DecidableEq

/-- `CanonResult`; a contested entry is its trajectory. -/
structure CanonResult where
  settled : List SettledClaim
  contested : List (List TrajectoryNode)
  flags : CanonFlags
deriving DecidableEq

section

variable (host : Host)

/-- The documents the split is over. -/
def inScopeDocs (docs : List CanonDoc) (holders : List String) (asOf : String) : List CanonDoc :=
  docs.filter fun d =>
    host.inWindow d.validFrom d.validUntil asOf && decide (host.resolveHolder d.holder ∈ holders)

def docAt (scope : List CanonDoc) (path : Str) : Option CanonDoc :=
  scope.reverse.find? fun d => d.path = path

def nodeOf (d : CanonDoc) : TrajectoryNode :=
  ⟨host.resolveHolder d.holder, d.path, d.validFrom, d.updated⟩

def compareNodes (x y : TrajectoryNode) : Ordering :=
  host.localeCompare (x.validFrom.getD "") (y.validFrom.getD "")

def contestedPairs (scope : List CanonDoc) (tensions : List TensionPair) :
    List (CanonDoc × CanonDoc) :=
  tensions.filterMap fun t =>
    (docAt scope t.1).bind fun a => (docAt scope t.2).map fun b => (a, b)

def contestedPaths (scope : List CanonDoc) (tensions : List TensionPair) : List Str :=
  (contestedPairs scope tensions).flatMap fun p => [p.1.path, p.2.path]

def resolveCanon (docs : List CanonDoc) (holders : List String) (asOf : String)
    (tensions : List TensionPair) (partialVisibility : Bool) (hiddenTensionCount : Nat)
    (unindexed : List Str) : CanonResult :=
  let scope := inScopeDocs host docs holders asOf
  { settled := (scope.filter fun d => d.path ∉ contestedPaths scope tensions).map fun d =>
      ⟨host.resolveHolder d.holder, [d.path]⟩
    contested := (contestedPairs scope tensions).map fun p =>
      Stable.sort (compareNodes host) [nodeOf host p.1, nodeOf host p.2]
    flags :=
      { partialVisibility := partialVisibility
        hiddenTensionCount := hiddenTensionCount
        unindexedPaths := unindexed
        ghostHolders := (((scope.map CanonDoc.holder).filter fun s =>
          !host.isRegistered s && host.hasAliases)).eraseDups } }

/-! ## The orchestrator -/

structure Loaded where
  path : Str
  frontmatter : Fields

/-- The collection of a document, for `canRead`. -/
def Loaded.collection (d : Loaded) : String :=
  collectionOf (String.ofList d.path) d.frontmatter

def toCanonDoc (d : Loaded) : CanonDoc where
  path := d.path
  holder := if d.frontmatter.updatedBy = "" then "unknown:unattributed"
    else d.frontmatter.updatedBy
  validFrom := d.frontmatter.validFrom
  validUntil := d.frontmatter.validUntil
  updated := d.frontmatter.updated
  collection := d.collection

def loadedAt (docs : List Loaded) (path : Str) : Option Loaded :=
  docs.reverse.find? fun d => d.path = path

/-- `readable`: a path that is not loaded is not. -/
def readable (docs : List Loaded) (access : Option AccessContext) (path : Str) : Bool :=
  match access with
  | none => true
  | some a => (loadedAt docs path).any fun d => canRead a.role d.collection

/-- `ComputeCanonArgs`, with the date of the call filled in. -/
structure ComputeCanonArgs where
  seed : Str
  holders : Option (List String)
  asOf : String
  depth : Nat

def pairsOf (entries : List TensionEntry) : List TensionPair :=
  entries.map fun t => (t.sourceA, t.sourceB)

def citedPaths (r : CanonResult) : List Str :=
  (r.settled.flatMap SettledClaim.citations
    ++ r.contested.flatMap fun t => t.map TrajectoryNode.path).eraseDups

/-- `computeCanon`; a receipt that fails is left out. -/
def computeCanon (docs : List Loaded) (entries : List TensionEntry) (edges : List TopicEdge)
    (args : ComputeCanonArgs) (access : Option AccessContext) :
    CanonResult × Option VaultReceiptResult :=
  let tensions := pairsOf entries
  let candidates := ((topicEgoGraphFrom tensions edges args.seed args.depth).filterMap
    (loadedAt docs)).map toCanonDoc
  let visible := match access with
    | none => candidates
    | some a => candidates.filter fun d => canRead a.role d.collection
  let touchingPairs := tensions.filter fun t =>
    t.1 ∈ candidates.map CanonDoc.path ∨ t.2 ∈ candidates.map CanonDoc.path
  let seen := touchingPairs.filter fun t => readable docs access t.1 && readable docs access t.2
  let hidden := touchingPairs.length - seen.length
  let consolidated := (tensions ++ edges.map fun e => (e.fromPath, e.toPath)).flatMap fun p =>
    [p.1, p.2]
  let unindexed := (visible.filter fun d => d.path ∉ consolidated).map CanonDoc.path
  let holders := args.holders.getD
    ((visible.map fun d => host.resolveHolder d.holder).eraseDups)
  let result := resolveCanon host visible holders args.asOf seen (0 < hidden) hidden unindexed
  (result, if citedPaths result = [] then none
    else (vaultReceipt host.receipt entries ((citedPaths result).map String.ofList) none
      access).toOption)

end

/-! ## What a topic and a split are -/

/-- **What is in a topic is connected to its seed.** -/
theorem mem_topic {tensions : List TensionPair} {edges : List TopicEdge} {seed x : Str}
    {depth : Nat} (h : x ∈ topicEgoGraphFrom tensions edges seed depth) :
    Layered.Leads (neighbours (links tensions edges)) seed x := by
  rcases List.mem_cons.mp h with rfl | h
  · exact Relation.ReflTransGen.refl
  · obtain ⟨-, s, hs, hsx⟩ := Layered.mem_layers h
    obtain rfl := List.mem_singleton.mp hs
    exact hsx

variable {host : Host}

theorem mem_neighbours {drawn : List (Str × Str)} {node x : Str} :
    x ∈ neighbours drawn node ↔ (node, x) ∈ drawn ∨ (x, node) ∈ drawn := by
  unfold neighbours
  rw [List.mem_eraseDups, List.mem_flatMap]
  constructor
  · rintro ⟨l, hl, hx⟩
    rcases List.mem_append.mp hx with hx | hx
    · by_cases h : l.1 = node
      · rw [if_pos h] at hx
        obtain rfl := List.mem_singleton.mp hx
        exact Or.inl (h ▸ hl)
      · rw [if_neg h] at hx
        exact absurd hx List.not_mem_nil
    · by_cases h : l.2 = node
      · rw [if_pos h] at hx
        obtain rfl := List.mem_singleton.mp hx
        exact Or.inr (h ▸ hl)
      · rw [if_neg h] at hx
        exact absurd hx List.not_mem_nil
  · rintro (h | h)
    · exact ⟨_, h, by simp⟩
    · exact ⟨_, h, by simp⟩

end Canon
