import Daftari.Canon.CanonProofs
import Daftari.Curation.PositionalLintProofs
import Daftari.Curation.TensionClustersProofs
import Daftari.Search.ContestedProofs

/-! # Logging a tension — one string, six readers

    `vault_tension_log` checks that its caller can read both sources, by their
    canonical form, and logs them as they were written.  What reads the log
    afterwards joins it to documents each in its own way.

    * `vaultTensionLog`, `Built`: the tool, and the log that calls of it build;
    * `seen_alike_iff`: **every respelling of a log is read alike exactly when
      the log is empty.** -/

namespace TensionTool

open Tension Rbac Write Contested

attribute [local instance] Text.decidableMem

/-! ## The tool -/

/-- The arguments; one that is no string is none. -/
structure LogArgs where
  title : Option Str
  sourceA : Option Str
  sourceB : Option Str
  claimA : Option Str
  claimB : Option Str
  agent : Option Str
  kind : Option Str

def str (field : String) (v : Option Str) : Except String Str :=
  match v.filter fun s => Text.trim s ≠ [] with
  | some s => .ok s
  | none => .error ("vault_tension_log requires a non-empty '" ++ field ++ "' argument")

def loggableTensionKinds : List TensionKind := [.temporal, .factual, .interpretive]

def hasAnyRead (role : Option RoleConfig) : Bool := role.any fun r => r.read ≠ []

def requireReadAccess (tool : String) (access : Option AccessContext) : Except String Unit :=
  refuse (access.any fun a => !hasAnyRead a.role)
    ("access denied: role '" ++ (access.map AccessContext.roleName).getD "" ++ "' cannot use "
      ++ tool)

def requireSide (collection : Path → String) (access : Option AccessContext) (side : Str) :
    Except String Unit :=
  refuse (access.any fun a => !sourceReadable collection a side)
    ("access denied: role '" ++ (access.map AccessContext.roleName).getD ""
      ++ "' cannot log a tension naming '" ++ String.ofList side ++ "'")

/-- `vaultTensionLog`, up to what it hands to `addTension`. -/
def vaultTensionLog (collection : Path → String) (access : Option AccessContext)
    (args : LogArgs) : Except String TensionInput := do
  requireReadAccess "vault_tension_log" access
  let title ← str "title" args.title
  let sourceA ← str "sourceA" args.sourceA
  let sourceB ← str "sourceB" args.sourceB
  let claimA ← str "claimA" args.claimA
  let claimB ← str "claimB" args.claimB
  let agent ← str "agent" args.agent
  let kind ← str "kind" args.kind
  refuse (kind ∉ loggableTensionKinds.map TensionKind.text)
    ("vault_tension_log 'kind' must be one of: temporal, factual, interpretive "
      ++ "(unspecified is for legacy entries only and is never loggable)")
  requireSide collection access sourceA
  requireSide collection access sourceB
  return { title := title, kind := kind, sourceA := sourceA, claimA := claimA,
           sourceB := sourceB, claimB := claimB, loggedBy := agent }

/-- A call of the tool: the index and the caller, the arguments, and the clock's date. -/
structure LogCall where
  collection : Path → String
  access : Option AccessContext
  args : LogArgs
  today : Str

/-- What a call does to the log; one that is refused does nothing. -/
def LogCall.toCall (c : LogCall) : Option Call :=
  (vaultTensionLog c.collection c.access c.args).toOption.map (Call.add c.today)

def builtLog (calls : List LogCall) : Log := Log.run (calls.filterMap LogCall.toCall)

/-- Its entries, as every reader parses them. -/
def builtEntries (calls : List LogCall) : List TensionEntry := (builtLog calls).entries

/-! ## The readers -/

/-- The vault around a log: what the readers look up besides. -/
structure Vault (M H : Type) where
  localeCompare : Str → Str → Ordering
  index : Option (Path → String)
  clusters : Clusters.Host M H
  blastDocs : List Blast.LoadedDoc
  canon : Canon.Host
  loaded : List Canon.Loaded
  edges : List Canon.TopicEdge

/-- Two logs that every reader reads alike. -/
structure SeenAlike {M H : Type} (v : Vault M H) (es es' : List TensionEntry) : Prop where
  contested : ∀ hitPath access, contestedFor v.localeCompare es' v.index hitPath access =
    contestedFor v.localeCompare es v.index hitPath access
  receipt : ∀ citations claim access,
    Receipt.vaultReceipt v.canon.receipt es' citations claim access =
      Receipt.vaultReceipt v.canon.receipt es citations claim access
  clusters : Clusters.computeTensionClusters v.clusters es' =
    Clusters.computeTensionClusters v.clusters es
  triage : Clusters.computeTensionTriage v.clusters v.blastDocs es' =
    Clusters.computeTensionTriage v.clusters v.blastDocs es
  blast : ∀ document, Clusters.computeTensionBlast v.clusters v.blastDocs es' document =
    Clusters.computeTensionBlast v.clusters v.blastDocs es document
  topic : ∀ seed depth, Canon.topicEgoGraphFrom (Canon.pairsOf es') v.edges seed depth =
    Canon.topicEgoGraphFrom (Canon.pairsOf es) v.edges seed depth
  canon : ∀ args access, Canon.computeCanon v.canon v.loaded es' v.edges args access =
    Canon.computeCanon v.canon v.loaded es v.edges args access
  positional : ∀ path positions, Positional.reconciliation es' path positions =
    Positional.reconciliation es path positions

/-! ## Respellings that are seen -/

theorem respelled_head {e : TensionEntry} {es : List TensionEntry} {s : Str}
    (h : canonicalRel s = canonicalRel e.sourceA) :
    Respelled (e :: es) ({ e with sourceA := s } :: es) := by
  refine .cons ⟨h.symm, rfl, rfl⟩ ?_
  induction es with
  | nil => exact .nil
  | cons e es ih => exact .cons ⟨rfl, rfl, rfl⟩ ih

theorem topic_alone {tensions : List Canon.TensionPair} {edges : List Canon.TopicEdge}
    {seed : Str} (h : ∀ l ∈ Canon.links tensions edges, l.1 ≠ seed ∧ l.2 ≠ seed)
    (depth : Nat) : Canon.topicEgoGraphFrom tensions edges seed depth = [seed] := by
  have hnone : ∀ x, x ∉ Canon.topicEgoGraphFrom tensions edges seed depth ∨ x = seed := by
    intro x
    rw [or_iff_not_imp_left, not_not]
    intro hx
    -- the first step away from the seed would be along a link that names it
    rcases Relation.ReflTransGen.cases_head (Canon.mem_topic hx) with heq | ⟨y, hy, -⟩
    · exact heq.symm
    · rcases Canon.mem_neighbours.mp hy with hl | hl
      · exact absurd rfl (h _ hl).1
      · exact absurd rfl (h _ hl).2
  unfold Canon.topicEgoGraphFrom at hnone ⊢
  cases hrest : (Layered.layers (Canon.neighbours (Canon.links tensions edges)) depth
      [seed] [seed]).flatten with
  | nil => rfl
  | cons y ys =>
      exfalso
      have hmem : y ∈ (Layered.layers (Canon.neighbours (Canon.links tensions edges)) depth
          [seed] [seed]).flatten := by
        rw [hrest]
        exact List.mem_cons_self
      have hy : y = seed := (hnone y).resolve_left
        (not_not.mpr (List.mem_cons_of_mem _ hmem))
      exact (Layered.mem_layers hmem).1 (by rw [hy]; exact List.mem_singleton_self _)

theorem mem_topic_of_link {tensions : List Canon.TensionPair} {edges : List Canon.TopicEdge}
    {seed x : Str} (h : (seed, x) ∈ Canon.links tensions edges) (hne : x ≠ seed) :
    x ∈ Canon.topicEgoGraphFrom tensions edges seed 1 := by
  have hfresh : x ∈ Layered.fresh [seed]
      ([seed].flatMap (Canon.neighbours (Canon.links tensions edges))) := by
    rw [Layered.mem_fresh]
    refine ⟨?_, fun hin => hne (List.mem_singleton.mp hin)⟩
    rw [List.flatMap_singleton]
    exact Canon.mem_neighbours.mpr (Or.inl h)
  refine List.mem_cons_of_mem _ ?_
  rw [Layered.layers]
  simp only [List.ne_nil_of_mem hfresh, if_false, List.flatten_cons]
  exact List.mem_append_left _ hfresh

/-- **Every respelling of a log is read alike exactly when there is nothing in the log.**
    In any other log the first source can be written as no source of the log and no end
    of an edge is, and around that spelling the topic graph gains a neighbour. -/
theorem seen_alike_iff {M H : Type} (v : Vault M H) (calls : List LogCall) :
    (∀ es', Respelled (builtEntries calls) es' → SeenAlike v (builtEntries calls) es') ↔
      builtEntries calls = [] := by
  constructor
  · intro h
    cases hes : builtEntries calls with
    | nil => rfl
    | cons e es =>
        exfalso
        rw [hes] at h
        obtain ⟨s, hs, -, hfresh⟩ := exists_spelling e.sourceA
          ((Canon.links (Canon.pairsOf (e :: es)) v.edges).flatMap fun l => [l.1, l.2])
        have hout : ∀ l ∈ Canon.links (Canon.pairsOf (e :: es)) v.edges,
            l.1 ≠ s ∧ l.2 ≠ s := by
          intro l hl
          constructor
          · rintro rfl
            exact hfresh (List.mem_flatMap.mpr ⟨l, hl, List.mem_cons_self⟩)
          · rintro rfl
            exact hfresh (List.mem_flatMap.mpr
              ⟨l, hl, List.mem_cons_of_mem _ (List.mem_singleton_self _)⟩)
        have hhead : (e.sourceA, e.sourceB) ∈
            Canon.links (Canon.pairsOf (e :: es)) v.edges :=
          List.mem_append_left _ List.mem_cons_self
        have hin : e.sourceB ∈ Canon.topicEgoGraphFrom
            (Canon.pairsOf ({ e with sourceA := s } :: es)) v.edges s 1 :=
          mem_topic_of_link (List.mem_append_left _ List.mem_cons_self) (hout _ hhead).2
        rw [(h _ (respelled_head hs)).topic s 1, topic_alone hout 1] at hin
        exact (hout _ hhead).2 (List.mem_singleton.mp hin)
  · intro hnil es' h
    rw [hnil] at h ⊢
    cases h
    exact ⟨fun _ _ => rfl, fun _ _ _ => rfl, rfl, rfl, fun _ => rfl, fun _ _ => rfl,
      fun _ _ => rfl, fun _ _ => rfl⟩

/-! ## One tension, spelled twice -/

def priceCall : LogCall where
  collection := collectionForPath
  access := none
  args :=
    { title := some "Price".toList
      sourceA := some "a.md".toList
      sourceB := some "b.md".toList
      claimA := some "ten".toList
      claimB := some "twelve".toList
      agent := some "agent:m".toList
      kind := some "factual".toList }
  today := "2026-08-01".toList

def priceEntry : TensionEntry :=
  newEntry (tensionId 1) "2026-08-01".toList .factual
    { title := "Price".toList, kind := "factual".toList, sourceA := "a.md".toList,
      claimA := "ten".toList, sourceB := "b.md".toList, claimB := "twelve".toList,
      loggedBy := "agent:m".toList }

def respelledLog : List TensionEntry := [{ priceEntry with sourceA := "./a.md".toList }]

def plainFields : Frontmatter.Fields := Frontmatter.coerce (fun _ => "") []

def aroundA : Canon.ComputeCanonArgs := ⟨"a.md".toList, none, "2026-08-01", 2⟩

def twoNotes : Vault Unit Unit where
  localeCompare := Clusters.comparePaths
  index := none
  clusters :=
    { ageInDays := fun _ => 0
      digest := List.flatten
      docMeta := fun _ => none
      readHeat := fun _ => none }
  blastDocs := [⟨"a.md", [], []⟩, ⟨"b.md", [], []⟩]
  canon :=
    { receipt :=
        { resolveVaultPath := fun p => .ok p
          read := fun _ => .ok (plainFields, "v1")
          computeDecay := fun _ => none
          resolveChain := fun _ _ => .cycle
          agingTier := fun _ => none
          collection := collectionForPath }
      resolveHolder := fun h => h
      isRegistered := fun _ => true
      hasAliases := false
      inWindow := fun _ _ _ => true
      localeCompare := Staleness.compareTexts }
  loaded := [⟨"a.md".toList, plainFields⟩, ⟨"b.md".toList, plainFields⟩]
  edges := []

/-- **A tension that only the annotation of hits still sees**: with `./a.md` in the log, the
    receipt for `a.md` is no longer contested, its blast names no cluster, and canon settles
    what it had contested. -/
theorem respelling_hides_tension :
    builtEntries [priceCall] = [priceEntry] ∧ Respelled [priceEntry] respelledLog ∧
      ((Receipt.vaultReceipt twoNotes.canon.receipt [priceEntry] ["a.md"] none none).toOption.map
          fun r => decide (Receipt.contestedFlag ∈ r.summary.flags)) = some true ∧
      ((Receipt.vaultReceipt twoNotes.canon.receipt respelledLog ["a.md"] none none).toOption.map
          fun r => decide (Receipt.contestedFlag ∈ r.summary.flags)) = some false ∧
      ((Clusters.computeTensionBlast twoNotes.clusters twoNotes.blastDocs [priceEntry]
          "a.md".toList).toOption.map fun r => r.clusterDocuments) =
        some ["a.md".toList, "b.md".toList] ∧
      ((Clusters.computeTensionBlast twoNotes.clusters twoNotes.blastDocs respelledLog
          "a.md".toList).toOption.map fun r => r.clusterDocuments) = some [] ∧
      (Canon.computeCanon twoNotes.canon twoNotes.loaded [priceEntry] [] aroundA
        none).1.contested.length = 1 ∧
      (Canon.computeCanon twoNotes.canon twoNotes.loaded respelledLog [] aroundA
        none).1.contested.length = 0 ∧
      ¬ SeenAlike twoNotes (builtEntries [priceCall]) respelledLog := by
  have hbuilt : builtEntries [priceCall] = [priceEntry] := by decide +kernel
  have hcontested : ((Receipt.vaultReceipt twoNotes.canon.receipt [priceEntry] ["a.md"] none
      none).toOption.map fun r => decide (Receipt.contestedFlag ∈ r.summary.flags)) =
      some true := by decide +kernel
  have hclear : ((Receipt.vaultReceipt twoNotes.canon.receipt respelledLog ["a.md"] none
      none).toOption.map fun r => decide (Receipt.contestedFlag ∈ r.summary.flags)) =
      some false := by decide +kernel
  refine ⟨hbuilt, respelled_head (by decide +kernel), hcontested, hclear,
    by decide +kernel, by decide +kernel, by decide +kernel, by decide +kernel, ?_⟩
  intro halike
  rw [hbuilt] at halike
  rw [halike.receipt, hcontested] at hclear
  exact absurd hclear (by decide)

end TensionTool
