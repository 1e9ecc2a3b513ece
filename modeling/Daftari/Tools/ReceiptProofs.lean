import Daftari.Access.SpellingProofs
import Daftari.Curation.ProvenanceProofs
import Daftari.Curation.TensionLogProofs
import Daftari.Tools.WriteProofs

/-! # Receipts — what is known about the documents an answer cites

    A receipt lists each cited document with its own facts and with the open tensions that touch it,
    and flags what a reader should know.  A tension touches a document when one of its sources, as
    the log spells it, is the document's path. -/

namespace Receipt

open Tension Rbac Frontmatter Write

def maxReceiptPaths : Nat := 50

def maxClaimLength : Nat := 2000

inductive DecayLevel where
  | deprecated
  | warn
  | aging
deriving DecidableEq

inductive ChainResolution where
  | resolved (path title : String) (hops : Nat)
  | restricted
  | dangling (brokenAt : String)
  | cycle
deriving DecidableEq

/-- What a receipt looks up. -/
structure Host where
  resolveVaultPath : String → Except String String
  /-- A file's frontmatter and the digest of its bytes. -/
  read : String → Except String (Fields × String)
  computeDecay : Fields → Option DecayLevel
  /-- `resolveChain`, from a path and its `superseded_by`. -/
  resolveChain : String → Option String → ChainResolution
  agingTier : TensionEntry → Option Str
  /-- `collectionForPath`, over the index if there is one. -/
  collection : Path → String

structure ReceiptTension where
  id : Option Str
  title : Str
  kind : TensionKind
  date : Str
  agingTier : Option Str
deriving DecidableEq

structure ReceiptSource where
  path : String
  frontmatter : Fields
  collection : String
  version : String
  decay : Option DecayLevel
  currentSource : Option ChainResolution
  tensions : List ReceiptTension
deriving DecidableEq

structure ReceiptSummary where
  sourceCount : Nat
  byStatus : List (Status × Nat)
  openTensions : Nat
  oldestUpdated : Option String
  newestUpdated : Option String
  flags : List String
deriving DecidableEq

/-- The part of `VaultReceiptResult` that is read off the vault. -/
structure VaultReceiptResult where
  claim : Option String
  sources : List ReceiptSource
  summary : ReceiptSummary
deriving DecidableEq

def topCollection (relPath : String) : String := collectionForPath relPath.toList

/-- `fm.collection || topCollection(rel)`. -/
def collectionOf (rel : String) (fm : Fields) : String :=
  if fm.collection = "" then topCollection rel else fm.collection

def tensionIdentity (t : TensionEntry) : Str := t.id.getD (t.date ++ ':' :: t.title)

def openTensions (host : Host) (entries : List TensionEntry) (access : Option AccessContext) :
    List TensionEntry :=
  (entries.filter fun t => t.status = defaultTensionStatus).filter fun t =>
    canSeeTension host.collection access t.sourceA t.sourceB

def touching (tensions : List TensionEntry) (rel : String) : List TensionEntry :=
  tensions.filter fun t => t.sourceA = rel.toList ∨ t.sourceB = rel.toList

/-- `cites-contested`. -/
def contestedFlag : String := "cites-contested"

def ownFlags (fm : Fields) (decay : Option DecayLevel) (currentSource : Option ChainResolution) :
    List String :=
  (if fm.status = .deprecated then ["cites-deprecated"] else [])
    ++ (if fm.status = .archived then ["cites-archived"] else [])
    ++ (if fm.status = .draft then ["cites-draft"] else [])
    ++ (if currentSource.isSome then ["cites-superseded"] else [])
    ++ (if fm.confidence = .low then ["cites-low-confidence"] else [])
    ++ (if decay = some .warn then ["cites-stale"] else [])
    ++ (if decay = some .aging then ["cites-aging"] else [])
    ++ match currentSource with
      | none | some (.resolved ..) => []
      | some _ => ["supersession-unresolved"]

def ReceiptSource.flags (s : ReceiptSource) : List String :=
  ownFlags s.frontmatter s.decay s.currentSource
    ++ if s.tensions ≠ [] then [contestedFlag] else []

def receiptTension (host : Host) (t : TensionEntry) : ReceiptTension :=
  ⟨t.id, t.title, t.kind, t.date, host.agingTier t⟩

def sourceOf (host : Host) (tensions : List TensionEntry) (access : Option AccessContext)
    (rel : String) : Except String ReceiptSource := do
  let _ ← host.resolveVaultPath rel
  let (fm, version) ← host.read rel
  refuse (access.any fun a => !canRead a.role (collectionOf rel fm))
    ("access denied: role '" ++ (access.map AccessContext.roleName).getD ""
      ++ "' cannot read collection '" ++ collectionOf rel fm ++ "'")
  let onChain := fm.supersededBy.isSome || fm.status = .superseded
  return { path := rel
           frontmatter := fm
           collection := collectionOf rel fm
           version := version
           decay := host.computeDecay fm
           currentSource := if onChain then some (host.resolveChain rel fm.supersededBy) else none
           tensions := (touching tensions rel).map (receiptTension host) }

/-- The cited documents, in order; the first error ends the receipt. -/
def sourcesOf (host : Host) (tensions : List TensionEntry) (access : Option AccessContext) :
    List String → Except String (List ReceiptSource)
  | [] => .ok []
  | rel :: rest => do
      let s ← sourceOf host tensions access rel
      let more ← sourcesOf host tensions access rest
      return s :: more

def resolvedPaths (host : Host) : List String → Except String (List String)
  | [] => .ok []
  | p :: rest => do
      let rel ← host.resolveVaultPath p
      let more ← resolvedPaths host rest
      return rel :: more

/-- `summary`. -/
def summaryOf (tensions : List TensionEntry) (sources : List ReceiptSource) : ReceiptSummary :=
  let statuses := sources.map fun s => s.frontmatter.status
  let dates := Stable.sort Staleness.compareTexts
    ((sources.map fun s => s.frontmatter.updated).filter fun d => d ≠ "")
  { sourceCount := sources.length
    byStatus := statuses.eraseDups.map fun s => (s, statuses.count s)
    openTensions := ((sources.flatMap fun s =>
      (touching tensions s.path).map tensionIdentity).eraseDups).length
    oldestUpdated := dates.head?
    newestUpdated := dates.getLast?
    flags := Stable.sort Staleness.compareTexts
      (sources.flatMap ReceiptSource.flags).eraseDups }

/-- `vaultReceipt`; the anchor, the time, the hash and the signature are put on after. -/
def vaultReceipt (host : Host) (entries : List TensionEntry) (citations : List String)
    (claim : Option String) (access : Option AccessContext) :
    Except String VaultReceiptResult := do
  refuse (citations = []) "vault_receipt requires a non-empty 'paths' array"
  refuse ("" ∈ citations) "vault_receipt 'paths' entries must be non-empty strings"
  refuse (maxReceiptPaths < citations.length)
    ("vault_receipt accepts at most " ++ toString maxReceiptPaths ++ " paths")
  refuse (claim.any fun c => maxClaimLength < (Text.units c.toList).length)
    ("vault_receipt 'claim' exceeds " ++ toString maxClaimLength ++ " characters")
  let rels ← resolvedPaths host citations
  let tensions := openTensions host entries access
  let sources ← sourcesOf host tensions access rels.eraseDups
  return ⟨claim.filter fun c => c ≠ "", sources, summaryOf tensions sources⟩

end Receipt
