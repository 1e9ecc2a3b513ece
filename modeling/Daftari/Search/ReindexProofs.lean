import Daftari.Access.RbacProofs
import Daftari.Frontmatter.DocumentProofs
import Daftari.Lib.MachineProofs
import Daftari.Lib.TableProofs

/-! # The search index — staging, rows, the freshness manifest

    `search/reindex.ts`: the index is a derived cache.  A full pass stages every listed file, writes
    the rows in one transaction and only then stats every file into the manifest; a single-file pass
    stages one file, writes its row and patches one entry of the manifest it has read.  A start that
    finds the manifest equal to the files' times takes the rows for true.

    Files change between any two steps of an operation, and several operations run at once.

    * `Op`: how far an operation has come, with everything it still holds;
    * `System.step?`: one atomic step of one operation, or one external change;
    * `System.isIndexFresh`: what a start asks. -/

namespace Search

open Frontmatter
open Rbac (isListed collectionOfPath)

/-! ## One file -/

structure IndexedDocument where
  path : String
  title : String
  collection : String
  domain : Domain
  status : Status
  confidence : Confidence
  updated : String
  tags : List String
  content : List Char
  tokens : List (List Char)
  ttlDays : Option String
  created : String
  supersededBy : Option String
  validFrom : Option String
  validUntil : Option String
deriving DecidableEq

def stopwords : List String :=
  ["a", "an", "and", "are", "as", "at", "be", "but", "by", "for", "from", "has", "have",
    "he", "her", "his", "in", "is", "it", "its", "of", "on", "or", "she", "that", "the",
    "their", "them", "they", "this", "to", "was", "were", "will", "with", "you", "your"]

/-- What the index is built with: the files' codec, the JSON texts of the checks, `toLowerCase`, the
    config's ignore list and schema extensions, and the fingerprint of its indexed fields. -/
structure Indexer (B : Type) where
  codec : Codec B
  json : Value → String
  toLowerCase : List Char → List Char
  ignored : String → Bool
  schemaExtensions : List SchemaExtension
  fingerprint : String

structure File (B : Type) where
  bytes : B
  mtime : Nat

variable {B : Type} (ix : Indexer B)

def tokenize (text : List Char) : List (List Char) :=
  ((ix.toLowerCase text).splitOnP fun c =>
      !(('a' ≤ c && c ≤ 'z') || ('0' ≤ c && c ≤ '9'))).filter fun t =>
    decide (1 < t.length) && !stopwords.contains (String.ofList t)

/-- `stageOne`: the document of a file that parses.  A frontmatter that breaks
    the schema is coerced, not refused. -/
def stageOne (relPath : String) (bytes : B) : Option IndexedDocument :=
  match parseDocument ix.codec ix.json bytes with
  | .error _ => none
  | .ok parsed =>
      let fm := (validateFrontmatter ix.json parsed.raw ix.schemaExtensions).1
      let body := parsed.content
      some
        { path := relPath
          title := fm.title
          collection := if fm.collection = "" then collectionOfPath relPath else fm.collection
          domain := fm.domain
          status := fm.status
          confidence := fm.confidence
          updated := fm.updated
          tags := fm.tags
          content := body
          tokens := tokenize ix (fm.title.toList ++ ' ' ::
            List.intercalate [' '] (fm.tags.map String.toList) ++ ' ' :: body)
          ttlDays := fm.ttlDays
          created := fm.created
          supersededBy := fm.supersededBy
          validFrom := fm.validFrom
          validUntil := fm.validUntil }

/-- The row `insertDocument` writes: the date columns are normalised or dropped. -/
def documentRow (doc : IndexedDocument) : IndexedDocument :=
  { doc with
    created := (normalizeIsoDate doc.created).getD ""
    updated := (normalizeIsoDate doc.updated).getD ""
    validFrom := doc.validFrom.bind normalizeIsoDate
    validUntil := doc.validUntil.bind normalizeIsoDate }

/-! ## Operations in progress -/

/-- The freshness manifest: a path's modification time. -/
abbrev Manifest := Table String Nat

inductive Op where
  /-- `reindexVault`: the files still to be read, and what the others gave. -/
  | staging (todo : List String) (staged : Table String IndexedDocument)
  /-- `reindexVault`: the rows are written, `buildManifest` is next. -/
  | written
  /-- `reindexVault`: the files still to be statted, and the manifest so far. -/
  | stating (todo : List String) (manifest : Manifest)
  /-- `indexDocument`: the file is staged. -/
  | staged (path : String) (doc : IndexedDocument)
  /-- `indexDocument`: the row is written and the manifest read. -/
  | patching (path : String) (stored : Manifest)
  /-- `indexDocument`: the file is statted. -/
  | stated (path : String) (stored : Manifest) (mtime : Nat)
deriving DecidableEq

/-- The vault's files, the tables of the index and the operations in flight. -/
structure System (B : Type) where
  /-- The next modification time. -/
  clock : Nat
  disk : Table String (File B)
  rows : Table String IndexedDocument
  /-- `indexed_fields_fingerprint` in the meta table. -/
  fieldsMeta : Option String
  /-- `vault_manifest` in the meta table. -/
  manifest : Option Manifest
  ops : Table Nat Op

/-- One atomic action: an external change, or a step of operation `id`. -/
inductive Action (B : Type) where
  | edit (path : String) (bytes : B)
  | delete (path : String)
  /-- `reindexVault` starts: `listFiles`. -/
  | reindex (id : Nat)
  | stage (id : Nat) (path : String)
  /-- It writes all rows (`writeChunkRows`) and the fingerprint. -/
  | writeRows (id : Nat)
  /-- `buildManifest` lists the files. -/
  | list (id : Nat)
  | stat (id : Nat) (path : String)
  /-- `writeManifest`, of the full pass or of the single file. -/
  | writeManifest (id : Nat)
  /-- `indexDocument` starts, up to its `stageOne`. -/
  | index (id : Nat) (path : String)
  /-- It writes the document's row and reads the manifest. -/
  | insert (id : Nat)

namespace System

variable (s : System B)

def listFiles : List String := s.disk.keys.filter (isListed ix.ignored)

def stagedNow (path : String) : Option IndexedDocument :=
  (s.disk.find path).bind fun f => stageOne ix path f.bytes

def mtimeOf (path : String) : Option Nat := (s.disk.find path).map File.mtime

def put (id : Nat) (op : Op) : System B := { s with ops := s.ops.set id op }

def drop (id : Nat) : System B := { s with ops := s.ops.erase id }

/-- `buildManifest` in one stretch. -/
def buildManifest : Manifest := .ofKeys (s.listFiles ix) s.mtimeOf

def evictDocument (path : String) : System B :=
  { s with
    rows := s.rows.erase path
    manifest := s.manifest.map fun m => if m.find path ≠ none then m.erase path else m }

def isIndexFresh : Bool :=
  if s.rows.entries.length = 0 then false
  else if s.fieldsMeta ≠ some ix.fingerprint then false
  else
    match s.manifest with
    | none => false
    | some stored => stored.agrees (s.buildManifest ix)

/-- `reindexVault` up to its listing. -/
def startReindex (id : Nat) : System B := s.put id (.staging (s.listFiles ix) .empty)

/-- `writeChunkRows`: the table is cleared and the staged documents inserted. -/
def writeRows (staged : Table String IndexedDocument) : System B :=
  { s with
    rows := .ofKeys staged.keys fun p => (staged.find p).map documentRow
    fieldsMeta := some ix.fingerprint }

/-- The start of `indexDocument`: an ignored path is evicted, an index that was never built or was
    built for other fields is rebuilt, a file that cannot be staged is an error. -/
def startIndex (id : Nat) (path : String) : System B :=
  if ix.ignored path then s.evictDocument path
  else if s.rows.entries.length ≠ 0 ∧ s.fieldsMeta ≠ some ix.fingerprint then
    s.startReindex ix id
  else if s.rows.entries.length = 0 then s.startReindex ix id
  else
    match s.stagedNow ix path with
    | none => s
    | some doc => s.put id (.staged path doc)

/-- One step; `none` where the action does not fit the state. -/
def step? : Action B → Option (System B)
  | .edit path bytes =>
      some { s with clock := s.clock + 1, disk := s.disk.set path ⟨bytes, s.clock⟩ }
  | .delete path => some { s with disk := s.disk.erase path }
  | .reindex id => if s.ops.find id = none then some (s.startReindex ix id) else none
  | .stage id path =>
      match s.ops.find id with
      | some (.staging todo staged) =>
          if path ∈ todo then
            some (s.put id (.staging (todo.filter (· ≠ path))
              (match s.stagedNow ix path with
                | some doc => staged.set path doc
                | none => staged)))
          else none
      | _ => none
  | .writeRows id =>
      match s.ops.find id with
      | some (.staging [] staged) => some ((s.writeRows ix staged).put id .written)
      | _ => none
  | .list id =>
      match s.ops.find id with
      | some .written => some (s.put id (.stating (s.listFiles ix) .empty))
      | _ => none
  | .stat id path =>
      match s.ops.find id with
      | some (.stating todo manifest) =>
          if path ∈ todo then
            some (match s.mtimeOf path with
              | some t => s.put id (.stating (todo.filter (· ≠ path)) (manifest.set path t))
              -- one file that cannot be statted, and no manifest is written
              | none => s.drop id)
          else none
      | some (.patching path' stored) =>
          if path' = path then
            some (match s.mtimeOf path with
              | some t => s.put id (.stated path stored t)
              -- the entry just stays stale
              | none => s.drop id)
          else none
      | _ => none
  | .writeManifest id =>
      match s.ops.find id with
      | some (.stating [] manifest) => some ({ s with manifest := some manifest }.drop id)
      | some (.stated path stored t) =>
          some ({ s with manifest := some (stored.set path t) }.drop id)
      | _ => none
  | .index id path => if s.ops.find id = none then some (s.startIndex ix id path) else none
  | .insert id =>
      match s.ops.find id with
      | some (.staged path doc) =>
          let t := { s with rows := s.rows.set path (documentRow doc) }
          some (match s.manifest with
            | some stored => t.put id (.patching path stored)
            | none => t.drop id)
      | _ => none

end System

/-- The vault with its index operations, as a machine. -/
def machine : Machine (System B) (Action B) where
  enabled s a := (s.step? ix a).isSome = true
  next s a := (s.step? ix a).getD s

instance (s : System B) (a : Action B) : Decidable ((machine ix).enabled s a) :=
  inferInstanceAs (Decidable ((s.step? ix a).isSome = true))

theorem step_of_enabled {s : System B} {a : Action B} (h : (machine ix).enabled s a) :
    s.step? ix a = some ((machine ix).next s a) := by
  obtain ⟨t, ht⟩ := Option.isSome_iff_exists.mp h
  show s.step? ix a = some ((s.step? ix a).getD s)
  rw [ht]
  rfl

/-- A vault whose index was never built, with any files in it. -/
def unbuilt (clock : Nat) (disk : Table String (File B)) : System B :=
  ⟨clock, disk, .empty, none, none, .empty⟩

end Search
