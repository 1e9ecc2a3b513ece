import Daftari.Access.PathsProofs
import Daftari.Frontmatter.SchemaProofs
import Daftari.Lib.MachineProofs
import Daftari.Lib.TableProofs

/-! # The sync engine — push, manifest, restore

    `storage/sync.ts`: the working copy is pushed to a key-value backing.  A run hashes the local
    files, compares the hashes with the manifest the backing holds, puts what differs, deletes what
    is gone and writes the manifest last. A restore writes what the manifest lists into an empty
    directory and checks every object against its hash.

    * `readManifest`, `SyncManifest.toJson`: the manifest object, and `readManifest_toJson`: **what
      was written is read back**;
    * `State.step?`: one atomic step of a run, a stop of the run, or a change of a local file
      between runs. -/

namespace Sync

open Frontmatter (Value)
open Rbac (NormalPath RootOk lexicalRelative)

/-! ## Exclusion -/

def syncExcluded : List String :=
  [".daftari/process.lock", ".daftari/index.db", ".daftari/index.db-journal",
    ".daftari/index.db-wal", ".daftari/index.db-shm", ".daftari/locks.db",
    ".daftari/locks.db-journal", ".daftari/locks.db-wal", ".daftari/locks.db-shm",
    ".daftari/backfill-plan.jsonl", ".daftari/wake-queue.jsonl",
    ".daftari/consolidate-state.json"]

def moduleExtensions : List String := [".mjs", ".cjs", ".js"]

/-- `isExcluded`.  No letter outside ASCII has one of the extensions' letters as its lower case. -/
def isExcluded (relPath : String) : Bool :=
  syncExcluded.contains relPath
    || relPath == ".git/config"
    || ".git/hooks/".toList.isPrefixOf relPath.toList
    || moduleExtensions.any (fun ext =>
      ext.toList.isSuffixOf (relPath.toList.map Char.toLower))
    || (relPath.toList.splitOn '/').contains "node_modules".toList

/-! ## The manifest -/

/-- `SyncManifest`: vault-relative path to hash. -/
abbrev SyncManifest := Table String String

/-- `Object.entries`. -/
def entriesOf : Value → List (String × Value)
  | .obj fields => fields
  | .arr items => items.zipIdx.map fun e => (toString e.2, e.1)
  | _ => []

def addEntry (files : SyncManifest) (entry : String × Value) : SyncManifest :=
  match entry.2 with
  | .str hash => files.set entry.1 hash
  | _ => files

def stringEntries (entries : List (String × Value)) : SyncManifest :=
  entries.foldl addEntry .empty

def unknownShape : String := "backing manifest at meta/manifest.json has an unknown shape"

/-- `readManifest`, of the object at `MANIFEST_KEY`: nothing, a text that is not
    JSON, or a value. -/
def readManifest : Option (Except String Value) → Except String SyncManifest
  | none => .ok .empty
  | some (.error reason) => .error ("backing manifest is not valid JSON: " ++ reason)
  | some (.ok .null) => .error ("backing manifest is not valid JSON: "
      ++ "Cannot read properties of null (reading 'version')")
  | some (.ok (.obj fields)) =>
      if fields.lookup "version" ≠ some (.num "1" true) then .error unknownShape
      else
        match fields.lookup "files" with
        | some (.obj files) => .ok (stringEntries (entriesOf (.obj files)))
        | some (.arr items) => .ok (stringEntries (entriesOf (.arr items)))
        | _ => .error unknownShape
  | some (.ok _) => .error unknownShape

def SyncManifest.toJson (m : SyncManifest) : Value :=
  .obj [("version", .num "1" true), ("files", .obj (m.entries.map fun e => (e.1, .str e.2)))]

private theorem entries_foldl_addEntry (rest : List (String × String)) (acc : SyncManifest)
    (hnd : (Assoc.keys (acc.entries ++ rest)).Nodup) :
    ((rest.map fun e => (e.1, Value.str e.2)).foldl addEntry acc).entries
      = acc.entries ++ rest := by
  induction rest generalizing acc with
  | nil =>
      rw [List.append_nil]
      rfl
  | cons e rest ih =>
      have hnew : e.1 ∉ Assoc.keys acc.entries := by
        unfold Assoc.keys at hnd ⊢
        rw [List.map_append, List.map_cons, List.nodup_append] at hnd
        intro hmem
        exact hnd.2.2 _ hmem _ List.mem_cons_self rfl
      have hset : (acc.set e.1 e.2).entries = acc.entries ++ [e] :=
        Assoc.set_of_not_mem e.2 hnew
      show (List.foldl addEntry (acc.set e.1 e.2) _).entries = _
      rw [ih _ (by rw [hset, List.append_assoc]; exact hnd), hset, List.append_assoc]
      rfl

theorem stringEntries_map (m : SyncManifest) :
    stringEntries (m.entries.map fun e => (e.1, .str e.2)) = m := by
  obtain ⟨entries, hnd⟩ := m
  have hentries := entries_foldl_addEntry entries .empty hnd
  unfold stringEntries
  cases hf : (entries.map fun e => (e.1, Value.str e.2)).foldl addEntry .empty with
  | mk entries' hnd' =>
      rw [hf] at hentries
      obtain rfl : entries' = entries := hentries
      rfl

/-- **What was written is read back.** -/
theorem readManifest_toJson (m : SyncManifest) : readManifest (some (.ok m.toJson)) = .ok m := by
  have hfiles : readManifest (some (.ok m.toJson)) = .ok (stringEntries (entriesOf
      (.obj (m.entries.map fun e => (e.1, .str e.2))))) := by
    rfl
  exact congrArg Except.ok (stringEntries_map m)

/-! ## A run -/

/-- What a run needs to know of bytes: their sha256 as hex and their number. -/
structure Hashing (B : Type) where
  sha : B → String
  size : B → Nat

structure LocalFile (B : Type) where
  bytes : B
  mtime : Nat

/-- An entry of `hashMemo`. -/
structure Memo where
  size : Nat
  mtime : Nat
  hash : String

/-- The backing: the object at `MANIFEST_KEY`, and the objects under `tree/`. -/
structure Backing (B : Type) where
  manifest : Option (Except String Value)
  objects : Table String B

/-- A run after it has compared the two sides: the hash of each local file, the
    paths still to be put and the paths still to be deleted. -/
structure Run where
  localHashes : SyncManifest
  toUpload : List String
  toDelete : List String

/-- The vault's regular files, the process's memo, the backing and the run in progress. -/
structure State (B : Type) where
  files : Table String (LocalFile B)
  memo : Table String Memo
  backing : Backing B
  run : Option Run

inductive Action (B : Type) where
  /-- A local file is created, edited or reverted. -/
  | write (path : String) (bytes : B) (mtime : Nat)
  | remove (path : String)
  | restart
  /-- `syncVault` walks, hashes, reads the manifest and compares. -/
  | start
  | put (path : String)
  | delete (path : String)
  /-- The manifest is put and the run returns ok. -/
  | commit
  /-- The run stops: a crash, or an error of the backing. -/
  | stop

/-- Is `q` below the directory `p`? -/
def Under (p q : String) : Prop := p.toList ++ ['/'] <+: q.toList

instance (p q : String) : Decidable (Under p q) :=
  inferInstanceAs (Decidable (List.IsPrefix _ _))

/-- A file cannot be a directory of another one. -/
def conflicts {α : Type} (files : Table String α) (p : String) : Bool :=
  files.keys.any fun q => decide (Under q p) || decide (Under p q)

variable {B : Type} (h : Hashing B)

/-- `hashFile`: the memoised hash when size and time are the memoised ones. -/
def hashFile (memo : Table String Memo) (path : String) (f : LocalFile B) : String :=
  match memo.find path with
  | some m => if m.size = h.size f.bytes ∧ m.mtime = f.mtime then m.hash else h.sha f.bytes
  | none => h.sha f.bytes

namespace State

variable (s : State B)

def candidates : List String := s.files.keys.filter (!isExcluded ·)

/-- `collectLocalState`: the hashes. -/
def localHashes : SyncManifest :=
  .ofKeys s.candidates fun p => (s.files.find p).map (hashFile h s.memo p)

/-- The memo after the walk: entries of files that are gone are evicted. -/
def nextMemo : Table String Memo :=
  .ofKeys s.candidates fun p => (s.files.find p).map fun f =>
    ⟨h.size f.bytes, f.mtime, hashFile h s.memo p f⟩

/-- `toUpload` and `toDelete`. -/
def plan (remote : SyncManifest) : Run :=
  let mine := s.localHashes h
  { localHashes := mine
    toUpload := mine.keys.filter fun p => remote.find p ≠ mine.find p
    toDelete := remote.keys.filter fun p => mine.find p = none }

/-- One step; `none` where the action does not fit the state.  Files change between runs only. -/
def step? : Action B → Option (State B)
  | .write path bytes mtime =>
      match s.run with
      | some _ => none
      | none =>
          if NormalPath path.toList ∧ conflicts s.files path = false then
            some { s with files := s.files.set path ⟨bytes, mtime⟩ }
          else none
  | .remove path =>
      match s.run with
      | some _ => none
      | none => some { s with files := s.files.erase path }
  | .restart => some { s with memo := .empty, run := none }
  | .start =>
      match s.run with
      | some _ => none
      | none =>
          match readManifest s.backing.manifest with
          | .error _ => some { s with memo := s.nextMemo h }
          | .ok remote => some { s with memo := s.nextMemo h, run := some (s.plan h remote) }
  | .put path =>
      match s.run with
      | none => none
      | some r =>
          if path ∈ r.toUpload then
            match s.files.find path with
            | none => some { s with run := none }
            -- the file is read and hashed again
            | some f => some
                { s with
                  backing := { s.backing with objects := s.backing.objects.set path f.bytes }
                  run := some
                    { r with
                      localHashes := r.localHashes.set path (h.sha f.bytes)
                      toUpload := r.toUpload.filter (· ≠ path) } }
          else none
  | .delete path =>
      match s.run with
      | none => none
      | some r =>
          if r.toUpload = [] ∧ path ∈ r.toDelete then
            some
              { s with
                backing := { s.backing with objects := s.backing.objects.erase path }
                run := some { r with toDelete := r.toDelete.filter (· ≠ path) } }
          else none
  | .commit =>
      match s.run with
      | none => none
      | some r =>
          if r.toUpload = [] ∧ r.toDelete = [] then
            some
              { s with
                backing := { s.backing with manifest := some (.ok r.localHashes.toJson) }
                run := none }
          else none
  | .stop => some { s with run := none }

end State

def machine : Machine (State B) (Action B) where
  enabled s a := (s.step? h a).isSome = true
  next s a := (s.step? h a).getD s

instance (s : State B) (a : Action B) : Decidable ((machine h).enabled s a) :=
  inferInstanceAs (Decidable ((s.step? h a).isSome = true))

theorem step_of_enabled {s : State B} {a : Action B} (hs : (machine h).enabled s a) :
    s.step? h a = some ((machine h).next s a) := by
  obtain ⟨t, ht⟩ := Option.isSome_iff_exists.mp hs
  show s.step? h a = some ((s.step? h a).getD s)
  rw [ht]
  rfl

/-- A vault without files, a backing without objects. -/
def fresh : State B := ⟨.empty, .empty, ⟨none, .empty⟩, none⟩

/-! ## Restoring -/

/-- A restore root by its segments. -/
abbrev Root := { root : List Rbac.Path // RootOk root }

/-- `relative(root, resolve(root, relPath))`. -/
def targetOf (root : Root) (relPath : String) : String :=
  String.ofList (lexicalRelative root.1 relPath.toList)

/-- The confinement test. -/
def escapes (root : Root) (relPath : String) : Bool :=
  let rel := lexicalRelative root.1 relPath.toList
  decide (rel = []) || ['.', '.'].isPrefixOf rel || decide (rel.head? = some '/')

/-- `mkdir` and `writeFile`, which fail where a directory is a file or a file a directory. -/
def place (tree : Table String B) (path : String) (bytes : B) : Option (Table String B) :=
  if conflicts tree path then none else some (tree.set path bytes)

/-- One task of `restoreVault`. -/
def restoreTask (root : Root) (manifest : SyncManifest) (objects : Table String B)
    (relPath : String) (tree : Table String B) : Except String (Table String B) :=
  if escapes root relPath then .error ("manifest path escapes restore root: " ++ relPath)
  else
    match objects.find relPath with
    | none => .error ("backing is missing tree/" ++ relPath ++ " listed in its manifest")
    | some bytes =>
        if manifest.find relPath ≠ some (h.sha bytes) then
          .error ("backing object tree/" ++ relPath ++ " does not match its manifest hash")
        else
          match place tree (targetOf root relPath) bytes with
          | none => .error ("cannot write " ++ relPath)
          | some tree => .ok tree

/-- A task ends: what it wrote stays, and the first error is kept. -/
def taskEnds (root : Root) (manifest : SyncManifest) (objects : Table String B)
    (acc : Table String B × Except String Unit) (relPath : String) :
    Table String B × Except String Unit :=
  match restoreTask h root manifest objects relPath acc.1 with
  | .ok tree => (tree, acc.2)
  | .error e => (acc.1, acc.2.bind fun _ => .error e)

def restorePaths (manifest : SyncManifest) : List String :=
  manifest.keys.filter (!isExcluded ·)

/-- `restoreVault`: the tree it leaves and its result, when the tasks of `order`
    end in that order. -/
def restoreVault (root : Root) (existing : List String) (backing : Backing B)
    (order : List String) : Table String B × Except String Unit :=
  if existing ≠ [] then (.empty, .error "refusing to restore into non-empty directory")
  else
    match readManifest backing.manifest with
    | .error e => (.empty, .error e)
    | .ok manifest =>
        if manifest.keys = [] then
          (.empty, .error "backing holds no manifest — nothing to restore")
        else order.foldl (taskEnds h root manifest backing.objects) (.empty, .ok ())

end Sync
