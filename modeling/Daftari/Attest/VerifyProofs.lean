import Daftari.Lib.JsonTextProofs
import Daftari.Storage.ConfinementProofs

/-! # Verifying a bundle — what an attestation says of a vault

    A bundle is JSON from anywhere: a manifest, the key that signed it, and the signature.  Its
    shape is looked at down to the key and the signature's text; the list of documents is taken as
    it comes, once the signature has been verified.

    * `verifyBundle`: the report and the paths that were opened, or the error that is not caught;
    * `verify_sound_iff`: **when verification is total, confined, complete and honest.** -/

namespace Attest

open JsonText Rbac Storage

/-! ## Texts and values -/

/-- A script's string, by its units. -/
abbrev Str := List Nat

def str (s : String) : Str := Text.units s.toList

attribute [local instance] Text.lawful

/-- An error that nothing catches. -/
inductive Thrown
  | unusableKey
  | notIterable
  | ofNull
  | notText
  | notFunction
  deriving DecidableEq, Repr

/-! ## The envelope -/

def attestFormat : Str := str "daftari.attestation/v1"

structure Envelope where
  manifest : Json
  publicKey : Str
  signerKeyId : Option Json
  signature : Str
  signatureKeyId : Option Json

def envelopeOf (envelope : Json) : Option Envelope :=
  if strOf (field envelope "format") = some attestFormat then
    match field envelope "manifest" with
    | none => none
    | some manifest =>
        if isObject manifest then
          let signature := field envelope "signature"
          let signer := field manifest "signer"
          match strOf (signature.bind (field · "value")), strOf (signer.bind (field · "publicKey"))
          with
          | some value, some publicKey =>
              some { manifest := manifest
                     publicKey := publicKey
                     signerKeyId := signer.bind (field · "keyId")
                     signature := value
                     signatureKeyId := signature.bind (field · "keyId") }
          | _, _ => none
        else none
  else none

/-- The signature primitives, and the text of a value. -/
structure Primitives where
  /-- `keyIdOf`; `none` is the error of a text that is no key. -/
  keyIdOf : Str → Option Str
  verifyBytes : Str → Str → Str → Bool
  samePublicKey : Str → Str → Bool
  sha256Hex : Str → Str
  stringify : Json → Str

def Primitives.manifestBytes (prims : Primitives) (manifest : Json) : Str :=
  prims.stringify manifest

/-! ## The vault -/

structure VaultView where
  disk : Disk
  root : ResolvedRoot
  /-- The text of the file at a place. -/
  textAt : List Path → Str
  /-- The paths of `loadDocuments`; `none` is its error. -/
  loaded : Option (List Str)
  isGitRepo : Bool
  blobExists : Option Json → Bool

/-- `resolve(vaultRoot, path)`. -/
def VaultView.target (vault : VaultView) (path : Str) : List Path :=
  resolved vault.root.segs (ofUnits path)

/-- `readFile(resolve(vaultRoot, path), "utf-8")`. -/
def VaultView.readFile (vault : VaultView) (path : Str) : Option Str :=
  (vault.disk.read (vault.target path)).map vault.textAt

/-- `isAbsolute(path) || rel.startsWith("..") || isAbsolute(rel) || rel === ""`. -/
def VaultView.refused (vault : VaultView) (path : Str) : Bool :=
  (ofUnits path).head? = some '/' || leavesRoot (relative vault.root.segs (vault.target path))

/-! ## The report -/

inductive VerifyState
  | verified
  | contentDrift
  | signatureInvalid
  | keyMismatch
  | malformed
  deriving DecidableEq, Repr

/-- `docs` of a report. -/
structure DocLists where
  matched : List Str
  modified : List Str
  missing : List Str
  unlisted : List Str
  deriving DecidableEq, Repr

structure VerifyReport where
  state : VerifyState
  exitCode : Nat
  detail : Str
  keyId : Option Str
  identityPinned : Bool
  docs : Option DocLists
  headKnown : Option Bool
  deriving DecidableEq, Repr

/-- A report, and the paths that were opened for it. -/
structure Outcome where
  report : VerifyReport
  reads : List (List Path)

/-! ## The documents -/

/-- `doc.path`, as `resolve` takes it. -/
def docPath : Json → Except Thrown Str
  | .null => .error .ofNull
  | doc =>
      match strOf (field doc "path") with
      | some path => .ok path
      | none => .error .notText

/-- What `for (const doc of docs)` goes through. -/
def entriesOf : Option Json → Except Thrown (List Json)
  | some (.arr items) => .ok items
  | some (.str s) => .ok ((ofUnits s).map fun c => .str (Text.unitsOf c))
  | _ => .error .notIterable

/-- The first loop: the first path that leaves the vault. -/
def firstRefused (vault : VaultView) : List Json → Except Thrown (Option Str)
  | [] => .ok none
  | doc :: docs =>
      match docPath doc with
      | .error e => .error e
      | .ok path => if vault.refused path then .ok (some path) else firstRefused vault docs

structure Compared where
  matched : List Str
  modified : List Str
  missing : List Str
  reads : List (List Path)

def compareDoc (prims : Primitives) (vault : VaultView) (c : Compared) (doc : Json) (path : Str) :
    Compared :=
  let c := { c with reads := c.reads ++ [vault.target path] }
  match vault.readFile path with
  | none => { c with missing := c.missing ++ [path] }
  | some raw =>
      if strOf (field doc "contentHash") = some (prims.sha256Hex raw) then
        { c with matched := c.matched ++ [path] }
      else { c with modified := c.modified ++ [path] }

def compareDocs (prims : Primitives) (vault : VaultView) :
    Compared → List Json → Except Thrown Compared
  | c, [] => .ok c
  | c, doc :: docs =>
      match docPath doc with
      | .error e => .error e
      | .ok path => compareDocs prims vault (compareDoc prims vault c doc path) docs

def docPaths : List Json → Except Thrown (List Str)
  | [] => .ok []
  | doc :: docs =>
      match docPath doc with
      | .error e => .error e
      | .ok path => (docPaths docs).map (path :: ·)

/-- `docs.map((d) => d.path)`. -/
def listedPaths : Option Json → Except Thrown (List Str)
  | some (.arr items) => docPaths items
  | _ => .error .notFunction

def verifyAgainst (prims : Primitives) (vault : VaultView) (e : Envelope) (keyId : Str)
    (identityPinned : Bool) : Except Thrown Outcome := do
  let docs := field e.manifest "docs"
  let entries ← entriesOf docs
  match ← firstRefused vault entries with
  | some path =>
      return { report :=
                 { state := .malformed, exitCode := 2
                   detail := str "manifest names a path outside the vault: " ++ path
                   keyId := some keyId, identityPinned := identityPinned
                   docs := none, headKnown := none }
               reads := [] }
  | none =>
      let c ← compareDocs prims vault ⟨[], [], [], []⟩ entries
      let listed ← listedPaths docs
      let unlisted := (vault.loaded.getD []).filter fun p => p ∉ listed
      let headKnown := vault.isGitRepo && vault.blobExists (field e.manifest "headCommit")
      let drift := decide (0 < c.modified.length) || decide (0 < c.missing.length)
        || decide (0 < unlisted.length) || !headKnown
      return { report :=
                 { state := if drift then .contentDrift else .verified
                   exitCode := if drift then 4 else 0
                   detail := str (if drift then
                       "signature valid; the vault has moved since attestation (stale, not forged)"
                     else "signature valid and every listed doc matches the vault copy")
                   keyId := some keyId, identityPinned := identityPinned
                   docs := some ⟨c.matched, c.modified, c.missing, unlisted⟩
                   headKnown := some headKnown }
               reads := c.reads }

/-- What a bundle is verified against: a vault, a pinned key, both or none. -/
structure VerifyOptions where
  vault : Option VaultView
  pubkeyPem : Option Str

/-- The report of a text that is no envelope. -/
def malformedReport (detail : String) : VerifyReport :=
  { state := .malformed, exitCode := 2, detail := str detail, keyId := none
    identityPinned := false, docs := none, headKnown := none }

def verifyBundle (prims : Primitives) (bundleRaw : List Char) (opts : VerifyOptions) :
    Except Thrown Outcome :=
  match JsonText.parse bundleRaw with
  | none => .ok ⟨malformedReport "bundle is not valid JSON", []⟩
  | some envelope =>
      match envelopeOf envelope with
      | none => .ok ⟨malformedReport "bundle is not a daftari.attestation/v1 envelope", []⟩
      | some e =>
          match prims.keyIdOf e.publicKey with
          | none => .error .unusableKey
          | some keyId =>
              if strOf e.signatureKeyId ≠ some keyId ∨ strOf e.signerKeyId ≠ some keyId
                  ∨ prims.verifyBytes e.publicKey (prims.manifestBytes e.manifest) e.signature
                    = false then
                .ok ⟨{ state := .signatureInvalid, exitCode := 1
                       detail := str "signature does not verify over the manifest bytes"
                       keyId := some keyId, identityPinned := false
                       docs := none, headKnown := none }, []⟩
              else if opts.pubkeyPem.any (fun pem => !prims.samePublicKey e.publicKey pem) then
                .ok ⟨{ state := .keyMismatch, exitCode := 1
                       detail := str ("signature is valid but the embedded key is not the pinned "
                         ++ "one — right bundle shape, wrong signer")
                       keyId := some keyId, identityPinned := true
                       docs := none, headKnown := none }, []⟩
              else
                match opts.vault with
                | none =>
                    .ok ⟨{ state := .verified, exitCode := 0
                           detail := str (if opts.pubkeyPem.isSome then
                               "signature verified against the pinned key (no vault checked)"
                             else "identity unpinned: signature proves integrity, not signer "
                               ++ "(no vault checked)")
                           keyId := some keyId, identityPinned := opts.pubkeyPem.isSome
                           docs := none, headKnown := none }, []⟩
                | some vault => verifyAgainst prims vault e keyId opts.pubkeyPem.isSome

/-! ## What is claimed of a report -/

/-- A path that is relative, and lies in the vault as it is written. -/
def VaultView.Inside (vault : VaultView) (path : Str) : Prop :=
  (ofUnits path).head? ≠ some '/' ∧
    ∃ rest, rest ≠ [] ∧ vault.target path = vault.root.segs ++ rest

/-- The entry's path holds a file whose text has the entry's hash. -/
def Kept (prims : Primitives) (vault : VaultView) (doc : Json) : Prop :=
  ∃ path raw, docPath doc = .ok path ∧ vault.readFile path = some raw ∧
    strOf (field doc "contentHash") = some (prims.sha256Hex raw)

/-- Both key ids are the embedded key's, the signature verifies under it, and it is the
    pinned key, if there is one. -/
def Authentic (prims : Primitives) (e : Envelope) (pinned : Option Str) : Prop :=
  ∃ keyId, prims.keyIdOf e.publicKey = some keyId ∧ strOf e.signatureKeyId = some keyId ∧
    strOf e.signerKeyId = some keyId ∧
    prims.verifyBytes e.publicKey (prims.manifestBytes e.manifest) e.signature = true ∧
    ∀ pem ∈ pinned, prims.samePublicKey e.publicKey pem = true

def VaultView.headKnown (vault : VaultView) (e : Envelope) : Bool :=
  vault.isGitRepo && vault.blobExists (field e.manifest "headCommit")

/-- The manifest is the vault's: every entry is a document of the vault with its hash, every
    loaded document is listed, and the head commit is known. -/
def Faithful (prims : Primitives) (vault : VaultView) (e : Envelope) : Prop :=
  ∃ items paths, field e.manifest "docs" = some (.arr items) ∧ docPaths items = .ok paths ∧
    (∀ path ∈ paths, vault.Inside path) ∧ (∀ doc ∈ items, Kept prims vault doc) ∧
    (∀ path ∈ vault.loaded.getD [], path ∈ paths) ∧ vault.headKnown e = true

/-- What `verified` should mean, against a vault. -/
def Honest (prims : Primitives) (bundleRaw : List Char) (pinned : Option Str)
    (vault : VaultView) : Prop :=
  ∃ j e, JsonText.parse bundleRaw = some j ∧ envelopeOf j = some e ∧
    Authentic prims e pinned ∧ Faithful prims vault e

def ManifestPath (bundleRaw : List Char) (path : Str) : Prop :=
  ∃ j e items doc, JsonText.parse bundleRaw = some j ∧ envelopeOf j = some e ∧
    field e.manifest "docs" = some (.arr items) ∧ doc ∈ items ∧ docPath doc = .ok path

/-- **What is claimed**: a report for every bundle; nothing outside the vault is opened; each
    manifest path is in one list, once; and `verified` is said of an honest bundle alone. -/
structure Sound (prims : Primitives) (bundleRaw : List Char) (opts : VerifyOptions) : Prop where
  total : ∃ out, verifyBundle prims bundleRaw opts = .ok out
  confined : ∀ out, verifyBundle prims bundleRaw opts = .ok out → ∀ vault ∈ opts.vault,
    ∀ segs ∈ out.reads, ∀ q, vault.disk.read segs = some q →
      vault.disk.LiesUnder vault.root.segs q
  listed : ∀ out, verifyBundle prims bundleRaw opts = .ok out → ∀ docs ∈ out.report.docs,
    ∀ path, (ManifestPath bundleRaw path →
        (docs.matched ++ docs.modified ++ docs.missing).count path = 1) ∧
      (path ∈ docs.matched ++ docs.modified ++ docs.missing → ManifestPath bundleRaw path)
  honest : ∀ vault ∈ opts.vault,
    (∃ out, verifyBundle prims bundleRaw opts = .ok out ∧ out.report.state = .verified) ↔
      Honest prims bundleRaw opts.pubkeyPem vault

/-! ## When it holds -/

/-- The entries have paths, down to the first path that is refused. -/
def Legible (vault : VaultView) : List Json → Prop
  | [] => True
  | doc :: docs => ∃ path, docPath doc = .ok path ∧ (vault.refused path = true ∨ Legible vault docs)

/-- What a signed manifest has to be: a list of documents with paths; no path of a manifest
    that is the vault's is refused; and where no path is refused, no path is repeated, and
    none leads out of the vault. -/
structure Tame (prims : Primitives) (vault : VaultView) (e : Envelope) (items : List Json) :
    Prop where
  docs : field e.manifest "docs" = some (.arr items)
  legible : Legible vault items
  accepted : Faithful prims vault e → ∀ doc ∈ items, ∀ path, docPath doc = .ok path →
    vault.refused path = false
  compared : ∀ paths, docPaths items = .ok paths → (∀ path ∈ paths, vault.refused path = false) →
    paths.Nodup ∧ ∀ path ∈ paths, ∀ q, vault.disk.read (vault.target path) = some q →
      vault.disk.LiesUnder vault.root.segs q

def WellMade (prims : Primitives) (bundleRaw : List Char) (opts : VerifyOptions) : Prop :=
  ∀ j e, JsonText.parse bundleRaw = some j → envelopeOf j = some e →
    prims.keyIdOf e.publicKey ≠ none ∧
    (Authentic prims e opts.pubkeyPem → ∀ vault ∈ opts.vault, ∃ items, Tame prims vault e items)

/-! ## The loops over the documents -/

section

variable {prims : Primitives} {vault : VaultView} {docs items : List Json} {paths : List Str}
  {c : Compared} {e : Envelope} {path : Str}

variable {doc : Json}

theorem docPaths_cons (h : docPaths (doc :: docs) = .ok paths) :
    ∃ path rest, docPath doc = .ok path ∧ docPaths docs = .ok rest ∧ paths = path :: rest := by
  unfold docPaths at h
  cases hdoc : docPath doc with
  | error thrown =>
      rw [hdoc] at h
      cases h
  | ok path =>
      cases hrest : docPaths docs with
      | error thrown =>
          rw [hdoc, hrest] at h
          cases h
      | ok rest =>
          rw [hdoc, hrest] at h
          exact ⟨path, rest, rfl, rfl, (Except.ok.inj h).symm⟩

theorem mem_docPaths (h : docPaths docs = .ok paths) :
    path ∈ paths ↔ ∃ doc ∈ docs, docPath doc = .ok path := by
  induction docs generalizing paths with
  | nil =>
      obtain rfl := Except.ok.inj h
      simp
  | cons doc docs ih =>
      obtain ⟨first, rest, hdoc, hrest, rfl⟩ := docPaths_cons h
      rw [List.mem_cons, ih hrest]
      constructor
      · rintro (rfl | ⟨doc', hmem, hpath⟩)
        · exact ⟨doc, List.mem_cons_self .., hdoc⟩
        · exact ⟨doc', List.mem_cons_of_mem _ hmem, hpath⟩
      · rintro ⟨doc', hmem, hpath⟩
        rcases List.mem_cons.mp hmem with rfl | hlater
        · exact Or.inl (Except.ok.inj (hpath.symm.trans hdoc))
        · exact Or.inr ⟨doc', hlater, hpath⟩

theorem firstRefused_error {thrown : Thrown} (hdoc : docPath doc = .error thrown) :
    firstRefused vault (doc :: docs) = .error thrown := by
  simp only [firstRefused, hdoc]

theorem firstRefused_here (hdoc : docPath doc = .ok path) (h : vault.refused path = true) :
    firstRefused vault (doc :: docs) = .ok (some path) := by
  simp only [firstRefused, hdoc, h, if_true]

theorem firstRefused_later (hdoc : docPath doc = .ok path) (h : vault.refused path = false) :
    firstRefused vault (doc :: docs) = firstRefused vault docs := by
  simp only [firstRefused, hdoc, h, Bool.false_eq_true, if_false]

theorem firstRefused_legible : (∃ r, firstRefused vault docs = .ok r) ↔ Legible vault docs := by
  induction docs with
  | nil => exact ⟨fun _ => trivial, fun _ => ⟨none, rfl⟩⟩
  | cons doc docs ih =>
      cases hdoc : docPath doc with
      | error thrown =>
          rw [firstRefused_error hdoc]
          constructor
          · rintro ⟨r, hr⟩
            cases hr
          · rintro ⟨path, hpath, -⟩
            rw [hdoc] at hpath
            cases hpath
      | ok path =>
          cases hrefused : vault.refused path with
          | true =>
              rw [firstRefused_here hdoc hrefused]
              exact ⟨fun _ => ⟨path, hdoc, Or.inl hrefused⟩, fun _ => ⟨some path, rfl⟩⟩
          | false =>
              rw [firstRefused_later hdoc hrefused, ih]
              refine ⟨fun hlegible => ⟨path, hdoc, Or.inr hlegible⟩, ?_⟩
              rintro ⟨path', hpath, htrue | hlegible⟩
              · obtain rfl := Except.ok.inj (hdoc.symm.trans hpath)
                rw [hrefused] at htrue
                cases htrue
              · exact hlegible

theorem firstRefused_some (h : firstRefused vault docs = .ok (some path)) :
    ∃ doc ∈ docs, docPath doc = .ok path ∧ vault.refused path = true := by
  induction docs with
  | nil => cases h
  | cons doc docs ih =>
      cases hdoc : docPath doc with
      | error thrown =>
          rw [firstRefused_error hdoc] at h
          cases h
      | ok first =>
          cases hrefused : vault.refused first with
          | true =>
              rw [firstRefused_here hdoc hrefused] at h
              obtain rfl := Option.some.inj (Except.ok.inj h)
              exact ⟨doc, List.mem_cons_self .., hdoc, hrefused⟩
          | false =>
              rw [firstRefused_later hdoc hrefused] at h
              obtain ⟨doc', hmem, hpath⟩ := ih h
              exact ⟨doc', List.mem_cons_of_mem _ hmem, hpath⟩

theorem firstRefused_none (h : firstRefused vault docs = .ok none) :
    ∃ paths, docPaths docs = .ok paths ∧ ∀ path ∈ paths, vault.refused path = false := by
  induction docs with
  | nil => exact ⟨[], rfl, by simp⟩
  | cons doc docs ih =>
      cases hdoc : docPath doc with
      | error thrown =>
          rw [firstRefused_error hdoc] at h
          cases h
      | ok first =>
          cases hrefused : vault.refused first with
          | true =>
              rw [firstRefused_here hdoc hrefused] at h
              cases h
          | false =>
              rw [firstRefused_later hdoc hrefused] at h
              obtain ⟨paths, hpaths, hall⟩ := ih h
              refine ⟨first :: paths, ?_, ?_⟩
              · simp only [docPaths, hdoc, hpaths, Except.map]
              · rintro path hpath
                rcases List.mem_cons.mp hpath with rfl | hlater
                · exact hrefused
                · exact hall path hlater

/-- What has been listed so far. -/
def Compared.all (c : Compared) : List Str := c.matched ++ c.modified ++ c.missing

theorem compareDoc_reads :
    (compareDoc prims vault c doc path).reads = c.reads ++ [vault.target path] := by
  unfold compareDoc
  split
  · rfl
  · split <;> rfl

theorem compareDoc_count (p : Str) :
    (compareDoc prims vault c doc path).all.count p = c.all.count p + [path].count p := by
  unfold compareDoc Compared.all
  split
  · simp only [List.count_append]
    omega
  · split
    · simp only [List.count_append]
      omega
    · simp only [List.count_append]
      omega

theorem compareDoc_clean (hdoc : docPath doc = .ok path) :
    ((compareDoc prims vault c doc path).modified = [] ∧
      (compareDoc prims vault c doc path).missing = []) ↔
    (c.modified = [] ∧ c.missing = []) ∧ Kept prims vault doc := by
  unfold compareDoc
  cases hraw : vault.readFile path with
  | none =>
      constructor
      · rintro ⟨-, hmissing⟩
        exact absurd hmissing (by simp)
      · rintro ⟨-, path', raw, hpath, hread, -⟩
        obtain rfl := Except.ok.inj (hdoc.symm.trans hpath)
        rw [hraw] at hread
        cases hread
  | some raw =>
      by_cases hhash : strOf (field doc "contentHash") = some (prims.sha256Hex raw)
      · simp only [hhash, if_true]
        exact ⟨fun hclean => ⟨hclean, path, raw, hdoc, hraw, hhash⟩, And.left⟩
      · simp only [hhash, if_false]
        constructor
        · rintro ⟨hmodified, -⟩
          exact absurd hmodified (by simp)
        · rintro ⟨-, path', raw', hpath, hread, hsame⟩
          obtain rfl := Except.ok.inj (hdoc.symm.trans hpath)
          obtain rfl := Option.some.inj (hraw.symm.trans hread)
          exact absurd hsame hhash

/-- **The second loop lists every path as often as the entries do**, and finds no difference
    exactly where every entry is kept. -/
theorem compareDocs_spec (prims : Primitives) (vault : VaultView) (c : Compared)
    (h : docPaths docs = .ok paths) : ∃ c', compareDocs prims vault c docs = .ok c' ∧
      c'.reads = c.reads ++ paths.map vault.target ∧
      (∀ p, c'.all.count p = c.all.count p + paths.count p) ∧
      ((c'.modified = [] ∧ c'.missing = []) ↔
        (c.modified = [] ∧ c.missing = []) ∧ ∀ doc ∈ docs, Kept prims vault doc) := by
  induction docs generalizing c paths with
  | nil =>
      obtain rfl := Except.ok.inj h
      exact ⟨c, rfl, by simp, by simp, by simp⟩
  | cons doc docs ih =>
      obtain ⟨path, rest, hdoc, hrest, rfl⟩ := docPaths_cons h
      obtain ⟨c', hc', hreads, hcount, hclean⟩ :=
        ih (c := compareDoc prims vault c doc path) hrest
      refine ⟨c', ?_, ?_, ?_, ?_⟩
      · simp only [compareDocs, hdoc, hc']
      · rw [hreads, compareDoc_reads, List.map_cons, List.append_assoc]
        rfl
      · intro p
        rw [hcount, compareDoc_count, Nat.add_assoc, ← List.count_append, List.singleton_append]
      · rw [hclean, compareDoc_clean hdoc, List.forall_mem_cons, and_assoc]

/-! ## The comparison with a vault -/

theorem inside_of_not_refused (h : vault.refused path = false) : vault.Inside path := by
  unfold VaultView.refused at h
  rw [Bool.or_eq_false_iff, decide_eq_false_iff_not] at h
  obtain ⟨rest, hne, htarget, -⟩ := inside_of_not_leavesRoot h.2
  exact ⟨h.1, rest, hne, htarget⟩

/-- What an end of the comparison is. -/
inductive Ends (prims : Primitives) (vault : VaultView) (e : Envelope) :
    Except Thrown Outcome → Prop
  | thrown (thrown : Thrown)
      (illegible : ∀ items, field e.manifest "docs" = some (.arr items) → ¬ Legible vault items) :
      Ends prims vault e (.error thrown)
  | refused (items : List Json) (doc : Json) (path : Str) (report : VerifyReport)
      (docs : field e.manifest "docs" = some (.arr items)) (legible : Legible vault items)
      (mem : doc ∈ items) (named : docPath doc = .ok path) (refused : vault.refused path = true)
      (state : report.state = .malformed) (unlisted : report.docs = none) :
      Ends prims vault e (.ok ⟨report, []⟩)
  | compared (items : List Json) (paths : List Str) (report : VerifyReport) (lists : DocLists)
      (docs : field e.manifest "docs" = some (.arr items)) (legible : Legible vault items)
      (named : docPaths items = .ok paths) (accepted : ∀ path ∈ paths, vault.refused path = false)
      (listed : report.docs = some lists)
      (count : ∀ p, (lists.matched ++ lists.modified ++ lists.missing).count p = paths.count p)
      (state : report.state = .verified ↔ (∀ doc ∈ items, Kept prims vault doc) ∧
        (∀ path ∈ vault.loaded.getD [], path ∈ paths) ∧ vault.headKnown e = true) :
      Ends prims vault e (.ok ⟨report, paths.map vault.target⟩)

theorem entriesOf_ok {docs : Option Json} {entries : List Json} (h : entriesOf docs = .ok entries) :
    docs = some (.arr entries) ∨ ∃ s, docs = some (.str s) ∧
      entries = (ofUnits s).map fun c => .str (Text.unitsOf c) := by
  unfold entriesOf at h
  split at h
  · rw [Except.ok.inj h]
    exact Or.inl rfl
  · exact Or.inr ⟨_, rfl, (Except.ok.inj h).symm⟩
  · cases h

theorem docPath_str (s : Str) : docPath (.str s) = .error .notText := rfl

theorem verifyAgainst_text {s : Str} (prims : Primitives) (vault : VaultView) (keyId : Str)
    (identityPinned : Bool) (hdocs : field e.manifest "docs" = some (.str s)) :
    ∃ thrown, verifyAgainst prims vault e keyId identityPinned = .error thrown := by
  unfold verifyAgainst
  rw [hdocs]
  cases hchars : ofUnits s with
  | nil => exact ⟨.notFunction, by simp [entriesOf, hchars, firstRefused, compareDocs,
      listedPaths, bind, Except.bind]⟩
  | cons c cs => exact ⟨.notText, by simp [entriesOf, hchars, firstRefused_error (docPath_str _),
      bind, Except.bind]⟩

theorem verifyAgainst_compared {entries : List Json} (keyId : Str) (identityPinned : Bool)
    (hentries : entriesOf (field e.manifest "docs") = .ok entries)
    (hfirst : firstRefused vault entries = .ok none)
    (hc : compareDocs prims vault ⟨[], [], [], []⟩ entries = .ok c)
    (hlisted : listedPaths (field e.manifest "docs") = .ok paths) :
    ∃ report unlisted, verifyAgainst prims vault e keyId identityPinned = .ok ⟨report, c.reads⟩ ∧
      report.docs = some ⟨c.matched, c.modified, c.missing, unlisted⟩ ∧
      (report.state = .verified ↔ (c.modified = [] ∧ c.missing = []) ∧
        (∀ path ∈ vault.loaded.getD [], path ∈ paths) ∧ vault.headKnown e = true) := by
  simp only [verifyAgainst, hentries, hfirst, hc, hlisted, bind, Except.bind, pure, Except.pure]
  refine ⟨_, _, rfl, rfl, ?_⟩
  have hunlisted : (vault.loaded.getD []).filter (fun p => decide (p ∉ paths)) = [] ↔
      ∀ path ∈ vault.loaded.getD [], path ∈ paths := by
    simp [List.filter_eq_nil_iff]
  rw [← hunlisted]
  unfold VaultView.headKnown
  split
  · rename_i hdrift
    simp only [Bool.or_eq_true, decide_eq_true_iff, List.length_pos_iff, Bool.not_eq_true']
      at hdrift
    refine ⟨nofun, ?_⟩
    rintro ⟨⟨hmodified, hmissing⟩, hnone, hhead⟩
    rcases hdrift with ((hsome | hsome) | hsome) | hunknown
    · exact absurd hmodified hsome
    · exact absurd hmissing hsome
    · exact absurd hnone hsome
    · rw [hhead] at hunknown
      cases hunknown
  · rename_i hdrift
    simp only [Bool.or_eq_true, decide_eq_true_iff, List.length_pos_iff, Bool.not_eq_true', not_or,
      not_not, Bool.not_eq_false] at hdrift
    obtain ⟨⟨⟨hmodified, hmissing⟩, hnone⟩, hhead⟩ := hdrift
    exact ⟨fun _ => ⟨⟨hmodified, hmissing⟩, hnone, hhead⟩, fun _ => rfl⟩

/-- **The ways the comparison with a vault ends.** -/
theorem verifyAgainst_cases (prims : Primitives) (vault : VaultView) (e : Envelope) (keyId : Str)
    (identityPinned : Bool) :
    Ends prims vault e (verifyAgainst prims vault e keyId identityPinned) := by
  cases hentries : entriesOf (field e.manifest "docs") with
  | error thrown =>
      have hthrown : verifyAgainst prims vault e keyId identityPinned = .error thrown := by
        simp only [verifyAgainst, hentries, bind, Except.bind]
      rw [hthrown]
      refine .thrown thrown fun items hitems => ?_
      rw [hitems] at hentries
      cases hentries
  | ok entries =>
      rcases entriesOf_ok hentries with hdocs | ⟨s, hdocs, -⟩
      · cases hfirst : firstRefused vault entries with
        | error thrown =>
            have hthrown : verifyAgainst prims vault e keyId identityPinned = .error thrown := by
              simp only [verifyAgainst, hentries, hfirst, bind, Except.bind]
            rw [hthrown]
            refine .thrown thrown fun items hitems hlegible => ?_
            obtain rfl := Json.arr.inj (Option.some.inj (hdocs.symm.trans hitems))
            obtain ⟨r, hr⟩ := firstRefused_legible.mpr hlegible
            rw [hfirst] at hr
            cases hr
        | ok first =>
            have hlegible := firstRefused_legible.mp ⟨first, hfirst⟩
            cases first with
            | some path =>
                obtain ⟨doc, hmem, hnamed, hrefused⟩ := firstRefused_some hfirst
                have hreport : ∃ report, verifyAgainst prims vault e keyId identityPinned
                    = .ok ⟨report, []⟩ ∧ report.state = .malformed ∧ report.docs = none := by
                  simp only [verifyAgainst, hentries, hfirst, bind, Except.bind, pure, Except.pure]
                  exact ⟨_, rfl, rfl, rfl⟩
                obtain ⟨report, heq, hstate, hunlisted⟩ := hreport
                rw [heq]
                exact .refused entries doc path report hdocs hlegible hmem hnamed hrefused
                  hstate hunlisted
            | none =>
                obtain ⟨paths, hnamed, haccepted⟩ := firstRefused_none hfirst
                obtain ⟨c, hc, hreads, hcount, hclean⟩ :=
                  compareDocs_spec prims vault ⟨[], [], [], []⟩ hnamed
                have hlisted : listedPaths (field e.manifest "docs") = .ok paths := by
                  rw [hdocs]
                  exact hnamed
                obtain ⟨report, unlisted, hreport, hlists, hstate⟩ :=
                  verifyAgainst_compared keyId identityPinned hentries hfirst hc hlisted
                rw [hreport, hreads, List.nil_append]
                refine .compared entries paths report _ hdocs hlegible hnamed haccepted hlists ?_ ?_
                · intro p
                  exact (hcount p).trans (Nat.zero_add _)
                · rw [hstate, hclean]
                  simp
      · obtain ⟨thrown, hthrown⟩ := verifyAgainst_text prims vault keyId identityPinned hdocs
        rw [hthrown]
        refine .thrown thrown fun items hitems => ?_
        rw [hdocs] at hitems
        cases hitems

/-! ## The verification of a bundle -/

variable {bundleRaw : List Char} {opts : VerifyOptions} {j : Json}

theorem verifyBundle_of_not_authentic (hj : JsonText.parse bundleRaw = some j)
    (he : envelopeOf j = some e) (hkey : prims.keyIdOf e.publicKey ≠ none)
    (h : ¬ Authentic prims e opts.pubkeyPem) :
    ∃ report, verifyBundle prims bundleRaw opts = .ok ⟨report, []⟩ ∧
      report.state ≠ .verified ∧ report.docs = none := by
  obtain ⟨keyId, hid⟩ := Option.ne_none_iff_exists'.mp hkey
  simp only [verifyBundle, hj, he, hid]
  split
  · exact ⟨_, rfl, nofun, rfl⟩
  · rename_i hbound
    simp only [not_or, ne_eq, not_not, Bool.not_eq_false] at hbound
    obtain ⟨hsignature, hsigner, hverifies⟩ := hbound
    split
    · exact ⟨_, rfl, nofun, rfl⟩
    · rename_i hpinned
      refine absurd ⟨keyId, hid, hsignature, hsigner, hverifies, fun pem hpem => ?_⟩ h
      rw [Option.mem_def] at hpem
      simpa [hpem] using hpinned

theorem verifyBundle_of_authentic (hj : JsonText.parse bundleRaw = some j)
    (he : envelopeOf j = some e) (h : Authentic prims e opts.pubkeyPem) :
    (opts.vault = none → ∃ report, verifyBundle prims bundleRaw opts = .ok ⟨report, []⟩ ∧
      report.docs = none) ∧
    ∀ vault, opts.vault = some vault → ∃ keyId, verifyBundle prims bundleRaw opts
      = verifyAgainst prims vault e keyId opts.pubkeyPem.isSome := by
  obtain ⟨keyId, hid, hsignature, hsigner, hverifies, hpinned⟩ := h
  have hbound : ¬ (strOf e.signatureKeyId ≠ some keyId ∨ strOf e.signerKeyId ≠ some keyId ∨
      prims.verifyBytes e.publicKey (prims.manifestBytes e.manifest) e.signature = false) := by
    simp [hsignature, hsigner, hverifies]
  have hsame : ¬ opts.pubkeyPem.any (fun pem => !prims.samePublicKey e.publicKey pem) = true := by
    cases hpem : opts.pubkeyPem with
    | none => simp
    | some pem => simpa using hpinned pem (by simp [hpem])
  simp only [verifyBundle, hj, he, hid, if_neg hbound, if_neg hsame]
  constructor
  · intro hvault
    rw [hvault]
    exact ⟨_, rfl, rfl⟩
  · intro vault hvault
    rw [hvault]
    exact ⟨keyId, rfl⟩

theorem Honest.of_envelope {pinned : Option Str} (hj : JsonText.parse bundleRaw = some j)
    (he : envelopeOf j = some e) :
    Honest prims bundleRaw pinned vault ↔ Authentic prims e pinned ∧ Faithful prims vault e := by
  constructor
  · rintro ⟨j', e', hj', he', hauthentic⟩
    obtain rfl := Option.some.inj (hj.symm.trans hj')
    obtain rfl := Option.some.inj (he.symm.trans he')
    exact hauthentic
  · exact fun hauthentic => ⟨j, e, hj, he, hauthentic⟩

/-- A report that lists nothing, says nothing good and opened nothing is sound where there is
    nothing good to say. -/
theorem sound_of_quiet {report : VerifyReport}
    (h : verifyBundle prims bundleRaw opts = .ok ⟨report, []⟩) (hdocs : report.docs = none)
    (hstate : ∀ vault ∈ opts.vault, report.state ≠ .verified)
    (hdishonest : ∀ vault ∈ opts.vault, ¬ Honest prims bundleRaw opts.pubkeyPem vault) :
    Sound prims bundleRaw opts where
  total := ⟨_, h⟩
  confined := by
    intro out hout vault _ segs hsegs
    obtain rfl := Except.ok.inj (h.symm.trans hout)
    cases hsegs
  listed := by
    intro out hout docs hlists
    obtain rfl := Except.ok.inj (h.symm.trans hout)
    rw [hdocs] at hlists
    cases hlists
  honest := by
    intro vault hvault
    refine iff_of_false ?_ (hdishonest vault hvault)
    rintro ⟨out, hout, hverified⟩
    obtain rfl := Except.ok.inj (h.symm.trans hout)
    exact hstate vault hvault hverified

theorem manifestPath_iff (path : Str) (hj : JsonText.parse bundleRaw = some j)
    (he : envelopeOf j = some e)
    (hdocs : field e.manifest "docs" = some (.arr items)) (hnamed : docPaths items = .ok paths) :
    ManifestPath bundleRaw path ↔ path ∈ paths := by
  rw [mem_docPaths hnamed]
  constructor
  · rintro ⟨j', e', items', doc, hj', he', hdocs', hmem, hpath⟩
    obtain rfl := Option.some.inj (hj.symm.trans hj')
    obtain rfl := Option.some.inj (he.symm.trans he')
    obtain rfl := Json.arr.inj (Option.some.inj (hdocs.symm.trans hdocs'))
    exact ⟨doc, hmem, hpath⟩
  · rintro ⟨doc, hmem, hpath⟩
    exact ⟨j, e, items, doc, hj, he, hdocs, hmem, hpath⟩

theorem sound_iff_tame (hj : JsonText.parse bundleRaw = some j) (he : envelopeOf j = some e)
    (hauthentic : Authentic prims e opts.pubkeyPem) (hvault : opts.vault = some vault) :
    Sound prims bundleRaw opts ↔ ∃ items, Tame prims vault e items := by
  have honly : ∀ vault' ∈ opts.vault, vault' = vault := fun vault' hmem =>
    (Option.some.inj (hvault.symm.trans hmem)).symm
  obtain ⟨keyId, hrun⟩ := (verifyBundle_of_authentic hj he hauthentic).2 vault hvault
  have hends := verifyAgainst_cases prims vault e keyId opts.pubkeyPem.isSome
  rw [← hrun] at hends
  generalize hresult : verifyBundle prims bundleRaw opts = result at hends
  cases hends with
  | thrown thrown hillegible =>
      constructor
      · rintro ⟨⟨out, hout⟩, -, -, -⟩
        rw [hresult] at hout
        cases hout
      · rintro ⟨items, htame⟩
        exact absurd htame.legible (hillegible items htame.docs)
  | refused items doc path report hdocs hlegible hmem hnamed hrefused hstate hlists =>
      constructor
      · intro hsound
        have hunfaithful : ¬ Faithful prims vault e := by
          intro hfaithful
          obtain ⟨out, hout, hverified⟩ := (hsound.honest vault hvault).mpr
            ((Honest.of_envelope hj he).mpr ⟨hauthentic, hfaithful⟩)
          obtain rfl := Except.ok.inj (hresult.symm.trans hout)
          rw [hstate] at hverified
          cases hverified
        refine ⟨items, hdocs, hlegible, fun hfaithful => absurd hfaithful hunfaithful, ?_⟩
        intro paths hpaths haccepted
        have hpath := haccepted path ((mem_docPaths hpaths).mpr ⟨doc, hmem, hnamed⟩)
        rw [hrefused] at hpath
        cases hpath
      · rintro ⟨items', htame⟩
        obtain rfl := Json.arr.inj (Option.some.inj (hdocs.symm.trans htame.docs))
        refine sound_of_quiet hresult hlists (fun _ _ => by rw [hstate]; exact nofun) ?_
        intro vault' hmem' hhonest
        obtain rfl := honly vault' hmem'
        have haccepted := htame.accepted ((Honest.of_envelope hj he).mp hhonest).2 doc hmem path
          hnamed
        rw [hrefused] at haccepted
        cases haccepted
  | compared items paths report lists hdocs hlegible hnamed haccepted hlists hcount hstate =>
      have hpath := fun path => manifestPath_iff path hj he hdocs hnamed
      constructor
      · intro hsound
        refine ⟨items, hdocs, hlegible, ?_, ?_⟩
        · intro _ doc hmem path hdoc
          exact haccepted path ((mem_docPaths hnamed).mpr ⟨doc, hmem, hdoc⟩)
        · intro paths' hpaths' _
          obtain rfl := Except.ok.inj (hnamed.symm.trans hpaths')
          constructor
          · rw [List.nodup_iff_count_le_one]
            intro p
            by_cases hp : p ∈ paths
            · rw [← hcount, ((hsound.listed _ hresult lists hlists p).1 ((hpath p).mpr hp))]
            · rw [List.count_eq_zero_of_not_mem hp]
              exact Nat.zero_le 1
          · intro path hp q hq
            exact hsound.confined _ hresult vault hvault _ (List.mem_map_of_mem hp) q hq
      · rintro ⟨items', htame⟩
        obtain rfl := Json.arr.inj (Option.some.inj (hdocs.symm.trans htame.docs))
        obtain ⟨hnodup, hinside⟩ := htame.compared paths hnamed haccepted
        refine ⟨⟨_, hresult⟩, ?_, ?_, ?_⟩
        · intro out hout vault' hmem' segs hsegs q hq
          obtain rfl := Except.ok.inj (hresult.symm.trans hout)
          obtain rfl := honly vault' hmem'
          obtain ⟨path, hp, rfl⟩ := List.mem_map.mp hsegs
          exact hinside path hp q hq
        · intro out hout docs hmem' path
          obtain rfl := Except.ok.inj (hresult.symm.trans hout)
          obtain rfl := Option.some.inj (hlists.symm.trans hmem')
          rw [hpath, hcount]
          refine ⟨List.count_eq_one_of_mem hnodup, fun hlisted => ?_⟩
          rw [← List.count_pos_iff, hcount] at hlisted
          exact List.count_pos_iff.mp hlisted
        · intro vault' hmem'
          obtain rfl := honly vault' hmem'
          rw [Honest.of_envelope hj he]
          constructor
          · rintro ⟨out, hout, hverified⟩
            obtain rfl := Except.ok.inj (hresult.symm.trans hout)
            obtain ⟨hkept, hloaded, hhead⟩ := hstate.mp hverified
            exact ⟨hauthentic, items, paths, hdocs, hnamed,
              fun path hp => inside_of_not_refused (haccepted path hp), hkept, hloaded, hhead⟩
          · rintro ⟨-, items', paths', hdocs', hnamed', -, hkept, hloaded, hhead⟩
            obtain rfl := Json.arr.inj (Option.some.inj (hdocs.symm.trans hdocs'))
            obtain rfl := Except.ok.inj (hnamed.symm.trans hnamed')
            exact ⟨_, hresult, hstate.mpr ⟨hkept, hloaded, hhead⟩⟩

end

/-- **Verification is total, confined and honest, exactly for well-made bundles**: the
    embedded key is a key; and once the signature has verified against a vault, the documents
    are a list of entries with paths, no path is repeated, none leads out of the vault
    through a link, and none is refused for a name that starts with two dots. -/
theorem verify_sound_iff (prims : Primitives) (bundleRaw : List Char) (opts : VerifyOptions) :
    Sound prims bundleRaw opts ↔ WellMade prims bundleRaw opts := by
  have hnoEnvelope : (∀ j e, JsonText.parse bundleRaw = some j → envelopeOf j ≠ some e) →
      ∀ detail, verifyBundle prims bundleRaw opts = .ok ⟨malformedReport detail, []⟩ →
      (Sound prims bundleRaw opts ↔ WellMade prims bundleRaw opts) := by
    intro hnone detail hrun
    refine iff_of_true (sound_of_quiet hrun rfl (fun _ _ => nofun) ?_) ?_
    · rintro vault - ⟨j, e, hj, he, -⟩
      exact hnone j e hj he
    · intro j e hj he
      exact absurd he (hnone j e hj)
  cases hj : JsonText.parse bundleRaw with
  | none =>
      refine hnoEnvelope (by simp [hj]) "bundle is not valid JSON" ?_
      simp only [verifyBundle, hj]
  | some j =>
      cases he : envelopeOf j with
      | none =>
          refine hnoEnvelope ?_ "bundle is not a daftari.attestation/v1 envelope" ?_
          · intro j' e hj' he'
            obtain rfl := Option.some.inj (hj.symm.trans hj')
            rw [he] at he'
            cases he'
          · simp only [verifyBundle, hj, he]
      | some e =>
          have hwell : WellMade prims bundleRaw opts ↔ prims.keyIdOf e.publicKey ≠ none ∧
              (Authentic prims e opts.pubkeyPem →
                ∀ vault ∈ opts.vault, ∃ items, Tame prims vault e items) := by
            constructor
            · exact fun hwell => hwell j e hj he
            · intro hwell j' e' hj' he'
              obtain rfl := Option.some.inj (hj.symm.trans hj')
              obtain rfl := Option.some.inj (he.symm.trans he')
              exact hwell
          rw [hwell]
          by_cases hkey : prims.keyIdOf e.publicKey = none
          · refine iff_of_false ?_ (fun hgood => hgood.1 hkey)
            rintro ⟨⟨out, hout⟩, -, -, -⟩
            simp only [verifyBundle, hj, he, hkey] at hout
            cases hout
          · by_cases hauthentic : Authentic prims e opts.pubkeyPem
            · cases hvault : opts.vault with
              | none =>
                  obtain ⟨report, hrun, hlists⟩ :=
                    (verifyBundle_of_authentic hj he hauthentic).1 hvault
                  refine iff_of_true (sound_of_quiet hrun hlists ?_ ?_) ⟨hkey, ?_⟩
                  · simp [hvault]
                  · simp [hvault]
                  · simp
              | some vault =>
                  rw [sound_iff_tame hj he hauthentic hvault]
                  simp [hkey, hauthentic]
            · obtain ⟨report, hrun, hstate, hlists⟩ :=
                verifyBundle_of_not_authentic hj he hkey hauthentic
              refine iff_of_true (sound_of_quiet hrun hlists (fun _ _ => hstate) ?_)
                ⟨hkey, fun h => absurd h hauthentic⟩
              intro vault _ hhonest
              exact hauthentic ((Honest.of_envelope hj he).mp hhonest).1

def keyless : Primitives where
  keyIdOf := fun _ => none
  verifyBytes := fun _ _ _ => false
  samePublicKey := fun _ _ => false
  sha256Hex := id
  stringify := fun _ => []

def keylessBundle : List Char :=
  ("\x7b\"format\":\"daftari.attestation/v1\",\"manifest\":\x7b\"signer\":\x7b\"publicKey\":\"x\"\x7d\x7d,"
    ++ "\"signature\":\x7b\"value\":\"\"\x7d\x7d").toList

/-- **A text in place of the key is thrown at**: no report is returned. -/
theorem unusable_key_thrown :
    verifyBundle keyless keylessBundle ⟨none, none⟩ = .error .unusableKey ∧
      ¬ Sound keyless keylessBundle ⟨none, none⟩ := by
  have hthrown : verifyBundle keyless keylessBundle ⟨none, none⟩ = .error .unusableKey := by
    rfl
  refine ⟨hthrown, ?_⟩
  rintro ⟨⟨out, hout⟩, -, -, -⟩
  cases hout

end Attest
