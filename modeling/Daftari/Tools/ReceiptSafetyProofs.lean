import Daftari.Curation.ValidityProofs
import Daftari.Tools.ReceiptProofs
import Mathlib.Algebra.Order.Field.Rat

/-! # Receipts without flags — what an empty list of flags leaves open

    The flags of a receipt are gathered from the frontmatter, the decay, the chain and the open
    tensions of each cited document.  Its window of validity and its positions are not looked at,
    and a tension is open by its status line alone.

    * `computeDecay`, `resolveChain`: decay, and the walk along `superseded_by`, on a vault;
    * `flags_eq_nil_iff`: **what the documents of a receipt without flags are**;
    * `chainLoop_resolved`: **what a resolved chain is**, where there is one;
    * `receipt_safe_iff`: **when a receipt without flags is safe to quote.** -/

namespace Receipt

open Tension Rbac Frontmatter Write

/-! ## Decay -/

/-- The day, and how dates and numbers of the frontmatter are read on it. -/
structure Clock where
  today : String
  ageInDays : String → Int
  number : String → ℚ

structure StalenessResult where
  score : ℚ
  ageDays : Int
  ttlDays : Option String
  expired : Bool

def computeStaleness (clock : Clock) (updated : String) (ttlDays : Option String) :
    StalenessResult :=
  let ageDays := clock.ageInDays updated
  match ttlDays with
  | none => ⟨0, ageDays, none, false⟩
  | some text =>
      let ttl := clock.number text
      if ttl ≤ 0 then
        let expired := decide (0 < ageDays)
        ⟨if expired then 1 else 0, ageDays, some text, expired⟩
      else ⟨min 1 (max 0 (ageDays / ttl)), ageDays, some text, decide (ttl ≤ ageDays)⟩

structure DecayState where
  level : DecayLevel
  reasons : List String
  banner : Option String
deriving DecidableEq

def draftMaxDays : Int := 30

def lowConfidenceMaxDays : Int := 30

def renderBanner (level : DecayLevel) (reasons : List String) (status : Status) : Option String :=
  if level = .aging then none
  else
    let head :=
      if status = .superseded then
        "⚠ SUPERSEDED — a newer version of this document exists. See the current source rather "
          ++ "than relying on this one."
      else if level = .deprecated then
        "⚠ DEPRECATED — this document has been retired. Do not rely on it; find the current "
          ++ "source."
      else
        "⚠ STALE — this document may no longer be accurate. Verify against a current source "
          ++ "before relying on it."
    some (head ++ "\n" ++ "\n".intercalate (reasons.map ("  - " ++ ·)))

/-- One cause of decay: it gives a level where there is none yet, and a reason. -/
def noted (s : Option DecayLevel × List String) (c : Bool) (level : DecayLevel)
    (reason : String) : Option DecayLevel × List String :=
  if c then (some (s.1.getD level), s.2 ++ [reason]) else s

/-- The causes of decay up to the aging one. -/
def decayCauses (clock : Clock) (fm : Fields) : Option DecayLevel × List String :=
  let s := noted (none, []) (fm.status = .superseded) .deprecated
    "status is superseded — a newer version of this document exists"
  let s := noted s (fm.status = .deprecated) .deprecated
    "status is deprecated — this document has been retired"
  let staleness := computeStaleness clock fm.updated fm.ttlDays
  let s := noted s (staleness.expired && staleness.ttlDays.isSome) .warn
    (toString staleness.ageDays ++ "d since last update, past its "
      ++ staleness.ttlDays.getD "" ++ "d TTL")
  let draftAge := clock.ageInDays (if fm.created = "" then fm.updated else fm.created)
  let s := noted s (fm.status = .draft && decide (draftMaxDays < draftAge)) .warn
    ("a draft for " ++ toString draftAge ++ "d (limit " ++ toString draftMaxDays ++ "d)")
  let idleDays := clock.ageInDays fm.updated
  noted s (fm.confidence = .low && decide (lowConfidenceMaxDays ≤ idleDays)) .warn
    ("low confidence and untouched for " ++ toString idleDays ++ "d (limit "
      ++ toString lowConfidenceMaxDays ++ "d)")

def computeDecay (clock : Clock) (fm : Fields) : Option DecayState :=
  let s := decayCauses clock fm
  let staleness := computeStaleness clock fm.updated fm.ttlDays
  let s := noted s (s.1.isNone && !staleness.expired && decide (1 / 2 ≤ staleness.score)) .aging
    (toString staleness.ageDays ++ "d since last update, "
      ++ toString (staleness.score * 100 + 1 / 2).floor ++ "% of its "
      ++ staleness.ttlDays.getD "" ++ "d TTL")
  s.1.map fun level => ⟨level, s.2, renderBanner level s.2 fm.status⟩

/-! ## The vault -/

/-- A vault: how a path is resolved, and the documents by their canonical paths, which
    are finitely many. -/
structure Vault where
  resolveVaultPath : String → Except String String
  readFile : String → Except String String
  paths : List String
  finite : ∀ rel text, readFile rel = .ok text → rel ∈ paths
  parseDocument : String → Except String Fields
  sha256Hex : String → String
  agingTier : TensionEntry → Option Str
  collection : Path → String
  clock : Clock

def Vault.load (v : Vault) (rel : String) : Except String Fields := do
  let text ← v.readFile rel
  v.parseDocument text

/-- A role, if there is one, may not read the document. -/
def denied (access : Option AccessContext) (rel : String) (fm : Fields) : Bool :=
  access.any fun a => !canRead a.role (collectionOf rel fm)

/-- The loop of `resolveChain`, with fuel for every document that can be visited. -/
def chainLoop (v : Vault) (access : Option AccessContext) :
    Nat → List String → String → String → Nat → Option String → ChainResolution
  | _, _, currentPath, currentTitle, hops, none => .resolved currentPath currentTitle hops
  | 0, _, _, _, _, some _ => .cycle
  | fuel + 1, visited, currentPath, _, hops, some nextRel =>
      match v.resolveVaultPath nextRel with
      | .error _ => .dangling currentPath
      | .ok rel =>
          if rel ∈ visited then .cycle
          else
            match v.load rel with
            | .error _ => .dangling currentPath
            | .ok fm =>
                if denied access rel fm then .restricted
                else chainLoop v access fuel (rel :: visited) rel fm.title (hops + 1)
                  fm.supersededBy

def Vault.resolveChain (v : Vault) (access : Option AccessContext) (startPath : String)
    (startSupersededBy : Option String) : ChainResolution :=
  chainLoop v access (v.paths.length + 1) [startPath] startPath "" 0 startSupersededBy

def Vault.host (v : Vault) (access : Option AccessContext) : Host where
  resolveVaultPath := v.resolveVaultPath
  read rel := do
    let text ← v.readFile rel
    let fm ← v.parseDocument text
    return (fm, v.sha256Hex text)
  computeDecay fm := (computeDecay v.clock fm).map DecayState.level
  resolveChain := v.resolveChain access
  agingTier := v.agingTier
  collection := v.collection

/-! ## The walk -/

section

variable {v : Vault} {access : Option AccessContext}

/-- How many documents have not been visited. -/
def unvisited (v : Vault) (visited : List String) : Nat :=
  (v.paths.filter fun rel => rel ∉ visited).length

variable {visited : List String}

theorem unvisited_lt {rel : String} {fm : Fields} (h : v.load rel = .ok fm) (hnew : rel ∉ visited) :
    unvisited v (rel :: visited) < unvisited v visited := by
  obtain ⟨text, htext, -⟩ := bind_eq_ok h
  have hmem := v.finite rel text htext
  unfold unvisited
  have hsub : (v.paths.filter fun p => p ∉ rel :: visited)
      = (v.paths.filter fun p => p ∉ visited).filter fun p => p ≠ rel := by
    rw [List.filter_filter]
    simp [not_or]
  rw [hsub]
  refine List.length_filter_lt_length_iff_exists.mpr ⟨rel, ?_, by simp⟩
  exact List.mem_filter.mpr ⟨hmem, by simpa using hnew⟩

/-- **The fuel is enough**: more of it changes nothing. -/
theorem chainLoop_fuel {fuel : Nat} {path title : String} {hops : Nat} {next : Option String}
    (h : unvisited v visited < fuel) : chainLoop v access (fuel + 1) visited path title hops next
      = chainLoop v access fuel visited path title hops next := by
  induction fuel generalizing visited path title hops next with
  | zero => omega
  | succ fuel ih =>
      cases next with
      | none => rfl
      | some nextRel =>
          rw [chainLoop, chainLoop]
          cases v.resolveVaultPath nextRel with
          | error e => rfl
          | ok rel =>
              simp only
              split
              case isTrue => rfl
              case isFalse hnew =>
                cases hload : v.load rel with
                | error e => rfl
                | ok fm =>
                    simp only
                    split
                    · rfl
                    · exact ih (by have := unvisited_lt hload hnew; omega)

structure Hop (v : Vault) (access : Option AccessContext) (next rel : String) (fm : Fields) :
    Prop where
  resolves : v.resolveVaultPath next = .ok rel
  loads : v.load rel = .ok fm
  readable : denied access rel fm = false

/-- **The walk along `superseded_by`**, from its first value: at least one hop, each to
    a readable document, the last of which has no successor. -/
inductive Walk (v : Vault) (access : Option AccessContext) :
    Option String → Nat → String → Prop
  | last {next rel : String} {fm : Fields} (hop : Hop v access next rel fm)
      (stop : fm.supersededBy = none) : Walk v access (some next) 1 rel
  | more {next rel last : String} {fm : Fields} {hops : Nat} (hop : Hop v access next rel fm)
      (rest : Walk v access fm.supersededBy hops last) : Walk v access (some next) (hops + 1) last

/-- **What a resolved chain is**: nothing was followed, or a walk. -/
theorem chainLoop_resolved {fuel : Nat} {path title last lastTitle : String} {hops total : Nat}
    {next : Option String}
    (h : chainLoop v access fuel visited path title hops next = .resolved last lastTitle total) :
    next = none ∧ last = path ∧ total = hops ∨
      ∃ n, total = hops + n ∧ Walk v access next n last := by
  induction fuel generalizing visited path title hops next with
  | zero =>
      cases next with
      | none =>
          cases h
          exact Or.inl ⟨rfl, rfl, rfl⟩
      | some nextRel =>
          cases h
  | succ fuel ih =>
      cases next with
      | none =>
          cases h
          exact Or.inl ⟨rfl, rfl, rfl⟩
      | some nextRel =>
          rw [chainLoop] at h
          cases hresolve : v.resolveVaultPath nextRel with
          | error e =>
              rw [hresolve] at h
              cases h
          | ok rel =>
              rw [hresolve] at h
              simp only at h
              split at h
              case isTrue => cases h
              case isFalse =>
                cases hload : v.load rel with
                | error e =>
                    rw [hload] at h
                    cases h
                | ok fm =>
                    rw [hload] at h
                    simp only at h
                    split at h
                    case isTrue => cases h
                    case isFalse hread =>
                      have hop : Hop v access nextRel rel fm :=
                        ⟨hresolve, hload, by simpa using hread⟩
                      right
                      rcases ih h with ⟨hnone, rfl, rfl⟩ | ⟨n, rfl, hwalk⟩
                      · exact ⟨1, rfl, .last hop hnone⟩
                      · exact ⟨n + 1, by omega, .more hop hwalk⟩

end

/-! ## The sources of a receipt -/

section

variable {host : Host} {tensions : List TensionEntry} {access : Option AccessContext}

/-- What a source is of its document. -/
structure IsSource (host : Host) (tensions : List TensionEntry) (access : Option AccessContext)
    (s : ReceiptSource) : Prop where
  reads : ∃ version, host.read s.path = .ok (s.frontmatter, version)
  readable : denied access s.path s.frontmatter = false
  decay : s.decay = host.computeDecay s.frontmatter
  currentSource : s.currentSource =
    if s.frontmatter.supersededBy.isSome || decide (s.frontmatter.status = .superseded) then
      some (host.resolveChain s.path s.frontmatter.supersededBy)
    else none
  tensions : s.tensions = (touching tensions s.path).map (receiptTension host)

theorem isSource_of_sourceOf {rel : String} {s : ReceiptSource}
    (h : sourceOf host tensions access rel = .ok s) :
    s.path = rel ∧ IsSource host tensions access s := by
  obtain ⟨_, -, h⟩ := bind_eq_ok h
  obtain ⟨⟨fm, version⟩, hread, h⟩ := bind_eq_ok h
  obtain ⟨_, hrefuse, h⟩ := bind_eq_ok h
  cases h
  refine ⟨rfl, ⟨version, hread⟩, ?_, rfl, rfl, rfl⟩
  cases hdenied : denied access rel fm with
  | false => rfl
  | true =>
      unfold denied at hdenied
      rw [refuse, if_pos hdenied] at hrefuse
      cases hrefuse

theorem sourcesOf_spec {rels : List String} {sources : List ReceiptSource}
    (h : sourcesOf host tensions access rels = .ok sources) :
    sources.map ReceiptSource.path = rels ∧ ∀ s ∈ sources, IsSource host tensions access s := by
  induction rels generalizing sources with
  | nil =>
      cases h
      exact ⟨rfl, fun s hs => nomatch hs⟩
  | cons rel rest ih =>
      obtain ⟨s, hs, h⟩ := bind_eq_ok h
      obtain ⟨more, hmore, h⟩ := bind_eq_ok h
      cases h
      obtain ⟨hpath, hsource⟩ := isSource_of_sourceOf hs
      obtain ⟨hpaths, hall⟩ := ih hmore
      constructor
      · rw [List.map_cons, hpath, hpaths]
      · intro s' hs'
        rcases List.mem_cons.mp hs' with rfl | hmem
        · exact hsource
        · exact hall s' hmem

theorem mem_resolvedPaths {citations rels : List String}
    (h : resolvedPaths host citations = .ok rels) {rel : String} :
    rel ∈ rels ↔ ∃ p ∈ citations, host.resolveVaultPath p = .ok rel := by
  induction citations generalizing rels with
  | nil =>
      cases h
      simp
  | cons p rest ih =>
      obtain ⟨rel', hrel, h⟩ := bind_eq_ok h
      obtain ⟨more, hmore, h⟩ := bind_eq_ok h
      cases h
      rw [List.mem_cons, ih hmore]
      constructor
      · rintro (rfl | ⟨q, hq, hres⟩)
        · exact ⟨p, List.mem_cons_self, hrel⟩
        · exact ⟨q, List.mem_cons_of_mem _ hq, hres⟩
      · rintro ⟨q, hq, hres⟩
        rcases List.mem_cons.mp hq with rfl | hmem
        · rw [hrel] at hres
          exact Or.inl (Except.ok.inj hres).symm
        · exact Or.inr ⟨q, hmem, hres⟩

/-- **A receipt that is given**: its sources are the documents the citations name, and its
    flags are theirs. -/
theorem vaultReceipt_spec {entries : List TensionEntry} {citations : List String}
    {claim : Option String} {r : VaultReceiptResult}
    (h : vaultReceipt host entries citations claim access = .ok r) :
    (∀ rel, (∃ p ∈ citations, host.resolveVaultPath p = .ok rel) ↔ ∃ s ∈ r.sources, s.path = rel)
      ∧ (∀ s ∈ r.sources, IsSource host (openTensions host entries access) access s)
      ∧ (r.summary.flags = [] ↔ ∀ s ∈ r.sources, s.flags = []) := by
  obtain ⟨_, -, h⟩ := bind_eq_ok h
  obtain ⟨_, -, h⟩ := bind_eq_ok h
  obtain ⟨_, -, h⟩ := bind_eq_ok h
  obtain ⟨_, -, h⟩ := bind_eq_ok h
  obtain ⟨rels, hrels, h⟩ := bind_eq_ok h
  obtain ⟨sources, hsources, h⟩ := bind_eq_ok h
  cases h
  obtain ⟨hpaths, hall⟩ := sourcesOf_spec hsources
  refine ⟨fun rel => ?_, hall, ?_⟩
  · rw [← mem_resolvedPaths hrels, ← List.mem_eraseDups, ← hpaths, List.mem_map]
  · show Stable.sort Staleness.compareTexts (sources.flatMap ReceiptSource.flags).eraseDups = [] ↔ _
    rw [← List.flatMap_eq_nil_iff]
    constructor
    · intro hsorted
      refine List.eq_nil_iff_forall_not_mem.mpr fun flag hflag => ?_
      have hmem := (Stable.sort_perm Staleness.compareTexts
        (sources.flatMap ReceiptSource.flags).eraseDups).mem_iff.mpr (List.mem_eraseDups.mpr hflag)
      rw [hsorted] at hmem
      cases hmem
    · intro hnil
      rw [hnil]
      rfl

end

/-! ## What flags do not say -/

section

variable {v : Vault} {entries : List TensionEntry} {access : Option AccessContext}

variable {s : Option DecayLevel × List String}

theorem noted_fst {c : Bool} {level : DecayLevel} {reason : String} :
    (noted s c level reason).1 = if c then some (s.1.getD level) else s.1 := by
  unfold noted
  split
  · rfl
  · rfl

theorem noted_ne {c : Bool} {level : DecayLevel} {reason : String} (hs : s.1 ≠ some .deprecated)
    (hl : level ≠ .deprecated) : (noted s c level reason).1 ≠ some .deprecated := by
  rw [noted_fst]
  split
  case isTrue =>
    cases h : s.1 with
    | none => exact fun heq => hl (Option.some.inj heq)
    | some old =>
        rw [h] at hs
        exact hs
  case isFalse => exact hs

theorem decay_level_ne {clock : Clock} {fm : Fields} (hs : fm.status ≠ .superseded)
    (hd : fm.status ≠ .deprecated) :
    (computeDecay clock fm).map DecayState.level ≠ some .deprecated := by
  have hcauses : (decayCauses clock fm).1 ≠ some .deprecated := by
    unfold decayCauses
    simp only [decide_eq_false hs, decide_eq_false hd]
    exact noted_ne (noted_ne (noted_ne nofun nofun) nofun) nofun
  unfold computeDecay
  simp only [Option.map_map]
  intro h
  obtain ⟨level, hlevel, rfl⟩ := Option.map_eq_some_iff.mp h
  rw [noted_fst] at hlevel
  split at hlevel
  case isTrue hc =>
    have hnone : (decayCauses clock fm).1 = none := by
      simp only [Bool.and_eq_true] at hc
      simpa using hc.1.1
    rw [hnone] at hlevel
    cases hlevel
  case isFalse => exact hcauses hlevel

/-- A document without a flag. -/
structure Plain (v : Vault) (entries : List TensionEntry) (access : Option AccessContext)
    (rel : String) (fm : Fields) : Prop where
  status : fm.status = .canonical
  supersededBy : fm.supersededBy = none
  confidence : fm.confidence ≠ .low
  decay : computeDecay v.clock fm = none
  tensions : touching (openTensions (v.host access) entries access) rel = []

/-- **The documents of a receipt without flags.** -/
theorem flags_eq_nil_iff {s : ReceiptSource}
    (h : IsSource (v.host access) (openTensions (v.host access) entries access) access s) :
    s.flags = [] ↔ Plain v entries access s.path s.frontmatter := by
  have hif : ∀ (c : Prop) [Decidable c] (flag : String),
      (if c then [flag] else []) = [] ↔ ¬ c := by
    intro c _ flag
    split
    · simp_all
    · simp_all
  have hdecay : s.decay = (computeDecay v.clock s.frontmatter).map DecayState.level := h.decay
  unfold ReceiptSource.flags ownFlags
  simp only [List.append_eq_nil_iff, hif, not_not]
  constructor
  · rintro ⟨⟨⟨⟨⟨⟨⟨⟨hdep, harch⟩, hdraft⟩, hchain⟩, hconf⟩, hwarn⟩, haging⟩, -⟩, htens⟩
    rw [h.currentSource] at hchain
    have honChain : s.frontmatter.supersededBy = none ∧ s.frontmatter.status ≠ .superseded := by
      by_contra hno
      apply hchain
      rw [if_pos]
      · rfl
      · by_cases hnone : s.frontmatter.supersededBy = none
        · have hsup : s.frontmatter.status = .superseded := by
            by_contra hne
            exact hno ⟨hnone, hne⟩
          rw [decide_eq_true hsup, Bool.or_true]
        · rw [Option.isSome_iff_ne_none.mpr hnone]
          rfl
    refine ⟨?_, honChain.1, hconf, ?_, ?_⟩
    · cases hstatus : s.frontmatter.status with
      | canonical => rfl
      | draft => exact absurd hstatus hdraft
      | deprecated => exact absurd hstatus hdep
      | superseded => exact absurd hstatus honChain.2
      | archived => exact absurd hstatus harch
    · rw [hdecay] at hwarn haging
      have hret := @decay_level_ne v.clock s.frontmatter honChain.2 hdep
      cases hd : computeDecay v.clock s.frontmatter with
      | none => rfl
      | some d =>
          exfalso
          rw [hd] at hwarn haging hret
          cases hl : d.level with
          | deprecated => exact hret (by rw [Option.map_some, hl])
          | warn => exact hwarn (by rw [Option.map_some, hl])
          | aging => exact haging (by rw [Option.map_some, hl])
    · rw [h.tensions] at htens
      exact List.map_eq_nil_iff.mp htens
  · intro hp
    have hcurrent : s.currentSource = none := by
      rw [h.currentSource, hp.supersededBy, hp.status]
      rfl
    have hnone : s.decay = none := by
      rw [hdecay, hp.decay]
      rfl
    have htens : s.tensions = [] := by
      rw [h.tensions, hp.tensions]
      rfl
    rw [hcurrent, hnone, htens, hp.status]
    exact ⟨⟨⟨⟨⟨⟨⟨⟨nofun, nofun⟩, nofun⟩, nofun⟩, hp.confidence⟩, nofun⟩, nofun⟩, rfl⟩, rfl⟩

/-! ## When it is safe to quote -/

/-- A cited document, by its canonical path. -/
def Cited (v : Vault) (citations : List String) (rel : String) (fm : Fields) : Prop :=
  (∃ p ∈ citations, v.resolveVaultPath p = .ok rel) ∧ v.load rel = .ok fm

def Names (v : Vault) (t : TensionEntry) (rel : String) : Prop :=
  v.resolveVaultPath (String.ofList t.sourceA) = .ok rel
    ∨ v.resolveVaultPath (String.ofList t.sourceB) = .ok rel

def CanonicalLog (v : Vault) (entries : List TensionEntry) : Prop :=
  ∀ t ∈ entries, ∀ rel,
    (v.resolveVaultPath (String.ofList t.sourceA) = .ok rel → t.sourceA = rel.toList)
      ∧ (v.resolveVaultPath (String.ofList t.sourceB) = .ok rel → t.sourceB = rel.toList)

def OpenTo (v : Vault) (access : Option AccessContext) (t : TensionEntry) : Prop :=
  canSeeTension v.collection access t.sourceA t.sourceB = true ∧ t.resolved = false

/-- The document's window does not leave the day out. -/
def InWindow (v : Vault) (fm : Fields) : Prop :=
  ∀ report, Validity.computeValidity ⟨fm.validFrom, fm.validUntil⟩ v.clock.today = some report →
    report.state ≠ .expired ∧ report.state ≠ .notYet

/-- **Safe to quote**: canonical and current, in force on the day, and not disputed. -/
structure Safe (v : Vault) (entries : List TensionEntry) (access : Option AccessContext)
    (rel : String) (fm : Fields) : Prop where
  status : fm.status = .canonical
  supersededBy : fm.supersededBy = none
  decay : computeDecay v.clock fm = none
  validity : InWindow v fm
  positions : Positions.isContested (fm.positions.getD []) = false
  tensions : ∀ t ∈ entries, OpenTo v access t → ¬ Names v t rel

/-- What no flag tells: the window, the positions, and tensions that are open under
    another status. -/
structure Quiet (v : Vault) (entries : List TensionEntry) (access : Option AccessContext)
    (rel : String) (fm : Fields) : Prop where
  validity : InWindow v fm
  positions : Positions.isContested (fm.positions.getD []) = false
  tensions : ∀ t ∈ entries, OpenTo v access t → Names v t rel → t.status = defaultTensionStatus

theorem Plain.safe_iff {rel : String} {fm : Fields} (hlog : CanonicalLog v entries)
    (h : Plain v entries access rel fm) :
    Safe v entries access rel fm ↔ Quiet v entries access rel fm := by
  constructor
  · intro hs
    exact ⟨hs.validity, hs.positions,
      fun t ht hopen hnames => absurd hnames (hs.tensions t ht hopen)⟩
  · intro hq
    refine ⟨h.status, h.supersededBy, h.decay, hq.validity, hq.positions, ?_⟩
    intro t ht hopen hnames
    have htouch : t ∈ touching (openTensions (v.host access) entries access) rel := by
      refine List.mem_filter.mpr ⟨List.mem_filter.mpr ⟨List.mem_filter.mpr ⟨ht, ?_⟩, hopen.1⟩, ?_⟩
      · exact decide_eq_true (hq.tensions t ht hopen hnames)
      · refine decide_eq_true ?_
        rcases hnames with hA | hB
        · exact Or.inl ((hlog t ht rel).1 hA)
        · exact Or.inr ((hlog t ht rel).2 hB)
    rw [h.tensions] at htouch
    cases htouch

theorem read_eq_ok_iff {rel : String} {fm : Fields} :
    (∃ version, (v.host access).read rel = .ok (fm, version)) ↔ v.load rel = .ok fm := by
  constructor
  · rintro ⟨version, h⟩
    obtain ⟨text, htext, h⟩ := bind_eq_ok h
    obtain ⟨fm', hfm, h⟩ := bind_eq_ok h
    cases h
    show (v.readFile rel).bind v.parseDocument = _
    rw [htext]
    exact hfm
  · intro h
    obtain ⟨text, htext, hfm⟩ := bind_eq_ok h
    refine ⟨v.sha256Hex text, ?_⟩
    show (v.readFile rel).bind _ = _
    rw [htext]
    show (v.parseDocument text).bind _ = _
    rw [hfm]
    rfl

theorem cited_iff {citations : List String} {claim : Option String} {r : VaultReceiptResult}
    (h : vaultReceipt (v.host access) entries citations claim access = .ok r) {rel : String}
    {fm : Fields} :
    Cited v citations rel fm ↔ ∃ s ∈ r.sources, s.path = rel ∧ s.frontmatter = fm := by
  obtain ⟨hcited, hall, -⟩ := vaultReceipt_spec h
  constructor
  · rintro ⟨hp, hload⟩
    obtain ⟨s, hs, rfl⟩ := (hcited rel).mp hp
    have hread := read_eq_ok_iff.mp (hall s hs).reads
    exact ⟨s, hs, rfl, Except.ok.inj (hread.symm.trans hload)⟩
  · rintro ⟨s, hs, rfl, rfl⟩
    exact ⟨(hcited s.path).mpr ⟨s, hs, rfl⟩, read_eq_ok_iff.mp (hall s hs).reads⟩

theorem currentSource_walk_iff {s : ReceiptSource}
    (h : IsSource (v.host access) (openTensions (v.host access) entries access) access s) :
    (∀ last title hops, s.currentSource = some (.resolved last title hops) → 1 ≤ hops
        ∧ denied access s.path s.frontmatter = false
        ∧ Walk v access s.frontmatter.supersededBy hops last) ↔
      (s.frontmatter.status = .superseded → s.frontmatter.supersededBy ≠ none) := by
  constructor
  · intro hall hsup hnone
    have hcur : s.currentSource = some (.resolved s.path "" 0) := by
      rw [h.currentSource, hnone, hsup]
      rfl
    have hpos := (hall _ _ _ hcur).1
    omega
  · intro hsup last title hops hcur
    rw [h.currentSource] at hcur
    split at hcur
    case isTrue honChain =>
      have hchain : chainLoop v access _ _ _ _ _ _ = .resolved last title hops :=
        Option.some.inj hcur
      rcases chainLoop_resolved hchain with ⟨hnone, -, -⟩ | ⟨n, rfl, hwalk⟩
      · rw [hnone, Option.isSome_none, Bool.false_or, decide_eq_true_eq] at honChain
        exact absurd hnone (hsup honChain)
      · rw [Nat.zero_add]
        refine ⟨?_, h.readable, hwalk⟩
        generalize s.frontmatter.supersededBy = next at hwalk
        cases hwalk with
        | last => exact Nat.le_refl _
        | more => exact Nat.succ_le_succ (Nat.zero_le _)
    case isFalse => cases hcur

/-- **When a receipt is as good as it says.**  A receipt without flags is safe to quote,
    and a chain it calls resolved is a walk of at least one hop to a readable document,
    exactly where the documents it cites, if none of them is flagged, are all in their
    window, not contested by their positions and in no open tension under another status,
    and none is marked as superseded without saying by what. -/
theorem receipt_safe_iff {citations : List String} {claim : Option String} {r : VaultReceiptResult}
    (hlog : CanonicalLog v entries)
    (h : vaultReceipt (v.host access) entries citations claim access = .ok r) :
    ((r.summary.flags = [] → ∀ rel fm, Cited v citations rel fm → Safe v entries access rel fm)
        ∧ ∀ s ∈ r.sources, ∀ last title hops,
            s.currentSource = some (.resolved last title hops) → 1 ≤ hops
              ∧ denied access s.path s.frontmatter = false
              ∧ Walk v access s.frontmatter.supersededBy hops last) ↔
      ((∀ rel fm, Cited v citations rel fm → Plain v entries access rel fm) →
          ∀ rel fm, Cited v citations rel fm → Quiet v entries access rel fm)
        ∧ ∀ rel fm, Cited v citations rel fm →
          fm.status = .superseded → fm.supersededBy ≠ none := by
  obtain ⟨-, hall, hflags⟩ := vaultReceipt_spec h
  have hplain : r.summary.flags = [] ↔
      ∀ rel fm, Cited v citations rel fm → Plain v entries access rel fm := by
    rw [hflags]
    constructor
    · intro hnil rel fm hcited
      obtain ⟨s, hs, rfl, rfl⟩ := (cited_iff h).mp hcited
      exact (flags_eq_nil_iff (hall s hs)).mp (hnil s hs)
    · intro hp s hs
      exact (flags_eq_nil_iff (hall s hs)).mpr (hp _ _ ((cited_iff h).mpr ⟨s, hs, rfl, rfl⟩))
  rw [hplain]
  refine and_congr ?_ ?_
  · refine forall_congr' fun hp => ?_
    refine forall_congr' fun rel => forall_congr' fun fm => forall_congr' fun hcited => ?_
    exact (hp rel fm hcited).safe_iff hlog
  · constructor
    · intro hwalks rel fm hcited
      obtain ⟨s, hs, rfl, rfl⟩ := (cited_iff h).mp hcited
      exact (currentSource_walk_iff (hall s hs)).mp (hwalks s hs)
    · intro hsup s hs
      exact (currentSource_walk_iff (hall s hs)).mpr
        (hsup _ _ ((cited_iff h).mpr ⟨s, hs, rfl, rfl⟩))

end

/-! ## A window that has closed -/

/-- A document whose window has closed, and one marked as superseded by nothing. -/
def noticeFields (text : String) : Except String Fields :=
  if text = "expired" then
    .ok { Frontmatter.coerce (fun _ => "")
            [("status", .str "canonical"), ("confidence", .str "high")] with
            validUntil := some "2026-01-01" }
  else if text = "retired" then
    .ok (Frontmatter.coerce (fun _ => "")
      [("status", .str "superseded"), ("confidence", .str "high")])
  else .error "malformed YAML frontmatter"

def noticeVault : Vault where
  resolveVaultPath := fun p => .ok p
  readFile := fun p =>
    if p = "notes/rate.md" then .ok "expired"
    else if p = "notes/old.md" then .ok "retired"
    else .error "cannot read file: ENOENT"
  paths := ["notes/rate.md", "notes/old.md"]
  finite := by
    intro rel text h
    split at h
    case isTrue h₁ => exact h₁ ▸ List.mem_cons_self
    case isFalse =>
      split at h
      case isTrue h₂ => exact h₂ ▸ List.mem_cons_of_mem _ List.mem_cons_self
      case isFalse => cases h
  parseDocument := noticeFields
  sha256Hex := fun text => text
  agingTier := fun _ => none
  collection := collectionForPath
  clock := ⟨"2026-06-01", fun _ => 0, fun _ => 0⟩

/-- **A receipt without flags for a document that no longer holds**, and a chain called
    resolved after no hop, for a document that says it is superseded. -/
theorem no_flag_for_closed_window :
    ((vaultReceipt (noticeVault.host none) [] ["notes/rate.md"] none none).toOption.map
        fun r => r.summary.flags) = some []
      ∧ (noticeFields "expired").toOption.map (fun fm => (Validity.computeValidity
          ⟨fm.validFrom, fm.validUntil⟩ noticeVault.clock.today).map Validity.ValidityReport.state)
        = some (some .expired)
      ∧ ((vaultReceipt (noticeVault.host none) [] ["notes/old.md"] none none).toOption.map
          fun r => r.sources.map ReceiptSource.currentSource)
        = some [some (.resolved "notes/old.md" "" 0)] := by
  refine ⟨?_, ?_, ?_⟩
  · decide +kernel
  · decide +kernel
  · decide +kernel

/-- At the receipt for the document whose window has closed. -/
theorem receipt_safe_iff_closed_window :
    CanonicalLog noticeVault [] ∧
      ∃ r, vaultReceipt (noticeVault.host none) [] ["notes/rate.md"] none none = .ok r
        ∧ (((r.summary.flags = [] → ∀ rel fm, Cited noticeVault ["notes/rate.md"] rel fm →
              Safe noticeVault [] none rel fm)
            ∧ ∀ s ∈ r.sources, ∀ last title hops,
                s.currentSource = some (.resolved last title hops) → 1 ≤ hops
                  ∧ denied none s.path s.frontmatter = false
                  ∧ Walk noticeVault none s.frontmatter.supersededBy hops last) ↔
          ((∀ rel fm, Cited noticeVault ["notes/rate.md"] rel fm →
              Plain noticeVault [] none rel fm) →
            ∀ rel fm, Cited noticeVault ["notes/rate.md"] rel fm → Quiet noticeVault [] none rel fm)
          ∧ ∀ rel fm, Cited noticeVault ["notes/rate.md"] rel fm → fm.status = .superseded →
              fm.supersededBy ≠ none) := by
  have hlog : CanonicalLog noticeVault [] := fun t ht => nomatch ht
  have hok : (vaultReceipt (noticeVault.host none) [] ["notes/rate.md"] none none).isOk = true := by
    decide +kernel
  cases h : vaultReceipt (noticeVault.host none) [] ["notes/rate.md"] none none with
  | error e =>
      rw [h] at hok
      cases hok
  | ok r => exact ⟨hlog, r, rfl, receipt_safe_iff hlog h⟩

end Receipt
