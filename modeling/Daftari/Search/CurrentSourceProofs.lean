import Daftari.Curation.ChainTableProofs
import Daftari.Search.ReindexProofs

/-! # Current sources — what replaced a document, and what the chains say of it

    `search/current-source.ts`: from a document the pointers are followed over the index, to
    the document that nothing replaced, or to the first hop that stops the walk.  The chains
    of a vault are walked on their own, with their own order of checks.

    * `resolveLoop_eq`: **the two walks go in step**, by what a walk of the chains ends in;
    * `walks_agree`: **the verdicts of one walk are the places of the other.** -/

namespace Sources

open Search (IndexedDocument)
open Rbac (AccessContext canRead)
open Chain Chains

/-! ## The index -/

structure IndexDb where
  docs : List IndexedDocument
  distinct : (docs.map IndexedDocument.path).Nodup

def getDocument (db : IndexDb) (path : String) : Option IndexedDocument :=
  db.docs.find? fun d => d.path = path

/-- May the caller read it?  Without an access context everything is readable. -/
def readable (access : Option AccessContext) (doc : IndexedDocument) : Bool :=
  access.all fun a => canRead a.role doc.collection

variable {db : IndexDb} {access : Option AccessContext}

variable {doc : IndexedDocument}

theorem getDocument_eq_some {path : String} :
    getDocument db path = some doc ↔ doc ∈ db.docs ∧ doc.path = path := by
  unfold getDocument
  constructor
  · intro h
    have hpath := List.find?_some h
    exact ⟨List.mem_of_find?_eq_some h, of_decide_eq_true hpath⟩
  · rintro ⟨hmem, rfl⟩
    cases hfind : db.docs.find? fun d => d.path = doc.path with
    | none => exact absurd (decide_eq_true rfl) (List.find?_eq_none.mp hfind doc hmem)
    | some other =>
        have hpath := List.find?_some hfind
        exact congrArg some (List.inj_on_of_nodup_map db.distinct
          (List.mem_of_find?_eq_some hfind) hmem (of_decide_eq_true hpath))

theorem getDocument_eq_none {path : String} :
    getDocument db path = none ↔ ∀ doc ∈ db.docs, doc.path ≠ path := by
  unfold getDocument
  simp

/-! ## The walk -/

/-- `/\s+/g` is replaced by one space; the flag says that one was just written. -/
def collapseSpaces : Bool → List Char → List Char
  | _, [] => []
  | inSpace, c :: s =>
      if Text.isSpace c then
        if inSpace then collapseSpaces true s else ' ' :: collapseSpaces true s
      else c :: collapseSpaces false s

def previewMax : Nat := 280

/-- `previewSnippet`, as UTF-16 units. -/
def previewSnippet (content : List Char) : List Nat :=
  let collapsed := Text.units (Text.trim (collapseSpaces false content))
  if collapsed.length > previewMax then collapsed.take previewMax ++ Text.units ['…'] else collapsed

inductive CurrentSource where
  | resolved (path title : String) (snippet : List Nat) (hops : Nat)
  | restricted
  | dangling (brokenAt : String)
  | cycle
deriving DecidableEq

/-- The loop of `resolveCurrentSource` at a document, with the paths that were visited.
    `none` is a loop that has not ended. -/
def resolveLoop (db : IndexDb) (access : Option AccessContext) :
    Nat → List String → IndexedDocument → Nat → Option CurrentSource
  | 0, _, _, _ => none
  | fuel + 1, visited, doc, hops =>
      match doc.supersededBy with
      | none => some (.resolved doc.path doc.title (previewSnippet doc.content) hops)
      | some nextPath =>
          if nextPath ∈ visited then some .cycle
          else
            match getDocument db nextPath with
            | none => some (.dangling doc.path)
            | some next =>
                if readable access next then
                  resolveLoop db access fuel (nextPath :: visited) next (hops + 1)
                else some .restricted

/-- `resolveCurrentSource`: nothing for a document that is not superseded. -/
def resolveCurrentSource (db : IndexDb) (stalePath : String) (access : Option AccessContext) :
    Option CurrentSource :=
  match getDocument db stalePath with
  | none => none
  | some doc =>
      if doc.supersededBy = none then none
      else resolveLoop db access (db.docs.length + 1) [doc.path] doc 0

/-! ## The chains of the index -/

/-- `getSupersessionGraph`, of a row. -/
def toChainDoc (doc : IndexedDocument) : ChainDoc where
  path := doc.path
  collection := doc.collection
  status := Frontmatter.Choice.text doc.status
  updated := doc.updated
  supersededBy := doc.supersededBy

def graph (db : IndexDb) : List ChainDoc := db.docs.map toChainDoc

def reads (access : Option AccessContext) (doc : ChainDoc) : Bool :=
  access.all fun a => canRead a.role doc.collection

theorem graph_distinct (db : IndexDb) : ((graph db).map ChainDoc.path).Nodup := by
  have hsame : (graph db).map ChainDoc.path = db.docs.map IndexedDocument.path := by
    unfold graph
    rw [List.map_map]
    rfl
  rw [hsame]
  exact db.distinct

theorem mem_graph (h : doc ∈ db.docs) : toChainDoc doc ∈ graph db :=
  List.mem_map_of_mem h

theorem byPath_graph (path : String) :
    byPath (graph db) path = (getDocument db path).map toChainDoc := by
  cases hget : getDocument db path with
  | none =>
      cases hby : byPath (graph db) path with
      | none => rfl
      | some found =>
          obtain ⟨hmem, hpath⟩ := mem_of_byPath hby
          obtain ⟨doc, hdoc, rfl⟩ := List.mem_map.mp hmem
          exact absurd hpath (getDocument_eq_none.mp hget doc hdoc)
  | some doc =>
      obtain ⟨hdoc, rfl⟩ := getDocument_eq_some.mp hget
      exact Assoc.lastBy_of_mem (graph_distinct db) (mem_graph hdoc)

/-! ## The two walks in step -/

/-- What the index says where a walk of the chains ends. -/
def verdict (db : IndexDb) : WalkEnd → Option CurrentSource
  | .head h depth false =>
      (getDocument db h.path).map fun d =>
        .resolved d.path d.title (previewSnippet d.content) depth
  | .head h _ true => some (.dangling h.path)
  | .restricted _ _ => some .restricted
  | .loop _ _ => some .cycle

/-- A trail of readable rows, as the two walks hold it: the paths of the one are those of the
    other. -/
structure Step (db : IndexDb) (access : Option AccessContext) (visited : List String)
    (trail : List ChainDoc) (doc : IndexedDocument) : Prop where
  known : trail ⊆ graph db
  read : ∀ d ∈ trail, reads access d = true
  nodup : (trail.map ChainDoc.path).Nodup
  visited : ∀ p, p ∈ visited ↔ p ∈ trail.map ChainDoc.path
  current : doc ∈ db.docs
  pos : 0 < trail.length

theorem Step.start (hdoc : doc ∈ db.docs) (hread : readable access doc = true) :
    Step db access [doc.path] [toChainDoc doc] doc where
  known := List.cons_subset.mpr ⟨mem_graph hdoc, List.nil_subset _⟩
  read := by
    intro d hd
    obtain rfl := List.mem_singleton.mp hd
    exact hread
  nodup := List.nodup_singleton _
  visited := fun _ => Iff.rfl
  current := hdoc
  pos := Nat.zero_lt_one

variable {visited : List String} {trail : List ChainDoc}

theorem Step.push {next : IndexedDocument} (h : Step db access visited trail doc)
    (hnext : next ∈ db.docs) (hread : readable access next = true) (hnew : next.path ∉ visited) :
    Step db access (next.path :: visited) (trail ++ [toChainDoc next]) next where
  known := List.append_subset.mpr
    ⟨h.known, List.cons_subset.mpr ⟨mem_graph hnext, List.nil_subset _⟩⟩
  read := by
    exact List.forall_mem_append.mpr ⟨h.read, List.forall_mem_singleton.mpr hread⟩
  nodup := by
    rw [List.map_append, List.nodup_append]
    refine ⟨h.nodup, List.nodup_singleton _, ?_⟩
    rintro a ha b hb rfl
    rw [List.map_singleton, List.mem_singleton] at hb
    rw [h.visited] at hnew
    rw [hb] at ha
    exact hnew ha
  visited := by
    intro p
    rw [List.map_append, List.mem_append, List.mem_cons, h.visited, or_comm]
    exact or_congr_right List.mem_singleton.symm
  current := hnext
  pos := by
    rw [List.length_append]
    exact Nat.add_pos_left h.pos _

theorem Step.length_le (h : Step db access visited trail doc) : trail.length ≤ db.docs.length := by
  have hsub : trail.map ChainDoc.path ⊆ (graph db).map ChainDoc.path := List.map_subset _ h.known
  have hle := (List.subperm_of_subset h.nodup hsub).length_le
  unfold graph at hle
  rwa [List.length_map, List.length_map, List.length_map] at hle

/-- **The two walks go in step**: what one finds is what the index says of the other's end. -/
theorem resolveLoop_eq {fuel : Nat} (h : Step db access visited trail doc)
    (hfuel : db.docs.length < fuel + trail.length) :
    resolveLoop db access fuel visited doc (trail.length - 1)
      = verdict db (walkLoop (byPath (graph db)) (reads access) fuel trail (toChainDoc doc)) := by
  induction fuel generalizing visited trail doc with
  | zero =>
      have hle := h.length_le
      omega
  | succ fuel ih =>
      unfold resolveLoop walkLoop
      have hpointer : (toChainDoc doc).supersededBy = doc.supersededBy := rfl
      rw [hpointer]
      cases hby : doc.supersededBy with
      | none =>
          have hget : getDocument db doc.path = some doc :=
            getDocument_eq_some.mpr ⟨h.current, rfl⟩
          change _ = (getDocument db doc.path).map _
          rw [hget]
          rfl
      | some nextPath =>
          dsimp only
          rw [byPath_graph]
          by_cases hvisited : nextPath ∈ visited
          · -- a path that was visited is a readable document's
            rw [if_pos hvisited]
            obtain ⟨seen, hseen, rfl⟩ := List.mem_map.mp ((h.visited nextPath).mp hvisited)
            obtain ⟨row, hrow, rfl⟩ := List.mem_map.mp (h.known hseen)
            have hget : getDocument db (toChainDoc row).path = some row :=
              getDocument_eq_some.mpr ⟨hrow, rfl⟩
            have hread := h.read _ hseen
            rw [hget, Option.map_some]
            dsimp only
            rw [if_neg (by simpa using hread)]
            cases hat : trail.findIdx? fun d => d.path = (toChainDoc row).path with
            | none =>
                rw [List.findIdx?_eq_none_iff] at hat
                exact absurd (hat _ hseen) (by simp)
            | some seenAt => rfl
          · rw [if_neg hvisited]
            cases hget : getDocument db nextPath with
            | none => rfl
            | some next =>
                obtain ⟨hnext, rfl⟩ := getDocument_eq_some.mp hget
                dsimp only [Option.map_some]
                have hsame : reads access (toChainDoc next) = readable access next := rfl
                rw [hsame]
                cases hread : readable access next with
                | false => rfl
                | true =>
                    have hat : (trail.findIdx? fun d => d.path = (toChainDoc next).path)
                        = none := by
                      rw [List.findIdx?_eq_none_iff]
                      intro d hd
                      refine decide_eq_false fun hpath => hvisited ?_
                      rw [h.visited]
                      exact List.mem_map.mpr ⟨d, hd, hpath⟩
                    rw [hat]
                    have hstep := ih (h.push hnext hread hvisited) (by
                      rw [List.length_append, List.length_singleton]
                      omega)
                    rw [List.length_append, List.length_singleton, Nat.add_sub_cancel] at hstep
                    rw [Nat.sub_add_cancel h.pos]
                    exact hstep

/-- **What is found for a superseded document** is what the index says of its walk's end. -/
theorem resolveCurrentSource_eq (hdoc : doc ∈ db.docs) (hread : readable access doc = true)
    (hby : doc.supersededBy ≠ none) : resolveCurrentSource db doc.path access
      = verdict db (walk (graph db) (reads access) (toChainDoc doc)) := by
  have hget : getDocument db doc.path = some doc := getDocument_eq_some.mpr ⟨hdoc, rfl⟩
  have hlen : (graph db).length = db.docs.length := List.length_map _
  unfold resolveCurrentSource walk walkForward
  rw [hget]
  dsimp only
  rw [if_neg hby, hlen]
  refine resolveLoop_eq (Step.start hdoc hread) ?_
  omega

/-! ## Where the chains put a document -/

def Placed (c : ChainReport) (path : String) (depth : Nat) : Prop :=
  ∃ r ∈ c.replaced, r.path = path ∧ r.depth = depth

section Place

variable {docs : List ChainDoc} {reading : ChainDoc → Bool}

theorem report_of_counts (hpaths : (docs.map ChainDoc.path).Nodup) {doc : ChainDoc}
    (hdoc : doc ∈ docs) (hcounts : counts docs reading doc = true) :
    ∃ c ∈ computeChains docs reading, c.head = (walk docs reading doc).chainHead ∧
      c.flags = (walk docs reading doc).chainFlags ∧
      ∀ r ∈ (walk docs reading doc).entries doc, r ∈ c.replaced := by
  obtain ⟨i, hi⟩ := (filed_all hpaths).covered doc hdoc hcounts
  obtain ⟨q, hq⟩ := List.exists_mem_of_ne_nil _ (keys_ne_nil (walk_spec reading hpaths hdoc))
  have hlt := (filed_all hpaths).bounded q i (hi q hq)
  have hlen := congrArg List.length (shown_chainTable docs reading)
  rw [List.length_map, List.length_map] at hlen
  rw [← hlen] at hlt
  obtain ⟨d, hd, hcd, hkeys, hhead, hflags, hreplaced⟩ :=
    draft_origin hpaths (List.getElem?_eq_getElem hlt)
  have hqd : q ∈ (walk docs reading d).keys := (hkeys q).mp (hi q hq)
  obtain ⟨-, hsameHead, hsameFlags⟩ := agree hpaths hdoc hcounts hd hcd hq hqd
  refine ⟨report _, ?_, hhead.trans hsameHead.symm, hflags.trans hsameFlags.symm, fun r hr => ?_⟩
  · exact (Stable.sort_perm compareChains _).mem_iff.mpr
      (List.mem_map_of_mem (List.getElem_mem hlt))
  · refine (Stable.sort_perm compareReplaced _).mem_iff.mpr ?_
    rw [hreplaced]
    exact mem_replacedOf.mpr ⟨doc, hdoc, hcounts,
      List.any_eq_true.mpr ⟨q, hq, decide_eq_true hqd⟩, hr⟩

theorem walk_of_placed (hpaths : (docs.map ChainDoc.path).Nodup) {doc : ChainDoc}
    (hdoc : doc ∈ docs) {c : ChainReport} (hc : c ∈ computeChains docs reading) {depth : Nat}
    (h : Placed c doc.path depth) :
    c.head = (walk docs reading doc).chainHead ∧ c.flags = (walk docs reading doc).chainFlags ∧
      ∃ r ∈ (walk docs reading doc).entries doc, r.depth = depth := by
  obtain ⟨d, hd, hcd, hhead, hflags, hreplaced⟩ := report_origin hpaths hc
  obtain ⟨r, hr, hpath, hdepth⟩ := h
  obtain ⟨x, hx, hcx, hsame, hrx⟩ := mem_replacedOf.mp (hreplaced.mem_iff.mp hr)
  have hxpath : x.path = doc.path := by
    rw [← hpath]
    exact (congrArg ChainMember.path (path_of_entries hrx).1).symm
  obtain rfl := List.inj_on_of_nodup_map hpaths hx hdoc hxpath
  obtain ⟨q, hq, hqd⟩ := List.any_eq_true.mp hsame
  obtain ⟨-, hsameHead, hsameFlags⟩ := agree hpaths hx hcx hd hcd hq (of_decide_eq_true hqd)
  exact ⟨hhead.trans hsameHead.symm, hflags.trans hsameFlags.symm, r, hrx, hdepth⟩

/-- **The chains put a document where its walk ends**: in a chain with that head and those flags,
    at that depth. -/
theorem placed_iff (hpaths : (docs.map ChainDoc.path).Nodup) {doc : ChainDoc} (hdoc : doc ∈ docs)
    (hcounts : counts docs reading doc = true) {P : Option ChainMember → List ChainFlag → Prop}
    {depth : Nat} : (∃ c ∈ computeChains docs reading, P c.head c.flags ∧ Placed c doc.path depth) ↔
      P (walk docs reading doc).chainHead (walk docs reading doc).chainFlags ∧
        ∃ r ∈ (walk docs reading doc).entries doc, r.depth = depth := by
  constructor
  · rintro ⟨c, hc, hP, hplaced⟩
    obtain ⟨hhead, hflags, hentry⟩ := walk_of_placed hpaths hdoc hc hplaced
    rw [hhead, hflags] at hP
    exact ⟨hP, hentry⟩
  · rintro ⟨hP, r, hr, hdepth⟩
    obtain ⟨c, hc, hhead, hflags, hentries⟩ := report_of_counts hpaths hdoc hcounts
    refine ⟨c, hc, ?_, r, hentries r hr, ?_, hdepth⟩
    · rw [hhead, hflags]
      exact hP
    · exact congrArg ChainMember.path (path_of_entries hr).1

end Place

/-! ## The verdicts and the chains -/

/-- The chains as the caller is told them. -/
def chainsOf (db : IndexDb) (access : Option AccessContext) : List ChainReport :=
  computeChains (graph db) (reads access)

theorem mem_statusFlags {h : ChainDoc} {dangling : Bool} :
    (.dangling ∈ statusFlags h dangling ↔ dangling = true) ∧
      .restricted ∉ statusFlags h dangling ∧ .loop ∉ statusFlags h dangling := by
  simp [statusFlags]

theorem pointed_eq_none {doc : ChainDoc} : pointed (graph db) doc = none ↔
    ∀ path, doc.supersededBy = some path → getDocument db path = none := by
  unfold pointed
  rw [Option.bind_eq_none_iff]
  refine forall₂_congr fun path _ => ?_
  rw [byPath_graph, Option.map_eq_none_iff]

section Ends

variable {doc : IndexedDocument}

/-- A walk that stops at a pointer to no document. -/
def Dangles (db : IndexDb) (access : Option AccessContext) (doc : IndexedDocument) : Prop :=
  ∃ last hops, Stops (hop (graph db) (reads access)) (toChainDoc doc) last hops ∧
    ∃ path, last.supersededBy = some path ∧ getDocument db path = none

variable {depth : Nat}

theorem dangles_head {h : ChainDoc} {dangling : Bool}
    (hends : EndsAs (graph db) (reads access) (toChainDoc doc) (.head h depth dangling)) :
    Dangles db access doc ↔ dangling = true := by
  obtain ⟨hstops, hpointed, hdangling⟩ := hends
  rw [hdangling]
  constructor
  · rintro ⟨last, hops, hlast, path, hpath, -⟩
    obtain ⟨rfl, -⟩ := hlast.unique hstops
    rw [hpath]
    exact Option.some_ne_none _
  · intro hne
    obtain ⟨path, hpath⟩ := Option.ne_none_iff_exists'.mp hne
    exact ⟨h, depth, hstops, path, hpath, pointed_eq_none.mp hpointed path hpath⟩

theorem dangles_restricted {x : ChainDoc}
    (hends : EndsAs (graph db) (reads access) (toChainDoc doc) (.restricted x depth)) :
    ¬ Dangles db access doc := by
  obtain ⟨c, k, -, hstops, hx, -⟩ := hends
  rintro ⟨last, hops, hlast, path, hpath, hnone⟩
  obtain ⟨rfl, -⟩ := hlast.unique hstops
  unfold pointed at hx
  rw [hpath, Option.bind_some, byPath_graph, hnone] at hx
  cases hx

theorem dangles_loop {cycle : List ChainDoc}
    (hends : EndsAs (graph db) (reads access) (toChainDoc doc) (.loop cycle depth)) :
    ¬ Dangles db access doc := by
  obtain ⟨c, -, hc, hcycle, -⟩ := hends
  rintro ⟨last, hops, hlast, -⟩
  exact hlast.not_onCycle ⟨depth, hc⟩ hcycle

theorem verdict_head (hdoc : doc ∈ db.docs) (hread : readable access doc = true) {h : ChainDoc}
    (hends : EndsAs (graph db) (reads access) (toChainDoc doc) (.head h depth false)) :
    ∃ row : IndexedDocument, verdict db (.head h depth false)
      = some (.resolved h.path row.title (previewSnippet row.content) depth) := by
  obtain ⟨hmem, -⟩ := readable_of_reaches (mem_graph hdoc) hread ⟨depth, hends.1.1⟩
  obtain ⟨row, hrow, rfl⟩ := List.mem_map.mp hmem
  have hget : getDocument db (toChainDoc row).path = some row :=
    getDocument_eq_some.mpr ⟨hrow, rfl⟩
  refine ⟨row, ?_⟩
  change (getDocument db (toChainDoc row).path).map _ = _
  rw [hget]
  rfl

theorem depth_pos (hby : doc.supersededBy ≠ none) {h : ChainDoc}
    (hends : EndsAs (graph db) (reads access) (toChainDoc doc) (.head h depth false)) :
    0 < depth := by
  obtain ⟨⟨hfollow, -⟩, -, hdangling⟩ := hends
  rcases Nat.eq_zero_or_pos depth with rfl | hpos
  · obtain rfl := Option.some.inj hfollow
    exact absurd (hdangling.mpr hby) Bool.false_ne_true
  · exact hpos

end Ends

/-- The verdict on a document that is superseded, and what the chains say of it: a document in a
    chain with a head that is not dangling is resolved to it, one in a restricted chain is
    restricted, one in a loop chain is on a cycle, and one whose walk ends at a pointer to no
    document is dangling; and both walks end. -/
structure Agrees (db : IndexDb) (access : Option AccessContext) (doc : IndexedDocument) :
    Prop where
  resolved : ∀ head hops,
    (∃ title snippet, resolveCurrentSource db doc.path access
      = some (.resolved head title snippet hops)) ↔
    ∃ c ∈ chainsOf db access, (c.head.map ChainMember.path = some head ∧ .dangling ∉ c.flags) ∧
      Placed c doc.path hops
  restricted : resolveCurrentSource db doc.path access = some .restricted ↔
    ∃ depth, ∃ c ∈ chainsOf db access, .restricted ∈ c.flags ∧ Placed c doc.path depth
  cycle : resolveCurrentSource db doc.path access = some .cycle ↔
    ∃ depth, ∃ c ∈ chainsOf db access, .loop ∈ c.flags ∧ Placed c doc.path depth
  dangling : (∃ brokenAt, resolveCurrentSource db doc.path access = some (.dangling brokenAt)) ↔
    Dangles db access doc
  ends : (resolveCurrentSource db doc.path access).isSome = true ∧
    EndsAs (graph db) (reads access) (toChainDoc doc)
      (walk (graph db) (reads access) (toChainDoc doc))

/-- **THE VERDICTS OF ONE WALK ARE THE PLACES OF THE OTHER**, for every superseded document that
    the caller can read, in every index. -/
theorem walks_agree (db : IndexDb) (access : Option AccessContext) {doc : IndexedDocument}
    (hdoc : doc ∈ db.docs) (hread : readable access doc = true) (hby : doc.supersededBy ≠ none) :
    Agrees db access doc := by
  have hpaths := graph_distinct db
  have hmem := mem_graph hdoc
  have hcounts : counts (graph db) (reads access) (toChainDoc doc) = true :=
    (counts_iff hpaths hmem).mpr ⟨hread, Or.inl hby⟩
  have hplaced := fun (P : Option ChainMember → List ChainFlag → Prop) (n : Nat) =>
    @placed_iff (graph db) (reads access) hpaths (toChainDoc doc) hmem hcounts P n
  have hresolved := fun head => hplaced fun h flags =>
    h.map ChainMember.path = some head ∧ .dangling ∉ flags
  have hrestricted := fun n => hplaced (fun _ flags => .restricted ∈ flags) n
  have hcycle := fun n => hplaced (fun _ flags => .loop ∈ flags) n
  have hends := walk_spec (reads access) hpaths hmem
  have hverdict := resolveCurrentSource_eq hdoc hread hby
  have hfull : EndsAs (graph db) (reads access) (toChainDoc doc)
      (walk (graph db) (reads access) (toChainDoc doc)) := hends
  cases hw : walk (graph db) (reads access) (toChainDoc doc) with
  | head h depth dangling =>
      rw [hw] at hends hverdict
      simp only [hw] at hresolved hrestricted hcycle
      obtain ⟨hflag, hnoRestricted, hnoLoop⟩ := @mem_statusFlags h dangling
      have hdangles := dangles_head hends
      have hrestricted' : ¬ ∃ depth, ∃ c ∈ chainsOf db access, .restricted ∈ c.flags ∧
          Placed c doc.path depth :=
        fun ⟨n, hn⟩ => hnoRestricted ((hrestricted n).mp hn).1
      have hcycle' : ¬ ∃ depth, ∃ c ∈ chainsOf db access, .loop ∈ c.flags ∧
          Placed c doc.path depth :=
        fun ⟨n, hn⟩ => hnoLoop ((hcycle n).mp hn).1
      cases dangling with
      | true =>
          have hfinds : resolveCurrentSource db doc.path access = some (.dangling h.path) :=
            hverdict
          refine ⟨fun head hops => ?_, ?_, ?_, ?_, ?_, hfull⟩
          · rw [hfinds]
            exact iff_of_false (by simp)
              fun hplace => ((hresolved head hops).mp hplace).1.2 (hflag.mpr rfl)
          · rw [hfinds]
            exact iff_of_false (by simp) hrestricted'
          · rw [hfinds]
            exact iff_of_false (by simp) hcycle'
          · rw [hfinds]
            exact iff_of_true ⟨_, rfl⟩ (hdangles.mpr rfl)
          · rw [hfinds]
            rfl
      | false =>
          obtain ⟨row, hrow⟩ := verdict_head hdoc hread hends
          have hpos := depth_pos hby hends
          have hfinds := hverdict.trans hrow
          refine ⟨fun head hops => ?_, ?_, ?_, ?_, ?_, hfull⟩
          · rw [hfinds]
            refine Iff.trans ?_ (hresolved head hops).symm
            have hentries : (WalkEnd.head h depth false).entries (toChainDoc doc)
                = [toReplaced (toChainDoc doc) depth] := if_pos hpos
            rw [hentries]
            constructor
            · rintro ⟨title, snippet, heq⟩
              obtain ⟨rfl, -, -, rfl⟩ := CurrentSource.resolved.inj (Option.some.inj heq)
              exact ⟨⟨rfl, fun hin => Bool.false_ne_true (hflag.mp hin)⟩, _,
                List.mem_singleton_self _, rfl⟩
            · rintro ⟨⟨hhead, -⟩, r, hr, rfl⟩
              obtain rfl := List.mem_singleton.mp hr
              obtain rfl : h.path = head := Option.some.inj hhead
              exact ⟨_, _, rfl⟩
          · rw [hfinds]
            exact iff_of_false (by simp) hrestricted'
          · rw [hfinds]
            exact iff_of_false (by simp) hcycle'
          · rw [hfinds, hdangles]
            exact iff_of_false (by simp) Bool.false_ne_true
          · rw [hfinds]
            rfl
  | restricted x depth =>
      rw [hw] at hends hverdict
      simp only [hw] at hresolved hrestricted hcycle
      have hfinds : resolveCurrentSource db doc.path access = some .restricted := hverdict
      refine ⟨fun head hops => ?_, ?_, ?_, ?_, ?_, hfull⟩
      · rw [hfinds]
        exact iff_of_false (by simp) fun hplace => nomatch ((hresolved head hops).mp hplace).1.1
      · rw [hfinds]
        exact iff_of_true rfl ⟨depth, (hrestricted depth).mpr
          ⟨List.mem_singleton_self _, _, List.mem_singleton_self _, rfl⟩⟩
      · rw [hfinds]
        refine iff_of_false (by simp) fun ⟨n, hn⟩ => ?_
        exact absurd (List.mem_singleton.mp ((hcycle n).mp hn).1) nofun
      · rw [hfinds]
        exact iff_of_false (by simp) (dangles_restricted hends)
      · rw [hfinds]
        rfl
  | loop cycle depth =>
      rw [hw] at hends hverdict
      simp only [hw] at hresolved hrestricted hcycle
      have hfinds : resolveCurrentSource db doc.path access = some .cycle := hverdict
      refine ⟨fun head hops => ?_, ?_, ?_, ?_, ?_, hfull⟩
      · rw [hfinds]
        exact iff_of_false (by simp) fun hplace => nomatch ((hresolved head hops).mp hplace).1.1
      · rw [hfinds]
        refine iff_of_false (by simp) fun ⟨n, hn⟩ => ?_
        exact absurd (List.mem_singleton.mp ((hrestricted n).mp hn).1) nofun
      · rw [hfinds]
        exact iff_of_true rfl ⟨depth, (hcycle depth).mpr
          ⟨List.mem_singleton_self _, _, List.mem_singleton_self _, rfl⟩⟩
      · rw [hfinds]
        exact iff_of_false (by simp) (dangles_loop hends)
      · rw [hfinds]
        rfl

/-! ## Samples -/

def plainRow (path : String) (supersededBy : Option String) : IndexedDocument where
  path := path
  title := path
  collection := "notes"
  domain := .accumulation
  status := .canonical
  confidence := .high
  updated := "2026-01-02"
  tags := []
  content := path.toList
  tokens := []
  ttlDays := none
  created := "2026-01-01"
  supersededBy := supersededBy
  validFrom := none
  validUntil := none

/-- `a` is replaced by `b`, and `b` by a document that is not there. -/
def brokenIndex : IndexDb where
  docs := [plainRow "a.md" (some "b.md"), plainRow "b.md" (some "gone.md")]
  distinct := by decide

def plainIndex : IndexDb where
  docs := [plainRow "a.md" (some "b.md"), plainRow "b.md" none]
  distinct := by decide

theorem broken_placed : ∃ c ∈ chainsOf brokenIndex none,
    c.head.map ChainMember.path = some "b.md" ∧ Placed c "a.md" 1 := by
  unfold Placed
  decide +kernel

/-- A chain that ends at a pointer to no document has a head all the same: `a` is at depth one
    under `b`, and the other walk calls it dangling. -/
theorem placed_not_resolved :
    ¬ ((∃ title snippet, resolveCurrentSource brokenIndex "a.md" none
        = some (.resolved "b.md" title snippet 1)) ↔
      ∃ c ∈ chainsOf brokenIndex none,
        c.head.map ChainMember.path = some "b.md" ∧ Placed c "a.md" 1) := by
  intro h
  obtain ⟨title, snippet, heq⟩ := h.mpr broken_placed
  cases heq

theorem walks_agree_plain : Agrees plainIndex none (plainRow "a.md" (some "b.md")) :=
  walks_agree plainIndex none (List.mem_cons_self ..) rfl (Option.some_ne_none _)

end Sources
