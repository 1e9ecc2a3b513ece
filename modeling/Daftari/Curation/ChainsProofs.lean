import Daftari.Lib.AssocProofs
import Daftari.Lib.ChainProofs
import Daftari.Lib.SortProofs
import Daftari.Lib.TextProofs

/-! # Supersede chains — who replaced what, as far as the caller may see

    `curation/chains.ts`: every readable document is walked forward along `superseded_by`, staying
    on readable documents, and filed with the chain its walk ends in.  The chains share one table
    keyed by path: the head's, the hidden hop's, or every member's of a loop.

    * `ends_agree`: **walks that share a key end in one chain**. -/

namespace Chains

open Chain

/-! ## Documents and chains -/

/-- `ChainDoc`: what the index keeps of a document for its chain. -/
structure ChainDoc where
  path : String
  collection : String
  status : String
  updated : String
  supersededBy : Option String
deriving DecidableEq

/-- `CHAIN_FLAGS`. -/
inductive ChainFlag where
  | draft
  | retired
  | unforwarded
  | dangling
  | loop
  | restricted
deriving DecidableEq

structure ChainMember where
  path : String
  status : String
  updated : String
deriving DecidableEq

structure ChainReplaced extends ChainMember where
  depth : Nat
deriving DecidableEq

/-- How much is hidden, coarsened. -/
inductive HiddenDownstream where
  | none
  | some
  | many
deriving DecidableEq

def bucketHiddenDownstream (hiddenCount : Nat) : HiddenDownstream :=
  if hiddenCount = 0 then .none else if hiddenCount ≥ 5 then .many else .some

structure ChainReport where
  head : Option ChainMember
  replaced : List ChainReplaced
  hiddenReplaced : HiddenDownstream
  flags : List ChainFlag
deriving DecidableEq

/-- `ChainDraft`: a chain while the table is filled. -/
structure ChainDraft where
  head : Option ChainMember
  replaced : List ChainReplaced
  hidden : Nat
  flags : List ChainFlag

/-! ## The walk -/

/-- Where a readable document's walk stops, staying on readable documents. -/
inductive WalkEnd where
  | head (doc : ChainDoc) (depth : Nat) (dangling : Bool)
  | restricted (hop : ChainDoc) (depth : Nat)
  | loop (cycle : List ChainDoc) (depth : Nat)

/-- `new Map(docs.map((d) => [d.path, d]))`: of two documents with one path the later one wins. -/
def byPath (docs : List ChainDoc) : String → Option ChainDoc := Assoc.lastBy ChainDoc.path docs

section Walk

variable (find : String → Option ChainDoc) (readable : ChainDoc → Bool)

/-- The loop of `walkForward` at `current`, the last document of the trail.  The
    index of a document in the trail is what `positions` keeps of it. -/
def walkLoop : Nat → List ChainDoc → ChainDoc → WalkEnd
  | 0, trail, current => .head current (trail.length - 1) false
  | fuel + 1, trail, current =>
      match current.supersededBy with
      | none => .head current (trail.length - 1) false
      | some path =>
          match find path with
          | none => .head current (trail.length - 1) true
          | some next =>
              if ¬ readable next then .restricted next trail.length
              else
                match trail.findIdx? fun d => d.path = next.path with
                | some seenAt => .loop (trail.drop seenAt) seenAt
                | none => walkLoop fuel (trail ++ [next]) next

/-- `walkForward`; `fuel` bounds the number of documents. -/
def walkForward (fuel : Nat) (start : ChainDoc) : WalkEnd :=
  walkLoop find readable fuel [start] start

end Walk

/-! ## The table -/

def statusFlags (doc : ChainDoc) (dangling : Bool) : List ChainFlag :=
  (if doc.status = "draft" then [.draft] else [])
    ++ (if doc.status = "deprecated" ∨ doc.status = "archived" then [.retired] else [])
    ++ (if doc.status = "superseded" ∧ ¬ dangling then [.unforwarded] else [])
    ++ (if dangling then [.dangling] else [])

def toMember (doc : ChainDoc) : ChainMember := ⟨doc.path, doc.status, doc.updated⟩

/-- An entry of `replaced`. -/
def toReplaced (doc : ChainDoc) (depth : Nat) : ChainReplaced :=
  { toMember doc with depth := depth }

/-- The drafts in the order they are made, and the keys each is filed under. -/
structure Table where
  drafts : List ChainDraft
  filed : List (String × Nat)

/-- `draftAt`: the draft filed under a key, or a new one. -/
def draftAt (t : Table) (path : String) (head : Option ChainMember)
    (flags : List ChainFlag) : Nat × Table :=
  match t.filed.lookup path with
  | some i => (i, t)
  | none =>
      (t.drafts.length, ⟨t.drafts ++ [⟨head, [], 0, flags⟩],
        Assoc.set t.filed path t.drafts.length⟩)

/-- `draft.replaced.push(..)`. -/
def pushReplaced (t : Table) (i : Nat) (r : ChainReplaced) : Table :=
  { t with drafts := t.drafts.modify i fun d => { d with replaced := d.replaced ++ [r] } }

section Compute

variable (docs : List ChainDoc) (readable : ChainDoc → Bool)

/-- `replacedSomething`: is the path named by a document's pointer? -/
def replacedSomething (path : String) : Bool :=
  docs.any fun d => d.supersededBy = some path ∧ (byPath docs path).isSome

def walk (doc : ChainDoc) : WalkEnd :=
  walkForward (byPath docs) readable (docs.length + 1) doc

/-- The body of the first loop: file a readable document. -/
def fileDoc (t : Table) (doc : ChainDoc) : Table :=
  if ¬ readable doc then t
  else
    match walk docs readable doc with
    | .head h depth dangling =>
        if depth > 0 ∨ replacedSomething docs h.path ∨ dangling ∨ h.status = "superseded" then
          let (i, t) := draftAt t h.path (some (toMember h)) (statusFlags h dangling)
          if depth > 0 then pushReplaced t i (toReplaced doc depth) else t
        else t
    | .restricted hop depth =>
        let (i, t) := draftAt t hop.path none [.restricted]
        pushReplaced t i (toReplaced doc depth)
    | .loop cycle depth =>
        let (i, t) := draftAt t ((cycle.head?.map ChainDoc.path).getD doc.path) none [.loop]
        let filed := cycle.foldl (fun f m => Assoc.set f m.path i) t.filed
        pushReplaced { t with filed := filed } i (toReplaced doc depth)

/-- The drafts a hidden document's walk passes.  The walk follows pointers only,
    and stops where it has been. -/
def fedBy (t : Table) : Nat → List String → Option ChainDoc → List Nat
  | 0, _, _ => []
  | _ + 1, _, none => []
  | fuel + 1, seen, some next =>
      if next.path ∈ seen then []
      else
        (t.filed.lookup next.path).toList
          ++ fedBy t fuel (next.path :: seen) (next.supersededBy.bind (byPath docs))

/-- The body of the second loop: credit a hidden document to the chains it feeds,
    to each of them once. -/
def creditDoc (t : Table) (doc : ChainDoc) : Table :=
  if readable doc then t
  else
    let fed := (fedBy docs t (docs.length + 1) [doc.path]
      (doc.supersededBy.bind (byPath docs))).dedup
    let credit := fun (ds : List ChainDraft) (i : Nat) =>
      ds.modify i fun d => { d with hidden := d.hidden + 1 }
    { t with drafts := fed.foldl credit t.drafts }

def comparePaths (a b : String) : Ordering :=
  if Text.lt a b then .lt else if Text.lt b a then .gt else .eq

/-- The comparator of `replaced`: by depth, then by path. -/
def compareReplaced (a b : ChainReplaced) : Ordering :=
  (compare a.depth b.depth).then (comparePaths a.path b.path)

def smallestPath (replaced : List ChainReplaced) : String :=
  (Stable.sort comparePaths (replaced.map fun r => r.path)).head?.getD ""

/-- `compareChains`: chains with a head first, by its path. -/
def compareChains (a b : ChainReport) : Ordering :=
  match a.head, b.head with
  | some x, some y => comparePaths x.path y.path
  | some _, none => .lt
  | none, some _ => .gt
  | none, none => comparePaths (smallestPath a.replaced) (smallestPath b.replaced)

def report (d : ChainDraft) : ChainReport where
  head := d.head
  replaced := Stable.sort compareReplaced d.replaced
  hiddenReplaced := bucketHiddenDownstream d.hidden
  flags := d.flags

/-- The table after both loops. -/
def chainTable : Table :=
  docs.foldl (creditDoc docs readable) (docs.foldl (fileDoc docs readable) ⟨[], []⟩)

/-- `computeChains`.  A draft is filed under its first key as it is made, so the
    set of the table's values lists the drafts in the order they were made. -/
def computeChains : List ChainReport :=
  Stable.sort compareChains ((chainTable docs readable).drafts.map report)

end Compute

/-! ## Where a walk ends -/

section Ends

variable (docs : List ChainDoc) (readable : ChainDoc → Bool)

def pointed (doc : ChainDoc) : Option ChainDoc := doc.supersededBy.bind (byPath docs)

/-- The next document of a readable walk. -/
def hop (doc : ChainDoc) : Option ChainDoc := (pointed docs doc).filter readable

/-- **Where a walk ends**, said by what a chain of readable documents leads to. -/
def EndsAs (start : ChainDoc) : WalkEnd → Prop
  | .head h depth dangling =>
      Stops (hop docs readable) start h depth ∧ pointed docs h = none ∧
        (dangling = true ↔ h.supersededBy ≠ none)
  | .restricted x depth =>
      ∃ c k, depth = k + 1 ∧ Stops (hop docs readable) start c k ∧ pointed docs c = some x ∧
        readable x = false
  | .loop cycle depth =>
      ∃ c, cycle.head? = some c ∧ follow (hop docs readable) depth start = some c ∧
        OnCycle (hop docs readable) c ∧ ∀ x, x ∈ cycle ↔ Reaches (hop docs readable) c x

variable {docs readable}

theorem mem_of_byPath {path : String} {d : ChainDoc} (h : byPath docs path = some d) :
    d ∈ docs ∧ d.path = path :=
  Assoc.mem_of_lastBy h

theorem mem_of_pointed {d e : ChainDoc} (h : pointed docs d = some e) :
    e ∈ docs ∧ d.supersededBy = some e.path := by
  obtain ⟨path, hpath, he⟩ := Option.bind_eq_some_iff.mp h
  obtain ⟨hmem, rfl⟩ := mem_of_byPath he
  exact ⟨hmem, hpath⟩

theorem hop_eq_some {d e : ChainDoc} :
    hop docs readable d = some e ↔ pointed docs d = some e ∧ readable e = true := by
  unfold hop
  rw [Option.filter_eq_some_iff]

theorem readable_of_reaches {d e : ChainDoc} (hd : d ∈ docs) (hread : readable d = true)
    (h : Reaches (hop docs readable) d e) : e ∈ docs ∧ readable e = true := by
  obtain ⟨n, hn⟩ := h
  induction n generalizing d with
  | zero =>
      obtain rfl := Option.some.inj hn
      exact ⟨hd, hread⟩
  | succ n ih =>
      obtain ⟨c, hc, hce⟩ := Option.bind_eq_some_iff.mp hn
      obtain ⟨hpointed, hreadc⟩ := hop_eq_some.mp hc
      exact ih (mem_of_pointed hpointed).1 hreadc hce

/-- The trail of a walk from `start`: the documents of its first steps, each once. -/
structure Trail (docs : List ChainDoc) (readable : ChainDoc → Bool) (start : ChainDoc)
    (trail : List ChainDoc) (current : ChainDoc) : Prop where
  follows : ∀ i < trail.length, follow (hop docs readable) i start = trail[i]?
  last : trail.getLast? = some current
  nodup : (trail.map ChainDoc.path).Nodup
  known : trail ⊆ docs

theorem trail_start {start : ChainDoc} (h : start ∈ docs) :
    Trail docs readable start [start] start where
  follows := by
    intro i hi
    obtain rfl : i = 0 := by simpa using hi
    rfl
  last := rfl
  nodup := List.nodup_singleton _
  known := List.cons_subset.mpr ⟨h, List.nil_subset _⟩

namespace Trail

variable {start current : ChainDoc} {trail : List ChainDoc}

theorem length_pos (ht : Trail docs readable start trail current) : 0 < trail.length := by
  rw [List.length_pos_iff]
  rintro rfl
  cases ht.last

theorem follow_last (ht : Trail docs readable start trail current) :
    follow (hop docs readable) (trail.length - 1) start = some current := by
  have hpos := ht.length_pos
  rw [ht.follows _ (by omega), ← List.getLast?_eq_getElem?, ht.last]

theorem push (ht : Trail docs readable start trail current) {next : ChainDoc}
    (hnext : hop docs readable current = some next)
    (hnew : next.path ∉ trail.map ChainDoc.path) :
    Trail docs readable start (trail ++ [next]) next where
  follows := by
    intro i hi
    rw [List.length_append, List.length_singleton] at hi
    by_cases hlt : i < trail.length
    · rw [List.getElem?_append_left hlt]
      exact ht.follows i hlt
    · have hpos := ht.length_pos
      obtain rfl : i = trail.length := by omega
      have hstep : follow (hop docs readable) (trail.length - 1 + 1) start = some next := by
        rw [follow_add, ht.follow_last, Option.bind_some, follow_one, hnext]
      rw [Nat.sub_add_cancel hpos] at hstep
      rw [hstep, List.getElem?_append_right (Nat.le_refl _), Nat.sub_self]
      rfl
  last := List.getLast?_concat
  nodup := by
    rw [List.map_append, List.nodup_append]
    refine ⟨ht.nodup, List.nodup_singleton _, ?_⟩
    rintro a ha b hb rfl
    rw [List.mem_singleton.mp hb] at ha
    exact hnew ha
  known := by
    refine List.append_subset.mpr ⟨ht.known, ?_⟩
    refine List.cons_subset.mpr ⟨?_, List.nil_subset _⟩
    exact (mem_of_pointed (hop_eq_some.mp hnext).1).1

theorem loop (ht : Trail docs readable start trail current) {next : ChainDoc}
    (hnext : hop docs readable current = some next) {seenAt : Nat}
    (hseen : trail[seenAt]? = some next) :
    EndsAs docs readable start (.loop (trail.drop seenAt) seenAt) := by
  obtain ⟨hlt, _⟩ := List.getElem?_eq_some_iff.mp hseen
  have hpos := ht.length_pos
  have hat : follow (hop docs readable) seenAt start = some next := by
    rw [ht.follows _ hlt, hseen]
  have hround : follow (hop docs readable) (trail.length - seenAt) next = some next := by
    have hstep : follow (hop docs readable) (trail.length - 1 + 1) start = some next := by
      rw [follow_add, ht.follow_last, Option.bind_some, follow_one, hnext]
    rw [Nat.sub_add_cancel hpos, show trail.length = seenAt + (trail.length - seenAt) by omega,
      follow_add, hat, Option.bind_some] at hstep
    exact hstep
  refine ⟨next, ?_, hat, ⟨trail.length - seenAt - 1, ?_⟩, ?_⟩
  · rw [List.head?_drop, hseen]
  · rw [show trail.length - seenAt - 1 + 1 = trail.length - seenAt by omega]
    exact hround
  · intro x
    rw [reaches_iff_lt hround (by omega), List.mem_iff_getElem?]
    have hshift : ∀ i < trail.length - seenAt,
        follow (hop docs readable) i next = (trail.drop seenAt)[i]? := by
      intro i hi
      have hall := ht.follows (seenAt + i) (by omega)
      rw [follow_add, hat, Option.bind_some] at hall
      rw [hall, List.getElem?_drop]
    constructor
    · rintro ⟨i, hi⟩
      obtain ⟨hilt, _⟩ := List.getElem?_eq_some_iff.mp hi
      rw [List.length_drop] at hilt
      exact ⟨i, hilt, by rw [hshift i hilt, hi]⟩
    · rintro ⟨i, hilt, hi⟩
      exact ⟨i, by rw [← hshift i hilt, hi]⟩

end Trail

/-- **The loop of the walk ends where the chain does**, with fuel for the
    documents that are not on the trail yet. -/
theorem walkLoop_spec {start current : ChainDoc} {trail : List ChainDoc} (fuel : Nat)
    (hpaths : (docs.map ChainDoc.path).Nodup) (ht : Trail docs readable start trail current)
    (hfuel : docs.length < fuel + trail.length) :
    EndsAs docs readable start (walkLoop (byPath docs) readable fuel trail current) := by
  induction fuel generalizing trail current with
  | zero =>
      -- a trail of distinct documents is no longer than the list
      have hsub : trail.map ChainDoc.path ⊆ docs.map ChainDoc.path :=
        List.map_subset _ ht.known
      have hle := (List.subperm_of_subset ht.nodup hsub).length_le
      rw [List.length_map, List.length_map] at hle
      omega
  | succ fuel ih =>
      unfold walkLoop
      cases hs : current.supersededBy with
      | none =>
          have hpointed : pointed docs current = none := by
            rw [pointed, hs]
            rfl
          refine ⟨⟨ht.follow_last, ?_⟩, hpointed, ?_⟩
          · rw [hop, hpointed]
            rfl
          · simp [hs]
      | some path =>
          cases hp : byPath docs path with
          | none =>
              have hpointed : pointed docs current = none := by
                rw [pointed, hs, Option.bind_some, hp]
              simp only [hp]
              refine ⟨⟨ht.follow_last, ?_⟩, hpointed, ?_⟩
              · rw [hop, hpointed]
                rfl
              · simp [hs]
          | some next =>
              have hpointed : pointed docs current = some next := by
                rw [pointed, hs, Option.bind_some, hp]
              simp only [hp]
              by_cases hread : readable next = true
              · have hnext : hop docs readable current = some next :=
                  hop_eq_some.mpr ⟨hpointed, hread⟩
                rw [if_neg (by simp [hread])]
                cases hf : trail.findIdx? fun d => d.path = next.path with
                | none =>
                    refine ih (ht.push hnext ?_) ?_
                    · intro hmem
                      obtain ⟨d, hd, hdp⟩ := List.mem_map.mp hmem
                      rw [List.findIdx?_eq_none_iff] at hf
                      simpa [hdp] using hf d hd
                    · rw [List.length_append, List.length_singleton]
                      omega
                | some seenAt =>
                    refine ht.loop hnext ?_
                    obtain ⟨hlt, hpath, _⟩ := List.findIdx?_eq_some_iff_getElem.mp hf
                    rw [List.getElem?_eq_getElem hlt]
                    refine congrArg some ?_
                    refine List.inj_on_of_nodup_map hpaths ?_ (mem_of_pointed hpointed).1
                      (of_decide_eq_true hpath)
                    exact ht.known (List.getElem_mem hlt)
              · rw [if_pos (by simpa using hread)]
                refine ⟨current, trail.length - 1, ?_, ⟨ht.follow_last, ?_⟩, hpointed, ?_⟩
                · have := ht.length_pos
                  omega
                · rw [hop, hpointed, Option.filter_some, if_neg hread]
                · simpa using hread

/-- **A walk ends where the chain does.** -/
theorem walk_spec (readable : ChainDoc → Bool) (hpaths : (docs.map ChainDoc.path).Nodup)
    {doc : ChainDoc} (h : doc ∈ docs) : EndsAs docs readable doc (walk docs readable doc) := by
  refine walkLoop_spec _ hpaths (trail_start h) ?_
  omega

end Ends

/-! ## What a walk files -/

namespace WalkEnd

def keys : WalkEnd → List String
  | .head h _ _ => [h.path]
  | .restricted x _ => [x.path]
  | .loop cycle _ => cycle.map ChainDoc.path

def chainHead : WalkEnd → Option ChainMember
  | .head h _ _ => some (toMember h)
  | .restricted _ _ => none
  | .loop _ _ => none

def chainFlags : WalkEnd → List ChainFlag
  | .head h _ dangling => statusFlags h dangling
  | .restricted _ _ => [.restricted]
  | .loop _ _ => [.loop]

/-- What the walk's start adds to `replaced`: nothing if it is the head. -/
def entries (doc : ChainDoc) : WalkEnd → List ChainReplaced
  | .head _ depth _ => if depth > 0 then [toReplaced doc depth] else []
  | .restricted _ depth => [toReplaced doc depth]
  | .loop _ depth => [toReplaced doc depth]

def isChain (docs : List ChainDoc) : WalkEnd → Bool
  | .head h depth dangling =>
      depth > 0 ∨ replacedSomething docs h.path ∨ dangling ∨ h.status = "superseded"
  | .restricted _ _ => true
  | .loop _ _ => true

end WalkEnd

section Agree

variable {docs : List ChainDoc} {readable : ChainDoc → Bool}

theorem keys_ne_nil {d : ChainDoc} {e : WalkEnd} (h : EndsAs docs readable d e) : e.keys ≠ [] := by
  cases e with
  | head h _ _ => simp [WalkEnd.keys]
  | restricted x _ => simp [WalkEnd.keys]
  | loop cycle k =>
      obtain ⟨c, hc, _⟩ := h
      intro hnil
      rw [WalkEnd.keys, List.map_eq_nil_iff] at hnil
      rw [hnil] at hc
      cases hc

theorem stop_not_loop {d e c : ChainDoc} {n : Nat}
    (h : Stops (hop docs readable) d e n) (hcyc : OnCycle (hop docs readable) c)
    (he : Reaches (hop docs readable) c e) : False := by
  have hself : Stops (hop docs readable) e e 0 := ⟨rfl, h.2⟩
  exact hself.not_onCycle (hcyc.reaches_back he) hcyc

/-- **Walks that share a key end in one chain**: they have all keys in common,
    the head and the flags. -/
theorem ends_agree (hpaths : (docs.map ChainDoc.path).Nodup) {d d' : ChainDoc}
    (hd : d ∈ docs) (hread : readable d = true) (hd' : d' ∈ docs)
    (hread' : readable d' = true) {e e' : WalkEnd} (he : EndsAs docs readable d e)
    (he' : EndsAs docs readable d' e') {p : String} (hp : p ∈ e.keys) (hp' : p ∈ e'.keys) :
    (∀ q, q ∈ e.keys ↔ q ∈ e'.keys) ∧ e.chainHead = e'.chainHead ∧
      e.chainFlags = e'.chainFlags := by
  have hinj : ∀ {a b : ChainDoc}, a ∈ docs → b ∈ docs → a.path = b.path → a = b :=
    fun ha hb h => List.inj_on_of_nodup_map hpaths ha hb h
  cases e with
  | head h depth dangling =>
      obtain ⟨hstop, _, hdangling⟩ := he
      obtain ⟨hmem, hhread⟩ := readable_of_reaches hd hread ⟨depth, hstop.1⟩
      obtain rfl := List.mem_singleton.mp hp
      cases e' with
      | head h' depth' dangling' =>
          obtain ⟨hstop', _, hdangling'⟩ := he'
          obtain ⟨hmem', _⟩ := readable_of_reaches hd' hread' ⟨depth', hstop'.1⟩
          obtain rfl := hinj hmem hmem' (List.mem_singleton.mp hp')
          have hsame : dangling = dangling' := by
            rw [Bool.eq_iff_iff, hdangling, hdangling']
          rw [hsame]
          exact ⟨fun _ => Iff.rfl, rfl, rfl⟩
      | restricted x depth' =>
          obtain ⟨c, k, _, _, hx, hxread⟩ := he'
          obtain rfl := hinj hmem (mem_of_pointed hx).1 (List.mem_singleton.mp hp')
          rw [hhread] at hxread
          cases hxread
      | loop cycle depth' =>
          obtain ⟨c, _, hc, hcyc, hall⟩ := he'
          obtain ⟨m, hm, hmp⟩ := List.mem_map.mp hp'
          have hcm := (hall m).mp hm
          obtain ⟨hcmem, hcread⟩ := readable_of_reaches hd' hread' ⟨depth', hc⟩
          obtain rfl := hinj hmem (readable_of_reaches hcmem hcread hcm).1 hmp.symm
          exact (stop_not_loop hstop hcyc hcm).elim
  | restricted x depth =>
      obtain ⟨c, k, _, hstop, hx, hxread⟩ := he
      obtain rfl := List.mem_singleton.mp hp
      cases e' with
      | head h' depth' dangling' =>
          obtain ⟨hstop', _, _⟩ := he'
          obtain ⟨hmem', hhread'⟩ := readable_of_reaches hd' hread' ⟨depth', hstop'.1⟩
          obtain rfl := hinj (mem_of_pointed hx).1 hmem' (List.mem_singleton.mp hp')
          rw [hhread'] at hxread
          cases hxread
      | restricted x' depth' =>
          obtain ⟨_, _, _, _, hx', _⟩ := he'
          obtain rfl := hinj (mem_of_pointed hx).1 (mem_of_pointed hx').1
            (List.mem_singleton.mp hp')
          exact ⟨fun _ => Iff.rfl, rfl, rfl⟩
      | loop cycle depth' =>
          obtain ⟨c', _, hc', hcyc, hall⟩ := he'
          obtain ⟨m, hm, hmp⟩ := List.mem_map.mp hp'
          obtain ⟨hcmem, hcread⟩ := readable_of_reaches hd' hread' ⟨depth', hc'⟩
          obtain ⟨hmmem, hmread⟩ := readable_of_reaches hcmem hcread ((hall m).mp hm)
          obtain rfl := hinj (mem_of_pointed hx).1 hmmem hmp.symm
          rw [hmread] at hxread
          cases hxread
  | loop cycle depth =>
      obtain ⟨c, _, hc, hcyc, hall⟩ := he
      obtain ⟨m, hm, rfl⟩ := List.mem_map.mp hp
      obtain ⟨hcmem, hcread⟩ := readable_of_reaches hd hread ⟨depth, hc⟩
      have hcm := (hall m).mp hm
      obtain ⟨hmmem, hmread⟩ := readable_of_reaches hcmem hcread hcm
      cases e' with
      | head h' depth' dangling' =>
          obtain ⟨hstop', _, _⟩ := he'
          obtain ⟨hmem', _⟩ := readable_of_reaches hd' hread' ⟨depth', hstop'.1⟩
          obtain rfl := hinj hmmem hmem' (List.mem_singleton.mp hp')
          exact (stop_not_loop hstop' hcyc hcm).elim
      | restricted x' depth' =>
          obtain ⟨_, _, _, _, hx', hxread'⟩ := he'
          obtain rfl := hinj hmmem (mem_of_pointed hx').1 (List.mem_singleton.mp hp')
          rw [hmread] at hxread'
          cases hxread'
      | loop cycle' depth' =>
          obtain ⟨c', _, hc', hcyc', hall'⟩ := he'
          obtain ⟨m', hm', hmp⟩ := List.mem_map.mp hp'
          obtain ⟨hcmem', hcread'⟩ := readable_of_reaches hd' hread' ⟨depth', hc'⟩
          have hcm' := (hall' m').mp hm'
          obtain rfl := hinj (readable_of_reaches hcmem' hcread' hcm').1 hmmem hmp
          -- both loops are what the shared member reaches
          have hsame : ∀ x, x ∈ cycle ↔ x ∈ cycle' := by
            intro x
            rw [hall, hall']
            exact ⟨fun h => hcm'.trans ((hcyc.reaches_back hcm).trans h),
              fun h => hcm.trans ((hcyc'.reaches_back hcm').trans h)⟩
          refine ⟨?_, rfl, rfl⟩
          intro q
          simp only [WalkEnd.keys, List.mem_map, hsame]

end Agree

end Chains
