import Daftari.Curation.ValidityProofs
import Daftari.Lib.ReachProofs
import Daftari.Search.CurrentSourceProofs
import Mathlib.Data.Set.Card

/-! # The document for a date — the nearest readable member whose window holds it

    `search/valid-at-source.ts`: from a document that does not cover a date one goes forward along
    the pointers, and if that gives no verdict, backward to whatever was replaced, layer by layer.
    Forward an unreadable document stops the walk; backward it is walked through.

    * `walkForward`, `walkBackward`, `resolveValidAtSource`: the two walks and their order;
    * `answers`: **the answer is the nearest readable member**, and what the caller cannot read does
      not change it. -/

namespace ValidAt

open Search (IndexedDocument)
open Rbac (AccessContext)
open Frontmatter Validity
open Sources Chain Layered

/-! ## The two walks -/

def maxHops : Nat := 64

inductive ValidAtSource where
  | resolved (path title : String) (snippet : List Nat) (hops : Nat) (lo hi : Option String)
  | restricted
  | dangling (brokenAt : String)
  | cycle
  | ambiguous (count : Nat)
  | noCover
deriving DecidableEq

/-- What a document says of its window. -/
def validityOf (doc : IndexedDocument) : ValidityInput := ⟨doc.validFrom, doc.validUntil⟩

def covers (doc : IndexedDocument) (asOf : String) : Bool :=
  (computeValidity (validityOf doc) asOf).any fun report => report.state = .inWindow

def resolved (doc : IndexedDocument) (hops : Nat) : ValidAtSource :=
  .resolved doc.path doc.title (previewSnippet doc.content) hops doc.validFrom doc.validUntil

/-- `supersessionPredecessors`: the rows that name the path, by their paths. -/
def supersessionPredecessors (db : IndexDb) (path : String) : List IndexedDocument :=
  Stable.sort (fun a b => compare a.path b.path)
    (db.docs.filter fun d => d.supersededBy = some path)

section Walks

variable (db : IndexDb) (access : Option AccessContext) (asOf : String)

/-- The loop of `walkForward`, with the hops that are left. -/
def forwardLoop : Nat → List String → IndexedDocument → Nat → Option ValidAtSource
  | 0, _, _, _ => none
  | left + 1, visited, doc, hops =>
      match doc.supersededBy with
      | none => none
      | some nextPath =>
          if nextPath ∈ visited then some .cycle
          else
            match getDocument db nextPath with
            | none => some (.dangling doc.path)
            | some next =>
                if readable access next = false then some .restricted
                else if covers next asOf then some (resolved next (hops + 1))
                else forwardLoop left (nextPath :: visited) next (hops + 1)

def walkForward (seed : IndexedDocument) : Option ValidAtSource :=
  forwardLoop db access asOf maxHops [seed.path] seed 0

/-- The documents that were not visited, each once. -/
def unseen : List String → List IndexedDocument → List IndexedDocument
  | _, [] => []
  | visited, pred :: preds =>
      if pred.path ∈ visited then unseen visited preds
      else pred :: unseen (pred.path :: visited) preds

/-- The loop of `walkBackward`, with the hops that are left. -/
def backwardLoop : Nat → List String → List IndexedDocument → Nat → Option ValidAtSource
  | 0, _, _, _ => none
  | left + 1, visited, frontier, hops =>
      let next := unseen visited
        (frontier.flatMap fun node => supersessionPredecessors db node.path)
      if next = [] then none
      else
        match (next.filter (readable access)).filter fun d => covers d asOf with
        | [] => backwardLoop left (visited ++ next.map IndexedDocument.path) next (hops + 1)
        | [winner] => some (resolved winner (hops + 1))
        | covering => some (.ambiguous covering.length)

def walkBackward (seed : IndexedDocument) : Option ValidAtSource :=
  backwardLoop db access asOf maxHops [seed.path] [seed] 0

def resolveValidAtSource (path : String) : Option ValidAtSource :=
  match getDocument db path with
  | none => none
  | some seed =>
      if covers seed asOf then none
      else
        match walkForward db access asOf seed with
        | some verdict => some verdict
        | none =>
            match walkBackward db access asOf seed with
            | some verdict => some verdict
            | none => some .noCover

end Walks

/-! ## Members -/

def Holds (doc : IndexedDocument) (d : Day) : Prop :=
  Speaks (validityOf doc) ∧ WellFormed (validityOf doc) ∧ d ∈ windowOf (validityOf doc)

/-- **A document covers a date when its window holds the day.** -/
theorem covers_iff {asOf : String} {d : Day} (hd : dayOf asOf = some d)
    (doc : IndexedDocument) : covers doc asOf = true ↔ Holds doc d := by
  unfold Holds
  rw [← (classified hd : Classified (validityOf doc) asOf d).inWindow]
  unfold covers stateAt
  cases computeValidity (validityOf doc) asOf with
  | none => simp
  | some report => simp

/-- The document that a row points at. -/
def successor (db : IndexDb) (doc : IndexedDocument) : Option IndexedDocument :=
  doc.supersededBy.bind (getDocument db)

/-- So many pointers forward from the seed. -/
def Ahead (db : IndexDb) (seed : IndexedDocument) (n : Nat) (doc : IndexedDocument) : Prop :=
  follow (successor db) n seed = some doc

/-- So many pointers backward from the seed. -/
def Behind (db : IndexDb) (seed : IndexedDocument) (n : Nat) (doc : IndexedDocument) : Prop :=
  Near (fun node => supersessionPredecessors db node.path) [seed] n doc

/-- A document that can answer for the day. -/
def Member (access : Option AccessContext) (d : Day) (doc : IndexedDocument) : Prop :=
  readable access doc = true ∧ Holds doc d

def Nearest (access : Option AccessContext) (d : Day)
    (depth : Nat → IndexedDocument → Prop) (n : Nat) : Prop :=
  (∃ doc, depth n doc ∧ Member access d doc) ∧
    ∀ m < n, ∀ doc, depth m doc → ¬ Member access d doc

variable {db : IndexDb} {access : Option AccessContext} {asOf : String} {d : Day}
  {seed : IndexedDocument}

theorem mem_supersessionPredecessors {path : String} {doc : IndexedDocument} :
    doc ∈ supersessionPredecessors db path ↔ doc ∈ db.docs ∧ doc.supersededBy = some path := by
  unfold supersessionPredecessors
  rw [(Stable.sort_perm _ _).mem_iff, List.mem_filter, decide_eq_true_iff]

theorem behind_iff {n : Nat} {doc : IndexedDocument} (hseed : seed ∈ db.docs) :
    Behind db seed n doc ↔ doc ∈ db.docs ∧ follow (successor db) n doc = some seed := by
  unfold Behind
  induction n generalizing doc with
  | zero =>
      rw [near_zero, List.mem_singleton]
      constructor
      · rintro rfl
        exact ⟨hseed, rfl⟩
      · rintro ⟨-, hsame⟩
        exact Option.some.inj hsame
  | succ n ih =>
      rw [near_succ]
      constructor
      · rintro ⟨y, hy, hstep⟩
        obtain ⟨hyrow, hlead⟩ := ih.mp hy
        obtain ⟨hrow, hby⟩ := mem_supersessionPredecessors.mp hstep
        refine ⟨hrow, Option.bind_eq_some_iff.mpr ⟨y, ?_, hlead⟩⟩
        unfold successor
        rw [hby]
        exact getDocument_eq_some.mpr ⟨hyrow, rfl⟩
      · rintro ⟨hrow, hlead⟩
        obtain ⟨y, hnext, hlead⟩ := Option.bind_eq_some_iff.mp hlead
        obtain ⟨path, hby, hget⟩ := Option.bind_eq_some_iff.mp hnext
        obtain ⟨hyrow, rfl⟩ := getDocument_eq_some.mp hget
        exact ⟨y, ih.mpr ⟨hyrow, hlead⟩, mem_supersessionPredecessors.mpr ⟨hrow, hby⟩⟩

/-! ## Forward -/

/-- What the forward walk finds: a readable covering row at the least depth, or that there is none
    within the hops that are left. -/
theorem forwardLoop_spec {left : Nat} {visited : List String} {doc : IndexedDocument} {hops : Nat} :
    (∀ {path title : String} {snippet : List Nat} {n : Nat} {lo hi : Option String},
      forwardLoop db access asOf left visited doc hops
        = some (.resolved path title snippet n lo hi) →
      ∃ k found, n = hops + k ∧ 1 ≤ k ∧ k ≤ left ∧ Ahead db doc k found ∧
        readable access found = true ∧ covers found asOf = true ∧
        resolved found n = .resolved path title snippet n lo hi ∧
        ∀ m, 1 ≤ m → m < k → ∀ other, Ahead db doc m other → covers other asOf = false) ∧
    (forwardLoop db access asOf left visited doc hops = none →
      ∀ m, 1 ≤ m → m ≤ left → ∀ other, Ahead db doc m other → covers other asOf = false) := by
  induction left generalizing visited doc hops with
  | zero =>
      refine ⟨fun h => ?_, fun _ m hm hle => ?_⟩
      · cases h
      · omega
  | succ left ih =>
      unfold forwardLoop
      cases hby : doc.supersededBy with
      | none =>
          have hend : successor db doc = none := by
            unfold successor
            rw [hby]
            rfl
          refine ⟨fun h => ?_, fun _ m hm _ other hother => ?_⟩
          · cases h
          · obtain ⟨k, rfl⟩ := Nat.exists_eq_add_of_le' hm
            obtain ⟨y, hy, -⟩ := Option.bind_eq_some_iff.mp hother
            rw [hend] at hy
            cases hy
      | some nextPath =>
          dsimp only
          by_cases hvisited : nextPath ∈ visited
          · rw [if_pos hvisited]
            exact ⟨fun h => (by cases h), fun h => (by cases h)⟩
          · rw [if_neg hvisited]
            cases hget : getDocument db nextPath with
            | none => exact ⟨fun h => (by cases h), fun h => (by cases h)⟩
            | some next =>
                dsimp only
                have hnext : successor db doc = some next := by
                  unfold successor
                  rw [hby]
                  exact hget
                -- a step from the document, then the walk from the next one
                have hahead : ∀ k other, Ahead db doc (k + 1) other ↔ Ahead db next k other := by
                  intro k other
                  change (successor db doc).bind _ = _ ↔ _
                  rw [hnext]
                  exact Iff.rfl
                cases hread : readable access next with
                | false => exact ⟨fun h => (by cases h), fun h => (by cases h)⟩
                | true =>
                    cases hcovers : covers next asOf with
                    | true =>
                        refine ⟨fun h => ?_, fun h => (by cases h)⟩
                        have hsome := Option.some.inj h
                        obtain ⟨-, -, -, rfl, -, -⟩ := ValidAtSource.resolved.inj hsome
                        refine ⟨1, next, rfl, Nat.le_refl 1, by omega, (hahead 0 next).mpr rfl,
                          hread, hcovers, hsome, fun m hm hlt => ?_⟩
                        omega
                    | false =>
                        obtain ⟨hfound, hnone⟩ :=
                          @ih (nextPath :: visited) next (hops + 1)
                        refine ⟨fun h => ?_, fun h m hm hle other hother => ?_⟩
                        · obtain ⟨k, found, rfl, hk, hkle, hat, hrd, hcov, hres, hleast⟩ :=
                            hfound h
                          refine ⟨k + 1, found, by omega, by omega, by omega,
                            (hahead k found).mpr hat, hrd, hcov, hres,
                            fun m hm hlt other hother => ?_⟩
                          obtain ⟨j, rfl⟩ := Nat.exists_eq_add_of_le' hm
                          rw [hahead] at hother
                          cases j with
                          | zero =>
                              obtain rfl := Option.some.inj hother
                              exact hcovers
                          | succ j =>
                              exact hleast (j + 1) (by omega) (by omega) other hother
                        · obtain ⟨j, rfl⟩ := Nat.exists_eq_add_of_le' hm
                          rw [hahead] at hother
                          cases j with
                          | zero =>
                              obtain rfl := Option.some.inj hother
                              exact hcovers
                          | succ j =>
                              exact hnone h (j + 1) (by omega) (by omega) other hother

/-! ## Backward -/

theorem unseen_eq {seen preds : List IndexedDocument} (hseen : seen ⊆ db.docs)
    (hpreds : preds ⊆ db.docs) :
    unseen (seen.map IndexedDocument.path) preds = fresh seen preds := by
  induction preds generalizing seen with
  | nil => rfl
  | cons pred preds ih =>
      obtain ⟨hpred, hrest⟩ := List.cons_subset.mp hpreds
      unfold unseen fresh
      by_cases hmem : pred ∈ seen
      · rw [if_pos hmem, if_pos (List.mem_map_of_mem hmem)]
        exact ih hseen hrest
      · have hnew : pred.path ∉ seen.map IndexedDocument.path := by
          intro hin
          obtain ⟨x, hx, hpath⟩ := List.mem_map.mp hin
          rw [List.inj_on_of_nodup_map db.distinct (hseen hx) hpred hpath] at hx
          exact hmem hx
        rw [if_neg hmem, if_neg hnew]
        exact congrArg (pred :: ·) (ih (List.cons_subset.mpr ⟨hpred, hseen⟩) hrest)

/-- The rows at a depth, and no nearer. -/
def Level (db : IndexDb) (seed : IndexedDocument) (n : Nat) (doc : IndexedDocument) : Prop :=
  AtDist (fun node => supersessionPredecessors db node.path) [seed] n doc

/-- A row that the code takes for an answer. -/
def Able (access : Option AccessContext) (asOf : String) (doc : IndexedDocument) : Prop :=
  readable access doc = true ∧ covers doc asOf = true

/-- What a search of the levels after `lo`, up to `hi`, finds. -/
inductive Searched (db : IndexDb) (access : Option AccessContext) (asOf : String)
    (seed : IndexedDocument) (lo hi : Nat) : Option ValidAtSource → Prop
  | one (n : Nat) (found : IndexedDocument) (hlo : lo < n) (hhi : n ≤ hi)
      (honly : ∀ x, Level db seed n x ∧ Able access asOf x ↔ x = found)
      (hleast : ∀ m, lo < m → m < n → ∀ x, Level db seed m x → ¬ Able access asOf x) :
      Searched db access asOf seed lo hi (some (resolved found n))
  | many (n : Nat) (covering : List IndexedDocument) (hlo : lo < n) (hhi : n ≤ hi)
      (hnodup : covering.Nodup) (htwo : 2 ≤ covering.length)
      (hall : ∀ x, x ∈ covering ↔ Level db seed n x ∧ Able access asOf x)
      (hleast : ∀ m, lo < m → m < n → ∀ x, Level db seed m x → ¬ Able access asOf x) :
      Searched db access asOf seed lo hi (some (.ambiguous covering.length))
  | nothing (hnone : ∀ m, lo < m → m ≤ hi → ∀ x, Level db seed m x → ¬ Able access asOf x) :
      Searched db access asOf seed lo hi none

theorem Searched.pass {lo hi : Nat} {answer : Option ValidAtSource}
    (h : Searched db access asOf seed (lo + 1) hi answer)
    (hnone : ∀ x, Level db seed (lo + 1) x → ¬ Able access asOf x) :
    Searched db access asOf seed lo hi answer := by
  have hall : ∀ m, lo < m → (lo + 1 < m → ∀ x, Level db seed m x → ¬ Able access asOf x) →
      ∀ x, Level db seed m x → ¬ Able access asOf x := by
    intro m hm hlater
    rcases Nat.lt_or_eq_of_le hm with hlt | rfl
    · exact hlater hlt
    · exact hnone
  cases h with
  | one n found hlo hhi honly hleast =>
      exact .one n found (by omega) hhi honly
        fun m hm hlt => hall m hm fun hlater => hleast m hlater hlt
  | many n covering hlo hhi hnodup htwo hcover hleast =>
      exact .many n covering (by omega) hhi hnodup htwo hcover
        fun m hm hlt => hall m hm fun hlater => hleast m hlater hlt
  | nothing hrest =>
      exact .nothing fun m hm hle => hall m hm fun hlater => hrest m hlater hle

/-- **What the backward walk finds**, from a level on. -/
theorem backwardLoop_spec (hseed : seed ∈ db.docs) {left : Nat}
    {seen frontier : List IndexedDocument} {hops : Nat}
    (hseen : ∀ x, x ∈ seen ↔ ∃ m ≤ hops, Behind db seed m x)
    (hfront : ∀ x, x ∈ frontier ↔ Level db seed hops x) :
    Searched db access asOf seed hops (hops + left)
      (backwardLoop db access asOf left (seen.map IndexedDocument.path) frontier hops) := by
  induction left generalizing seen frontier hops with
  | zero => exact .nothing fun m hm hle => by omega
  | succ left ih =>
      have hrows : seen ⊆ db.docs := by
        intro x hx
        obtain ⟨m, -, hm⟩ := (hseen x).mp hx
        exact ((behind_iff hseed).mp hm).1
      have hpreds : (frontier.flatMap fun node => supersessionPredecessors db node.path)
          ⊆ db.docs := by
        intro x hx
        obtain ⟨y, -, hy⟩ := List.mem_flatMap.mp hx
        exact (mem_supersessionPredecessors.mp hy).1
      unfold backwardLoop
      rw [unseen_eq hrows hpreds]
      have hnext : ∀ x, x ∈ fresh seen
          (frontier.flatMap fun node => supersessionPredecessors db node.path) ↔
            Level db seed (hops + 1) x := fun x => mem_fresh_iff_atDist hseen hfront
      have hnodup := nodup_fresh seen
        (frontier.flatMap fun node => supersessionPredecessors db node.path)
      generalize fresh seen (frontier.flatMap fun node => supersessionPredecessors db node.path)
        = next at hnext hnodup
      by_cases hempty : next = []
      · -- past an empty level there is nothing
        rw [if_pos hempty]
        have hnone : ∀ x, ¬ Level db seed (hops + 1) x := by
          intro x hx
          have hmem := (hnext x).mpr hx
          rw [hempty] at hmem
          cases hmem
        refine .nothing fun m hm _ x hx => ?_
        obtain ⟨i, rfl⟩ := Nat.exists_eq_add_of_le hm
        exact absurd hx (not_atDist_of_empty hnone i x)
      · rw [if_neg hempty]
        have hcover : ∀ x, x ∈ (next.filter (readable access)).filter (fun d => covers d asOf) ↔
            Level db seed (hops + 1) x ∧ Able access asOf x := by
          intro x
          rw [List.mem_filter, List.mem_filter, hnext, and_assoc]
          exact Iff.rfl
        have hcoverNodup := (hnodup.filter (readable access)).filter fun d => covers d asOf
        generalize (next.filter (readable access)).filter (fun d => covers d asOf) = covering
          at hcover hcoverNodup
        have hbetween : ∀ m, hops < m → m < hops + 1 → ∀ x, Level db seed m x →
            ¬ Able access asOf x := fun m hm hlt => by omega
        match covering, hcover, hcoverNodup with
        | [], hcover, _ =>
            have hsplit : hops + (left + 1) = (hops + 1) + left := by omega
            rw [hsplit, ← List.map_append]
            refine Searched.pass (ih (fun x => ?_) hnext) fun x hx hable => ?_
            · rw [List.mem_append, hseen, hnext]
              constructor
              · rintro (⟨m, hm, hnear⟩ | hlevel)
                · exact ⟨m, by omega, hnear⟩
                · exact ⟨hops + 1, Nat.le_refl _, hlevel.1⟩
              · rintro ⟨m, hm, hnear⟩
                by_cases hbefore : ∃ m ≤ hops, Behind db seed m x
                · exact Or.inl hbefore
                · right
                  obtain rfl : m = hops + 1 := by
                    by_contra hne
                    exact hbefore ⟨m, by omega, hnear⟩
                  exact ⟨hnear, fun k hk hknear => hbefore ⟨k, by omega, hknear⟩⟩
            · exact absurd ((hcover x).mpr ⟨hx, hable⟩) List.not_mem_nil
        | [winner], hcover, _ =>
            refine .one (hops + 1) winner (by omega) (by omega) (fun x => ?_) hbetween
            rw [← hcover, List.mem_singleton]
        | a :: b :: rest, hcover, hnodup =>
            exact .many (hops + 1) (a :: b :: rest) (by omega) (by omega) hnodup
              (by simp) hcover hbetween

theorem walkBackward_spec (hseed : seed ∈ db.docs) :
    Searched db access asOf seed 0 maxHops (walkBackward db access asOf seed) := by
  have h := @backwardLoop_spec db access asOf seed hseed maxHops [seed] [seed] 0
    (fun x => ?_) (fun x => ?_)
  · rw [Nat.zero_add] at h
    exact h
  · rw [List.mem_singleton]
    constructor
    · rintro rfl
      exact ⟨0, Nat.le_refl 0, near_zero.mpr (List.mem_singleton_self _)⟩
    · rintro ⟨m, hm, hnear⟩
      obtain rfl := Nat.le_zero.mp hm
      exact List.mem_singleton.mp (near_zero.mp hnear)
  · rw [List.mem_singleton]
    constructor
    · rintro rfl
      exact ⟨near_zero.mpr (List.mem_singleton_self _), fun m hm => by omega⟩
    · rintro ⟨hnear, -⟩
      exact List.mem_singleton.mp (near_zero.mp hnear)

/-! ## What the caller cannot read -/

/-- One row in place of another: what the caller can read is the same, and of the rest the path,
    the collection and the pointer are. -/
structure Alike (access : Option AccessContext) (a b : IndexedDocument) : Prop where
  path : b.path = a.path
  collection : b.collection = a.collection
  pointer : b.supersededBy = a.supersededBy
  shown : readable access a = true → b = a

section Hidden

variable {hide : IndexedDocument → IndexedDocument} {db' : IndexDb}
  (halike : ∀ doc, Alike access doc (hide doc)) (hdocs : db'.docs = db.docs.map hide)

include halike

theorem readable_hide (doc : IndexedDocument) :
    readable access (hide doc) = readable access doc := by
  unfold readable
  rw [(halike doc).collection]

theorem unseen_hide (visited : List String) (preds : List IndexedDocument) :
    unseen visited (preds.map hide) = (unseen visited preds).map hide := by
  induction preds generalizing visited with
  | nil => rfl
  | cons pred preds ih =>
      rw [List.map_cons]
      unfold unseen
      rw [(halike pred).path]
      by_cases hmem : pred.path ∈ visited
      · rw [if_pos hmem, if_pos hmem]
        exact ih visited
      · rw [if_neg hmem, if_neg hmem, List.map_cons, ih]

theorem filter_hide (docs : List IndexedDocument) :
    (docs.map hide).filter (readable access) = docs.filter (readable access) := by
  rw [List.filter_map]
  have hsame : (readable access) ∘ hide = readable access := funext (readable_hide halike)
  rw [hsame]
  refine (List.map_congr_left fun doc hdoc => ?_).trans (List.map_id _)
  exact (halike doc).shown (List.mem_filter.mp hdoc).2

include hdocs

theorem getDocument_hide (path : String) :
    getDocument db' path = (getDocument db path).map hide := by
  unfold getDocument
  rw [hdocs, List.find?_map]
  have hsame : (fun d : IndexedDocument => decide (d.path = path)) ∘ hide
      = fun d => decide (d.path = path) := by
    funext doc
    exact congrArg (fun p => decide (p = path)) (halike doc).path
  rw [hsame]

theorem supersessionPredecessors_hide (path : String) :
    supersessionPredecessors db' path = (supersessionPredecessors db path).map hide := by
  unfold supersessionPredecessors Stable.sort
  have hsame : (fun d : IndexedDocument => decide (d.supersededBy = some path)) ∘ hide
      = fun d => decide (d.supersededBy = some path) := by
    funext doc
    exact congrArg (fun p => decide (p = some path)) (halike doc).pointer
  rw [hdocs, List.filter_map, hsame]
  refine (List.map_insertionSort _ _ hide _ fun a _ b _ => ?_).symm
  unfold Stable.Le
  dsimp only
  rw [(halike a).path, (halike b).path]

theorem forwardLoop_hide {left : Nat} {visited : List String} {doc : IndexedDocument} {hops : Nat} :
    forwardLoop db' access asOf left visited (hide doc) hops
      = forwardLoop db access asOf left visited doc hops := by
  induction left generalizing visited doc hops with
  | zero => rfl
  | succ left ih =>
      unfold forwardLoop
      rw [(halike doc).pointer, (halike doc).path]
      cases doc.supersededBy with
      | none => rfl
      | some nextPath =>
          dsimp only
          rw [getDocument_hide halike hdocs]
          cases getDocument db nextPath with
          | none => rfl
          | some next =>
              dsimp only [Option.map_some]
              rw [readable_hide halike]
              cases hread : readable access next with
              | false => rfl
              | true =>
                  -- the next row is one that the caller can read
                  have hsame := @ih (nextPath :: visited) next (hops + 1)
                  rw [(halike next).shown hread] at hsame ⊢
                  rw [hsame]

theorem backwardLoop_hide {left : Nat} {visited : List String} {frontier : List IndexedDocument}
    {hops : Nat} : backwardLoop db' access asOf left visited (frontier.map hide) hops
      = backwardLoop db access asOf left visited frontier hops := by
  induction left generalizing visited frontier hops with
  | zero => rfl
  | succ left ih =>
      have hpreds : ((frontier.map hide).flatMap fun node =>
          supersessionPredecessors db' node.path)
          = (frontier.flatMap fun node => supersessionPredecessors db node.path).map hide := by
        rw [List.flatMap_map, List.map_flatMap]
        refine congrArg (List.flatMap · frontier) (funext fun node => ?_)
        rw [(halike node).path]
        exact supersessionPredecessors_hide halike hdocs node.path
      unfold backwardLoop
      rw [hpreds, unseen_hide halike]
      generalize unseen visited
        (frontier.flatMap fun node => supersessionPredecessors db node.path) = next
      dsimp only
      have hpaths : (next.map hide).map IndexedDocument.path = next.map IndexedDocument.path := by
        rw [List.map_map]
        exact List.map_congr_left fun doc _ => (halike doc).path
      rw [filter_hide halike, hpaths, ih]
      simp only [List.map_eq_nil_iff]

/-- **What the caller cannot read does not change the answer**, as long as the document that is
    asked about does not cover the date. -/
theorem resolveValidAtSource_hide (hseed : seed ∈ db.docs) (hout : covers seed asOf = false)
    (hout' : covers (hide seed) asOf = false) : resolveValidAtSource db' access asOf seed.path
      = resolveValidAtSource db access asOf seed.path := by
  have hget : getDocument db seed.path = some seed := getDocument_eq_some.mpr ⟨hseed, rfl⟩
  have hback := @backwardLoop_hide db access asOf hide db' halike hdocs maxHops [seed.path]
    [seed] 0
  unfold resolveValidAtSource walkForward walkBackward
  rw [getDocument_hide halike hdocs, hget]
  dsimp only [Option.map_some]
  rw [hout, hout', (halike seed).path, forwardLoop_hide halike hdocs]
  rw [List.map_singleton] at hback
  rw [hback]

end Hidden

/-! ## The answer -/

/-- What the answer for a day is to be, for a document that does not cover it. -/
structure Answers (db : IndexDb) (access : Option AccessContext) (asOf : String) (d : Day)
    (seed : IndexedDocument) (answer : Option ValidAtSource) : Prop where
  /-- There is one. -/
  ends : answer.isSome = true
  /-- A document that is found is readable and its window holds the day; it is ahead of the seed
      or behind it, at the least depth of that direction at which there is such a document. -/
  found : ∀ path title snippet n lo hi, answer = some (.resolved path title snippet n lo hi) →
    ∃ doc ∈ db.docs, resolved doc n = .resolved path title snippet n lo hi ∧
      Member access d doc ∧ n ≤ maxHops ∧
      (Ahead db seed n doc ∧ Nearest access d (Ahead db seed) n ∨
        walkForward db access asOf seed = none ∧ Behind db seed n doc ∧
          Nearest access d (Behind db seed) n)
  /-- Behind the seed there may be several of them at that depth, and then they are counted. -/
  ambiguous : walkForward db access asOf seed = none → ∀ k,
    answer = some (.ambiguous k) ↔ 2 ≤ k ∧ ∃ n ≤ maxHops, Nearest access d (Behind db seed) n ∧
      {doc | Behind db seed n doc ∧ Member access d doc}.ncard = k
  /-- There is none within the hops where none is found. -/
  none : answer = some .noCover → ∀ n ≤ maxHops, ∀ doc,
    Ahead db seed n doc ∨ Behind db seed n doc → ¬ Member access d doc
  /-- What the caller cannot read may be anything, its window too. -/
  blind : ∀ (hide : IndexedDocument → IndexedDocument) (db' : IndexDb),
    (∀ doc, Alike access doc (hide doc)) → db'.docs = db.docs.map hide →
      ¬ Holds (hide seed) d → resolveValidAtSource db' access asOf seed.path = answer

section Answer

theorem Nearest.unique {depth : Nat → IndexedDocument → Prop} {m n : Nat}
    (hm : Nearest access d depth m) (hn : Nearest access d depth n) : m = n := by
  obtain ⟨⟨x, hx, hxm⟩, hmleast⟩ := hm
  obtain ⟨⟨y, hy, hym⟩, hnleast⟩ := hn
  rcases Nat.lt_trichotomy m n with hlt | rfl | hlt
  · exact absurd hxm (hnleast m hlt x hx)
  · rfl
  · exact absurd hym (hmleast n hlt y hy)

theorem exists_level {n : Nat} {doc : IndexedDocument} (h : Behind db seed n doc) :
    ∃ m ≤ n, Level db seed m doc := by
  classical
  have hnear : ∃ m, Behind db seed m doc := ⟨n, h⟩
  exact ⟨Nat.find hnear, Nat.find_min' hnear h, Nat.find_spec hnear,
    fun m hm => Nat.find_min hnear hm⟩

variable (hd : dayOf asOf = some d)

include hd

theorem able_iff {doc : IndexedDocument} : Able access asOf doc ↔ Member access d doc :=
  and_congr_right fun _ => covers_iff hd doc

variable (hout : ¬ Holds seed d)

include hout

theorem not_member_behind {n : Nat}
    (hleast : ∀ m, 0 < m → m < n → ∀ x, Level db seed m x → ¬ Able access asOf x) :
    ∀ m < n, ∀ x, Behind db seed m x → ¬ Member access d x := by
  intro m hm x hx hmember
  obtain ⟨k, hk, hlevel⟩ := exists_level hx
  rcases Nat.eq_zero_or_pos k with rfl | hpos
  · obtain rfl := List.mem_singleton.mp (near_zero.mp hlevel.1)
    exact hout hmember.2
  · exact hleast k hpos (by omega) x hlevel ((able_iff hd).mpr hmember)

theorem member_behind_iff {n : Nat}
    (hleast : ∀ m, 0 < m → m < n → ∀ x, Level db seed m x → ¬ Able access asOf x)
    (x : IndexedDocument) :
    Behind db seed n x ∧ Member access d x ↔ Level db seed n x ∧ Able access asOf x := by
  rw [able_iff hd]
  constructor
  · rintro ⟨hx, hmember⟩
    refine ⟨⟨hx, fun m hm hnear => ?_⟩, hmember⟩
    exact not_member_behind hd hout hleast m hm x hnear hmember
  · rintro ⟨hlevel, hmember⟩
    exact ⟨hlevel.1, hmember⟩

/-- **What the backward walk answers**: the one member at the least depth, the number of them, or
    nothing. -/
theorem walkBackward_cases (hseed : seed ∈ db.docs) :
    (∃ n doc, walkBackward db access asOf seed = some (resolved doc n) ∧ n ≤ maxHops ∧
      Nearest access d (Behind db seed) n ∧ {x | Behind db seed n x ∧ Member access d x} = {doc}) ∨
    (∃ n k, walkBackward db access asOf seed = some (.ambiguous k) ∧ n ≤ maxHops ∧ 2 ≤ k ∧
      Nearest access d (Behind db seed) n ∧
        {x | Behind db seed n x ∧ Member access d x}.ncard = k) ∨
    (walkBackward db access asOf seed = none ∧
      ∀ n ≤ maxHops, ∀ x, Behind db seed n x → ¬ Member access d x) := by
  have hspec := @walkBackward_spec db access asOf seed hseed
  generalize walkBackward db access asOf seed = answer at hspec
  cases hspec with
  | one n found hlo hhi honly hleast =>
      left
      have hset : {x | Behind db seed n x ∧ Member access d x} = {found} := by
        ext x
        rw [Set.mem_ofPred_eq, member_behind_iff hd hout hleast, honly]
        exact Iff.rfl
      refine ⟨n, found, rfl, hhi, ⟨⟨found, ?_⟩, not_member_behind hd hout hleast⟩, hset⟩
      exact (member_behind_iff hd hout hleast found).mpr ((honly found).mpr rfl)
  | many n covering hlo hhi hnodup htwo hall hleast =>
      right
      left
      have hset : {x | Behind db seed n x ∧ Member access d x} = ↑covering.toFinset := by
        ext x
        rw [Set.mem_ofPred_eq, member_behind_iff hd hout hleast, ← hall, Finset.mem_coe,
          List.mem_toFinset]
      obtain ⟨x, hx⟩ := List.exists_mem_of_length_pos (show 0 < covering.length by omega)
      refine ⟨n, covering.length, rfl, hhi, htwo,
        ⟨⟨x, (member_behind_iff hd hout hleast x).mpr ((hall x).mp hx)⟩,
          not_member_behind hd hout hleast⟩, ?_⟩
      rw [hset, Set.ncard_coe_finset, List.toFinset_card_of_nodup hnodup]
  | nothing hnone =>
      right
      right
      refine ⟨rfl, fun n hn x hx => ?_⟩
      exact not_member_behind hd hout (fun m hm hlt => hnone m hm (Nat.le_of_lt_succ hlt))
        n (Nat.lt_succ_of_le hn) x hx

theorem resolveValidAtSource_eq (hseed : seed ∈ db.docs) :
    resolveValidAtSource db access asOf seed.path = some ((walkForward db access asOf seed).getD
          ((walkBackward db access asOf seed).getD .noCover)) := by
  have hget : getDocument db seed.path = some seed := getDocument_eq_some.mpr ⟨hseed, rfl⟩
  have hcovers : ¬ covers seed asOf = true := fun h => hout ((covers_iff hd seed).mp h)
  unfold resolveValidAtSource
  simp only [hget, if_neg hcovers]
  cases walkForward db access asOf seed with
  | some verdict => rfl
  | none =>
      cases walkBackward db access asOf seed with
      | some verdict => rfl
      | none => rfl

theorem not_member_ahead {n : Nat}
    (hleast : ∀ m, 1 ≤ m → m < n → ∀ x, Ahead db seed m x → covers x asOf = false) :
    ∀ m < n, ∀ x, Ahead db seed m x → ¬ Member access d x := by
  intro m hm x hx hmember
  rcases Nat.eq_zero_or_pos m with rfl | hpos
  · obtain rfl := Option.some.inj hx
    exact hout hmember.2
  · have hcovers := (covers_iff hd x).mpr hmember.2
    rw [hleast m hpos hm x hx] at hcovers
    cases hcovers

end Answer

theorem mem_of_ahead {n : Nat} {doc : IndexedDocument} (hseed : seed ∈ db.docs)
    (h : Ahead db seed n doc) : doc ∈ db.docs := by
  induction n generalizing seed with
  | zero =>
      obtain rfl := Option.some.inj h
      exact hseed
  | succ n ih =>
      obtain ⟨y, hnext, hlead⟩ := Option.bind_eq_some_iff.mp h
      obtain ⟨path, -, hget⟩ := Option.bind_eq_some_iff.mp hnext
      exact ih (getDocument_eq_some.mp hget).1 hlead

theorem walkForward_none (h : walkForward db access asOf seed = none) :
    ∀ m, 1 ≤ m → m < maxHops + 1 → ∀ x, Ahead db seed m x → covers x asOf = false :=
  fun m hm hlt => (forwardLoop_spec.2 h) m hm (Nat.le_of_lt_succ hlt)

theorem forwardLoop_ne {left : Nat} {visited : List String} {doc : IndexedDocument} {hops : Nat} :
    (∀ k, forwardLoop db access asOf left visited doc hops ≠ some (.ambiguous k)) ∧
      forwardLoop db access asOf left visited doc hops ≠ some .noCover := by
  induction left generalizing visited doc hops with
  | zero => exact ⟨fun k => nofun, nofun⟩
  | succ left ih =>
      unfold forwardLoop
      cases doc.supersededBy with
      | none => exact ⟨fun k => nofun, nofun⟩
      | some nextPath =>
          dsimp only
          split
          · exact ⟨fun k => (by simp), by simp⟩
          · split
            · exact ⟨fun k => (by simp), by simp⟩
            · split
              · exact ⟨fun k => (by simp), by simp⟩
              · split
                · unfold resolved
                  exact ⟨fun k => (by simp), by simp⟩
                · exact ih

/-- **When the answer is a number**: when so many members are behind the seed at the least
    depth, within the hops. -/
theorem ambiguous_iff (hseed : seed ∈ db.docs) (hd : dayOf asOf = some d)
    (hout : ¬ Holds seed d) (hforward : walkForward db access asOf seed = none) {k : Nat} :
    resolveValidAtSource db access asOf seed.path = some (.ambiguous k) ↔
      2 ≤ k ∧ ∃ n ≤ maxHops, Nearest access d (Behind db seed) n ∧
        {doc | Behind db seed n doc ∧ Member access d doc}.ncard = k := by
  rw [resolveValidAtSource_eq hd hout hseed, hforward, Option.getD_none]
  rcases @walkBackward_cases db access asOf d seed hd hout hseed with
    ⟨m, doc, hw, hm, hnearest, hset⟩ | ⟨m, j, hw, hm, hj, hnearest, hcard⟩ | ⟨hw, hnone⟩
  · rw [hw]
    refine iff_of_false (by simp [resolved]) ?_
    rintro ⟨hk, n, -, hn, hcard⟩
    obtain rfl := hnearest.unique hn
    rw [hset, Set.ncard_singleton] at hcard
    omega
  · rw [hw, Option.getD_some]
    constructor
    · intro hsame
      obtain rfl : j = k := ValidAtSource.ambiguous.inj (Option.some.inj hsame)
      exact ⟨hj, m, hm, hnearest, hcard⟩
    · rintro ⟨-, n, -, hn, hcard'⟩
      obtain rfl := hnearest.unique hn
      rw [← hcard', hcard]
  · rw [hw]
    refine iff_of_false (by simp) ?_
    rintro ⟨-, n, hn, ⟨⟨x, hx, hmember⟩, -⟩, -⟩
    exact hnone n hn x hx hmember

/-- **THE ANSWER FOR A DATE IS THE NEAREST READABLE MEMBER**, for every index, every caller and
    every document that does not cover the date. -/
theorem answers (db : IndexDb) (access : Option AccessContext) {asOf : String} {d : Day}
    {seed : IndexedDocument} (hseed : seed ∈ db.docs) (hd : dayOf asOf = some d)
    (hout : ¬ Holds seed d) :
    Answers db access asOf d seed (resolveValidAtSource db access asOf seed.path) := by
  have heq := @resolveValidAtSource_eq db access asOf d seed hd hout hseed
  have hback := @walkBackward_cases db access asOf d seed hd hout hseed
  refine ⟨?_, ?_, ?_, ?_, ?_⟩
  · rw [heq]
    rfl
  · intro path title snippet n lo hi hanswer
    rw [heq] at hanswer
    cases hforward : walkForward db access asOf seed with
    | some verdict =>
        rw [hforward] at hanswer
        obtain ⟨k, doc, rfl, hk, hkle, hahead, hread, hcovers, hshown, hleast⟩ :=
          forwardLoop_spec.1 (hforward.trans hanswer)
        rw [Nat.zero_add] at hshown ⊢
        have hmember : Member access d doc := ⟨hread, (covers_iff hd doc).mp hcovers⟩
        exact ⟨doc, mem_of_ahead hseed hahead, hshown, hmember, hkle, Or.inl
          ⟨hahead, ⟨doc, hahead, hmember⟩, not_member_ahead hd hout hleast⟩⟩
    | none =>
        rw [hforward, Option.getD_none] at hanswer
        rcases hback with ⟨m, doc, hw, hm, hnearest, hset⟩ | ⟨m, k, hw, -⟩ | ⟨hw, -⟩
        · rw [hw] at hanswer
          have hshown : resolved doc m = .resolved path title snippet n lo hi :=
            Option.some.inj hanswer
          obtain ⟨-, -, -, rfl, -, -⟩ := ValidAtSource.resolved.inj hshown
          have hdoc : doc ∈ {x | Behind db seed m x ∧ Member access d x} := by
            rw [hset]
            exact Set.mem_singleton doc
          exact ⟨doc, ((behind_iff hseed).mp hdoc.1).1, hshown, hdoc.2, hm,
            Or.inr ⟨rfl, hdoc.1, hnearest⟩⟩
        · rw [hw] at hanswer
          cases hanswer
        · rw [hw] at hanswer
          cases hanswer
  · exact fun hforward k => ambiguous_iff hseed hd hout hforward
  · intro hanswer n hn x hx hmember
    rw [heq] at hanswer
    cases hforward : walkForward db access asOf seed with
    | some verdict =>
        rw [hforward] at hanswer
        exact forwardLoop_ne.2 (hforward.trans hanswer)
    | none =>
        rw [hforward, Option.getD_none] at hanswer
        rcases hx with hx | hx
        · exact not_member_ahead hd hout (walkForward_none hforward) n
            (Nat.lt_succ_of_le hn) x hx hmember
        · rcases hback with ⟨m, doc, hw, -⟩ | ⟨m, k, hw, -⟩ | ⟨-, hnone⟩
          · rw [hw] at hanswer
            cases hanswer
          · rw [hw] at hanswer
            cases hanswer
          · exact hnone n hn x hx hmember
  · intro hide db' halike hdocs hhidden
    have hcovers : covers seed asOf = false := by
      rw [Bool.eq_false_iff]
      exact fun h => hout ((covers_iff hd seed).mp h)
    have hcovers' : covers (hide seed) asOf = false := by
      rw [Bool.eq_false_iff]
      exact fun h => hhidden ((covers_iff hd (hide seed)).mp h)
    exact resolveValidAtSource_hide halike hdocs hseed hcovers hcovers'

/-! ## A long line -/

def lineName (i : Nat) : String := String.ofList (List.replicate i 'v')

/-- The documents of a line: each is replaced by the one before it. -/
def lineRow : Nat → IndexedDocument
  | 0 => plainRow (lineName 0) none
  | i + 1 => plainRow (lineName (i + 1)) (some (lineName i))

def oldRow (path : String) : IndexedDocument :=
  { plainRow path (some (lineName maxHops)) with validFrom := some "2026-01-01" }

theorem lineRow_path (i : Nat) : (lineRow i).path = lineName i := by
  cases i <;> rfl

theorem lineName_injective : Function.Injective lineName := by
  intro i j h
  have hlen := congrArg (fun s => s.toList.length) h
  simpa [lineName] using hlen

theorem lineName_ne {i : Nat} {c : Char} (hc : c ≠ 'v') : lineName i ≠ String.ofList [c] := by
  intro h
  have hlist : List.replicate i 'v' = [c] := by
    have := congrArg String.toList h
    simpa [lineName] using this
  exact hc (List.eq_of_mem_replicate (hlist ▸ List.mem_singleton_self c))

/-- Sixty-five documents in a line, and two that the last one replaced. -/
def lineIndex : IndexDb where
  docs := (List.range (maxHops + 1)).map lineRow ++
    [oldRow (String.ofList ['a']), oldRow (String.ofList ['b'])]
  distinct := by
    have hpaths : ((List.range (maxHops + 1)).map lineRow).map IndexedDocument.path
        = (List.range (maxHops + 1)).map lineName := by
      rw [List.map_map]
      exact List.map_congr_left fun i _ => lineRow_path i
    rw [List.map_append, hpaths, List.nodup_append]
    refine ⟨List.nodup_range.map lineName_injective, by decide, ?_⟩
    rintro p hp q hq rfl
    obtain ⟨i, -, rfl⟩ := List.mem_map.mp hp
    have hend : lineName i = String.ofList ['a'] ∨ lineName i = String.ofList ['b'] := by
      simpa [oldRow, plainRow] using hq
    rcases hend with h | h
    · exact lineName_ne (by decide) h
    · exact lineName_ne (by decide) h

theorem mem_lineIndex {doc : IndexedDocument} : doc ∈ lineIndex.docs ↔
    (∃ i ≤ maxHops, lineRow i = doc) ∨
      doc = oldRow (String.ofList ['a']) ∨ doc = oldRow (String.ofList ['b']) := by
  unfold lineIndex
  rw [List.mem_append, List.mem_map, List.mem_cons, List.mem_singleton]
  refine or_congr_left (exists_congr fun i => and_congr_left fun _ => ?_)
  rw [List.mem_range, Nat.lt_succ_iff]

theorem successor_lineRow {i : Nat} (hi : i < maxHops) :
    successor lineIndex (lineRow (i + 1)) = some (lineRow i) :=
  getDocument_eq_some.mpr ⟨mem_lineIndex.mpr (Or.inl ⟨i, hi.le, rfl⟩), lineRow_path i⟩

theorem successor_oldRow (path : String) :
    successor lineIndex (oldRow path) = some (lineRow maxHops) :=
  getDocument_eq_some.mpr
    ⟨mem_lineIndex.mpr (Or.inl ⟨maxHops, Nat.le_refl _, rfl⟩), lineRow_path maxHops⟩

theorem follow_lineRow {i n : Nat} (hi : i + n ≤ maxHops) :
    follow (successor lineIndex) n (lineRow (i + n)) = some (lineRow i) := by
  induction n with
  | zero => rfl
  | succ n ih =>
      change (successor lineIndex (lineRow (i + n + 1))).bind _ = _
      rw [successor_lineRow (by omega), Option.bind_some]
      exact ih (by omega)

theorem not_holds_lineRow (i : Nat) (d : Day) : ¬ Holds (lineRow i) d := by
  rintro ⟨hspeaks, -⟩
  refine hspeaks ?_
  cases i <;> exact ⟨rfl, rfl⟩

theorem dayOf_sample : ∃ d, dayOf "2026-06-01" = some d :=
  Option.isSome_iff_exists.mp (by decide +kernel)

theorem holds_oldRow {d : Day} (hd : dayOf "2026-06-01" = some d) (path : String) :
    Holds (oldRow path) d := by
  refine (covers_iff hd _).mp ?_
  have hwindow : (computeValidity ⟨some "2026-01-01", none⟩ "2026-06-01").any
      (fun report => report.state = .inWindow) = true := by
    decide +kernel
  exact hwindow

theorem behind_oldRow {n : Nat} {path : String} (hmem : oldRow path ∈ lineIndex.docs) :
    Behind lineIndex (lineRow 0) n (oldRow path) ↔ n = maxHops + 1 := by
  have hseed : lineRow 0 ∈ lineIndex.docs := mem_lineIndex.mpr (Or.inl ⟨0, Nat.zero_le _, rfl⟩)
  rw [behind_iff hseed]
  constructor
  · rintro ⟨-, hlead⟩
    cases n with
    | zero =>
        have hrow : oldRow path = lineRow 0 := Option.some.inj hlead
        have hpointer := congrArg IndexedDocument.supersededBy hrow
        cases hpointer
    | succ n =>
        change (successor lineIndex (oldRow path)).bind _ = _ at hlead
        rw [successor_oldRow, Option.bind_some] at hlead
        rcases Nat.lt_trichotomy n maxHops with hlt | rfl | hgt
        · -- the walk is still on the line
          have hline := @follow_lineRow (maxHops - n) n (by omega)
          rw [Nat.sub_add_cancel hlt.le, hlead] at hline
          have hpath := congrArg IndexedDocument.path (Option.some.inj hline)
          rw [lineRow_path, lineRow_path] at hpath
          have hzero := lineName_injective hpath
          omega
        · rfl
        · -- nothing comes after the start
          have hstops : Stops (successor lineIndex) (lineRow maxHops) (lineRow 0) maxHops :=
            ⟨@follow_lineRow 0 maxHops (by omega), rfl⟩
          obtain ⟨-, hsame⟩ := hstops.unique ⟨hlead, rfl⟩
          omega
  · rintro rfl
    refine ⟨hmem, ?_⟩
    change (successor lineIndex (oldRow path)).bind _ = _
    rw [successor_oldRow, Option.bind_some]
    exact @follow_lineRow 0 maxHops (by omega)

theorem nearest_line {d : Day} (hd : dayOf "2026-06-01" = some d) :
    Nearest none d (Behind lineIndex (lineRow 0)) (maxHops + 1) ∧
      {doc | Behind lineIndex (lineRow 0) (maxHops + 1) doc ∧ Member none d doc}.ncard = 2 := by
  have hseed : lineRow 0 ∈ lineIndex.docs := mem_lineIndex.mpr (Or.inl ⟨0, Nat.zero_le _, rfl⟩)
  have hmem : ∀ path, path = String.ofList ['a'] ∨ path = String.ofList ['b'] →
      oldRow path ∈ lineIndex.docs := by
    rintro path (rfl | rfl)
    · exact mem_lineIndex.mpr (Or.inr (Or.inl rfl))
    · exact mem_lineIndex.mpr (Or.inr (Or.inr rfl))
  -- a member behind the start is one of the two
  have honly : ∀ n doc, Behind lineIndex (lineRow 0) n doc ∧ Member none d doc →
      n = maxHops + 1 ∧ (doc = oldRow (String.ofList ['a']) ∨
        doc = oldRow (String.ofList ['b'])) := by
    rintro n doc ⟨hbehind, -, hholds⟩
    rcases mem_lineIndex.mp ((behind_iff hseed).mp hbehind).1 with ⟨i, -, rfl⟩ | rfl | rfl
    · exact absurd hholds (not_holds_lineRow i d)
    · exact ⟨(behind_oldRow (hmem _ (Or.inl rfl))).mp hbehind, Or.inl rfl⟩
    · exact ⟨(behind_oldRow (hmem _ (Or.inr rfl))).mp hbehind, Or.inr rfl⟩
  have hold : ∀ path, path = String.ofList ['a'] ∨ path = String.ofList ['b'] →
      Behind lineIndex (lineRow 0) (maxHops + 1) (oldRow path) ∧ Member none d (oldRow path) :=
    fun path hpath => ⟨(behind_oldRow (hmem path hpath)).mpr rfl, rfl, holds_oldRow hd path⟩
  refine ⟨⟨⟨_, hold _ (Or.inl rfl)⟩, ?_⟩, ?_⟩
  · intro m hm doc hbehind hmember
    have hsame := (honly m doc ⟨hbehind, hmember⟩).1
    omega
  · have hset : {doc | Behind lineIndex (lineRow 0) (maxHops + 1) doc ∧ Member none d doc}
        = {oldRow (String.ofList ['a']), oldRow (String.ofList ['b'])} := by
      ext doc
      constructor
      · exact fun h => (honly _ doc h).2
      · rintro (rfl | rfl)
        · exact hold _ (Or.inl rfl)
        · exact hold _ (Or.inr rfl)
    rw [hset, Set.ncard_pair]
    intro hsame
    have hpath := congrArg IndexedDocument.path hsame
    revert hpath
    decide

/-- **Beyond the hops there is no count**: two documents behind the start of the line cover the
    day, no other does, and the answer is not that there are two. -/
theorem not_ambiguous_line : ∃ d, dayOf "2026-06-01" = some d ∧
    walkForward lineIndex none "2026-06-01" (lineRow 0) = none ∧
    ¬ (resolveValidAtSource lineIndex none "2026-06-01" (lineRow 0).path
        = some (.ambiguous 2) ↔
      2 ≤ 2 ∧ ∃ n, Nearest none d (Behind lineIndex (lineRow 0)) n ∧
        {doc | Behind lineIndex (lineRow 0) n doc ∧ Member none d doc}.ncard = 2) := by
  obtain ⟨d, hd⟩ := dayOf_sample
  have hseed : lineRow 0 ∈ lineIndex.docs := mem_lineIndex.mpr (Or.inl ⟨0, Nat.zero_le _, rfl⟩)
  obtain ⟨hnearest, hcard⟩ := nearest_line hd
  refine ⟨d, hd, rfl, fun h => ?_⟩
  have hanswer := h.mpr ⟨Nat.le_refl 2, maxHops + 1, hnearest, hcard⟩
  obtain ⟨-, n, hn, hnear, -⟩ :=
    (ambiguous_iff hseed hd (not_holds_lineRow 0 d) rfl).mp hanswer
  have hsame := hnear.unique hnearest
  omega

theorem answers_line : ∃ d, Answers lineIndex none "2026-06-01" d (lineRow 0)
    (resolveValidAtSource lineIndex none "2026-06-01" (lineRow 0).path) := by
  obtain ⟨d, hd⟩ := dayOf_sample
  exact ⟨d, answers lineIndex none (mem_lineIndex.mpr (Or.inl ⟨0, Nat.zero_le _, rfl⟩)) hd
    (not_holds_lineRow 0 d)⟩

end ValidAt
