import Daftari.Access.RbacProofs
import Daftari.Lib.AssocProofs
import Daftari.Lib.ChainProofs

/-! # Supersede chains — pointers, the loop test, what it rules out

    A document's `superseded_by` names the document that replaced it.  The loop
    test resolves every pointer the way links are resolved, applies the edits of
    the write it guards, and walks from each edited document.

    * `acyclic_of_check`: **a write whose edits pass the test on the documents it
      is applied to leaves the exact graph without loops.** -/

namespace SupersedeChains

open Rbac

/-! ## Resolving a pointer -/

/-- `p.endsWith(".md") ? p : p + ".md"`. -/
def withMd (p : String) : String :=
  if ".md".toList.isSuffixOf p.toList then p else p ++ ".md"

/-- The base name without its `.md`. -/
def baseKey (p : String) : Path :=
  let base := basename p.toList
  if ".md".toList.isSuffixOf base then base.take (base.length - 3) else base

/-- The base name's only path, if it is unambiguous (`byBasename`). -/
def byBasename (paths : List String) (base : Path) : Option String :=
  match paths.filter fun p => baseKey p = base with
  | [p] => some p
  | _ => none

/-- `resolveLink`, over the paths of `buildPathIndexes`. -/
def resolveLink (paths : List String) (rawTarget fromPath : String) : Option String :=
  if rawTarget ∈ paths then some rawTarget
  else if withMd rawTarget ∈ paths then some (withMd rawTarget)
  else
    let relual := String.ofList (join (dirname fromPath.toList) rawTarget.toList)
    if relual ∈ paths then some relual
    else if withMd relual ∈ paths then some (withMd relual)
    else if '/' ∈ rawTarget.toList ∨ '\\' ∈ rawTarget.toList
        ∨ rawTarget.toList.head? = some '.' then none
    else byBasename paths (baseKey rawTarget)

/-! ## The loop test -/

/-- A document and its pointer; also a `SupersedeEdit`. -/
abbrev Pointer := String × Option String

def knownPaths (docs edits : List Pointer) : List String :=
  ((docs ++ edits).map Prod.fst).dedup

/-- The pointer that stands after the edits: the last one put. -/
def pointerOf (docs edits : List Pointer) (path : String) : Option String :=
  ((docs ++ edits).reverse.find? fun e => e.1 = path).bind Prod.snd

/-- `supersedeEdges`: resolved path to successor path. -/
def supersedeEdges (docs edits : List Pointer) (path : String) : Option String :=
  (pointerOf docs edits path).bind fun target =>
    if target = "" then none else resolveLink (knownPaths docs edits) target path

def closesSupersedeLoop (docs edits : List Pointer) : Bool :=
  let edges := supersedeEdges docs edits
  edits.any fun e =>
    Chain.returns edges e.1 ((knownPaths docs edits).length + 1) [] (edges e.1)

/-! ## Exact-path edges -/

/-- The graph a reader follows: a pointer that is the path of a document. -/
def exactNext (docs : List Pointer) (path : String) : Option String :=
  (docs.lookup path).join.filter fun target =>
    target ≠ "" ∧ target ∈ docs.map Prod.fst

variable {docs : List Pointer}

theorem exactNext_eq_some {p q : String} :
    exactNext docs p = some q ↔
      docs.lookup p = some (some q) ∧ q ≠ "" ∧ q ∈ docs.map Prod.fst := by
  unfold exactNext
  rw [Option.filter_eq_some_iff, decide_eq_true_iff]
  constructor
  · rintro ⟨h, hq⟩
    exact ⟨Option.join_eq_some_iff.mp h, hq⟩
  · rintro ⟨h, hq⟩
    exact ⟨Option.join_eq_some_iff.mpr h, hq⟩

theorem exactNext_eq_none (h : ∀ d ∈ docs, d.2 = none) (path : String) :
    exactNext docs path = none := by
  unfold exactNext
  cases hl : docs.lookup path with
  | none => rfl
  | some pointer =>
      obtain rfl : pointer = none := h (path, pointer) (Assoc.mem_of_lookup hl)
      rfl

theorem resolveLink_of_mem {paths : List String} {target : String} (fromPath : String)
    (h : target ∈ paths) : resolveLink paths target fromPath = some target := by
  unfold resolveLink
  rw [if_pos h]

variable {edits : List Pointer}

theorem mem_knownPaths_of_edge {p q : String} (h : supersedeEdges docs edits p = some q) :
    p ∈ knownPaths docs edits := by
  obtain ⟨target, htarget, _⟩ := Option.bind_eq_some_iff.mp h
  obtain ⟨e, he, _⟩ := Option.bind_eq_some_iff.mp htarget
  have hmem := List.mem_reverse.mp (List.mem_of_find?_eq_some he)
  have hpath := List.find?_some he
  rw [← of_decide_eq_true hpath]
  exact List.mem_dedup.mpr (List.mem_map_of_mem hmem)

/-- **The test refuses every loop through an edited document.** -/
theorem not_onCycle_of_check (h : closesSupersedeLoop docs edits = false) {e : Pointer}
    (he : e ∈ edits) : ¬ Chain.OnCycle (supersedeEdges docs edits) e.1 := by
  intro hcycle
  have hno := List.any_eq_false.mp h e he
  exact hno (Chain.returns_of_onCycle (fun _ _ => mem_knownPaths_of_edge) (Nat.lt_succ_self _)
    hcycle)

theorem find?_reverse_eq_lookup {l : List Pointer} (hnd : (l.map Prod.fst).Nodup) (p : String) :
    (l.reverse.find? fun e => e.1 = p).bind Prod.snd = (l.lookup p).join := by
  induction l with
  | nil => rfl
  | cons e l ih =>
      obtain ⟨k, v⟩ := e
      obtain ⟨hk, hnd⟩ := List.nodup_cons.mp hnd
      rw [List.reverse_cons, List.find?_append, List.lookup_cons]
      by_cases hp : p = k
      · subst hp
        have hnone : (l.reverse.find? fun e => decide (e.1 = p)) = none := by
          rw [List.find?_eq_none]
          intro e he hep
          have hpath : e.1 = p := of_decide_eq_true hep
          have hmem := List.mem_map_of_mem (f := Prod.fst) (List.mem_reverse.mp he)
          rw [hpath] at hmem
          exact hk hmem
        rw [hnone]
        simp
      · rw [beq_false_of_ne hp]
        have hne : ¬ k = p := fun h => hp h.symm
        rw [List.find?_singleton, if_neg (by simpa using hne), Option.or_none]
        exact ih hnd

theorem pointerOf_of_mem (hnd : (edits.map Prod.fst).Nodup) {e : Pointer} (he : e ∈ edits) :
    pointerOf docs edits e.1 = e.2 := by
  obtain ⟨k, v⟩ := e
  unfold pointerOf
  rw [List.reverse_append, List.find?_append]
  have hlookup : edits.lookup k = some v := Assoc.lookup_of_mem hnd he
  have hfind := find?_reverse_eq_lookup hnd k
  rw [hlookup] at hfind
  cases hf : edits.reverse.find? fun e => decide (e.1 = k) with
  | none =>
      rw [List.find?_eq_none] at hf
      exact absurd (decide_eq_true rfl) (hf (k, v) (List.mem_reverse.mpr he))
  | some e =>
      rw [hf] at hfind
      exact hfind

theorem pointerOf_of_not_mem (hnd : (docs.map Prod.fst).Nodup) {p : String}
    (hp : p ∉ edits.map Prod.fst) : pointerOf docs edits p = (docs.lookup p).join := by
  unfold pointerOf
  have hnone : (edits.reverse.find? fun e => decide (e.1 = p)) = none := by
    rw [List.find?_eq_none]
    intro e he hep
    rw [← of_decide_eq_true hep] at hp
    exact hp (List.mem_map_of_mem (List.mem_reverse.mp he))
  rw [List.reverse_append, List.find?_append, hnone, Option.none_or]
  exact find?_reverse_eq_lookup hnd p

/-! ## What the test rules out -/

/-- The documents after a write: each has the pointer of the write's edits or
    the one it had, and a document without a pointer may be written as well. -/
structure Written (docs edits after : List Pointer) : Prop where
  /-- Only edited or unpointed documents changed. -/
  pointer : ∀ p q, after.lookup p = some (some q) →
    (p, some q) ∈ edits ∨ (p ∉ edits.map Prod.fst ∧ docs.lookup p = some (some q))
  /-- A new document is an edited one, or was there. -/
  paths : ∀ p ∈ after.map Prod.fst, p ∈ docs.map Prod.fst ∨ p ∈ edits.map Prod.fst

/-- **A write whose edits pass the test, on the documents it is applied to,
    leaves the exact graph without loops.** -/
theorem acyclic_of_check {after : List Pointer} (hdocs : (docs.map Prod.fst).Nodup)
    (hedits : (edits.map Prod.fst).Nodup) (hw : Written docs edits after)
    (hacyclic : Chain.Acyclic (exactNext docs)) (hcheck : closesSupersedeLoop docs edits = false) :
    Chain.Acyclic (exactNext after) := by
  intro p hcycle
  -- every exact edge after the write is an edge of the tested graph
  have hsub : ∀ a b, exactNext after a = some b → supersedeEdges docs edits a = some b := by
    intro a b hab
    obtain ⟨hlookup, hne, hmem⟩ := exactNext_eq_some.mp hab
    have hpointer : pointerOf docs edits a = some b := by
      rcases hw.pointer a b hlookup with he | ⟨hnot, hold⟩
      · exact pointerOf_of_mem hedits he
      · rw [pointerOf_of_not_mem hdocs hnot, hold]
        rfl
    have hknown : b ∈ knownPaths docs edits := by
      unfold knownPaths
      rw [List.mem_dedup, List.map_append, List.mem_append]
      exact hw.paths b hmem
    unfold supersedeEdges
    rw [hpointer, Option.bind_some, if_neg hne]
    exact resolveLink_of_mem a hknown
  have hno : ∀ a, a ∈ edits.map Prod.fst → ¬ Chain.OnCycle (exactNext after) a := by
    intro a ha hloop
    obtain ⟨e, he, rfl⟩ := List.mem_map.mp ha
    exact not_onCycle_of_check hcheck he (hloop.mono hsub)
  -- a loop that avoids the edited documents was there before
  let changed : String → Prop := fun a =>
    a ∈ edits.map Prod.fst ∨ ∃ b, exactNext after a = some b ∧ b ∈ edits.map Prod.fst
  have hsame : ∀ a b, ¬ changed a → exactNext after a = some b →
      exactNext docs a = some b := by
    intro a b hnot hab
    obtain ⟨hlookup, hne, hmem⟩ := exactNext_eq_some.mp hab
    have hae : a ∉ edits.map Prod.fst := fun h => hnot (Or.inl h)
    have hbe : b ∉ edits.map Prod.fst := fun h => hnot (Or.inr ⟨b, hab, h⟩)
    refine exactNext_eq_some.mpr ⟨?_, hne, ?_⟩
    · rcases hw.pointer a b hlookup with he | ⟨_, hold⟩
      · exact absurd (List.mem_map_of_mem (f := Prod.fst) he) hae
      · exact hold
    · rcases hw.paths b hmem with h | h
      · exact h
      · exact absurd h hbe
  rcases Chain.onCycle_or changed hsame hcycle with hold | ⟨s, hs, hloop⟩
  · exact hacyclic p hold
  · rcases hs with hs | ⟨b, hb, hbe⟩
    · exact hno s hs hloop
    · refine hno b hbe (hloop.of_follow (k := 1) ?_)
      rw [Chain.follow_one]
      exact hb

end SupersedeChains
