import Daftari.Lib.AssocProofs
import Mathlib.Data.List.Induction
import Mathlib.Logic.Relation

/-! # Classes — joining elements pair by pair

    Every element that was named has a root, and two elements are in one class when they have the
    same root.  Joining two elements sends the root of the one to the root of the other.  The map is
    kept with all its paths compressed: a root is looked up in one step.

    * `same_union`: one join, on the classes;
    * `same_unions`: **after any joins, two elements are in one class exactly when the pairs joined
      connect them.** -/

namespace Classes

variable {α : Type*} [DecidableEq α]

/-- The elements that were named, each with its root, which was named too. -/
structure Roots (α : Type*) where
  entries : List (α × α)
  closed : ∀ e ∈ entries, e.2 ∈ entries.map Prod.fst

namespace Roots

def empty : Roots α := ⟨[], nofun⟩

/-- The elements that were named, in order. -/
def keys (r : Roots α) : List α := r.entries.map Prod.fst

/-- The root of an element; one that was not named is its own. -/
def find (r : Roots α) (x : α) : α := (r.entries.lookup x).getD x

def name (r : Roots α) (x : α) : Roots α :=
  if x ∈ r.keys then r
  else
    { entries := r.entries ++ [(x, x)]
      closed := by
        intro e he
        rw [List.map_append, List.mem_append]
        rcases List.mem_append.mp he with he | he
        · exact Or.inl (r.closed e he)
        · obtain rfl := List.mem_singleton.mp he
          exact Or.inr (List.mem_singleton_self _) }

variable {r : Roots α} {x : α}

theorem lookup_isSome : (r.entries.lookup x).isSome ↔ x ∈ r.keys := by
  unfold keys
  induction r.entries with
  | nil => simp
  | cons e l ih =>
      rw [List.lookup_cons, List.map_cons, List.mem_cons]
      by_cases hx : x = e.1
      · simp [hx]
      · have hne : (x == e.1) = false := beq_false_of_ne hx
        rw [hne, ih]
        simp [hx]

theorem find_of_not_mem (h : x ∉ r.keys) : r.find x = x := by
  unfold find
  cases hl : r.entries.lookup x with
  | none => rfl
  | some y => exact absurd (lookup_isSome.mp (by rw [hl]; rfl)) h

theorem find_mem (h : x ∈ r.keys) : r.find x ∈ r.keys := by
  unfold find
  cases hl : r.entries.lookup x with
  | none => exact h
  | some y => exact r.closed _ (Assoc.mem_of_lookup hl)

@[simp] theorem find_name (r : Roots α) (x y : α) : (r.name x).find y = r.find y := by
  unfold name
  split
  · rfl
  · rename_i hx
    unfold find
    rw [List.lookup_append]
    cases hl : r.entries.lookup y with
    | some z => rfl
    | none =>
        by_cases hyx : y = x
        · simp [hyx]
        · have hne : (y == x) = false := beq_false_of_ne hyx
          simp [List.lookup_cons, hne]

theorem mem_keys_name {y : α} : y ∈ (r.name x).keys ↔ y ∈ r.keys ∨ y = x := by
  unfold name
  split
  · rename_i hx
    constructor
    · exact Or.inl
    · rintro (hy | rfl)
      · exact hy
      · exact hx
  · simp [keys]

/-- Every element with one root gets another, which was named. -/
def redirect (r : Roots α) (old new : α) (hnew : new ∈ r.keys) : Roots α where
  entries := r.entries.map fun e => (e.1, if e.2 = old then new else e.2)
  closed := by
    intro e he
    have hkeys : (r.entries.map fun e => (e.1, if e.2 = old then new else e.2)).map Prod.fst =
        r.keys := by
      rw [List.map_map]
      rfl
    rw [hkeys]
    obtain ⟨e', he', rfl⟩ := List.mem_map.mp he
    show (if e'.2 = old then new else e'.2) ∈ r.keys
    by_cases hold : e'.2 = old
    · rw [if_pos hold]
      exact hnew
    · rw [if_neg hold]
      exact r.closed e' he'

theorem keys_redirect (r : Roots α) (old new : α) (hnew : new ∈ r.keys) :
    (r.redirect old new hnew).keys = r.keys := by
  unfold redirect keys
  rw [List.map_map]
  rfl

theorem find_redirect {old new : α} (hnew : new ∈ r.keys) (hx : x ∈ r.keys) :
    (r.redirect old new hnew).find x = if r.find x = old then new else r.find x := by
  have hlookup : ∀ l : List (α × α),
      (l.map fun e => (e.1, if e.2 = old then new else e.2)).lookup x =
        (l.lookup x).map fun y => if y = old then new else y := by
    intro l
    induction l with
    | nil => rfl
    | cons e l ih =>
        rw [List.map_cons, List.lookup_cons, List.lookup_cons]
        cases x == e.1 with
        | true => rfl
        | false => exact ih
  unfold find redirect
  rw [hlookup]
  obtain ⟨y, hy⟩ := Option.isSome_iff_exists.mp (lookup_isSome.mpr hx)
  rw [hy]
  rfl

/-- Two elements are joined: the root of the first goes to the root of the second. -/
def union (r : Roots α) (a b : α) : Roots α :=
  ((r.name a).name b).redirect (r.find a) (((r.name a).name b).find b)
    (find_mem (mem_keys_name.mpr (Or.inr rfl)))

theorem mem_keys_union {a b : α} : x ∈ (r.union a b).keys ↔ x ∈ r.keys ∨ x = a ∨ x = b := by
  unfold union
  rw [keys_redirect, mem_keys_name, mem_keys_name, or_assoc]

theorem find_union (r : Roots α) (a b x : α) :
    (r.union a b).find x = if r.find x = r.find a then r.find b else r.find x := by
  by_cases hx : x ∈ ((r.name a).name b).keys
  · unfold union
    rw [find_redirect _ hx]
    simp only [find_name]
  · have hout : x ∉ (r.union a b).keys := by
      unfold union
      rwa [keys_redirect]
    rw [mem_keys_name, mem_keys_name, not_or, not_or] at hx
    rw [find_of_not_mem hout, find_of_not_mem hx.1.1]
    -- an element that was never named is nobody's root
    by_cases hroot : x = r.find a
    · exfalso
      by_cases ha : a ∈ r.keys
      · exact hx.1.1 (hroot ▸ find_mem ha)
      · rw [find_of_not_mem ha] at hroot
        exact hx.1.2 hroot
    · rw [if_neg hroot]

/-- Two elements have the same root. -/
def Same (r : Roots α) (x y : α) : Prop := r.find x = r.find y

/-- **One join**, on the classes. -/
theorem same_union {a b y : α} : (r.union a b).Same x y ↔
      r.Same x y ∨ r.Same x a ∧ r.Same b y ∨ r.Same x b ∧ r.Same a y := by
  unfold Same
  rw [find_union, find_union]
  by_cases hx : r.find x = r.find a
  · by_cases hy : r.find y = r.find a
    · rw [if_pos hx, if_pos hy]
      exact iff_of_true rfl (Or.inl (hx.trans hy.symm))
    · rw [if_pos hx, if_neg hy]
      constructor
      · exact fun h => Or.inr (Or.inl ⟨hx, h⟩)
      · rintro (h | ⟨-, h⟩ | ⟨h, h'⟩)
        · exact absurd (h.symm.trans hx) hy
        · exact h
        · exact absurd h'.symm hy
  · by_cases hy : r.find y = r.find a
    · rw [if_neg hx, if_pos hy]
      constructor
      · exact fun h => Or.inr (Or.inr ⟨h, hy.symm⟩)
      · rintro (h | ⟨h, -⟩ | ⟨h, -⟩)
        · exact absurd (h.trans hy) hx
        · exact absurd h hx
        · exact h
    · rw [if_neg hx, if_neg hy]
      constructor
      · exact Or.inl
      · rintro (h | ⟨h, -⟩ | ⟨-, h⟩)
        · exact h
        · exact absurd h hx
        · exact absurd h.symm hy

/-- Pairs joined one after another. -/
def unions (pairs : List (α × α)) : Roots α :=
  pairs.foldl (fun r p => r.union p.1 p.2) empty

theorem unions_append (pairs : List (α × α)) (p : α × α) :
    unions (pairs ++ [p]) = (unions pairs).union p.1 p.2 := by
  unfold unions
  rw [List.foldl_append]
  rfl

theorem mem_keys_unions {pairs : List (α × α)} :
    x ∈ (unions pairs).keys ↔ ∃ p ∈ pairs, x = p.1 ∨ x = p.2 := by
  induction pairs using List.reverseRecOn with
  | nil => simp [unions, empty, keys]
  | append_singleton pairs p ih =>
      rw [unions_append, mem_keys_union, ih]
      simp only [List.mem_append, List.mem_singleton, or_and_right, exists_or, exists_eq_left]

end Roots

/-- The pairs connect two elements, whichever way round they are. -/
abbrev Connected (pairs : List (α × α)) : α → α → Prop :=
  Relation.EqvGen fun x y => (x, y) ∈ pairs

omit [DecidableEq α] in
theorem connected_append {pairs : List (α × α)} {p : α × α} {x y : α} :
    Connected (pairs ++ [p]) x y ↔
      Connected pairs x y ∨ Connected pairs x p.1 ∧ Connected pairs p.2 y ∨
        Connected pairs x p.2 ∧ Connected pairs p.1 y := by
  have hmono : ∀ {x y}, Connected pairs x y → Connected (pairs ++ [p]) x y := by
    intro x y h
    exact Relation.EqvGen.mono (fun _ _ hin => List.mem_append_left _ hin) x y h
  have hnew : Connected (pairs ++ [p]) p.1 p.2 :=
    .rel _ _ (List.mem_append_right _ (List.mem_singleton_self _))
  constructor
  · intro h
    induction h with
    | rel x y h =>
        rcases List.mem_append.mp h with h | h
        · exact Or.inl (.rel _ _ h)
        · obtain rfl := List.mem_singleton.mp h
          exact Or.inr (Or.inl ⟨.refl _, .refl _⟩)
    | refl x => exact Or.inl (.refl _)
    | symm x y _ ih =>
        rcases ih with h | ⟨h, h'⟩ | ⟨h, h'⟩
        · exact Or.inl (.symm _ _ h)
        · exact Or.inr (Or.inr ⟨.symm _ _ h', .symm _ _ h⟩)
        · exact Or.inr (Or.inl ⟨.symm _ _ h', .symm _ _ h⟩)
    | trans x y z _ _ ih ih' =>
        rcases ih with h | ⟨h, h'⟩ | ⟨h, h'⟩
        · rcases ih' with k | ⟨k, k'⟩ | ⟨k, k'⟩
          · exact Or.inl (.trans _ _ _ h k)
          · exact Or.inr (Or.inl ⟨.trans _ _ _ h k, k'⟩)
          · exact Or.inr (Or.inr ⟨.trans _ _ _ h k, k'⟩)
        · rcases ih' with k | ⟨-, k'⟩ | ⟨-, k'⟩
          · exact Or.inr (Or.inl ⟨h, .trans _ _ _ h' k⟩)
          · exact Or.inr (Or.inl ⟨h, k'⟩)
          · exact Or.inl (.trans _ _ _ h k')
        · rcases ih' with k | ⟨-, k'⟩ | ⟨-, k'⟩
          · exact Or.inr (Or.inr ⟨h, .trans _ _ _ h' k⟩)
          · exact Or.inl (.trans _ _ _ h k')
          · exact Or.inr (Or.inr ⟨h, k'⟩)
  · rintro (h | ⟨h, h'⟩ | ⟨h, h'⟩)
    · exact hmono h
    · exact .trans _ _ _ (hmono h) (.trans _ _ _ hnew (hmono h'))
    · exact .trans _ _ _ (hmono h) (.trans _ _ _ (.symm _ _ hnew) (hmono h'))

/-- **After any joins, a class is what the pairs connect.** -/
theorem same_unions {pairs : List (α × α)} {x y : α} :
    (Roots.unions pairs).Same x y ↔ Connected pairs x y := by
  induction pairs using List.reverseRecOn generalizing x y with
  | nil =>
      constructor
      · rintro h
        obtain rfl : x = y := h
        exact .refl _
      · intro h
        induction h with
        | rel x y h => exact absurd h List.not_mem_nil
        | refl x => exact rfl
        | symm x y _ ih => exact Eq.symm ih
        | trans x y z _ _ ih ih' => exact Eq.trans ih ih'
  | append_singleton pairs p ih =>
      rw [Roots.unions_append, Roots.same_union, connected_append]
      simp only [ih]

end Classes
