import Daftari.Lib.ClassesProofs
import Mathlib.Data.List.Perm.Subperm

/-! # Union-find over a map of parents

    The classes kept as a map from elements to parents, in the order the elements came: a root is
    its own parent.  Looking an element up climbs to its root and then points everything on the way
    at it; joining points one root at another.

    * `climb`, `compress`, `find`, `union`: the two loops and their callers, with
      no result when the fuel is used up;
    * `Climbs`: an element is so many steps below its root, and `Climbs.lt_length`:
      fewer than there are elements;
    * `Represents`: the map keeps the classes of a table of roots;
    * `find_spec`, `union_spec`: **every look-up and every join ends, and keeps them**. -/

namespace UnionFind

variable {α : Type*} [DecidableEq α]

/-- The parents, in the order the elements came. -/
abbrev Parents (α : Type*) := List (α × α)

/-- `while (parent.get(root) !== root) root = parent.get(root)`. -/
def climb (m : Parents α) : Nat → α → Option α
  | 0, _ => none
  | fuel + 1, x =>
      (m.lookup x).bind fun p => if p = x then some x else climb m fuel p

/-- The second pass: everything on the way is pointed at the root. -/
def compress (root : α) : Nat → α → Parents α → Option (Parents α)
  | 0, _, _ => none
  | fuel + 1, cur, m =>
      (m.lookup cur).bind fun p =>
        if p = root then some m else compress root fuel p (Assoc.set m cur root)

/-- The root of an element and the map after the look-up; a new element is its own. -/
def find (m : Parents α) (x : α) : Option (α × Parents α) :=
  if x ∈ Assoc.keys m then
    (climb m m.length x).bind fun root =>
      (compress root m.length x m).map fun m' => (root, m')
  else some (x, Assoc.set m x x)

/-- The root of the one is pointed at the root of the other. -/
def union (m : Parents α) (a b : α) : Option (Parents α) :=
  (find m a).bind fun ra =>
    (find ra.2 b).map fun rb =>
      if ra.1 ≠ rb.1 then Assoc.set rb.2 ra.1 rb.1 else rb.2

/-! ## Climbing -/

/-- An element is `n` steps below its root. -/
inductive Climbs (m : Parents α) : Nat → α → α → Prop
  | root {x : α} : m.lookup x = some x → Climbs m 0 x x
  | up {n : Nat} {x p y : α} : m.lookup x = some p → p ≠ x → Climbs m n p y →
      Climbs m (n + 1) x y

section Climbing

variable {m : Parents α} {n k : Nat} {x y z w root v : α}

theorem Climbs.unique (h : Climbs m n x y) (h' : Climbs m k x z) : n = k ∧ y = z := by
  induction h generalizing k with
  | root hx =>
      cases h' with
      | root _ => exact ⟨rfl, rfl⟩
      | up hp hne _ => exact absurd (Option.some.inj (hp.symm.trans hx)) hne
  | up hp hne _ ih =>
      cases h' with
      | root hx => exact absurd (Option.some.inj (hp.symm.trans hx)) hne
      | up hp' _ hrest =>
          obtain rfl := Option.some.inj (hp.symm.trans hp')
          obtain ⟨rfl, rfl⟩ := ih hrest
          exact ⟨rfl, rfl⟩

theorem Climbs.top (h : Climbs m n x y) : m.lookup y = some y := by
  induction h with
  | root hx => exact hx
  | up _ _ _ ih => exact ih

theorem Climbs.mem_keys (h : Climbs m n x y) : x ∈ Assoc.keys m := by
  have hof : ∀ {x p : α}, m.lookup x = some p → x ∈ Assoc.keys m := fun hl =>
    List.mem_map_of_mem (f := Prod.fst) (Assoc.mem_of_lookup hl)
  cases h with
  | root hx => exact hof hx
  | up hp _ _ => exact hof hp

theorem Climbs.exists_path (h : Climbs m n x y) :
    ∃ l : List α, l.length = n + 1 ∧ l.Nodup ∧ l ⊆ Assoc.keys m
      ∧ ∀ z ∈ l, ∃ k ≤ n, Climbs m k z y := by
  induction h with
  | @root x hx =>
      refine ⟨[x], rfl, List.nodup_singleton x, ?_, ?_⟩
      · intro z hz
        rw [List.mem_singleton.mp hz]
        exact (Climbs.root hx).mem_keys
      · intro z hz
        rw [List.mem_singleton.mp hz]
        exact ⟨0, Nat.le_refl 0, .root hx⟩
  | @up n x p y hp hne hrest ih =>
      obtain ⟨l, hlen, hnodup, hsub, hheight⟩ := ih
      have hall : Climbs m (n + 1) x y := .up hp hne hrest
      refine ⟨x :: l, congrArg (· + 1) hlen, List.nodup_cons.mpr ⟨fun hx => ?_, hnodup⟩, ?_, ?_⟩
      · obtain ⟨k, hk, hlow⟩ := hheight x hx
        have hsame := (hall.unique hlow).1
        omega
      · intro z hz
        rcases List.mem_cons.mp hz with rfl | hz
        · exact hall.mem_keys
        · exact hsub hz
      · intro z hz
        rcases List.mem_cons.mp hz with rfl | hz
        · exact ⟨n + 1, Nat.le_refl _, hall⟩
        · obtain ⟨k, hk, hlow⟩ := hheight z hz
          exact ⟨k, Nat.le_succ_of_le hk, hlow⟩

/-- **The way up is shorter than the map.** -/
theorem Climbs.lt_length (h : Climbs m n x y) : n < m.length := by
  obtain ⟨l, hlen, hnodup, hsub, _⟩ := h.exists_path
  have hle := (List.subperm_of_subset hnodup hsub).length_le
  rw [Assoc.keys, List.length_map] at hle
  omega

theorem climb_eq (h : Climbs m n x y) {fuel : Nat} (hfuel : n < fuel) :
    climb m fuel x = some y := by
  induction h generalizing fuel with
  | root hx =>
      cases fuel with
      | zero => exact absurd hfuel (Nat.not_lt_zero _)
      | succ fuel =>
          rw [climb, hx, Option.bind_some, if_pos rfl]
  | up hp hne _ ih =>
      cases fuel with
      | zero => exact absurd hfuel (Nat.not_lt_zero _)
      | succ fuel =>
          rw [climb, hp, Option.bind_some, if_neg hne]
          exact ih (Nat.lt_of_succ_lt_succ hfuel)

/-! ## Pointing somewhere else -/

theorem Climbs.set_above (h : Climbs m k x w) (hx : Climbs m n z y) (hk : k < n) :
    Climbs (Assoc.set m z v) k x w := by
  induction h with
  | @root x hroot =>
      have hne : x ≠ z := by
        rintro rfl
        have hsame := ((Climbs.root hroot).unique hx).1
        omega
      exact .root ((Assoc.lookup_set_of_ne m v hne).trans hroot)
  | @up k x p w hp hpx hrest ih =>
      have hne : x ≠ z := by
        rintro rfl
        have hsame := ((Climbs.up hp hpx hrest).unique hx).1
        omega
      exact .up ((Assoc.lookup_set_of_ne m v hne).trans hp) hpx (ih (by omega))

/-- **Pointing an element at its own root** moves nobody to another root. -/
theorem Climbs.shortcut (h : Climbs m k x w) (hz : Climbs m n z root) (hne : root ≠ z) :
    ∃ k', Climbs (Assoc.set m z root) k' x w := by
  have htop : (Assoc.set m z root).lookup root = some root :=
    (Assoc.lookup_set_of_ne m root hne).trans hz.top
  induction h with
  | @root x hroot =>
      have hxz : x ≠ z := by
        rintro rfl
        exact hne ((Climbs.root hroot).unique hz).2.symm
      exact ⟨0, .root ((Assoc.lookup_set_of_ne m root hxz).trans hroot)⟩
  | @up k x p w hp hpx hrest ih =>
      by_cases hxz : x = z
      · subst hxz
        obtain rfl := ((Climbs.up hp hpx hrest).unique hz).2
        exact ⟨1, .up (Assoc.lookup_set_self m x w) hne (.root htop)⟩
      · obtain ⟨k', hk'⟩ := ih
        exact ⟨k' + 1, .up ((Assoc.lookup_set_of_ne m root hxz).trans hp) hpx hk'⟩

/-- **Pointing a root at another root** takes everything below it along. -/
theorem Climbs.link (h : Climbs m k x w) (hz : m.lookup z = some z)
    (hroot : m.lookup root = some root) (hne : root ≠ z) :
    ∃ k', Climbs (Assoc.set m z root) k' x (if w = z then root else w) := by
  have htop : (Assoc.set m z root).lookup root = some root :=
    (Assoc.lookup_set_of_ne m root hne).trans hroot
  induction h with
  | @root x hx =>
      by_cases hxz : x = z
      · subst hxz
        rw [if_pos rfl]
        exact ⟨1, .up (Assoc.lookup_set_self m x root) hne (.root htop)⟩
      · rw [if_neg hxz]
        exact ⟨0, .root ((Assoc.lookup_set_of_ne m root hxz).trans hx)⟩
  | @up k x p w hp hpx hrest ih =>
      have hxz : x ≠ z := by
        rintro rfl
        exact hpx (Option.some.inj (hp.symm.trans hz))
      obtain ⟨k', hk'⟩ := ih
      exact ⟨k' + 1, .up ((Assoc.lookup_set_of_ne m root hxz).trans hp) hpx hk'⟩

theorem Climbs.of_new (h : Climbs m k x w) (hz : z ∉ Assoc.keys m) :
    Climbs (Assoc.set m z v) k x w := by
  have hsame : ∀ {y : α}, y ∈ Assoc.keys m → (Assoc.set m z v).lookup y = m.lookup y :=
    fun hy => Assoc.lookup_set_of_ne m v (fun he => hz (he ▸ hy))
  induction h with
  | root hroot => exact .root ((hsame (Climbs.root hroot).mem_keys).trans hroot)
  | up hp hpx hrest ih => exact .up ((hsame (Climbs.up hp hpx hrest).mem_keys).trans hp) hpx ih

theorem keys_set_of_lookup (hl : m.lookup x = some y) :
    Assoc.keys (Assoc.set m x v) = Assoc.keys m := by
  have hx : x ∈ Assoc.keys m := List.mem_map_of_mem (f := Prod.fst) (Assoc.mem_of_lookup hl)
  rw [Assoc.keys_set, if_pos hx]

/-- **The second loop ends**, with the same elements under the same roots. -/
theorem compress_spec (h : Climbs m n x root) {fuel : Nat} (hfuel : n < fuel) :
    ∃ m', compress root fuel x m = some m' ∧ Assoc.keys m' = Assoc.keys m
      ∧ ∀ k z w, Climbs m k z w → ∃ k', Climbs m' k' z w := by
  induction n generalizing m x fuel with
  | zero =>
      cases fuel with
      | zero => exact absurd hfuel (Nat.not_lt_zero _)
      | succ fuel =>
          cases h with
          | root hx =>
              refine ⟨m, ?_, rfl, fun k z w hzw => ⟨k, hzw⟩⟩
              rw [compress, hx, Option.bind_some, if_pos rfl]
  | succ n ih =>
      cases fuel with
      | zero => exact absurd hfuel (Nat.not_lt_zero _)
      | succ fuel =>
          have hall := h
          cases h with
          | @up _ _ p _ hp hpx hrest =>
              rw [compress, hp, Option.bind_some]
              by_cases hpr : p = root
              · rw [if_pos hpr]
                exact ⟨m, rfl, rfl, fun k z w hzw => ⟨k, hzw⟩⟩
              · rw [if_neg hpr]
                have hne : root ≠ x := by
                  rintro rfl
                  have hsame := (hall.unique (.root hrest.top)).1
                  omega
                obtain ⟨m', hm', hkeys, hkept⟩ := ih
                  (hrest.set_above (v := root) hall (Nat.lt_succ_self n))
                  (Nat.lt_of_succ_lt_succ hfuel)
                refine ⟨m', hm', hkeys.trans (keys_set_of_lookup hp), fun k z w hzw => ?_⟩
                obtain ⟨k', hk'⟩ := hzw.shortcut hall hne
                exact hkept k' z w hk'

end Climbing

/-! ## The classes the map keeps -/

open Classes

/-- The map keeps the classes of a table of roots: the same elements in the same order,
    each below the same root. -/
structure Represents (m : Parents α) (r : Roots α) : Prop where
  keys : Assoc.keys m = r.keys
  nodup : (Assoc.keys m).Nodup
  climbs : ∀ x ∈ r.keys, ∃ n, Climbs m n x (r.find x)

section Classes

variable {m : Parents α} {r : Roots α}

theorem represents_empty : Represents ([] : Parents α) Roots.empty := by
  refine ⟨rfl, List.nodup_nil, ?_⟩
  intro x hx
  cases hx

theorem Represents.name (h : Represents m r) {x : α} (hx : x ∉ Assoc.keys m) :
    Represents (Assoc.set m x x) (r.name x) := by
  have hr : x ∉ r.keys := h.keys ▸ hx
  have hkeys : Assoc.keys (Assoc.set m x x) = (r.name x).keys := by
    rw [Assoc.keys_set, if_neg hx, h.keys]
    unfold Roots.name
    rw [if_neg hr]
    unfold Roots.keys
    rw [List.map_append]
    rfl
  refine ⟨hkeys, Assoc.nodup_set x x h.nodup, ?_⟩
  intro z hz
  rw [Roots.find_name]
  rcases Roots.mem_keys_name.mp hz with hz | rfl
  · obtain ⟨n, hn⟩ := h.climbs z hz
    exact ⟨n, hn.of_new hx⟩
  · rw [Roots.find_of_not_mem hr]
    exact ⟨0, .root (Assoc.lookup_set_self m z z)⟩

/-- **Every look-up ends at the root of the class**, and changes no class. -/
theorem find_spec (h : Represents m r) (x : α) :
    ∃ m', find m x = some (r.find x, m') ∧ Represents m' (r.name x) := by
  unfold find
  by_cases hx : x ∈ Assoc.keys m
  · have hr : x ∈ r.keys := h.keys ▸ hx
    obtain ⟨n, hn⟩ := h.climbs x hr
    obtain ⟨m', hm', hkeys, hkept⟩ := compress_spec hn hn.lt_length
    have hname : r.name x = r := if_pos hr
    refine ⟨m', ?_, ?_⟩
    · rw [if_pos hx, climb_eq hn hn.lt_length, Option.bind_some, hm']
      rfl
    · rw [hname]
      refine ⟨hkeys.trans h.keys, hkeys ▸ h.nodup, fun z hz => ?_⟩
      obtain ⟨k, hk⟩ := h.climbs z hz
      exact hkept k z _ hk
  · refine ⟨_, ?_, h.name hx⟩
    rw [if_neg hx, Roots.find_of_not_mem (h.keys ▸ hx)]

/-- **Every join ends, with the two classes joined.** -/
theorem union_spec (h : Represents m r) (a b : α) :
    ∃ m', union m a b = some m' ∧ Represents m' (r.union a b) := by
  obtain ⟨ma, hma, ha⟩ := find_spec h a
  obtain ⟨mb, hmb, hb⟩ := find_spec ha b
  rw [Roots.find_name] at hmb
  have hkeys : (r.union a b).keys = ((r.name a).name b).keys := Roots.keys_redirect _ _ _ _
  have hroots : ∀ x, ((r.name a).name b).find x = r.find x := by
    intro x
    rw [Roots.find_name, Roots.find_name]
  have htop : ∀ x ∈ ((r.name a).name b).keys, mb.lookup (r.find x) = some (r.find x) := by
    intro x hx
    obtain ⟨n, hn⟩ := hb.climbs x hx
    have hfound := hn.top
    rwa [hroots] at hfound
  have ha' : a ∈ ((r.name a).name b).keys :=
    Roots.mem_keys_name.mpr (Or.inl (Roots.mem_keys_name.mpr (Or.inr rfl)))
  have hb' : b ∈ ((r.name a).name b).keys := Roots.mem_keys_name.mpr (Or.inr rfl)
  refine ⟨if r.find a ≠ r.find b then Assoc.set mb (r.find a) (r.find b) else mb, ?_, ?_⟩
  · unfold union
    rw [hma, Option.bind_some, hmb]
    rfl
  · by_cases hne : r.find a = r.find b
    · rw [if_neg (not_not.mpr hne)]
      refine ⟨hb.keys.trans hkeys.symm, hb.nodup, fun x hx => ?_⟩
      rw [hkeys] at hx
      have hsame : (r.union a b).find x = ((r.name a).name b).find x := by
        rw [Roots.find_union, hroots]
        split
        · rename_i hxa
          rw [hxa, hne]
        · rfl
      rw [hsame]
      exact hb.climbs x hx
    · rw [if_pos hne]
      refine ⟨(keys_set_of_lookup (htop a ha')).trans (hb.keys.trans hkeys.symm),
        Assoc.nodup_set _ _ hb.nodup, fun x hx => ?_⟩
      rw [hkeys] at hx
      obtain ⟨n, hn⟩ := hb.climbs x hx
      rw [hroots] at hn
      rw [Roots.find_union]
      exact hn.link (htop a ha') (htop b hb') (fun he => hne he.symm)

/-- The joins of some pairs, one after another. -/
def unions (pairs : List (α × α)) : Option (Parents α) :=
  pairs.foldlM (fun m p => union m p.1 p.2) []

/-- **Any number of joins end, with the classes of the pairs.** -/
theorem unions_spec (pairs : List (α × α)) :
    ∃ m, unions pairs = some m ∧ Represents m (Roots.unions pairs) := by
  have hfrom : ∀ (pairs : List (α × α)) (m : Parents α) (r : Roots α), Represents m r →
      ∃ m', pairs.foldlM (fun m p => union m p.1 p.2) m = some m'
        ∧ Represents m' (pairs.foldl (fun r p => r.union p.1 p.2) r) := by
    intro pairs
    induction pairs with
    | nil => exact fun m r h => ⟨m, rfl, h⟩
    | cons p pairs ih =>
        intro m r h
        obtain ⟨m₁, hm₁, h₁⟩ := union_spec h p.1 p.2
        obtain ⟨m₂, hm₂, h₂⟩ := ih m₁ _ h₁
        refine ⟨m₂, ?_, h₂⟩
        rw [List.foldlM_cons, hm₁]
        exact hm₂
  exact hfrom pairs [] Roots.empty represents_empty

end Classes

end UnionFind
