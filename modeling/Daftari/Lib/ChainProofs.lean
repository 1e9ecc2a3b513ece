import Mathlib.Data.List.Nodup
import Mathlib.Data.List.Range
import Mathlib.Data.Fintype.Card
import Mathlib.Tactic.Common

/-! # Chains — following a partial function, and its loops

    A chain is what one gets by following a partial function from a start.  A loop test walks the
    chain with the set of the nodes it has seen; it is given enough fuel for every node that has a
    successor.

    * `follow`, `OnCycle`, `Acyclic`: the chain and its loops;
    * `onCycle_or`: **a function that was changed at some nodes loops where it looped before, or
      through a changed node**;
    * `Reaches`, `Stops`: a chain either stops or runs into one loop, and which of the two and where
      is determined by its start (`Stops.unique`, `reaches_onCycle`);
    * `returns_of_onCycle`: **the walk finds the loop its start is on.** -/

namespace Chain

variable {α : Type*}

/-- The node after `n` steps. -/
def follow (next : α → Option α) : Nat → α → Option α
  | 0, a => some a
  | n + 1, a => (next a).bind (follow next n)

def OnCycle (next : α → Option α) (a : α) : Prop := ∃ n, follow next (n + 1) a = some a

def Acyclic (next : α → Option α) : Prop := ∀ a, ¬ OnCycle next a

section Follow

variable {next next' : α → Option α}

theorem follow_add (m n : Nat) (a : α) :
    follow next (m + n) a = (follow next m a).bind (follow next n) := by
  induction m generalizing a with
  | zero => rw [Nat.zero_add]; rfl
  | succ m ih =>
      rw [Nat.succ_add]
      show (next a).bind (follow next (m + n)) = ((next a).bind (follow next m)).bind _
      rw [Option.bind_assoc]
      refine Option.bind_congr ?_
      intro b _
      exact ih b

theorem follow_one (a : α) : follow next 1 a = next a := by
  show (next a).bind some = next a
  cases next a <;> rfl

theorem acyclic_of_none (h : ∀ a, next a = none) : Acyclic next := by
  rintro a ⟨n, hn⟩
  unfold follow at hn
  rw [h] at hn
  cases hn

theorem OnCycle.of_follow {a b : α} {k : Nat} (h : OnCycle next a)
    (hk : follow next k a = some b) : OnCycle next b := by
  obtain ⟨n, hn⟩ := h
  refine ⟨n, ?_⟩
  have hrotate : follow next (k + (n + 1)) a = follow next ((n + 1) + k) a := by
    rw [Nat.add_comm]
  rw [follow_add, follow_add, hk, hn, Option.bind_some, Option.bind_some] at hrotate
  rw [hrotate, hk]

theorem OnCycle.mono (hsub : ∀ a b, next a = some b → next' a = some b) {a : α}
    (h : OnCycle next a) : OnCycle next' a := by
  have hfollow : ∀ (n : Nat) (a b : α), follow next n a = some b →
      follow next' n a = some b := by
    intro n
    induction n with
    | zero =>
        intro a b hab
        exact hab
    | succ n ih =>
        intro a b hab
        obtain ⟨c, hc, hcb⟩ := Option.bind_eq_some_iff.mp hab
        exact Option.bind_eq_some_iff.mpr ⟨c, hsub a c hc, ih c b hcb⟩
  obtain ⟨n, hn⟩ := h
  exact ⟨n, hfollow _ _ _ hn⟩

/-- **A loop of a function that was changed at some nodes** is an old loop, or
    goes through a changed node. -/
theorem onCycle_or (changed : α → Prop)
    (hsame : ∀ a b, ¬ changed a → next' a = some b → next a = some b) {a : α}
    (h : OnCycle next' a) : OnCycle next a ∨ ∃ s, changed s ∧ OnCycle next' s := by
  by_cases hc : ∃ k s, follow next' k a = some s ∧ changed s
  · obtain ⟨k, s, hs, hchanged⟩ := hc
    exact Or.inr ⟨s, hchanged, h.of_follow hs⟩
  · left
    -- no node of the chain was changed, so it is followed as before
    have hfollow : ∀ (n : Nat) (b : α), follow next' n a = some b →
        follow next n a = some b := by
      intro n
      induction n with
      | zero =>
          intro b hb
          exact hb
      | succ n ih =>
          intro b hb
          rw [follow_add] at hb ⊢
          obtain ⟨c, hac, hcb⟩ := Option.bind_eq_some_iff.mp hb
          rw [follow_one] at hcb
          refine Option.bind_eq_some_iff.mpr ⟨c, ih c hac, ?_⟩
          rw [follow_one]
          exact hsame c b (fun hchanged => hc ⟨n, c, hac, hchanged⟩) hcb
    obtain ⟨n, hn⟩ := h
    exact ⟨n, hfollow _ _ hn⟩

end Follow

/-! ## Where a chain leads -/

section Leads

variable {next : α → Option α}

/-- The chain from `a` comes to `b`. -/
def Reaches (next : α → Option α) (a b : α) : Prop := ∃ n, follow next n a = some b

/-- The chain from `a` stops at `e`, after `n` steps. -/
def Stops (next : α → Option α) (a e : α) (n : Nat) : Prop :=
  follow next n a = some e ∧ next e = none

theorem Reaches.refl (a : α) : Reaches next a a := ⟨0, rfl⟩

variable {a b : α}

theorem Reaches.trans {c : α} (hab : Reaches next a b) (hbc : Reaches next b c) :
    Reaches next a c := by
  obtain ⟨m, hm⟩ := hab
  obtain ⟨n, hn⟩ := hbc
  exact ⟨m + n, by rw [follow_add, hm, Option.bind_some, hn]⟩

theorem reaches_or {c : α} (hb : Reaches next a b) (hc : Reaches next a c) :
    Reaches next b c ∨ Reaches next c b := by
  obtain ⟨m, hm⟩ := hb
  obtain ⟨n, hn⟩ := hc
  rcases Nat.le_total m n with h | h
  · obtain ⟨k, rfl⟩ := Nat.exists_eq_add_of_le h
    left
    refine ⟨k, ?_⟩
    rw [follow_add, hm, Option.bind_some] at hn
    exact hn
  · obtain ⟨k, rfl⟩ := Nat.exists_eq_add_of_le h
    right
    refine ⟨k, ?_⟩
    rw [follow_add, hn, Option.bind_some] at hm
    exact hm

theorem eq_of_reaches_of_none (ha : next a = none) (h : Reaches next a b) : b = a := by
  obtain ⟨n, hn⟩ := h
  cases n with
  | zero => exact (Option.some.inj hn).symm
  | succ n =>
      have hstep : (next a).bind (follow next n) = some b := hn
      rw [ha] at hstep
      cases hstep

theorem OnCycle.reaches_back (ha : OnCycle next a) (hab : Reaches next a b) : Reaches next b a := by
  obtain ⟨p, hp⟩ := ha
  -- go round often enough to be past `b`
  have hround : ∀ m, follow next (m * (p + 1)) a = some a := by
    intro m
    induction m with
    | zero => rw [Nat.zero_mul]; rfl
    | succ m ih => rw [Nat.succ_mul, follow_add, ih, Option.bind_some, hp]
  obtain ⟨k, hk⟩ := hab
  refine ⟨k * (p + 1) - k, ?_⟩
  have hle : k ≤ k * (p + 1) := Nat.le_mul_of_pos_right k (Nat.succ_pos p)
  have hall := hround k
  rw [show k * (p + 1) = k + (k * (p + 1) - k) by omega, follow_add, hk,
    Option.bind_some] at hall
  exact hall

/-- **A chain runs into one loop only**: every node of it leads there. -/
theorem reaches_onCycle {c : α} (hb : Reaches next a b) (hc : Reaches next a c)
    (hcyc : OnCycle next c) : Reaches next b c := by
  rcases reaches_or hb hc with h | h
  · exact h
  · exact hcyc.reaches_back h

theorem Stops.not_onCycle {e : α} {n : Nat} (h : Stops next a e n) (hb : Reaches next a b) :
    ¬ OnCycle next b := by
  intro hcyc
  have hbe : Reaches next b e := by
    rcases reaches_or hb ⟨n, h.1⟩ with hbe | heb
    · exact hbe
    · rw [eq_of_reaches_of_none h.2 heb]
      exact Reaches.refl e
  obtain ⟨k, hk⟩ := hbe
  obtain ⟨m, hm⟩ := hcyc.of_follow hk
  have hstep : (next e).bind (follow next m) = some e := hm
  rw [h.2] at hstep
  cases hstep

/-- **Where a chain stops is determined**, and after how many steps. -/
theorem Stops.unique {e e' : α} {n n' : Nat} (h : Stops next a e n) (h' : Stops next a e' n') :
    e = e' ∧ n = n' := by
  have hle : ∀ {e e' : α} {n n' : Nat}, Stops next a e n → Stops next a e' n' → n ≤ n' →
      e = e' ∧ n = n' := by
    intro e e' n n' h h' hnn
    obtain ⟨k, rfl⟩ := Nat.exists_eq_add_of_le hnn
    have hk := h'.1
    rw [follow_add, h.1, Option.bind_some] at hk
    cases k with
    | zero => exact ⟨Option.some.inj hk, rfl⟩
    | succ k =>
        have hstep : (next e).bind (follow next k) = some e' := hk
        rw [h.2] at hstep
        cases hstep
  rcases Nat.le_total n n' with hnn | hnn
  · exact hle h h' hnn
  · obtain ⟨he, hn⟩ := hle h' h hnn
    exact ⟨he.symm, hn.symm⟩

theorem reaches_iff_lt {p : Nat} (ha : follow next p a = some a) (hp : 0 < p) :
    Reaches next a b ↔ ∃ i < p, follow next i a = some b := by
  constructor
  · rintro ⟨n, hn⟩
    induction n using Nat.strong_induction_on with
    | _ n ih =>
        by_cases hlt : n < p
        · exact ⟨n, hlt, hn⟩
        · refine ih (n - p) (by omega) ?_
          rw [show n = p + (n - p) by omega, follow_add, ha, Option.bind_some] at hn
          exact hn
  · rintro ⟨i, _, hi⟩
    exact ⟨i, hi⟩

end Leads

/-! ## Walking with a set of seen nodes -/

section Walk

variable [DecidableEq α] (next : α → Option α) (start : α)

/-- Does the chain from here come back to the start before it repeats itself? -/
def returns : Nat → List α → Option α → Bool
  | 0, _, _ => false
  | _ + 1, _, none => false
  | n + 1, seen, some a =>
      if a ∈ seen then false
      else if a = start then true
      else returns n (a :: seen) (next a)

variable {next start}

theorem returns_of_path {x : Nat → α} {k : Nat} (hstep : ∀ i ≤ k, next (x i) = some (x (i + 1)))
    (hend : x (k + 1) = start) (hdistinct : ∀ i j, 1 ≤ i → i < j → j ≤ k → x i ≠ x j)
    (hfirst : ∀ i, 1 ≤ i → i ≤ k → x i ≠ start) :
    ∀ (d i fuel : Nat) (seen : List α), i + d = k + 1 → 1 ≤ i → d < fuel →
      (∀ a ∈ seen, ∃ j, 1 ≤ j ∧ j < i ∧ x j = a) →
      returns next start fuel seen (some (x i)) = true := by
  intro d
  induction d with
  | zero =>
      intro i fuel seen hi _ hfuel hseen
      obtain ⟨fuel, rfl⟩ := Nat.exists_eq_add_of_lt hfuel
      have hlast : x i = start := by
        rw [show i = k + 1 by omega, hend]
      have hnot : x i ∉ seen := by
        intro hmem
        obtain ⟨j, hj1, hji, hj⟩ := hseen _ hmem
        exact hfirst j hj1 (by omega) (hj.trans hlast)
      unfold returns
      rw [if_neg hnot, if_pos hlast]
  | succ d ih =>
      intro i fuel seen hi hi1 hfuel hseen
      obtain ⟨fuel, rfl⟩ := Nat.exists_eq_add_of_lt hfuel
      have hnot : x i ∉ seen := by
        intro hmem
        obtain ⟨j, hj1, hji, hj⟩ := hseen _ hmem
        exact hdistinct j i hj1 hji (by omega) hj
      unfold returns
      rw [if_neg hnot, if_neg (hfirst i hi1 (by omega)), hstep i (by omega)]
      refine ih (i + 1) _ _ (by omega) (by omega) (by omega) ?_
      intro a ha
      rcases List.mem_cons.mp ha with rfl | ha
      · exact ⟨i, hi1, by omega, rfl⟩
      · obtain ⟨j, hj1, hji, hj⟩ := hseen a ha
        exact ⟨j, hj1, by omega, hj⟩

open Classical in
/-- **The walk finds the loop its start is on**, with fuel for every node that has a successor. -/
theorem returns_of_onCycle {keys : List α} (hkeys : ∀ a b, next a = some b → a ∈ keys)
    {fuel : Nat} (hfuel : keys.length < fuel) (h : OnCycle next start) :
    returns next start fuel [] (next start) = true := by
  -- the first return
  obtain ⟨k, hk, hmin⟩ : ∃ k, follow next (k + 1) start = some start
      ∧ ∀ m < k, follow next (m + 1) start ≠ some start :=
    ⟨Nat.find h, Nat.find_spec h, fun m hm => Nat.find_min h hm⟩
  -- the nodes on the way
  have hall : ∀ i ≤ k + 1, ∃ b, follow next i start = some b := by
    intro i hi
    obtain ⟨j, hj⟩ := Nat.exists_eq_add_of_le hi
    rw [hj, follow_add] at hk
    obtain ⟨b, hb, _⟩ := Option.bind_eq_some_iff.mp hk
    exact ⟨b, hb⟩
  let x : Nat → α := fun i => (follow next i start).getD start
  have hx : ∀ i ≤ k + 1, follow next i start = some (x i) := by
    intro i hi
    obtain ⟨b, hb⟩ := hall i hi
    show follow next i start = some ((follow next i start).getD start)
    rw [hb]
    rfl
  have hx0 : x 0 = start := rfl
  have hend : x (k + 1) = start := Option.some.inj ((hx _ (Nat.le_refl _)).symm.trans hk)
  have hstep : ∀ i ≤ k, next (x i) = some (x (i + 1)) := by
    intro i hi
    have hs := hx (i + 1) (by omega)
    rw [follow_add, hx i (by omega), Option.bind_some, follow_one] at hs
    exact hs
  -- a repetition would be an earlier return
  have hdistinct : ∀ i j, i < j → j ≤ k → x i ≠ x j := by
    intro i j hij hj he
    have hrest : follow next (k + 1 - j) (x j) = some start := by
      have hsplit := hk
      rw [show k + 1 = j + (k + 1 - j) by omega, follow_add, hx j (by omega),
        Option.bind_some] at hsplit
      exact hsplit
    refine hmin (i + (k - j)) (by omega) ?_
    rw [show i + (k - j) + 1 = i + (k + 1 - j) by omega, follow_add, hx i (by omega),
      Option.bind_some, he]
    exact hrest
  have hlen : k + 1 ≤ keys.length := by
    have hnodup : ((List.range (k + 1)).map x).Nodup := by
      refine List.Nodup.map_on ?_ List.nodup_range
      intro i hi j hj he
      rw [List.mem_range] at hi hj
      rcases Nat.lt_trichotomy i j with hij | rfl | hji
      · exact absurd he (hdistinct i j hij (by omega))
      · rfl
      · exact absurd he.symm (hdistinct j i hji (by omega))
    have hsub : ((List.range (k + 1)).map x) ⊆ keys := by
      intro a ha
      obtain ⟨i, hi, rfl⟩ := List.mem_map.mp ha
      exact hkeys _ _ (hstep i (by rw [List.mem_range] at hi; omega))
    have hle := (List.subperm_of_subset hnodup hsub).length_le
    rwa [List.length_map, List.length_range] at hle
  have hone : next start = some (x 1) := hstep 0 (by omega)
  rw [hone]
  refine returns_of_path hstep hend (fun i j _ hij hj => hdistinct i j hij hj) ?_
    k 1 _ [] (by omega) (by omega) (by omega) ?_
  · intro i hi1 hik he
    exact hdistinct 0 i (by omega) hik (hx0.trans he.symm)
  · intro a ha
    cases ha

end Walk

end Chain
