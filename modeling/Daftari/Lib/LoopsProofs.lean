import Daftari.Lib.ChainProofs
import Mathlib.Data.List.Rotate

/-! # Loops — walking until a node repeats

    A walk keeps the nodes it has seen, and stops where the chain stops or at the first node it has
    seen before.  What it has then is a whole path, or a path that ends in one round of a loop.

    * `returns_iff_onCycle`: **the loop test is exact**, and `exits_of_nodes`: it comes to an
      answer;
    * `Round`: a loop written out from one of its nodes, each node once; `Round.unique` and
      `Round.rotate`;
    * `trail`, `Ended`: **a walk with fuel for every node ends**, in a stop or in a round. -/

namespace Chain

variable {α : Type*} {next : α → Option α}

/-! ## The loop test -/

section Returns

variable [DecidableEq α] {start : α}

/-- The walk of `returns`, told apart from one that ran out of fuel. -/
def exits (next : α → Option α) (start : α) : Nat → List α → Option α → Option Bool
  | 0, _, _ => none
  | _ + 1, _, none => some false
  | n + 1, seen, some a =>
      if a ∈ seen then some false
      else if a = start then some true
      else exits next start n (a :: seen) (next a)

theorem onCycle_of_returns {fuel k : Nat} {seen : List α} {here : Option α}
    (hhere : follow next (k + 1) start = here)
    (h : returns next start fuel seen here = true) : OnCycle next start := by
  induction fuel generalizing k seen here with
  | zero => cases h
  | succ fuel ih =>
      cases here with
      | none => cases h
      | some a =>
          unfold returns at h
          by_cases hseen : a ∈ seen
          · rw [if_pos hseen] at h
            cases h
          · rw [if_neg hseen] at h
            by_cases ha : a = start
            · exact ⟨k, by rw [hhere, ha]⟩
            · rw [if_neg ha] at h
              refine ih (k := k + 1) ?_ h
              rw [follow_add, hhere, Option.bind_some, follow_one]

/-- **The loop test is exact**, with fuel for every node that has a successor. -/
theorem returns_iff_onCycle {keys : List α} (hkeys : ∀ a b, next a = some b → a ∈ keys)
    {fuel : Nat} (hfuel : keys.length < fuel) :
    returns next start fuel [] (next start) = true ↔ OnCycle next start := by
  constructor
  · intro h
    exact onCycle_of_returns (k := 0) (follow_one start) h
  · intro h
    exact returns_of_onCycle hkeys hfuel h

theorem exits_of_seen {nodes : List α} (hnodes : ∀ a b, next a = some b → b ∈ nodes) :
    ∀ (fuel : Nat) (seen : List α) (here : Option α), seen.Nodup → seen ⊆ nodes →
      (∀ a, here = some a → a ∈ nodes) → nodes.length < fuel + seen.length →
      exits next start fuel seen here = some (returns next start fuel seen here) := by
  intro fuel
  induction fuel with
  | zero =>
      intro seen here hnd hsub _ hfuel
      have hle := (List.subperm_of_subset hnd hsub).length_le
      omega
  | succ fuel ih =>
      intro seen here hnd hsub hhere hfuel
      cases here with
      | none => rfl
      | some a =>
          unfold exits returns
          by_cases hseen : a ∈ seen
          · rw [if_pos hseen, if_pos hseen]
          · rw [if_neg hseen, if_neg hseen]
            by_cases ha : a = start
            · rw [if_pos ha, if_pos ha]
            · rw [if_neg ha, if_neg ha]
              refine ih _ _ (List.nodup_cons.mpr ⟨hseen, hnd⟩) ?_ (fun b hb => hnodes a b hb) ?_
              · exact List.cons_subset.mpr ⟨hhere a rfl, hsub⟩
              · rw [List.length_cons]
                omega

/-- **The loop test ends**, with fuel for every node that has a predecessor. -/
theorem exits_of_nodes {nodes : List α} (hnodes : ∀ a b, next a = some b → b ∈ nodes)
    {fuel : Nat} (hfuel : nodes.length < fuel) : exits next start fuel [] (next start) =
      some (returns next start fuel [] (next start)) := by
  refine exits_of_seen hnodes fuel [] _ List.nodup_nil (List.nil_subset _) ?_ ?_
  · intro a ha
    exact hnodes start a ha
  · rw [List.length_nil]
    omega

end Returns

/-! ## Rounds -/

/-- A loop written out from a node of it: every node once, in the order of the chain. -/
structure Round (next : α → Option α) (a : α) (l : List α) : Prop where
  nonempty : l ≠ []
  nodup : l.Nodup
  get : ∀ i < l.length, l[i]? = follow next i a
  back : follow next l.length a = some a

section Rounds

variable {a b : α} {l l' : List α}

theorem Round.pos (h : Round next a l) : 0 < l.length := List.length_pos_iff.mpr h.nonempty

theorem Round.onCycle (h : Round next a l) : OnCycle next a := by
  refine ⟨l.length - 1, ?_⟩
  rw [Nat.sub_add_cancel h.pos]
  exact h.back

theorem Round.mem_iff (h : Round next a l) : b ∈ l ↔ Reaches next a b := by
  rw [reaches_iff_lt h.back h.pos, List.mem_iff_getElem?]
  constructor
  · rintro ⟨i, hi⟩
    have hlt : i < l.length := (List.getElem?_eq_some_iff.mp hi).1
    exact ⟨i, hlt, by rw [← h.get i hlt, hi]⟩
  · rintro ⟨i, hlt, hi⟩
    exact ⟨i, by rw [h.get i hlt, hi]⟩

theorem Round.length_le (h : Round next a l) (h' : Round next a l') : l.length ≤ l'.length := by
  by_contra hlt
  have hpos := h'.pos
  have hstart : l[0]? = some a := h.get 0 (by omega)
  have hagain : l[l'.length]? = some a := by
    rw [h.get _ (by omega)]
    exact h'.back
  have hsame := (List.getElem?_inj h.pos h.nodup).mp (hstart.trans hagain.symm)
  omega

/-- **A loop is written out from a node in one way.** -/
theorem Round.unique (h : Round next a l) (h' : Round next a l') : l = l' := by
  have hlen : l.length = l'.length := Nat.le_antisymm (h.length_le h') (h'.length_le h)
  refine List.ext_getElem? fun i => ?_
  by_cases hi : i < l.length
  · rw [h.get i hi, h'.get i (hlen ▸ hi)]
  · rw [List.getElem?_eq_none (by omega), List.getElem?_eq_none (by omega)]

theorem Round.follow_mod (h : Round next a l) (n : Nat) :
    follow next n a = follow next (n % l.length) a := by
  induction n using Nat.strong_induction_on with
  | _ n ih =>
      by_cases hn : n < l.length
      · rw [Nat.mod_eq_of_lt hn]
      · have hpos := h.pos
        have hsplit : n = l.length + (n - l.length) := by omega
        rw [hsplit, follow_add, h.back, Option.bind_some, Nat.add_mod_left]
        exact ih _ (by omega)

/-- **The same loop from another of its nodes.** -/
theorem Round.rotate (h : Round next a l) {j : Nat} (hj : j < l.length)
    (hb : l[j]? = some b) : Round next b (l.rotate j) := by
  have hab : follow next j a = some b := by
    rw [← h.get j hj, hb]
  have hfrom : ∀ i, follow next i b = follow next (i + j) a := by
    intro i
    rw [Nat.add_comm, follow_add, hab, Option.bind_some]
  refine ⟨?_, List.nodup_rotate.mpr h.nodup, ?_, ?_⟩
  · intro hnil
    exact h.nonempty (List.rotate_eq_nil_iff.mp hnil)
  · intro i hi
    rw [List.length_rotate] at hi
    rw [List.getElem?_rotate hi, h.get _ (Nat.mod_lt _ h.pos), ← h.follow_mod, hfrom]
  · rw [List.length_rotate, hfrom, follow_add, h.back, Option.bind_some, hab]

end Rounds

/-! ## Walking to the first repetition -/

section Trails

variable [DecidableEq α] {start : α} {walk : List α} {here : Option α}

/-- The walk: what it has seen, in order, and the node it stopped before. -/
def trail (next : α → Option α) : Nat → List α → Option α → List α × Option α
  | 0, walk, here => (walk, here)
  | _ + 1, walk, none => (walk, none)
  | n + 1, walk, some a =>
      if a ∈ walk then (walk, some a) else trail next n (walk ++ [a]) (next a)

/-- What a walk has seen is its chain so far, without repetition. -/
structure IsTrail (next : α → Option α) (start : α) (walk : List α) (here : Option α) :
    Prop where
  nodup : walk.Nodup
  get : ∀ i < walk.length, walk[i]? = follow next i start
  here : follow next walk.length start = here

omit [DecidableEq α] in
theorem isTrail_nil (start : α) : IsTrail next start [] (some start) where
  nodup := List.nodup_nil
  get i hi := absurd hi (Nat.not_lt_zero i)
  here := rfl

omit [DecidableEq α] in
theorem IsTrail.step {a : α} (h : IsTrail next start walk (some a)) (ha : a ∉ walk) :
    IsTrail next start (walk ++ [a]) (next a) := by
  refine ⟨?_, ?_, ?_⟩
  · refine List.nodup_append.mpr ⟨h.nodup, List.nodup_singleton a, ?_⟩
    intro x hx y hy
    rw [List.mem_singleton] at hy
    rintro rfl
    exact ha (hy ▸ hx)
  · intro i hi
    rw [List.length_append, List.length_singleton] at hi
    by_cases hlt : i < walk.length
    · rw [List.getElem?_append_left hlt, h.get i hlt]
    · obtain rfl : i = walk.length := by omega
      rw [List.getElem?_append_right (Nat.le_refl _), Nat.sub_self, h.here]
      rfl
  · rw [List.length_append, List.length_singleton, follow_add, h.here, Option.bind_some, follow_one]

/-- The walk is over: the chain stopped, or it repeats itself. -/
def Ended (walk : List α) (here : Option α) : Prop :=
  here = none ∨ ∃ a ∈ walk, here = some a

theorem trail_of_isTrail {nodes : List α} (hnodes : ∀ a b, next a = some b → b ∈ nodes) :
    ∀ (fuel : Nat) (walk : List α) (here : Option α), IsTrail next start walk here →
      walk ⊆ nodes → (∀ a, here = some a → a ∈ nodes) → nodes.length < fuel + walk.length →
      IsTrail next start (trail next fuel walk here).1 (trail next fuel walk here).2 ∧
        Ended (trail next fuel walk here).1 (trail next fuel walk here).2 := by
  intro fuel
  induction fuel with
  | zero =>
      intro walk here h hsub _ hfuel
      have hle := (List.subperm_of_subset h.nodup hsub).length_le
      omega
  | succ fuel ih =>
      intro walk here h hsub hhere hfuel
      cases here with
      | none => exact ⟨h, Or.inl rfl⟩
      | some a =>
          unfold trail
          by_cases ha : a ∈ walk
          · rw [if_pos ha]
            exact ⟨h, Or.inr ⟨a, ha, rfl⟩⟩
          · rw [if_neg ha]
            refine ih _ _ (h.step ha) ?_ (fun b hb => hnodes a b hb) ?_
            · refine List.append_subset.mpr ⟨hsub, ?_⟩
              exact List.cons_subset.mpr ⟨hhere a rfl, List.nil_subset _⟩
            · rw [List.length_append, List.length_singleton]
              omega

/-- **A walk with fuel for every node ends.** -/
theorem trail_ended {nodes : List α} (hnodes : ∀ a b, next a = some b → b ∈ nodes)
    (hstart : start ∈ nodes) {fuel : Nat} (hfuel : nodes.length < fuel) :
    IsTrail next start (trail next fuel [] (some start)).1 (trail next fuel [] (some start)).2 ∧
      Ended (trail next fuel [] (some start)).1 (trail next fuel [] (some start)).2 := by
  refine trail_of_isTrail hnodes fuel [] _ (isTrail_nil start) (List.nil_subset _) ?_ ?_
  · intro a ha
    obtain rfl := Option.some.inj ha
    exact hstart
  · rw [List.length_nil]
    omega

omit [DecidableEq α] in
theorem IsTrail.stops (h : IsTrail next start walk none) :
    ∃ e n, walk.getLast? = some e ∧ Stops next start e n ∧ n + 1 = walk.length := by
  have hpos : walk.length ≠ 0 := by
    intro hzero
    have hhere := h.here
    rw [hzero] at hhere
    cases hhere
  obtain ⟨n, hn⟩ := Nat.exists_eq_succ_of_ne_zero hpos
  have hlast : walk.getLast? = follow next n start := by
    rw [List.getLast?_eq_getElem?, hn]
    exact h.get n (by omega)
  cases hfollow : follow next n start with
  | none =>
      rw [hfollow, List.getLast?_eq_none_iff] at hlast
      rw [hlast] at hpos
      exact absurd rfl hpos
  | some e =>
      refine ⟨e, n, hlast.trans hfollow, ⟨hfollow, ?_⟩, hn.symm⟩
      have hhere := h.here
      rw [hn, Nat.succ_eq_add_one, follow_add, hfollow, Option.bind_some, follow_one] at hhere
      exact hhere

/-- **A walk that repeats itself ends in a round.** -/
theorem IsTrail.round {a : α} (h : IsTrail next start walk (some a)) (ha : a ∈ walk) :
    Round next a (walk.drop (walk.idxOf a)) ∧ Reaches next start a := by
  have hlt : walk.idxOf a < walk.length := List.idxOf_lt_length_iff.mpr ha
  have hidx : walk[walk.idxOf a]? = some a := by
    rw [List.getElem?_eq_getElem hlt, List.getElem_idxOf]
  have hfollow : follow next (walk.idxOf a) start = some a := by
    rw [← h.get _ hlt, hidx]
  have hfrom : ∀ i, follow next i a = follow next (walk.idxOf a + i) start := by
    intro i
    rw [follow_add, hfollow, Option.bind_some]
  refine ⟨⟨?_, ?_, ?_, ?_⟩, ⟨_, hfollow⟩⟩
  · intro hnil
    have hle := List.drop_eq_nil_iff.mp hnil
    omega
  · exact h.nodup.sublist (List.drop_sublist _ _)
  · intro i hi
    rw [List.length_drop] at hi
    rw [List.getElem?_drop, h.get _ (by omega), hfrom]
  · rw [List.length_drop, hfrom, show walk.idxOf a + (walk.length - walk.idxOf a)
      = walk.length by omega]
    exact h.here

end Trails

end Chain
