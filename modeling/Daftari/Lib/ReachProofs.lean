import Mathlib.Data.List.Basic
import Mathlib.Data.Nat.Find
import Mathlib.Logic.Relation

/-! # Search by layers — what a breadth-first walk finds

    A walk over a graph given by its successor lists goes layer by layer: the next layer is what the
    successors of the last one add to the nodes seen. It stops at the first empty layer, or when its
    fuel is used up.

    * `mem_layers`: whatever the walk lists was reached, and was not there from the start;
    * `closed_layers`: with as much fuel as there are nodes left to see, the nodes seen are closed
      under successors;
    * `mem_layers_iff`: **then the walk lists exactly what is reached from the seeds and is no
      seed**;
    * `AtDist`, `mem_layer_iff`: **a layer holds the nodes of its distance**, the least number of
      steps from any seed. -/

namespace Layered

variable {α : Type*} [DecidableEq α] (next : α → List α)

/-- The elements not seen yet, each once, in order. -/
def fresh (seen : List α) : List α → List α
  | [] => []
  | x :: xs => if x ∈ seen then fresh seen xs else x :: fresh (x :: seen) xs

/-- The layers of a walk that has seen `seen` and stands at `frontier`. -/
@[grind =] def layers : Nat → List α → List α → List (List α)
  | 0, _, _ => []
  | fuel + 1, seen, frontier =>
      let new := fresh seen (frontier.flatMap next)
      if new = [] then [] else new :: layers fuel (seen ++ new) new

abbrev Leads : α → α → Prop := Relation.ReflTransGen fun a b => b ∈ next a

/-! ## New elements -/

variable {seen : List α}

theorem mem_fresh {xs : List α} {x : α} : x ∈ fresh seen xs ↔ x ∈ xs ∧ x ∉ seen := by
  induction xs generalizing seen with
  | nil => simp [fresh]
  | cons y xs ih =>
      rw [fresh]
      by_cases hy : y ∈ seen
      · rw [if_pos hy, ih, List.mem_cons]
        constructor
        · rintro ⟨hx, hseen⟩
          exact ⟨Or.inr hx, hseen⟩
        · rintro ⟨rfl | hx, hseen⟩
          · exact absurd hy hseen
          · exact ⟨hx, hseen⟩
      · rw [if_neg hy, List.mem_cons, ih, List.mem_cons, List.mem_cons]
        constructor
        · rintro (rfl | ⟨hx, hseen⟩)
          · exact ⟨Or.inl rfl, hy⟩
          · exact ⟨Or.inr hx, fun h => hseen (Or.inr h)⟩
        · rintro ⟨rfl | hx, hseen⟩
          · exact Or.inl rfl
          · by_cases hxy : x = y
            · exact Or.inl hxy
            · exact Or.inr ⟨hx, fun h => h.elim hxy hseen⟩

theorem fresh_congr {seen' xs : List α} (h : ∀ x, x ∈ seen ↔ x ∈ seen') :
    fresh seen xs = fresh seen' xs := by
  induction xs generalizing seen seen' with
  | nil => rfl
  | cons y xs ih =>
      have hcons : ∀ x, x ∈ y :: seen ↔ x ∈ y :: seen' := by
        intro x
        rw [List.mem_cons, List.mem_cons, h x]
      rw [fresh, fresh, ih h, ih hcons]
      simp only [h y]

theorem nodup_fresh (seen xs : List α) : (fresh seen xs).Nodup := by
  induction xs generalizing seen with
  | nil => exact List.nodup_nil
  | cons y xs ih =>
      rw [fresh]
      by_cases hy : y ∈ seen
      · rw [if_pos hy]
        exact ih seen
      · rw [if_neg hy, List.nodup_cons]
        exact ⟨fun h => (mem_fresh.mp h).2 List.mem_cons_self, ih _⟩

/-! ## What the layers hold -/

variable {next}

variable {frontier : List α} {fuel : Nat}

/-- **Whatever is listed was reached**, by one step or more, and is new. -/
theorem mem_layers {x : α} (h : x ∈ (layers next fuel seen frontier).flatten) :
    x ∉ seen ∧ ∃ s ∈ frontier, Leads next s x := by
  induction fuel generalizing seen frontier with
  | zero => simp [layers] at h
  | succ fuel ih =>
      rw [layers] at h
      by_cases hnew : fresh seen (frontier.flatMap next) = []
      · simp [hnew] at h
      · simp only [hnew, if_false, List.flatten_cons, List.mem_append] at h
        have hstep : ∀ y ∈ fresh seen (frontier.flatMap next),
            ∃ s ∈ frontier, y ∈ next s := by
          intro y hy
          exact List.mem_flatMap.mp (mem_fresh.mp hy).1
        rcases h with h | h
        · obtain ⟨s, hs, hsx⟩ := hstep x h
          exact ⟨(mem_fresh.mp h).2, s, hs, Relation.ReflTransGen.single hsx⟩
        · obtain ⟨hseen, y, hy, hyx⟩ := ih h
          obtain ⟨s, hs, hsy⟩ := hstep y hy
          exact ⟨fun hx => hseen (List.mem_append_left _ hx), s, hs,
            Relation.ReflTransGen.head hsy hyx⟩

theorem nodup_layers (fuel : Nat) (seen frontier : List α) :
    (layers next fuel seen frontier).flatten.Nodup := by
  induction fuel generalizing seen frontier with
  | zero => exact List.nodup_nil
  | succ fuel ih =>
      rw [layers]
      by_cases hnew : fresh seen (frontier.flatMap next) = []
      · simp [hnew]
      · simp only [hnew, if_false, List.flatten_cons, List.nodup_append]
        refine ⟨nodup_fresh _ _, ih _ _, ?_⟩
        rintro x hx y hy rfl
        exact (mem_layers hy).1 (List.mem_append_right _ hx)

variable {nodes : List α}

theorem length_left_lt {new : List α} {x : α} (hx : x ∈ nodes) (hseen : x ∉ seen) (hnew : x ∈ new) :
    (nodes.filter (· ∉ seen ++ new)).length < (nodes.filter (· ∉ seen)).length := by
  have heq : nodes.filter (· ∉ seen ++ new) = (nodes.filter (· ∉ seen)).filter (· ∉ new) := by
    rw [List.filter_filter]
    simp only [List.mem_append, not_or, Bool.decide_and, Bool.and_comm]
  rw [heq]
  refine List.length_filter_lt_length_iff_exists.mpr ⟨x, ?_, ?_⟩
  · exact List.mem_filter.mpr ⟨hx, decide_eq_true hseen⟩
  · simp [hnew]

/-- With enough fuel, what has been seen at the end is closed under successors. Before the frontier
    everything is closed already, and each layer makes the number of nodes left smaller. -/
theorem closed_layers (hnodes : ∀ a, ∀ b ∈ next a, b ∈ nodes)
    (hfuel : (nodes.filter (· ∉ seen)).length ≤ fuel)
    (hclosed : ∀ a ∈ seen, a ∉ frontier → ∀ b ∈ next a, b ∈ seen) :
    ∀ a ∈ seen ++ (layers next fuel seen frontier).flatten,
      ∀ b ∈ next a, b ∈ seen ++ (layers next fuel seen frontier).flatten := by
  induction fuel generalizing seen frontier with
  | zero =>
      intro a _ b hb
      have hnil : nodes.filter (· ∉ seen) = [] :=
        List.eq_nil_of_length_eq_zero (Nat.le_zero.mp hfuel)
      have hin : b ∈ seen := by
        by_contra hout
        have hleft : b ∈ nodes.filter (· ∉ seen) :=
          List.mem_filter.mpr ⟨hnodes a b hb, decide_eq_true hout⟩
        rw [hnil] at hleft
        exact List.not_mem_nil hleft
      exact List.mem_append_left _ hin
  | succ fuel ih =>
      rw [layers]
      by_cases hnew : fresh seen (frontier.flatMap next) = []
      · simp only [hnew, if_true, List.flatten_nil, List.append_nil]
        intro a ha b hb
        by_cases hfront : a ∈ frontier
        · by_contra hout
          have hmem : b ∈ fresh seen (frontier.flatMap next) :=
            mem_fresh.mpr ⟨List.mem_flatMap.mpr ⟨a, hfront, hb⟩, hout⟩
          rw [hnew] at hmem
          exact List.not_mem_nil hmem
        · exact hclosed a ha hfront b hb
      · simp only [hnew, if_false, List.flatten_cons, ← List.append_assoc]
        obtain ⟨x, hx⟩ := List.exists_mem_of_ne_nil _ hnew
        obtain ⟨hxin, hxout⟩ := mem_fresh.mp hx
        obtain ⟨s, -, hsx⟩ := List.mem_flatMap.mp hxin
        have hlt := length_left_lt (hnodes s x hsx) hxout hx
        refine ih (by omega) ?_
        intro a ha hanew b hb
        have haseen : a ∈ seen := (List.mem_append.mp ha).resolve_right hanew
        by_cases hfront : a ∈ frontier
        · by_cases hbseen : b ∈ seen
          · exact List.mem_append_left _ hbseen
          · exact List.mem_append_right _
              (mem_fresh.mpr ⟨List.mem_flatMap.mpr ⟨a, hfront, hb⟩, hbseen⟩)
        · exact List.mem_append_left _ (hclosed a haseen hfront b hb)

/-- **The walk from the seeds lists what is reached from them, seeds left out.** -/
theorem mem_layers_iff {seeds : List α} (hnodes : ∀ a, ∀ b ∈ next a, b ∈ nodes)
    (hfuel : nodes.length ≤ fuel) {x : α} :
    x ∈ (layers next fuel seeds seeds).flatten ↔ x ∉ seeds ∧ ∃ s ∈ seeds, Leads next s x := by
  constructor
  · exact mem_layers
  · rintro ⟨hseed, s, hs, hsx⟩
    have hclosed : ∀ a ∈ seeds ++ (layers next fuel seeds seeds).flatten,
        ∀ b ∈ next a, b ∈ seeds ++ (layers next fuel seeds seeds).flatten :=
      closed_layers hnodes (Nat.le_trans (List.length_filter_le _ _) hfuel)
        fun a ha hout => absurd ha hout
    have hall : x ∈ seeds ++ (layers next fuel seeds seeds).flatten := by
      induction hsx with
      | refl => exact List.mem_append_left _ hs
      | tail _ hstep ih =>
          rename_i b c _
          by_cases hb : b ∈ seeds
          · exact hclosed b (List.mem_append_left _ hb) c hstep
          · exact hclosed b (ih hb) c hstep
    exact (List.mem_append.mp hall).resolve_left hseed

/-! ## Distances -/

variable (next)

/-- A walk of so many steps. -/
inductive Walk : Nat → α → α → Prop
  | refl (a : α) : Walk 0 a a
  | tail {n : Nat} {a b c : α} : Walk n a b → c ∈ next b → Walk (n + 1) a c

def Near (seeds : List α) (n : Nat) (x : α) : Prop := ∃ s ∈ seeds, Walk next n s x

/-- The least number of steps from a seed. -/
def AtDist (seeds : List α) (n : Nat) (x : α) : Prop :=
  Near next seeds n x ∧ ∀ m < n, ¬ Near next seeds m x

variable {next} {seeds : List α} {n : Nat} {x : α}

omit [DecidableEq α] in
theorem near_zero : Near next seeds 0 x ↔ x ∈ seeds := by
  constructor
  · rintro ⟨s, hs, hwalk⟩
    cases hwalk
    exact hs
  · intro hx
    exact ⟨x, hx, .refl x⟩

omit [DecidableEq α] in
theorem near_succ : Near next seeds (n + 1) x ↔ ∃ y, Near next seeds n y ∧ x ∈ next y := by
  constructor
  · rintro ⟨s, hs, hwalk⟩
    cases hwalk with
    | tail hwalk hstep => exact ⟨_, ⟨s, hs, hwalk⟩, hstep⟩
  · rintro ⟨y, ⟨s, hs, hwalk⟩, hstep⟩
    exact ⟨s, hs, .tail hwalk hstep⟩

omit [DecidableEq α] in
theorem exists_atDist : (∃ n, AtDist next seeds n x) ↔ ∃ s ∈ seeds, Leads next s x := by
  constructor
  · rintro ⟨n, ⟨s, hs, hwalk⟩, -⟩
    refine ⟨s, hs, ?_⟩
    induction hwalk with
    | refl a => exact .refl
    | tail _ hstep ih => exact (ih hs).tail hstep
  · rintro ⟨s, hs, hleads⟩
    have hnear : ∃ n, Near next seeds n x := by
      induction hleads with
      | refl => exact ⟨0, s, hs, .refl s⟩
      | tail _ hstep ih =>
          obtain ⟨n, hn⟩ := ih
          exact ⟨n + 1, near_succ.mpr ⟨_, hn, hstep⟩⟩
    classical
    exact ⟨Nat.find hnear, Nat.find_spec hnear, fun m hm => Nat.find_min hnear hm⟩

omit [DecidableEq α] in
theorem AtDist.unique {m : Nat} (h : AtDist next seeds n x) (h' : AtDist next seeds m x) :
    n = m := by
  rcases Nat.lt_trichotomy n m with hlt | rfl | hlt
  · exact absurd h.1 (h'.2 n hlt)
  · rfl
  · exact absurd h'.1 (h.2 m hlt)

omit [DecidableEq α] in
theorem AtDist.pred (h : AtDist next seeds (n + 1) x) :
    ∃ y, AtDist next seeds n y ∧ x ∈ next y := by
  obtain ⟨y, hy, hstep⟩ := near_succ.mp h.1
  refine ⟨y, ⟨hy, fun m hm hnear => ?_⟩, hstep⟩
  exact h.2 (m + 1) (Nat.succ_lt_succ hm) (near_succ.mpr ⟨y, hnear, hstep⟩)

omit [DecidableEq α] in
theorem not_atDist_of_empty (h : ∀ y, ¬ AtDist next seeds n y) (i : Nat) (y : α) :
    ¬ AtDist next seeds (n + i) y := by
  induction i generalizing y with
  | zero => exact h y
  | succ i ih =>
      intro hy
      obtain ⟨z, hz, _⟩ := hy.pred
      exact ih z hz

omit [DecidableEq α] in
theorem AtDist.mono {next' : α → List α} {seeds' : List α} (hnext : ∀ a, next a ⊆ next' a)
    (hseeds : seeds ⊆ seeds') (h : AtDist next seeds n x) : ∃ m ≤ n, AtDist next' seeds' m x := by
  have hwalk : ∀ {n : Nat} {a b : α}, Walk next n a b → Walk next' n a b := by
    intro n a b hw
    induction hw with
    | refl a => exact .refl a
    | tail _ hstep ih => exact .tail ih (hnext _ hstep)
  have hnear : ∃ m, Near next' seeds' m x := by
    obtain ⟨s, hs, hw⟩ := h.1
    exact ⟨n, s, hseeds hs, hwalk hw⟩
  classical
  refine ⟨Nat.find hnear, Nat.find_min' hnear ?_, Nat.find_spec hnear,
    fun m hm => Nat.find_min hnear hm⟩
  obtain ⟨s, hs, hw⟩ := h.1
  exact ⟨s, hseeds hs, hwalk hw⟩

/-- What the next layer holds, when the nodes seen are those near enough and the frontier
    is the last of them. -/
theorem mem_fresh_iff_atDist {k : Nat} (hseen : ∀ x, x ∈ seen ↔ ∃ m ≤ k, Near next seeds m x)
    (hfront : ∀ x, x ∈ frontier ↔ AtDist next seeds k x) :
    x ∈ fresh seen (frontier.flatMap next) ↔ AtDist next seeds (k + 1) x := by
  rw [mem_fresh, List.mem_flatMap, hseen]
  constructor
  · rintro ⟨⟨y, hy, hstep⟩, hfar⟩
    refine ⟨near_succ.mpr ⟨y, ((hfront y).mp hy).1, hstep⟩, fun m hm hnear => ?_⟩
    exact hfar ⟨m, Nat.le_of_lt_succ hm, hnear⟩
  · intro h
    obtain ⟨y, hy, hstep⟩ := h.pred
    refine ⟨⟨y, (hfront y).mpr hy, hstep⟩, ?_⟩
    rintro ⟨m, hm, hnear⟩
    exact h.2 m (Nat.lt_succ_of_le hm) hnear

theorem mem_layers_getElem (hnodes : ∀ a, ∀ b ∈ next a, b ∈ nodes) {k : Nat}
    (hfuel : (nodes.filter (· ∉ seen)).length ≤ fuel)
    (hseen : ∀ x, x ∈ seen ↔ ∃ m ≤ k, Near next seeds m x)
    (hfront : ∀ x, x ∈ frontier ↔ AtDist next seeds k x) (i : Nat) (x : α) :
    x ∈ ((layers next fuel seen frontier)[i]?).getD [] ↔ AtDist next seeds (k + 1 + i) x := by
  induction fuel generalizing seen frontier k i with
  | zero =>
      -- every node has been seen
      have hnone : ∀ y, ¬ AtDist next seeds (k + 1) y := by
        intro y hy
        obtain ⟨z, _, hstep⟩ := hy.pred
        have hin : y ∈ seen := by
          by_contra hout
          have hleft : y ∈ nodes.filter (· ∉ seen) :=
            List.mem_filter.mpr ⟨hnodes z y hstep, decide_eq_true hout⟩
          rw [List.eq_nil_of_length_eq_zero (Nat.le_zero.mp hfuel)] at hleft
          cases hleft
        obtain ⟨m, hm, hnear⟩ := (hseen y).mp hin
        exact hy.2 m (Nat.lt_succ_of_le hm) hnear
      refine iff_of_false ?_ (not_atDist_of_empty hnone i x)
      simp [layers]
  | succ fuel ih =>
      have hfresh : ∀ y, y ∈ fresh seen (frontier.flatMap next) ↔ AtDist next seeds (k + 1) y :=
        fun y => mem_fresh_iff_atDist hseen hfront
      rw [layers]
      by_cases hnew : fresh seen (frontier.flatMap next) = []
      · rw [if_pos hnew]
        refine iff_of_false (by simp) (not_atDist_of_empty (fun y hy => ?_) i x)
        have hmem := (hfresh y).mpr hy
        rw [hnew] at hmem
        cases hmem
      · rw [if_neg hnew]
        cases i with
        | zero => exact hfresh x
        | succ i =>
            obtain ⟨y, hy⟩ := List.exists_mem_of_ne_nil _ hnew
            obtain ⟨hyin, hyout⟩ := mem_fresh.mp hy
            obtain ⟨s, -, hsy⟩ := List.mem_flatMap.mp hyin
            have hlt := length_left_lt (hnodes s y hsy) hyout hy
            rw [List.getElem?_cons_succ,
              ih (by omega) (k := k + 1) (fun z => ?_) hfresh i, Nat.add_right_comm (k + 1) 1 i]
            · rfl
            · rw [List.mem_append, hseen, hfresh]
              constructor
              · rintro (⟨m, hm, hnear⟩ | hz)
                · exact ⟨m, Nat.le_succ_of_le hm, hnear⟩
                · exact ⟨k + 1, Nat.le_refl _, hz.1⟩
              · rintro ⟨m, hm, hnear⟩
                by_cases hwithin : ∃ m ≤ k, Near next seeds m z
                · exact Or.inl hwithin
                · right
                  have hm' : m = k + 1 := by
                    by_contra hne
                    exact hwithin ⟨m, by omega, hnear⟩
                  refine ⟨hm' ▸ hnear, fun j hj hj' => ?_⟩
                  exact hwithin ⟨j, Nat.le_of_lt_succ hj, hj'⟩

/-- **A layer of the walk from the seeds holds the nodes of its distance.** -/
theorem mem_layer_iff (hnodes : ∀ a, ∀ b ∈ next a, b ∈ nodes) (hfuel : nodes.length ≤ fuel)
    (i : Nat) (x : α) :
    x ∈ ((layers next fuel seeds seeds)[i]?).getD [] ↔ AtDist next seeds (i + 1) x := by
  have hzero : ∀ x, x ∈ seeds ↔ AtDist next seeds 0 x := by
    intro x
    have hnear : Near next seeds 0 x ↔ x ∈ seeds := near_zero
    rw [← hnear]
    exact ⟨fun h => ⟨h, fun m hm => absurd hm (Nat.not_lt_zero m)⟩, And.left⟩
  have hwithin : ∀ x, x ∈ seeds ↔ ∃ m ≤ 0, Near next seeds m x := by
    intro x
    have hnear : Near next seeds 0 x ↔ x ∈ seeds := near_zero
    rw [← hnear]
    constructor
    · exact fun h => ⟨0, Nat.le_refl _, h⟩
    · rintro ⟨m, hm, h⟩
      rwa [Nat.le_zero.mp hm] at h
  rw [mem_layers_getElem hnodes (Nat.le_trans (List.length_filter_le _ _) hfuel) hwithin hzero,
    Nat.zero_add, Nat.add_comm 1 i]

theorem layers_of_le (hnodes : ∀ a, ∀ b ∈ next a, b ∈ nodes) {fuel' : Nat}
    (hfuel : (nodes.filter (· ∉ seen)).length ≤ fuel) (hle : fuel ≤ fuel') :
    layers next fuel' seen frontier = layers next fuel seen frontier := by
  induction fuel generalizing fuel' seen frontier with
  | zero =>
      cases fuel' with
      | zero => rfl
      | succ fuel' =>
          have hnew : fresh seen (frontier.flatMap next) = [] := by
            refine List.eq_nil_iff_forall_not_mem.mpr fun y hy => ?_
            obtain ⟨hyin, hyout⟩ := mem_fresh.mp hy
            obtain ⟨s, -, hsy⟩ := List.mem_flatMap.mp hyin
            have hleft : y ∈ nodes.filter (· ∉ seen) :=
              List.mem_filter.mpr ⟨hnodes s y hsy, decide_eq_true hyout⟩
            rw [List.eq_nil_of_length_eq_zero (Nat.le_zero.mp hfuel)] at hleft
            cases hleft
          exact if_pos hnew
  | succ fuel ih =>
      cases fuel' with
      | zero => exact absurd hle (Nat.not_succ_le_zero fuel)
      | succ fuel' =>
          rw [layers, layers]
          by_cases hnew : fresh seen (frontier.flatMap next) = []
          · simp only [hnew, if_true]
          · simp only [hnew, if_false]
            obtain ⟨y, hy⟩ := List.exists_mem_of_ne_nil _ hnew
            obtain ⟨hyin, hyout⟩ := mem_fresh.mp hy
            obtain ⟨s, -, hsy⟩ := List.mem_flatMap.mp hyin
            have hlt := length_left_lt (hnodes s y hsy) hyout hy
            rw [ih (by omega) (Nat.le_of_succ_le_succ hle)]

end Layered
