import Mathlib.Algebra.Order.Ring.Defs
import Mathlib.Data.List.Perm.Subperm
import Mathlib.Logic.Function.Basic
import Mathlib.Tactic.Common

/-! # Best products — a signal that fades along the arcs of a graph

    Every arc passes on a share of what reaches its source.  A search keeps the best product known
    of each node and a queue of what to expand, in order of arrival; a node is expanded again when a
    better product arrives, and an entry that has been bettered since is passed over.  A product
    below the floor is not carried on.

    * `Net.Walk`: what reaches a node along some path;
    * `Net.drain`: the search;
    * `Net.Trace`: the path an entry came by, each node of which is known at least as well, so that
      **no entry's path meets a node twice**;
    * `Net.drain_empties`: **the queue runs empty within as many expansions as there are seeds and
      pairs of arcs**, cycles included;
    * `Net.drain_crossed`: **then the arcs crossed are those which some walk crosses above the
      floor**. -/

namespace BestProducts

/-- A graph whose arcs pass on a share between nothing and all. -/
structure Net (V K α : Type*) [Semiring K] [PartialOrder K] where
  arcs : List α
  src : α → V
  dst : α → V
  factor : α → K
  nonneg : ∀ a, 0 ≤ factor a
  le_one : ∀ a, factor a ≤ 1

variable {V K α : Type*} [Semiring K] [LinearOrder K] {N : Net V K α} {floor : K}

/-! ## Walks -/

inductive Net.Walk (N : Net V K α) (seeds : List V) : V → K → Prop
  | seed {v : V} (hv : v ∈ seeds) : Net.Walk N seeds v 1
  | step {a : α} {p : K} (h : Net.Walk N seeds (N.src a) p) (ha : a ∈ N.arcs) :
      Net.Walk N seeds (N.dst a) (p * N.factor a)

def Net.Crosses (N : Net V K α) (floor : K) (seeds : List V) (a : α) : Prop :=
  a ∈ N.arcs ∧ ∃ p, N.Walk seeds (N.src a) p ∧ floor ≤ p * N.factor a

theorem Net.Walk.mono {M : Net V K α} (hsrc : M.src = N.src) (hdst : M.dst = N.dst)
    (hfactor : M.factor = N.factor) (harcs : N.arcs ⊆ M.arcs) {seeds seeds' : List V}
    (hseeds : seeds ⊆ seeds') {v : V} {p : K} (h : N.Walk seeds v p) : M.Walk seeds' v p := by
  induction h with
  | seed hv => exact Net.Walk.seed (hseeds hv)
  | @step a p _ ha ih =>
      have hstep : M.Walk seeds' (M.dst a) (p * M.factor a) :=
        Net.Walk.step (by rw [hsrc]; exact ih) (harcs ha)
      rwa [hdst, hfactor] at hstep

theorem Net.Crosses.mono {M : Net V K α} (hsrc : M.src = N.src) (hdst : M.dst = N.dst)
    (hfactor : M.factor = N.factor) (harcs : N.arcs ⊆ M.arcs) {seeds seeds' : List V}
    (hseeds : seeds ⊆ seeds') {a : α} (h : N.Crosses floor seeds a) : M.Crosses floor seeds' a := by
  obtain ⟨ha, p, hwalk, hp⟩ := h
  refine ⟨harcs ha, p, ?_, ?_⟩
  · rw [hsrc]
    exact hwalk.mono hsrc hdst hfactor harcs hseeds
  · rw [hfactor]
    exact hp

/-! ## The path of an entry -/

/-- A path from a seed, by the nodes it has gone to, the last one first.  Each is known by `best` at
    least as well as the path knows it, and none is met twice. -/
inductive Net.Trace (N : Net V K α) (seeds : List V) (best : V → K) :
    List V → V → K → Prop
  | seed {v : V} (hv : v ∈ seeds) (hbest : 1 ≤ best v) : Net.Trace N seeds best [] v 1
  | step {vs : List V} {a : α} {p : K} (h : Net.Trace N seeds best vs (N.src a) p)
      (ha : a ∈ N.arcs) (hfresh : N.dst a ∉ vs) (hbest : p * N.factor a ≤ best (N.dst a)) :
      Net.Trace N seeds best (N.dst a :: vs) (N.dst a) (p * N.factor a)

section

variable [IsStrictOrderedRing K]

theorem Net.Walk.nonneg {seeds : List V} {v : V} {p : K} (h : N.Walk seeds v p) : 0 ≤ p := by
  induction h with
  | seed => exact zero_le_one
  | step _ _ ih => exact mul_nonneg ih (N.nonneg _)

end

namespace Net.Trace

variable {seeds : List V} {best best' : V → K} {vs : List V} {v : V} {p : K}

theorem mono (h : N.Trace seeds best vs v p) (hle : ∀ w, best w ≤ best' w) :
    N.Trace seeds best' vs v p := by
  induction h with
  | seed hv hbest => exact Net.Trace.seed hv (hbest.trans (hle _))
  | step _ ha hfresh hbest ih => exact Net.Trace.step ih ha hfresh (hbest.trans (hle _))

theorem walk (h : N.Trace seeds best vs v p) : N.Walk seeds v p := by
  induction h with
  | seed hv => exact Net.Walk.seed hv
  | step _ ha _ _ ih => exact Net.Walk.step ih ha

theorem le_best (h : N.Trace seeds best vs v p) : p ≤ best v := by
  cases h with
  | seed _ hbest => exact hbest
  | step _ _ _ hbest => exact hbest

theorem nodup (h : N.Trace seeds best vs v p) : vs.Nodup := by
  induction h with
  | seed => exact List.nodup_nil
  | step _ _ hfresh _ ih => exact List.nodup_cons.mpr ⟨hfresh, ih⟩

theorem subset (h : N.Trace seeds best vs v p) : vs ⊆ N.arcs.map N.dst := by
  induction h with
  | seed => exact List.nil_subset _
  | step _ ha _ _ ih => exact List.cons_subset.mpr ⟨List.mem_map_of_mem ha, ih⟩

theorem length_le (h : N.Trace seeds best vs v p) : vs.length ≤ N.arcs.length := by
  have hsub := (List.subperm_of_subset h.nodup h.subset).length_le
  rwa [List.length_map] at hsub

variable [IsStrictOrderedRing K]

theorem le_of_mem (h : N.Trace seeds best vs v p) : ∀ w ∈ vs, p ≤ best w := by
  induction h with
  | seed => exact fun w hw => absurd hw List.not_mem_nil
  | @step vs a p hprev ha hfresh hbest ih =>
      intro w hw
      rcases List.mem_cons.mp hw with rfl | hw
      · exact hbest
      · exact (mul_le_of_le_one_right hprev.walk.nonneg (N.le_one a)).trans (ih w hw)

theorem extend {a : α} (h : N.Trace seeds best vs (N.src a) p) (ha : a ∈ N.arcs)
    (hbetter : best (N.dst a) < p * N.factor a) (hle : ∀ w, best w ≤ best' w)
    (hbest : p * N.factor a ≤ best' (N.dst a)) :
    N.Trace seeds best' (N.dst a :: vs) (N.dst a) (p * N.factor a) := by
  refine Net.Trace.step (h.mono hle) ha ?_ hbest
  intro hmem
  have hknown := h.le_of_mem _ hmem
  have hfade := mul_le_of_le_one_right h.walk.nonneg (N.le_one a)
  exact absurd (hknown.trans_lt hbetter) (not_lt.mpr hfade)

end Net.Trace

/-! ## The search -/

variable [DecidableEq V] (N floor)

structure Search (V K α : Type*) where
  queue : List (V × K)
  best : V → K
  crossed : List α

/-- One arc out of a node which `p` has reached. -/
def Net.relax (p : K) (s : Search V K α) (a : α) : Search V K α :=
  let carried := p * N.factor a
  if carried < floor then s
  else if s.best (N.dst a) < carried then
    { queue := s.queue ++ [(N.dst a, carried)]
      best := Function.update s.best (N.dst a) carried
      crossed := s.crossed ++ [a] }
  else { s with crossed := s.crossed ++ [a] }

def Net.expand (s : Search V K α) (v : V) (p : K) : Search V K α :=
  (N.arcs.filter fun a => N.src a = v).foldl (N.relax floor p) s

/-- The entry at the head of the queue. -/
def Net.pop (s : Search V K α) (v : V) (p : K) (rest : List (V × K)) : Search V K α :=
  if p < s.best v then { s with queue := rest } else N.expand floor { s with queue := rest } v p

/-- At most so many entries. -/
def Net.drain : Nat → Search V K α → Search V K α
  | 0, s => s
  | fuel + 1, s =>
      match s.queue with
      | [] => s
      | (v, p) :: rest => Net.drain fuel (N.pop floor s v p rest)

/-- A seed that is not known in full yet is. -/
def enter (s : Search V K α) (v : V) : Search V K α :=
  if s.best v < 1 then
    { s with queue := s.queue ++ [(v, 1)], best := Function.update s.best v 1 }
  else s

/-- The seeds, nothing else known. -/
def start (seeds : List V) : Search V K α :=
  seeds.foldl enter { queue := [], best := fun _ => 0, crossed := [] }

/-! ## One expansion -/

variable {N floor}

/-- What handling the arcs `l` out of a node which `p` has reached does: `new` is
    what is put in the queue. -/
structure Net.Spread (N : Net V K α) (floor p : K) (l : List α) (s s' : Search V K α)
    (new : List (V × K)) : Prop where
  queue : s'.queue = s.queue ++ new
  best_le : ∀ w, s.best w ≤ s'.best w
  betters : ∀ e ∈ new, ∃ a ∈ l, e = (N.dst a, p * N.factor a) ∧
    s.best (N.dst a) < p * N.factor a ∧ p * N.factor a ≤ s'.best (N.dst a)
  rising : new.Pairwise fun e e' => e.1 = e'.1 → e.2 < e'.2
  changed : ∀ w, s'.best w = s.best w ∨ (w, s'.best w) ∈ new
  crossed : ∀ a, a ∈ s'.crossed ↔ a ∈ s.crossed ∨ a ∈ l ∧ floor ≤ p * N.factor a
  covered : ∀ a ∈ l, floor ≤ p * N.factor a → p * N.factor a ≤ s'.best (N.dst a)
  length_le : new.length ≤ l.length

omit [DecidableEq V] in
theorem Net.Spread.nil (p : K) (s : Search V K α) : N.Spread floor p [] s s [] where
  queue := (List.append_nil _).symm
  best_le := fun _ => le_refl _
  betters := fun e he => absurd he List.not_mem_nil
  rising := List.Pairwise.nil
  changed := fun _ => Or.inl rfl
  crossed := fun a => by simp
  covered := fun a ha => absurd ha List.not_mem_nil
  length_le := Nat.le_refl _

theorem Net.spread_relax (p : K) (s : Search V K α) (a : α) :
    ∃ new, N.Spread floor p [a] s (N.relax floor p s a) new := by
  unfold Net.relax
  by_cases hfloor : p * N.factor a < floor
  · rw [if_pos hfloor]
    have hnot : ¬ floor ≤ p * N.factor a := not_le.mpr hfloor
    refine ⟨[], (List.append_nil _).symm, fun _ => le_refl _,
      fun e he => absurd he List.not_mem_nil, List.Pairwise.nil,
      fun _ => Or.inl rfl, ?_, ?_, Nat.zero_le _⟩
    · intro b
      constructor
      · exact Or.inl
      · rintro (h | ⟨hb, h⟩)
        · exact h
        · rw [List.mem_singleton.mp hb] at h
          exact absurd h hnot
    · intro b hb h
      rw [List.mem_singleton.mp hb] at h
      exact absurd h hnot
  rw [if_neg hfloor]
  have hcross : ∀ b, b ∈ s.crossed ++ [a] ↔ b ∈ s.crossed ∨ b ∈ [a] ∧ floor ≤ p * N.factor b := by
    intro b
    rw [List.mem_append]
    refine or_congr_right ⟨fun hb => ⟨hb, ?_⟩, And.left⟩
    rw [List.mem_singleton.mp hb]
    exact not_lt.mp hfloor
  by_cases hbest : s.best (N.dst a) < p * N.factor a
  · rw [if_pos hbest]
    have hself : Function.update s.best (N.dst a) (p * N.factor a) (N.dst a) = p * N.factor a :=
      Function.update_self _ _ _
    refine ⟨[(N.dst a, p * N.factor a)], rfl, ?_, ?_, List.pairwise_singleton _ _, ?_, hcross, ?_,
      Nat.le_refl _⟩
    · intro w
      by_cases hw : w = N.dst a
      · subst hw
        exact hbest.le.trans_eq hself.symm
      · exact (Function.update_of_ne hw _ _).ge
    · intro e he
      exact ⟨a, List.mem_singleton_self a, List.mem_singleton.mp he, hbest, hself.ge⟩
    · intro w
      by_cases hw : w = N.dst a
      · subst hw
        right
        show (_, Function.update s.best (N.dst a) (p * N.factor a) (N.dst a)) ∈ _
        rw [hself]
        exact List.mem_singleton_self _
      · exact Or.inl (Function.update_of_ne hw _ _)
    · intro b hb _
      rw [List.mem_singleton.mp hb]
      exact hself.ge
  · rw [if_neg hbest]
    refine ⟨[], (List.append_nil _).symm, fun _ => le_refl _,
      fun e he => absurd he List.not_mem_nil, List.Pairwise.nil,
      fun _ => Or.inl rfl, hcross, ?_, Nat.zero_le _⟩
    intro b hb _
    rw [List.mem_singleton.mp hb]
    exact not_lt.mp hbest

omit [DecidableEq V] in
theorem Net.Spread.append {p : K} {l l' : List α} {s s' s'' : Search V K α}
    {new new' : List (V × K)} (h : N.Spread floor p l s s' new)
    (h' : N.Spread floor p l' s' s'' new') :
    N.Spread floor p (l ++ l') s s'' (new ++ new') where
  queue := by rw [h'.queue, h.queue, List.append_assoc]
  best_le := fun w => (h.best_le w).trans (h'.best_le w)
  betters := by
    intro e he
    rcases List.mem_append.mp he with he | he
    · obtain ⟨a, ha, rfl, hlt, hle⟩ := h.betters e he
      exact ⟨a, List.mem_append_left _ ha, rfl, hlt, hle.trans (h'.best_le _)⟩
    · obtain ⟨a, ha, rfl, hlt, hle⟩ := h'.betters e he
      exact ⟨a, List.mem_append_right _ ha, rfl, (h.best_le _).trans_lt hlt, hle⟩
  rising := by
    refine List.pairwise_append.mpr ⟨h.rising, h'.rising, ?_⟩
    intro e he e' he' hsame
    obtain ⟨a, _, rfl, _, hle⟩ := h.betters e he
    obtain ⟨b, _, rfl, hlt, _⟩ := h'.betters e' he'
    have hnode : N.dst a = N.dst b := hsame
    rw [hnode] at hle
    exact hle.trans_lt hlt
  changed := by
    intro w
    rcases h'.changed w with hw | hw
    · rw [hw]
      exact (h.changed w).imp_right (List.mem_append_left _)
    · exact Or.inr (List.mem_append_right _ hw)
  crossed := by
    intro a
    rw [h'.crossed, h.crossed, List.mem_append, or_and_right, or_assoc]
  covered := by
    intro a ha hfloor
    rcases List.mem_append.mp ha with ha | ha
    · exact (h.covered a ha hfloor).trans (h'.best_le _)
    · exact h'.covered a ha hfloor
  length_le := by
    rw [List.length_append, List.length_append]
    exact Nat.add_le_add h.length_le h'.length_le

theorem Net.spread_foldl (p : K) (l : List α) (s : Search V K α) :
    ∃ new, N.Spread floor p l s (l.foldl (N.relax floor p) s) new := by
  induction l generalizing s with
  | nil => exact ⟨[], Net.Spread.nil p s⟩
  | cons a l ih =>
      obtain ⟨new, h⟩ := N.spread_relax p s a
      obtain ⟨new', h'⟩ := ih (N.relax floor p s a)
      exact ⟨new ++ new', h.append h'⟩

/-! ## The search by rounds -/

/-- The queue holds the rest of one round and the next; an entry of round `k` has
    come `k` steps.  A node known at all is still to be expanded at its best, or
    all its arcs have been crossed with it. -/
structure Net.Inv (N : Net V K α) (floor : K) (seeds : List V) (k : Nat)
    (cur next : List (V × K)) (s : Search V K α) : Prop where
  queue : s.queue = cur ++ next
  now : ∀ e ∈ cur, ∃ vs, vs.length = k ∧ N.Trace seeds s.best vs e.1 e.2
  later : ∀ e ∈ next, ∃ vs, vs.length = k + 1 ∧ N.Trace seeds s.best vs e.1 e.2
  rising : (cur ++ next).Pairwise fun e e' => e.1 = e'.1 → e.2 < e'.2
  seeded : ∀ v ∈ seeds, 1 ≤ s.best v
  sound : ∀ a ∈ s.crossed, N.Crosses floor seeds a
  settled : ∀ v, 0 < s.best v → (v, s.best v) ∈ s.queue ∨
    ∀ a ∈ N.arcs, N.src a = v → floor ≤ s.best v * N.factor a →
      a ∈ s.crossed ∧ s.best v * N.factor a ≤ s.best (N.dst a)

/-- The arcs out of the nodes of a round. -/
def Net.pending (N : Net V K α) (cur : List (V × K)) : List α :=
  N.arcs.filter fun a => N.src a ∈ cur.map Prod.fst

theorem Net.pending_cons {v : V} {p : K} {rest : List (V × K)} (h : v ∉ rest.map Prod.fst) :
    (N.arcs.filter fun a => N.src a = v).length + (N.pending rest).length
      = (N.pending ((v, p) :: rest)).length := by
  unfold Net.pending
  rw [← List.countP_eq_length_filter, ← List.countP_eq_length_filter,
    ← List.countP_eq_length_filter]
  induction N.arcs with
  | nil => rfl
  | cons a arcs ih =>
      rw [List.countP_cons, List.countP_cons, List.countP_cons, ← ih, List.map_cons]
      by_cases hv : N.src a = v
      · have hrest : N.src a ∉ rest.map Prod.fst := fun hmem => h (hv ▸ hmem)
        rw [if_pos (decide_eq_true hv), if_neg (by simpa using hrest),
          if_pos (decide_eq_true (List.mem_cons.mpr (Or.inl hv)))]
        omega
      · have hiff : N.src a ∈ v :: rest.map Prod.fst ↔ N.src a ∈ rest.map Prod.fst := by
          rw [List.mem_cons]
          exact or_iff_right hv
        rw [if_neg (by simpa using hv)]
        simp only [hiff]
        omega

section Rounds

variable [IsStrictOrderedRing K] {seeds : List V} {k : Nat} {cur next rest : List (V × K)}
  {s : Search V K α} {v : V} {p : K}

omit [IsStrictOrderedRing K] [DecidableEq V] in
theorem Net.Inv.skip (h : N.Inv floor seeds k ((v, p) :: rest) next s) (hstale : p < s.best v) :
    N.Inv floor seeds k rest next { s with queue := rest ++ next } where
  queue := rfl
  now := fun e he => h.now e (List.mem_cons_of_mem _ he)
  later := h.later
  rising := (List.pairwise_cons.mp h.rising).2
  seeded := h.seeded
  sound := h.sound
  settled := by
    intro w hw
    refine (h.settled w hw).imp_left fun hmem => ?_
    rw [h.queue] at hmem
    rcases List.mem_cons.mp hmem with heq | hmem
    · obtain ⟨rfl, hp⟩ := Prod.mk.inj heq
      exact absurd hp hstale.ne'
    · exact hmem

omit [IsStrictOrderedRing K] [DecidableEq V] in
theorem Net.Inv.not_mem_rest (h : N.Inv floor seeds k ((v, p) :: rest) next s)
    (hcurrent : p = s.best v) : v ∉ rest.map Prod.fst := by
  intro hmem
  obtain ⟨e, he, rfl⟩ := List.mem_map.mp hmem
  have hrise : p < e.2 :=
    (List.pairwise_cons.mp h.rising).1 e (List.mem_append_left _ he) rfl
  obtain ⟨vs, -, htrace⟩ := h.now e (List.mem_cons_of_mem _ he)
  exact absurd (hrise.trans_le htrace.le_best) (not_lt.mpr hcurrent.ge)

theorem Net.Inv.spread (h : N.Inv floor seeds k ((v, p) :: rest) next s)
    (hcurrent : p = s.best v) {s' : Search V K α} {new : List (V × K)}
    (hspread : N.Spread floor p (N.arcs.filter fun a => N.src a = v)
      { s with queue := rest ++ next } s' new) :
    N.Inv floor seeds k rest (next ++ new) s' := by
  obtain ⟨vs, hvs, htrace⟩ := h.now (v, p) List.mem_cons_self
  have hle : ∀ w, s.best w ≤ s'.best w := hspread.best_le
  have harc : ∀ a ∈ N.arcs.filter fun a => N.src a = v, a ∈ N.arcs ∧ N.src a = v := by
    intro a ha
    obtain ⟨ha, hsrc⟩ := List.mem_filter.mp ha
    exact ⟨ha, of_decide_eq_true hsrc⟩
  refine ⟨?_, ?_, ?_, ?_, fun w hw => (h.seeded w hw).trans (hle w), ?_, ?_⟩
  · rw [hspread.queue, List.append_assoc]
  · intro e he
    obtain ⟨ws, hws, hthen⟩ := h.now e (List.mem_cons_of_mem _ he)
    exact ⟨ws, hws, hthen.mono hle⟩
  · intro e he
    rcases List.mem_append.mp he with he | he
    · obtain ⟨ws, hws, hthen⟩ := h.later e he
      exact ⟨ws, hws, hthen.mono hle⟩
    · obtain ⟨a, ha, rfl, hlt, hbest⟩ := hspread.betters e he
      obtain ⟨hin, rfl⟩ := harc a ha
      exact ⟨N.dst a :: vs, congrArg Nat.succ hvs, htrace.extend hin hlt hle hbest⟩
  · rw [← List.append_assoc]
    refine List.pairwise_append.mpr
      ⟨(List.pairwise_cons.mp h.rising).2, hspread.rising, ?_⟩
    intro e he e' he' hsame
    -- a new entry betters whatever was known of its node
    have hknown : e.2 ≤ s.best e.1 := by
      rcases List.mem_append.mp he with he | he
      · obtain ⟨_, -, hthen⟩ := h.now e (List.mem_cons_of_mem _ he)
        exact hthen.le_best
      · obtain ⟨_, -, hthen⟩ := h.later e he
        exact hthen.le_best
    obtain ⟨a, -, rfl, hlt, -⟩ := hspread.betters e' he'
    rw [hsame] at hknown
    exact hknown.trans_lt hlt
  · intro a ha
    rcases (hspread.crossed a).mp ha with ha | ⟨ha, hfloor⟩
    · exact h.sound a ha
    · obtain ⟨hin, rfl⟩ := harc a ha
      exact ⟨hin, p, htrace.walk, hfloor⟩
  · intro w hw
    rcases hspread.changed w with hsame | hmem
    swap
    · left
      rw [hspread.queue]
      exact List.mem_append_right _ hmem
    rw [hsame] at hw ⊢
    by_cases hwv : w = v
    · subst hwv
      right
      intro a ha hsrc hfloor
      rw [← hcurrent] at hfloor ⊢
      have hmem : a ∈ N.arcs.filter fun a => N.src a = w :=
        List.mem_filter.mpr ⟨ha, decide_eq_true hsrc⟩
      exact ⟨(hspread.crossed a).mpr (Or.inr ⟨hmem, hfloor⟩), hspread.covered a hmem hfloor⟩
    · rcases h.settled w hw with hqueue | hdone
      · left
        rw [h.queue] at hqueue
        rcases List.mem_cons.mp hqueue with heq | hqueue
        · exact absurd (Prod.mk.inj heq).1 hwv
        · rw [hspread.queue]
          exact List.mem_append_left _ hqueue
      · right
        intro a ha hsrc hfloor
        obtain ⟨hcrossed, hbest⟩ := hdone a ha hsrc hfloor
        exact ⟨(hspread.crossed a).mpr (Or.inl hcrossed), hbest.trans (hle _)⟩

/-- **One entry**: what it puts in the queue is no more than its node takes away from the round. -/
theorem Net.Inv.pop (h : N.Inv floor seeds k ((v, p) :: rest) next s) :
    ∃ new, N.Inv floor seeds k rest (next ++ new) (N.pop floor s v p (rest ++ next)) ∧
      new.length + (N.pending rest).length ≤ (N.pending ((v, p) :: rest)).length := by
  unfold Net.pop
  by_cases hstale : p < s.best v
  · rw [if_pos hstale]
    refine ⟨[], ?_, ?_⟩
    · rw [List.append_nil]
      exact h.skip hstale
    · rw [List.length_nil, Nat.zero_add]
      refine (List.monotone_filter_right N.arcs fun a ha => ?_).length_le
      exact decide_eq_true (List.mem_cons_of_mem _ (of_decide_eq_true ha))
  · rw [if_neg hstale]
    obtain ⟨vs, -, htrace⟩ := h.now (v, p) List.mem_cons_self
    have hcurrent : p = s.best v := le_antisymm htrace.le_best (not_lt.mp hstale)
    obtain ⟨new, hspread⟩ : ∃ new, N.Spread floor p (N.arcs.filter fun a => N.src a = v)
        { s with queue := rest ++ next } _ new := N.spread_foldl p _ _
    refine ⟨new, h.spread hcurrent hspread, ?_⟩
    rw [← Net.pending_cons (h.not_mem_rest hcurrent)]
    exact Nat.add_le_add_right hspread.length_le _

omit [IsStrictOrderedRing K] [DecidableEq V] in
theorem Net.Inv.turn (h : N.Inv floor seeds k [] next s) :
    N.Inv floor seeds (k + 1) next [] s where
  queue := h.queue.trans (List.append_nil _).symm
  now := h.later
  later := fun e he => absurd he List.not_mem_nil
  rising := by simpa using h.rising
  seeded := h.seeded
  sound := h.sound
  settled := h.settled

/-- The expansions that are enough, with `r` rounds to come. -/
def Net.need (N : Net V K α) : Nat → List (V × K) → List (V × K) → Nat
  | 0, cur, next => cur.length + next.length
  | r + 1, cur, next =>
      cur.length + next.length + (N.pending cur).length + N.arcs.length * r

omit [IsStrictOrderedRing K] in
theorem Net.need_zero_iff {r : Nat} : N.need r cur next ≤ 0 → cur = [] ∧ next = [] := by
  intro h
  have hlen : cur.length + next.length ≤ 0 := by
    cases r with
    | zero => exact h
    | succ r =>
        rw [Net.need] at h
        omega
  exact ⟨List.length_eq_zero_iff.mp (by omega), List.length_eq_zero_iff.mp (by omega)⟩

omit [IsStrictOrderedRing K] in
theorem Net.pending_length_le (cur : List (V × K)) :
    (N.pending cur).length ≤ N.arcs.length := List.length_filter_le _ _

omit [IsStrictOrderedRing K] in
theorem Net.need_turn {r : Nat} : N.need r next [] ≤ N.need (r + 1) [] next := by
  have hpending := N.pending_length_le next
  cases r with
  | zero =>
      simp only [Net.need, List.length_nil]
      omega
  | succ r =>
      simp only [Net.need, List.length_nil, Nat.mul_succ]
      omega

omit [IsStrictOrderedRing K] in
theorem Net.need_pop {r : Nat} {new : List (V × K)} (hk : k + r = N.arcs.length)
    (h : N.Inv floor seeds k rest (next ++ new) s)
    (hnew : new.length + (N.pending rest).length ≤ (N.pending ((v, p) :: rest)).length) :
    N.need r rest (next ++ new) + 1 ≤ N.need r ((v, p) :: rest) next := by
  cases r with
  | zero =>
      -- the paths of this round are as long as they get
      have hnone : next ++ new = [] := by
        refine List.eq_nil_iff_forall_not_mem.mpr fun e he => ?_
        obtain ⟨vs, hvs, htrace⟩ := h.later e he
        have hlen := htrace.length_le
        omega
      obtain ⟨rfl, rfl⟩ := List.append_eq_nil_iff.mp hnone
      simp only [Net.need, List.length_cons, List.append_nil, List.length_nil]
      omega
  | succ r =>
      simp only [Net.need, List.length_cons, List.length_append]
      omega

omit [IsStrictOrderedRing K] in
theorem Net.Inv.head {r n : Nat} (h : N.Inv floor seeds k cur next s)
    (hk : k + r = N.arcs.length) (hn : N.need r cur next ≤ n) (hqueue : s.queue ≠ []) :
    ∃ k r v p rest next, k + r = N.arcs.length ∧ N.need r ((v, p) :: rest) next ≤ n ∧
      N.Inv floor seeds k ((v, p) :: rest) next s := by
  cases cur with
  | cons e rest => exact ⟨k, r, e.1, e.2, rest, next, hk, hn, h⟩
  | nil =>
      cases next with
      | nil => exact absurd h.queue hqueue
      | cons e rest =>
          obtain ⟨vs, hvs, htrace⟩ := h.later e List.mem_cons_self
          have hlen := htrace.length_le
          obtain ⟨r, rfl⟩ : ∃ r', r = r' + 1 := ⟨r - 1, by omega⟩
          exact ⟨k + 1, r, e.1, e.2, rest, [], by omega, Net.need_turn.trans hn, h.turn⟩

/-- **The search runs to the end of its queue.** -/
theorem Net.Inv.drain {n r : Nat} (h : N.Inv floor seeds k cur next s)
    (hk : k + r = N.arcs.length) (hn : N.need r cur next ≤ n) :
    ∃ k, N.Inv floor seeds k [] [] (N.drain floor n s) := by
  induction n generalizing k r cur next s with
  | zero =>
      obtain ⟨rfl, rfl⟩ := Net.need_zero_iff hn
      exact ⟨k, h⟩
  | succ n ih =>
      rw [Net.drain]
      by_cases hqueue : s.queue = []
      · rw [hqueue]
        have hnil := hqueue
        rw [h.queue] at hnil
        obtain ⟨rfl, rfl⟩ := List.append_eq_nil_iff.mp hnil
        exact ⟨k, h⟩
      obtain ⟨k, r, v, p, rest, next, hk, hn, h⟩ := h.head hk hn hqueue
      rw [h.queue]
      obtain ⟨new, hpop, hnew⟩ := h.pop
      exact ih hpop hk (by have := Net.need_pop hk hpop hnew; omega)

end Rounds

/-! ## From the seeds -/

variable (seeds : List V)

/-- While the seeds are let in: each waits once, and nothing else is known. -/
structure Admitted (seen : List V) (s : Search V K α) : Prop where
  queue : ∀ e, e ∈ s.queue ↔ e.1 ∈ seen ∧ e.2 = 1
  nodup : (s.queue.map Prod.fst).Nodup
  length_le : s.queue.length ≤ seen.length
  best_of_mem : ∀ v ∈ seen, s.best v = 1
  best_of_not_mem : ∀ v, v ∉ seen → s.best v = 0
  crossed : s.crossed = []

section Seeds

variable [IsStrictOrderedRing K] {seeds}

theorem Admitted.enter {seen : List V} {s : Search V K α} (h : Admitted seen s) (v : V) :
    Admitted (seen ++ [v]) (enter s v) := by
  unfold BestProducts.enter
  by_cases hv : v ∈ seen
  · have hfull : ¬ s.best v < 1 := by
      rw [h.best_of_mem v hv]
      exact lt_irrefl 1
    have hsame : ∀ w, w ∈ seen ++ [v] ↔ w ∈ seen := by
      intro w
      rw [List.mem_append, List.mem_singleton]
      constructor
      · rintro (hw | rfl)
        · exact hw
        · exact hv
      · exact Or.inl
    rw [if_neg hfull]
    refine ⟨?_, h.nodup, ?_, ?_, ?_, h.crossed⟩
    · intro e
      rw [h.queue, hsame]
    · rw [List.length_append]
      exact h.length_le.trans (Nat.le_add_right _ _)
    · exact fun w hw => h.best_of_mem w ((hsame w).mp hw)
    · exact fun w hw => h.best_of_not_mem w fun hmem => hw ((hsame w).mpr hmem)
  · have hnew : s.best v < 1 := by
      rw [h.best_of_not_mem v hv]
      exact zero_lt_one
    rw [if_pos hnew]
    refine ⟨?_, ?_, ?_, ?_, ?_, h.crossed⟩
    · intro e
      rw [List.mem_append, List.mem_append, List.mem_singleton, List.mem_singleton, h.queue,
        or_and_right]
      exact or_congr_right Prod.ext_iff
    · dsimp only
      rw [List.map_append]
      refine List.nodup_append.mpr ⟨h.nodup, List.pairwise_singleton _ v, ?_⟩
      rintro w hmem v' hv' rfl
      obtain ⟨e, he, rfl⟩ := List.mem_map.mp hmem
      have hev : e.1 = v := List.mem_singleton.mp hv'
      exact hv (hev ▸ ((h.queue e).mp he).1)
    · simpa using h.length_le
    · intro w hw
      dsimp only
      by_cases hwv : w = v
      · subst hwv
        exact Function.update_self _ _ _
      · rw [Function.update_of_ne hwv]
        rcases List.mem_append.mp hw with hw | hw
        · exact h.best_of_mem w hw
        · exact absurd (List.mem_singleton.mp hw) hwv
    · intro w hw
      have hwv : w ≠ v := by
        rintro rfl
        exact hw (List.mem_append_right _ (List.mem_singleton_self _))
      dsimp only
      rw [Function.update_of_ne hwv]
      exact h.best_of_not_mem w fun hmem => hw (List.mem_append_left _ hmem)

theorem admitted_start (seeds : List V) : Admitted seeds (start seeds : Search V K α) := by
  have hrun : ∀ (l seen : List V) (s : Search V K α), Admitted seen s →
      Admitted (seen ++ l) (l.foldl BestProducts.enter s) := by
    intro l
    induction l with
    | nil =>
        intro seen s h
        rw [List.append_nil]
        exact h
    | cons v l ih =>
        intro seen s h
        have hthen := ih (seen ++ [v]) _ (h.enter v)
        rwa [List.append_assoc] at hthen
  refine hrun seeds [] _ ⟨?_, List.nodup_nil, Nat.le_refl _, ?_, fun _ _ => rfl, rfl⟩
  · simp
  · exact fun v hv => absurd hv List.not_mem_nil

theorem Net.inv_start (seeds : List V) :
    N.Inv floor seeds 0 (start seeds : Search V K α).queue [] (start seeds) := by
  have h : Admitted seeds (start seeds : Search V K α) := admitted_start seeds
  refine ⟨(List.append_nil _).symm, ?_, fun e he => absurd he List.not_mem_nil, ?_, ?_, ?_, ?_⟩
  · rintro ⟨v, p⟩ he
    obtain ⟨hv, rfl⟩ := (h.queue _).mp he
    exact ⟨[], rfl, Net.Trace.seed hv (h.best_of_mem v hv).ge⟩
  · rw [List.append_nil]
    refine (List.pairwise_map.mp h.nodup).imp fun hne hsame => ?_
    exact absurd hsame hne
  · exact fun v hv => (h.best_of_mem v hv).ge
  · intro a ha
    rw [h.crossed] at ha
    cases ha
  · intro v hv
    left
    have hseed : v ∈ seeds := by
      by_contra hnot
      rw [h.best_of_not_mem v hnot] at hv
      exact absurd hv (lt_irrefl 0)
    rw [h.queue]
    exact ⟨hseed, h.best_of_mem v hseed⟩

theorem Net.need_start (seeds : List V) : N.need N.arcs.length (start seeds : Search V K α).queue []
      ≤ seeds.length + N.arcs.length * N.arcs.length := by
  have hlen := (admitted_start (α := α) (K := K) seeds).length_le
  have hpending := N.pending_length_le (start seeds : Search V K α).queue
  generalize hn : N.arcs.length = n at *
  cases n with
  | zero =>
      simp only [Net.need, List.length_nil]
      omega
  | succ n =>
      simp only [Net.need, List.length_nil, hn]
      rw [Nat.mul_succ]
      omega

theorem Net.inv_drain {fuel : Nat} (hfuel : seeds.length + N.arcs.length * N.arcs.length ≤ fuel) :
    ∃ k, N.Inv floor seeds k [] [] (N.drain floor fuel (start seeds)) :=
  (N.inv_start seeds).drain (Nat.zero_add _) ((N.need_start seeds).trans hfuel)

/-- **The queue runs empty**, cycles or not. -/
theorem Net.drain_empties {fuel : Nat}
    (hfuel : seeds.length + N.arcs.length * N.arcs.length ≤ fuel) :
    (N.drain floor fuel (start seeds)).queue = [] := by
  obtain ⟨k, h⟩ : ∃ k, N.Inv floor seeds k [] [] (N.drain floor fuel (start seeds)) :=
    N.inv_drain hfuel
  exact h.queue

omit [DecidableEq V] in
theorem Net.Inv.walk_le {k : Nat} {s : Search V K α} (h : N.Inv floor seeds k [] [] s)
    (hfloor : 0 < floor) {v : V} {p : K} (hwalk : N.Walk seeds v p) (hp : floor ≤ p) :
    p ≤ s.best v := by
  induction hwalk with
  | seed hv => exact h.seeded _ hv
  | @step a p hwalk ha ih =>
      have hnonneg : 0 ≤ p := hwalk.nonneg
      have hprev := ih (hp.trans (mul_le_of_le_one_right hnonneg (N.le_one a)))
      have hmul : p * N.factor a ≤ s.best (N.src a) * N.factor a :=
        mul_le_mul_of_nonneg_right hprev (N.nonneg a)
      have hpos : 0 < s.best (N.src a) := by
        refine lt_of_lt_of_le (hfloor.trans_le ?_) hprev
        exact hp.trans (mul_le_of_le_one_right hnonneg (N.le_one a))
      rcases h.settled _ hpos with hqueue | hdone
      · rw [h.queue] at hqueue
        cases hqueue
      · exact hmul.trans (hdone a ha rfl (hp.trans hmul)).2

/-- **What the search has crossed is what some walk crosses above the floor.** -/
theorem Net.drain_crossed (hfloor : 0 < floor) {fuel : Nat}
    (hfuel : seeds.length + N.arcs.length * N.arcs.length ≤ fuel) (a : α) :
    a ∈ (N.drain floor fuel (start seeds)).crossed ↔ N.Crosses floor seeds a := by
  obtain ⟨k, h⟩ : ∃ k, N.Inv floor seeds k [] [] (N.drain floor fuel (start seeds)) :=
    N.inv_drain hfuel
  refine ⟨h.sound a, ?_⟩
  rintro ⟨ha, p, hwalk, hp⟩
  have hnonneg : 0 ≤ p := hwalk.nonneg
  have habove : floor ≤ p := hp.trans (mul_le_of_le_one_right hnonneg (N.le_one a))
  have hknown := h.walk_le hfloor hwalk habove
  have hmul := mul_le_mul_of_nonneg_right hknown (N.nonneg a)
  rcases h.settled _ (hfloor.trans_le (habove.trans hknown)) with hqueue | hdone
  · rw [h.queue] at hqueue
    cases hqueue
  · exact (hdone a ha rfl (hp.trans hmul)).1

end Seeds

end BestProducts
