import Mathlib.Data.List.Sort
import Mathlib.Order.Std

/-! # Stable sorting by a comparator

    A comparator of the `Ordering` kind that is only a total preorder does not determine the order
    of its ties: a stable sort leaves them as they came. So the same elements handed over in another
    order may come out in another order, and they do as soon as two different elements tie.

    * `Stable.sort_eq_of_perm`: without ties of different elements the result depends on the
      elements alone;
    * `Stable.exists_perm_sort_ne`: with one such tie it does not;
    * `Stable.Before`, `Stable.before_sort_iff`: **who comes out before whom**, by the comparator,
      and in a tie by the order of arrival. -/

namespace Stable

variable {α : Type*} (cmp : α → α → Ordering)

/-- The comparator read as "may stand before". -/
def Le (a b : α) : Prop := cmp a b ≠ .gt

instance : DecidableRel (Le cmp) := fun a b =>
  inferInstanceAs (Decidable (cmp a b ≠ .gt))

/-- Stable sorting by a comparator. -/
def sort (l : List α) : List α := l.insertionSort (Le cmp)

theorem sort_perm (l : List α) : (sort cmp l).Perm l :=
  List.perm_insertionSort _ l

variable {l : List α}

theorem exists_head?_sort (h : l ≠ []) : ∃ a ∈ l, (sort cmp l).head? = some a := by
  cases hs : sort cmp l with
  | nil =>
      have hnil := sort_perm cmp l
      rw [hs, List.nil_perm] at hnil
      exact absurd hnil h
  | cons a t =>
      refine ⟨a, (sort_perm cmp l).mem_iff.mp ?_, rfl⟩
      rw [hs]
      exact List.mem_cons_self

theorem transCmp_on {β : Type*} (cmp : β → β → Ordering) [Std.TransCmp cmp]
    (f : α → β) : Std.TransCmp (fun a b => cmp (f a) (f b)) where
  eq_swap := Std.OrientedCmp.eq_swap
  isLE_trans := Std.TransCmp.isLE_trans

variable [Std.TransCmp cmp]

instance : Std.Total (Le cmp) where
  total a b := by
    cases h : cmp a b with
    | lt => exact Or.inl (by rw [Le, h]; decide)
    | eq => exact Or.inl (by rw [Le, h]; decide)
    | gt =>
        have hswap : cmp b a = (cmp a b).swap := Std.OrientedCmp.eq_swap
        exact Or.inr (by rw [Le, hswap, h]; decide)

instance : IsTrans α (Le cmp) where
  trans a b c hab hbc := by
    have h₁ : (cmp a b).isLE := by
      cases h : cmp a b <;> simp_all [Le, Ordering.isLE]
    have h₂ : (cmp b c).isLE := by
      cases h : cmp b c <;> simp_all [Le, Ordering.isLE]
    have h₃ : (cmp a c).isLE := Std.TransCmp.isLE_trans h₁ h₂
    intro hgt
    rw [hgt] at h₃
    cases h₃

theorem sort_pairwise (l : List α) : (sort cmp l).Pairwise (Le cmp) :=
  List.pairwise_insertionSort _ l

theorem le_of_head?_sort {a b : α} (ha : (sort cmp l).head? = some a) (hb : b ∈ l) :
    a = b ∨ Le cmp a b := by
  obtain ⟨t, ht⟩ := List.head?_eq_some_iff.mp ha
  have hpair := sort_pairwise cmp l
  have hmem := (sort_perm cmp l).mem_iff.mpr hb
  rw [ht] at hpair hmem
  rcases List.mem_cons.mp hmem with rfl | hmem
  · exact Or.inl rfl
  · exact Or.inr ((List.pairwise_cons.mp hpair).1 b hmem)

omit [Std.TransCmp cmp] in
theorem eq_of_le_of_le [Std.OrientedCmp cmp] {a b : α} (hab : Le cmp a b)
    (hba : Le cmp b a) : cmp a b = .eq := by
  cases h : cmp a b with
  | lt =>
      refine absurd ?_ hba
      have hswap : cmp b a = (cmp a b).swap := Std.OrientedCmp.eq_swap
      rw [hswap, h]
      rfl
  | eq => rfl
  | gt => exact absurd h hab

/-- **Without ties the order of arrival is forgotten.** -/
theorem sort_eq_of_perm {l' : List α} (hp : l.Perm l')
    (htie : ∀ a ∈ l, ∀ b ∈ l, cmp a b = .eq → a = b) : sort cmp l = sort cmp l' := by
  have hs : (sort cmp l).Perm (sort cmp l') :=
    (sort_perm cmp l).trans (hp.trans (sort_perm cmp l').symm)
  refine hs.eq_of_pairwise ?_ (sort_pairwise cmp l) (sort_pairwise cmp l')
  intro a b ha hb hab hba
  have ha' : a ∈ l := (sort_perm cmp l).mem_iff.mp ha
  have hb' : b ∈ l := hp.mem_iff.mpr ((sort_perm cmp l').mem_iff.mp hb)
  exact htie a ha' b hb' (eq_of_le_of_le cmp hab hba)

theorem filter_sort (a : α) (l : List α) : (sort cmp l).filter (fun x => cmp a x == .eq)
      = l.filter (fun x => cmp a x == .eq) := by
  have hpair : (l.filter (fun x => cmp a x == .eq)).Pairwise (Le cmp) := by
    refine List.Pairwise.imp_of_mem (R := fun _ _ => True) ?_
      (List.pairwise_of_forall (fun _ _ => trivial))
    intro x y hx hy _
    have hx' : cmp a x = .eq := by simpa using (List.mem_filter.mp hx).2
    have hy' : cmp a y = .eq := by simpa using (List.mem_filter.mp hy).2
    have hxa : cmp x a = .eq := Std.OrientedCmp.eq_symm hx'
    have hxy : cmp x y = .eq := Std.TransCmp.eq_trans hxa hy'
    rw [Le, hxy]
    decide
  have hsub : (l.filter (fun x => cmp a x == .eq)).Sublist (sort cmp l) :=
    List.sublist_insertionSort hpair List.filter_sublist
  have hsub' := hsub.filter (fun x => cmp a x == .eq)
  rw [List.filter_filter] at hsub'
  simp only [Bool.and_self] at hsub'
  have hlen := ((sort_perm cmp l).filter (fun x => cmp a x == .eq)).length_eq
  exact (hsub'.eq_of_length hlen.symm).symm

/-- **With a tie the order of arrival shows.**  If two different elements tie,
    some rearrangement of the list sorts differently. -/
theorem exists_perm_sort_ne {a b : α} (ha : a ∈ l) (hb : b ∈ l) (hne : a ≠ b)
    (htie : cmp a b = .eq) : ∃ l' : List α, l'.Perm l ∧ sort cmp l' ≠ sort cmp l := by
  obtain ⟨s, t, rfl⟩ := List.append_of_mem ha
  have hb' : b ∈ s ++ t := by
    simp only [List.mem_append, List.mem_cons] at hb ⊢
    rcases hb with hb | hb | hb
    · exact Or.inl hb
    · exact absurd hb.symm hne
    · exact Or.inr hb
  obtain ⟨u, v, huv⟩ := List.append_of_mem hb'
  have hpa : (a :: b :: (u ++ v)).Perm (s ++ a :: t) := by
    refine List.Perm.trans ?_ List.perm_middle.symm
    rw [huv]
    exact List.Perm.cons a List.perm_middle.symm
  have hpb : (b :: a :: (u ++ v)).Perm (s ++ a :: t) :=
    (List.Perm.swap a b _).trans hpa
  by_contra hnone
  push Not at hnone
  have heq : sort cmp (a :: b :: (u ++ v)) = sort cmp (b :: a :: (u ++ v)) :=
    (hnone _ hpa).trans (hnone _ hpb).symm
  have hf := congrArg (List.filter (fun x => cmp a x == .eq)) heq
  rw [filter_sort, filter_sort] at hf
  simp only [List.filter_cons, htie, Std.ReflCmp.compare_self, BEq.rfl, if_true,
    List.cons.injEq] at hf
  exact hne hf.1

/-! ## Who stands before whom -/

/-- One place of `x` is before one of `y`. -/
def Before (l : List α) (x y : α) : Prop := [x, y].Sublist l

variable {x y : α}

omit [Std.TransCmp cmp] in
theorem before_or (hx : x ∈ l) (hy : y ∈ l) (hne : x ≠ y) : Before l x y ∨ Before l y x := by
  obtain ⟨s, t, rfl⟩ := List.append_of_mem hx
  rcases List.mem_append.mp hy with hy | hy
  · right
    have hsub := (List.singleton_sublist.mpr hy).append
      (List.singleton_sublist.mpr (List.mem_cons_self (a := x) (l := t)))
    exact hsub
  · left
    rcases List.mem_cons.mp hy with hy | hy
    · exact absurd hy.symm hne
    · exact ((List.singleton_sublist.mpr hy).cons_cons x).trans (List.sublist_append_right s _)

omit [Std.TransCmp cmp] in
theorem not_before_of_before (h : l.Nodup) (hxy : Before l x y) : ¬ Before l y x := by
  intro hyx
  induction l with
  | nil => cases hxy
  | cons a l ih =>
      obtain ⟨ha, hl⟩ := List.nodup_cons.mp h
      cases hxy with
      | cons _ hxy =>
          cases hyx with
          | cons _ hyx => exact ih hl hxy hyx
          | cons_cons _ hyx => exact ha (hxy.subset (List.mem_cons_of_mem _ List.mem_cons_self))
      | cons_cons _ hxy =>
          cases hyx with
          | cons _ hyx => exact ha (hyx.subset (List.mem_cons_of_mem _ List.mem_cons_self))
          | cons_cons _ hyx => exact ha (hxy.subset List.mem_cons_self)

theorem before_sort_of_lt (hx : x ∈ l) (hy : y ∈ l) (h : cmp x y = .lt) :
    Before (sort cmp l) x y := by
  have hne : x ≠ y := by
    rintro rfl
    have hself : cmp x x = .eq := Std.ReflCmp.compare_self
    rw [hself] at h
    cases h
  refine (before_or ((sort_perm cmp l).mem_iff.mpr hx) ((sort_perm cmp l).mem_iff.mpr hy)
    hne).resolve_right fun hyx => ?_
  have hle : Le cmp y x :=
    (List.pairwise_cons.mp ((sort_pairwise cmp l).sublist hyx)).1 x List.mem_cons_self
  have hswap : cmp y x = (cmp x y).swap := Std.OrientedCmp.eq_swap
  rw [Le, hswap, h] at hle
  exact hle rfl

/-- **Who comes out before whom.** -/
theorem before_sort_iff (h : l.Nodup) (hx : x ∈ l) (hy : y ∈ l) :
    Before (sort cmp l) x y ↔ cmp x y = .lt ∨ cmp x y = .eq ∧ Before l x y := by
  have hnodup : (sort cmp l).Nodup := (sort_perm cmp l).nodup_iff.mpr h
  have htie : ∀ {u v : α}, cmp u v = .eq → Before l u v → Before (sort cmp l) u v := by
    intro u v heq huv
    refine List.pair_sublist_insertionSort ?_ huv
    rw [Le, heq]
    decide
  constructor
  · intro hxy
    have hle : Le cmp x y :=
      (List.pairwise_cons.mp ((sort_pairwise cmp l).sublist hxy)).1 y List.mem_cons_self
    cases hcmp : cmp x y with
    | lt => exact Or.inl rfl
    | gt => exact absurd hcmp hle
    | eq =>
        refine Or.inr ⟨rfl, ?_⟩
        have hne : x ≠ y := by
          rintro rfl
          exact not_before_of_before hnodup hxy hxy
        refine (before_or hx hy hne).resolve_right fun hyx => ?_
        exact not_before_of_before hnodup hxy (htie (Std.OrientedCmp.eq_symm hcmp) hyx)
  · rintro (hlt | ⟨heq, hxy⟩)
    · exact before_sort_of_lt cmp hx hy hlt
    · exact htie heq hxy

omit [Std.TransCmp cmp] in
theorem before_of_cut {n : Nat} (hx : x ∈ l.take n) (hy : y ∈ l) (hcut : y ∉ l.take n) :
    Before l x y := by
  have hdrop : y ∈ l.drop n := by
    rw [← List.take_append_drop n l] at hy
    exact (List.mem_append.mp hy).resolve_left hcut
  have hsub := (List.singleton_sublist.mpr hx).append (List.singleton_sublist.mpr hdrop)
  rwa [List.take_append_drop] at hsub

omit [Std.TransCmp cmp] in
theorem exists_cut (h : l.Nodup) (hxy : Before l x y) :
    ∃ n, 1 ≤ n ∧ n ≤ l.length ∧ x ∈ l.take n ∧ y ∉ l.take n := by
  induction l with
  | nil => cases hxy
  | cons a l ih =>
      obtain ⟨ha, hl⟩ := List.nodup_cons.mp h
      cases hxy with
      | cons _ hxy =>
          obtain ⟨n, hn, hlen, hx, hy⟩ := ih hl hxy
          refine ⟨n + 1, by omega, by rw [List.length_cons]; omega, ?_, ?_⟩
          · exact List.mem_cons_of_mem _ hx
          · intro hmem
            rcases List.mem_cons.mp hmem with rfl | hmem
            · exact ha (hxy.subset (List.mem_cons_of_mem _ List.mem_cons_self))
            · exact hy hmem
      | cons_cons _ hxy =>
          refine ⟨1, Nat.le_refl 1, by rw [List.length_cons]; omega, List.mem_cons_self, ?_⟩
          intro hmem
          rw [List.take_succ_cons, List.take_zero, List.mem_singleton] at hmem
          exact ha (hmem ▸ List.singleton_sublist.mp hxy)

end Stable
