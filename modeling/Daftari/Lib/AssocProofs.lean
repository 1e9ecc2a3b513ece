import Mathlib.Data.List.Nodup
import Mathlib.Data.List.Basic
import Mathlib.Tactic.Common

/-! # Ordered maps — association lists that keep insertion order

    The list of entries of a map whose iteration order is the order in which the keys first
    appeared: writing a key that is there replaces its value in place, writing a new key appends.
    `lookup` is the library's own.

    * `Assoc.set` with its `lookup` and `keys` lemmas;
    * `Assoc.keys_set`: the key order after a write, which is what an iteration over the map can
      see;
    * `Assoc.nodup_set`: keys stay distinct;
    * `Assoc.lastBy`: the map made of a list by a key, where the last entry of a key wins;
    * `Assoc.Touches`: **a chain of writes and removals of certain keys** leaves every other key
      alone and keeps the keys distinct. -/

namespace Assoc

variable {κ β : Type*} [BEq κ] [LawfulBEq κ]

/-- The keys in iteration order. -/
def keys (m : List (κ × β)) : List κ := m.map Prod.fst

variable {k : κ}

theorem lookup_cons_of_ne (m : List (κ × β)) {k' : κ} (v : β) (h : k ≠ k') :
    ((k', v) :: m).lookup k = m.lookup k := by
  rw [List.lookup_cons, beq_false_of_ne h]

variable {m : List (κ × β)}

theorem lookup_of_mem (h : (keys m).Nodup) {v : β} (hm : (k, v) ∈ m) : m.lookup k = some v := by
  induction m with
  | nil => cases hm
  | cons e m ih =>
      obtain ⟨k', v'⟩ := e
      obtain ⟨hk', hnd⟩ := List.nodup_cons.mp h
      rcases List.mem_cons.mp hm with hm | hm
      · obtain ⟨rfl, rfl⟩ := Prod.mk.inj hm
        exact List.lookup_cons_self
      · have hmem : k ∈ keys m := List.mem_map.mpr ⟨(k, v), hm, rfl⟩
        have hne : k ≠ k' := fun he => hk' (he ▸ hmem)
        rw [lookup_cons_of_ne _ _ hne]
        exact ih hnd hm

theorem mem_of_lookup {v : β} (h : m.lookup k = some v) : (k, v) ∈ m := by
  induction m with
  | nil => cases h
  | cons e m ih =>
      obtain ⟨k', v'⟩ := e
      by_cases hk : k = k'
      · subst hk
        rw [List.lookup_cons_self] at h
        obtain rfl := Option.some.inj h
        exact List.mem_cons_self
      · rw [lookup_cons_of_ne _ _ hk] at h
        exact List.mem_cons_of_mem _ (ih h)

theorem filter_eq_of_lookup [DecidableEq κ] (h : (keys m).Nodup) {v : β}
    (hk : m.lookup k = some v) : m.filter (fun e => e.1 = k) = [(k, v)] := by
  induction m with
  | nil => cases hk
  | cons e m ih =>
      obtain ⟨k', v'⟩ := e
      obtain ⟨hk', hnd⟩ := List.nodup_cons.mp h
      by_cases he : k = k'
      · subst he
        rw [List.lookup_cons_self] at hk
        obtain rfl := Option.some.inj hk
        have hrest : m.filter (fun e => e.1 = k) = [] := by
          refine List.filter_eq_nil_iff.mpr fun e he => ?_
          rintro hkey
          exact hk' (List.mem_map.mpr ⟨e, he, of_decide_eq_true hkey⟩)
        rw [List.filter_cons_of_pos (by simp), hrest]
      · rw [lookup_cons_of_ne _ _ he] at hk
        rw [List.filter_cons_of_neg (by simpa using Ne.symm he)]
        exact ih hnd hk

theorem lookup_of_not_mem (h : k ∉ keys m) : m.lookup k = none := by
  cases hl : m.lookup k with
  | none => rfl
  | some v => exact absurd (List.mem_map_of_mem (f := Prod.fst) (mem_of_lookup hl)) h

variable [DecidableEq κ]

/-- Write a key: in place if it is there, at the end if not. -/
def set : List (κ × β) → κ → β → List (κ × β)
  | [], k, v => [(k, v)]
  | (k', v') :: m, k, v =>
      if k' = k then (k, v) :: m else (k', v') :: set m k v

@[simp] theorem lookup_set_self (m : List (κ × β)) (k : κ) (v : β) :
    (set m k v).lookup k = some v := by
  induction m with
  | nil => simp [set]
  | cons e m ih =>
      obtain ⟨k', v'⟩ := e
      unfold set
      by_cases h : k' = k
      · rw [if_pos h]
        simp
      · rw [if_neg h, lookup_cons_of_ne _ _ (Ne.symm h)]
        exact ih

theorem lookup_set_of_ne (m : List (κ × β)) {k₀ : κ} (v : β) (h : k₀ ≠ k) :
    (set m k v).lookup k₀ = m.lookup k₀ := by
  induction m with
  | nil => exact lookup_cons_of_ne [] v h
  | cons e m ih =>
      obtain ⟨k', v'⟩ := e
      unfold set
      by_cases hk : k' = k
      · subst hk
        rw [if_pos rfl, lookup_cons_of_ne _ _ h, lookup_cons_of_ne _ _ h]
      · rw [if_neg hk, List.lookup_cons, List.lookup_cons, ih]

theorem lookup_set (m : List (κ × β)) (k k₀ : κ) (v : β) :
    (set m k v).lookup k₀ = if k₀ = k then some v else m.lookup k₀ := by
  by_cases h : k₀ = k
  · rw [if_pos h, h, lookup_set_self]
  · rw [if_neg h, lookup_set_of_ne m v h]

omit [BEq κ] [LawfulBEq κ] in
theorem set_of_not_mem (v : β) (h : k ∉ keys m) : set m k v = m ++ [(k, v)] := by
  induction m with
  | nil => rfl
  | cons e m ih =>
      obtain ⟨k', v'⟩ := e
      have hk : k' ≠ k := by
        intro hk
        exact h (by simp [keys, hk])
      have hm : k ∉ keys m := by
        intro hm
        exact h (List.mem_cons_of_mem _ hm)
      show (if k' = k then (k, v) :: m else (k', v') :: set m k v) = _
      rw [if_neg hk, ih hm]
      rfl

theorem set_of_lookup {v : β} (h : m.lookup k = some v) : set m k v = m := by
  induction m with
  | nil => simp at h
  | cons e m ih =>
      obtain ⟨k', v'⟩ := e
      show (if k' = k then (k, v) :: m else (k', v') :: set m k v) = _
      by_cases hk : k' = k
      · subst hk
        simp only [List.lookup_cons, BEq.rfl] at h
        rw [if_pos rfl, Option.some.inj h]
      · rw [lookup_cons_of_ne _ _ (Ne.symm hk)] at h
        rw [if_neg hk, ih h]

theorem keys_set (m : List (κ × β)) (k : κ) (v : β) :
    keys (set m k v) = if k ∈ keys m then keys m else keys m ++ [k] := by
  induction m with
  | nil => rfl
  | cons e m ih =>
      obtain ⟨k', v'⟩ := e
      unfold set
      by_cases h : k' = k
      · subst h
        rw [if_pos rfl, if_pos (by simp [keys])]
        rfl
      · rw [if_neg h]
        show k' :: keys (set m k v) = _
        rw [ih]
        by_cases hm : k ∈ keys m
        · rw [if_pos hm, if_pos (by simp [keys] at hm ⊢; exact Or.inr hm)]
          rfl
        · rw [if_neg hm, if_neg ?_]
          · rfl
          · intro hc
            rcases List.mem_cons.mp hc with hc | hc
            · exact h hc.symm
            · exact hm hc

theorem nodup_set (k : κ) (v : β) (h : (keys m).Nodup) : (keys (set m k v)).Nodup := by
  rw [keys_set]
  split
  · exact h
  · rename_i hk
    rw [List.nodup_append]
    refine ⟨h, List.nodup_singleton k, ?_⟩
    intro a ha b hb
    rw [List.mem_singleton.mp hb]
    intro he
    exact hk (he ▸ ha)

theorem lookup_foldl_set (m : List (κ × β)) (ks : List κ) (k : κ) (v : β) :
    (ks.foldl (fun m k => set m k v) m).lookup k = if k ∈ ks then some v else m.lookup k := by
  induction ks generalizing m with
  | nil => simp
  | cons k' ks ih =>
      rw [List.foldl_cons, ih]
      by_cases hmem : k ∈ ks
      · rw [if_pos hmem, if_pos (List.mem_cons_of_mem k' hmem)]
      · rw [if_neg hmem]
        by_cases hk : k = k'
        · rw [hk, lookup_set_self, if_pos List.mem_cons_self]
        · rw [lookup_set_of_ne _ _ hk, if_neg (by simp [hk, hmem])]

/-! ## Maps made of a list -/

section LastBy

variable {α ι : Type*} [DecidableEq ι] {key : α → ι} {l : List α}

/-- The element a key finds when the elements of a list are written under their
    keys one after another. -/
def lastBy (key : α → ι) (l : List α) (k : ι) : Option α := l.reverse.find? fun a => key a = k

theorem mem_of_lastBy {k : ι} {a : α} (h : lastBy key l k = some a) : a ∈ l ∧ key a = k := by
  have hkey := List.find?_some h
  exact ⟨List.mem_reverse.mp (List.mem_of_find?_eq_some h), of_decide_eq_true hkey⟩

theorem lastBy_of_mem (h : (l.map key).Nodup) {a : α} (ha : a ∈ l) :
    lastBy key l (key a) = some a := by
  cases hl : lastBy key l (key a) with
  | none =>
      unfold lastBy at hl
      rw [List.find?_eq_none] at hl
      exact absurd (decide_eq_true rfl) (hl a (List.mem_reverse.mpr ha))
  | some b =>
      obtain ⟨hb, hkey⟩ := mem_of_lastBy hl
      rw [List.inj_on_of_nodup_map h hb ha hkey]

end LastBy

/-! ## Chains of writes and removals -/

/-- Without some keys. -/
def remove (m : List (κ × β)) (ks : List κ) : List (κ × β) :=
  m.filter fun e => e.1 ∉ ks

omit [DecidableEq κ] in
theorem lookup_remove_of_not_mem (m : List (κ × β)) {ks : List κ} (h : k ∉ ks) :
    (remove m ks).lookup k = m.lookup k := by
  induction m with
  | nil => rfl
  | cons e m ih =>
      obtain ⟨k', v'⟩ := e
      unfold remove
      rw [List.filter_cons]
      by_cases hk : k' ∉ ks
      · rw [if_pos (decide_eq_true hk), List.lookup_cons, List.lookup_cons]
        cases k == k' with
        | true => rfl
        | false => exact ih
      · rw [if_neg (by simpa using hk)]
        have hne : k ≠ k' := fun he => h (he ▸ not_not.mp hk)
        rw [lookup_cons_of_ne _ _ hne]
        exact ih

omit [DecidableEq κ] in
theorem nodup_remove (ks : List κ) (h : (keys m).Nodup) : (keys (remove m ks)).Nodup :=
  h.sublist (List.filter_sublist.map Prod.fst)

/-- `m'` comes from `m` by writes and removals of keys in `K`. -/
inductive Touches (K : κ → Prop) (m : List (κ × β)) : List (κ × β) → Prop where
  | refl : Touches K m m
  | set {m' : List (κ × β)} (h : Touches K m m') {k : κ} (hk : K k) (v : β) :
      Touches K m (set m' k v)
  | remove {m' : List (κ × β)} (h : Touches K m m') {ks : List κ}
      (hks : ∀ k ∈ ks, K k) : Touches K m (remove m' ks)

namespace Touches

variable {K : κ → Prop} {m m' m'' : List (κ × β)}

theorem trans (h : Touches K m m') (h' : Touches K m' m'') : Touches K m m'' := by
  induction h' with
  | refl => exact h
  | set _ hk v ih => exact ih.set hk v
  | remove _ hks ih => exact ih.remove hks

theorem mono {K' : κ → Prop} (hK : ∀ k, K k → K' k) (h : Touches K m m') : Touches K' m m' := by
  induction h with
  | refl => exact .refl
  | set _ hk v ih => exact ih.set (hK _ hk) v
  | remove _ hks ih => exact ih.remove fun k hk => hK k (hks k hk)

/-- **A key that is not touched is looked up as before.** -/
theorem lookup_eq (h : Touches K m m') {k : κ} (hk : ¬ K k) : m'.lookup k = m.lookup k := by
  induction h with
  | refl => rfl
  | @set m₁ _ k' hk' v ih =>
      have hne : k ≠ k' := by
        rintro rfl
        exact hk hk'
      rw [lookup_set_of_ne m₁ v hne, ih]
  | @remove m₁ _ ks hks ih =>
      rw [lookup_remove_of_not_mem m₁ (fun hmem => hk (hks k hmem)), ih]

theorem nodup (h : Touches K m m') (hm : (keys m).Nodup) : (keys m').Nodup := by
  induction h with
  | refl => exact hm
  | set _ _ v ih => exact nodup_set _ v ih
  | remove _ _ ih => exact nodup_remove _ ih

theorem foldl {α : Type*} {f : List (κ × β) → α → List (κ × β)} {l : List α}
    (hf : ∀ m, ∀ a ∈ l, Touches K m (f m a)) : Touches K m (l.foldl f m) := by
  induction l generalizing m with
  | nil => exact .refl
  | cons a l ih =>
      refine (hf m a List.mem_cons_self).trans (ih ?_)
      intro m₁ b hb
      exact hf m₁ b (List.mem_cons_of_mem a hb)

theorem foldl_fst {α γ : Type*} {f : List (κ × β) × γ → α → List (κ × β) × γ} {l : List α}
    (acc : List (κ × β) × γ) (hf : ∀ acc a, Touches K acc.1 (f acc a).1) :
    Touches K acc.1 (l.foldl f acc).1 := by
  induction l generalizing acc with
  | nil => exact .refl
  | cons a l ih =>
      exact (hf acc a).trans (ih _)

end Touches

end Assoc
