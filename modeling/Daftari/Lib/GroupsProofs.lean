import Daftari.Lib.AssocProofs
import Mathlib.Data.List.Induction

/-! # Groups — the elements of a list by key

    A map from keys to lists, filled by going through a list once: every element
    is pushed under its key.

    * `push`, `collect`: filling the map;
    * `lookup_collect`: what is under a key;
    * `collect_eq`: **the keys in the order they first came up, each with its
      elements in order.** -/

namespace Groups

variable {κ β : Type*} [BEq κ] [LawfulBEq κ] [DecidableEq κ]

/-- Append a value to the list of a key, which is empty at first. -/
def push (m : List (κ × List β)) (k : κ) (v : β) : List (κ × List β) :=
  Assoc.set m k ((m.lookup k).getD [] ++ [v])

/-- Every element pushed under its key. -/
def collect (key : β → κ) (l : List β) : List (κ × List β) :=
  l.foldl (fun m a => push m (key a) a) []

variable (key : β → κ)

omit [LawfulBEq κ] in
theorem collect_append (l : List β) (a : β) :
    collect key (l ++ [a]) = push (collect key l) (key a) a := by
  unfold collect
  rw [List.foldl_append]
  rfl

theorem lookup_collect (l : List β) (k : κ) :
    ((collect key l).lookup k).getD [] = l.filter fun a => key a = k := by
  induction l using List.reverseRecOn with
  | nil => rfl
  | append_singleton l a ih =>
      rw [collect_append, push, Assoc.lookup_set, List.filter_append, ← ih]
      by_cases hk : k = key a
      · subst hk
        simp
      · have hne : ¬ key a = k := fun h => hk h.symm
        rw [if_neg hk]
        simp [hne]

omit [DecidableEq κ] in
theorem eraseDups_concat (l : List κ) (a : κ) :
    (l ++ [a]).eraseDups = if a ∈ l then l.eraseDups else l.eraseDups ++ [a] := by
  rw [List.eraseDups_append]
  by_cases ha : a ∈ l
  · simp [List.removeAll, ha]
  · simp [List.removeAll, ha, List.eraseDups_cons]

omit [DecidableEq κ] in
theorem nodup_eraseDups (l : List κ) : l.eraseDups.Nodup := by
  induction l using List.reverseRecOn with
  | nil => exact List.nodup_nil
  | append_singleton l a ih =>
      rw [eraseDups_concat]
      split
      · exact ih
      · rename_i ha
        refine List.nodup_append.mpr ⟨ih, List.nodup_singleton a, ?_⟩
        intro x hx y hy
        rw [List.mem_singleton.mp hy]
        rintro rfl
        exact ha (List.mem_eraseDups.mp hx)

omit [BEq κ] [LawfulBEq κ] in
theorem set_map {ks : List κ} (hks : ks.Nodup) (f : κ → β) {k : κ} (hk : k ∈ ks) (v : β) :
    Assoc.set (ks.map fun k => (k, f k)) k v =
      ks.map fun k' => (k', if k' = k then v else f k') := by
  induction ks with
  | nil => cases hk
  | cons k' ks ih =>
      obtain ⟨hk', hnd⟩ := List.nodup_cons.mp hks
      rw [List.map_cons, List.map_cons]
      unfold Assoc.set
      by_cases he : k' = k
      · subst he
        rw [if_pos rfl, if_pos rfl]
        refine congrArg (_ :: ·) (List.map_congr_left fun x hx => ?_)
        have hne : ¬ x = k' := by
          rintro rfl
          exact hk' hx
        rw [if_neg hne]
      · rw [if_neg he, if_neg he, ih hnd ((List.mem_cons.mp hk).resolve_left (Ne.symm he))]

/-- **The groups of a list**, in the order their keys first came up. -/
theorem collect_eq (l : List β) : collect key l
      = (l.map key).eraseDups.map fun k => (k, l.filter fun a => key a = k) := by
  induction l using List.reverseRecOn with
  | nil => rfl
  | append_singleton l a ih =>
      have hfilter : ∀ k, ((l ++ [a]).filter fun b => key b = k)
          = if k = key a then (l.filter fun b => key b = key a) ++ [a]
            else l.filter fun b => key b = k := by
        intro k
        by_cases hk : k = key a
        · subst hk
          simp
        · have hne : ¬ key a = k := fun h => hk h.symm
          simp [hk, hne]
      rw [collect_append, push, lookup_collect, ih, List.map_append, List.map_singleton,
        eraseDups_concat]
      simp only [hfilter]
      by_cases hk : key a ∈ l.map key
      · rw [if_pos hk]
        exact set_map (nodup_eraseDups _) _ (List.mem_eraseDups.mpr hk) _
      · have hnone : (l.filter fun b => key b = key a) = [] := by
          refine List.filter_eq_nil_iff.mpr fun b hb => ?_
          rw [decide_eq_true_eq]
          rintro he
          exact hk (he ▸ List.mem_map_of_mem hb)
        have hnew : key a ∉ Assoc.keys ((l.map key).eraseDups.map
            fun k => (k, l.filter fun b => key b = k)) := by
          rw [Assoc.keys, List.map_map]
          intro hmem
          obtain ⟨k, hkin, rfl⟩ := List.mem_map.mp hmem
          exact hk (List.mem_eraseDups.mp hkin)
        rw [if_neg hk, Assoc.set_of_not_mem _ hnew, List.map_append, List.map_singleton, if_pos rfl,
          hnone]
        refine congrArg (· ++ _) (List.map_congr_left fun k hkin => ?_)
        have hne : ¬ k = key a := by
          rintro rfl
          exact hk (List.mem_eraseDups.mp hkin)
        rw [if_neg hne]

omit [BEq κ] [LawfulBEq κ] in
/-- Cut by distinct keys that it needs, a list is all there, once. -/
theorem flatMap_filter_perm {ks : List κ} (hks : ks.Nodup) {l : List β}
    (hl : ∀ a ∈ l, key a ∈ ks) : (ks.flatMap fun k => l.filter fun a => key a = k).Perm l := by
  induction ks generalizing l with
  | nil =>
      rw [List.eq_nil_iff_forall_not_mem.mpr fun a ha => List.not_mem_nil (hl a ha)]
      rfl
  | cons k ks ih =>
      obtain ⟨hk, hnd⟩ := List.nodup_cons.mp hks
      have hrest : ∀ k' ∈ ks, (l.filter fun a => key a = k') =
          (l.filter fun a => !decide (key a = k)).filter fun a => key a = k' := by
        intro k' hk'
        rw [List.filter_filter]
        refine List.filter_congr fun a _ => ?_
        by_cases he : key a = k'
        · have hne : key a ≠ k := fun h => hk (h ▸ he ▸ hk')
          simp [he, he ▸ hne]
        · simp [he]
      rw [List.flatMap_cons, List.flatMap_congr hrest]
      refine ((ih hnd fun a ha => ?_).append_left _).trans (List.filter_append_perm _ l)
      obtain ⟨ha, hne⟩ := List.mem_filter.mp ha
      exact (List.mem_cons.mp (hl a ha)).resolve_left (by simpa using hne)
end Groups
