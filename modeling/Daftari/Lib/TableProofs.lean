import Daftari.Lib.AssocProofs
import Mathlib.Data.List.Perm.Subperm

/-! # Tables — finite maps whose keys are distinct by construction

    An association list together with the fact that no key occurs twice.  What
    a table holds is what `find` says, and every operation is described by what
    it does to `find`, so that no later proof looks at the list.

    * `Table.find_set`, `Table.find_erase`, `Table.find_filter`, `Table.find_ofKeys`:
      the operations;
    * `Table.mem_keys`: a key is listed exactly when it finds something;
    * `Table.agrees_iff`: **the comparison by size and by the entries of one
      side decides that two tables find the same everywhere**. -/

/-- A finite map. -/
structure Table (κ β : Type*) where
  entries : List (κ × β)
  nodup : (Assoc.keys entries).Nodup
deriving DecidableEq

namespace Table

variable {κ β : Type*} [BEq κ] [LawfulBEq κ]

def keys (t : Table κ β) : List κ := Assoc.keys t.entries

/-- What is stored under a key. -/
def find (t : Table κ β) (k : κ) : Option β := t.entries.lookup k

/-- Nothing is stored. -/
def empty : Table κ β := ⟨[], List.nodup_nil⟩

omit [LawfulBEq κ] in
@[simp] theorem find_empty (k : κ) : (empty : Table κ β).find k = none := rfl

variable (t : Table κ β)

omit [BEq κ] [LawfulBEq κ] in
theorem nodup_keys : t.keys.Nodup := t.nodup

theorem mem_entries {t : Table κ β} {k : κ} {v : β} : (k, v) ∈ t.entries ↔ t.find k = some v :=
  ⟨Assoc.lookup_of_mem t.nodup, Assoc.mem_of_lookup⟩

theorem mem_keys {t : Table κ β} {k : κ} : k ∈ t.keys ↔ t.find k ≠ none := by
  constructor
  · intro hk
    obtain ⟨⟨k', v⟩, he, rfl⟩ := List.mem_map.mp hk
    rw [mem_entries.mp he]
    exact Option.some_ne_none v
  · intro hk
    obtain ⟨v, hv⟩ := Option.ne_none_iff_exists'.mp hk
    exact List.mem_map.mpr ⟨(k, v), mem_entries.mpr hv, rfl⟩

variable [DecidableEq κ]

/-! ## Operations -/

/-- Store a value. -/
def set (t : Table κ β) (k : κ) (v : β) : Table κ β :=
  ⟨Assoc.set t.entries k v, Assoc.nodup_set k v t.nodup⟩

/-- Drop a key. -/
def erase (t : Table κ β) (k : κ) : Table κ β :=
  ⟨Assoc.remove t.entries [k], Assoc.nodup_remove [k] t.nodup⟩

def filter (t : Table κ β) (keep : κ → β → Bool) : Table κ β :=
  ⟨t.entries.filter fun e => keep e.1 e.2,
    t.nodup.sublist (List.filter_sublist.map Prod.fst)⟩

/-- Change every value. -/
def mapValues {γ : Type*} (t : Table κ β) (f : β → γ) : Table κ γ :=
  ⟨t.entries.map fun e => (e.1, f e.2), by
    show (Assoc.keys (t.entries.map fun e => (e.1, f e.2))).Nodup
    unfold Assoc.keys
    rw [List.map_map]
    exact t.nodup⟩

def ofKeys (ks : List κ) (f : κ → Option β) : Table κ β :=
  ks.foldl (fun t k => match f k with
    | some v => t.set k v
    | none => t) empty

theorem find_set (k k₀ : κ) (v : β) : (t.set k v).find k₀ = if k₀ = k then some v else t.find k₀ :=
  Assoc.lookup_set t.entries k k₀ v

@[simp] theorem find_set_self (k : κ) (v : β) : (t.set k v).find k = some v :=
  Assoc.lookup_set_self t.entries k v

theorem find_set_of_ne {k k₀ : κ} (v : β) (h : k₀ ≠ k) : (t.set k v).find k₀ = t.find k₀ :=
  Assoc.lookup_set_of_ne t.entries v h

omit [DecidableEq κ] in
@[simp] theorem find_erase_self (k : κ) : (t.erase k).find k = none := by
  by_contra h
  obtain ⟨⟨k', v⟩, he, hk⟩ := List.mem_map.mp (mem_keys.mpr h)
  have hnot := of_decide_eq_true (List.mem_filter.mp he).2
  exact hnot (List.mem_singleton.mpr hk)

omit [DecidableEq κ] in
theorem find_erase_of_ne {k k₀ : κ} (h : k₀ ≠ k) : (t.erase k).find k₀ = t.find k₀ :=
  Assoc.lookup_remove_of_not_mem t.entries fun hmem => h (List.mem_singleton.mp hmem)

theorem find_erase (k k₀ : κ) : (t.erase k).find k₀ = if k₀ = k then none else t.find k₀ := by
  by_cases h : k₀ = k
  · rw [if_pos h, h, find_erase_self]
  · rw [if_neg h, find_erase_of_ne t h]

omit [DecidableEq κ] in
theorem find_filter (keep : κ → β → Bool) (k : κ) :
    (t.filter keep).find k = (t.find k).filter (keep k) := by
  cases hk : t.find k with
  | none =>
      by_contra hne
      obtain ⟨v, hv⟩ := Option.ne_none_iff_exists'.mp hne
      have hmem := (List.mem_filter.mp (mem_entries.mpr hv)).1
      rw [mem_entries.mp hmem] at hk
      cases hk
  | some v =>
      have hmem : (k, v) ∈ t.entries := mem_entries.mpr hk
      by_cases hkeep : keep k v = true
      · rw [Option.filter_some_pos hkeep]
        exact mem_entries.mp (List.mem_filter.mpr ⟨hmem, hkeep⟩)
      · rw [Option.filter_some_neg (by simpa using hkeep)]
        by_contra hne
        obtain ⟨w, hw⟩ := Option.ne_none_iff_exists'.mp hne
        obtain ⟨hw', hkeep'⟩ := List.mem_filter.mp (mem_entries.mpr hw)
        rw [mem_entries.mp hw'] at hk
        obtain rfl := Option.some.inj hk
        exact hkeep hkeep'

omit [LawfulBEq κ] [DecidableEq κ] in
theorem find_mapValues {γ : Type*} (f : β → γ) (k : κ) :
    (t.mapValues f).find k = (t.find k).map f := by
  show (t.entries.map fun e => (e.1, f e.2)).lookup k = (t.entries.lookup k).map f
  induction t.entries with
  | nil => rfl
  | cons e entries ih =>
      rw [List.map_cons, List.lookup_cons, List.lookup_cons]
      cases k == e.1 with
      | true => rfl
      | false => exact ih

private theorem find_foldl_set (f : κ → Option β) (ks : List κ) (t : Table κ β) (k : κ)
    (ht : ∀ k, t.find k ≠ none → t.find k = f k) :
    (ks.foldl (fun t k => match f k with
      | some v => t.set k v
      | none => t) t).find k = if k ∈ ks then f k else t.find k := by
  induction ks generalizing t with
  | nil => simp
  | cons k' ks ih =>
      -- the table after the head finds `f` at the head and what it did elsewhere
      have hhead : ∀ k₀, (match f k' with
          | some v => t.set k' v
          | none => t).find k₀ = if k₀ = k' then f k' else t.find k₀ := by
        intro k₀
        cases hf : f k' with
        | some v => exact find_set t k' k₀ v
        | none =>
            show t.find k₀ = _
            by_cases hk : k₀ = k'
            · subst hk
              rw [if_pos rfl]
              by_contra hne
              exact hne ((ht k₀ hne).trans hf)
            · rw [if_neg hk]
      rw [List.foldl_cons, ih]
      · rw [hhead]
        by_cases hk : k = k'
        · subst hk
          simp
        · rw [if_neg hk]
          simp [hk]
      · intro k₀ hne
        rw [hhead] at hne ⊢
        by_cases hk : k₀ = k'
        · rw [if_pos hk, hk]
        · rw [if_neg hk] at hne ⊢
          exact ht k₀ hne

theorem find_ofKeys (ks : List κ) (f : κ → Option β) (k : κ) :
    (ofKeys ks f).find k = if k ∈ ks then f k else none :=
  find_foldl_set f ks empty k fun k hk => absurd (find_empty k) hk

/-! ## Comparison -/

variable [DecidableEq β]

/-- Compare two tables by their sizes and by what each entry of the first finds in the second. -/
def agrees (a b : Table κ β) : Bool :=
  a.entries.length = b.entries.length &&
    a.entries.all fun e => decide (b.find e.1 = some e.2)

omit [DecidableEq κ] in
/-- **Tables that agree find the same everywhere**: as many distinct keys, all of
    them among the other's, are the other's keys. -/
theorem agrees_iff {a b : Table κ β} : a.agrees b = true ↔ ∀ k, a.find k = b.find k := by
  unfold agrees
  rw [Bool.and_eq_true, decide_eq_true_eq, List.all_eq_true]
  constructor
  · rintro ⟨hlen, hall⟩ k
    have hfind : ∀ k v, a.find k = some v → b.find k = some v := fun k v hv =>
      of_decide_eq_true (hall (k, v) (mem_entries.mpr hv))
    have hsub : a.keys ⊆ b.keys := by
      intro k₀ hk
      obtain ⟨v, hv⟩ := Option.ne_none_iff_exists'.mp (mem_keys.mp hk)
      rw [mem_keys, hfind k₀ v hv]
      exact Option.some_ne_none v
    have hsame : b.keys.length ≤ a.keys.length := by
      show (b.entries.map Prod.fst).length ≤ (a.entries.map Prod.fst).length
      rw [List.length_map, List.length_map]
      exact Nat.le_of_eq hlen.symm
    have hperm := (List.subperm_of_subset a.nodup_keys hsub).perm_of_length_le hsame
    cases hk : a.find k with
    | some v => exact (hfind k v hk).symm
    | none =>
        by_contra hne
        have hb : k ∈ b.keys := mem_keys.mpr (Ne.symm hne)
        exact mem_keys.mp (hperm.mem_iff.mpr hb) hk
  · intro h
    have hmem : ∀ k, k ∈ a.keys ↔ k ∈ b.keys := fun k => by rw [mem_keys, mem_keys, h k]
    have hperm := (List.perm_ext_iff_of_nodup a.nodup_keys b.nodup_keys).mpr hmem
    refine ⟨?_, ?_⟩
    · have hlen := hperm.length_eq
      show a.entries.length = b.entries.length
      simpa [keys, Assoc.keys] using hlen
    · rintro ⟨k, v⟩ he
      rw [← h k, mem_entries.mp he]
      exact decide_eq_true rfl

end Table
