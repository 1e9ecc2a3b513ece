import Mathlib.Data.List.Infix
import Mathlib.Tactic.Common

/-! # `LIKE` — patterns, and the texts below a name

    `%` stands for any text, `_` for any character, and a backslash makes the next character
    stand for itself.  A name with `.%` after it is meant to match the texts that begin with the
    name and a dot.

    * `like`: matching;
    * `like_of_plain`: **a name without special characters matches what is below it**;
    * `exists_astray`: any other name matches a text that is neither the name nor below it. -/

namespace Like

/-- `s LIKE p`. -/
def like : List Char → List Char → Bool
  | [] => fun s => s.isEmpty
  | '%' :: p => fun s => s.tails.any (like p)
  | '_' :: p => fun
      | [] => false
      | _ :: s => like p s
  | '\\' :: c :: p => fun
      | [] => false
      | d :: s => d = c && like p s
  | c :: p => fun
      | [] => false
      | d :: s => d = c && like p s

example : like ['a', '_', '%'] ['a', 'b'] = true := by simp [like]

/-- A name none of whose characters is special. -/
def Plain (name : List Char) : Prop := ∀ c ∈ name, c ≠ '%' ∧ c ≠ '_' ∧ c ≠ '\\'

/-- The name, or a text below it. -/
def Under (name s : List Char) : Prop := s = name ∨ name ++ ['.'] <+: s

theorem like_cons_of_ne {c : Char} (hc : c ≠ '%' ∧ c ≠ '_' ∧ c ≠ '\\') (p s : List Char)
    (d : Char) : like (c :: p) (d :: s) = (d = c && like p s) := by
  rw [like]
  · exact hc.1
  · exact hc.2.1
  · exact fun _ _ h => absurd h hc.2.2

theorem like_cons_nil {c : Char} (hc : c ≠ '%' ∧ c ≠ '_' ∧ c ≠ '\\') (p : List Char) :
    like (c :: p) [] = false := by
  rw [like]
  · exact hc.1
  · exact hc.2.1
  · exact fun _ _ h => absurd h hc.2.2

theorem like_rest (s : List Char) : like ['%'] s = true := by
  show s.tails.any (fun t => t.isEmpty) = true
  rw [List.any_eq_true]
  exact ⟨[], (List.mem_tails _ _).mpr List.nil_suffix, rfl⟩

theorem like_percent {p s : List Char} (h : like p s = true) : like ('%' :: p) s = true := by
  show s.tails.any (like p) = true
  rw [List.any_eq_true]
  exact ⟨s, (List.mem_tails _ _).mpr List.suffix_rfl, h⟩

variable {name : List Char}

/-- **A plain name** with a dot and `%` matches the texts below it. -/
theorem like_of_plain (h : Plain name) (s : List Char) :
    like (name ++ ['.', '%']) s = true ↔ name ++ ['.'] <+: s := by
  induction name generalizing s with
  | nil =>
      cases s with
      | nil => simp [like]
      | cons d s => simp [like, like_rest, List.cons_prefix_cons, eq_comm]
  | cons c name ih =>
      have hc := h c List.mem_cons_self
      have hrest := ih fun d hd => h d (List.mem_cons_of_mem _ hd)
      cases s with
      | nil => simp [like_cons_nil hc]
      | cons d s =>
          rw [List.cons_append, like_cons_of_ne hc, Bool.and_eq_true, decide_eq_true_iff, hrest,
            List.cons_append, List.cons_prefix_cons, eq_comm]

/-- A text that `name.%` matches, without the part for the last `%`: every other `%` is left
    out, and what is escaped stands for itself. -/
def instanceOf : List Char → List Char
  | [] => ['.']
  | '%' :: p => instanceOf p
  | '_' :: p => '_' :: instanceOf p
  | ['\\'] => ['.']
  | '\\' :: c :: p => c :: instanceOf p
  | c :: p => c :: instanceOf p

example : instanceOf ['a', '%', '_'] = ['a', '_', '.'] := by simp [instanceOf]

private theorem ordinary {c : Char} {p : List Char} (h₁ : c = '%' → False)
    (h₂ : c = '_' → False) (h₃ : c = '\\' → p = [] → False)
    (h₄ : ∀ (d : Char) (q : List Char), c = '\\' → p = d :: q → False) :
    c ≠ '%' ∧ c ≠ '_' ∧ c ≠ '\\' := by
  refine ⟨h₁, h₂, fun h => ?_⟩
  cases p with
  | nil => exact h₃ h rfl
  | cons d q => exact h₄ d q h rfl

theorem like_instanceOf (name t : List Char) :
    like (name ++ ['.', '%']) (instanceOf name ++ t) = true := by
  induction name using instanceOf.induct with
  | case1 => simp [instanceOf, like, like_rest]
  | case2 p ih => exact like_percent ih
  | case3 p ih => exact ih
  | case4 => simp [instanceOf, like, like_rest]
  | case5 c p ih => simpa [instanceOf, like] using ih
  | case6 c p h₁ h₂ h₃ h₄ ih =>
      have hc := ordinary h₁ h₂ h₃ h₄
      rw [instanceOf, List.cons_append, List.cons_append, like_cons_of_ne hc, ih]
      · simp
      · exact hc.1
      · exact hc.2.1
      · exact fun h => absurd h hc.2.2
      · exact fun _ _ h => absurd h hc.2.2

theorem length_instanceOf (name : List Char) : (instanceOf name).length ≤ name.length + 1 ∧
      ('%' ∈ name ∨ '\\' ∈ name → (instanceOf name).length ≤ name.length) := by
  induction name using instanceOf.induct with
  | case1 => simp [instanceOf]
  | case2 p ih => exact ⟨by simp only [instanceOf, List.length_cons]; omega, fun _ => ih.1⟩
  | case3 p ih =>
      simp only [instanceOf, List.length_cons, List.mem_cons]
      refine ⟨by omega, fun h => ?_⟩
      have hrest := ih.2 (by simpa using h)
      omega
  | case4 => simp [instanceOf]
  | case5 c p ih => exact ⟨by simp only [instanceOf, List.length_cons]; omega, fun _ => by
      simp only [instanceOf, List.length_cons]; omega⟩
  | case6 c p h₁ h₂ h₃ h₄ ih =>
      have hc := ordinary h₁ h₂ h₃ h₄
      rw [instanceOf]
      · simp only [List.length_cons, List.mem_cons]
        refine ⟨by omega, fun h => ?_⟩
        have hrest := ih.2 (by simpa [hc.1.symm, hc.2.2.symm] using h)
        omega
      · exact hc.1
      · exact hc.2.1
      · exact fun h => absurd h hc.2.2
      · exact fun _ _ h => absurd h hc.2.2

theorem like_map (hpercent : '%' ∉ name) (hslash : '\\' ∉ name) :
    like (name ++ ['.', '%']) (name.map (fun c => if c = '_' then 'x' else c) ++ ['.']) = true := by
  induction name with
  | nil => simp [like, like_rest]
  | cons c name ih =>
      have hrest := ih (fun h => hpercent (List.mem_cons_of_mem _ h))
        fun h => hslash (List.mem_cons_of_mem _ h)
      by_cases hc : c = '_'
      · subst hc
        exact hrest
      · rw [List.map_cons, if_neg hc, List.cons_append, List.cons_append,
          like_cons_of_ne ⟨fun h => hpercent (h ▸ List.mem_cons_self), hc,
            fun h => hslash (h ▸ List.mem_cons_self)⟩, hrest]
        simp

/-- **A name with a special character** matches a text that is not below it. -/
theorem exists_astray (h : ¬ Plain name) :
    ∃ s, like (name ++ ['.', '%']) s = true ∧ ¬ Under name s := by
  by_cases hshort : '%' ∈ name ∨ '\\' ∈ name
  · -- the instance, with a character that ends neither the name nor a dot
    obtain ⟨x, hdot, hlast⟩ : ∃ x : Char, x ≠ '.' ∧ name.getLast? ≠ some x := by
      by_cases ha : name.getLast? = some 'a'
      · exact ⟨'b', by decide, by rw [ha]; decide⟩
      · exact ⟨'a', by decide, ha⟩
    refine ⟨instanceOf name ++ [x], like_instanceOf name [x], ?_⟩
    rintro (heq | hbelow)
    · exact hlast (by rw [← heq, List.getLast?_concat])
    · have hle := (length_instanceOf name).2 hshort
      have hlen := hbelow.length_le
      simp only [List.length_append, List.length_singleton] at hlen
      have hwhole : name ++ ['.'] = instanceOf name ++ [x] :=
        hbelow.eq_of_length (by simp only [List.length_append, List.length_singleton]; omega)
      have hends := (List.append_inj' hwhole rfl).2
      exact hdot (List.cons.inj hends).1.symm
  · -- only `_` is special in the name: another character in its place
    obtain ⟨hpercent, hslash⟩ := not_or.mp hshort
    refine ⟨name.map (fun c => if c = '_' then 'x' else c) ++ ['.'], ?_, ?_⟩
    · exact like_map hpercent hslash
    · rintro (heq | hbelow)
      · have hlen := congrArg List.length heq
        simp at hlen
      · have hwhole := hbelow.eq_of_length (by simp)
        have hsame := (List.append_inj hwhole (by simp)).1
        refine h fun c hc => ⟨fun h => hpercent (h ▸ hc), fun h => ?_, fun h => hslash (h ▸ hc)⟩
        -- an underscore would not be its own image
        rw [hsame, List.mem_map] at hc
        obtain ⟨d, -, hd⟩ := hc
        rw [h] at hd
        split at hd
        · exact absurd hd (by decide)
        · rename_i hne
          exact hne hd

end Like
