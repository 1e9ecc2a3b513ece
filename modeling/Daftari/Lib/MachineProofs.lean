import Mathlib.Logic.Function.Basic
import Mathlib.Tactic.Common

/-! # Interleaved machines — schedules, restriction, the invariant rule

    A concurrent component is given by what each atomic action needs (`enabled`) and what it does
    (`next`).  A schedule is any list of actions, so every interleaving of the parties is some
    schedule and nothing else has to be said about scheduling.

    * `Machine.Exec` is the run of one schedule, `Machine.Reach` forgets it;
    * `Machine.restrict` keeps only the steps that meet a condition, which is how "in every run
      whose steps all meet the condition" is said;
    * `Machine.reach_invariant` packages the induction over runs once;
    * `Machine.runs` evaluates a schedule, so a run on fixed inputs is found by computation and then
      fed back through `Machine.exec_of_runs`. -/

/-- A machine over states `σ` and atomic actions `α`. -/
structure Machine (σ α : Type*) where
  /-- May the action be taken here? -/
  enabled : σ → α → Prop
  /-- The state after it. -/
  next : σ → α → σ

namespace Machine

variable {σ α : Type*} {M : Machine σ α}

/-! ## Runs -/

/-- `M.Exec s as t`: the schedule `as` leads from `s` to `t`. -/
inductive Exec (M : Machine σ α) : σ → List α → σ → Prop where
  | nil (s : σ) : Exec M s [] s
  | cons {s t : σ} {a : α} {as : List α} :
      M.enabled s a → Exec M (M.next s a) as t → Exec M s (a :: as) t

/-- `M.Reach s t`: some schedule leads from `s` to `t`. -/
def Reach (M : Machine σ α) (s t : σ) : Prop := ∃ as, M.Exec s as t

theorem Reach.refl (s : σ) : M.Reach s s := ⟨[], .nil s⟩

theorem Exec.append {s t u : σ} {as bs : List α} (h₁ : M.Exec s as t)
    (h₂ : M.Exec t bs u) : M.Exec s (as ++ bs) u := by
  induction h₁ with
  | nil s => exact h₂
  | cons ha _ ih => exact .cons ha (ih h₂)

theorem Exec.split {s t : σ} {as bs : List α} {a : α} (h : M.Exec s (as ++ a :: bs) t) :
    ∃ u, M.Exec s as u ∧ M.enabled u a ∧ M.Exec (M.next u a) bs t := by
  induction as generalizing s with
  | nil =>
      cases h with
      | cons ha hrest => exact ⟨s, .nil s, ha, hrest⟩
  | cons b as ih =>
      cases h with
      | cons hb hrest =>
          obtain ⟨u, has, hu⟩ := ih hrest
          exact ⟨u, .cons hb has, hu⟩

theorem Reach.step {s t : σ} (h : M.Reach s t) {a : α} (ha : M.enabled t a) :
    M.Reach s (M.next t a) := by
  obtain ⟨as, has⟩ := h
  exact ⟨as ++ [a], has.append (.cons ha (.nil _))⟩

theorem Exec.unique {s t u : σ} {as : List α} (h : M.Exec s as t) (h' : M.Exec s as u) : t = u := by
  induction h with
  | nil s =>
      cases h'
      rfl
  | cons _ _ ih =>
      cases h' with
      | cons _ hrest => exact ih hrest

/-! ## The invariant rule -/

/-- **The invariant rule.**  What holds at the start and is preserved by every
    enabled action holds of every state of every run. -/
theorem reach_invariant {I : σ → Prop} (hstep : ∀ s a, I s → M.enabled s a → I (M.next s a))
    {s t : σ} (hs : I s) (h : M.Reach s t) : I t := by
  obtain ⟨as, has⟩ := h
  induction has with
  | nil s => exact hs
  | cons ha _ ih => exact ih (hstep _ _ hs ha)

/-- The invariant rule with a relation to the start of the run: a preorder that
    every step stays inside relates the start to every reachable state. -/
theorem reach_rel {I : σ → Prop} {R : σ → σ → Prop} (hrefl : ∀ s, R s s)
    (htrans : ∀ s t u, R s t → R t u → R s u) (hinv : ∀ s a, I s → M.enabled s a → I (M.next s a))
    (hstep : ∀ s a, I s → M.enabled s a → R s (M.next s a))
    {s t : σ} (hs : I s) (h : M.Reach s t) : R s t := by
  obtain ⟨as, has⟩ := h
  induction has with
  | nil s => exact hrefl s
  | cons ha _ ih =>
      exact htrans _ _ _ (hstep _ _ hs ha) (ih (hinv _ _ hs ha))

/-! ## Restriction -/

/-- The machine whose steps also meet `P`. -/
def restrict (M : Machine σ α) (P : σ → α → Prop) : Machine σ α where
  enabled s a := M.enabled s a ∧ P s a
  next := M.next

theorem restrict_next (P : σ → α → Prop) : (M.restrict P).next = M.next := rfl

instance (P : σ → α → Prop) [∀ s a, Decidable (M.enabled s a)]
    [∀ s a, Decidable (P s a)] (s : σ) (a : α) :
    Decidable ((M.restrict P).enabled s a) :=
  inferInstanceAs (Decidable (M.enabled s a ∧ P s a))

theorem Exec.of_restrict {P : σ → α → Prop} {s t : σ} {as : List α}
    (h : (M.restrict P).Exec s as t) : M.Exec s as t := by
  induction h with
  | nil s => exact .nil s
  | cons ha _ ih => exact .cons ha.1 ih

theorem Exec.restrict {P : σ → α → Prop} {s t : σ} {as : List α} (h : M.Exec s as t)
    (hall : ∀ pre a post u, as = pre ++ a :: post → M.Exec s pre u → P u a) :
    (M.restrict P).Exec s as t := by
  induction h with
  | nil s => exact .nil s
  | @cons s t a as ha _ ih =>
      refine .cons ⟨ha, hall [] a as s rfl (.nil s)⟩ (ih fun pre b post u heq hpre => ?_)
      refine hall (a :: pre) b post u ?_ (.cons ha hpre)
      rw [heq]
      rfl

/-! ## Logs of a run -/

/-- An entry of a log that has one more entry at its end is that one, or one of the
    log before it. -/
theorem split_append {log : List α} {x e : α} {pre post : List α}
    (h : log ++ [x] = pre ++ e :: post) : (log = pre ∧ x = e ∧ post = [])
      ∨ ∃ post', post = post' ++ [x] ∧ log = pre ++ e :: post' := by
  rcases List.eq_nil_or_concat post with rfl | ⟨post', y, rfl⟩
  · obtain ⟨rfl, he⟩ := List.append_inj' h rfl
    exact Or.inl ⟨rfl, (List.cons.inj he).1, rfl⟩
  · rw [List.concat_eq_append, ← List.cons_append, ← List.append_assoc] at h
    rw [List.concat_eq_append]
    obtain ⟨rfl, he⟩ := List.append_inj' h rfl
    obtain rfl := (List.cons.inj he).1
    exact Or.inr ⟨post', rfl, rfl⟩

/-! ## Evaluating a schedule -/

/-- Run a schedule, giving up at the first action that is not enabled. -/
def runs (M : Machine σ α) [∀ s a, Decidable (M.enabled s a)] :
    σ → List α → Option σ
  | s, [] => some s
  | s, a :: as => if M.enabled s a then runs M (M.next s a) as else none

theorem exec_of_runs [∀ s a, Decidable (M.enabled s a)] {as : List α} :
    ∀ {s t : σ}, M.runs s as = some t → M.Exec s as t := by
  induction as with
  | nil =>
      intro s t h
      obtain rfl : s = t := Option.some.inj h
      exact .nil s
  | cons a as ih =>
      intro s t h
      by_cases ha : M.enabled s a
      · rw [runs, if_pos ha] at h
        exact .cons ha (ih h)
      · rw [runs, if_neg ha] at h
        cases h

/-- A decidable fact about the end of an evaluated schedule is a fact about a reachable state. -/
theorem reach_of_runs_any [∀ s a, Decidable (M.enabled s a)] {s : σ}
    {l : List α} {Q : σ → Bool} (h : (M.runs s l).any Q = true) :
    ∃ t, M.Reach s t ∧ Q t = true := by
  cases hr : M.runs s l with
  | none => rw [hr] at h; cases h
  | some t => exact ⟨t, ⟨l, exec_of_runs hr⟩, by rw [hr] at h; exact h⟩

end Machine
