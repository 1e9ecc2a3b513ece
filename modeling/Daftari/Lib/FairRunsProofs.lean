import Daftari.Lib.MachineProofs
import Mathlib.Data.List.GetD

/-! # Runs without an end — and what fairness brings about

    "Is followed by" is a statement about runs that go on.  A run gives a state
    and an action for every instant; fairness says which actions keep coming.

    * `Machine.Run`: a run without an end, from a given state;
    * `Run.invariant`: the invariant rule for such a run;
    * `Run.eventually`: **a condition that only a helpful action ends, while
      helpful actions keep coming, lasts until one is taken**;
    * `Run.ofList`: the run of a schedule after which nothing happens any more. -/

namespace Machine

variable {σ α : Type*} {M : Machine σ α} {s₀ : σ}

structure Run (M : Machine σ α) (s₀ : σ) where
  state : Nat → σ
  act : Nat → α
  starts : state 0 = s₀
  enabled : ∀ n, M.enabled (state n) (act n)
  steps : ∀ n, state (n + 1) = M.next (state n) (act n)

namespace Run

theorem invariant (run : M.Run s₀) {I : σ → Prop} (hs : I s₀)
    (hstep : ∀ n, I (run.state n) → I (M.next (run.state n) (run.act n))) (n : Nat) :
    I (run.state n) := by
  induction n with
  | zero =>
      rw [run.starts]
      exact hs
  | succ n ih =>
      rw [run.steps]
      exact hstep n ih

/-- **The rule of fairness.**  A condition that only a helpful action can end lasts
    until the next helpful action, and one is still to come. -/
theorem eventually (run : M.Run s₀) {P : σ → Prop} {helpful : α → Prop} {n : Nat}
    (hfair : ∃ m ≥ n, helpful (run.act m)) (hkeep : ∀ k, P (run.state k) → ¬ helpful (run.act k) →
      P (M.next (run.state k) (run.act k))) (h : P (run.state n)) :
    ∃ m ≥ n, P (run.state m) ∧ helpful (run.act m) := by
  obtain ⟨m, hm, hact⟩ := hfair
  obtain ⟨d, rfl⟩ := Nat.exists_eq_add_of_le hm
  -- induction on how far off the helpful action is
  induction d generalizing n with
  | zero => exact ⟨n, Nat.le_refl _, h, hact⟩
  | succ d ih =>
      by_cases hnow : helpful (run.act n)
      · exact ⟨n, Nat.le_refl _, h, hnow⟩
      · have hnext : P (run.state (n + 1)) := by
          rw [run.steps]
          exact hkeep n h hnow
        have hact : helpful (run.act (n + 1 + d)) := by
          rwa [Nat.add_right_comm, Nat.add_assoc]
        obtain ⟨m, hm, hrest⟩ := ih hnext (Nat.le_add_right _ _) hact
        exact ⟨m, Nat.le_of_succ_le hm, hrest⟩

end Run

/-! ## The run of a schedule -/

def after (M : Machine σ α) (s : σ) (act : Nat → α) : Nat → σ
  | 0 => s
  | n + 1 => M.next (after M s act n) (act n)

theorem after_of_le {s : σ} {act : Nat → α} {k : Nat}
    (hidle : ∀ n ≥ k, ∀ t, M.next t (act n) = t) {n : Nat} (h : k ≤ n) :
    M.after s act n = M.after s act k := by
  induction h with
  | refl => rfl
  | @step n hn ih =>
      rw [← ih]
      exact hidle n hn _

def Run.ofList (M : Machine σ α) (s : σ) (as : List α) (idle : α)
    (hidle : ∀ t, M.enabled t idle)
    (henabled : ∀ n < as.length,
      M.enabled (M.after s (fun n => as.getD n idle) n) (as.getD n idle)) : M.Run s where
  state := M.after s fun n => as.getD n idle
  act n := as.getD n idle
  starts := rfl
  enabled n := by
    by_cases h : n < as.length
    · exact henabled n h
    · rw [List.getD_eq_default _ _ (Nat.not_lt.mp h)]
      exact hidle _
  steps _ := rfl

theorem Run.ofList_state {s : σ} {as : List α} {idle : α} {hidle : ∀ t, M.enabled t idle}
    {henabled : ∀ n < as.length, M.enabled (M.after s (fun n => as.getD n idle) n) (as.getD n idle)}
    (hsame : ∀ t, M.next t idle = t) {n : Nat} (h : as.length ≤ n) :
    (Run.ofList M s as idle hidle henabled).state n
      = (Run.ofList M s as idle hidle henabled).state as.length := by
  refine after_of_le (fun k hk t => ?_) h
  show M.next t (as.getD k idle) = t
  rw [List.getD_eq_default _ _ hk]
  exact hsame t

end Machine
