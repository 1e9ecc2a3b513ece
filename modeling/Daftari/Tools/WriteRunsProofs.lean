import Daftari.Lib.MachineProofs
import Daftari.Tools.WriteEffectsProofs

/-! # Write runs — many calls at once

    A call loads the files it needs one after another, computes, and then runs one critical section
    under the leases of the paths it writes: the versions it was composed from are re-hashed, and
    the plan is written or rejected.  A stale rejection is retried once from a fresh load by the
    tools that declare the loaded version themselves.

    * `land_cases`: **what a critical section can do.** -/

namespace Write

open Frontmatter Rbac

section Tools

variable {B : Type}

/-! ## The system -/

/-- A call in flight: who made it, and the files as it has read them. -/
structure Pending (B : Type) where
  access : Option AccessContext
  call : Call
  retriesLeft : Nat
  files : Files B
  docs : Files B

/-- A landed call: what it was composed from, and the files it found. -/
structure Landing (B : Type) where
  setting : Setting
  call : Call
  files : Files B
  docs : Files B
  found : Files B

structure System (B : Type) where
  vault : Files B
  pending : Nat → Option (Pending B)
  landings : List (Landing B)

/-- Nobody is writing. -/
def System.quiet (vault : Files B) : System B where
  vault := vault
  pending _ := none
  landings := []

inductive Action where
  | issue (id : Nat) (access : Option AccessContext) (call : Call)
  /-- The call reads one of its own files. -/
  | reread (id : Nat) (path : String)
  /-- The call's loop test loads one document. -/
  | rescan (id : Nat) (path : String)
  /-- The critical section; the setting is that of its attempt. -/
  | land (id : Nat) (s : Setting)
  /-- A lease is taken, or the machine fails. -/
  | giveUp (id : Nat)

/-- What a reader knows after it reads one path. -/
def look (vault view : Files B) (path : String) : Files B :=
  match vault.lookup path with
  | some file => Assoc.set view path file
  | none => Assoc.remove view [path]

def load (vault : Files B) (access : Option AccessContext) (call : Call)
    (retriesLeft : Nat) : Pending B where
  access := access
  call := call
  retriesLeft := retriesLeft
  files := vault
  docs := vault

def System.put (sys : System B) (id : Nat) (p : Option (Pending B)) : System B :=
  { sys with pending := Function.update sys.pending id p }

def System.record (sys : System B) (id : Nat) (s : Setting) (p : Pending B)
    (vault : Files B) : System B where
  vault := vault
  pending := Function.update sys.pending id none
  landings := sys.landings ++ [⟨s, p.call, p.files, p.docs, sys.vault⟩]

/-- The critical section of a call. -/
def System.land (host : Host B) (sys : System B) (id : Nat) (s : Setting)
    (p : Pending B) : System B :=
  match attempt host s p.call p.files p.docs with
  | .ok (.write plan) =>
      match Write.land host plan sys.vault with
      | .ok vault => sys.record id s p vault
      | .error reason =>
          if isStaleWriteError reason ∧ 0 < p.retriesLeft then
            sys.put id (some (load sys.vault p.access p.call (p.retriesLeft - 1)))
          else sys.put id none
  | _ => sys.put id none

def System.next (host : Host B) (sys : System B) : Action → System B
  | .issue id access call => sys.put id (some (load sys.vault access call (retries call)))
  | .reread id path =>
      sys.put id ((sys.pending id).map fun p => { p with files := look sys.vault p.files path })
  | .rescan id path =>
      sys.put id ((sys.pending id).map fun p => { p with docs := look sys.vault p.docs path })
  | .land id s => ((sys.pending id).map (sys.land host id s)).getD sys
  | .giveUp id => sys.put id none

/-- Every interleaving of the admitted calls. -/
def vaultSystem (host : Host B) (admits : Call → Bool) : Machine (System B) Action where
  enabled sys
    | .issue id _ call => (sys.pending id).isNone = true ∧ admits call = true
    | .land id s => ∃ p ∈ sys.pending id, s.access = p.access
    | .reread id _ | .rescan id _ | .giveUp id => (sys.pending id).isSome = true
  next sys a := sys.next host a

instance (host : Host B) (admits : Call → Bool) (sys : System B) (a : Action) :
    Decidable ((vaultSystem host admits).enabled sys a) :=
  match a with
  | .issue id _ call =>
      inferInstanceAs (Decidable ((sys.pending id).isNone = true ∧ admits call = true))
  | .land id s => inferInstanceAs (Decidable (∃ p ∈ sys.pending id, s.access = p.access))
  | .reread id _ | .rescan id _ | .giveUp id =>
      inferInstanceAs (Decidable ((sys.pending id).isSome = true))

/-! ## What an action can do -/

variable {host : Host B} {admits : Call → Bool} {sys : System B}

def Admitted (admits : Call → Bool) (sys : System B) : Prop :=
  ∀ id p, sys.pending id = some p → admits p.call = true

theorem Admitted.put {id : Nat} {p : Option (Pending B)} (h : Admitted admits sys)
    (hp : ∀ q ∈ p, admits q.call = true) : Admitted admits (sys.put id p) := by
  intro j q hq
  unfold System.put at hq
  dsimp only at hq
  by_cases hj : j = id
  · subst hj
    rw [Function.update_self] at hq
    exact hp q hq
  · rw [Function.update_of_ne hj] at hq
    exact h j q hq

theorem Admitted.record {id : Nat} {s : Setting} {p : Pending B} {vault : Files B}
    (h : Admitted admits sys) : Admitted admits (sys.record id s p vault) := by
  intro j q hq
  have hput : Admitted admits (sys.put id none) := by
    refine h.put ?_
    intro r hr
    cases hr
  exact hput j q hq

/-- **A critical section lands its plan or leaves the vault as it is**; the call
    goes, or is loaded again. -/
theorem land_cases (host : Host B) (sys : System B) (id : Nat) (s : Setting) (p : Pending B) :
    (∃ plan vault, attempt host s p.call p.files p.docs = .ok (.write plan)
        ∧ Write.land host plan sys.vault = .ok vault
        ∧ sys.land host id s p = sys.record id s p vault)
      ∨ ∃ q : Option (Pending B), sys.land host id s p = sys.put id q
          ∧ ∀ r ∈ q, r.call = p.call := by
  have hgone : ∀ r ∈ (none : Option (Pending B)), r.call = p.call := by
    intro r hr
    cases hr
  unfold System.land
  cases ha : attempt host s p.call p.files p.docs with
  | error reason => exact Or.inr ⟨none, rfl, hgone⟩
  | ok outcome =>
      cases outcome with
      | shadow => exact Or.inr ⟨none, rfl, hgone⟩
      | staged => exact Or.inr ⟨none, rfl, hgone⟩
      | write plan =>
          dsimp only
          cases hl : Write.land host plan sys.vault with
          | ok vault => exact Or.inl ⟨plan, vault, rfl, hl, rfl⟩
          | error reason =>
              right
              dsimp only
              split
              · refine ⟨_, rfl, ?_⟩
                intro r hr
                obtain rfl := Option.some.inj hr
                rfl
              · exact ⟨none, rfl, hgone⟩

/-- **The step lemma**: an action keeps what is in flight admitted, and touches the
    vault only by landing the plan of an admitted call. -/
theorem step_cases {a : Action} (hadmitted : Admitted admits sys)
    (h : (vaultSystem host admits).enabled sys a) :
    Admitted admits ((vaultSystem host admits).next sys a)
      ∧ ((∃ pending, (vaultSystem host admits).next sys a = { sys with pending := pending })
        ∨ ∃ id s p plan vault, a = .land id s ∧ sys.pending id = some p
          ∧ attempt host s p.call p.files p.docs = .ok (.write plan)
          ∧ land host plan sys.vault = .ok vault
          ∧ admits p.call = true
          ∧ (vaultSystem host admits).next sys a = sys.record id s p vault) := by
  cases a with
  | issue id access call =>
      refine ⟨hadmitted.put ?_, Or.inl ⟨_, rfl⟩⟩
      intro q hq
      obtain rfl := Option.some.inj hq
      exact h.2
  | reread id path =>
      refine ⟨hadmitted.put ?_, Or.inl ⟨_, rfl⟩⟩
      intro q hq
      obtain ⟨p, hp, rfl⟩ := Option.map_eq_some_iff.mp hq
      exact hadmitted id p hp
  | rescan id path =>
      refine ⟨hadmitted.put ?_, Or.inl ⟨_, rfl⟩⟩
      intro q hq
      obtain ⟨p, hp, rfl⟩ := Option.map_eq_some_iff.mp hq
      exact hadmitted id p hp
  | giveUp id =>
      refine ⟨hadmitted.put ?_, Or.inl ⟨_, rfl⟩⟩
      intro q hq
      cases hq
  | land id s =>
      obtain ⟨p, hp, _⟩ := h
      have hpending : sys.pending id = some p := hp
      have hnext : (vaultSystem host admits).next sys (.land id s)
          = sys.land host id s p := by
        show ((sys.pending id).map (sys.land host id s)).getD sys = _
        rw [hpending]
        rfl
      rcases land_cases host sys id s p with
        ⟨plan, vault, hattempt, hland, heq⟩ | ⟨q, heq, hq⟩
      · rw [hnext, heq]
        exact ⟨hadmitted.record, Or.inr ⟨id, s, p, plan, vault, rfl, hpending, hattempt,
          hland, hadmitted id p hpending, rfl⟩⟩
      · rw [hnext, heq]
        refine ⟨hadmitted.put ?_, Or.inl ⟨_, rfl⟩⟩
        intro r hr
        rw [hq r hr]
        exact hadmitted id p hpending

end Tools

end Write
