import Daftari.Lib.MachineProofs
import Daftari.Lib.TextProofs
import Mathlib.Data.List.Infix

/-! # The vault's process lock — who may hold a vault, and when two can

    `lifecycle/lock.ts`: a process claims a vault by an exclusive create of `.daftari/process.lock`.
    A lock that is already there is read, its holder is looked up among the live processes, and a
    defunct lock is dropped with `removeLockIfUnchanged` before the create is tried again.

    Every file operation is one atomic action of the machine below: the exclusive open, the write
    into the new file, each read, each unlink, the signal.  Processes start and die between them and
    pids are reused.

    The claim itself is exclusive; the removal of a stale lock is a read and an unlink.
    `two_holders_of_one_vault` is the interleaving in which one contender's unlink hits the other
    one's fresh lock; `at_most_one_holder_of_sound` is the safety theorem for the runs in which no
    unlink does. -/

namespace Lock

open Text (isSpace)

/-! ## Recognising a holder -/

/-- `tail === "" || /^\s/.test(tail) || /^\/(\s|$)/.test(tail)`. -/
def tokenEnds : List Char → Bool
  | [] => true
  | ['/'] => true
  | '/' :: c :: _ => isSpace c
  | c :: _ => isSpace c

/-- Does the command line name the vault as a whole path token?  Every
    occurrence is tried, overlapping ones included. -/
def commandLineTargetsVault (commandLine vaultRoot : List Char) : Bool :=
  !vaultRoot.isEmpty && commandLine.tails.any fun rest =>
    vaultRoot.isPrefixOf rest && tokenEnds (rest.drop vaultRoot.length)

/-! ## Data -/

inductive LockMode where
  | stdio
  | serve
  deriving DecidableEq, Repr

/-- What `process.lock` records; a lockfile written before modes existed has none. -/
structure LockData where
  pid : Int
  vaultRoot : List Char
  startedAt : String
  version : String
  mode : Option LockMode
  bind : Option String
  deriving DecidableEq, Repr

/-- `acquireLock`'s arguments: the options with their default mode, and the
    clock reading that becomes `startedAt`. -/
structure Request where
  mode : LockMode := .stdio
  bind : Option String := none
  takeover : Bool := false
  startedAt : String
  version : String
  deriving DecidableEq, Repr

/-- The lock the caller is about to write; an empty bind is left out. -/
def Request.lockData (r : Request) (pid : Int) (vaultRoot : List Char) :
    LockData where
  pid := pid
  vaultRoot := vaultRoot
  startedAt := r.startedAt
  version := r.version
  mode := some r.mode
  bind := r.bind.filter (· ≠ "")

/-- The lockfile on disk.  `data` is what `readLockfile` makes of the bytes:
    `none` for an empty file and for anything that is not a lock.  `gen` and
    `owner` are ghosts: which exclusive create made this file, and whose. -/
structure LockFile where
  gen : Nat
  owner : Option Nat
  data : Option LockData
  deriving DecidableEq, Repr

/-- A lock that was read, with the ghost number of the file it was read from. -/
structure Seen where
  gen : Nat
  data : LockData
  deriving DecidableEq, Repr

/-- Where a process stands in `acquireLock` (with its attempt number) or in `releaseLock`. -/
inductive Phase where
  | idle
  | create (r : Request) (attempt : Nat)
  | write (r : Request) (gen : Nat)
  | read (r : Request) (attempt : Nat)
  | check (r : Request) (attempt : Nat) (prior : Seen)
  | signal (r : Request) (attempt : Nat) (prior : Seen)
  | wait (r : Request) (attempt : Nat) (prior : Seen)
  | recheck (r : Request) (attempt : Nat) (prior : Seen)
  | unlink (r : Request) (attempt : Nat) (prior : Seen)
  | releaseRead
  | releaseUnlink (prior : Seen)
  deriving DecidableEq, Repr

/-- A process of the machine, daftari or not.  `commandLine` is what `ps` prints for it, trimmed;
    `holds` is set by a successful `acquireLock` and cleared when `releaseLock` returns; `outcome`
    is what its last `acquireLock` returned. -/
structure Process where
  alive : Bool
  pid : Int
  uid : Nat
  commandLine : List Char
  signalled : Bool
  holds : Bool
  phase : Phase
  outcome : Option (Except String Unit)

/-- The operating system as the lock sees it.  Processes `≥ spawned` have not started yet. -/
structure Sys where
  vaultRoot : List Char
  file : Option LockFile
  nextGen : Nat
  spawned : Nat
  procs : Nat → Process

/-! ## The steps -/

/-- `acquireLock` reports a read or write error, or gives up, in these words. -/
def contentionError (vaultRoot : List Char) : String :=
  "could not acquire the process lock for " ++ String.ofList vaultRoot
    ++ " after 5 attempts — the vault is under heavy acquisition contention; retry"

/-- `pid=…, mode=…, started=…`, with the bind if it was recorded. -/
def holderText (prior : LockData) : String :=
  "pid=" ++ toString prior.pid ++ ", mode="
    ++ (match prior.mode.getD .stdio with | .stdio => "stdio" | .serve => "serve")
    ++ ", started=" ++ prior.startedAt
    ++ (match prior.bind with | some b => ", bind=" ++ b | none => "")

/-- What to do about a live holder: `none` is SIGTERM-and-wait, `some e` the refusal.  A stdio start
    never signals a server; a server start signals only with explicit consent. -/
def refusal (r : Request) (prior : LockData) : Option String :=
  if r.mode = .stdio ∧ prior.mode.getD .stdio = .serve then
    some ("this vault is held by a live daftari serve (" ++ holderText prior
      ++ "). Connect to it over HTTP instead, or stop the server deliberately "
      ++ "(or replace it with 'daftari serve --takeover').")
  else if r.mode = .serve ∧ r.takeover = false then
    some ("this vault is held by a live daftari instance (" ++ holderText prior
      ++ "). A server start never silently replaces a live holder; "
      ++ "re-run with --takeover to replace it deliberately.")
  else none

def maxAcquireAttempts : Nat := 5

def Sys.lookup (s : Sys) (pid : Int) : Option Nat :=
  (List.range s.spawned).find? fun q =>
    (s.procs q).alive && (s.procs q).pid == pid

/-- `isDaftariProcess`: a process with this pid is alive and `ps` shows the
    vault on its command line.  (`kill(pid, 0)` and `ps` are two system calls;
    the pair answers as it does at one of the two instants.) -/
def Sys.isDaftariProcess (s : Sys) (pid : Int) : Bool :=
  match s.lookup pid with
  | none => false
  | some q => commandLineTargetsVault (s.procs q).commandLine s.vaultRoot

def Sys.setProc (s : Sys) (p : Nat) (x : Process) : Sys :=
  { s with procs := Function.update s.procs p x }

def Sys.goto (s : Sys) (p : Nat) (ph : Phase) : Sys :=
  s.setProc p { s.procs p with phase := ph }

/-- `acquireLock` returns. -/
def Sys.returns (s : Sys) (p : Nat) (out : Except String Unit) : Sys :=
  s.setProc p { s.procs p with
    phase := .idle
    outcome := some out
    holds := match out with | .ok _ => true | .error _ => (s.procs p).holds }

/-- `releaseLock` returns. -/
def Sys.released (s : Sys) (p : Nat) : Sys :=
  s.setProc p { s.procs p with phase := .idle, holds := false }

/-- The next loop iteration, or the error after the last one. -/
def Sys.retry (s : Sys) (p : Nat) (r : Request) (attempt : Nat) : Sys :=
  if attempt + 1 < maxAcquireAttempts then s.goto p (.create r (attempt + 1))
  else s.returns p (.error (contentionError s.vaultRoot))

/-- The atomic actions.  `fails` is a file operation of the process that ends in an I/O error. -/
inductive Action where
  | spawn (pid : Int) (uid : Nat) (commandLine : List Char)
  | die (p : Nat)
  | acquire (p : Nat) (r : Request)
  | release (p : Nat)
  | advance (p : Nat)
  | fails (p : Nat) (why : String)
  deriving DecidableEq, Repr

/-- May `p` send `q` a signal?  Root may, and an owner may. -/
def Sys.maySignal (s : Sys) (p q : Nat) : Bool :=
  (s.procs p).uid == 0 || (s.procs p).uid == (s.procs q).uid

/-- `process.kill(pid, "SIGTERM")`; a failure is ignored. -/
def Sys.sigterm (s : Sys) (p : Nat) (pid : Int) : Sys :=
  match s.lookup pid with
  | none => s
  | some q =>
      if s.maySignal p q then s.setProc q { s.procs q with signalled := true }
      else s

/-- The next file operation of `p`, by its phase. -/
def Sys.advance (s : Sys) (p : Nat) : Sys :=
  match (s.procs p).phase with
  | .idle => s
  | .create r n =>
      match s.file with
      | none =>
          -- `openSync(…, "wx")`: the file exists and is empty from here on
          { s with file := some ⟨s.nextGen, some p, none⟩,
                   nextGen := s.nextGen + 1 }.goto p (.write r s.nextGen)
      | some _ => s.goto p (.read r n)
  | .write r g =>
      -- the write goes to the file that was opened, wherever it is by now
      let our := r.lockData (s.procs p).pid s.vaultRoot
      { s with file := s.file.map fun f : LockFile =>
          if f.gen = g then { f with data := some our } else f }.returns p (.ok ())
  | .read r n =>
      match s.file with
      | some ⟨g, _, some d⟩ => s.goto p (.check r n ⟨g, d⟩)
      | _ => s.retry p r n
  | .check r n prior =>
      if prior.data.pid ≠ (s.procs p).pid ∧ s.isDaftariProcess prior.data.pid then
        match refusal r prior.data with
        | some e => s.returns p (.error e)
        | none => s.goto p (.signal r n prior)
      else s.goto p (.recheck r n prior)
  | .signal r n prior => (s.sigterm p prior.data.pid).goto p (.wait r n prior)
  | .wait r n prior => s.goto p (.recheck r n prior)
  | .recheck r n prior =>
      match s.file with
      | some ⟨_, _, some d⟩ =>
          if d.pid = prior.data.pid ∧ d.startedAt = prior.data.startedAt then
            s.goto p (.unlink r n prior)
          else s.retry p r n
      | _ => s.retry p r n
  | .unlink r n _ => { s with file := none }.retry p r n
  | .releaseRead =>
      match s.file with
      | some ⟨g, _, some d⟩ =>
          if d.pid = (s.procs p).pid then s.goto p (.releaseUnlink ⟨g, d⟩)
          else s.released p
      | _ => s.released p
  | .releaseUnlink _ => { s with file := none }.released p

/-- The next file operation of `p` ends in an I/O error.  Errors of the open, the write and the
    first read are returned; the ones in `removeLockIfUnchanged` and `releaseLock` are swallowed. -/
def Sys.fails (s : Sys) (p : Nat) (why : String) : Sys :=
  match (s.procs p).phase with
  | .create _ _ | .write _ _ | .read _ _ => s.returns p (.error why)
  | .recheck r n _ | .unlink r n _ => s.retry p r n
  | .releaseRead | .releaseUnlink _ => s.released p
  | .idle | .check _ _ _ | .signal _ _ _ | .wait _ _ _ => s

def machine : Machine Sys Action where
  enabled s a := match a with
    | .spawn pid _ _ => s.lookup pid = none
    | .die p => (s.procs p).alive = true
    | .acquire p _ => (s.procs p).alive = true ∧ (s.procs p).phase = .idle
    | .release p => (s.procs p).alive = true ∧ (s.procs p).phase = .idle
    | .advance p => (s.procs p).alive = true
    | .fails p _ => (s.procs p).alive = true
  next s a := match a with
    | .spawn pid uid cmd =>
        { s with spawned := s.spawned + 1 }.setProc s.spawned
          ⟨true, pid, uid, cmd, false, false, .idle, none⟩
    | .die p => s.setProc p { s.procs p with alive := false }
    | .acquire p r => s.goto p (.create r 0)
    | .release p => s.goto p .releaseRead
    | .advance p => s.advance p
    | .fails p why => s.fails p why

/-! ## Holding a vault -/

/-- A live process that was not told to exit and whose `acquireLock` returned
    ok, with no `releaseLock` since. -/
structure Process.Holding (x : Process) : Prop where
  alive : x.alive = true
  unsignalled : x.signalled = false
  holds : x.holds = true

/-- Process `p` holds the vault. -/
def Holder (s : Sys) (p : Nat) : Prop := (s.procs p).Holding

def AtMostOneHolder (s : Sys) : Prop :=
  ∀ p q, Holder s p → Holder s q → p = q

/-- Any lockfile, made by nobody in the run, and no process yet. -/
structure Start (s : Sys) : Prop where
  unspawned : s.spawned = 0
  dead : ∀ p, (s.procs p).alive = false
  foreign : ∀ f, s.file = some f → f.owner = none ∧ f.gen < s.nextGen

/-- The condition on the next file operation of `p`, by its phase: a holder's command line names the
    vault, a holder can be signalled, and an unlink removes the very file its process inspected. -/
def SoundAt (s : Sys) (p : Nat) : Phase → Prop
  | .check _ _ prior => ∀ q < s.spawned, Holder s q →
      (s.procs q).pid = prior.data.pid →
      commandLineTargetsVault (s.procs q).commandLine s.vaultRoot = true
  | .signal _ _ prior => ∀ q < s.spawned, Holder s q →
      (s.procs q).pid = prior.data.pid → s.maySignal p q = true
  | .unlink _ _ prior => ∀ f ∈ s.file, f.gen = prior.gen
  | .releaseUnlink prior => ∀ f ∈ s.file, f.gen = prior.gen
  | _ => True

/-- The condition on one step under which the lock is safe; besides `SoundAt`,
    nobody acquires what it already holds. -/
def Sound (s : Sys) : Action → Prop
  | .acquire p _ => (s.procs p).holds = false
  | .advance p => SoundAt s p (s.procs p).phase
  | _ => True

/-! ## The invariant -/

def SeenOk (s : Sys) (prior : Seen) : Prop :=
  prior.gen < s.nextGen ∧
    ∀ f, s.file = some f → f.gen = prior.gen → f.data = some prior.data

/-- As long as the inspected file is there, nobody holds the vault. -/
def Cleared (s : Sys) (prior : Seen) : Prop :=
  ∀ f, s.file = some f → f.gen = prior.gen → ∀ q, ¬ Holder s q

/-- The file process `p` just created is still there, and empty. -/
def Writing (s : Sys) (p g : Nat) : Prop :=
  ∃ f, s.file = some f ∧ f.gen = g ∧ f.owner = some p ∧ f.data = none

/-- What a process knows in each phase. -/
def PhaseOk (s : Sys) (p : Nat) (x : Process) : Prop :=
  match x.phase with
  | .idle | .releaseRead => True
  | .create _ _ | .read _ _ => x.holds = false
  | .write _ g => x.holds = false ∧ Writing s p g
  | .check _ _ prior | .signal _ _ prior => x.holds = false ∧ SeenOk s prior
  | .wait _ _ prior | .recheck _ _ prior | .unlink _ _ prior =>
      x.holds = false ∧ SeenOk s prior ∧ Cleared s prior
  | .releaseUnlink prior => SeenOk s prior ∧ prior.data.pid = x.pid

/-- The lock names its holder, live pids are distinct, and every process is
    right about the file it looked at. -/
structure Inv (s : Sys) : Prop where
  unborn : ∀ p, s.spawned ≤ p → (s.procs p).alive = false
  pids : ∀ p q, (s.procs p).alive = true → (s.procs q).alive = true →
    (s.procs p).pid = (s.procs q).pid → p = q
  bounded : ∀ f, s.file = some f → f.gen < s.nextGen
  named : ∀ p, Holder s p → ∃ f d, s.file = some f ∧ f.owner = some p ∧
    f.data = some d ∧ d.pid = (s.procs p).pid
  phases : ∀ p, (s.procs p).alive = true → PhaseOk s p (s.procs p)

variable {s : Sys}

theorem Inv.atMostOneHolder (h : Inv s) : AtMostOneHolder s := by
  intro p q hp hq
  obtain ⟨f, _, hf, hfp, _, _⟩ := h.named p hp
  obtain ⟨f', _, hf', hfq, _, _⟩ := h.named q hq
  obtain rfl : f = f' := Option.some.inj (hf.symm.trans hf')
  exact Option.some.inj (hfp.symm.trans hfq)

theorem inv_start (h : Start s) : Inv s where
  unborn p _ := h.dead p
  pids p _ hp _ _ := absurd hp (by rw [h.dead p]; exact Bool.false_ne_true)
  bounded f hf := (h.foreign f hf).2
  named p hp := absurd hp.alive (by rw [h.dead p]; exact Bool.false_ne_true)
  phases p hp := absurd hp (by rw [h.dead p]; exact Bool.false_ne_true)

/-! ## What an update of one process does -/

@[simp] theorem setProc_self (s : Sys) (p : Nat) (x : Process) :
    (s.setProc p x).procs p = x := by simp [Sys.setProc]

variable {p q : Nat}

theorem setProc_other (s : Sys) (x : Process) (h : q ≠ p) :
    (s.setProc p x).procs q = s.procs q := by
  simp [Sys.setProc, Function.update_of_ne h]

@[simp] theorem setProc_file (s : Sys) (p : Nat) (x : Process) :
    (s.setProc p x).file = s.file := rfl

@[simp] theorem setProc_nextGen (s : Sys) (p : Nat) (x : Process) :
    (s.setProc p x).nextGen = s.nextGen := rfl

@[simp] theorem setProc_spawned (s : Sys) (p : Nat) (x : Process) :
    (s.setProc p x).spawned = s.spawned := rfl

/-- What a process knows carries over to another state when each kind of knowledge does. -/
theorem PhaseOk.imp {t : Sys} {x : Process} (hw : ∀ g, Writing s p g → Writing t p g)
    (hs : ∀ prior, SeenOk s prior → SeenOk t prior)
    (hc : ∀ prior, SeenOk s prior → Cleared s prior → Cleared t prior) (h : PhaseOk s p x) :
    PhaseOk t p x := by
  unfold PhaseOk at h ⊢
  cases hx : x.phase with
  | idle => trivial
  | releaseRead => trivial
  | create r n => rw [hx] at h; exact h
  | read r n => rw [hx] at h; exact h
  | write r g => rw [hx] at h; exact ⟨h.1, hw g h.2⟩
  | check r n prior => rw [hx] at h; exact ⟨h.1, hs prior h.2⟩
  | signal r n prior => rw [hx] at h; exact ⟨h.1, hs prior h.2⟩
  | wait r n prior =>
      rw [hx] at h
      exact ⟨h.1, hs prior h.2.1, hc prior h.2.1 h.2.2⟩
  | recheck r n prior =>
      rw [hx] at h
      exact ⟨h.1, hs prior h.2.1, hc prior h.2.1 h.2.2⟩
  | unlink r n prior =>
      rw [hx] at h
      exact ⟨h.1, hs prior h.2.1, hc prior h.2.1 h.2.2⟩
  | releaseUnlink prior => rw [hx] at h; exact ⟨hs prior h.1, h.2⟩

theorem PhaseOk.mono {t : Sys} {x : Process} (hfile : t.file = s.file)
    (hgen : t.nextGen = s.nextGen) (hhold : ∀ q, Holder t q → Holder s q) (h : PhaseOk s p x) :
    PhaseOk t p x := by
  refine h.imp ?_ ?_ ?_
  · intro g hw
    unfold Writing
    rw [hfile]
    exact hw
  · intro prior ⟨hg, hd⟩
    exact ⟨hgen ▸ hg, fun f hf => hd f (hfile ▸ hf)⟩
  · intro prior _ hc f hf he q hq
    exact hc f (hfile ▸ hf) he q (hhold q hq)

/-- **Local steps.**  Replacing one process keeps the invariant when the new record is no more
    alive, keeps the pid, holds nothing new, and knows only what is so. -/
theorem Inv.setProc (h : Inv s) {x : Process} (halive : x.alive = true → (s.procs p).alive = true)
    (hpid : x.pid = (s.procs p).pid) (hhold : x.Holding → Holder s p)
    (hphase : x.alive = true → PhaseOk s p x) : Inv (s.setProc p x) := by
  have hsub : ∀ q, Holder (s.setProc p x) q → Holder s q := by
    intro q hq
    unfold Holder at hq
    by_cases hqp : q = p
    · subst hqp
      rw [setProc_self] at hq
      exact hhold hq
    · rwa [setProc_other s x hqp] at hq
  have hal : ∀ q, ((s.setProc p x).procs q).alive = true →
      (s.procs q).alive = true := by
    intro q hq
    by_cases hqp : q = p
    · subst hqp
      rw [setProc_self] at hq
      exact halive hq
    · rwa [setProc_other s x hqp] at hq
  have hpids : ∀ q, ((s.setProc p x).procs q).pid = (s.procs q).pid := by
    intro q
    by_cases hqp : q = p
    · subst hqp
      rw [setProc_self, hpid]
    · rw [setProc_other s x hqp]
  refine ⟨?_, ?_, h.bounded, ?_, ?_⟩
  · intro q hq
    have hdead := h.unborn q hq
    cases hc : ((s.setProc p x).procs q).alive with
    | false => rfl
    | true => rw [hal q hc] at hdead; cases hdead
  · intro q q' hq hq' he
    rw [hpids, hpids] at he
    exact h.pids q q' (hal q hq) (hal q' hq') he
  · intro q hq
    obtain ⟨f, d, hf, ho, hd, he⟩ := h.named q (hsub q hq)
    exact ⟨f, d, hf, ho, hd, by rw [hpids]; exact he⟩
  · intro q hq
    by_cases hqp : q = p
    · subst hqp
      rw [setProc_self] at hq ⊢
      exact PhaseOk.mono (s := s) rfl rfl hsub (hphase hq)
    · rw [setProc_other s x hqp] at hq ⊢
      exact PhaseOk.mono (s := s) rfl rfl hsub (h.phases q hq)

theorem Inv.goto (h : Inv s) {ph : Phase}
    (hphase : (s.procs p).alive = true → PhaseOk s p { s.procs p with phase := ph }) :
    Inv (s.goto p ph) :=
  h.setProc id rfl (fun ⟨ha, hs, hh⟩ => ⟨ha, hs, hh⟩) hphase

theorem Inv.returns_error (h : Inv s) (p : Nat) (e : String) : Inv (s.returns p (.error e)) :=
  h.setProc id rfl (fun ⟨ha, hs, hh⟩ => ⟨ha, hs, hh⟩) fun _ => trivial

theorem Inv.released (h : Inv s) (p : Nat) : Inv (s.released p) :=
  h.setProc id rfl (fun hh => nomatch hh.holds) fun _ => trivial

theorem Inv.retry (h : Inv s) (r : Request) (n : Nat) (hh : (s.procs p).holds = false) :
    Inv (s.retry p r n) := by
  unfold Sys.retry
  split
  · exact h.goto fun _ => hh
  · exact h.returns_error p _

/-! ## Looking a pid up -/

theorem Inv.started (h : Inv s) (hq : (s.procs q).alive = true) : q < s.spawned := by
  by_contra hge
  rw [h.unborn q (by omega)] at hq
  cases hq

theorem Inv.lookup_pid (h : Inv s) (hq : (s.procs q).alive = true) :
    s.lookup (s.procs q).pid = some q := by
  have hlt := h.started hq
  cases hl : s.lookup (s.procs q).pid with
  | none =>
      have hno := List.find?_eq_none.mp hl q (List.mem_range.mpr hlt)
      simp [hq] at hno
  | some q' =>
      have hsome := List.find?_some hl
      simp only [Bool.and_eq_true, beq_iff_eq] at hsome
      exact congrArg some (h.pids q' q hsome.1 hq hsome.2)

theorem Inv.isDaftariProcess (h : Inv s) (hq : (s.procs q).alive = true)
    (hc : commandLineTargetsVault (s.procs q).commandLine s.vaultRoot = true) :
    s.isDaftariProcess (s.procs q).pid = true := by
  unfold Sys.isDaftariProcess
  rw [h.lookup_pid hq]
  exact hc

/-! ## What the file operations preserve -/

theorem Inv.no_holder (h : Inv s) (hf : s.file = none) : ∀ q, ¬ Holder s q := by
  intro q hq
  obtain ⟨f, _, hf', _⟩ := h.named q hq
  rw [hf] at hf'
  cases hf'

/-- **The unlink.**  Removing the lockfile is safe when nobody holds the vault
    and what is removed is a lock that was read. -/
theorem Inv.remove {s : Sys} (h : Inv s) (hno : ∀ q, ¬ Holder s q)
    (hread : ∀ f, s.file = some f → f.data ≠ none) : Inv { s with file := none } := by
  refine ⟨h.unborn, h.pids, fun f hf => (nomatch hf), ?_, ?_⟩
  · intro q hq
    exact absurd hq (hno q)
  · intro q hq
    refine (h.phases q hq).imp ?_ ?_ ?_
    · intro g ⟨f, hf, _, _, hd⟩
      exact absurd hd (hread f hf)
    · intro prior hs
      exact ⟨hs.1, fun f hf => nomatch hf⟩
    · intro prior _ _ f hf
      cases hf

/-- **The exclusive create.**  Where there was no file there is now an empty
    one, under a number no process has seen. -/
theorem Inv.create (h : Inv s) (hf : s.file = none) (p : Nat) :
    Inv { s with file := some ⟨s.nextGen, some p, none⟩,
                 nextGen := s.nextGen + 1 } := by
  have hno := h.no_holder hf
  refine ⟨h.unborn, h.pids, ?_, ?_, ?_⟩
  · intro f hf'
    obtain rfl := Option.some.inj hf'
    exact Nat.lt_succ_self _
  · intro q hq
    exact absurd hq (hno q)
  · intro q hq
    refine (h.phases q hq).imp ?_ ?_ ?_
    · intro g ⟨f, hf', _⟩
      rw [hf] at hf'
      cases hf'
    · intro prior ⟨hg, _⟩
      refine ⟨Nat.lt_succ_of_lt hg, ?_⟩
      intro f hf' he
      obtain rfl := Option.some.inj hf'
      exact absurd he (Nat.ne_of_gt hg)
    · intro prior _ _ f _ _ q' hq'
      exact hno q' hq'

/-- **The write.**  The process that created the file fills it in and holds
    the vault; nobody else did, since a holder's lock is not empty. -/
theorem Inv.fill (h : Inv s) {g : Nat} (hw : Writing s p g) {d : LockData}
    (hd : d.pid = (s.procs p).pid) : Inv ({ s with file := s.file.map fun f : LockFile =>
      if f.gen = g then { f with data := some d } else f }.returns p
        (.ok ())) := by
  obtain ⟨f, hf, hg, ho, hnone⟩ := hw
  set t := ({ s with file := s.file.map fun f : LockFile =>
      if f.gen = g then { f with data := some d } else f }.returns p
        (.ok ())) with ht
  have htf : t.file = some { f with data := some d } := by
    show s.file.map _ = _
    rw [hf, Option.map_some, if_pos hg]
  have hno : ∀ q, ¬ Holder s q := by
    intro q hq
    obtain ⟨f', d', hf', _, hd', _⟩ := h.named q hq
    obtain rfl : f = f' := Option.some.inj (hf.symm.trans hf')
    rw [hnone] at hd'
    cases hd'
  have hself : t.procs p = { s.procs p with
      phase := .idle, outcome := some (.ok ()), holds := true } :=
    setProc_self _ _ _
  have hother : ∀ q, q ≠ p → t.procs q = s.procs q :=
    fun q hq => setProc_other _ _ hq
  have hal : ∀ q, (t.procs q).alive = (s.procs q).alive := by
    intro q
    by_cases hqp : q = p
    · subst hqp; rw [hself]
    · rw [hother q hqp]
  have hpid : ∀ q, (t.procs q).pid = (s.procs q).pid := by
    intro q
    by_cases hqp : q = p
    · subst hqp; rw [hself]
    · rw [hother q hqp]
  refine ⟨?_, ?_, ?_, ?_, ?_⟩
  · intro q hq
    rw [hal]
    exact h.unborn q hq
  · intro q q' hq hq' he
    rw [hal] at hq hq'
    rw [hpid, hpid] at he
    exact h.pids q q' hq hq' he
  · intro f' hf'
    obtain rfl := Option.some.inj (htf.symm.trans hf')
    exact h.bounded f hf
  · intro q hq
    by_cases hqp : q = p
    · subst hqp
      exact ⟨_, d, htf, ho, rfl, by rw [hpid]; exact hd⟩
    · unfold Holder at hq
      rw [hother q hqp] at hq
      exact absurd hq (hno q)
  · intro q hq
    by_cases hqp : q = p
    · subst hqp
      rw [hself]
      trivial
    · rw [hother q hqp]
      rw [hal] at hq
      refine PhaseOk.imp ?_ ?_ ?_ (h.phases q hq)
      · intro g' ⟨f', hf', _, ho', _⟩
        obtain rfl : f = f' := Option.some.inj (hf.symm.trans hf')
        exact absurd (Option.some.inj (ho'.symm.trans ho)) hqp
      · intro prior ⟨hgen, hdata⟩
        refine ⟨hgen, ?_⟩
        intro f' hf' he
        obtain rfl := Option.some.inj (htf.symm.trans hf')
        rw [hdata f hf he] at hnone
        cases hnone
      · intro prior ⟨_, hdata⟩ _ f' hf' he
        obtain rfl := Option.some.inj (htf.symm.trans hf')
        rw [hdata f hf he] at hnone
        cases hnone

/-! ## What the inspection tells -/

variable {prior : Seen}

theorem Inv.holder_pid (h : Inv s) {f : LockFile} (hseen : SeenOk s prior) (hf : s.file = some f)
    (hg : f.gen = prior.gen) (hq : Holder s q) : (s.procs q).pid = prior.data.pid := by
  obtain ⟨f', d, hf', _, hd, he⟩ := h.named q hq
  obtain rfl : f = f' := Option.some.inj (hf.symm.trans hf')
  have hd' := hseen.2 f hf hg
  obtain rfl : d = prior.data := Option.some.inj (hd.symm.trans hd')
  exact he.symm

/-- **The check.**  A lock whose pid is the caller's own, or names no live
    daftari on this vault, is nobody's. -/
theorem Inv.cleared_of_check (h : Inv s) (hp : (s.procs p).alive = true)
    (hh : (s.procs p).holds = false) (hseen : SeenOk s prior) (hcmd : ∀ q < s.spawned, Holder s q →
      (s.procs q).pid = prior.data.pid →
      commandLineTargetsVault (s.procs q).commandLine s.vaultRoot = true)
    (hno : ¬ (prior.data.pid ≠ (s.procs p).pid ∧ s.isDaftariProcess prior.data.pid = true)) :
    Cleared s prior := by
  intro f hf hg q hq
  have hpid := h.holder_pid hseen hf hg hq
  apply hno
  constructor
  · intro he
    obtain rfl : q = p := h.pids q p hq.alive hp (hpid.trans he)
    rw [hq.holds] at hh
    cases hh
  · rw [← hpid]
    exact h.isDaftariProcess hq.alive (hcmd q (h.started hq.alive) hq hpid)

theorem sigterm_holder {pid : Int} (h : Holder (s.sigterm p pid) q) : Holder s q := by
  unfold Sys.sigterm at h
  split at h
  · exact h
  · rename_i q' _
    split at h
    · by_cases hqq : q = q'
      · subst hqq
        unfold Holder at h
        rw [setProc_self] at h
        exact nomatch h.unsignalled
      · unfold Holder at h
        rwa [setProc_other _ _ hqq] at h
    · exact h

theorem sigterm_file (s : Sys) (p : Nat) (pid : Int) : (s.sigterm p pid).file = s.file := by
  unfold Sys.sigterm
  split
  · rfl
  · split <;> rfl

theorem sigterm_nextGen (s : Sys) (p : Nat) (pid : Int) :
    (s.sigterm p pid).nextGen = s.nextGen := by
  unfold Sys.sigterm
  split
  · rfl
  · split <;> rfl

theorem sigterm_procs (s : Sys) (p : Nat) (pid : Int) (q : Nat) :
    ∃ b, (s.sigterm p pid).procs q = { s.procs q with signalled := b } := by
  unfold Sys.sigterm
  split
  · exact ⟨_, rfl⟩
  · rename_i q' _
    split
    · by_cases hqq : q = q'
      · subst hqq
        exact ⟨true, setProc_self _ _ _⟩
      · exact ⟨_, setProc_other _ _ hqq⟩
    · exact ⟨_, rfl⟩

theorem Inv.sigterm (h : Inv s) (p : Nat) (pid : Int) : Inv (s.sigterm p pid) := by
  unfold Sys.sigterm
  split
  · exact h
  · rename_i q _
    split
    · exact h.setProc id rfl (fun hx => nomatch hx.unsignalled) (h.phases q)
    · exact h

/-- **The signal.**  The holder of the inspected lock, if it is there and may
    be signalled, is told to exit. -/
theorem Inv.cleared_of_signal (h : Inv s) (hseen : SeenOk s prior)
    (hmay : ∀ q < s.spawned, Holder s q →
      (s.procs q).pid = prior.data.pid → s.maySignal p q = true) :
    Cleared (s.sigterm p prior.data.pid) prior := by
  intro f hf hg q hq
  rw [sigterm_file] at hf
  have hq₀ := sigterm_holder hq
  have hpid := h.holder_pid hseen hf hg hq₀
  have hlook : s.lookup prior.data.pid = some q := by
    rw [← hpid]
    exact h.lookup_pid hq₀.alive
  unfold Holder Sys.sigterm at hq
  rw [hlook] at hq
  simp only [if_pos (hmay q (h.started hq₀.alive) hq₀ hpid), setProc_self] at hq
  exact nomatch hq.unsignalled

/-- **The unlink is safe** when it removes the very file that was read, was
    found to be nobody's, and its caller holds nothing. -/
theorem Inv.unlink (h : Inv s) (hseen : SeenOk s prior) (hcl : Cleared s prior)
    (hsame : ∀ f, s.file = some f → f.gen = prior.gen) : Inv { s with file := none } := by
  cases hf : s.file with
  | none =>
      refine h.remove (h.no_holder hf) ?_
      intro f hf'
      rw [hf] at hf'
      cases hf'
  | some f =>
      refine h.remove (hcl f hf (hsame f hf)) ?_
      intro f' hf' hnone
      rw [hseen.2 f' hf' (hsame f' hf')] at hnone
      cases hnone

/-- **The unlink of `releaseLock`** removes the caller's own lock, so the only
    holder it can hit is the caller, who gives the vault up. -/
theorem Inv.release (h : Inv s) (hp : (s.procs p).alive = true) (hseen : SeenOk s prior)
    (hpid : prior.data.pid = (s.procs p).pid) (hsame : ∀ f, s.file = some f → f.gen = prior.gen) :
    Inv ({ s with file := none }.released p) := by
  have hrel := h.released p
  have hcl : Cleared (s.released p) prior := by
    intro f hf hg q hq
    by_cases hqp : q = p
    · subst hqp
      unfold Holder Sys.released at hq
      rw [setProc_self] at hq
      exact nomatch hq.holds
    · unfold Holder Sys.released at hq
      rw [setProc_other _ _ hqp] at hq
      have hqpid := h.holder_pid hseen hf hg hq
      exact hqp (h.pids q p hq.alive hp (hqpid.trans hpid))
  have hseen' : SeenOk (s.released p) prior := hseen
  exact hrel.unlink hseen' hcl hsame

/-! ## Every step -/

theorem Inv.pid_free (h : Inv s) {pid : Int} (hfree : s.lookup pid = none)
    (hq : (s.procs q).alive = true) : (s.procs q).pid ≠ pid := by
  intro he
  have hl := h.lookup_pid hq
  rw [he, hfree] at hl
  cases hl

theorem Inv.spawn (h : Inv s) {pid : Int} (uid : Nat) (cmd : List Char)
    (hfree : s.lookup pid = none) : Inv (machine.next s (.spawn pid uid cmd)) := by
  set x : Process := ⟨true, pid, uid, cmd, false, false, .idle, none⟩
  set t := { s with spawned := s.spawned + 1 }.setProc s.spawned x with ht
  show Inv t
  have hself : t.procs s.spawned = x := setProc_self _ _ _
  have hother : ∀ q, q ≠ s.spawned → t.procs q = s.procs q :=
    fun q hq => setProc_other _ _ hq
  have hold : ∀ q, Holder t q → Holder s q := by
    intro q hq
    unfold Holder at hq
    by_cases hqn : q = s.spawned
    · subst hqn
      rw [hself] at hq
      exact nomatch hq.holds
    · rwa [hother q hqn] at hq
  refine ⟨?_, ?_, h.bounded, ?_, ?_⟩
  · intro q hq
    have hq' : s.spawned + 1 ≤ q := hq
    rw [hother q (by omega)]
    exact h.unborn q (by omega)
  · intro q q' hq hq' he
    by_cases hqn : q = s.spawned
    · by_cases hqn' : q' = s.spawned
      · rw [hqn, hqn']
      · rw [hother q' hqn'] at hq' he
        rw [hqn, hself] at he
        exact absurd he.symm (h.pid_free hfree hq')
    · rw [hother q hqn] at hq he
      by_cases hqn' : q' = s.spawned
      · rw [hqn', hself] at he
        exact absurd he (h.pid_free hfree hq)
      · rw [hother q' hqn'] at hq' he
        exact h.pids q q' hq hq' he
  · intro q hq
    obtain ⟨f, d, hf, ho, hd, he⟩ := h.named q (hold q hq)
    refine ⟨f, d, hf, ho, hd, ?_⟩
    have hqn : q ≠ s.spawned := by
      intro hqn
      have halive := (hold q hq).alive
      rw [h.unborn q (by omega)] at halive
      cases halive
    rw [hother q hqn]
    exact he
  · intro q hq
    by_cases hqn : q = s.spawned
    · rw [hqn, hself]
      trivial
    · rw [hother q hqn] at hq ⊢
      exact PhaseOk.mono (s := s) rfl rfl hold (h.phases q hq)

/-- **The file operations of one process** keep the invariant when the step is
    sound; the cases are the phases. -/
theorem Inv.advance (h : Inv s) (hp : (s.procs p).alive = true) (hsound : Sound s (.advance p)) :
    Inv (s.advance p) := by
  have hk := h.phases p hp
  unfold PhaseOk at hk
  unfold Sys.advance
  cases hph : (s.procs p).phase with
  | idle => exact h
  | create r n =>
      rw [hph] at hk
      cases hf : s.file with
      | none =>
          refine (h.create hf p).goto ?_
          intro _
          exact ⟨hk, _, rfl, rfl, rfl, rfl⟩
      | some f => exact h.goto fun _ => hk
  | write r g =>
      rw [hph] at hk
      exact h.fill hk.2 rfl
  | read r n =>
      rw [hph] at hk
      simp only
      split
      · rename_i g o d hf
        refine h.goto ?_
        intro _
        refine ⟨hk, h.bounded _ hf, ?_⟩
        intro f hf' _
        obtain rfl := Option.some.inj (hf.symm.trans hf')
        rfl
      · exact h.retry r n hk
  | check r n prior =>
      rw [hph] at hk
      simp only [Sound, SoundAt, hph] at hsound
      simp only
      split
      · split
        · exact h.returns_error p _
        · exact h.goto fun _ => hk
      · rename_i hno
        exact h.goto fun _ =>
          ⟨hk.1, hk.2, h.cleared_of_check hp hk.1 hk.2 hsound hno⟩
  | signal r n prior =>
      rw [hph] at hk
      simp only [Sound, SoundAt, hph] at hsound
      refine (h.sigterm p prior.data.pid).goto ?_
      intro _
      obtain ⟨b, hb⟩ := sigterm_procs s p prior.data.pid p
      refine ⟨?_, ?_, h.cleared_of_signal hk.2 hsound⟩
      · rw [hb]
        exact hk.1
      · unfold SeenOk
        rw [sigterm_file, sigterm_nextGen]
        exact hk.2
  | wait r n prior =>
      rw [hph] at hk
      exact h.goto fun _ => hk
  | recheck r n prior =>
      rw [hph] at hk
      simp only
      split
      · split
        · exact h.goto fun _ => hk
        · exact h.retry r n hk.1
      · exact h.retry r n hk.1
  | unlink r n prior =>
      rw [hph] at hk
      simp only [Sound, SoundAt, hph] at hsound
      have hun := h.unlink hk.2.1 hk.2.2 hsound
      exact hun.retry r n hk.1
  | releaseRead =>
      simp only
      split
      · rename_i g o d hf
        split
        · rename_i hpid
          refine h.goto ?_
          intro _
          refine ⟨⟨h.bounded _ hf, ?_⟩, hpid⟩
          intro f hf' _
          obtain rfl := Option.some.inj (hf.symm.trans hf')
          rfl
        · exact h.released p
      · exact h.released p
  | releaseUnlink prior =>
      rw [hph] at hk
      simp only [Sound, SoundAt, hph] at hsound
      exact h.release hp hk.1 hk.2 hsound

theorem Inv.fails (h : Inv s) (why : String) (hp : (s.procs p).alive = true) :
    Inv (s.fails p why) := by
  have hk := h.phases p hp
  unfold PhaseOk at hk
  unfold Sys.fails
  cases hph : (s.procs p).phase with
  | idle => exact h
  | create r n => exact h.returns_error p why
  | write r g => exact h.returns_error p why
  | read r n => exact h.returns_error p why
  | check r n prior => exact h
  | signal r n prior => exact h
  | wait r n prior => exact h
  | recheck r n prior => rw [hph] at hk; exact h.retry r n hk.1
  | unlink r n prior => rw [hph] at hk; exact h.retry r n hk.1
  | releaseRead => exact h.released p
  | releaseUnlink prior => exact h.released p

/-- **The step lemma.** -/
theorem inv_step (s : Sys) (a : Action) (h : Inv s)
    (ha : (machine.restrict Sound).enabled s a) : Inv (machine.next s a) := by
  obtain ⟨hen, hsound⟩ := ha
  cases a with
  | spawn pid uid cmd => exact h.spawn uid cmd hen
  | die p =>
      exact h.setProc (fun hx => nomatch hx) rfl (fun hx => nomatch hx.alive)
        fun hx => nomatch hx
  | acquire p r => exact h.goto fun _ => hsound
  | release p => exact h.goto fun _ => trivial
  | advance p => exact h.advance hen hsound
  | fails p why => exact h.fails why hen

/-- **AT MOST ONE PROCESS HOLDS A VAULT**, from any lockfile and over every
    interleaving of any number of processes, as long as every step is sound. -/
theorem at_most_one_holder_of_sound {s t : Sys} (hs : Start s)
    (h : (machine.restrict Sound).Reach s t) : AtMostOneHolder t :=
  (Machine.reach_invariant inv_step (inv_start hs) h).atMostOneHolder

/-! ## Two schedules on a crashed vault -/

instance : ∀ s a, Decidable (machine.enabled s a)
  | s, .spawn pid _ _ => inferInstanceAs (Decidable (s.lookup pid = none))
  | s, .die p => inferInstanceAs (Decidable ((s.procs p).alive = true))
  | s, .acquire p _ => inferInstanceAs
      (Decidable ((s.procs p).alive = true ∧ (s.procs p).phase = .idle))
  | s, .release p => inferInstanceAs
      (Decidable ((s.procs p).alive = true ∧ (s.procs p).phase = .idle))
  | s, .advance p => inferInstanceAs (Decidable ((s.procs p).alive = true))
  | s, .fails p _ => inferInstanceAs (Decidable ((s.procs p).alive = true))

instance (x : Process) : Decidable x.Holding :=
  decidable_of_iff (x.alive = true ∧ x.signalled = false ∧ x.holds = true)
    ⟨fun ⟨ha, hs, hh⟩ => ⟨ha, hs, hh⟩, fun ⟨ha, hs, hh⟩ => ⟨ha, hs, hh⟩⟩

instance (s : Sys) (p : Nat) : Decidable (Holder s p) :=
  inferInstanceAs (Decidable (s.procs p).Holding)

instance (s : Sys) (p : Nat) : ∀ ph, Decidable (SoundAt s p ph)
  | .check _ _ prior => inferInstanceAs (Decidable (∀ q < s.spawned,
      Holder s q → (s.procs q).pid = prior.data.pid →
      commandLineTargetsVault (s.procs q).commandLine s.vaultRoot = true))
  | .signal _ _ prior => inferInstanceAs (Decidable (∀ q < s.spawned,
      Holder s q → (s.procs q).pid = prior.data.pid → s.maySignal p q = true))
  | .unlink _ _ prior =>
      inferInstanceAs (Decidable (∀ f ∈ s.file, f.gen = prior.gen))
  | .releaseUnlink prior =>
      inferInstanceAs (Decidable (∀ f ∈ s.file, f.gen = prior.gen))
  | .idle | .create _ _ | .write _ _ | .read _ _ | .wait _ _ _
  | .recheck _ _ _ | .releaseRead => inferInstanceAs (Decidable True)

instance : ∀ s a, Decidable (Sound s a)
  | s, .acquire p _ => inferInstanceAs (Decidable ((s.procs p).holds = false))
  | s, .advance p =>
      inferInstanceAs (Decidable (SoundAt s p (s.procs p).phase))
  | _, .spawn _ _ _ | _, .die _ | _, .release _ | _, .fails _ _ =>
      inferInstanceAs (Decidable True)

instance : ∀ s a, Decidable ((machine.restrict Sound).enabled s a) :=
  fun s a => inferInstanceAs (Decidable (machine.enabled s a ∧ Sound s a))

def crashedVault : Sys where
  vaultRoot := "/v".toList
  file := some ⟨0, none, some
    ⟨7, "/v".toList, "2026-01-01T00:00:00.000Z", "1", some .stdio, none⟩⟩
  nextGen := 1
  spawned := 0
  procs _ := ⟨false, 0, 0, [], false, false, .idle, none⟩

theorem start_crashedVault : Start crashedVault where
  unspawned := rfl
  dead _ := rfl
  foreign f hf := by
    obtain rfl := Option.some.inj hf
    exact ⟨rfl, Nat.zero_lt_one⟩

def stdioStart (startedAt : String) : Request :=
  { startedAt := startedAt, version := "1" }

/-- A start that finds the dead holder's lock, drops it and claims the vault. -/
def reclaim : List Action :=
  [.spawn 101 1 "daftari --vault /v".toList, .acquire 0 (stdioStart "a"),
   .advance 0, .advance 0, .advance 0, .advance 0, .advance 0, .advance 0,
   .advance 0]

/-- Alone, the start that drops the dead holder's lock is sound throughout. -/
theorem reclaim_holds_alone :
    ∃ t, (machine.restrict Sound).Reach crashedVault t ∧ Holder t 0 ∧
      AtMostOneHolder t := by
  have hrun : (((machine.restrict Sound).runs crashedVault reclaim).any fun t =>
      decide (Holder t 0)) = true := by
    decide
  obtain ⟨t, hreach, ht⟩ := Machine.reach_of_runs_any hrun
  exact ⟨t, hreach, of_decide_eq_true ht, at_most_one_holder_of_sound start_crashedVault hreach⟩

/-! ## A lock that is not the one inspected -/

/-- Two starts that both find the dead holder's lock.  Each reads it twice and
    sees no change; the second one unlinks it and claims the vault, and the
    first one's unlink then removes that claim. -/
def raceForStaleLock : List Action :=
  [.spawn 101 1 "daftari --vault /v".toList,
   .spawn 102 1 "daftari --vault /v".toList,
   .acquire 0 (stdioStart "a"), .acquire 1 (stdioStart "b"),
   .advance 0, .advance 0, .advance 0, .advance 0,
   .advance 1, .advance 1, .advance 1, .advance 1,
   .advance 1, .advance 1, .advance 1,
   .advance 0, .advance 0, .advance 0]

/-- **TWO LIVE HOLDERS OF ONE VAULT.** -/
theorem two_holders_of_one_vault :
    ¬ ∀ s t, Start s → machine.Reach s t → AtMostOneHolder t := by
  have hrun : ((machine.runs crashedVault raceForStaleLock).any fun t =>
      decide (Holder t 0 ∧ Holder t 1)) = true := by
    decide
  obtain ⟨t, hreach, ht⟩ := Machine.reach_of_runs_any hrun
  obtain ⟨h0, h1⟩ := of_decide_eq_true ht
  intro hsafe
  exact absurd (hsafe _ t start_crashedVault hreach 0 1 h0 h1) (by decide)

end Lock
