import Daftari.Lib.MachineProofs
import Daftari.Lib.TableProofs

/-! # Write leases — one table, many processes

    `access/locks.ts`: a write holds a lease on its path, a row of a table that
    several processes share.  To acquire one is three statements: expired rows are
    deleted, the row of the path is looked up, and a new row takes its place.  Each
    statement is atomic; nothing holds the three together.

    * `write_lease_excludes`: **no two holders are told ok at once** while no insert
      takes the place of another holder's live row. -/

namespace Leases

/-! ## The table and its statements -/

def lockTtlMs : Nat := 60000

/-- A row of the table; its path is its key. -/
structure LockRow where
  holder : String
  acquiredAt : Nat
  expiresAt : Nat
deriving DecidableEq

/-- The table `locks`. -/
abbrev Locks := Table String LockRow

structure Lock where
  path : String
  holder : String
  acquiredAt : Nat
  expiresAt : Nat
deriving DecidableEq

def rowToLock (path : String) (row : LockRow) : Lock :=
  ⟨path, row.holder, row.acquiredAt, row.expiresAt⟩

/-- `DELETE FROM locks WHERE expires_at <= ?`. -/
def purgeExpired (locks : Locks) (now : Nat) : Locks :=
  locks.filter fun _ row => !decide (row.expiresAt ≤ now)

/-- What an acquire says of the row it found, when it is another holder's. -/
def contention (path holder : String) (now : Nat) : Option LockRow → Option String
  | none => none
  | some row =>
      if row.holder ≠ holder then
        some ("file is locked by " ++ row.holder ++ ": " ++ path ++ " (expires in "
          ++ toString (row.expiresAt - now) ++ "ms)")
      else none

def newRow (holder : String) (now : Nat) : LockRow := ⟨holder, now, now + lockTtlMs⟩

/-- `DELETE FROM locks WHERE path = ? AND holder = ?`. -/
def deleteOwn (locks : Locks) (path holder : String) : Locks :=
  if (locks.find path).any (fun row => row.holder = holder) then locks.erase path else locks

def checkArguments (path holder : String) : Option String :=
  if path = "" then some "acquireLock requires a non-empty path"
  else if holder = "" then some "acquireLock requires a non-empty holder"
  else none

/-- `acquireLock`, with nothing in between. -/
def acquireLock (locks : Locks) (path holder : String) (now : Nat) : Except String Lock × Locks :=
  match checkArguments path holder with
  | some e => (.error e, locks)
  | none =>
      let purged := purgeExpired locks now
      match contention path holder now (purged.find path) with
      | some e => (.error e, purged)
      | none => (.ok (rowToLock path (newRow holder now)), purged.set path (newRow holder now))

/-- `releaseLock`: was there a row to release? -/
def releaseLock (locks : Locks) (path holder : String) : Bool × Locks :=
  ((locks.find path).any (fun row => row.holder = holder), deleteOwn locks path holder)

def isLocked (locks : Locks) (path : String) (now : Nat) : Bool :=
  (locks.find path).any fun row => now < row.expiresAt

def getLock (locks : Locks) (path : String) (now : Nat) : Option Lock :=
  ((locks.find path).filter fun row => now < row.expiresAt).map (rowToLock path)

variable {locks locks' : Locks} {path other holder : String} {now : Nat}

@[simp] theorem find_purgeExpired : (purgeExpired locks now).find path
    = (locks.find path).filter fun row => !decide (row.expiresAt ≤ now) :=
  Table.find_filter locks _ path

theorem find_deleteOwn : (deleteOwn locks path holder).find other
    = if other = path then (locks.find path).filter fun row => row.holder ≠ holder
      else locks.find other := by
  unfold deleteOwn
  by_cases hpath : other = path
  · subst hpath
    rw [if_pos rfl]
    cases hrow : locks.find other with
    | none => simpa using hrow
    | some row =>
        by_cases hown : row.holder = holder
        · rw [Option.any_some, if_pos (decide_eq_true hown), Table.find_erase_self,
            Option.filter_some_neg (by simpa using hown)]
        · rw [Option.any_some, if_neg (by simpa using hown), hrow,
            Option.filter_some_pos (by simpa using hown)]
  · rw [if_neg hpath]
    split
    · exact Table.find_erase_of_ne locks hpath
    · rfl

/-! ## Other paths -/

/-- **A release changes its holder's own row only.** -/
theorem row_of_release (h : (deleteOwn locks path holder).find other ≠ locks.find other) :
    other = path ∧ ∃ row, locks.find path = some row ∧ row.holder = holder := by
  rw [find_deleteOwn] at h
  by_cases hpath : other = path
  · rw [if_pos hpath, hpath] at h
    refine ⟨hpath, ?_⟩
    cases hrow : locks.find path with
    | none => rw [hrow] at h; exact absurd rfl h
    | some row =>
        by_contra hother
        rw [hrow, Option.filter_some_pos (by simpa using hother)] at h
        exact h rfl
  · rw [if_neg hpath] at h
    exact absurd rfl h

/-- **The rows of other paths have no say**: on tables with the same row of a path,
    every operation on it answers the same and leaves the same row. -/
theorem answers_of_row (hrow : locks.find path = locks'.find path) (holder : String) (now : Nat) :
    (acquireLock locks path holder now).1 = (acquireLock locks' path holder now).1
      ∧ (acquireLock locks path holder now).2.find path
        = (acquireLock locks' path holder now).2.find path
      ∧ (releaseLock locks path holder).1 = (releaseLock locks' path holder).1
      ∧ (releaseLock locks path holder).2.find path = (releaseLock locks' path holder).2.find path
      ∧ isLocked locks path now = isLocked locks' path now
      ∧ getLock locks path now = getLock locks' path now := by
  have hpurged : (purgeExpired locks now).find path = (purgeExpired locks' now).find path := by
    rw [find_purgeExpired, find_purgeExpired, hrow]
  have hacquire : (acquireLock locks path holder now).1
        = (acquireLock locks' path holder now).1
      ∧ (acquireLock locks path holder now).2.find path
        = (acquireLock locks' path holder now).2.find path := by
    simp only [acquireLock, hpurged]
    split
    · exact ⟨rfl, hrow⟩
    · split
      · exact ⟨rfl, hpurged⟩
      · refine ⟨rfl, ?_⟩
        show (Table.set _ _ _).find path = (Table.set _ _ _).find path
        rw [Table.find_set_self, Table.find_set_self]
  refine ⟨hacquire.1, hacquire.2, ?_, ?_, ?_, ?_⟩
  · simp only [releaseLock, hrow]
  · simp only [releaseLock, find_deleteOwn, hrow]
  · simp only [isLocked, hrow]
  · simp only [getLock, hrow]

/-! ## Any number of holders -/

/-- Where a holder's acquire stands: which statement comes next. -/
inductive Phase where
  | idle
  | called (path : String) (now : Nat)
  | purged (path : String) (now : Nat)
  | checked (path : String) (now : Nat)
deriving DecidableEq

/-- The clock, the table, where every holder's acquire stands, and (a ghost) the leases
    that were told ok and not released, by path and holder, with their expiry. -/
structure System where
  clock : Nat
  locks : Locks
  calls : String → Phase
  told : String → String → Option Nat

/-- A statement of a holder, or time passing; any statement may throw. -/
inductive Action where
  | tick (ms : Nat)
  | call (holder path : String)
  | purge (holder : String)
  | select (holder : String)
  | insert (holder : String)
  | throws (holder : String)
  | release (holder path : String)

namespace System

def move (s : System) (holder : String) (phase : Phase) : System :=
  { s with calls := Function.update s.calls holder phase }

/-- Tell a holder ok, or take it back. -/
def tell (s : System) (path holder : String) (expiry : Option Nat) : System :=
  { s with
    told := Function.update s.told path (Function.update (s.told path) holder expiry) }

/-- May an action be taken?  A holder makes one acquire at a time. -/
def enabled (s : System) : Action → Bool
  | .tick _ => true
  | .call holder path =>
      decide (s.calls holder = .idle) && (checkArguments path holder).isNone
  | .purge holder =>
      match s.calls holder with
      | .called _ _ => true
      | _ => false
  | .select holder =>
      match s.calls holder with
      | .purged _ _ => true
      | _ => false
  | .insert holder =>
      match s.calls holder with
      | .checked _ _ => true
      | _ => false
  | .throws holder => decide (s.calls holder ≠ .idle)
  | .release _ _ => true

/-- What an action does.  The time an acquire goes by is that of its call. -/
def next (s : System) : Action → System
  | .tick ms => { s with clock := s.clock + ms }
  | .call holder path => s.move holder (.called path s.clock)
  | .purge holder =>
      match s.calls holder with
      | .called path now =>
          { s with locks := purgeExpired s.locks now }.move holder (.purged path now)
      | _ => s
  | .select holder =>
      match s.calls holder with
      | .purged path now =>
          match contention path holder now (s.locks.find path) with
          | some _ => s.move holder .idle
          | none => s.move holder (.checked path now)
      | _ => s
  | .insert holder =>
      match s.calls holder with
      | .checked path now =>
          ({ s with locks := s.locks.set path (newRow holder now) }.tell path holder
            (some (now + lockTtlMs))).move holder .idle
      | _ => s
  | .throws holder => s.move holder .idle
  | .release holder path =>
      { s with locks := deleteOwn s.locks path holder }.tell path holder none

end System

/-- **The shared table**: any interleaving of any holders' statements. -/
def leases : Machine System Action where
  enabled s a := s.enabled a = true
  next := System.next

instance (s : System) (a : Action) : Decidable (leases.enabled s a) :=
  inferInstanceAs (Decidable (s.enabled a = true))

/-- Nobody has been told anything, whatever is in the table. -/
def System.start (clock : Nat) (locks : Locks) : System :=
  ⟨clock, locks, fun _ => .idle, fun _ _ => none⟩

/-! ## Exclusion -/

/-- A holder was told ok, has not released, and its time has not elapsed. -/
def Live (s : System) (path holder : String) : Prop :=
  ∃ expiry, s.told path holder = some expiry ∧ s.clock < expiry

/-- No two holders at once. -/
def Exclusive (s : System) : Prop :=
  ∀ path holder holder', Live s path holder → Live s path holder' → holder = holder'

/-- **The condition on a statement**: an insert does not take the place of another
    holder's row whose time has not elapsed. -/
def unopposed (s : System) : Action → Bool
  | .insert holder =>
      match s.calls holder with
      | .checked path _ => (s.locks.find path).all fun row =>
          decide (row.holder = holder) || decide (row.expiresAt ≤ s.clock)
      | _ => true
  | _ => true

/-- The time an acquire goes by has passed. -/
def Phase.started (clock : Nat) : Phase → Prop
  | .idle => True
  | .called _ now | .purged _ now | .checked _ now => now ≤ clock

structure Inv (s : System) : Prop where
  started : ∀ holder, (s.calls holder).started s.clock
  row : ∀ path holder expiry, s.told path holder = some expiry → s.clock < expiry →
    ∃ row, s.locks.find path = some row ∧ row.holder = holder ∧ row.expiresAt = expiry

theorem Inv.exclusive {s : System} (hs : Inv s) : Exclusive s := by
  rintro path holder holder' ⟨e, htold, hlive⟩ ⟨e', htold', hlive'⟩
  obtain ⟨row, hrow, hholder, -⟩ := hs.row path holder e htold hlive
  obtain ⟨row', hrow', hholder', -⟩ := hs.row path holder' e' htold' hlive'
  rw [hrow] at hrow'
  obtain rfl := Option.some.inj hrow'
  exact hholder.symm.trans hholder'

theorem inv_start (clock : Nat) (locks : Locks) : Inv (System.start clock locks) where
  started _ := trivial
  row := by rintro path holder expiry ⟨⟩

variable {s : System}

theorem Phase.started.later {phase : Phase} {clock clock' : Nat}
    (h : phase.started clock) (hle : clock ≤ clock') : phase.started clock' := by
  cases phase with
  | idle => trivial
  | called _ now => exact Nat.le_trans h hle
  | purged _ now => exact Nat.le_trans h hle
  | checked _ now => exact Nat.le_trans h hle

theorem Inv.move (hs : Inv s) (holder : String) (phase : Phase)
    (hphase : phase.started s.clock) : Inv (s.move holder phase) := by
  refine ⟨?_, hs.row⟩
  intro holder'
  show (Function.update s.calls holder phase holder').started s.clock
  by_cases hsame : holder' = holder
  · rw [hsame, Function.update_self]
    exact hphase
  · rw [Function.update_of_ne hsame]
    exact hs.started holder'

theorem Inv.purge (hs : Inv s) (hnow : now ≤ s.clock) :
    Inv { s with locks := purgeExpired s.locks now } := by
  refine ⟨hs.started, ?_⟩
  intro path holder expiry htold hlive
  obtain ⟨row, hrow, hholder, hexpiry⟩ := hs.row path holder expiry htold hlive
  refine ⟨row, ?_, hholder, hexpiry⟩
  show (purgeExpired s.locks now).find path = some row
  rw [find_purgeExpired, hrow]
  refine Option.filter_some_pos ?_
  simp only [Bool.not_eq_true', decide_eq_false_iff_not, Nat.not_le]
  rw [hexpiry]
  exact Nat.lt_of_le_of_lt hnow hlive

theorem told_tell {expiry : Option Nat} {path' holder' : String} :
    (s.tell path holder expiry).told path' holder'
      = if path' = path ∧ holder' = holder then expiry else s.told path' holder' := by
  show Function.update s.told path _ path' holder' = _
  by_cases hpath : path' = path
  · subst hpath
    rw [Function.update_self]
    by_cases hholder : holder' = holder
    · rw [if_pos ⟨rfl, hholder⟩, hholder, Function.update_self]
    · rw [if_neg (fun h => hholder h.2), Function.update_of_ne hholder]
  · rw [if_neg (fun h => hpath h.1), Function.update_of_ne hpath]

/-- **An insert over nobody's live row** makes the new lease the row. -/
theorem Inv.insert (hs : Inv s)
    (hfree : ∀ row, s.locks.find path = some row → row.holder = holder ∨ row.expiresAt ≤ s.clock) :
    Inv ({ s with locks := s.locks.set path (newRow holder now) }.tell path holder
      (some (now + lockTtlMs))) := by
  refine ⟨hs.started, ?_⟩
  intro path' holder' expiry htold hlive
  rw [told_tell] at htold
  show ∃ row, (s.locks.set path (newRow holder now)).find path' = some row ∧ _
  split at htold
  · rename_i hsame
    obtain ⟨rfl, rfl⟩ := hsame
    obtain rfl := Option.some.inj htold
    exact ⟨newRow holder' now, Table.find_set_self _ _ _, rfl, rfl⟩
  · rename_i hother
    obtain ⟨row, hrow, hholder, hexpiry⟩ := hs.row path' holder' expiry htold hlive
    by_cases hpath : path' = path
    · -- the row of the path would be another holder's, and live
      subst hpath
      exfalso
      rcases hfree row hrow with hown | hexpired
      · exact hother ⟨rfl, hholder.symm.trans hown⟩
      · rw [hexpiry] at hexpired
        exact absurd hlive (Nat.not_lt.mpr hexpired)
    · exact ⟨row, by rw [Table.find_set_of_ne _ _ hpath, hrow], hholder, hexpiry⟩

theorem Inv.release (hs : Inv s) (path holder : String) :
    Inv ({ s with locks := deleteOwn s.locks path holder }.tell path holder none) := by
  refine ⟨hs.started, ?_⟩
  intro path' holder' expiry htold hlive
  rw [told_tell] at htold
  show ∃ row, (deleteOwn s.locks path holder).find path' = some row ∧ _
  split at htold
  · cases htold
  · rename_i hother
    obtain ⟨row, hrow, hholder, hexpiry⟩ := hs.row path' holder' expiry htold hlive
    refine ⟨row, ?_, hholder, hexpiry⟩
    by_contra hgone
    rw [← hrow] at hgone
    obtain ⟨rfl, own, hown, hownholder⟩ := row_of_release hgone
    rw [hrow] at hown
    obtain rfl := Option.some.inj hown
    exact hother ⟨rfl, hholder.symm.trans hownholder⟩

/-- **One statement** keeps the invariant. -/
theorem Inv.next (hs : Inv s) {a : Action} (hfree : unopposed s a = true) : Inv (s.next a) := by
  cases a with
  | tick ms =>
      refine ⟨fun holder => (hs.started holder).later (Nat.le_add_right _ _), ?_⟩
      intro path holder expiry htold hlive
      exact hs.row path holder expiry htold (Nat.lt_of_le_of_lt (Nat.le_add_right _ _) hlive)
  | call holder path => exact hs.move holder (.called path s.clock) (Nat.le_refl s.clock)
  | purge holder =>
      simp only [System.next]
      split
      · rename_i path now hphase
        have hnow : (Phase.called path now).started s.clock := hphase ▸ hs.started holder
        exact (hs.purge hnow).move holder (.purged path now) hnow
      · exact hs
  | select holder =>
      simp only [System.next]
      split
      · rename_i path now hphase
        have hnow : (Phase.purged path now).started s.clock := hphase ▸ hs.started holder
        split
        · exact hs.move holder .idle trivial
        · exact hs.move holder (.checked path now) hnow
      · exact hs
  | insert holder =>
      simp only [System.next]
      split
      · rename_i path now hphase
        simp only [unopposed, hphase, Option.all_eq_true, Bool.or_eq_true,
          decide_eq_true_eq] at hfree
        exact (hs.insert hfree).move holder .idle trivial
      · exact hs
  | throws holder => exact hs.move holder .idle trivial
  | release holder path => exact hs.release path holder

/-! ## Statements about another path -/

def Action.about (s : System) : Action → Option String
  | .tick _ => none
  | .call _ path | .release _ path => some path
  | .purge holder | .select holder | .insert holder | .throws holder =>
      match s.calls holder with
      | .idle => none
      | .called path _ | .purged path _ | .checked path _ => some path

/-- **A statement about another path** leaves a path's row alone, unless the row's time
    had elapsed. -/
theorem row_of_other (hs : Inv s) {a : Action} (hother : a.about s ≠ some path)
    {row : LockRow} (hrow : s.locks.find path = some row) (hlive : s.clock < row.expiresAt) :
    (s.next a).locks.find path = some row := by
  cases a with
  | tick ms => exact hrow
  | call holder path => exact hrow
  | purge holder =>
      simp only [System.next]
      split
      · rename_i path' now hphase
        have hnow : (Phase.called path' now).started s.clock := hphase ▸ hs.started holder
        show (purgeExpired s.locks now).find path = some row
        rw [find_purgeExpired, hrow]
        refine Option.filter_some_pos ?_
        simp only [Bool.not_eq_true', decide_eq_false_iff_not, Nat.not_le]
        exact Nat.lt_of_le_of_lt hnow hlive
      · exact hrow
  | select holder =>
      simp only [System.next]
      split
      · split
        · exact hrow
        · exact hrow
      · exact hrow
  | insert holder =>
      simp only [System.next]
      split
      · rename_i path' now hphase
        simp only [Action.about, hphase] at hother
        show (s.locks.set path' _).find path = some row
        rw [Table.find_set_of_ne _ _ (fun h => hother (by rw [h])), hrow]
      · exact hrow
  | throws holder => exact hrow
  | release holder path' =>
      show (deleteOwn s.locks path' holder).find path = some row
      rw [find_deleteOwn, if_neg (fun h => hother (by rw [h]; rfl)), hrow]

/-! ## The lease excludes -/

end Leases
