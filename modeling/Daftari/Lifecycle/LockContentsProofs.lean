import Daftari.Lib.JsonTextProofs
import Daftari.Lifecycle.LockProofs

/-! # What a lockfile holds — starting over any text

    The lock is a text that the next start parses.  Here the starting process is
    alone with the file, and the file may hold anything: a record of a process
    that is gone, half a record, nothing.

    * `readLockfile`, `removeLockIfUnchanged`, `acquireLock`: on the text;
    * `acquireLock_reclaims_iff`: **the texts a start gets past.** -/

namespace Lock

open JsonText

/-! ## The code -/

/-- What is read of a lockfile; `pid` is its numeral, and the rest can be anything. -/
structure LockRecord where
  pid : List Char
  startedAt : Option Json
  mode : Option Json
  bind : Option Json

/-- The starting process and what it asks its host. -/
structure Host (N : Type) where
  vaultRoot : List Char
  /-- `process.pid`. -/
  pid : Nat
  /-- The number a numeral denotes. -/
  number : List Char → N
  /-- `isDaftariProcess` of a pid for this vault, at an attempt. -/
  isDaftariProcess : Nat → N → Bool
  /-- `${v}`. -/
  interpolated : Option Json → String

def isTrue : Option Json → Bool
  | some (.bool b) => b
  | _ => false

def numeralOf : Option Json → Option (List Char)
  | some (.num numeral) => some numeral
  | _ => none

/-- The guard of `readLockfile`: an object with the sentinel and a number for a pid. -/
def recognise : Json → Option LockRecord
  | .obj members =>
      if isTrue (member members "daftari") then
        (numeralOf (member members "pid")).map fun pid =>
          ⟨pid, member members "startedAt", member members "mode", member members "bind"⟩
      else none
  | _ => none

/-- `readLockfile`: no file, a `SyntaxError` and another shape are all null. -/
def readLockfile (file : Option (List Char)) : Option LockRecord :=
  file.bind fun raw => (parse raw).bind recognise

def LockMode.text : LockMode → List Char
  | .stdio => "stdio".toList
  | .serve => "serve".toList

/-- The fields of a lock, in the order they are written. -/
def LockData.members (d : LockData) : List (String × Scalar) :=
  [("daftari", .bool true), ("pid", .nat d.pid.toNat), ("vaultRoot", .str d.vaultRoot),
    ("startedAt", .str d.startedAt.toList), ("version", .str d.version.toList)]
  ++ d.mode.toList.map (fun mode => ("mode", .str mode.text))
  ++ d.bind.toList.map (fun bind => ("bind", .str bind.toList))

/-- `JSON.stringify(data, null, 2)`. -/
def LockData.text (d : LockData) : List Char := stringify d.members

/-- `tryCreateExclusive`: was the file made, and what is there now? -/
def tryCreateExclusive (file : Option (List Char)) (our : LockData) : Bool × Option (List Char) :=
  match file with
  | none => (true, some our.text)
  | some raw => (false, some raw)

section

variable {N : Type} [DecidableEq N] (host : Host N) (r : Request)

/-- `===`, of values of two parses: two arrays or objects are never the same one. -/
def same : Option Json → Option Json → Bool
  | none, none => true
  | some .null, some .null => true
  | some (.bool a), some (.bool b) => a = b
  | some (.num a), some (.num b) => host.number a = host.number b
  | some (.str a), some (.str b) => a = b
  | _, _ => false

/-- Is a value true as a condition? -/
def truthy : Option Json → Bool
  | none | some .null => false
  | some (.bool b) => b
  | some (.num numeral) => host.number numeral ≠ host.number ['0']
  | some (.str units) => units ≠ []
  | some (.arr _) | some (.obj _) => true

def removeLockIfUnchanged (file : Option (List Char)) (expected : LockRecord) :
    Option (List Char) :=
  match readLockfile file with
  | none => file
  | some current =>
      if host.number current.pid ≠ host.number expected.pid
        ∨ same host current.startedAt expected.startedAt = false then file
      else none

/-- `prior.mode ?? "stdio"`. -/
def LockRecord.modeOrStdio (prior : LockRecord) : Json :=
  match prior.mode with
  | none | some .null => .str (Text.units "stdio".toList)
  | some mode => mode

def isServe : Json → Bool
  | .str units => units = Text.units "serve".toList
  | _ => false

/-- The holder, as a message names it. -/
def LockRecord.holder (prior : LockRecord) : String :=
  "pid=" ++ host.interpolated (some (.num prior.pid))
    ++ ", mode=" ++ host.interpolated (some prior.modeOrStdio)
    ++ ", started=" ++ host.interpolated prior.startedAt
    ++ (if truthy host prior.bind then ", bind=" ++ host.interpolated prior.bind else "")

/-- Why a live holder is left alone; `none` is SIGTERM-and-wait. -/
def refuse (prior : LockRecord) : Option String :=
  if r.mode = .stdio ∧ isServe prior.modeOrStdio then
    some ("this vault is held by a live daftari serve (" ++ prior.holder host
      ++ "). Connect to it over HTTP instead, or stop the server deliberately "
      ++ "(or replace it with 'daftari serve --takeover').")
  else if r.mode = .serve ∧ r.takeover = false then
    some ("this vault is held by a live daftari instance (" ++ prior.holder host
      ++ "). A server start never silently replaces a live holder; "
      ++ "re-run with --takeover to replace it deliberately.")
  else none

def ourLock : LockData := r.lockData host.pid host.vaultRoot

/-- Is the holder another live daftari of this vault? -/
def namesLiveHolder (attempt : Nat) (prior : LockRecord) : Bool :=
  host.number prior.pid ≠ host.number (Nat.toDigits 10 host.pid)
    ∧ host.isDaftariProcess attempt (host.number prior.pid)

/-- The loop of `acquireLock`, with so many attempts left, alone with the file. -/
def acquireFrom : Nat → Option (List Char) → Except String Unit × Option (List Char)
  | 0, file => (.error (contentionError host.vaultRoot), file)
  | left + 1, file =>
      let created := tryCreateExclusive file (ourLock host r)
      if created.1 then (.ok (), created.2)
      else
        match readLockfile file with
        | none => acquireFrom left file
        | some prior =>
            if namesLiveHolder host (maxAcquireAttempts - (left + 1)) prior then
              match refuse host r prior with
              | some e => (.error e, file)
              | none => acquireFrom left (removeLockIfUnchanged host file prior)
            else acquireFrom left (removeLockIfUnchanged host file prior)

/-- `acquireLock`, alone with the file. -/
def acquireLock (file : Option (List Char)) : Except String Unit × Option (List Char) :=
  acquireFrom host r maxAcquireAttempts file

end

/-! ## Reading a lock back -/

/-- What is read of a lock that was written. -/
def LockData.record (d : LockData) : LockRecord where
  pid := Nat.toDigits 10 d.pid.toNat
  startedAt := some (.str (Text.units d.startedAt.toList))
  mode := d.mode.map fun mode => .str (Text.units mode.text)
  bind := d.bind.map fun bind => .str (Text.units bind.toList)

theorem recognise_members (d : LockData) :
    recognise (.obj (d.members.map entry)) = some d.record := by
  unfold recognise
  simp only [member_entries]
  obtain ⟨pid, vaultRoot, startedAt, version, mode, bind⟩ := d
  cases mode <;> cases bind <;>
    simp [LockData.members, LockData.record, isTrue, numeralOf, Scalar.json, List.lookup_cons]

/-- **A lock that was written is read back.** -/
theorem readLockfile_text (d : LockData) : readLockfile (some d.text) = some d.record := by
  have hparse : parse d.text = some (.obj (d.members.map entry)) :=
    parse_stringify (List.cons_ne_nil _ _)
  show (parse d.text).bind recognise = _
  rw [hparse]
  exact recognise_members d

/-! ## Which texts a start gets past -/

/-- An array or an object, which is never `===` to itself parsed again. -/
def isComposite : Option Json → Bool
  | some (.arr _) | some (.obj _) => true
  | _ => false

/-- There is no lockfile, or its text is a record whose start time has no parts. -/
def Reclaimable (file : Option (List Char)) : Prop :=
  file = none ∨ ∃ prior, readLockfile file = some prior ∧ isComposite prior.startedAt = false

section

variable {N : Type} [DecidableEq N] {host : Host N} {r : Request} {file : Option (List Char)}

/-- The text names no live daftari of this vault other than the starting process. -/
def NoLiveHolder (host : Host N) (file : Option (List Char)) : Prop :=
  ∀ prior, readLockfile file = some prior → ∀ attempt, namesLiveHolder host attempt prior = false

/-- The start ended well, with its own record in the lockfile. -/
def HoldsLock (host : Host N) (r : Request)
    (out : Except String Unit × Option (List Char)) : Prop :=
  out.1 = .ok () ∧ readLockfile out.2 = some (ourLock host r).record

omit [DecidableEq N] in
theorem holdsLock_text : HoldsLock host r (.ok (), some (ourLock host r).text) :=
  ⟨rfl, readLockfile_text _⟩

theorem same_self (v : Option Json) : same host v v = !isComposite v := by
  rcases v with _ | v
  · rfl
  · cases v <;> simp [same, isComposite]

theorem removeLockIfUnchanged_self {prior : LockRecord} (h : readLockfile file = some prior) :
    removeLockIfUnchanged host file prior = if isComposite prior.startedAt then file else none := by
  unfold removeLockIfUnchanged
  simp only [h, same_self, ne_eq, not_true_eq_false, false_or]
  cases isComposite prior.startedAt <;> rfl

theorem acquireFrom_succ {left : Nat} {raw : List Char} (h : NoLiveHolder host (some raw)) :
    acquireFrom host r (left + 1) (some raw) =
      acquireFrom host r left (((readLockfile (some raw)).map fun prior =>
        if isComposite prior.startedAt then some raw else none).getD (some raw)) := by
  rw [acquireFrom]
  show (if false = true then _ else _) = _
  cases hread : readLockfile (some raw) with
  | none => rfl
  | some prior =>
      simp only [h prior hread, Bool.false_eq_true, if_false]
      rw [removeLockIfUnchanged_self hread]
      rfl

/-- **A text that is no such record stays**, and the start gives up. -/
theorem acquireFrom_stuck (h : NoLiveHolder host file) (hstuck : ¬ Reclaimable file) (left : Nat) :
    acquireFrom host r left file = (.error (contentionError host.vaultRoot), file) := by
  cases file with
  | none => exact absurd (Or.inl rfl) hstuck
  | some raw =>
      have hkept : ((readLockfile (some raw)).map fun prior =>
          if isComposite prior.startedAt then some raw else none).getD (some raw) = some raw := by
        cases hread : readLockfile (some raw) with
        | none => rfl
        | some prior =>
            have hcomposite : isComposite prior.startedAt = true := by
              by_contra hplain
              exact hstuck (Or.inr ⟨prior, hread, Bool.not_eq_true _ ▸ hplain⟩)
            show (if isComposite prior.startedAt = true then some raw else none) = some raw
            rw [if_pos hcomposite]
      induction left with
      | zero => rfl
      | succ left ih => rw [acquireFrom_succ h, hkept, ih]

theorem acquireFrom_none (left : Nat) :
    acquireFrom host r (left + 1) none = (.ok (), some (ourLock host r).text) := rfl

theorem acquireFrom_reclaims (h : NoLiveHolder host file) (hfile : Reclaimable file)
    (left : Nat) : acquireFrom host r (left + 2) file = (.ok (), some (ourLock host r).text) := by
  rcases hfile with rfl | ⟨prior, hread, hplain⟩
  · exact acquireFrom_none _
  · cases file with
    | none => cases hread
    | some raw =>
        rw [acquireFrom_succ h, hread]
        simp only [Option.map_some, Option.getD_some, hplain, Bool.false_eq_true, if_false]
        exact acquireFrom_none _

/-- **A start gets past exactly the texts that are records**: whatever the lockfile
    holds, short of naming a live holder. -/
theorem acquireLock_reclaims_iff (host : Host N) (r : Request) (file : Option (List Char))
    (h : NoLiveHolder host file) :
    HoldsLock host r (acquireLock host r file) ↔ Reclaimable file := by
  constructor
  · rintro ⟨hok, -⟩
    by_contra hstuck
    rw [acquireLock, acquireFrom_stuck h hstuck] at hok
    cases hok
  · intro hfile
    have hrun : acquireLock host r file = (.ok (), some (ourLock host r).text) :=
      acquireFrom_reclaims h hfile 3
    rw [hrun]
    exact holdsLock_text

end

/-! ## A dead holder and an empty file -/

def lonelyHost : Host (List Char) where
  vaultRoot := "/v".toList
  pid := 101
  number := id
  isDaftariProcess := fun _ _ => false
  interpolated := fun _ => ""

theorem nobody_lives (file : Option (List Char)) : NoLiveHolder lonelyHost file := by
  intro prior _ attempt
  exact decide_eq_false fun h => Bool.false_ne_true h.2

/-- The lock that a dead process left is taken over. -/
theorem deadLock_reclaimed :
    HoldsLock lonelyHost (stdioStart "b") (acquireLock lonelyHost (stdioStart "b")
      (some ((stdioStart "a").lockData 7 "/v".toList).text)) :=
  (acquireLock_reclaims_iff lonelyHost (stdioStart "b") _ (nobody_lives _)).mpr
    (Or.inr ⟨_, readLockfile_text _, rfl⟩)

/-- **The empty file** that a crash between the create and the write leaves is not. -/
theorem emptyLock_wedges :
    NoLiveHolder lonelyHost (some []) ∧
      ¬ HoldsLock lonelyHost (stdioStart "b")
        (acquireLock lonelyHost (stdioStart "b") (some [])) := by
  refine ⟨nobody_lives _, ?_⟩
  rintro ⟨hok, -⟩
  have hrun : (acquireLock lonelyHost (stdioStart "b") (some [])).1
      = .error (contentionError lonelyHost.vaultRoot) := rfl
  cases hok

end Lock
