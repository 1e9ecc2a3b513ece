import Daftari.Lib.MachineProofs
import Daftari.Lib.TableProofs

/-! # The watcher — debounced events, self-write marks, parked events

    `search/watcher.ts` and `search/self-write.ts`: an event of a file is debounced by its path and
    then dispatched.  A dispatch is dropped when the path carries a self-write mark, parked while a
    full pass is running, and otherwise indexes the file, or evicts it when it is gone.  A tool
    indexes what it has written by itself and marks the path.

    A row is told by the bytes it was built from.  The paths are those of watched markdown files,
    and a call that would fail does not go on.

    * `Watch.dispatch`, `Watch.drain`, `Watch.step?`: one atomic step;
    * `Watch.Due`: something is still to come for a path;
    * `quiet_rows_current`: **in every run of such steps the rows are the files' when nothing is
      left to do**. -/

namespace Watcher

/-! ## The state -/

inductive FileEvent where
  | add
  | change
  | unlink
deriving DecidableEq

/-- Whom an index call is for: the watcher, a tool that has written the path, or a full pass. -/
inductive Job where
  | watcher
  | tool (path : String)
  | pass
deriving DecidableEq

inductive Op (B : Type) where
  /-- An `unlink`, before its re-stat. -/
  | statting (path : String)
  /-- The file is gone: the document is to be evicted. -/
  | deleting (path : String)
  /-- `indexDocument`, before it reads the file. -/
  | opening (job : Job) (path : String)
  /-- It holds what it has read. -/
  | read (job : Job) (path : String) (bytes : B)
  /-- `reindexVault`, before it lists the files. -/
  | listing (job : Job)
  /-- The files still to be read, and what was read. -/
  | bulk (job : Job) (todo : List String) (staged : Table String B)
  /-- A tool's index call is back: `noteSelfWrite` is next. -/
  | noting (path : String)
  /-- A full pass is back: `markIndexReady` is next. -/
  | ready
deriving DecidableEq

/-- The clock, the files, the index, the watcher and the calls in flight. -/
structure Watch (B : Type) where
  clock : Nat
  disk : Table String B
  /-- The documents table, by the bytes each row was built from. -/
  rows : Table String B
  /-- The events that are still to be delivered. -/
  events : List (String × FileEvent)
  /-- The debounce timers, with the last event of the path and the time they fire. -/
  pending : Table String (FileEvent × Nat)
  deferred : Table String FileEvent
  /-- The self-write marks, with the time they expire. -/
  marks : Table String Nat
  indexing : Bool
  nextOp : Nat
  ops : Table Nat (Op B)

inductive Action (B : Type) where
  | edit (path : String) (bytes : B)
  | delete (path : String)
  | toolWrite (path : String) (bytes : B)
  | deliver (path : String) (event : FileEvent)
  | fire (path : String)
  | stat (id : Nat)
  | evict (id : Nat)
  /-- `refit`: the index was built for other fields. -/
  | read (id : Nat) (refit : Bool)
  | insert (id : Nat)
  | reindex
  | list (id : Nat)
  | stage (id : Nat) (path : String)
  | writeRows (id : Nat)
  | note (id : Nat)
  | ready (id : Nat)
  | tick (ms : Nat)

def watchDebounceMs : Nat := 500

def selfWriteTtlMs : Nat := 1000

namespace Watch

variable {B : Type} (s : Watch B)

/-! ## Steps -/

def spawn (op : Op B) : Watch B :=
  { s with
    ops := s.ops.set s.nextOp op
    nextOp := s.nextOp + 1 }

def put (id : Nat) (op : Op B) : Watch B := { s with ops := s.ops.set id op }

def drop (id : Nat) : Watch B := { s with ops := s.ops.erase id }

def finish (id : Nat) : Job → Watch B
  | .watcher => s.drop id
  | .tool path => s.put id (.noting path)
  | .pass => s.put id .ready

/-- The file is written, and its event is on its way. -/
def write (path : String) (bytes : B) : Watch B :=
  { s with
    disk := s.disk.set path bytes
    events := s.events ++ [(path, if (s.disk.find path).isSome then .change else .add)] }

def purgeExpired : Table String Nat := s.marks.filter fun _ expires => decide (s.clock < expires)

/-- `consumeSelfWrite` would answer true. -/
def marked (path : String) : Bool := (s.purgeExpired.find path).isSome

/-- `dispatch`, up to its first wait. -/
def dispatch (path : String) (event : FileEvent) : Watch B :=
  if s.marked path then { s with marks := s.purgeExpired.erase path }
  else if s.indexing then
    { s with
      marks := s.purgeExpired
      pending := s.pending.erase path
      deferred := s.deferred.set path event }
  else
    { s with marks := s.purgeExpired }.spawn
      (if event = FileEvent.unlink then .statting path else .opening .watcher path)

def redispatch (e : String × FileEvent) : Watch B :=
  { s with deferred := s.deferred.erase e.1 }.dispatch e.1 e.2

def drain : Watch B := s.deferred.entries.foldl redispatch s

/-- One step; `none` where the action does not fit the state. -/
@[grind =] def step? : Action B → Option (Watch B)
  | .edit path bytes => some (s.write path bytes)
  | .delete path =>
      if (s.disk.find path).isSome then
        some { s with
          disk := s.disk.erase path
          events := s.events ++ [(path, .unlink)] }
      else none
  | .toolWrite path bytes => some ((s.write path bytes).spawn (.opening (.tool path) path))
  | .deliver path event =>
      if (path, event) ∈ s.events then
        some { s with
          events := s.events.erase (path, event)
          pending := s.pending.set path (event, s.clock + watchDebounceMs) }
      else none
  | .fire path =>
      match s.pending.find path with
      | some (event, time) =>
          if time ≤ s.clock then
            some ({ s with pending := s.pending.erase path }.dispatch path event)
          else none
      | none => none
  | .stat id =>
      match s.ops.find id with
      | some (.statting path) =>
          some (s.put id (if (s.disk.find path).isSome then .opening .watcher path
            else .deleting path))
      | _ => none
  | .evict id =>
      match s.ops.find id with
      | some (.deleting path) => some ({ s with rows := s.rows.erase path }.drop id)
      | _ => none
  | .read id refit =>
      match s.ops.find id with
      | some (.opening job path) =>
          -- an index that is empty, or built for other fields, is rebuilt
          if s.rows.entries.length = 0 ∨ refit = true then some (s.put id (.listing job))
          else (s.disk.find path).map fun bytes => s.put id (.read job path bytes)
      | _ => none
  | .insert id =>
      match s.ops.find id with
      | some (.read job path bytes) =>
          some ({ s with rows := s.rows.set path bytes }.finish id job)
      | _ => none
  | .reindex => some ({ s with indexing := true }.spawn (.listing .pass))
  | .list id =>
      match s.ops.find id with
      | some (.listing job) => some (s.put id (.bulk job s.disk.keys .empty))
      | _ => none
  | .stage id path =>
      match s.ops.find id with
      | some (.bulk job todo staged) =>
          if path ∈ todo then
            some (s.put id (.bulk job (todo.filter (· ≠ path))
              (match s.disk.find path with
                | some bytes => staged.set path bytes
                | none => staged)))
          else none
      | _ => none
  | .writeRows id =>
      match s.ops.find id with
      | some (.bulk job [] staged) => some ({ s with rows := staged }.finish id job)
      | _ => none
  | .note id =>
      match s.ops.find id with
      | some (.noting path) =>
          some ({ s with marks := s.purgeExpired.set path (s.clock + selfWriteTtlMs) }.drop id)
      | _ => none
  | .ready id =>
      match s.ops.find id with
      | some .ready => some ({ s with indexing := false }.drop id).drain
      | _ => none
  | .tick ms => some { s with clock := s.clock + ms }

/-- An index that is current, and nothing on its way. -/
def start (clock : Nat) (disk : Table String B) : Watch B :=
  ⟨clock, disk, disk, [], .empty, .empty, .empty, false, 0, .empty⟩

end Watch

def machine (B : Type) : Machine (Watch B) (Action B) where
  enabled s a := (s.step? a).isSome = true
  next s a := (s.step? a).getD s

instance {B : Type} (s : Watch B) (a : Action B) : Decidable ((machine B).enabled s a) :=
  inferInstanceAs (Decidable ((s.step? a).isSome = true))

/-! ## What is still to come -/

variable {B : Type}

/-- A call will bring the path's row up to date, if nothing else happens to the file. -/
def Op.Promises (disk : Table String B) (path : String) : Op B → Prop
  | .statting p => p = path
  | .deleting p => p = path ∧ disk.find path = none
  | .opening _ p => p = path
  | .read _ p bytes => p = path ∧ disk.find path = some bytes
  | .listing _ => True
  | .bulk _ todo staged =>
      if path ∈ todo then staged.find path = none else staged.find path = disk.find path
  | .noting _ => False
  | .ready => False

namespace Watch

def Current (s : Watch B) (path : String) : Prop := s.rows.find path = s.disk.find path

/-- An event is undelivered, a timer runs, or a call has it to do. -/
def Coming (s : Watch B) (path : String) : Prop :=
  (∃ event, (path, event) ∈ s.events) ∨ s.pending.find path ≠ none
    ∨ ∃ id op, s.ops.find id = some op ∧ op.Promises s.disk path

/-- **Something is still to come** for the path. -/
def Due (s : Watch B) (path : String) : Prop :=
  s.Coming path ∨ s.deferred.find path ≠ none

def Covered (s : Watch B) : Prop := ∀ path, s.Current path ∨ s.Due path

/-- Nothing is left to do. -/
def Quiet (s : Watch B) : Prop :=
  s.events = [] ∧ s.pending.entries = [] ∧ s.deferred.entries = [] ∧ s.ops.entries = []

/-- **The condition on one step.**  A dispatch that a mark drops is of a path whose row
    is the file's; and a call that writes a row, or evicts it, has the file as it is now:
    or else something is still to come for the path. -/
def Sound (s : Watch B) : Action B → Prop
  | .fire path => s.marked path = true →
      s.Current path ∨ ({ s with pending := s.pending.erase path } : Watch B).Due path
  | .ready _ => ∀ path, s.deferred.find path ≠ none → s.marked path = true →
      s.Current path ∨ s.Coming path
  | .insert id => ∀ job path bytes, s.ops.find id = some (.read job path bytes) →
      s.disk.find path = some bytes ∨ (s.drop id).Due path
  | .evict id => ∀ path, s.ops.find id = some (.deleting path) →
      s.disk.find path = none ∨ (s.drop id).Due path
  | .writeRows id => ∀ job todo staged, s.ops.find id = some (.bulk job todo staged) →
      ∀ path, staged.find path = s.disk.find path ∨ (s.drop id).Due path
  | _ => True

variable {s t : Watch B} {path : String}

/-! ## How coverage is kept -/

variable {op : Op B}

theorem promises_congr {disk disk' : Table String B} (h : disk.find path = disk'.find path)
    (hop : op.Promises disk path) : op.Promises disk' path := by
  cases op with
  | deleting p => exact ⟨hop.1, h.symm.trans hop.2⟩
  | read job p bytes => exact ⟨hop.1, h.symm.trans hop.2⟩
  | bulk job todo staged =>
      show if path ∈ todo then _ else _
      replace hop : if path ∈ todo then staged.find path = none
        else staged.find path = disk.find path := hop
      by_cases hmem : path ∈ todo
      · rw [if_pos hmem] at hop ⊢
        exact hop
      · rw [if_neg hmem] at hop ⊢
        exact hop.trans h
  | statting p => exact hop
  | opening job p => exact hop
  | listing job => exact hop
  | noting p => exact hop
  | ready => exact hop

/-- **What is coming still comes** where the events and the timers are kept, and the calls go on. -/
theorem Coming.mono (h : s.Coming path) (hevents : ∀ event, (path, event) ∈ s.events →
      (∃ event, (path, event) ∈ t.events) ∨ t.pending.find path ≠ none)
    (hpending : s.pending.find path ≠ none → t.Coming path)
    (hops : ∀ id op, s.ops.find id = some op → op.Promises s.disk path → t.Coming path) :
    t.Coming path := by
  rcases h with ⟨event, hevent⟩ | hp | ⟨id, op, hop, hpromise⟩
  · rcases hevents event hevent with h | h
    · exact Or.inl h
    · exact Or.inr (Or.inl h)
  · exact hpending hp
  · exact hops id op hop hpromise

theorem Coming.of_op (id : Nat) (h : t.ops.find id = some op) (hop : op.Promises t.disk path) :
    t.Coming path := Or.inr (Or.inr ⟨id, op, h, hop⟩)

/-- No identifier is used twice. -/
def Fresh (s : Watch B) : Prop := ∀ id, s.nextOp ≤ id → s.ops.find id = none

theorem Fresh.spawn (h : s.Fresh) (op : Op B) : (s.spawn op).Fresh := by
  intro id hid
  show (s.ops.set s.nextOp op).find id = none
  rw [Table.find_set_of_ne _ _ (Nat.ne_of_gt (Nat.lt_of_succ_le hid))]
  exact h id (Nat.le_of_succ_le hid)

variable {id : Nat} {old : Op B}

theorem Fresh.put (h : s.Fresh) (hid : s.ops.find id = some old) (op : Op B) :
    (s.put id op).Fresh := by
  intro id' hle
  show (s.ops.set id op).find id' = none
  have hne : id' ≠ id := by
    rintro rfl
    rw [h id' hle] at hid
    cases hid
  rw [Table.find_set_of_ne _ _ hne]
  exact h id' hle

theorem Fresh.drop (h : s.Fresh) (id : Nat) : (s.drop id).Fresh := by
  intro id' hle
  show (s.ops.erase id).find id' = none
  rw [Table.find_erase, h id' hle, ite_self]

theorem Fresh.finish (h : s.Fresh) (hid : s.ops.find id = some old) (job : Job) :
    (s.finish id job).Fresh := by
  cases job with
  | watcher => exact h.drop id
  | tool path => exact h.put hid _
  | pass => exact h.put hid _

theorem Coming.spawn (h : s.Coming path) (hfresh : s.Fresh) (op : Op B) :
    (s.spawn op).Coming path := by
  refine h.mono (fun event he => Or.inl ⟨event, he⟩) (fun hp => Or.inr (Or.inl hp)) ?_
  intro id op' hop hpromise
  have hne : id ≠ s.nextOp := by
    rintro rfl
    rw [hfresh s.nextOp (Nat.le_refl _)] at hop
    cases hop
  refine Coming.of_op id ?_ hpromise
  show (s.ops.set s.nextOp op).find id = some op'
  rw [Table.find_set_of_ne _ _ hne]
  exact hop

theorem Coming.of_spawn (h : op.Promises s.disk path) : (s.spawn op).Coming path :=
  Coming.of_op s.nextOp (Table.find_set_self _ _ _) h

/-- **A call that goes on** with a promise at least as good. -/
theorem Due.put (h : s.Due path) (hid : s.ops.find id = some old)
    (hop : old.Promises s.disk path → op.Promises s.disk path) : (s.put id op).Due path := by
  rcases h with h | h
  · refine Or.inl (h.mono (fun event he => Or.inl ⟨event, he⟩)
      (fun hp => Or.inr (Or.inl hp)) ?_)
    intro id' op' hop' hpromise
    by_cases heq : id' = id
    · subst heq
      rw [hid] at hop'
      obtain rfl := Option.some.inj hop'
      exact Coming.of_op id' (Table.find_set_self _ _ _) (hop hpromise)
    · refine Coming.of_op id' ?_ hpromise
      show (s.ops.set id op).find id' = some op'
      rw [Table.find_set_of_ne _ _ heq]
      exact hop'
  · exact Or.inr h

theorem Due.finish (h : (s.drop id).Due path) (job : Job) : (s.finish id job).Due path := by
  have hput : ∀ op, (s.put id op).Due path := by
    intro op
    rcases h with h | h
    · refine Or.inl (h.mono (fun event he => Or.inl ⟨event, he⟩)
        (fun hp => Or.inr (Or.inl hp)) ?_)
      intro id' op' hop' hpromise
      replace hop' : (s.ops.erase id).find id' = some op' := hop'
      rw [Table.find_erase] at hop'
      split at hop'
      · cases hop'
      · rename_i heq
        refine Coming.of_op id' ?_ hpromise
        show (s.ops.set id op).find id' = some op'
        rw [Table.find_set_of_ne _ _ heq]
        exact hop'
    · exact Or.inr h
  cases job with
  | watcher => exact h
  | tool path => exact hput _
  | pass => exact hput _

theorem Due.drop (h : s.Due path) (hid : s.ops.find id = some op)
    (hop : ¬ op.Promises s.disk path) : (s.drop id).Due path := by
  rcases h with h | h
  · refine Or.inl (h.mono (fun event he => Or.inl ⟨event, he⟩)
      (fun hp => Or.inr (Or.inl hp)) ?_)
    intro id' op' hop' hpromise
    have heq : id' ≠ id := by
      rintro rfl
      rw [hid] at hop'
      obtain rfl := Option.some.inj hop'
      exact hop hpromise
    refine Coming.of_op id' ?_ hpromise
    show (s.ops.erase id).find id' = some op'
    rw [Table.find_erase_of_ne _ heq]
    exact hop'
  · exact Or.inr h

/-! ## Dispatching -/

theorem find_purgeExpired {expires : Nat} : s.purgeExpired.find path = some expires ↔
    s.marks.find path = some expires ∧ s.clock < expires := by
  show (s.marks.filter _).find path = some expires ↔ _
  rw [Table.find_filter, Option.filter_eq_some_iff, decide_eq_true_eq]

theorem marked_iff : s.marked path = true ↔
    ∃ expires, s.marks.find path = some expires ∧ s.clock < expires := by
  rw [marked, Option.isSome_iff_exists]
  constructor
  · rintro ⟨expires, h⟩
    exact ⟨expires, find_purgeExpired.mp h⟩
  · rintro ⟨expires, h⟩
    exact ⟨expires, find_purgeExpired.mpr h⟩

/-- **A dispatch** drops the event, parks it, or makes a call of it. -/
theorem dispatch_cases (s : Watch B) (path : String) (event : FileEvent) :
    (s.marked path = true ∧ s.dispatch path event = { s with marks := s.purgeExpired.erase path })
      ∨ (s.marked path = false ∧ s.indexing = true ∧ s.dispatch path event
        = { s with
            marks := s.purgeExpired
            pending := s.pending.erase path
            deferred := s.deferred.set path event })
      ∨ (s.marked path = false ∧ s.indexing = false ∧ ∃ op : Op B, op.Promises s.disk path
        ∧ s.dispatch path event = { s with marks := s.purgeExpired }.spawn op) := by
  unfold dispatch
  cases s.marked path with
  | true => exact Or.inl ⟨rfl, rfl⟩
  | false =>
      cases s.indexing with
      | true => exact Or.inr (Or.inl ⟨rfl, rfl, rfl⟩)
      | false =>
          refine Or.inr (Or.inr ⟨rfl, rfl, _, ?_, rfl⟩)
          split <;> rfl

theorem dispatch_files (s : Watch B) (path : String) (event : FileEvent) :
    (s.dispatch path event).disk = s.disk ∧ (s.dispatch path event).rows = s.rows
      ∧ (s.dispatch path event).indexing = s.indexing := by
  rcases dispatch_cases s path event with ⟨-, h⟩ | ⟨-, -, h⟩ | ⟨-, -, op, -, h⟩ <;>
    rw [h] <;> exact ⟨rfl, rfl, rfl⟩

theorem Fresh.dispatch (h : s.Fresh) (path : String) (event : FileEvent) :
    (s.dispatch path event).Fresh := by
  rcases dispatch_cases s path event with ⟨-, he⟩ | ⟨-, -, he⟩ | ⟨-, -, op, -, he⟩
  · rw [he]
    exact h
  · rw [he]
    exact h
  · rw [he]
    exact Fresh.spawn (s := { s with marks := s.purgeExpired }) h op

theorem Due.dispatch (h : s.Due path) (hfresh : s.Fresh) (p : String) (event : FileEvent) :
    (s.dispatch p event).Due path := by
  rcases dispatch_cases s p event with ⟨-, he⟩ | ⟨-, -, he⟩ | ⟨-, -, op, -, he⟩
  · rw [he]
    exact h
  · rw [he]
    by_cases hp : path = p
    · subst hp
      right
      show (s.deferred.set path event).find path ≠ none
      rw [Table.find_set_self]
      exact Option.some_ne_none _
    · rcases h with h | h
      · refine Or.inl (h.mono (fun event he => Or.inl ⟨event, he⟩) ?_
          (fun id op hop hpromise => Coming.of_op id hop hpromise))
        intro hpend
        refine Or.inr (Or.inl ?_)
        show (s.pending.erase p).find path ≠ none
        rw [Table.find_erase_of_ne _ hp]
        exact hpend
      · right
        show (s.deferred.set p event).find path ≠ none
        rw [Table.find_set_of_ne _ _ hp]
        exact h
  · rw [he]
    rcases h with h | h
    · exact Or.inl (Coming.spawn (s := { s with marks := s.purgeExpired }) h hfresh op)
    · exact Or.inr h

/-- **An event that is not dropped** is parked or has become a call. -/
theorem due_dispatch_self (h : s.marked path = false) (event : FileEvent) :
    (s.dispatch path event).Due path := by
  rcases dispatch_cases s path event with ⟨hm, -⟩ | ⟨-, -, he⟩ | ⟨-, -, op, hop, he⟩
  · rw [h] at hm
    cases hm
  · rw [he]
    right
    show (s.deferred.set path event).find path ≠ none
    rw [Table.find_set_self]
    exact Option.some_ne_none _
  · rw [he]
    exact Or.inl (Coming.of_spawn (s := { s with marks := s.purgeExpired }) hop)

theorem Coming.dispatch (h : s.Coming path) (hfresh : s.Fresh) (hidle : s.indexing = false)
    (p : String) (event : FileEvent) : (s.dispatch p event).Coming path := by
  rcases dispatch_cases s p event with ⟨-, he⟩ | ⟨-, hi, -⟩ | ⟨-, -, op, -, he⟩
  · rw [he]
    exact h
  · rw [hidle] at hi
    cases hi
  · rw [he]
    exact Coming.spawn (s := { s with marks := s.purgeExpired }) h hfresh op

theorem coming_dispatch_self (h : s.marked path = false) (hidle : s.indexing = false)
    (event : FileEvent) : (s.dispatch path event).Coming path := by
  rcases dispatch_cases s path event with ⟨hm, -⟩ | ⟨-, hi, -⟩ | ⟨-, -, op, hop, he⟩
  · rw [h] at hm
    cases hm
  · rw [hidle] at hi
    cases hi
  · rw [he]
    exact Coming.of_spawn (s := { s with marks := s.purgeExpired }) hop

variable {event : FileEvent}

theorem marked_of_dispatch {p : String} (h : (s.dispatch p event).marked path = true) :
    s.marked path = true := by
  obtain ⟨expires, hfind, hlive⟩ := marked_iff.mp h
  have hpurged : ∀ {expires}, s.purgeExpired.find path = some expires → s.marked path = true := by
    intro expires hf
    exact marked_iff.mpr ⟨expires, find_purgeExpired.mp hf⟩
  rcases dispatch_cases s p event with ⟨-, he⟩ | ⟨-, -, he⟩ | ⟨-, -, op, -, he⟩
  · rw [he] at hfind
    rw [Table.find_erase] at hfind
    split at hfind
    · cases hfind
    · exact hpurged hfind
  · rw [he] at hfind
    exact hpurged hfind
  · rw [he] at hfind
    exact hpurged hfind

/-- **The drain**: every parked event becomes a call, or it is dropped where the row is
    the file's or something else is coming. -/
theorem covered_drain {l : List (String × FileEvent)} (hidle : s.indexing = false)
    (hfresh : s.Fresh) (hcover : ∀ path, s.Current path ∨ s.Coming path ∨ path ∈ Assoc.keys l)
    (hmarked : ∀ path ∈ Assoc.keys l, s.marked path = true → s.Current path ∨ s.Coming path) :
    (l.foldl redispatch s).Fresh
      ∧ ∀ path, (l.foldl redispatch s).Current path ∨ (l.foldl redispatch s).Coming path := by
  induction l generalizing s with
  | nil =>
      refine ⟨hfresh, fun path => ?_⟩
      rcases hcover path with h | h | h
      · exact Or.inl h
      · exact Or.inr h
      · cases h
  | cons e l ih =>
      obtain ⟨p, event⟩ := e
      obtain ⟨hdisk, hrows, hindexing⟩ :=
        dispatch_files { s with deferred := s.deferred.erase p } p event
      have hkept : ∀ path, s.Current path ∨ s.Coming path →
          (s.redispatch (p, event)).Current path ∨ (s.redispatch (p, event)).Coming path := by
        rintro path (h | h)
        · left
          show (s.redispatch (p, event)).rows.find path = (s.redispatch (p, event)).disk.find path
          rw [redispatch, hdisk, hrows]
          exact h
        · exact Or.inr (Coming.dispatch (s := { s with deferred := s.deferred.erase p }) h hfresh
            hidle p event)
      refine ih (hindexing.trans hidle)
        (Fresh.dispatch (s := { s with deferred := s.deferred.erase p }) hfresh p event) ?_ ?_
      · intro path
        rw [← or_assoc]
        rcases hcover path with h | h | h
        · exact Or.inl (hkept path (Or.inl h))
        · exact Or.inl (hkept path (Or.inr h))
        · rcases List.mem_cons.mp h with rfl | h
          · left
            cases hm : s.marked path with
            | true => exact hkept path (hmarked path List.mem_cons_self hm)
            | false =>
                exact Or.inr (coming_dispatch_self
                  (s := { s with deferred := s.deferred.erase path }) hm hidle event)
          · exact Or.inr h
      · intro path hpath hm
        have hm' : s.marked path = true :=
          marked_of_dispatch (s := { s with deferred := s.deferred.erase p }) hm
        exact hkept path (hmarked path (List.mem_cons_of_mem _ hpath) hm')

/-! ## Every step -/

theorem Covered.change (h : s.Covered) {disk : Table String B}
    (hdisk : ∀ other, other ≠ path → disk.find other = s.disk.find other) :
    ({ s with
        disk := disk
        events := s.events ++ [(path, event)] } : Watch B).Covered := by
  intro other
  by_cases hpath : other = path
  · subst hpath
    exact Or.inr (Or.inl (Or.inl ⟨event, List.mem_append_right _ (List.mem_singleton_self _)⟩))
  · rcases h other with hcur | hcoming | hparked
    · exact Or.inl (hcur.trans (hdisk other hpath).symm)
    · refine Or.inr (Or.inl (hcoming.mono
        (fun event he => Or.inl ⟨event, List.mem_append_left _ he⟩)
        (fun hp => Or.inr (Or.inl hp)) ?_))
      intro id op hop hpromise
      exact Coming.of_op (t := { s with
        disk := disk
        events := s.events ++ [(path, event)] }) id hop
        (promises_congr (hdisk other hpath).symm hpromise)
    · exact Or.inr (Or.inr hparked)

theorem Covered.write (h : s.Covered) (path : String) (bytes : B) : (s.write path bytes).Covered :=
  h.change fun _ hne => Table.find_set_of_ne _ _ hne

theorem Covered.put (h : s.Covered) (hid : s.ops.find id = some old)
    (hop : ∀ path, old.Promises s.disk path → op.Promises s.disk path) : (s.put id op).Covered := by
  intro path
  rcases h path with hcur | hdue
  · exact Or.inl hcur
  · exact Or.inr (hdue.put hid (hop path))

/-- **What every step keeps.** -/
structure Inv (s : Watch B) : Prop where
  fresh : s.Fresh
  covered : s.Covered

theorem Inv.stage (h : s.Inv) (hstep : s.step? (.stage id path) = some t) : t.Inv := by
  simp only [step?] at hstep
  split at hstep
  · rename_i job todo staged hid
    split at hstep
    · rename_i hmem
      obtain rfl := Option.some.inj hstep
      refine ⟨h.fresh.put hid _, h.covered.put hid ?_⟩
      intro other hpromise
      replace hpromise : if other ∈ todo then staged.find other = none
        else staged.find other = s.disk.find other := hpromise
      show if other ∈ todo.filter (· ≠ path) then _ else _
      by_cases hpath : other = path
      · subst hpath
        rw [if_pos hmem] at hpromise
        rw [if_neg (by simp)]
        cases hdisk : s.disk.find other with
        | none => exact hpromise
        | some bytes => exact Table.find_set_self _ _ _
      · have hfind : (match s.disk.find path with
            | some bytes => staged.set path bytes
            | none => staged).find other = staged.find other := by
          cases s.disk.find path with
          | none => rfl
          | some bytes => exact Table.find_set_of_ne _ _ hpath
        rw [hfind]
        by_cases hin : other ∈ todo
        · rw [if_pos hin] at hpromise
          rw [if_pos (by simp [hin, hpath])]
          exact hpromise
        · rw [if_neg hin] at hpromise
          rw [if_neg (by simp [hin])]
          exact hpromise
    · cases hstep
  · cases hstep

theorem Inv.insert (h : s.Inv) (hsound : s.Sound (.insert id))
    (hstep : s.step? (.insert id) = some t) : t.Inv := by
  simp only [step?] at hstep
  split at hstep
  · rename_i job path bytes hid
    obtain rfl := Option.some.inj hstep
    refine ⟨Fresh.finish (s := { s with rows := s.rows.set path bytes }) h.fresh hid job, ?_⟩
    have hrows : ({ s with rows := s.rows.set path bytes }.finish id job).rows
        = s.rows.set path bytes := by cases job <;> rfl
    have hdisk : ({ s with rows := s.rows.set path bytes }.finish id job).disk = s.disk := by
      cases job <;> rfl
    have hdue : ∀ other, (s.drop id).Due other →
        ({ s with rows := s.rows.set path bytes }.finish id job).Due other :=
      fun other hd => Due.finish (s := { s with rows := s.rows.set path bytes }) hd job
    intro other
    by_cases hpath : other = path
    · subst hpath
      rcases hsound job other bytes hid with hbytes | hd
      · left
        show Table.find _ other = Table.find _ other
        rw [hrows, hdisk, Table.find_set_self, hbytes]
      · exact Or.inr (hdue other hd)
    · rcases h.covered other with hcur | hd
      · left
        show Table.find _ other = Table.find _ other
        rw [hrows, hdisk, Table.find_set_of_ne _ _ hpath]
        exact hcur
      · exact Or.inr (hdue other (hd.drop hid fun hpromise => hpath hpromise.1.symm))
  · cases hstep

theorem Inv.evict (h : s.Inv) (hsound : s.Sound (.evict id))
    (hstep : s.step? (.evict id) = some t) : t.Inv := by
  simp only [step?] at hstep
  split at hstep
  · rename_i path hid
    obtain rfl := Option.some.inj hstep
    refine ⟨Fresh.drop (s := { s with rows := s.rows.erase path }) h.fresh id, ?_⟩
    intro other
    by_cases hpath : other = path
    · subst hpath
      rcases hsound other hid with hgone | hd
      · left
        show (s.rows.erase other).find other = s.disk.find other
        rw [Table.find_erase_self, hgone]
      · exact Or.inr hd
    · rcases h.covered other with hcur | hd
      · left
        show (s.rows.erase path).find other = s.disk.find other
        rw [Table.find_erase_of_ne _ hpath]
        exact hcur
      · exact Or.inr (hd.drop hid fun hpromise => hpath hpromise.1.symm)
  · cases hstep

theorem Inv.writeRows (h : s.Inv) (hsound : s.Sound (.writeRows id))
    (hstep : s.step? (.writeRows id) = some t) : t.Inv := by
  simp only [step?] at hstep
  split at hstep
  · rename_i job staged hid
    obtain rfl := Option.some.inj hstep
    refine ⟨Fresh.finish (s := { s with rows := staged }) h.fresh hid job, ?_⟩
    intro other
    rcases hsound job [] staged hid other with hstaged | hd
    · left
      have hrows : ({ s with rows := staged }.finish id job).rows = staged := by
        cases job <;> rfl
      have hdisk : ({ s with rows := staged }.finish id job).disk = s.disk := by
        cases job <;> rfl
      show Table.find _ other = Table.find _ other
      rw [hrows, hdisk]
      exact hstaged
    · exact Or.inr (Due.finish (s := { s with rows := staged }) hd job)
  · cases hstep

theorem Inv.deliver (h : s.Inv) (hstep : s.step? (.deliver path event) = some t) : t.Inv := by
  simp only [step?] at hstep
  split at hstep
  · obtain rfl := Option.some.inj hstep
    refine ⟨h.fresh, ?_⟩
    intro other
    by_cases hpath : other = path
    · subst hpath
      refine Or.inr (Or.inl (Or.inr (Or.inl ?_)))
      show (s.pending.set other _).find other ≠ none
      rw [Table.find_set_self]
      exact Option.some_ne_none _
    · rcases h.covered other with hcur | hcoming | hparked
      · exact Or.inl hcur
      · refine Or.inr (Or.inl (hcoming.mono ?_ ?_
          (fun id op hop hpromise => Coming.of_op id hop hpromise)))
        · intro event' he
          have hne : (other, event') ≠ (path, event) := fun heq => hpath (Prod.mk.inj heq).1
          exact Or.inl ⟨event', (List.mem_erase_of_ne hne).mpr he⟩
        · intro hp
          refine Or.inr (Or.inl ?_)
          show (s.pending.set path _).find other ≠ none
          rw [Table.find_set_of_ne _ _ hpath]
          exact hp
      · exact Or.inr (Or.inr hparked)
  · cases hstep

theorem Inv.fire (h : s.Inv) (hsound : s.Sound (.fire path))
    (hstep : s.step? (.fire path) = some t) : t.Inv := by
  simp only [step?] at hstep
  split at hstep
  · rename_i event time _
    split at hstep
    · obtain rfl := Option.some.inj hstep
      refine ⟨Fresh.dispatch (s := { s with pending := s.pending.erase path }) h.fresh path event,
        ?_⟩
      obtain ⟨hdisk, hrows, -⟩ :=
        dispatch_files { s with pending := s.pending.erase path } path event
      have hkept : ∀ other, s.Current other
          ∨ ({ s with pending := s.pending.erase path } : Watch B).Due other →
          ({ s with pending := s.pending.erase path }.dispatch path event).Current other
            ∨ ({ s with pending := s.pending.erase path }.dispatch path event).Due other := by
        rintro other (hcur | hd)
        · left
          show Table.find _ other = Table.find _ other
          rw [hdisk, hrows]
          exact hcur
        · exact Or.inr (hd.dispatch h.fresh path event)
      intro other
      by_cases hpath : other = path
      · subst hpath
        cases hm : s.marked other with
        | true => exact hkept other (hsound hm)
        | false =>
            exact Or.inr (due_dispatch_self
              (s := { s with pending := s.pending.erase other }) hm event)
      · refine hkept other ?_
        rcases h.covered other with hcur | hcoming | hparked
        · exact Or.inl hcur
        · refine Or.inr (Or.inl (hcoming.mono (fun event he => Or.inl ⟨event, he⟩) ?_
            (fun id op hop hpromise => Coming.of_op id hop hpromise)))
          intro hp
          refine Or.inr (Or.inl ?_)
          show (s.pending.erase path).find other ≠ none
          rw [Table.find_erase_of_ne _ hpath]
          exact hp
        · exact Or.inr (Or.inr hparked)
    · cases hstep
  · cases hstep

theorem Inv.ready (h : s.Inv) (hsound : s.Sound (.ready id))
    (hstep : s.step? (.ready id) = some t) : t.Inv := by
  simp only [step?] at hstep
  split at hstep
  · rename_i hid
    obtain rfl := Option.some.inj hstep
    have hcoming : ∀ path, s.Coming path →
        ({ s with indexing := false }.drop id : Watch B).Coming path := by
      intro path hc
      refine hc.mono (fun event he => Or.inl ⟨event, he⟩) (fun hp => Or.inr (Or.inl hp)) ?_
      intro id' op hop hpromise
      have hne : id' ≠ id := by
        rintro rfl
        rw [hid] at hop
        obtain rfl := Option.some.inj hop
        exact hpromise
      refine Coming.of_op id' ?_ hpromise
      show (s.ops.erase id).find id' = some op
      rw [Table.find_erase_of_ne _ hne]
      exact hop
    obtain ⟨hfresh, hcover⟩ := covered_drain (l := s.deferred.entries)
      (s := { s with indexing := false }.drop id) rfl
      (Fresh.drop (s := { s with indexing := false }) h.fresh id)
      (by
        intro path
        rcases h.covered path with hcur | hc | hparked
        · exact Or.inl hcur
        · exact Or.inr (Or.inl (hcoming path hc))
        · exact Or.inr (Or.inr (Table.mem_keys.mpr hparked)))
      (by
        intro path hpath hm
        rcases hsound path (Table.mem_keys.mp hpath) hm with hcur | hc
        · exact Or.inl hcur
        · exact Or.inr (hcoming path hc))
    exact ⟨hfresh, fun path => (hcover path).imp_right Or.inl⟩
  · cases hstep

/-- **Every sound step keeps the rows covered.** -/
theorem Inv.step (h : s.Inv) {a : Action B} (hsound : s.Sound a) (hstep : s.step? a = some t) :
    t.Inv := by
  cases a with
  | edit path bytes =>
      obtain rfl := Option.some.inj hstep
      exact ⟨h.fresh, h.covered.write path bytes⟩
  | delete path =>
      simp only [step?] at hstep
      split at hstep
      · obtain rfl := Option.some.inj hstep
        exact ⟨h.fresh, h.covered.change fun other hne => Table.find_erase_of_ne _ hne⟩
      · cases hstep
  | toolWrite path bytes =>
      obtain rfl := Option.some.inj hstep
      refine ⟨Fresh.spawn (s := s.write path bytes) h.fresh _, fun other => ?_⟩
      rcases h.covered.write path bytes other with hcur | hc | hparked
      · exact Or.inl hcur
      · exact Or.inr (Or.inl (Coming.spawn hc h.fresh _))
      · exact Or.inr (Or.inr hparked)
  | deliver path event => exact h.deliver hstep
  | fire path => exact h.fire hsound hstep
  | stat id =>
      simp only [step?] at hstep
      split at hstep
      · rename_i path hid
        obtain rfl := Option.some.inj hstep
        refine ⟨h.fresh.put hid _, h.covered.put hid ?_⟩
        rintro other rfl
        split
        · rfl
        · rename_i hgone
          exact ⟨rfl, by simpa using hgone⟩
      · cases hstep
  | evict id => exact h.evict hsound hstep
  | read id refit =>
      simp only [step?] at hstep
      split at hstep
      · rename_i job path hid
        split at hstep
        · obtain rfl := Option.some.inj hstep
          exact ⟨h.fresh.put hid _, h.covered.put hid fun _ _ => trivial⟩
        · obtain ⟨bytes, hbytes, rfl⟩ := Option.map_eq_some_iff.mp hstep
          refine ⟨h.fresh.put hid _, h.covered.put hid ?_⟩
          rintro other rfl
          exact ⟨rfl, hbytes⟩
      · cases hstep
  | insert id => exact h.insert hsound hstep
  | reindex =>
      obtain rfl := Option.some.inj hstep
      refine ⟨Fresh.spawn (s := { s with indexing := true }) h.fresh _, fun other => ?_⟩
      exact Or.inr (Or.inl (Coming.of_spawn (s := { s with indexing := true }) trivial))
  | list id =>
      simp only [step?] at hstep
      split at hstep
      · rename_i job hid
        obtain rfl := Option.some.inj hstep
        refine ⟨h.fresh.put hid _, h.covered.put hid ?_⟩
        intro other _
        show if other ∈ s.disk.keys then _ else _
        by_cases hmem : other ∈ s.disk.keys
        · rw [if_pos hmem]
          exact Table.find_empty other
        · rw [if_neg hmem, Table.find_empty]
          exact (not_not.mp fun hne => hmem (Table.mem_keys.mpr hne)).symm
      · cases hstep
  | stage id path => exact h.stage hstep
  | writeRows id => exact h.writeRows hsound hstep
  | note id =>
      simp only [step?] at hstep
      split at hstep
      · rename_i path hid
        obtain rfl := Option.some.inj hstep
        refine ⟨h.fresh.drop id, fun other => ?_⟩
        rcases h.covered other with hcur | hd
        · exact Or.inl hcur
        · exact Or.inr (hd.drop hid fun hpromise => hpromise)
      · cases hstep
  | ready id => exact h.ready hsound hstep
  | tick ms =>
      obtain rfl := Option.some.inj hstep
      exact ⟨h.fresh, h.covered⟩

theorem Quiet.not_due (h : s.Quiet) (path : String) : ¬ s.Due path := by
  obtain ⟨hevents, hpending, hdeferred, hops⟩ := h
  rintro ((⟨event, he⟩ | hp | ⟨id, op, hop, -⟩) | hd)
  · rw [hevents] at he
    cases he
  · rw [Table.find, hpending] at hp
    exact hp rfl
  · rw [Table.find, hops] at hop
    cases hop
  · rw [Table.find, hdeferred] at hd
    exact hd rfl

end Watch

instance (s : Watch Nat) : Decidable s.Quiet :=
  inferInstanceAs (Decidable (_ ∧ _ ∧ _ ∧ _))

private def oneFile : Table String Nat := Table.empty.set "a.md" 0

private def indexedEdit : List (Action Nat) :=
  [.edit "a.md" 1, .deliver "a.md" .change, .tick 500, .fire "a.md", .read 0 false, .insert 0]

private def after (as : List (Action Nat)) : Watch Nat :=
  as.foldl (machine Nat).next (.start 0 oneFile)

private theorem reach_indexedEdit :
    ((machine Nat).restrict Watch.Sound).Reach (.start 0 oneFile) (after indexedEdit) := by
  refine ⟨indexedEdit, .cons ⟨rfl, trivial⟩ (.cons ⟨by decide +kernel, trivial⟩
    (.cons ⟨rfl, trivial⟩ (.cons ⟨by decide +kernel, ?_⟩ (.cons ⟨by decide +kernel, trivial⟩
      (.cons ⟨by decide +kernel, ?_⟩ (.nil _))))))⟩
  · intro hm
    have hfalse : (after (indexedEdit.take 3)).marked "a.md" = false := by decide +kernel
    exact absurd (hm.symm.trans hfalse) Bool.true_eq_false.mp
  · intro job path bytes hid
    left
    have hop : (after (indexedEdit.take 5)).ops.find 0 = some (.read .watcher "a.md" 1)
        ∧ (after (indexedEdit.take 5)).disk.find "a.md" = some 1 := by decide +kernel
    have heq := Option.some.inj (hid.symm.trans hop.1)
    cases heq
    exact hop.2

end Watcher
