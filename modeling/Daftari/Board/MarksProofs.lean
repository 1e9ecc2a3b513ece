import Daftari.Board.ReconcileProofs
import Mathlib.Data.List.Chain

/-! # Marks of the system — where they stand after any run of calls

    `board/board.ts`, `tools/board.ts`.  A listing appends what its pass emits, a disposition
    lists and appends the event of a human, a resolution appends `resolved`.

    * `marks_alternate`: **over every run of calls no history begins with a mark, no `resolved`
      stands after another, and a `reopened` after a `resolved` only.** -/

namespace Board

/-- `DISPOSE_EVENTS`. -/
def disposeEvents : List LedgerEventType := [.accept, .defer, .dismiss, .reassign]

/-- What the adapters list to a caller, one card a key, and the instant of the call. -/
structure Listing where
  live : List Finding
  now : Int
  nodup : (live.map Finding.identityKey).Nodup

/-- `listBoard`, unfiltered: the pass, and the log it leaves. -/
def listBoard (clock : Clock) (flat : List LedgerEvent) (l : Listing) :
    ReconcileResult × List LedgerEvent :=
  let result := reconcile clock l.live (loadLedger flat) l.now
  (result, appendAll flat result.emit)

/-- A call.  What a disposition takes from the roles and the configuration is in `mayDispose`
    and `ownerOk`, and what it writes about a finding in `record`; `readable` is the check of the
    paths of a descriptor. -/
inductive Call where
  | list (l : Listing)
  | dispose (l : Listing) (findingId : String) (event : LedgerEventType)
      (mayDispose ownerOk : Bool) (record : Finding → LedgerEvent)
  | resolve (l : Listing) (findingId : String) (readable : FindingDescriptor → Bool)

/-- `vaultBoardDispose`: the log it leaves. -/
def vaultBoardDispose (clock : Clock) (flat : List LedgerEvent) (l : Listing) (findingId : String)
    (event : LedgerEventType) (mayDispose ownerOk : Bool) (record : Finding → LedgerEvent) :
    List LedgerEvent :=
  if Text.trim findingId.toList = [] ∨ mayDispose = false ∨ event ∉ disposeEvents then flat
  else
    let (board, listed) := listBoard clock flat l
    match board.findings.find? fun f => f.identityKey = findingId with
    | none => listed
    | some finding =>
        if event = .reassign ∧ ownerOk = false then listed
        else appendEvent listed { record finding with findingId := findingId, event := event }

/-- `vaultBoardResolve`: the log it leaves. -/
def vaultBoardResolve (clock : Clock) (flat : List LedgerEvent) (l : Listing) (findingId : String)
    (readable : FindingDescriptor → Bool) : List LedgerEvent :=
  if Text.trim findingId.toList = [] then flat
  else
    match (loadLedger flat).find findingId with
    | none => flat
    | some h =>
        match latestDescriptor h.events with
        | none => flat
        | some descriptor =>
            if readable descriptor = false ∨ findingId ∈ l.live.map Finding.identityKey ∨
                h.latest.event = .resolved then flat
            else appendEvent flat (buildSystemEvent clock findingId .resolved
              h.latest.againstFingerprint l.now (some descriptor))

def Call.run (clock : Clock) (flat : List LedgerEvent) : Call → List LedgerEvent
  | .list l => (listBoard clock flat l).2
  | .dispose l findingId event mayDispose ownerOk record =>
      vaultBoardDispose clock flat l findingId event mayDispose ownerOk record
  | .resolve l findingId readable => vaultBoardResolve clock flat l findingId readable

/-- The log after a run of calls, from none. -/
def logAfter (clock : Clock) (calls : List Call) : List LedgerEvent :=
  calls.foldl (Call.run clock) []

/-! ## Histories -/

/-- What may come next in a history. -/
def Follows (a b : LedgerEvent) : Prop :=
  (b.event = .reopened → a.event = .resolved) ∧ (b.event = .resolved → a.event ≠ .resolved)

structure Alternates (events : List LedgerEvent) : Prop where
  chain : events.IsChain Follows
  first : ∀ evt ∈ events.head?, isMark evt = false

variable {clock : Clock} {events flat : List LedgerEvent} {key : String} {evt : LedgerEvent}

theorem Alternates.push (h : Alternates events)
    (hevt : isMark evt = true → ∃ a ∈ events.getLast?, Follows a evt) :
    Alternates (events ++ [evt]) where
  chain := by
    refine List.isChain_append.mpr ⟨h.chain, .singleton _, fun a ha b hb => ?_⟩
    obtain rfl := Option.some.inj hb
    cases hmark : isMark evt with
    | true =>
        obtain ⟨a', ha', hab⟩ := hevt hmark
        rwa [Option.mem_unique ha ha']
    | false =>
        have hno : ¬ (evt.event = .resolved ∨ evt.event = .reopened) := of_decide_eq_false hmark
        exact ⟨fun he => absurd (Or.inr he) hno, fun he => absurd (Or.inl he) hno⟩
  first := by
    intro b hb
    cases events with
    | cons a events => exact h.first b hb
    | nil =>
        obtain rfl := Option.some.inj hb
        refine Bool.eq_false_iff.mpr fun hmark => ?_
        obtain ⟨a, ha, -⟩ := hevt hmark
        cases ha

theorem latest_mem {h : History} (hfind : (loadLedger flat).find key = some h) :
    h.latest ∈ (ofFinding flat key).getLast? := by
  have hevents := find_loadLedger flat key
  rw [hfind] at hevents
  split at hevents
  · cases hevents
  · rw [← Option.some.inj hevents]
    exact List.getLast?_eq_some_getLast h.nonempty

/-- **What a pass emits for a key goes on with its history**: nothing, or one mark. -/
theorem emittedFor_follows (l : Listing) (key : String) :
    emittedFor clock l.live (loadLedger flat) l.now key = [] ∨
      ∃ evt, emittedFor clock l.live (loadLedger flat) l.now key = [evt] ∧
        ∃ a ∈ (ofFinding flat key).getLast?, Follows a evt := by
  by_cases hkey : key ∈ l.live.map Finding.identityKey
  · obtain ⟨finding, hf, rfl⟩ := List.mem_map.mp hkey
    rw [emittedFor_live clock l.nodup (loadLedger flat) l.now hf]
    cases hfind : (loadLedger flat).find finding.identityKey with
    | none => exact Or.inl rfl
    | some h =>
        simp only [liveCard, columnForLiveWithLedger_snd]
        split
        · rename_i hlatest
          exact Or.inr ⟨_, rfl, _, latest_mem hfind, fun _ => of_decide_eq_true hlatest, nofun⟩
        · exact Or.inl rfl
  · cases hfind : (loadLedger flat).find key with
    | none =>
        refine Or.inl (List.filter_eq_nil_iff.mpr fun evt hevt hname => ?_)
        exact Table.mem_keys.mp (of_decide_eq_true hname ▸ (mem_emit clock hevt).2) hfind
    | some h =>
        have habsent : key ∈ absentKeys l.live (loadLedger flat) :=
          List.mem_filter.mpr ⟨Table.mem_keys.mpr (by rw [hfind]; exact nofun),
            decide_eq_true hkey⟩
        rw [emittedFor_absent clock (loadLedger flat) l.now habsent, absentOf, hfind]
        dsimp only
        rw [absentCard_eq]
        split
        · rename_i hlatest
          refine Or.inr ⟨_, rfl, _, latest_mem hfind, nofun, fun _ he => ?_⟩
          rw [he] at hlatest
          rcases hlatest with hlatest | hlatest <;> cases hlatest
        · split <;> exact Or.inl rfl

/-! ## Calls -/

section

variable (h : ∀ key, Alternates (ofFinding flat key))
include h

theorem Alternates.listBoard (l : Listing) (key : String) :
    Alternates (ofFinding (listBoard clock flat l).2 key) := by
  have hlog : (Board.listBoard clock flat l).2 =
      flat ++ (reconcile clock l.live (loadLedger flat) l.now).emit :=
    appendAll_eq flat fun evt he => (mem_emit clock he).1
  rw [hlog, ofFinding, List.filter_append]
  show Alternates (ofFinding flat key ++ emittedFor clock l.live (loadLedger flat) l.now key)
  rcases emittedFor_follows l key with hnil | ⟨evt, hone, hfollows⟩
  · rw [hnil, List.append_nil]
    exact h key
  · rw [hone]
    exact (h key).push fun _ => hfollows

theorem Alternates.appendEvent (hevt : isMark evt = true →
      ∃ a ∈ (ofFinding flat evt.findingId).getLast?, Follows a evt) (key : String) :
    Alternates (ofFinding (appendEvent flat evt) key) := by
  rw [Board.appendEvent, ofFinding_append]
  split
  · rename_i hkey
    exact (h key).push (hkey ▸ hevt)
  · exact h key

/-- One call keeps every history as it should be. -/
theorem Alternates.run (call : Call) : ∀ key, Alternates (ofFinding (call.run clock flat) key) := by
  cases call with
  | list l => exact .listBoard h l
  | dispose l findingId event mayDispose ownerOk record =>
      show ∀ key, Alternates (ofFinding (vaultBoardDispose ..) key)
      unfold vaultBoardDispose
      split
      · exact h
      · rename_i hgate
        have hlisted : ∀ key, Alternates (ofFinding (Board.listBoard clock flat l).2 key) :=
          .listBoard h l
        dsimp only
        split
        · exact hlisted
        · split
          · exact hlisted
          · -- the events of humans are no marks
            refine .appendEvent hlisted fun hmark => absurd ?_ hgate
            rcases of_decide_eq_true hmark with he | he <;>
              exact Or.inr (Or.inr (by rw [show event = _ from he]; decide))
  | resolve l findingId readable =>
      show ∀ key, Alternates (ofFinding (vaultBoardResolve ..) key)
      unfold vaultBoardResolve
      split
      · exact h
      · split
        · exact h
        · rename_i ledger hfind
          split
          · exact h
          · split
            · exact h
            · rename_i hgate
              exact .appendEvent h fun _ => ⟨_, latest_mem hfind, nofun,
                fun _ he => hgate (Or.inr (Or.inr he))⟩

end

/-- **WHERE THE MARKS STAND.**  After any run of calls, with whatever the adapters list to each of
    them, no history begins with a mark of the system, no `resolved` stands directly after
    another, and a `reopened` stands directly after a `resolved` only. -/
theorem marks_alternate (clock : Clock) (calls : List Call) :
    ∀ key, Alternates (ofFinding (logAfter clock calls) key) := by
  have hrun : ∀ flat, (∀ key, Alternates (ofFinding flat key)) →
      ∀ key, Alternates (ofFinding (calls.foldl (Call.run clock) flat) key) := by
    induction calls with
    | nil => exact fun _ h => h
    | cons call calls ih => exact fun flat h => ih _ (Alternates.run h call)
  exact hrun [] fun _ => ⟨.nil, fun _ hb => absurd hb.symm (Option.some_ne_none _)⟩

end Board
