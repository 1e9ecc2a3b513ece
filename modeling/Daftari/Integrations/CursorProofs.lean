import Daftari.Integrations.EngineProofs

/-! # The change cursor — held back until the work is done

    Discovery moves the cursor in the state it is handed.  The cycle rolls it back, writes the state
    out many times, and moves it in its last write if nothing failed.

    * `Replayable`: the state and every write keep the cursor of before;
    * `sourceLoop_replayable`: **no write of the loop moves it**;
    * `cursor_follows_work`: **over any run** of cycles that handle all they discover, the cursor
      moves only with all of it distilled or unchanged. -/

namespace Engine

section Cursor

variable {A D : Type} (name : String) (sha256Hex : String → String) (c : Cycle A D)

/-! ## Nothing moves the cursor on the way -/

structure Replayable (cursor : Option String) (adapterData : Option D)
    (p : Progress A D) : Prop where
  keepsCursor : p.state.cursor = cursor
  keepsData : p.state.adapterData = adapterData
  written : ∀ w ∈ p.written, w.1.cursor = cursor ∧ w.1.adapterData = adapterData

namespace Replayable

variable {cursor : Option String} {adapterData : Option D} {p : Progress A D}

theorem write (h : Replayable cursor adapterData p) : Replayable cursor adapterData p.write where
  keepsCursor := h.keepsCursor
  keepsData := h.keepsData
  written := by
    exact List.forall_mem_append.mpr
      ⟨h.written, List.forall_mem_singleton.mpr ⟨h.keepsCursor, h.keepsData⟩⟩

theorem store (h : Replayable cursor adapterData p) (id : String) (s : SourceState) :
    Replayable cursor adapterData (p.store id s) :=
  ⟨h.keepsCursor, h.keepsData, h.written⟩

theorem note (h : Replayable cursor adapterData p) (e : Event) :
    Replayable cursor adapterData (p.note e) :=
  ⟨h.keepsCursor, h.keepsData, h.written⟩

theorem of_eq (h : Replayable cursor adapterData p) {q : Progress A D}
    (hstate : q.state = p.state) (hwritten : q.written = p.written) :
    Replayable cursor adapterData q :=
  ⟨by rw [hstate]; exact h.keepsCursor, by rw [hstate]; exact h.keepsData,
    by rw [hwritten]; exact h.written⟩

end Replayable

variable {cursor : Option String} {adapterData : Option D}
  {p : Progress A D}

theorem markFailed_replayable (h : Replayable cursor adapterData p) (remote : RemoteSource)
    (reason : SourceFailureReason) :
    Replayable cursor adapterData (markFailed name c p remote reason) :=
  (h.store remote.id _).of_eq rfl rfl

theorem distillSource_replayable (h : Replayable cursor adapterData p) (remote : RemoteSource)
    (revision text : String) :
    Replayable cursor adapterData (distillSource name sha256Hex c p remote revision text) := by
  rcases distillSource_cases name sha256Hex c p remote revision text with
    ⟨_, heq⟩ | ⟨next, _, _, _, ⟨failure, heq⟩ | ⟨runId, heq⟩⟩
  · rw [heq]
    exact (h.store _ _).write.of_eq rfl rfl
  · rw [heq]
    exact ((h.store _ _).write.store _ _).of_eq rfl rfl
  · rw [heq]
    exact (((h.store _ _).write.note _).store _ _).write.of_eq rfl rfl

/-- **The handling of a source does not move the cursor.** -/
theorem handleSource_replayable (h : Replayable cursor adapterData p) (remote : RemoteSource) :
    Replayable cursor adapterData (handleSource name sha256Hex c p remote).1 := by
  rcases handleSource_cases name sha256Hex c p remote with ⟨previous, _, _, heq⟩ |
    ⟨_, ⟨reason, _, heq⟩ | ⟨revision, text, _, ⟨_, heq⟩ | ⟨_, heq⟩⟩⟩
  · rw [heq]
    exact (h.store _ _).write.of_eq rfl rfl
  · rw [heq]
    exact markFailed_replayable name c (h.note _) remote reason
  · rw [heq]
    exact markFailed_replayable name c ((h.note _).note _) remote .limit
  · rw [heq]
    have hcounted : Replayable cursor adapterData
        (countText (fetchedText p remote revision text) text) :=
      ((h.note (.asked remote.id remote.revision)).note
        (.fetched remote.id revision text)).of_eq rfl rfl
    exact distillSource_replayable name sha256Hex c hcounted remote revision text

theorem cutOff_replayable (h : Replayable cursor adapterData p) (remaining : List RemoteSource) :
    Replayable cursor adapterData (cutOff name c p remaining) := by
  induction remaining generalizing p with
  | nil => exact h
  | cons remote rest ih => exact ih (markFailed_replayable name c h remote .limit)

/-- **No write of the loop moves the cursor.** -/
theorem sourceLoop_replayable (h : Replayable cursor adapterData p) (i : Nat)
    (sources : List RemoteSource) :
    Replayable cursor adapterData (sourceLoop name sha256Hex c i sources p) := by
  induction sources generalizing i p with
  | nil => exact h
  | cons remote rest ih =>
      unfold sourceLoop
      split
      · generalize remote :: rest = remaining
        induction remaining generalizing p with
        | nil => exact h
        | cons r remaining ih' =>
            have hfailed : Replayable cursor adapterData (p.failed (sourceIdentity name r.id)) :=
              h.of_eq rfl rfl
            exact ih' hfailed
      · have hone := handleSource_replayable name sha256Hex c h remote
        split
        · rename_i q heq
          rw [heq] at hone
          exact cutOff_replayable name c hone rest
        · rename_i q heq
          rw [heq] at hone
          exact ih hone (i + 1)

theorem sweepUnavailable_replayable (h : Replayable cursor adapterData p)
    (current : List String) (stored : List (String × SourceState)) :
    Replayable cursor adapterData (sweepUnavailable name c current stored p).1 := by
  induction stored generalizing p with
  | nil => exact h
  | cons entry rest ih =>
      unfold sweepUnavailable
      split
      · exact ih h
      · dsimp only
        split
        · exact h
        · refine ih ?_
          exact (h.store _ _).write.of_eq rfl rfl

/-! ## Every source ends somewhere -/

/-- The source is in one of the lists of the outcome that the loop fills. -/
def ReconcileOutcome.ended (o : ReconcileOutcome) (sid : String) : Prop :=
  sid ∈ o.distilledSourceIds ∨ sid ∈ o.unchangedSourceIds ∨ sid ∈ o.failedSourceIds

theorem handleSource_ended (p : Progress A D) (remote : RemoteSource) :
    ((handleSource name sha256Hex c p remote).1.outcome.ended (sourceIdentity name remote.id)) ∧
      ∀ sid, p.outcome.ended sid →
        (handleSource name sha256Hex c p remote).1.outcome.ended sid := by
  have hunchanged : ∀ q : Progress A D, q.outcome = p.outcome →
      (q.unchanged (sourceIdentity name remote.id)).outcome.ended
        (sourceIdentity name remote.id) ∧
      ∀ sid, p.outcome.ended sid →
        (q.unchanged (sourceIdentity name remote.id)).outcome.ended sid := by
    intro q hq
    simp only [ReconcileOutcome.ended, Progress.unchanged, hq, List.mem_append, List.mem_singleton]
    exact ⟨Or.inr (Or.inl (Or.inr trivial)), fun sid h =>
      h.imp_right fun h => h.imp_left Or.inl⟩
  have hdistilled : ∀ q : Progress A D, q.outcome = p.outcome →
      (q.distilled (sourceIdentity name remote.id)).outcome.ended
        (sourceIdentity name remote.id) ∧
      ∀ sid, p.outcome.ended sid →
        (q.distilled (sourceIdentity name remote.id)).outcome.ended sid := by
    intro q hq
    simp only [ReconcileOutcome.ended, Progress.distilled, hq, List.mem_append, List.mem_singleton]
    exact ⟨Or.inl (Or.inr trivial), fun sid h => h.imp_left Or.inl⟩
  have hfailed : ∀ q : Progress A D, q.outcome = p.outcome →
      (q.failed (sourceIdentity name remote.id)).outcome.ended
        (sourceIdentity name remote.id) ∧
      ∀ sid, p.outcome.ended sid →
        (q.failed (sourceIdentity name remote.id)).outcome.ended sid := by
    intro q hq
    simp only [ReconcileOutcome.ended, Progress.failed, hq, List.mem_append, List.mem_singleton]
    exact ⟨Or.inr (Or.inr (Or.inr trivial)), fun sid h =>
      h.imp_right fun h => h.imp_right Or.inl⟩
  rcases handleSource_cases name sha256Hex c p remote with ⟨previous, _, _, heq⟩ |
    ⟨_, ⟨reason, _, heq⟩ | ⟨revision, text, _, ⟨_, heq⟩ | ⟨_, heq⟩⟩⟩
  · rw [heq]
    exact hunchanged _ rfl
  · rw [heq]
    exact hfailed _ rfl
  · rw [heq]
    exact hfailed _ rfl
  · rw [heq]
    rcases distillSource_cases name sha256Hex c
        (countText (fetchedText p remote revision text) text) remote revision text with
      ⟨_, heq'⟩ | ⟨next, _, _, _, ⟨failure, heq'⟩ | ⟨runId, heq'⟩⟩
    · rw [heq']
      exact hunchanged _ rfl
    · rw [heq']
      exact hfailed _ rfl
    · rw [heq']
      exact hdistilled _ rfl

/-- A list of failures, nothing else: what the loop adds for the sources that it
    does not come to. -/
theorem failedAll_ended (sources : List RemoteSource) (p : Progress A D) :
    (∀ r ∈ sources, (sources.foldl (fun p r => p.failed (sourceIdentity name r.id)) p).outcome.ended
      (sourceIdentity name r.id)) ∧ ∀ sid, p.outcome.ended sid →
      (sources.foldl (fun p r => p.failed (sourceIdentity name r.id)) p).outcome.ended sid := by
  induction sources generalizing p with
  | nil => exact ⟨nofun, fun _ h => h⟩
  | cons remote rest ih =>
      obtain ⟨hrest, hkept⟩ := ih (p.failed (sourceIdentity name remote.id))
      refine ⟨?_, fun sid h => hkept sid ?_⟩
      · intro r hr
        rcases List.mem_cons.mp hr with rfl | hr
        · refine hkept _ ?_
          right; right
          exact List.mem_append_right _ (List.mem_singleton_self _)
        · exact hrest r hr
      · exact h.imp_right fun h => h.imp_right (List.mem_append_left _)

theorem cutOff_outcome (remaining : List RemoteSource) (p : Progress A D) :
    (cutOff name c p remaining).outcome =
      (remaining.foldl (fun p r => p.failed (sourceIdentity name r.id)) p).outcome := by
  have hgen : ∀ p q : Progress A D, p.outcome = q.outcome →
      (cutOff name c p remaining).outcome =
        (remaining.foldl (fun p r => p.failed (sourceIdentity name r.id)) q).outcome := by
    induction remaining with
    | nil => intro p q h; exact h
    | cons remote rest ih =>
        intro p q h
        refine ih _ _ ?_
        simp only [markFailed, Progress.failed, Progress.store, h]
  exact hgen p p rfl

/-- **Every source that the loop is given ends in one of the lists.** -/
theorem sourceLoop_ended (sources : List RemoteSource) (i : Nat) (p : Progress A D) :
    (∀ r ∈ sources, (sourceLoop name sha256Hex c i sources p).outcome.ended
      (sourceIdentity name r.id)) ∧ ∀ sid, p.outcome.ended sid →
      (sourceLoop name sha256Hex c i sources p).outcome.ended sid := by
  induction sources generalizing i p with
  | nil => exact ⟨nofun, fun _ h => h⟩
  | cons remote rest ih =>
      unfold sourceLoop
      split
      · exact failedAll_ended name (remote :: rest) p
      · obtain ⟨hone, hkept⟩ := handleSource_ended name sha256Hex c p remote
        split
        · rename_i q heq
          rw [heq] at hone hkept
          obtain ⟨hrest, hcut⟩ := failedAll_ended name rest q
          rw [cutOff_outcome]
          refine ⟨?_, fun sid h => hcut sid (hkept sid h)⟩
          intro r hr
          rcases List.mem_cons.mp hr with rfl | hr
          · exact hcut _ hone
          · exact hrest r hr
        · rename_i q heq
          rw [heq] at hone hkept
          obtain ⟨hrest, hloop⟩ := ih (i + 1) q
          refine ⟨?_, fun sid h => hloop sid (hkept sid h)⟩
          intro r hr
          rcases List.mem_cons.mp hr with rfl | hr
          · exact hloop _ hone
          · exact hrest r hr

/-! ## The cycle -/

/-- What a cycle discovers, with the tokens it has by then. -/
def Cycle.discovery (c : Cycle A D) (state : ProviderState A D) : Discovery D :=
  match c.refresh state.auth with
  | .renewed auth => discovered c { state with auth := auth }
  | _ => discovered c state

def ReconcileOutcome.handled (name : String) (o : ReconcileOutcome)
    (sources : List RemoteSource) : Prop :=
  ∀ s ∈ sources, sourceIdentity name s.id ∈ o.distilledSourceIds ∨
    sourceIdentity name s.id ∈ o.unchangedSourceIds

/-- The hint is about every source that discovery returns, or discovery moves
    neither the cursor nor the adapter data. -/
def Covers (w : World A D) (c : Cycle A D) : Prop :=
  (∀ s ∈ (c.discovery w.state).sources.getD [], c.hint.inScope s.id = true) ∨
    ((c.discovery w.state).cursor = w.state.cursor ∧
      (c.discovery w.state).adapterData = w.state.adapterData)

/-- Every source discovery returned was handled, by a cycle that ran to its end. -/
def Done (name : String) (sha256Hex : String → String) (w : World A D) (c : Cycle A D) : Prop :=
  ∃ sources o, (c.discovery w.state).sources = some sources ∧
    (reconcileProvider name sha256Hex c w.state w.history).outcome = .ok o ∧
    o.handled name sources

/-- **The cursor follows the work** in this cycle: where it ends up elsewhere all
    that was discovered was handled, and no write but the last moves it. -/
structure Follows (name : String) (sha256Hex : String → String) (w : World A D)
    (c : Cycle A D) : Prop where
  moved : ((World.next name sha256Hex w c).state.cursor ≠ w.state.cursor ∨
    (World.next name sha256Hex w c).state.adapterData ≠ w.state.adapterData) →
      Done name sha256Hex w c
  earlier : ∀ entry ∈ (reconcileProvider name sha256Hex c w.state w.history).written.dropLast,
    entry.1.cursor = w.state.cursor ∧ entry.1.adapterData = w.state.adapterData

/-- The writes of a cycle all keep this cursor and this adapter data, or all but
    the last do, and then `done` holds. -/
def LastMoves (cursor : Option String) (adapterData : Option D)
    (written : List (ProviderState A D × List Event)) (done : Prop) : Prop :=
  (∀ w ∈ written, w.1.cursor = cursor ∧ w.1.adapterData = adapterData) ∨
    ∃ front last, written = front ++ [last] ∧
      (∀ w ∈ front, w.1.cursor = cursor ∧ w.1.adapterData = adapterData) ∧ done

/-- Replayable progress, committed: with all sources in scope, the write that
    moves the cursor is the last, and no source has failed. -/
theorem commit_lastMoves (discovery : Discovery D) (h : Replayable cursor adapterData p)
    {sources : List RemoteSource}
    (hended : ∀ r ∈ sources, p.outcome.ended (sourceIdentity name r.id)) :
    LastMoves cursor adapterData (commit c discovery p).written
      ((commit c discovery p).outcome.handled name sources) := by
  unfold commit
  split
  · rename_i hgo
    refine Or.inr ⟨p.written, _, rfl, h.written, ?_⟩
    intro s hs
    rcases hended s hs with hdone | hdone | hdone
    · exact Or.inl hdone
    · exact Or.inr hdone
    · rw [hgo.2] at hdone
      cases hdone
  · exact Or.inl h.write.written

theorem commit_replayable {discovery : Discovery D} (h : Replayable cursor adapterData p)
    (hcursor : discovery.cursor = cursor) (hdata : discovery.adapterData = adapterData) :
    ∀ w ∈ (commit c discovery p).written, w.1.cursor = cursor ∧ w.1.adapterData = adapterData := by
  unfold commit
  split
  · intro w hw
    rcases List.mem_append.mp hw with hw | hw
    · exact h.written w hw
    · rw [List.mem_singleton.mp hw]
      exact ⟨hcursor, hdata⟩
  · exact h.write.written

/-- **A cycle with valid tokens** moves the cursor in its last write at most,
    with everything handled that discovery returned. -/
theorem reconcileWith_lastMoves (state : ProviderState A D) (history : List Event)
    (written : List (ProviderState A D × List Event))
    (hwritten : ∀ w ∈ written, w.1.cursor = state.cursor ∧ w.1.adapterData = state.adapterData)
    (hcovers : (∀ s ∈ (discovered c state).sources.getD [], c.hint.inScope s.id = true) ∨
      ((discovered c state).cursor = state.cursor ∧
        (discovered c state).adapterData = state.adapterData)) :
    LastMoves state.cursor state.adapterData
      (reconcileWith name sha256Hex c state history written).written
      (∃ sources o, (discovered c state).sources = some sources ∧
        (reconcileWith name sha256Hex c state history written).outcome = .ok o ∧
        o.handled name sources) := by
  unfold reconcileWith
  dsimp only
  cases hsources : (discovered c state).sources with
  | none => exact Or.inl hwritten
  | some sources =>
      dsimp only
      cases checkDiscovered name c sources with
      | some message => exact Or.inl hwritten
      | none =>
          dsimp only
          -- what the sweep leaves is still replayable
          have hstart : Replayable state.cursor state.adapterData
              { state := state, history := history, written := written } :=
            ⟨rfl, rfl, hwritten⟩
          have hswept := sweepUnavailable_replayable name c hstart
            ((sources.filter fun s => c.hint.inScope s.id).map RemoteSource.id) state.sources
          split
          · exact Or.inl hswept.written
          · have hloop := sourceLoop_replayable name sha256Hex c hswept 0
              (sources.filter fun s => c.hint.inScope s.id)
            rcases hcovers with hall | ⟨hcursor, hdata⟩
            · rw [hsources, Option.getD_some] at hall
              have hcurrent : (sources.filter fun s => c.hint.inScope s.id) = sources :=
                List.filter_eq_self.mpr hall
              rw [hcurrent] at hloop ⊢
              rcases commit_lastMoves name c (discovered c state) hloop
                  (sourceLoop_ended name sha256Hex c sources 0 _).1 with
                hkept | ⟨front, last, heq, hfront, hdone⟩
              · exact Or.inl hkept
              · exact Or.inr ⟨front, last, heq, hfront, sources, _, rfl, rfl, hdone⟩
            · exact Or.inl (commit_replayable c hloop hcursor hdata)

/-- **A whole cycle**, with the token refresh before it. -/
theorem reconcileProvider_lastMoves (w : World A D) (hcovers : Covers w c) :
    LastMoves w.state.cursor w.state.adapterData
      (reconcileProvider name sha256Hex c w.state w.history).written (Done name sha256Hex w c) := by
  unfold Covers at hcovers
  unfold Done reconcileProvider
  unfold Cycle.discovery at hcovers ⊢
  cases hrefresh : c.refresh w.state.auth with
  | failed => exact Or.inl nofun
  | terminal auth =>
      left
      intro entry hentry
      rw [List.mem_singleton.mp hentry]
      exact ⟨rfl, rfl⟩
  | current =>
      rw [hrefresh] at hcovers
      exact reconcileWith_lastMoves name sha256Hex c w.state w.history [] nofun hcovers
  | renewed auth =>
      rw [hrefresh] at hcovers
      refine reconcileWith_lastMoves name sha256Hex c { w.state with auth := auth } w.history
        [({ w.state with auth := auth }, w.history)] ?_ hcovers
      intro entry hentry
      rw [List.mem_singleton.mp hentry]
      exact ⟨rfl, rfl⟩

theorem next_written (w : World A D) : World.next name sha256Hex w c = w ∨
      ((World.next name sha256Hex w c).state, (World.next name sha256Hex w c).history) ∈
        (reconcileProvider name sha256Hex c w.state w.history).written := by
  unfold World.next
  dsimp only
  split
  · exact Or.inl rfl
  · rename_i state history hlast
    exact Or.inr (List.mem_of_mem_take (List.mem_of_getLast? hlast))

/-- **A cycle that covers what it discovers follows the work.** -/
theorem follows_of_covers (w : World A D) (hcovers : Covers w c) : Follows name sha256Hex w c := by
  rcases reconcileProvider_lastMoves name sha256Hex c w hcovers with
    hkept | ⟨front, last, heq, hfront, hdone⟩
  · refine ⟨fun hmoved => ?_, fun entry hentry => hkept entry ((List.dropLast_subset _) hentry)⟩
    exfalso
    rcases next_written name sha256Hex c w with hsame | hwritten
    · rw [hsame] at hmoved
      rcases hmoved with hmoved | hmoved <;> exact hmoved rfl
    · obtain ⟨hcursor, hdata⟩ := hkept _ hwritten
      rcases hmoved with hmoved | hmoved
      · exact hmoved hcursor
      · exact hmoved hdata
  · refine ⟨fun _ => hdone, fun entry hentry => ?_⟩
    rw [heq, List.dropLast_concat] at hentry
    exact hfront entry hentry

end Cursor

/-! ## Every run -/

/-- **The change cursor never outruns the work**, in every run of cycles that cover
    what they discover: each of them follows the work, wherever it is cut off. -/
theorem cursor_follows_work {A D : Type} (name : String) (sha256Hex : String → String)
    (start w : World A D) (cycles : List (Cycle A D))
    (hrun : ((engine name sha256Hex).restrict Covers).Exec start cycles w)
    (before : List (Cycle A D)) (c : Cycle A D) (after : List (Cycle A D))
    (hsplit : cycles = before ++ c :: after) :
    ∃ u, (engine name sha256Hex).Exec start before u ∧ Follows name sha256Hex u c := by
  rw [hsplit] at hrun
  obtain ⟨u, hbefore, hcovers, _⟩ := hrun.split
  exact ⟨u, hbefore.of_restrict, follows_of_covers name sha256Hex c u hcovers.2⟩

/-! ## A cycle that does not cover its discovery -/

def atCursor (cursor : String) : World Unit String where
  state := { auth := (), cursor := some cursor, enrollment := none, adapterData := none,
             sources := [] }
  history := []

/-- A change of `a` is announced; discovery finds `b` changed too, and moves the cursor past both.
    All there is to fetch can be fetched and distilled. -/
def announced (ids : List String) : Cycle Unit String where
  hint := .sources ids true
  refresh _ := .current
  discover _ :=
    { sources := some [⟨"a", "r1", none⟩, ⟨"b", "r1", none⟩]
      cursor := some "page2"
      adapterData := none }
  fetch remote := .ok ⟨remote.id, remote.revision, some "a"⟩
  distill _ := .ok "run"
  recordUnavailable _ := true
  seenAt := "2026-07-01T00:00:00.000Z"
  elapsedMs _ := 0
  limits := {}
  lasting := none

def digest (_ : String) : String :=
  "ca978112ca1bbdcafac231b39a23dc4da786eff8147c4e72b9807785afee48bb"

/-- **A narrowed rediscovery outruns the work**: the cursor moves past `b`, which
    the cycle never handles. -/
theorem cursor_outruns :
    ¬ ∀ (start w : World Unit String) (cycles : List (Cycle Unit String)),
      (engine "notion" digest).Exec start cycles w →
        ∀ before c after, cycles = before ++ c :: after →
          ∃ u, (engine "notion" digest).Exec start before u ∧ Follows "notion" digest u c := by
  intro h
  have hrun : (engine "notion" digest).Exec (atCursor "page1") [announced ["a"]]
      ((engine "notion" digest).next (atCursor "page1") (announced ["a"])) :=
    .cons trivial (.nil _)
  obtain ⟨u, hu, hfollows⟩ := h _ _ _ hrun [] (announced ["a"]) [] rfl
  cases hu
  have hmoved : (World.next "notion" digest (atCursor "page1") (announced ["a"])).state.cursor ≠
      (atCursor "page1").state.cursor := by decide +kernel
  obtain ⟨sources, o, hsources, ho, hhandled⟩ := hfollows.moved (Or.inl hmoved)
  have hoo : o = { distilledSourceIds := ["notion:a"] } := by
    have : (reconcileProvider "notion" digest (announced ["a"]) (atCursor "page1").state
        (atCursor "page1").history).outcome.toOption =
          some { distilledSourceIds := ["notion:a"] } := by decide +kernel
    rw [ho] at this
    exact Option.some.inj this
  subst hoo
  obtain rfl : [⟨"a", "r1", none⟩, ⟨"b", "r1", none⟩] = sources := Option.some.inj hsources
  have := hhandled ⟨"b", "r1", none⟩ (by decide)
  revert this
  decide +kernel

/-- The same discovery under a hint about both sources. -/
theorem cursor_follows_work_announced :
    ∃ u, (engine "notion" digest).Exec (atCursor "page1") [] u ∧
      Follows "notion" digest u (announced ["a", "b"]) :=
  cursor_follows_work "notion" digest (atCursor "page1") _ [announced ["a", "b"]]
    (.cons ⟨trivial, Or.inl (by decide +kernel)⟩ (.nil _)) [] (announced ["a", "b"]) [] rfl

end Engine
