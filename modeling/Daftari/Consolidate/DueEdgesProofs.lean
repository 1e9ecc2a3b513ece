import Daftari.Curation.EdgesProofs
import Daftari.Lib.BestProductsProofs
import Mathlib.Algebra.Order.Field.Rat
import Mathlib.Tactic.NormNum

/-! # The clocks of a session — which edges are due

    An edge is due when it has rested too long for its strength, or when a change reaches it: the
    signal of a changed document goes from premise to dependent, and every edge passes on the share
    that its strength is of the cap.

    * `decayBackstopDue`, `eventDue`: the two clocks, with their tables and their queue;
    * `Tracks`: the event walk is the search of that graph, with its findings kept under `from`, a
      line break and `to`;
    * `eventDue_closure_iff`: **what is due is what the signal reaches above the floor, unless two
      pairs it reaches share a key**, and the cap on the expansions is never met. -/

namespace Consolidate

open Edges (DerivesFromEdge edgeKey edgeKCap)
open BestProducts (Net Search start)

abbrev Edge := DerivesFromEdge ℚ

inductive DueReason
  | backstop
  | decay
  | event
deriving DecidableEq, Repr

structure DueEdge where
  fromPath : String
  toPath : String
  strength : ℚ
  reason : DueReason
deriving DecidableEq, Repr

/-- The edge as a review unit. -/
def DueEdge.pair (d : DueEdge) : String × String := (d.fromPath, d.toPath)

/-- `due` with a reason. -/
def dueFor (reason : DueReason) (e : Edge) : DueEdge :=
  { fromPath := e.fromPath, toPath := e.toPath, strength := e.strength, reason := reason }

/-! ## The decay and backstop clocks -/

/-- `CONSOLIDATE_MAX_INTERVAL_DAYS`. -/
def maxIntervalDays : ℚ := 90

def msPerDay : ℚ := 86400000

/-- `daysBetween` of two instants in milliseconds. -/
def daysBetween (thenMs now : Int) : ℚ := (now - thenMs : Int) / msPerDay

/-- `age >= reviewIntervalDays(strength)` for an age that is not negative: the
    interval is `2 ** max(0, strength)` days, and never over the maximum.  The
    power of the fraction is compared in whole powers. -/
def reviewReached (age strength : ℚ) : Prop :=
  let s := max 0 strength
  2 ^ s.num.toNat ≤ age ^ s.den ∨ maxIntervalDays ≤ age

instance (age strength : ℚ) : Decidable (reviewReached age strength) :=
  inferInstanceAs (Decidable (_ ∨ _))

def live (e : Edge) : Bool :=
  decide (e.status ≠ .revoked) && decide (e.directionVerdict ≠ .symmetric)

/-- How long ago an edge was last re-derived, `dateMs` being the milliseconds of an instant. -/
def restedDays (dateMs : String → Int) (now : Int) (e : Edge) : ℚ :=
  daysBetween (dateMs e.lastRederived) now

def decayBackstopDue (dateMs : String → Int) (now : Int) (edges : List Edge) : List DueEdge :=
  edges.filterMap fun e =>
    if e.status = .revoked then none
    else if e.directionVerdict = .symmetric then none
    else
      let age := max 0 (restedDays dateMs now e)
      if maxIntervalDays ≤ age then some (dueFor .backstop e)
      else if reviewReached age e.strength then some (dueFor .decay e)
      else none

/-! ## The event clock -/

/-- `CONSOLIDATE_PATH_STRENGTH_FLOOR`. -/
def pathStrengthFloor : ℚ := 1 / 10

/-- An edge that passes a signal on is kept under its premise. -/
def keepUnderPremise (m : List (String × List Edge)) (e : Edge) : List (String × List Edge) :=
  if e.status = .revoked then m
  else if e.directionVerdict = .symmetric then m
  else Assoc.set m e.toPath ((m.lookup e.toPath).getD [] ++ [e])

def byPremise (edges : List Edge) : List (String × List Edge) := edges.foldl keepUnderPremise []

/-- The share of the signal an edge passes on. -/
def hopFactor (e : Edge) : ℚ := min (max (e.strength / edgeKCap) 0) 1

/-- The event walk under way; the queue from its head on. -/
structure EventWalk where
  queue : List (String × ℚ)
  bestProduct : List (String × ℚ)
  due : List (String × DueEdge)
deriving DecidableEq, Repr

def admitChanged (w : EventWalk) (p : String) : EventWalk :=
  if (w.bestProduct.lookup p).getD (-1) < 1 then
    { w with bestProduct := Assoc.set w.bestProduct p 1, queue := w.queue ++ [(p, 1)] }
  else w

/-- One edge out of a path that `product` has reached. -/
def relaxEdge (product : ℚ) (w : EventWalk) (e : Edge) : EventWalk :=
  let carried := product * hopFactor e
  if carried < pathStrengthFloor then w
  else
    let key := edgeKey e.fromPath e.toPath
    let due := if (w.due.lookup key).isSome then w.due else w.due ++ [(key, dueFor .event e)]
    if (w.bestProduct.lookup e.fromPath).getD 0 < carried then
      { queue := w.queue ++ [(e.fromPath, carried)]
        bestProduct := Assoc.set w.bestProduct e.fromPath carried
        due := due }
    else { w with due := due }

/-- The loop, for at most so many expansions. -/
def eventLoop (premises : List (String × List Edge)) : Nat → EventWalk → EventWalk
  | 0, w => w
  | fuel + 1, w =>
      match w.queue with
      | [] => w
      | (path, product) :: rest =>
          if product < (w.bestProduct.lookup path).getD 0 then
            eventLoop premises fuel { w with queue := rest }
          else
            eventLoop premises fuel
              (((premises.lookup path).getD []).foldl (relaxEdge product) { w with queue := rest })

def maxExpansions (changedPaths : List String) (edges : List Edge) : Nat :=
  edges.length * edges.length + edges.length + changedPaths.length + 16

def eventWalk (changedPaths : List String) (edges : List Edge) : EventWalk :=
  eventLoop (byPremise edges) (maxExpansions changedPaths edges)
    (changedPaths.foldl admitChanged { queue := [], bestProduct := [], due := [] })

def eventDue (changedPaths : List String) (edges : List Edge) : List DueEdge :=
  (eventWalk changedPaths edges).due.map Prod.snd

/-! ## The graph of the signal -/

theorem hopFactor_nonneg (e : Edge) : 0 ≤ hopFactor e :=
  le_min (le_max_right _ _) zero_le_one

theorem hopFactor_le_one (e : Edge) : hopFactor e ≤ 1 := min_le_right _ _

/-- The live, directed edges, premise to dependent. -/
def net (edges : List Edge) : Net String ℚ Edge where
  arcs := edges.filter live
  src := DerivesFromEdge.toPath
  dst := DerivesFromEdge.fromPath
  factor := hopFactor
  nonneg := hopFactor_nonneg
  le_one := hopFactor_le_one

theorem live_iff {e : Edge} :
    live e = true ↔ e.status ≠ .revoked ∧ e.directionVerdict ≠ .symmetric := by
  simp [live]

theorem keepUnderPremise_of_live {e : Edge} (h : live e = true) (m : List (String × List Edge)) :
    keepUnderPremise m e = Assoc.set m e.toPath ((m.lookup e.toPath).getD [] ++ [e]) := by
  obtain ⟨hstatus, hverdict⟩ := live_iff.mp h
  unfold keepUnderPremise
  rw [if_neg hstatus, if_neg hverdict]

theorem keepUnderPremise_of_not_live {e : Edge} (h : ¬ live e = true)
    (m : List (String × List Edge)) : keepUnderPremise m e = m := by
  unfold keepUnderPremise
  by_cases hstatus : e.status = .revoked
  · rw [if_pos hstatus]
  · rw [if_neg hstatus]
    by_cases hverdict : e.directionVerdict = .symmetric
    · rw [if_pos hverdict]
    · exact absurd (live_iff.mpr ⟨hstatus, hverdict⟩) h

theorem lookup_byPremise (edges : List Edge) (p : String) :
    ((byPremise edges).lookup p).getD [] = (edges.filter live).filter fun e => e.toPath = p := by
  have hrun : ∀ (l : List Edge) (m : List (String × List Edge)),
      ((l.foldl keepUnderPremise m).lookup p).getD []
        = (m.lookup p).getD [] ++ (l.filter live).filter fun e => e.toPath = p := by
    intro l
    induction l with
    | nil => exact fun m => (List.append_nil _).symm
    | cons e l ih =>
        intro m
        rw [List.foldl_cons, ih]
        by_cases hlive : live e = true
        · rw [keepUnderPremise_of_live hlive, List.filter_cons_of_pos hlive, Assoc.lookup_set]
          by_cases hp : p = e.toPath
          · subst hp
            rw [if_pos rfl, List.filter_cons_of_pos (by simp), Option.getD_some,
              List.append_assoc]
            rfl
          · rw [if_neg hp, List.filter_cons_of_neg (by simpa using fun h => hp h.symm)]
        · rw [keepUnderPremise_of_not_live hlive, List.filter_cons_of_neg hlive]
  exact hrun edges []

/-! ## The walk is the search -/

/-- What is kept of the edges crossed: the first of each key. -/
def keepDue (due : List (String × DueEdge)) (e : Edge) : List (String × DueEdge) :=
  if (due.lookup (edgeKey e.fromPath e.toPath)).isSome then due
  else due ++ [(edgeKey e.fromPath e.toPath, dueFor .event e)]

structure Tracks (w : EventWalk) (s : Search String ℚ Edge) : Prop where
  queue : w.queue = s.queue
  best : ∀ p, (w.bestProduct.lookup p).getD 0 = s.best p
  due : w.due = s.crossed.foldl keepDue []

theorem getD_set (m : List (String × ℚ)) (p : String) (q : ℚ) {best : String → ℚ}
    (h : ∀ v, (m.lookup v).getD 0 = best v) (v : String) :
    ((Assoc.set m p q).lookup v).getD 0 = Function.update best p q v := by
  rw [Assoc.lookup_set, Function.update_apply]
  by_cases hv : v = p
  · rw [if_pos hv, if_pos hv, Option.getD_some]
  · rw [if_neg hv, if_neg hv, h]

variable {s : Search String ℚ Edge}

theorem Tracks.enter {w : EventWalk} (h : Tracks w s) (p : String) :
    Tracks (admitChanged w p) (BestProducts.enter s p) := by
  have hiff : (w.bestProduct.lookup p).getD (-1) < 1 ↔ s.best p < 1 := by
    rw [← h.best p]
    cases w.bestProduct.lookup p with
    | some q => exact Iff.rfl
    | none => exact iff_of_true (by norm_num) (by norm_num)
  unfold admitChanged BestProducts.enter
  by_cases hnew : s.best p < 1
  · rw [if_pos (hiff.mpr hnew), if_pos hnew]
    exact ⟨congrArg (· ++ [(p, 1)]) h.queue, getD_set _ p 1 h.best, h.due⟩
  · rw [if_neg fun hlt => hnew (hiff.mp hlt), if_neg hnew]
    exact h

theorem Tracks.relax {w : EventWalk} (h : Tracks w s) (edges : List Edge) (product : ℚ) (e : Edge) :
    Tracks (relaxEdge product w e) ((net edges).relax pathStrengthFloor product s e) := by
  have hdue : (if (w.due.lookup (edgeKey e.fromPath e.toPath)).isSome then w.due
      else w.due ++ [(edgeKey e.fromPath e.toPath, dueFor .event e)])
        = (s.crossed ++ [e]).foldl keepDue [] := by
    rw [List.foldl_append, ← h.due]
    rfl
  have hrelax : (net edges).relax pathStrengthFloor product s e =
      if product * hopFactor e < pathStrengthFloor then s
      else if s.best e.fromPath < product * hopFactor e then
        { queue := s.queue ++ [(e.fromPath, product * hopFactor e)]
          best := Function.update s.best e.fromPath (product * hopFactor e)
          crossed := s.crossed ++ [e] }
      else { s with crossed := s.crossed ++ [e] } := rfl
  rw [hrelax]
  unfold relaxEdge
  by_cases hfloor : product * hopFactor e < pathStrengthFloor
  · rw [if_pos hfloor, if_pos hfloor]
    exact h
  · rw [if_neg hfloor, if_neg hfloor, h.best]
    by_cases hbest : s.best e.fromPath < product * hopFactor e
    · rw [if_pos hbest, if_pos hbest]
      exact ⟨congrArg (· ++ [(e.fromPath, product * hopFactor e)]) h.queue,
        getD_set _ _ _ h.best, hdue⟩
    · rw [if_neg hbest, if_neg hbest]
      exact ⟨h.queue, h.best, hdue⟩

theorem Tracks.foldl {α β γ : Type*} {R : β → γ → Prop} {f : β → α → β} {g : γ → α → γ}
    (hstep : ∀ b c a, R b c → R (f b a) (g c a)) (l : List α) {b : β} {c : γ} (h : R b c) :
    R (l.foldl f b) (l.foldl g c) := by
  induction l generalizing b c with
  | nil => exact h
  | cons a l ih => exact ih (hstep b c a h)

theorem Tracks.loop (edges : List Edge) (fuel : Nat) {w : EventWalk} (h : Tracks w s) :
    Tracks (eventLoop (byPremise edges) fuel w) ((net edges).drain pathStrengthFloor fuel s) := by
  induction fuel generalizing w s with
  | zero => exact h
  | succ fuel ih =>
      rw [eventLoop, Net.drain, h.queue]
      cases hqueue : s.queue with
      | nil => exact h
      | cons entry rest =>
          obtain ⟨path, product⟩ := entry
          have hrest : Tracks { w with queue := rest } { s with queue := rest } :=
            ⟨rfl, h.best, h.due⟩
          dsimp only
          unfold Net.pop
          rw [h.best]
          by_cases hstale : product < s.best path
          · rw [if_pos hstale, if_pos hstale]
            exact ih hrest
          · rw [if_neg hstale, if_neg hstale, lookup_byPremise]
            refine ih (Tracks.foldl (fun b c e hbc => ?_) _ hrest)
            exact hbc.relax edges product e

theorem tracks_eventWalk (changedPaths : List String) (edges : List Edge) :
    Tracks (eventWalk changedPaths edges)
      ((net edges).drain pathStrengthFloor (maxExpansions changedPaths edges)
        (start changedPaths)) :=
  Tracks.loop edges _
    (Tracks.foldl (fun _ _ p h => h.enter p) changedPaths ⟨rfl, fun _ => rfl, rfl⟩)

/-! ## What is kept of the crossed edges -/

theorem keepDue_keys {due : List (String × DueEdge)} (e : Edge) (h : (Assoc.keys due).Nodup) :
    (Assoc.keys (keepDue due e)).Nodup := by
  unfold keepDue
  by_cases hkey : (due.lookup (edgeKey e.fromPath e.toPath)).isSome = true
  · rw [if_pos hkey]
    exact h
  · rw [if_neg hkey]
    have hnew : edgeKey e.fromPath e.toPath ∉ Assoc.keys due := by
      intro hmem
      obtain ⟨⟨key, d⟩, hmem, hk⟩ := List.mem_map.mp hmem
      rw [← hk, Assoc.lookup_of_mem h hmem] at hkey
      exact hkey rfl
    rw [← Assoc.set_of_not_mem _ hnew]
    exact Assoc.nodup_set _ _ h

/-- **What is kept**: of every key that was crossed one edge, and of no other. -/
structure Kept (crossed : List Edge) (due : List (String × DueEdge)) : Prop where
  nodup : (Assoc.keys due).Nodup
  sound : ∀ key d, (key, d) ∈ due →
    ∃ e ∈ crossed, edgeKey e.fromPath e.toPath = key ∧ d = dueFor .event e
  complete : ∀ e ∈ crossed, edgeKey e.fromPath e.toPath ∈ Assoc.keys due

theorem kept_foldl (crossed : List Edge) : Kept crossed (crossed.foldl keepDue []) := by
  induction crossed using List.reverseRecOn with
  | nil =>
      exact ⟨List.nodup_nil, fun _ _ h => absurd h List.not_mem_nil,
        fun _ h => absurd h List.not_mem_nil⟩
  | append_singleton crossed e ih =>
      rw [List.foldl_append, List.foldl_cons, List.foldl_nil]
      refine ⟨keepDue_keys e ih.nodup, ?_, ?_⟩
      · intro key d hmem
        unfold keepDue at hmem
        split at hmem
        · obtain ⟨e', he', h⟩ := ih.sound key d hmem
          exact ⟨e', List.mem_append_left _ he', h⟩
        · rcases List.mem_append.mp hmem with hmem | hmem
          · obtain ⟨e', he', h⟩ := ih.sound key d hmem
            exact ⟨e', List.mem_append_left _ he', h⟩
          · obtain ⟨rfl, rfl⟩ := Prod.mk.inj (List.mem_singleton.mp hmem)
            exact ⟨e, List.mem_append_right _ (List.mem_singleton_self e), rfl, rfl⟩
      · intro e' he'
        unfold keepDue
        split
        · rename_i hsome
          rcases List.mem_append.mp he' with he' | he'
          · exact ih.complete e' he'
          · rw [List.mem_singleton.mp he']
            obtain ⟨d, hd⟩ := Option.isSome_iff_exists.mp hsome
            exact List.mem_map.mpr ⟨_, Assoc.mem_of_lookup hd, rfl⟩
        · unfold Assoc.keys
          rw [List.map_append, List.mem_append]
          rcases List.mem_append.mp he' with he' | he'
          · exact Or.inl (ih.complete e' he')
          · rw [List.mem_singleton.mp he']
            exact Or.inr (List.mem_singleton_self _)

/-! ## The closure of the signal -/

/-- A signal reaches the edge: along some path of live, directed edges from a changed document to
    its premise, the shares multiply, with its own, to at least the floor. -/
def Signalled (changedPaths : List String) (edges : List Edge) (e : Edge) : Prop :=
  (net edges).Crosses pathStrengthFloor changedPaths e

theorem pathStrengthFloor_pos : 0 < pathStrengthFloor := by norm_num [pathStrengthFloor]

theorem maxExpansions_le (changedPaths : List String) (edges : List Edge) :
    changedPaths.length + (net edges).arcs.length * (net edges).arcs.length
      ≤ maxExpansions changedPaths edges := by
  have hlen : (net edges).arcs.length ≤ edges.length := List.length_filter_le _ _
  have hmul := Nat.mul_le_mul hlen hlen
  unfold maxExpansions
  omega

theorem eventWalk_queue (changedPaths : List String) (edges : List Edge) :
    (eventWalk changedPaths edges).queue = [] := by
  rw [(tracks_eventWalk changedPaths edges).queue]
  exact Net.drain_empties (maxExpansions_le changedPaths edges)

theorem kept_eventWalk (changedPaths : List String) (edges : List Edge) :
    ∃ crossed : List Edge, (∀ e, e ∈ crossed ↔ Signalled changedPaths edges e) ∧
      Kept crossed (eventWalk changedPaths edges).due := by
  refine ⟨_, Net.drain_crossed pathStrengthFloor_pos (maxExpansions_le changedPaths edges), ?_⟩
  rw [(tracks_eventWalk changedPaths edges).due]
  exact kept_foldl _

variable {changedPaths : List String} {edges : List Edge}

theorem Signalled.mono {changedPaths' : List String} {edges' : List Edge}
    (hchanged : changedPaths ⊆ changedPaths') (hedges : edges ⊆ edges') {e : Edge}
    (h : Signalled changedPaths edges e) : Signalled changedPaths' edges' e := by
  refine Net.Crosses.mono (N := net edges) (M := net edges') rfl rfl rfl (fun a ha => ?_)
    hchanged h
  obtain ⟨ha, hlive⟩ := List.mem_filter.mp ha
  exact List.mem_filter.mpr ⟨hedges ha, hlive⟩

def eventPairs (changedPaths : List String) (edges : List Edge) : List (String × String) :=
  (eventDue changedPaths edges).map DueEdge.pair

/-- No two different pairs that the signal reaches have one key. -/
def SignalKeysApart (changedPaths : List String) (edges : List Edge) : Prop :=
  ∀ e e', Signalled changedPaths edges e → Signalled changedPaths edges e' →
    edgeKey e.fromPath e.toPath = edgeKey e'.fromPath e'.toPath →
      (e.fromPath, e.toPath) = (e'.fromPath, e'.toPath)

/-- **The event clock is the closure of the signal**: it finds exactly the pairs of the edges that
    are signalled, in whatever order edges and paths come; it finds no fewer of them than on fewer
    edges and paths; and its loop stops with nothing left to expand. -/
structure SignalClosure (changedPaths : List String) (edges : List Edge) : Prop where
  exact : ∀ pair, pair ∈ eventPairs changedPaths edges ↔
    ∃ e, Signalled changedPaths edges e ∧ (e.fromPath, e.toPath) = pair
  order : ∀ changedPaths' edges', changedPaths'.Perm changedPaths → edges'.Perm edges →
    ∀ pair, pair ∈ eventPairs changedPaths' edges' ↔ pair ∈ eventPairs changedPaths edges
  grows : ∀ changedPaths₀ edges₀, changedPaths₀ ⊆ changedPaths → edges₀ ⊆ edges →
    eventPairs changedPaths₀ edges₀ ⊆ eventPairs changedPaths edges
  capIdle : (eventWalk changedPaths edges).queue = []

theorem mem_eventPairs_of (h : SignalKeysApart changedPaths edges) (pair : String × String) :
    pair ∈ eventPairs changedPaths edges ↔
      ∃ e, Signalled changedPaths edges e ∧ (e.fromPath, e.toPath) = pair := by
  obtain ⟨crossed, hcrossed, hkept⟩ := kept_eventWalk changedPaths edges
  unfold eventPairs eventDue
  rw [List.map_map, List.mem_map]
  constructor
  · rintro ⟨⟨key, d⟩, hmem, rfl⟩
    obtain ⟨e, he, -, rfl⟩ := hkept.sound key d hmem
    exact ⟨e, (hcrossed e).mp he, rfl⟩
  · rintro ⟨e, he, rfl⟩
    obtain ⟨⟨key, d⟩, hmem, hkey⟩ := List.mem_map.mp (hkept.complete e ((hcrossed e).mpr he))
    obtain ⟨e', he', hkey', rfl⟩ := hkept.sound key d hmem
    exact ⟨_, hmem, h e' e ((hcrossed e').mp he') he (hkey'.trans hkey)⟩

theorem SignalKeysApart.mono {changedPaths₀ : List String} {edges₀ : List Edge}
    (h : SignalKeysApart changedPaths edges) (hchanged : changedPaths₀ ⊆ changedPaths)
    (hedges : edges₀ ⊆ edges) : SignalKeysApart changedPaths₀ edges₀ :=
  fun e e' he he' => h e e' (he.mono hchanged hedges) (he'.mono hchanged hedges)

/-- **When the event clock is the closure of the signal.** -/
theorem eventDue_closure_iff (changedPaths : List String) (edges : List Edge) :
    SignalClosure changedPaths edges ↔ SignalKeysApart changedPaths edges := by
  constructor
  · intro h e e' he he' hkey
    obtain ⟨crossed, hcrossed, hkept⟩ := kept_eventWalk changedPaths edges
    have hentry : ∀ x, Signalled changedPaths edges x →
        ∃ d, (edgeKey x.fromPath x.toPath, d) ∈ (eventWalk changedPaths edges).due ∧
          d.pair = (x.fromPath, x.toPath) := by
      intro x hx
      have hpair := (h.exact (x.fromPath, x.toPath)).mpr ⟨x, hx, rfl⟩
      unfold eventPairs eventDue at hpair
      rw [List.map_map] at hpair
      obtain ⟨⟨key, d⟩, hmem, hd⟩ := List.mem_map.mp hpair
      obtain ⟨y, -, hkey, rfl⟩ := hkept.sound key d hmem
      obtain ⟨hfrom, hto⟩ := Prod.mk.inj hd
      have hfrom : y.fromPath = x.fromPath := hfrom
      have hto : y.toPath = x.toPath := hto
      rw [hfrom, hto] at hkey
      exact ⟨_, hkey ▸ hmem, hd⟩
    obtain ⟨d, hd, hpair⟩ := hentry e he
    obtain ⟨d', hd', hpair'⟩ := hentry e' he'
    rw [hkey] at hd
    have hsame := Option.some.inj
      ((Assoc.lookup_of_mem hkept.nodup hd).symm.trans (Assoc.lookup_of_mem hkept.nodup hd'))
    rw [← hpair, ← hpair', hsame]
  · intro h
    refine ⟨mem_eventPairs_of h, ?_, ?_, eventWalk_queue changedPaths edges⟩
    · intro changedPaths' edges' hchanged hedges pair
      have h' := h.mono hchanged.subset hedges.subset
      rw [mem_eventPairs_of h, mem_eventPairs_of h']
      constructor
      · rintro ⟨e, he, hpair⟩
        exact ⟨e, he.mono hchanged.subset hedges.subset, hpair⟩
      · rintro ⟨e, he, hpair⟩
        exact ⟨e, he.mono hchanged.symm.subset hedges.symm.subset, hpair⟩
    · intro changedPaths₀ edges₀ hchanged hedges pair hpair
      obtain ⟨e, he, hpair⟩ := (mem_eventPairs_of (h.mono hchanged hedges) pair).mp hpair
      exact (mem_eventPairs_of h pair).mpr ⟨e, he.mono hchanged hedges, hpair⟩

theorem signalKeysApart_of_no_newline
    (h : ∀ e ∈ edges, '\n' ∉ e.fromPath.toList ∧ '\n' ∉ e.toPath.toList) :
    SignalKeysApart changedPaths edges := by
  intro e e' _ he' hkey
  obtain ⟨hfrom, hto⟩ := h e' (List.mem_filter.mp he'.1).1
  obtain ⟨h₁, h₂⟩ := Edges.edgeKey_inj hfrom hto hkey
  rw [h₁, h₂]

def plainEdge (fromPath toPath : String) : Edge :=
  { fromPath := fromPath, toPath := toPath, strength := 5, kSurvived := 5,
    firstObserved := "2026-01-01T00:00:00Z", lastRederived := "2026-01-01T00:00:00Z",
    status := .triggerBearing, directionVerdict := .directed, observations := 6,
    contestedAt := none, contestReason := .null }

/-- Two edges, both premises changed: a line break in a name, and one is not found. -/
theorem signal_dropped :
    ¬ SignalClosure ["c.md", "b.md\nc.md"]
      [plainEdge "a.md\nb.md" "c.md", plainEdge "a.md" "b.md\nc.md"] := by
  intro h
  have hmiss : ("a.md", "b.md\nc.md") ∉ eventPairs ["c.md", "b.md\nc.md"]
      [plainEdge "a.md\nb.md" "c.md", plainEdge "a.md" "b.md\nc.md"] := by decide +kernel
  refine hmiss ((h.exact _).mpr ⟨plainEdge "a.md" "b.md\nc.md", ⟨?_, 1, Net.Walk.seed ?_, ?_⟩, rfl⟩)
  · decide +kernel
  · decide +kernel
  · decide +kernel

end Consolidate
