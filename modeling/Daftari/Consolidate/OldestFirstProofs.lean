import Daftari.Consolidate.PrioritizeProofs
import Daftari.Consolidate.SessionProofs
import Mathlib.Data.Nat.Find

/-! # The oldest first — whom a starved session serves

    What is overdue is served by age.  The age comes from a table under the
    dependent's path, which the session fills from every edge it lists: where
    several edges share a dependent, the last of them speaks for all.

    * `sessionQueue`: the clocks, the table, the endpoint check and the queue, as a
      session wires them;
    * `oldest_first_iff`: **served means older exactly where the table ranks the
      overdue edges as their own ages do, and then an edge waits no more starved
      sessions than there are edges as old**. -/

namespace Consolidate

open Edges (edgeKey)
open Stable (Before)

/-! ## The code -/

def canonEdge (e : Edge) : Edge :=
  { e with fromPath := canonPath e.fromPath, toPath := canonPath e.toPath }

/-- `ages`: what the last edge of a dependent says. -/
def agesOf (dateMs : String → Int) (now : Int) (edges : List Edge) : List (String × ℚ) :=
  edges.foldl (fun ages e => Assoc.set ages e.fromPath (restedDays dateMs now e)) []

structure SkippedEdgePair where
  fromPath : String
  toPath : String
  missingPaths : List String
deriving DecidableEq, Repr

/-- The endpoints that are not among the documents. -/
def missingPaths (docPaths : List String) (d : DueEdge) : List String :=
  [d.fromPath, d.toPath].filter fun path => canonPath path ∉ docPaths

/-- A pair that is skipped is reported once. -/
def reportSkipped (docPaths : List String) (skipped : List (String × SkippedEdgePair))
    (d : DueEdge) : List (String × SkippedEdgePair) :=
  let key := canonPath d.fromPath ++ "\n" ++ canonPath d.toPath
  if (skipped.lookup key).isSome then skipped
  else skipped ++ [(key,
    { fromPath := canonPath d.fromPath, toPath := canonPath d.toPath
      missingPaths := ((missingPaths docPaths d).map canonPath).dedup })]

def preflightDueEdges (dueEdges : List DueEdge) (docPaths : List String) :
    List DueEdge × List SkippedEdgePair :=
  (dueEdges.filter fun d => missingPaths docPaths d = [],
   ((dueEdges.filter fun d => missingPaths docPaths d ≠ []).foldl
      (reportSkipped docPaths) []).map Prod.snd)

/-- What a session starts from: the edges as they are listed, the instant, the paths changed since
    the last one (none without a baseline), and the paths of the documents. -/
structure SessionStart where
  listed : List Edge
  now : Int
  changed : List String
  docs : List String

namespace SessionStart

variable (dateMs : String → Int) (s : SessionStart)

def edges : List Edge := s.listed.map canonEdge

/-- What is due, in the order of the clocks. -/
def due : List DueEdge :=
  eventDue (s.changed.map canonPath) s.edges ++ decayBackstopDue dateMs s.now s.edges

/-- What is due and has its endpoints. -/
def runnable : List DueEdge := (preflightDueEdges (s.due dateMs) (s.docs.map canonPath)).1

def ages : List (String × ℚ) := agesOf dateMs s.now s.edges

end SessionStart

def sessionQueue (dateMs : String → Int) (s : SessionStart) (birth : List String) (budget : Nat) :
    PrioritizeOutput :=
  prioritize (s.runnable dateMs) birth budget (s.ages dateMs)

/-! ## Every cut of the backstop -/

theorem slot_mono (budget : Nat) {f : ℚ} (hf : 0 ≤ f) : slot budget f ≤ slot (budget + 1) f := by
  have hle : (budget : ℚ) * f ≤ ((budget + 1 : ℕ) : ℚ) * f :=
    mul_le_mul_of_nonneg_right (by exact_mod_cast Nat.le_succ budget) hf
  unfold slot
  split
  · rename_i hpos
    rw [if_pos (hpos.trans_le hle)]
    exact max_le_max (le_refl 1) (Nat.floor_le_floor hle)
  · exact Nat.zero_le _

theorem capOf_periphery_mono (budget : Nat) :
    capOf budget .periphery ≤ capOf (budget + 1) .periphery := slot_mono budget (by norm_num)

variable {budget : Nat}

theorem backstop_served (hbudget : 1 ≤ budget) (backstop others : Nat) :
    (allocate budget backstop others 0).backstop
      = min backstop (max 1 (budget - min (capOf budget .periphery) others)) := by
  obtain ⟨base, overflow, remaining, a, ha, hbase, hoverflow, hbk, -⟩ :=
    allocate_cases budget backstop others 0
  have hcap := capOf_backstop_le budget
  have hperi := capOf_periphery_le budget
  have hone : 1 ≤ capOf budget .backstop := slot_pos (by norm_num) hbudget
  rw [ha, hbk]
  have hres : min (capOf budget .periphery) others ≤ capOf budget .periphery :=
    Nat.min_le_left _ _
  omega

/-- **Every cut is one that some budget makes.** -/
theorem exists_budget {backstop cut : Nat} (others : Nat) (hcut : 1 ≤ cut) (hle : cut ≤ backstop) :
    ∃ budget, 1 ≤ budget ∧ (allocate budget backstop others 0).backstop = cut := by
  by_cases hone : cut = 1
  · refine ⟨1, Nat.le_refl 1, ?_⟩
    rw [backstop_served (Nat.le_refl 1)]
    omega
  -- the first budget that leaves as much room as the cut leaves no more
  have hroom : ∃ budget, cut ≤ budget - min (capOf budget .periphery) others := by
    refine ⟨cut + others, ?_⟩
    omega
  obtain ⟨budget, hbudget, hleast⟩ := Nat.findX hroom
  obtain ⟨b, rfl⟩ : ∃ b, budget = b + 1 := ⟨budget - 1, by omega⟩
  have hprev := hleast b (Nat.lt_succ_self b)
  have hmono := capOf_periphery_mono b
  refine ⟨b + 1, by omega, ?_⟩
  rw [backstop_served (by omega)]
  omega

/-! ## Who is served before whom -/

theorem keys_keepStrongest (best : List (String × DueEdge)) (d : DueEdge) :
    Assoc.keys (keepStrongest best d)
      = if d.key ∈ Assoc.keys best then Assoc.keys best else Assoc.keys best ++ [d.key] := by
  unfold keepStrongest
  by_cases hweak : (best.lookup d.key).all
      (fun prev => reasonRank prev.reason < reasonRank d.reason) = true
  · rw [if_pos hweak, Assoc.keys_set]
  · rw [if_neg hweak, if_pos]
    cases hlook : best.lookup d.key with
    | none =>
        rw [hlook] at hweak
        exact absurd rfl hweak
    | some prev => exact List.mem_map.mpr ⟨_, Assoc.mem_of_lookup hlook, rfl⟩

theorem before_keys_iff (edgeDue : List DueEdge) {k k' : String}
    (hk : k ∈ edgeDue.map DueEdge.key) (hk' : k' ∈ edgeDue.map DueEdge.key) (hne : k ≠ k') :
    Before (Assoc.keys (strongest edgeDue)) k k' ↔
      (edgeDue.map DueEdge.key).idxOf k < (edgeDue.map DueEdge.key).idxOf k' := by
  induction edgeDue using List.reverseRecOn generalizing k k' with
  | nil => exact absurd hk List.not_mem_nil
  | append_singleton edgeDue d ih =>
      have hspec := strongest_spec edgeDue
      have hkeys : Assoc.keys (strongest (edgeDue ++ [d]))
          = if d.key ∈ Assoc.keys (strongest edgeDue) then Assoc.keys (strongest edgeDue)
            else Assoc.keys (strongest edgeDue) ++ [d.key] := by
        rw [← keys_keepStrongest]
        unfold strongest
        rw [List.foldl_append]
        rfl
      have hnodup := (strongest_spec (edgeDue ++ [d])).nodup
      have hmem : ∀ x, x ∈ Assoc.keys (strongest edgeDue) ↔ x ∈ edgeDue.map DueEdge.key := by
        intro x
        constructor
        · intro hx
          obtain ⟨⟨x, e⟩, he, rfl⟩ := List.mem_map.mp hx
          obtain ⟨hdue, hkey⟩ := hspec.sound x e he
          exact List.mem_map.mpr ⟨e, hdue, hkey⟩
        · intro hx
          obtain ⟨e, he, rfl⟩ := List.mem_map.mp hx
          exact hspec.complete e he
      rw [List.map_append] at hk hk' ⊢
      by_cases hseen : d.key ∈ Assoc.keys (strongest edgeDue)
      · rw [hkeys, if_pos hseen]
        have hin : ∀ x, x ∈ edgeDue.map DueEdge.key ++ [d].map DueEdge.key →
            x ∈ edgeDue.map DueEdge.key := by
          intro x hx
          rcases List.mem_append.mp hx with hx | hx
          · exact hx
          · rw [List.mem_singleton.mp hx]
            exact (hmem _).mp hseen
        rw [List.idxOf_append_of_mem (hin k hk), List.idxOf_append_of_mem (hin k' hk')]
        exact ih (hin k hk) (hin k' hk') hne
      · rw [hkeys, if_neg hseen] at hnodup ⊢
        have hnew : d.key ∉ edgeDue.map DueEdge.key := fun h => hseen ((hmem _).mpr h)
        have hlast : List.idxOf d.key (edgeDue.map DueEdge.key ++ [d].map DueEdge.key)
            = (edgeDue.map DueEdge.key).length := by
          rw [List.idxOf_append_of_notMem hnew]
          simp
        have hbefore : ∀ x ∈ edgeDue.map DueEdge.key,
            Before (Assoc.keys (strongest edgeDue) ++ [d.key]) x d.key ∧
              List.idxOf x (edgeDue.map DueEdge.key ++ [d].map DueEdge.key)
                < (edgeDue.map DueEdge.key).length := by
          intro x hx
          refine ⟨?_, ?_⟩
          · exact (List.singleton_sublist.mpr ((hmem x).mpr hx)).append
              (List.singleton_sublist.mpr (List.mem_singleton_self d.key))
          · rw [List.idxOf_append_of_mem hx]
            exact List.idxOf_lt_length_of_mem hx
        rcases List.mem_append.mp hk with hk | hk
        · rcases List.mem_append.mp hk' with hk' | hk'
          · rw [List.idxOf_append_of_mem hk, List.idxOf_append_of_mem hk', ← ih hk hk' hne]
            constructor
            · intro h
              refine (Stable.before_or ((hmem k).mpr hk) ((hmem k').mpr hk') hne).resolve_right ?_
              intro h'
              exact Stable.not_before_of_before hnodup h
                (h'.trans (List.sublist_append_left _ _))
            · exact fun h => h.trans (List.sublist_append_left _ _)
          · have hk' : k' = d.key := List.mem_singleton.mp hk'
            subst hk'
            rw [hlast]
            exact iff_of_true (hbefore k hk).1 (hbefore k hk).2
        · have hk : k = d.key := List.mem_singleton.mp hk
          subst hk
          have hk' : k' ∈ edgeDue.map DueEdge.key :=
            (List.mem_append.mp hk').resolve_right fun h => hne (List.mem_singleton.mp h).symm
          refine iff_of_false (fun h => ?_) (by have := (hbefore k' hk').2; omega)
          exact Stable.not_before_of_before hnodup h (hbefore k' hk').1

theorem lookup_strongest_iff (edgeDue : List DueEdge) (k : String) (x : DueEdge) :
    (strongest edgeDue).lookup k = some x ∧ x.reason = .backstop ↔
      (edgeDue.find? fun d => d.key = k ∧ d.reason = .backstop) = some x := by
  induction edgeDue using List.reverseRecOn generalizing x with
  | nil => exact iff_of_false (fun h => by cases h.1) (fun h => by cases h)
  | append_singleton edgeDue d ih =>
      have hstep : strongest (edgeDue ++ [d]) = keepStrongest (strongest edgeDue) d := by
        unfold strongest
        rw [List.foldl_append]
        rfl
      rw [hstep, List.find?_append]
      by_cases hkey : d.key = k
      swap
      · have hnone : ([d].find? fun d => d.key = k ∧ d.reason = .backstop) = none := by
          rw [List.find?_singleton, if_neg (by simp [hkey])]
        have hsame : (keepStrongest (strongest edgeDue) d).lookup k
            = (strongest edgeDue).lookup k := by
          unfold keepStrongest
          split
          · exact Assoc.lookup_set_of_ne _ _ (Ne.symm hkey)
          · rfl
        rw [hsame, hnone, Option.or_none, ih]
      · subst hkey
        unfold keepStrongest
        by_cases hweak : ((strongest edgeDue).lookup d.key).all
            (fun prev => reasonRank prev.reason < reasonRank d.reason) = true
        · rw [if_pos hweak, Assoc.lookup_set_self]
          -- a stronger reason comes: no backstop entry was kept
          have hnone : (edgeDue.find? fun x => x.key = d.key ∧ x.reason = .backstop) = none := by
            rw [Option.eq_none_iff_forall_ne_some]
            intro y hy
            obtain ⟨hlook, hreason⟩ := (ih y).mpr hy
            rw [hlook] at hweak
            have hlt : reasonRank y.reason < reasonRank d.reason := by simpa using hweak
            rw [hreason] at hlt
            exact absurd (reasonRank_le_three d.reason) (Nat.not_le.mpr hlt)
          rw [hnone, Option.none_or, List.find?_singleton]
          by_cases hreason : d.reason = .backstop
          · rw [if_pos (by simp [hreason])]
            constructor
            · exact And.left
            · intro h
              exact ⟨h, Option.some.inj h ▸ hreason⟩
          · rw [if_neg (by simp [hreason])]
            refine iff_of_false (fun h => ?_) (fun h => by cases h)
            exact hreason (Option.some.inj h.1 ▸ h.2)
        · rw [if_neg hweak]
          obtain ⟨prev, hprev, hle⟩ : ∃ prev, (strongest edgeDue).lookup d.key = some prev ∧
              reasonRank d.reason ≤ reasonRank prev.reason := by
            cases hlook : (strongest edgeDue).lookup d.key with
            | none =>
                rw [hlook] at hweak
                exact absurd rfl hweak
            | some prev =>
                rw [hlook] at hweak
                exact ⟨prev, rfl, by simpa using hweak⟩
          rw [ih]
          cases hfind : edgeDue.find? fun x => x.key = d.key ∧ x.reason = .backstop with
          | some y => rw [Option.some_or]
          | none =>
              rw [Option.none_or, List.find?_singleton, if_neg]
              intro hreason
              have hreason : d.reason = .backstop := by simpa using hreason
              rw [hreason] at hle
              have hkept := (ih prev).mp ⟨hprev, eq_backstop_of_rank hle⟩
              rw [hfind] at hkept
              cases hkept

/-- The first backstop entry under the key of a pair is of this pair. -/
def HasKey (edgeDue : List DueEdge) (p : String × String) : Prop :=
  (edgeDue.find? fun d => d.key = edgeKey p.1 p.2 ∧ d.reason = .backstop).map DueEdge.pair
    = some p

/-- **The table ranks a pair before another**: its dependent is older by the table, or
    as old and its key comes first in the due list. -/
def RankedBefore (ages : List (String × ℚ)) (edgeDue : List DueEdge)
    (p q : String × String) : Prop :=
  ageOf ages q.1 < ageOf ages p.1 ∨
    ageOf ages p.1 = ageOf ages q.1 ∧
      (edgeDue.map DueEdge.key).idxOf (edgeKey p.1 p.2)
        < (edgeDue.map DueEdge.key).idxOf (edgeKey q.1 q.2)

section Ranks

variable (edgeDue : List DueEdge) (ages : List (String × ℚ))

theorem mem_kept_iff {x : DueEdge} :
    x ∈ kept edgeDue ↔ (strongest edgeDue).lookup x.key = some x := by
  have hspec := strongest_spec edgeDue
  constructor
  · intro hx
    obtain ⟨⟨k, y⟩, hmem, rfl⟩ := List.mem_map.mp hx
    rw [(hspec.sound k y hmem).2]
    exact Assoc.lookup_of_mem hspec.nodup hmem
  · exact fun h => List.mem_map.mpr ⟨_, Assoc.mem_of_lookup h, rfl⟩

theorem hasKey_iff {p : String × String} :
    HasKey edgeDue p ↔ ∃ x ∈ bkSorted edgeDue ages, x.pair = p := by
  unfold HasKey
  rw [Option.map_eq_some_iff]
  constructor
  · rintro ⟨x, hx, rfl⟩
    obtain ⟨hlook, hreason⟩ := (lookup_strongest_iff edgeDue _ x).mpr hx
    exact ⟨x, (mem_bkSorted edgeDue ages).mpr ⟨(mem_kept_iff edgeDue).mpr hlook, hreason⟩, rfl⟩
  · rintro ⟨x, hx, rfl⟩
    obtain ⟨hkept, hreason⟩ := (mem_bkSorted edgeDue ages).mp hx
    exact ⟨x, (lookup_strongest_iff edgeDue _ x).mp ⟨(mem_kept_iff edgeDue).mp hkept, hreason⟩, rfl⟩

theorem bkSorted_nodup : (bkSorted edgeDue ages).Nodup := (bkSorted_keys_nodup edgeDue ages).of_map

instance : Std.TransCmp (staleDesc ages) where
  eq_swap {a b} :=
    (Std.OrientedCmp.eq_swap : compare (ageOf ages b.fromPath) (ageOf ages a.fromPath) = _)
  isLE_trans h₁ h₂ := (Std.TransCmp.isLE_trans h₂ h₁ : (compare _ _ : Ordering).isLE)

/-- **Who is served before whom.** -/
theorem before_bkSorted_iff {x y : DueEdge} (hx : x ∈ bkSorted edgeDue ages)
    (hy : y ∈ bkSorted edgeDue ages) (hne : x ≠ y) :
    Before (bkSorted edgeDue ages) x y ↔ RankedBefore ages edgeDue x.pair y.pair := by
  obtain ⟨hxk, hxr⟩ := (mem_bkSorted edgeDue ages).mp hx
  obtain ⟨hyk, hyr⟩ := (mem_bkSorted edgeDue ages).mp hy
  have hkept : (kept edgeDue).Nodup := (kept_keys_nodup edgeDue).of_map
  have hfilter : ∀ d, d ∈ kept edgeDue → d.reason = .backstop →
      d ∈ (kept edgeDue).filter fun d => d.reason = .backstop :=
    fun d hd hr => List.mem_filter.mpr ⟨hd, decide_eq_true hr⟩
  have hplace : Before ((kept edgeDue).filter fun d => d.reason = .backstop) x y ↔
      Before (Assoc.keys (strongest edgeDue)) x.key y.key := by
    have hkeys : Assoc.keys (strongest edgeDue) = (kept edgeDue).map DueEdge.key := by
      have hspec := strongest_spec edgeDue
      unfold kept Assoc.keys
      rw [List.map_map]
      exact List.map_congr_left fun e he => (hspec.sound e.1 e.2 he).2.symm
    rw [hkeys]
    constructor
    · intro h
      exact (h.trans List.filter_sublist).map DueEdge.key
    · intro h
      obtain ⟨l, hl, heq⟩ := List.sublist_map_iff.mp h
      obtain ⟨u, v, rfl⟩ : ∃ u v, l = [u, v] := by
        have hlen := congrArg List.length heq
        rw [List.length_map] at hlen
        exact List.length_eq_two.mp hlen.symm
      obtain ⟨hu, hv⟩ : x.key = u.key ∧ y.key = v.key := by simpa using heq
      have hxu := eq_of_kept hxk (hl.subset List.mem_cons_self) hu
      have hyv := eq_of_kept hyk (hl.subset (List.mem_cons_of_mem _ List.mem_cons_self)) hv
      rw [← hxu, ← hyv] at hl
      have hsub := hl.filter fun d => decide (d.reason = .backstop)
      have hboth : [x, y].filter (fun d => decide (d.reason = .backstop)) = [x, y] := by
        simp [hxr, hyr]
      rwa [hboth] at hsub
  have hkey : x.key ≠ y.key := fun h => hne (eq_of_kept hxk hyk h)
  have hdue : ∀ d, d ∈ kept edgeDue → d.key ∈ edgeDue.map DueEdge.key :=
    fun d hd => List.mem_map_of_mem (mem_kept hd).1
  show Before (Stable.sort (staleDesc ages)
    ((kept edgeDue).filter fun d => d.reason = .backstop)) x y ↔ _
  rw [Stable.before_sort_iff _ (hkept.filter _) (hfilter x hxk hxr) (hfilter y hyk hyr), hplace,
    before_keys_iff edgeDue (hdue x hxk) (hdue y hyk) hkey]
  refine or_congr ?_ (and_congr ?_ Iff.rfl)
  · exact compare_lt_iff_lt
  · exact compare_eq_iff_eq.trans eq_comm

end Ranks

/-! ## What is overdue -/

def endpoints (e : Edge) : String × String := (e.fromPath, e.toPath)

variable (dateMs : String → Int)

/-- A live edge of the session that has rested the longest interval and has both its documents. -/
def Overdue (s : SessionStart) (e : Edge) : Prop :=
  e ∈ s.edges ∧ live e = true ∧ maxIntervalDays ≤ restedDays dateMs s.now e ∧
    missingPaths (s.docs.map canonPath) (dueFor .backstop e) = []

theorem mem_decayBackstopDue {now : Int} {edges : List Edge} {e : Edge} (he : e ∈ edges)
    (hlive : live e = true) (hage : maxIntervalDays ≤ restedDays dateMs now e) :
    dueFor .backstop e ∈ decayBackstopDue dateMs now edges := by
  obtain ⟨hstatus, hverdict⟩ := live_iff.mp hlive
  refine List.mem_filterMap.mpr ⟨e, he, ?_⟩
  rw [if_neg hstatus, if_neg hverdict, if_pos (hage.trans (le_max_right _ _))]

variable {dateMs}

variable {s : SessionStart}

theorem Overdue.runnable {e : Edge} (h : Overdue dateMs s e) :
    dueFor .backstop e ∈ s.runnable dateMs := by
  obtain ⟨he, hlive, hage, hdocs⟩ := h
  refine List.mem_filter.mpr ⟨List.mem_append_right _ ?_, decide_eq_true hdocs⟩
  exact mem_decayBackstopDue dateMs he hlive hage

def Served (dateMs : String → Int) (s : SessionStart) (birth : List String) (budget : Nat)
    (e : Edge) : Prop := endpoints e ∈ (sessionQueue dateMs s birth budget).pairs

/-- **Whoever is served is no younger than whoever is not**, whatever the births and the budget. -/
def OldestFirst (dateMs : String → Int) (s : SessionStart) : Prop :=
  ∀ birth budget e f, Overdue dateMs s e → Overdue dateMs s f →
    Served dateMs s birth budget e → ¬ Served dateMs s birth budget f →
      dateMs e.lastRederived ≤ dateMs f.lastRederived

/-- **The table ranks the overdue edges as their own ages do**; a pair whose key is
    another's comes after all. -/
def RanksByOwnAge (dateMs : String → Int) (s : SessionStart) : Prop :=
  ∀ e f, Overdue dateMs s e → Overdue dateMs s f → HasKey (s.runnable dateMs) (endpoints e) →
    (¬ HasKey (s.runnable dateMs) (endpoints f) ∨
      RankedBefore (s.ages dateMs) (s.runnable dateMs) (endpoints e) (endpoints f)) →
        dateMs e.lastRederived ≤ dateMs f.lastRederived

theorem served_iff {birth : List String} {e : Edge} (h : Overdue dateMs s e) :
    Served dateMs s birth budget e ↔
      ∃ x ∈ (bkSorted (s.runnable dateMs) (s.ages dateMs)).take
          (served (s.runnable dateMs) birth budget (s.ages dateMs)).backstop,
        x.pair = endpoints e := mem_pairs_iff birth budget _ h.runnable rfl

theorem exists_session_cut (s : SessionStart) {cut : Nat} (hcut : 1 ≤ cut)
    (hle : cut ≤ (bkSorted (s.runnable dateMs) (s.ages dateMs)).length) :
    ∃ budget, (served (s.runnable dateMs) [] budget (s.ages dateMs)).backstop = cut := by
  obtain ⟨budget, -, hbudget⟩ := exists_budget
    (peripherySorted (s.runnable dateMs) (s.ages dateMs)).length hcut hle
  exact ⟨budget, hbudget⟩

/-- **Served means older, exactly where the table ranks by own age.** -/
theorem oldestFirst_iff (s : SessionStart) : OldestFirst dateMs s ↔ RanksByOwnAge dateMs s := by
  constructor
  · intro h e f he hf hkey hrank
    obtain ⟨x, hx, hpair⟩ := (hasKey_iff _ (s.ages dateMs)).mp hkey
    by_cases hkey' : HasKey (s.runnable dateMs) (endpoints f)
    · obtain ⟨y, hy, hpair'⟩ := (hasKey_iff _ (s.ages dateMs)).mp hkey'
      have hrank := hrank.resolve_left fun hnot => hnot hkey'
      rw [← hpair, ← hpair'] at hrank
      have hne : x ≠ y := by
        rintro rfl
        rcases hrank with hlt | ⟨-, hlt⟩
        · exact absurd hlt (lt_irrefl _)
        · exact absurd hlt (Nat.lt_irrefl _)
      have hbefore := (before_bkSorted_iff _ _ hx hy hne).mpr hrank
      have hnodup := bkSorted_nodup (s.runnable dateMs) (s.ages dateMs)
      obtain ⟨cut, hcut, hlen, hin, hout⟩ := Stable.exists_cut hnodup hbefore
      obtain ⟨budget, hbudget⟩ := exists_session_cut s hcut hlen
      refine h [] budget e f he hf ((served_iff he).mpr ⟨x, hbudget ▸ hin, hpair⟩) ?_
      intro hserved
      obtain ⟨z, hz, hzpair⟩ := (served_iff hf).mp hserved
      rw [hbudget] at hz
      have hzy := List.inj_on_of_nodup_map
        (bkSorted_keys_nodup (s.runnable dateMs) (s.ages dateMs)) (List.mem_of_mem_take hz) hy
        (key_of_pair (hzpair.trans hpair'.symm))
      exact hout (hzy ▸ hz)
    · obtain ⟨budget, hbudget⟩ := exists_session_cut s
        (List.length_pos_of_mem hx) (Nat.le_refl _)
      refine h [] budget e f he hf ((served_iff he).mpr ⟨x, ?_, hpair⟩) ?_
      · rw [hbudget, List.take_length]
        exact hx
      · intro hserved
        obtain ⟨z, hz, hzpair⟩ := (served_iff hf).mp hserved
        exact hkey' ((hasKey_iff _ (s.ages dateMs)).mpr ⟨z, List.mem_of_mem_take hz, hzpair⟩)
  · intro h birth budget e f he hf hserved hleft
    obtain ⟨x, hx, hpair⟩ := (served_iff he).mp hserved
    have hmem := List.mem_of_mem_take hx
    refine h e f he hf ((hasKey_iff _ (s.ages dateMs)).mpr ⟨x, hmem, hpair⟩) ?_
    by_cases hkey : HasKey (s.runnable dateMs) (endpoints f)
    · right
      obtain ⟨y, hy, hpair'⟩ := (hasKey_iff _ (s.ages dateMs)).mp hkey
      have hout : y ∉ (bkSorted (s.runnable dateMs) (s.ages dateMs)).take
          (served (s.runnable dateMs) birth budget (s.ages dateMs)).backstop :=
        fun hin => hleft ((served_iff hf).mpr ⟨y, hin, hpair'⟩)
      have hne : x ≠ y := by
        rintro rfl
        exact hout hx
      rw [← hpair, ← hpair']
      exact (before_bkSorted_iff _ _ hmem hy hne).mp (Stable.before_of_cut hx hy hout)
    · exact Or.inl hkey

/-! ## How long an edge waits -/

/-- An overdue edge of the pair `p`, last re-derived at `t`, that a session leaves. -/
def Waits (dateMs : String → Int) (s : SessionStart) (birth : List String) (budget : Nat)
    (p : String × String) (t : Int) : Prop :=
  ∃ f, Overdue dateMs s f ∧ endpoints f = p ∧ dateMs f.lastRederived = t ∧
    ¬ Served dateMs s birth budget f

/-- The other pairs whose edges were last re-derived no later. -/
def asOld (dateMs : String → Int) (s : SessionStart) (p : String × String) (t : Int) :
    List (String × String) :=
  ((s.edges.filter fun e => dateMs e.lastRederived ≤ t ∧ endpoints e ≠ p).map endpoints).dedup

/-- **Sessions one after the other that all leave the same edge.**  What a session
    serves is re-derived, and what is new is younger: whatever is as old as the edge
    in the next session was so in this one, and was left. -/
structure StarvedRun (dateMs : String → Int) (run : Nat → SessionStart)
    (birth : Nat → List String) (budget : Nat → Nat) (p : String × String) (t : Int)
    (n : Nat) : Prop where
  ranked : ∀ i < n, RanksByOwnAge dateMs (run i)
  positive : ∀ i < n, 0 < budget i
  waits : ∀ i < n, Waits dateMs (run i) (birth i) (budget i) p t
  follows : ∀ i, i + 1 < n → ∀ q ∈ asOld dateMs (run (i + 1)) p t,
    q ∈ asOld dateMs (run i) p t ∧ q ∉ (sessionQueue dateMs (run i) (birth i) (budget i)).pairs

variable {p : String × String}

theorem mem_asOld {q : String × String} {t : Int} : q ∈ asOld dateMs s p t ↔
      ∃ e ∈ s.edges, dateMs e.lastRederived ≤ t ∧ endpoints e = q ∧ q ≠ p := by
  unfold asOld
  rw [List.mem_dedup, List.mem_map]
  constructor
  · rintro ⟨e, he, rfl⟩
    obtain ⟨he, hold⟩ := List.mem_filter.mp he
    obtain ⟨hage, hne⟩ := of_decide_eq_true hold
    exact ⟨e, he, hage, rfl, hne⟩
  · rintro ⟨e, he, hage, rfl, hne⟩
    exact ⟨e, List.mem_filter.mpr ⟨he, decide_eq_true ⟨hage, hne⟩⟩, rfl⟩

theorem overdue_of_runnable {x : DueEdge} (hx : x ∈ s.runnable dateMs)
    (hreason : x.reason = .backstop) : ∃ e, Overdue dateMs s e ∧ x.pair = endpoints e := by
  obtain ⟨hx, hdocs⟩ := List.mem_filter.mp hx
  have hdocs := of_decide_eq_true hdocs
  rcases List.mem_append.mp hx with hevent | hdecay
  · obtain ⟨crossed, -, hkept⟩ := kept_eventWalk (s.changed.map canonPath) s.edges
    obtain ⟨⟨key, d⟩, hmem, rfl⟩ := List.mem_map.mp hevent
    obtain ⟨e, -, -, rfl⟩ := hkept.sound key d hmem
    cases hreason
  · obtain ⟨e, he, hsome⟩ := List.mem_filterMap.mp hdecay
    by_cases hlive : live e = true
    swap
    · rw [Bool.not_eq_true] at hlive
      by_cases hstatus : e.status = .revoked
      · rw [if_pos hstatus] at hsome
        cases hsome
      · by_cases hverdict : e.directionVerdict = .symmetric
        · rw [if_neg hstatus, if_pos hverdict] at hsome
          cases hsome
        · rw [live_iff.mpr ⟨hstatus, hverdict⟩] at hlive
          cases hlive
    obtain ⟨hstatus, hverdict⟩ := live_iff.mp hlive
    rw [if_neg hstatus, if_neg hverdict] at hsome
    by_cases hage : maxIntervalDays ≤ max 0 (restedDays dateMs s.now e)
    · rw [if_pos hage] at hsome
      obtain rfl := Option.some.inj hsome
      have hpos : ¬ maxIntervalDays ≤ 0 := by norm_num [maxIntervalDays]
      exact ⟨e, ⟨he, hlive, (le_max_iff.mp hage).resolve_left hpos, hdocs⟩, rfl⟩
    · rw [if_neg hage] at hsome
      split at hsome
      · obtain rfl := Option.some.inj hsome
        cases hreason
      · cases hsome

theorem backstop_pos {backstop : Nat} (hbudget : 0 < budget) (hbackstop : 0 < backstop)
    (others births : Nat) : 0 < (allocate budget backstop others births).backstop := by
  obtain ⟨base, overflow, remaining, a, ha, hbase, hoverflow, hbk, -⟩ :=
    allocate_cases budget backstop others births
  have hone : 0 < capOf budget .backstop := slot_pos (by norm_num) hbudget
  rw [ha, hbk]
  omega

theorem exists_served_asOld {birth : List String} {t : Int} (hrank : RanksByOwnAge dateMs s)
    (hbudget : 0 < budget) (h : Waits dateMs s birth budget p t) :
    ∃ q ∈ asOld dateMs s p t, q ∈ (sessionQueue dateMs s birth budget).pairs := by
  obtain ⟨f, hf, rfl, rfl, hleft⟩ := h
  have hkey := (mem_keys_bkSorted (s.runnable dateMs) (s.ages dateMs) _).mpr
    (mem_backstopKeys.mpr ⟨_, hf.runnable, rfl, rfl⟩)
  have hpos : 0 < (bkSorted (s.runnable dateMs) (s.ages dateMs)).length := by
    rw [← List.length_map DueEdge.key]
    exact List.length_pos_of_mem hkey
  obtain ⟨x, rest, hx⟩ := List.exists_cons_of_length_pos hpos
  have hserve : 0 < (served (s.runnable dateMs) birth budget (s.ages dateMs)).backstop :=
    backstop_pos hbudget hpos _ _
  have htake : x ∈ (bkSorted (s.runnable dateMs) (s.ages dateMs)).take
      (served (s.runnable dateMs) birth budget (s.ages dateMs)).backstop := by
    rw [hx]
    obtain ⟨k, hk⟩ := Nat.exists_eq_succ_of_ne_zero hserve.ne'
    rw [hk, List.take_succ_cons]
    exact List.mem_cons_self
  have hmem : x ∈ bkSorted (s.runnable dateMs) (s.ages dateMs) := List.mem_of_mem_take htake
  obtain ⟨hkept, hreason⟩ := (mem_bkSorted _ _).mp hmem
  obtain ⟨e, he, hpair⟩ := overdue_of_runnable (mem_kept hkept).1 hreason
  have hserved : Served dateMs s birth budget e := (served_iff he).mpr ⟨x, htake, hpair⟩
  have hold := (oldestFirst_iff s).mpr hrank birth budget e f he hf hserved hleft
  refine ⟨endpoints e, mem_asOld.mpr ⟨e, he.1, hold, rfl, fun heq => hleft ?_⟩, hserved⟩
  unfold Served
  rw [← heq]
  exact hserved

theorem StarvedRun.le_asOld {run : Nat → SessionStart} {birth : Nat → List String}
    {budget : Nat → Nat} {t : Int} {n : Nat} (h : StarvedRun dateMs run birth budget p t n) :
    n ≤ (asOld dateMs (run 0) p t).length := by
  induction n generalizing run birth budget with
  | zero => exact Nat.zero_le _
  | succ n ih =>
      obtain ⟨q, hq, hserved⟩ := exists_served_asOld (h.ranked 0 (Nat.succ_pos n))
        (h.positive 0 (Nat.succ_pos n)) (h.waits 0 (Nat.succ_pos n))
      cases n with
      | zero => exact List.length_pos_of_mem hq
      | succ n =>
          have hnext : StarvedRun dateMs (fun i => run (i + 1)) (fun i => birth (i + 1))
              (fun i => budget (i + 1)) p t (n + 1) :=
            ⟨fun i hi => h.ranked (i + 1) (by omega), fun i hi => h.positive (i + 1) (by omega),
              fun i hi => h.waits (i + 1) (by omega), fun i hi => h.follows (i + 1) (by omega)⟩
          have hle := ih hnext
          have hfollow := h.follows 0 (by omega)
          have hnodup : (q :: asOld dateMs (run 1) p t).Nodup :=
            List.nodup_cons.mpr ⟨fun hmem => (hfollow q hmem).2 hserved, List.nodup_dedup _⟩
          have hsub : q :: asOld dateMs (run 1) p t ⊆ asOld dateMs (run 0) p t := by
            refine List.cons_subset.mpr ⟨hq, fun r hr => (hfollow r hr).1⟩
          have hlen := (List.subperm_of_subset hnodup hsub).length_le
          rw [List.length_cons] at hlen
          have hle : n + 1 ≤ (asOld dateMs (run 1) p t).length := hle
          omega

/-! ## Dependents with one age -/

theorem lookup_agesOf (now : Int) (edges : List Edge) {e : Edge} (he : e ∈ edges) :
    ∃ e' ∈ edges, e'.fromPath = e.fromPath ∧
      (agesOf dateMs now edges).lookup e.fromPath = some (restedDays dateMs now e') := by
  induction edges using List.reverseRecOn with
  | nil => exact absurd he List.not_mem_nil
  | append_singleton edges x ih =>
      have hstep : agesOf dateMs now (edges ++ [x])
          = Assoc.set (agesOf dateMs now edges) x.fromPath (restedDays dateMs now x) := by
        unfold agesOf
        rw [List.foldl_append]
        rfl
      rw [hstep, Assoc.lookup_set]
      by_cases hx : e.fromPath = x.fromPath
      · rw [if_pos hx]
        exact ⟨x, List.mem_append_right _ (List.mem_singleton_self x), hx.symm, rfl⟩
      · rw [if_neg hx]
        rcases List.mem_append.mp he with he | he
        · obtain ⟨e', he', h⟩ := ih he
          exact ⟨e', List.mem_append_left _ he', h⟩
        · rw [List.mem_singleton.mp he] at hx
          exact absurd rfl hx

theorem restedDays_le_iff {now : Int} {e f : Edge} :
    restedDays dateMs now f ≤ restedDays dateMs now e
      ↔ dateMs e.lastRederived ≤ dateMs f.lastRederived := by
  have hpos : (0 : ℚ) < msPerDay := by norm_num [msPerDay]
  unfold restedDays daysBetween
  rw [div_le_div_iff_of_pos_right hpos, Int.cast_le]
  omega

/-- Where edges of one dependent were last re-derived at one instant, and no path has a
    line break, the table ranks by own age. -/
theorem ranksByOwnAge_of_agree (hagree : ∀ e ∈ s.edges, ∀ e' ∈ s.edges, e.fromPath = e'.fromPath →
      dateMs e.lastRederived = dateMs e'.lastRederived)
    (hplain : ∀ e ∈ s.edges, '\n' ∉ e.fromPath.toList ∧ '\n' ∉ e.toPath.toList) :
    RanksByOwnAge dateMs s := by
  have hage : ∀ e, Overdue dateMs s e →
      ageOf (s.ages dateMs) e.fromPath = restedDays dateMs s.now e := by
    intro e he
    obtain ⟨e', he', hfrom, hlook⟩ := @lookup_agesOf dateMs s.now s.edges e he.1
    have hsame : restedDays dateMs s.now e' = restedDays dateMs s.now e := by
      unfold restedDays
      rw [hagree e' he' e he.1 hfrom]
    have hpos : (0 : ℚ) ≤ maxIntervalDays := by norm_num [maxIntervalDays]
    unfold ageOf SessionStart.ages
    rw [hlook, Option.getD_some, hsame]
    exact max_eq_right (hpos.trans he.2.2.1)
  intro e f he hf hkey hrank
  have hkeyf : HasKey (s.runnable dateMs) (endpoints f) := by
    rw [hasKey_iff _ (s.ages dateMs)]
    obtain ⟨x, hx, hk⟩ := List.mem_map.mp ((mem_keys_bkSorted (s.runnable dateMs)
      (s.ages dateMs) _).mpr (mem_backstopKeys.mpr ⟨_, hf.runnable, rfl, rfl⟩))
    obtain ⟨hkept, hreason⟩ := (mem_bkSorted _ _).mp hx
    obtain ⟨g, hg, hpair⟩ := overdue_of_runnable (mem_kept hkept).1 hreason
    refine ⟨x, hx, hpair.trans ?_⟩
    have hgk : edgeKey g.fromPath g.toPath = edgeKey f.fromPath f.toPath := by
      refine Eq.trans ?_ hk
      exact (congrArg (fun p : String × String => edgeKey p.1 p.2) hpair).symm
    obtain ⟨h₁, h₂⟩ := Edges.edgeKey_inj (hplain f hf.1).1 (hplain f hf.1).2 hgk
    unfold endpoints
    rw [h₁, h₂]
  have hrank := hrank.resolve_left fun hnot => hnot hkeyf
  refine (@restedDays_le_iff dateMs s.now e f).mp ?_
  rw [← hage e he, ← hage f hf]
  rcases hrank with hlt | ⟨heq, -⟩
  · exact hlt.le
  · exact heq.ge

/-! ## The oldest first -/

/-- **The oldest first**: served means older exactly where the table ranks by own age; and in such
    sessions an edge that stays overdue waits no longer than there are edges as old. -/
theorem oldest_first_iff (dateMs : String → Int) :
    (∀ s, OldestFirst dateMs s ↔ RanksByOwnAge dateMs s) ∧
    ∀ run birth budget p t n, StarvedRun dateMs run birth budget p t n →
      n ≤ (asOld dateMs (run 0) p t).length :=
  ⟨oldestFirst_iff, fun _ _ _ _ _ _ h => h.le_asOld⟩

/-! Three instants: New Year's Eve, the first of September and the first of June,
    before a session on New Year's Day. -/

def sampleMs (iso : String) : Int :=
  if iso = "2025-12-31" then 1767139200000
  else if iso = "2025-09-01" then 1756684800000
  else 1748736000000

def restedSince (day fromPath toPath : String) : Edge :=
  { plainEdge fromPath toPath with lastRederived := day }

/-- `a.md` has an edge of June and, listed after it, one of yesterday. -/
def sharedDependent : SessionStart :=
  { listed := [restedSince "2025-06-01" "a.md" "b.md", restedSince "2025-12-31" "a.md" "c.md",
      restedSince "2025-09-01" "x.md" "y.md"]
    now := 1767225600000, changed := []
    docs := ["a.md", "b.md", "c.md", "x.md", "y.md"] }

instance (s : SessionStart) (e : Edge) : Decidable (Overdue dateMs s e) :=
  inferInstanceAs (Decidable (_ ∧ _ ∧ _ ∧ _))

instance (s : SessionStart) (birth : List String) (budget : Nat) (e : Edge) :
    Decidable (Served dateMs s birth budget e) :=
  inferInstanceAs (Decidable (_ ∈ _))

/-- The edge of September is served before that of June. -/
theorem younger_served : ¬ OldestFirst sampleMs sharedDependent := by
  intro h
  have hle := h [] 1 (restedSince "2025-09-01" "x.md" "y.md")
    (restedSince "2025-06-01" "a.md" "b.md") (by decide +kernel) (by decide +kernel)
  exact absurd hle (by decide +kernel)

def ownDependents : SessionStart :=
  { sharedDependent with
    listed := [restedSince "2025-06-01" "a.md" "b.md", restedSince "2025-09-01" "x.md" "y.md"] }

/-- September waits for one session, which serves June. -/
theorem oldest_first_iff_june :
    1 ≤ (asOld sampleMs ownDependents ("x.md", "y.md") 1756684800000).length := by
  refine (oldest_first_iff sampleMs).2 (fun _ => ownDependents) (fun _ => []) (fun _ => 1) _ _ 1
    ⟨fun _ _ => ranksByOwnAge_of_agree ?_ ?_, fun _ _ => Nat.one_pos, fun _ _ => ?_, ?_⟩
  · decide +kernel
  · decide +kernel
  · exact ⟨restedSince "2025-09-01" "x.md" "y.md", by decide +kernel, rfl, by decide +kernel,
      by decide +kernel⟩
  · intro i hi
    omega

end Consolidate
