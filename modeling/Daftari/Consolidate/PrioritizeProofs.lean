import Daftari.Consolidate.DueEdgesProofs
import Mathlib.Data.List.Dedup
import Mathlib.Data.Rat.Floor

/-! # The queue of a session — one budget in four slices

    What is due is put under its key, the strongest reason first; the backstop has its base and may
    overflow into what the main slice would have; periphery and births have their reserves; the main
    slice gets what is left over.

    * `prioritize`: the queue, with `allocate` for the numbers;
    * `allocate_total`, `allocate_overdue`, `allocate_reserves`: the numbers, for every budget and
      every demand;
    * `prioritize_fair_iff`: **the split is fair and loud, unless two different due pairs share a
      key where it shows**. -/

namespace Consolidate

open Edges (edgeKey edgeKCap)

/-! ## The code -/

inductive Slice
  | backstop
  | main
  | periphery
  | birth
deriving DecidableEq, Repr

inductive QueueItem
  | edge (fromPath toPath : String) (reason : DueReason) (slice : Slice)
  | birth (path : String)
deriving DecidableEq, Repr

def QueueItem.slice : QueueItem → Slice
  | .edge _ _ _ slice => slice
  | .birth _ => .birth

structure PrioritizeOutput where
  queue : List QueueItem
  backstopOverdueRemaining : Nat
deriving DecidableEq, Repr

def reasonRank : DueReason → Nat
  | .backstop => 3
  | .event => 2
  | .decay => 1

/-- `ek`. -/
def DueEdge.key (d : DueEdge) : String := edgeKey d.fromPath d.toPath

/-- The first of a key is kept, until a stronger reason comes. -/
def keepStrongest (best : List (String × DueEdge)) (d : DueEdge) : List (String × DueEdge) :=
  if (best.lookup d.key).all fun prev => reasonRank prev.reason < reasonRank d.reason then
    Assoc.set best d.key d
  else best

/-- `best`. -/
def strongest (edgeDue : List DueEdge) : List (String × DueEdge) :=
  edgeDue.foldl keepStrongest []

/-- `slot` of a fraction of the budget. -/
def slot (budget : Nat) (f : ℚ) : Nat :=
  if 0 < budget * f then max 1 ⌊budget * f⌋₊ else 0

/-- `CONSOLIDATE_SLICE_FRACTIONS`, as the slots of a budget. -/
def capOf (budget : Nat) : Slice → Nat
  | .backstop => slot budget (1 / 4)
  | .main => slot budget (9 / 20)
  | .periphery => slot budget (3 / 20)
  | .birth => slot budget (3 / 20)

structure Allocation where
  backstop : Nat
  periphery : Nat
  main : Nat
  birth : Nat
deriving DecidableEq, Repr

/-- The allocation, for so many backstop edges, other edges and births.  Subtraction
    stops at nothing, as `Math.max(0, ...)` does where the code could go below. -/
def allocate (budget backstop others births : Nat) : Allocation :=
  let reservedPeri := min (capOf budget .periphery) others
  let reservedBirth := min (capOf budget .birth) births
  let bkBase := min (min (capOf budget .backstop) backstop) budget
  let bkOverflowRoom := budget - bkBase - reservedPeri - reservedBirth
  let bkOverflow := min (backstop - bkBase) bkOverflowRoom
  let backstopServe := bkBase + bkOverflow
  let remaining := budget - backstopServe
  let servePeri := min reservedPeri remaining
  let remaining := remaining - servePeri
  let serveMain := min (others - servePeri) (remaining - reservedBirth)
  let remaining := remaining - serveMain
  { backstop := backstopServe
    periphery := servePeri
    main := serveMain
    birth := min births remaining }

/-- `ageOf`: nothing is younger than new. -/
def ageOf (ages : List (String × ℚ)) (p : String) : ℚ := max 0 ((ages.lookup p).getD 0)

def staleDesc (ages : List (String × ℚ)) (a b : DueEdge) : Ordering :=
  compare (ageOf ages b.fromPath) (ageOf ages a.fromPath)

def fragility (strength : ℚ) : ℚ := 1 - min strength edgeKCap / edgeKCap

/-- The order of the main slice. -/
def fragileDesc (a b : DueEdge) : Ordering :=
  (compare (reasonRank b.reason) (reasonRank a.reason)).then
    (compare (fragility b.strength) (fragility a.strength))

def edgeItem (slice : Slice) (d : DueEdge) : QueueItem :=
  .edge d.fromPath d.toPath d.reason slice

def bkSorted (edgeDue : List DueEdge) (ages : List (String × ℚ)) : List DueEdge :=
  Stable.sort (staleDesc ages)
    (((strongest edgeDue).map Prod.snd).filter fun d => d.reason = .backstop)

def peripherySorted (edgeDue : List DueEdge) (ages : List (String × ℚ)) : List DueEdge :=
  Stable.sort (staleDesc ages)
    (((strongest edgeDue).map Prod.snd).filter fun d => d.reason ≠ .backstop)

def prioritize (edgeDue : List DueEdge) (birth : List String) (budget : Nat)
    (ages : List (String × ℚ)) : PrioritizeOutput :=
  let bk := bkSorted edgeDue ages
  let peri := peripherySorted edgeDue ages
  let serve := allocate budget bk.length peri.length birth.length
  let mainSorted := Stable.sort fragileDesc (peri.drop serve.periphery)
  { queue :=
      (bk.take serve.backstop).map (edgeItem .backstop)
        ++ (peri.take serve.periphery).map (edgeItem .periphery)
        ++ (mainSorted.take serve.main).map (edgeItem .main)
        ++ (birth.take serve.birth).map .birth
    backstopOverdueRemaining := bk.length - serve.backstop }

/-! ## The numbers -/

theorem slot_pos {budget : Nat} {f : ℚ} (hf : 0 < f) (hbudget : 0 < budget) :
    0 < slot budget f := by
  unfold slot
  rw [if_pos (mul_pos (by exact_mod_cast hbudget) hf)]
  exact lt_of_lt_of_le Nat.one_pos (le_max_left _ _)

variable (budget : Nat)

theorem slot_le {f : ℚ} (hf : 0 ≤ f) : slot budget f ≤ 1 ∨ (slot budget f : ℚ) ≤ budget * f := by
  have hnonneg : 0 ≤ (budget : ℚ) * f := mul_nonneg (Nat.cast_nonneg _) hf
  unfold slot
  split
  · rcases Nat.le_total ⌊(budget : ℚ) * f⌋₊ 1 with h | h
    · exact Or.inl (max_eq_left h).le
    · right
      rw [max_eq_right h]
      exact Nat.floor_le hnonneg
  · exact Or.inl (Nat.zero_le _)

theorem slot_le_div (m n : Nat) (hn : 0 < n) :
    slot budget (m / n) ≤ 1 ∨ n * slot budget (m / n) ≤ m * budget := by
  have hpos : (0 : ℚ) < n := by exact_mod_cast hn
  refine (slot_le budget (f := m / n) (by positivity)).imp_right fun hle => ?_
  have hq : (n : ℚ) * slot budget (m / n) ≤ m * budget := by
    calc (n : ℚ) * slot budget (m / n) ≤ n * (budget * (m / n)) :=
          mul_le_mul_of_nonneg_left hle hpos.le
      _ = m * budget := by field_simp
  exact_mod_cast hq

theorem capOf_backstop_le : capOf budget .backstop ≤ 1 ∨ 4 * capOf budget .backstop ≤ budget := by
  have h := slot_le_div budget 1 4 (by decide)
  simp only [Nat.cast_one, Nat.cast_ofNat, Nat.one_mul] at h
  exact h

theorem capOf_periphery_le :
    capOf budget .periphery ≤ 1 ∨ 20 * capOf budget .periphery ≤ 3 * budget := by
  have h := slot_le_div budget 3 20 (by decide)
  exact h

theorem caps_fit {budget : Nat} (h : 4 ≤ budget) :
    capOf budget .backstop + capOf budget .periphery + capOf budget .birth ≤ budget := by
  have hbk := capOf_backstop_le budget
  have hres := capOf_periphery_le budget
  have hsame : capOf budget .birth = capOf budget .periphery := rfl
  omega

/-! What is handed out, for every budget and every demand. -/

section Numbers

/-- The backstop takes all it wants, or leaves no more than the two reserves; and
    beyond its base it leaves them whole. -/
theorem backstopServe_cases {budget backstop cap reserved : Nat} {base overflow : Nat}
    (hbase : base = min (min cap backstop) budget)
    (hoverflow : overflow = min (backstop - base) (budget - base - reserved)) :
    base + overflow ≤ backstop ∧ base + overflow ≤ budget ∧
      (base + overflow = backstop ∨ budget - (base + overflow) ≤ reserved) ∧
      (cap + reserved ≤ budget → reserved ≤ budget - (base + overflow)) := by
  have hle : base ≤ backstop ∧ base ≤ budget ∧ base ≤ cap := by omega
  omega

/-- What is left goes to the periphery, to main and to births until one of the two runs out. -/
theorem elastic_cases {remaining reservedPeri reservedBirth others births : Nat}
    {periphery main birth : Nat} (hperi : reservedPeri ≤ others) (hbirths : reservedBirth ≤ births)
    (hp : periphery = min reservedPeri remaining)
    (hm : main = min (others - periphery) (remaining - periphery - reservedBirth))
    (hb : birth = min births (remaining - periphery - main)) :
    periphery + main ≤ others ∧ birth ≤ births ∧
      periphery + main + birth = min remaining (others + births) ∧
      (remaining ≤ reservedPeri + reservedBirth → main = 0 ∧ birth ≤ reservedBirth) ∧
      (reservedPeri + reservedBirth ≤ remaining →
        periphery = reservedPeri ∧ reservedBirth ≤ birth) := by
  rcases Nat.le_total remaining reservedPeri with hrem | hrem
  · rw [min_eq_right hrem] at hp
    omega
  · rw [min_eq_left hrem] at hp
    rcases Nat.le_total (others - periphery) (remaining - periphery - reservedBirth)
      with hmain | hmain
    · rw [min_eq_left hmain] at hm
      omega
    · rw [min_eq_right hmain] at hm
      omega

variable (budget backstop others births : Nat)

theorem allocate_cases :
    ∃ base overflow remaining, ∃ a : Allocation, allocate budget backstop others births = a ∧
      base = min (min (capOf budget .backstop) backstop) budget ∧ overflow = min (backstop - base)
        (budget - base - (min (capOf budget .periphery) others
          + min (capOf budget .birth) births)) ∧
      a.backstop = base + overflow ∧ remaining = budget - (base + overflow) ∧
      a.periphery = min (min (capOf budget .periphery) others) remaining ∧
      a.main = min (others - a.periphery)
        (remaining - a.periphery - min (capOf budget .birth) births) ∧
      a.birth = min births (remaining - a.periphery - a.main) := by
  refine ⟨_, _, _, _, rfl, rfl, rfl, ?_, rfl, ?_, ?_, ?_⟩
  all_goals simp only [allocate, Nat.sub_sub, Nat.add_assoc]

/-- No slice is served more than it asks for, and a slot is left only when all is served. -/
theorem allocate_total : (allocate budget backstop others births).backstop ≤ backstop ∧
    (allocate budget backstop others births).periphery
        + (allocate budget backstop others births).main ≤ others ∧
    (allocate budget backstop others births).birth ≤ births ∧
    (allocate budget backstop others births).backstop
        + (allocate budget backstop others births).periphery
        + (allocate budget backstop others births).main
        + (allocate budget backstop others births).birth
      = min budget (backstop + others + births) := by
  obtain ⟨base, overflow, remaining, a, ha, hbase, hoverflow, hbk, hrem, hp, hm, hb⟩ :=
    allocate_cases budget backstop others births
  obtain ⟨hserve, hbudget, hleft, -⟩ := backstopServe_cases hbase hoverflow
  obtain ⟨hothers, hbirths, htotal, -, -⟩ :=
    elastic_cases (Nat.min_le_right _ _) (Nat.min_le_right _ _) hp hm hb
  rw [ha]
  have hsum : a.backstop + a.periphery + a.main + a.birth
      = base + overflow + min remaining (others + births) := by omega
  omega

theorem allocate_overdue (h : (allocate budget backstop others births).backstop < backstop) :
    (allocate budget backstop others births).main = 0 ∧
    (allocate budget backstop others births).periphery ≤ capOf budget .periphery ∧
    (allocate budget backstop others births).birth ≤ capOf budget .birth := by
  obtain ⟨base, overflow, remaining, a, ha, hbase, hoverflow, hbk, hrem, hp, hm, hb⟩ :=
    allocate_cases budget backstop others births
  obtain ⟨-, -, hleft, -⟩ := backstopServe_cases hbase hoverflow
  obtain ⟨-, -, -, hnone, -⟩ :=
    elastic_cases (Nat.min_le_right _ _) (Nat.min_le_right _ _) hp hm hb
  rw [ha] at h ⊢
  have hover : remaining ≤ min (capOf budget .periphery) others
      + min (capOf budget .birth) births := by
    rw [hrem]
    omega
  obtain ⟨hmain, hbirth⟩ := hnone hover
  have hperi : a.periphery ≤ min (capOf budget .periphery) others := hp ▸ Nat.min_le_left _ _
  exact ⟨hmain, hperi.trans (Nat.min_le_left _ _), hbirth.trans (Nat.min_le_left _ _)⟩

theorem allocate_reserves (h : 4 ≤ budget) : (allocate budget backstop others births).periphery
        = min (capOf budget .periphery) others ∧
    min (capOf budget .birth) births ≤ (allocate budget backstop others births).birth := by
  obtain ⟨base, overflow, remaining, a, ha, hbase, hoverflow, hbk, hrem, hp, hm, hb⟩ :=
    allocate_cases budget backstop others births
  obtain ⟨-, -, -, hreserved⟩ := backstopServe_cases hbase hoverflow
  obtain ⟨-, -, -, -, hserved⟩ :=
    elastic_cases (Nat.min_le_right _ _) (Nat.min_le_right _ _) hp hm hb
  have hfit := caps_fit h
  rw [ha]
  refine hserved ?_
  rw [hrem]
  exact hreserved (by omega)

end Numbers

/-! ## What is kept of the due list -/

theorem reasonRank_le_three (r : DueReason) : reasonRank r ≤ 3 := by cases r <;> decide

theorem eq_backstop_of_rank {r : DueReason} (h : 3 ≤ reasonRank r) : r = .backstop := by
  cases r with
  | backstop => rfl
  | decay => exact absurd h (by decide)
  | event => exact absurd h (by decide)

/-- **What the keys keep**: of every key that is due one entry, none of that key
    being due for a stronger reason. -/
structure Strongest (edgeDue : List DueEdge) (best : List (String × DueEdge)) : Prop where
  nodup : (Assoc.keys best).Nodup
  sound : ∀ k d, (k, d) ∈ best → d ∈ edgeDue ∧ d.key = k
  strongest : ∀ k d, (k, d) ∈ best →
    ∀ d' ∈ edgeDue, d'.key = k → reasonRank d'.reason ≤ reasonRank d.reason
  complete : ∀ d ∈ edgeDue, d.key ∈ Assoc.keys best

theorem mem_set_iff {best : List (String × DueEdge)} (h : (Assoc.keys best).Nodup)
    (k : String) (d : DueEdge) (k' : String) (d' : DueEdge) :
    (k', d') ∈ Assoc.set best k d ↔ k' = k ∧ d' = d ∨ k' ≠ k ∧ (k', d') ∈ best := by
  have hset := Assoc.nodup_set k d h
  constructor
  · intro hmem
    have hlook := Assoc.lookup_of_mem hset hmem
    rw [Assoc.lookup_set] at hlook
    by_cases hk : k' = k
    · rw [if_pos hk] at hlook
      exact Or.inl ⟨hk, (Option.some.inj hlook).symm⟩
    · rw [if_neg hk] at hlook
      exact Or.inr ⟨hk, Assoc.mem_of_lookup hlook⟩
  · rintro (⟨rfl, rfl⟩ | ⟨hk, hmem⟩)
    · exact Assoc.mem_of_lookup (Assoc.lookup_set_self _ _ _)
    · refine Assoc.mem_of_lookup ?_
      rw [Assoc.lookup_set, if_neg hk]
      exact Assoc.lookup_of_mem h hmem

variable {edgeDue : List DueEdge}

theorem Strongest.keep {best : List (String × DueEdge)} (h : Strongest edgeDue best) (d : DueEdge) :
    Strongest (edgeDue ++ [d]) (keepStrongest best d) := by
  have hmem : ∀ x, x ∈ edgeDue ++ [d] ↔ x ∈ edgeDue ∨ x = d := by simp
  unfold keepStrongest
  by_cases hweak : (best.lookup d.key).all
      (fun prev => reasonRank prev.reason < reasonRank d.reason) = true
  · rw [if_pos hweak]
    have hold : ∀ d' ∈ edgeDue, d'.key = d.key → reasonRank d'.reason ≤ reasonRank d.reason := by
      intro d' hd' hkey
      obtain ⟨⟨k, prev⟩, hprev, hk⟩ := List.mem_map.mp (h.complete d' hd')
      have hk : k = d.key := hk.trans hkey
      subst hk
      rw [Assoc.lookup_of_mem h.nodup hprev] at hweak
      have hlt : reasonRank prev.reason < reasonRank d.reason := by simpa using hweak
      exact (h.strongest _ prev hprev d' hd' hkey).trans hlt.le
    refine ⟨Assoc.nodup_set _ _ h.nodup, ?_, ?_, ?_⟩
    · intro k x hx
      rcases (mem_set_iff h.nodup _ _ _ _).mp hx with ⟨rfl, rfl⟩ | ⟨_, hx⟩
      · exact ⟨(hmem x).mpr (Or.inr rfl), rfl⟩
      · exact ⟨(hmem x).mpr (Or.inl (h.sound k x hx).1), (h.sound k x hx).2⟩
    · intro k x hx d' hd' hkey
      rcases (mem_set_iff h.nodup _ _ _ _).mp hx with ⟨rfl, rfl⟩ | ⟨hne, hx⟩
      · rcases (hmem d').mp hd' with hd' | rfl
        · exact hold d' hd' hkey
        · exact Nat.le_refl _
      · rcases (hmem d').mp hd' with hd' | rfl
        · exact h.strongest k x hx d' hd' hkey
        · exact absurd hkey.symm hne
    · intro d' hd'
      rw [Assoc.keys_set]
      split
      · rename_i hin
        rcases (hmem d').mp hd' with hd' | rfl
        · exact h.complete d' hd'
        · exact hin
      · rcases (hmem d').mp hd' with hd' | rfl
        · exact List.mem_append_left _ (h.complete d' hd')
        · exact List.mem_append_right _ (List.mem_singleton_self _)
  · rw [if_neg hweak]
    obtain ⟨prev, hprev, hle⟩ : ∃ prev, best.lookup d.key = some prev ∧
        reasonRank d.reason ≤ reasonRank prev.reason := by
      cases hlook : best.lookup d.key with
      | none =>
          rw [hlook] at hweak
          exact absurd rfl hweak
      | some prev =>
          rw [hlook] at hweak
          exact ⟨prev, rfl, by simpa using hweak⟩
    have hentry := Assoc.mem_of_lookup hprev
    refine ⟨h.nodup, ?_, ?_, ?_⟩
    · exact fun k x hx => ⟨(hmem x).mpr (Or.inl (h.sound k x hx).1), (h.sound k x hx).2⟩
    · intro k x hx d' hd' hkey
      rcases (hmem d').mp hd' with hd' | rfl
      · exact h.strongest k x hx d' hd' hkey
      · subst hkey
        have hsame := (Assoc.lookup_of_mem h.nodup hx).symm.trans hprev
        rw [Option.some.inj hsame]
        exact hle
    · intro d' hd'
      rcases (hmem d').mp hd' with hd' | rfl
      · exact h.complete d' hd'
      · exact List.mem_map.mpr ⟨_, hentry, rfl⟩

theorem strongest_spec (edgeDue : List DueEdge) : Strongest edgeDue (strongest edgeDue) := by
  unfold strongest
  induction edgeDue using List.reverseRecOn with
  | nil =>
      exact ⟨List.nodup_nil, fun _ _ h => absurd h List.not_mem_nil,
        fun _ _ h => absurd h List.not_mem_nil, fun _ h => absurd h List.not_mem_nil⟩
  | append_singleton edgeDue d ih =>
      rw [List.foldl_append, List.foldl_cons, List.foldl_nil]
      exact ih.keep d

/-- The entries kept, in the order of their keys. -/
def kept (edgeDue : List DueEdge) : List DueEdge := (strongest edgeDue).map Prod.snd

variable {d : DueEdge}

theorem mem_kept (h : d ∈ kept edgeDue) :
    d ∈ edgeDue ∧ ∀ d' ∈ edgeDue, d'.key = d.key → reasonRank d'.reason ≤ reasonRank d.reason := by
  obtain ⟨⟨k, d'⟩, hmem, rfl⟩ := List.mem_map.mp h
  have hspec := strongest_spec edgeDue
  obtain ⟨hdue, hkey⟩ := hspec.sound k d' hmem
  refine ⟨hdue, fun d'' hd'' hk => hspec.strongest k d' hmem d'' hd'' (hk.trans hkey)⟩

theorem exists_kept (h : d ∈ edgeDue) : ∃ d' ∈ kept edgeDue, d'.key = d.key := by
  have hspec := strongest_spec edgeDue
  obtain ⟨⟨k, d'⟩, hmem, hk⟩ := List.mem_map.mp (hspec.complete d h)
  exact ⟨d', List.mem_map.mpr ⟨_, hmem, rfl⟩, (hspec.sound k d' hmem).2.trans hk⟩

theorem kept_keys_nodup (edgeDue : List DueEdge) : ((kept edgeDue).map DueEdge.key).Nodup := by
  have hspec := strongest_spec edgeDue
  have hkeys : (kept edgeDue).map DueEdge.key = Assoc.keys (strongest edgeDue) := by
    unfold kept Assoc.keys
    rw [List.map_map]
    exact List.map_congr_left fun e he => (hspec.sound e.1 e.2 he).2
  rw [hkeys]
  exact hspec.nodup

theorem key_of_pair {d' : DueEdge} (h : d.pair = d'.pair) : d.key = d'.key := by
  obtain ⟨hfrom, hto⟩ := Prod.mk.inj h
  unfold DueEdge.key
  rw [hfrom, hto]

theorem nodup_pairs_of_keys {l : List DueEdge} (h : (l.map DueEdge.key).Nodup) :
    (l.map DueEdge.pair).Nodup := by
  have hmap : l.map DueEdge.key = (l.map DueEdge.pair).map fun p => edgeKey p.1 p.2 := by
    rw [List.map_map]
    rfl
  rw [hmap] at h
  exact h.of_map

theorem eq_of_kept {d' : DueEdge} (h : d ∈ kept edgeDue) (h' : d' ∈ kept edgeDue)
    (hkey : d.key = d'.key) : d = d' :=
  List.inj_on_of_nodup_map (kept_keys_nodup edgeDue) h h' hkey

/-! ## What is emitted -/

def QueueItem.edgePair : QueueItem → Option (String × String)
  | .edge fromPath toPath _ _ => some (fromPath, toPath)
  | .birth _ => none

def QueueItem.birthPath : QueueItem → Option String
  | .edge _ _ _ _ => none
  | .birth path => some path

namespace PrioritizeOutput

variable (out : PrioritizeOutput)

def pairs : List (String × String) := out.queue.filterMap QueueItem.edgePair

def births : List String := out.queue.filterMap QueueItem.birthPath

def held (slice : Slice) : Nat := (out.queue.filter fun item => item.slice = slice).length

end PrioritizeOutput

section Output

variable (edgeDue : List DueEdge) (birth : List String) (budget : Nat)
  (ages : List (String × ℚ))

/-- The numbers of a call. -/
def served : Allocation :=
  allocate budget (bkSorted edgeDue ages).length (peripherySorted edgeDue ages).length birth.length

def mainSorted : List DueEdge :=
  Stable.sort fragileDesc
    ((peripherySorted edgeDue ages).drop (served edgeDue birth budget ages).periphery)

def servedEdges : List DueEdge :=
  (bkSorted edgeDue ages).take (served edgeDue birth budget ages).backstop
    ++ (peripherySorted edgeDue ages).take (served edgeDue birth budget ages).periphery
    ++ (mainSorted edgeDue birth budget ages).take (served edgeDue birth budget ages).main

theorem served_total :
    (served edgeDue birth budget ages).backstop ≤ (bkSorted edgeDue ages).length ∧
    (served edgeDue birth budget ages).periphery + (served edgeDue birth budget ages).main
      ≤ (peripherySorted edgeDue ages).length ∧
    (served edgeDue birth budget ages).birth ≤ birth.length ∧
    (served edgeDue birth budget ages).backstop + (served edgeDue birth budget ages).periphery
        + (served edgeDue birth budget ages).main + (served edgeDue birth budget ages).birth
      = min budget ((bkSorted edgeDue ages).length + (peripherySorted edgeDue ages).length
        + birth.length) :=
  allocate_total budget _ _ _

theorem queue_eq : (prioritize edgeDue birth budget ages).queue =
    ((bkSorted edgeDue ages).take (served edgeDue birth budget ages).backstop).map
        (edgeItem .backstop)
      ++ ((peripherySorted edgeDue ages).take (served edgeDue birth budget ages).periphery).map
          (edgeItem .periphery)
      ++ ((mainSorted edgeDue birth budget ages).take
          (served edgeDue birth budget ages).main).map (edgeItem .main)
      ++ (birth.take (served edgeDue birth budget ages).birth).map .birth := rfl

theorem remaining_eq : (prioritize edgeDue birth budget ages).backstopOverdueRemaining =
    (bkSorted edgeDue ages).length - (served edgeDue birth budget ages).backstop := rfl

variable (slice : Slice)

theorem filterMap_edgePair_edges (l : List DueEdge) :
    (l.map (edgeItem slice)).filterMap QueueItem.edgePair = l.map DueEdge.pair := by
  rw [List.filterMap_map, ← List.filterMap_eq_map]
  rfl

variable (l : List String)

theorem filterMap_edgePair_births : (l.map QueueItem.birth).filterMap QueueItem.edgePair = [] := by
  rw [List.filterMap_map, List.filterMap_eq_nil_iff]
  exact fun _ _ => rfl

theorem filterMap_birthPath_edges (l : List DueEdge) :
    (l.map (edgeItem slice)).filterMap QueueItem.birthPath = [] := by
  rw [List.filterMap_map, List.filterMap_eq_nil_iff]
  exact fun _ _ => rfl

theorem filterMap_birthPath_births : (l.map QueueItem.birth).filterMap QueueItem.birthPath = l := by
  rw [List.filterMap_map]
  exact List.filterMap_some

theorem pairs_eq : (prioritize edgeDue birth budget ages).pairs
    = (servedEdges edgeDue birth budget ages).map DueEdge.pair := by
  unfold PrioritizeOutput.pairs servedEdges
  rw [queue_eq, List.filterMap_append, List.filterMap_append, List.filterMap_append,
    filterMap_edgePair_edges, filterMap_edgePair_edges, filterMap_edgePair_edges,
    filterMap_edgePair_births, List.append_nil, List.map_append, List.map_append]

theorem births_eq : (prioritize edgeDue birth budget ages).births
    = birth.take (served edgeDue birth budget ages).birth := by
  unfold PrioritizeOutput.births
  rw [queue_eq, List.filterMap_append, List.filterMap_append, List.filterMap_append,
    filterMap_birthPath_edges, filterMap_birthPath_edges, filterMap_birthPath_edges,
    filterMap_birthPath_births]
  rfl

theorem filter_slice {α : Type*} (item : α → QueueItem) {slice' : Slice}
    (hitem : ∀ a, (item a).slice = slice') (slice : Slice) (l : List α) :
    ((l.map item).filter fun i => i.slice = slice).length
      = if slice' = slice then l.length else 0 := by
  have hslice : ∀ i ∈ l.map item, i.slice = slice' := by
    intro i hi
    obtain ⟨a, -, rfl⟩ := List.mem_map.mp hi
    exact hitem a
  by_cases h : slice' = slice
  · rw [if_pos h, List.filter_eq_self.mpr, List.length_map]
    exact fun i hi => decide_eq_true ((hslice i hi).trans h)
  · rw [if_neg h, List.filter_eq_nil_iff.mpr]
    · rfl
    · exact fun i hi heq => h ((hslice i hi).symm.trans (of_decide_eq_true heq))

theorem filter_slice_edges (slice' : Slice) (l : List DueEdge) :
    ((l.map (edgeItem slice')).filter fun item => item.slice = slice).length
      = if slice' = slice then l.length else 0 :=
  filter_slice (edgeItem slice') (fun _ => rfl) slice l

theorem filter_slice_births :
    ((l.map QueueItem.birth).filter fun item => item.slice = slice).length
      = if Slice.birth = slice then l.length else 0 :=
  filter_slice QueueItem.birth (fun _ => rfl) slice l

theorem mainSorted_length : (mainSorted edgeDue birth budget ages).length
    = (peripherySorted edgeDue ages).length - (served edgeDue birth budget ages).periphery := by
  unfold mainSorted
  rw [(Stable.sort_perm _ _).length_eq, List.length_drop]

theorem held_eq : (prioritize edgeDue birth budget ages).held .backstop
        = (served edgeDue birth budget ages).backstop ∧
    (prioritize edgeDue birth budget ages).held .periphery
        = (served edgeDue birth budget ages).periphery ∧
    (prioritize edgeDue birth budget ages).held .main = (served edgeDue birth budget ages).main ∧
    (prioritize edgeDue birth budget ages).held .birth
        = (served edgeDue birth budget ages).birth := by
  obtain ⟨hbk, hothers, hbirth, -⟩ := served_total edgeDue birth budget ages
  have hmain := mainSorted_length edgeDue birth budget ages
  unfold PrioritizeOutput.held
  rw [queue_eq]
  simp only [List.filter_append, List.length_append, filter_slice_edges, filter_slice_births,
    List.length_take]
  change (served edgeDue birth budget ages).backstop ≤ _ at hbk
  change (served edgeDue birth budget ages).periphery
    + (served edgeDue birth budget ages).main ≤ _ at hothers
  change (served edgeDue birth budget ages).birth ≤ _ at hbirth
  simp only [reduceCtorEq, if_true, if_false]
  omega

theorem sorted_perm :
    (bkSorted edgeDue ages ++ peripherySorted edgeDue ages).Perm (kept edgeDue) := by
  refine ((Stable.sort_perm _ _).append (Stable.sort_perm _ _)).trans ?_
  have hsplit := List.filter_append_perm (fun d : DueEdge => decide (d.reason = .backstop))
    (kept edgeDue)
  simp only [← decide_not] at hsplit
  exact hsplit

theorem mem_bkSorted : d ∈ bkSorted edgeDue ages ↔ d ∈ kept edgeDue ∧ d.reason = .backstop := by
  unfold bkSorted
  rw [(Stable.sort_perm _ _).mem_iff, List.mem_filter, decide_eq_true_iff]
  rfl

theorem mem_peripherySorted :
    d ∈ peripherySorted edgeDue ages ↔ d ∈ kept edgeDue ∧ d.reason ≠ .backstop := by
  unfold peripherySorted
  rw [(Stable.sort_perm _ _).mem_iff, List.mem_filter, decide_eq_true_iff]
  rfl

theorem elastic_subperm :
    ((peripherySorted edgeDue ages).take (served edgeDue birth budget ages).periphery
        ++ (mainSorted edgeDue birth budget ages).take
          (served edgeDue birth budget ages).main).Subperm (peripherySorted edgeDue ages) := by
  have hmain : ((mainSorted edgeDue birth budget ages).take
      (served edgeDue birth budget ages).main).Subperm
        ((peripherySorted edgeDue ages).drop (served edgeDue birth budget ages).periphery) :=
    (List.take_sublist _ _).subperm.trans (Stable.sort_perm _ _).subperm
  have happend := (List.subperm_append_left
    ((peripherySorted edgeDue ages).take (served edgeDue birth budget ages).periphery)).mpr hmain
  rwa [List.take_append_drop] at happend

theorem servedEdges_subperm : (servedEdges edgeDue birth budget ages).Subperm (kept edgeDue) := by
  unfold servedEdges
  rw [List.append_assoc]
  refine List.Subperm.trans ?_ (sorted_perm edgeDue ages).subperm
  exact (List.take_sublist _ _).subperm.append (elastic_subperm edgeDue birth budget ages)

theorem servedEdges_length : (servedEdges edgeDue birth budget ages).length
    = (served edgeDue birth budget ages).backstop + (served edgeDue birth budget ages).periphery
      + (served edgeDue birth budget ages).main := by
  obtain ⟨hbk, hothers, -, -⟩ := served_total edgeDue birth budget ages
  have hmain := mainSorted_length edgeDue birth budget ages
  unfold servedEdges
  simp only [List.length_append, List.length_take]
  omega

theorem queue_length : (prioritize edgeDue birth budget ages).queue.length
    = min budget ((kept edgeDue).length + birth.length) := by
  obtain ⟨hbk, hothers, hbirth, htotal⟩ := served_total edgeDue birth budget ages
  have hlen := (sorted_perm edgeDue ages).length_eq
  rw [List.length_append] at hlen
  have hmain := mainSorted_length edgeDue birth budget ages
  rw [← hlen, ← htotal, queue_eq]
  simp only [List.length_append, List.length_map, List.length_take]
  change _ = (served edgeDue birth budget ages).backstop
    + (served edgeDue birth budget ages).periphery + (served edgeDue birth budget ages).main
    + (served edgeDue birth budget ages).birth
  omega

end Output

/-! ## Pairs and keys, counted -/

def backstopPairs (edgeDue : List DueEdge) : List (String × String) :=
  ((edgeDue.filter fun d => d.reason = .backstop).map DueEdge.pair).dedup

def otherPairs (edgeDue : List DueEdge) : List (String × String) :=
  (edgeDue.map DueEdge.pair).dedup.filter fun p => !(backstopPairs edgeDue).contains p

def backstopKeys (edgeDue : List DueEdge) : List String :=
  ((edgeDue.filter fun d => d.reason = .backstop).map DueEdge.key).dedup

def otherKeys (edgeDue : List DueEdge) : List String :=
  (edgeDue.map DueEdge.key).dedup.filter fun k => k ∉ backstopKeys edgeDue

theorem mem_backstop {α : Type*} [DecidableEq α] {f : DueEdge → α} {a : α} :
    a ∈ ((edgeDue.filter fun d => d.reason = .backstop).map f).dedup
      ↔ ∃ d ∈ edgeDue, d.reason = .backstop ∧ f d = a := by
  simp only [List.mem_dedup, List.mem_map, List.mem_filter, decide_eq_true_eq, and_assoc]

theorem mem_backstopPairs {p : String × String} :
    p ∈ backstopPairs edgeDue ↔ ∃ d ∈ edgeDue, d.reason = .backstop ∧ d.pair = p := mem_backstop

theorem mem_backstopKeys {k : String} :
    k ∈ backstopKeys edgeDue ↔ ∃ d ∈ edgeDue, d.reason = .backstop ∧ d.key = k := mem_backstop

theorem length_eq_of_nodup {α : Type*} {l l' : List α} (h : l.Nodup) (h' : l'.Nodup)
    (hmem : ∀ a, a ∈ l ↔ a ∈ l') : l.length = l'.length :=
  ((List.perm_ext_iff_of_nodup h h').mpr hmem).length_eq

theorem mem_keys_bkSorted (edgeDue : List DueEdge) (ages : List (String × ℚ)) (k : String) :
    k ∈ (bkSorted edgeDue ages).map DueEdge.key ↔ k ∈ backstopKeys edgeDue := by
  rw [mem_backstopKeys, List.mem_map]
  constructor
  · rintro ⟨d, hd, rfl⟩
    obtain ⟨hkept, hreason⟩ := (mem_bkSorted edgeDue ages).mp hd
    exact ⟨d, (mem_kept hkept).1, hreason, rfl⟩
  · rintro ⟨d, hd, hreason, rfl⟩
    obtain ⟨d', hd', hkey⟩ := exists_kept hd
    have hrank := (mem_kept hd').2 d hd hkey.symm
    rw [hreason] at hrank
    exact ⟨d', (mem_bkSorted edgeDue ages).mpr ⟨hd', eq_backstop_of_rank hrank⟩, hkey⟩

theorem bkSorted_keys_nodup (edgeDue : List DueEdge) (ages : List (String × ℚ)) :
    ((bkSorted edgeDue ages).map DueEdge.key).Nodup := by
  have hperm := (sorted_perm edgeDue ages).map DueEdge.key
  rw [List.map_append] at hperm
  exact (List.nodup_append.mp (hperm.nodup_iff.mpr (kept_keys_nodup edgeDue))).1

theorem bkSorted_length (edgeDue : List DueEdge) (ages : List (String × ℚ)) :
    (bkSorted edgeDue ages).length = (backstopKeys edgeDue).length := by
  rw [← List.length_map DueEdge.key]
  exact length_eq_of_nodup (bkSorted_keys_nodup edgeDue ages) (List.nodup_dedup _)
    (mem_keys_bkSorted edgeDue ages)

theorem peripherySorted_length (edgeDue : List DueEdge) (ages : List (String × ℚ)) :
    (peripherySorted edgeDue ages).length = (otherKeys edgeDue).length := by
  have hperm := (sorted_perm edgeDue ages).map DueEdge.key
  rw [List.map_append] at hperm
  obtain ⟨-, hnodup, hapart⟩ :=
    List.nodup_append.mp (hperm.nodup_iff.mpr (kept_keys_nodup edgeDue))
  rw [← List.length_map DueEdge.key]
  refine length_eq_of_nodup hnodup ((List.nodup_dedup _).filter _) fun k => ?_
  unfold otherKeys
  rw [List.mem_filter, List.mem_dedup, decide_eq_true_iff, ← mem_keys_bkSorted edgeDue ages]
  constructor
  · intro hk
    refine ⟨?_, fun hbk => hapart k hbk k hk rfl⟩
    obtain ⟨d, hd, rfl⟩ := List.mem_map.mp hk
    exact List.mem_map_of_mem (mem_kept ((mem_peripherySorted edgeDue ages).mp hd).1).1
  · rintro ⟨hk, hbk⟩
    obtain ⟨d, hd, rfl⟩ := List.mem_map.mp hk
    obtain ⟨d', hd', hkey⟩ := exists_kept hd
    refine List.mem_map.mpr ⟨d', (mem_peripherySorted edgeDue ages).mpr ⟨hd', ?_⟩, hkey⟩
    intro hreason
    exact hbk (List.mem_map.mpr ⟨d', (mem_bkSorted edgeDue ages).mpr ⟨hd', hreason⟩, hkey⟩)

theorem kept_length (edgeDue : List DueEdge) :
    (kept edgeDue).length = (edgeDue.map DueEdge.key).dedup.length := by
  rw [← List.length_map DueEdge.key]
  refine length_eq_of_nodup (kept_keys_nodup edgeDue) (List.nodup_dedup _) fun k => ?_
  rw [List.mem_dedup, List.mem_map, List.mem_map]
  constructor
  · rintro ⟨d, hd, rfl⟩
    exact ⟨d, (mem_kept hd).1, rfl⟩
  · rintro ⟨d, hd, rfl⟩
    exact exists_kept hd

theorem dedup_map_length {α β : Type*} [DecidableEq β] {l : List α} (h : l.Nodup) (f : α → β) :
    (l.map f).dedup.length ≤ l.length ∧
      ((l.map f).dedup.length = l.length ↔ ∀ a ∈ l, ∀ b ∈ l, f a = f b → a = b) := by
  have hsub := (List.dedup_sublist (l.map f))
  have hle := hsub.length_le
  rw [List.length_map] at hle
  refine ⟨hle, fun heq a ha b hb hab => ?_, fun hinj => ?_⟩
  · have hsame := hsub.eq_of_length (heq.trans (List.length_map f).symm)
    have hnodup : (l.map f).Nodup := hsame ▸ List.nodup_dedup _
    exact List.inj_on_of_nodup_map hnodup ha hb hab
  · have hnodup : (l.map f).Nodup := h.map_on hinj
    rw [hnodup.dedup, List.length_map]

def BackstopKeysApart (edgeDue : List DueEdge) : Prop :=
  ∀ d ∈ edgeDue, ∀ d' ∈ edgeDue, d.reason = .backstop → d'.reason = .backstop →
    d.key = d'.key → d.pair = d'.pair

theorem backstop_counts (edgeDue : List DueEdge) :
    (backstopKeys edgeDue).length ≤ (backstopPairs edgeDue).length ∧
      ((backstopKeys edgeDue).length = (backstopPairs edgeDue).length
        ↔ BackstopKeysApart edgeDue) := by
  have hlen : (backstopKeys edgeDue).length
      = ((backstopPairs edgeDue).map fun p => edgeKey p.1 p.2).dedup.length := by
    refine length_eq_of_nodup (List.nodup_dedup _) (List.nodup_dedup _) fun k => ?_
    rw [mem_backstopKeys, List.mem_dedup, List.mem_map]
    constructor
    · rintro ⟨d, hd, hreason, rfl⟩
      exact ⟨d.pair, mem_backstopPairs.mpr ⟨d, hd, hreason, rfl⟩, rfl⟩
    · rintro ⟨p, hp, rfl⟩
      obtain ⟨d, hd, hreason, rfl⟩ := mem_backstopPairs.mp hp
      exact ⟨d, hd, hreason, rfl⟩
  obtain ⟨hle, hiff⟩ := dedup_map_length (List.nodup_dedup _ : (backstopPairs edgeDue).Nodup)
    fun p => edgeKey p.1 p.2
  rw [hlen]
  refine ⟨hle, hiff.trans ⟨fun h d hd d' hd' hr hr' hkey => ?_, fun h p hp p' hp' hkey => ?_⟩⟩
  · exact h _ (mem_backstopPairs.mpr ⟨d, hd, hr, rfl⟩) _
      (mem_backstopPairs.mpr ⟨d', hd', hr', rfl⟩) hkey
  · obtain ⟨d, hd, hr, rfl⟩ := mem_backstopPairs.mp hp
    obtain ⟨d', hd', hr', rfl⟩ := mem_backstopPairs.mp hp'
    exact h d hd d' hd' hr hr' hkey

theorem mem_pairs_iff (birth : List String) (budget : Nat) (ages : List (String × ℚ))
    (hd : d ∈ edgeDue) (hreason : d.reason = .backstop) :
    d.pair ∈ (prioritize edgeDue birth budget ages).pairs ↔
      ∃ x ∈ (bkSorted edgeDue ages).take (served edgeDue birth budget ages).backstop,
        x.pair = d.pair := by
  rw [pairs_eq, List.mem_map]
  unfold servedEdges
  constructor
  · rintro ⟨x, hx, hpair⟩
    rw [List.append_assoc] at hx
    rcases List.mem_append.mp hx with hx | hx
    · exact ⟨x, hx, hpair⟩
    · -- no pair due for the backstop is kept for another reason
      have hperi := (elastic_subperm edgeDue birth budget ages).subset hx
      obtain ⟨hkept, hother⟩ := (mem_peripherySorted edgeDue ages).mp hperi
      have hrank := (mem_kept hkept).2 d hd (key_of_pair hpair.symm)
      rw [hreason] at hrank
      exact absurd (eq_backstop_of_rank hrank) hother
  · rintro ⟨x, hx, hpair⟩
    rw [List.append_assoc]
    exact ⟨x, List.mem_append_left _ hx, hpair⟩

theorem overdue_length (edgeDue : List DueEdge) (birth : List String) (budget : Nat)
    (ages : List (String × ℚ)) : ((backstopPairs edgeDue).filter
        fun p => p ∉ (prioritize edgeDue birth budget ages).pairs).length
      = (backstopPairs edgeDue).length - (served edgeDue birth budget ages).backstop := by
  have hserved : ((backstopPairs edgeDue).filter
      fun p => p ∈ (prioritize edgeDue birth budget ages).pairs).length
        = (served edgeDue birth budget ages).backstop := by
    have htake : ((bkSorted edgeDue ages).take (served edgeDue birth budget ages).backstop).length
          = (served edgeDue birth budget ages).backstop := by
      rw [List.length_take]
      exact Nat.min_eq_left (allocate_total budget _ (peripherySorted edgeDue ages).length
        birth.length).1
    rw [← htake, ← List.length_map DueEdge.pair]
    refine length_eq_of_nodup ((List.nodup_dedup _).filter _) ?_ fun p => ?_
    · refine ((List.take_sublist _ _).map DueEdge.pair).nodup ?_
      exact nodup_pairs_of_keys (bkSorted_keys_nodup edgeDue ages)
    rw [List.mem_filter, decide_eq_true_iff, mem_backstopPairs, List.mem_map]
    constructor
    · rintro ⟨⟨d, hd, hreason, rfl⟩, hmem⟩
      exact (mem_pairs_iff birth budget ages hd hreason).mp hmem
    · rintro ⟨x, hx, rfl⟩
      obtain ⟨hkept, hreason⟩ := (mem_bkSorted edgeDue ages).mp (List.mem_of_mem_take hx)
      have hdue := (mem_kept hkept).1
      exact ⟨⟨x, hdue, hreason, rfl⟩,
        (mem_pairs_iff birth budget ages hdue hreason).mpr ⟨x, hx, rfl⟩⟩
  have hsplit := List.length_eq_length_filter_add (l := backstopPairs edgeDue)
    (fun p => decide (p ∈ (prioritize edgeDue birth budget ages).pairs))
  simp only [← decide_not] at hsplit
  omega

/-! ## The split -/

/-- **The budget is split fairly and loudly**: no more items than the budget and none twice, each
    edge for its strongest reason; what is overdue is counted; while anything is overdue main holds
    nothing and the rest no more than its reserves; from a budget of four on the reserves are
    served; and while a slot is free nothing due is left out. -/
structure FairSplit (edgeDue : List DueEdge) (birth : List String) (budget : Nat)
    (ages : List (String × ℚ)) : Prop where
  within : (prioritize edgeDue birth budget ages).queue.length ≤ budget
  pairsOnce : (prioritize edgeDue birth budget ages).pairs.Nodup
  birthsOnce : birth.Nodup → (prioritize edgeDue birth budget ages).births.Nodup
  strongest : ∀ fromPath toPath reason slice,
    .edge fromPath toPath reason slice ∈ (prioritize edgeDue birth budget ages).queue →
      (∃ d ∈ edgeDue, d.pair = (fromPath, toPath) ∧ d.reason = reason) ∧
      ∀ d ∈ edgeDue, d.pair = (fromPath, toPath) → reasonRank d.reason ≤ reasonRank reason
  counted : (prioritize edgeDue birth budget ages).backstopOverdueRemaining
    = ((backstopPairs edgeDue).filter
        fun p => p ∉ (prioritize edgeDue birth budget ages).pairs).length
  loud : 0 < (prioritize edgeDue birth budget ages).backstopOverdueRemaining →
    (prioritize edgeDue birth budget ages).held .main = 0 ∧
    (prioritize edgeDue birth budget ages).held .periphery ≤ capOf budget .periphery ∧
    (prioritize edgeDue birth budget ages).held .birth ≤ capOf budget .birth
  reserved : 4 ≤ budget →
    min (capOf budget .periphery) (otherPairs edgeDue).length
      ≤ (prioritize edgeDue birth budget ages).held .periphery ∧
    min (capOf budget .birth) birth.length ≤ (prioritize edgeDue birth budget ages).held .birth
  exhausted : (prioritize edgeDue birth budget ages).queue.length < budget →
    (∀ d ∈ edgeDue, d.pair ∈ (prioritize edgeDue birth budget ages).pairs) ∧
    ∀ path ∈ birth, path ∈ (prioritize edgeDue birth budget ages).births

/-- **Where shared keys would show**: two pairs due for the backstop share none; from a budget of
    four on the keys due otherwise fill the periphery reserve, as far as the pairs do; and where the
    budget is more than the keys and the births, no two due pairs share one. -/
structure KeysTellApart (edgeDue : List DueEdge) (birth : List String) (budget : Nat) : Prop where
  backstop : BackstopKeysApart edgeDue
  reserve : 4 ≤ budget →
    min (capOf budget .periphery) (otherPairs edgeDue).length ≤ (otherKeys edgeDue).length
  room : (edgeDue.map DueEdge.key).dedup.length + birth.length < budget →
    ∀ d ∈ edgeDue, ∀ d' ∈ edgeDue, d.key = d'.key → d.pair = d'.pair

section Split

variable (edgeDue : List DueEdge) (birth : List String) (budget : Nat)
  (ages : List (String × ℚ))

theorem pairs_nodup : (prioritize edgeDue birth budget ages).pairs.Nodup := by
  rw [pairs_eq]
  obtain ⟨l, hl, hsub⟩ := servedEdges_subperm edgeDue birth budget ages
  refine nodup_pairs_of_keys ((hl.map DueEdge.key).nodup_iff.mp ?_)
  exact (hsub.map DueEdge.key).nodup (kept_keys_nodup edgeDue)

theorem mem_queue {fromPath toPath : String} {reason : DueReason} {slice : Slice}
    (h : .edge fromPath toPath reason slice ∈ (prioritize edgeDue birth budget ages).queue) :
    ∃ d ∈ kept edgeDue, d.pair = (fromPath, toPath) ∧ d.reason = reason := by
  have hitem : ∀ (s : Slice) (l : List DueEdge),
      QueueItem.edge fromPath toPath reason slice ∈ l.map (edgeItem s) →
        ∃ d ∈ l, d.pair = (fromPath, toPath) ∧ d.reason = reason := by
    intro s l hmem
    obtain ⟨d, hd, heq⟩ := List.mem_map.mp hmem
    obtain ⟨rfl, rfl, rfl, rfl⟩ := QueueItem.edge.inj heq
    exact ⟨d, hd, rfl, rfl⟩
  have hserved : ∃ d ∈ servedEdges edgeDue birth budget ages,
      d.pair = (fromPath, toPath) ∧ d.reason = reason := by
    rw [queue_eq] at h
    unfold servedEdges
    simp only [List.mem_append] at h ⊢
    rcases h with ((h | h) | h) | h
    · obtain ⟨d, hd, hpair⟩ := hitem _ _ h
      exact ⟨d, Or.inl (Or.inl hd), hpair⟩
    · obtain ⟨d, hd, hpair⟩ := hitem _ _ h
      exact ⟨d, Or.inl (Or.inr hd), hpair⟩
    · obtain ⟨d, hd, hpair⟩ := hitem _ _ h
      exact ⟨d, Or.inr hd, hpair⟩
    · obtain ⟨path, -, heq⟩ := List.mem_map.mp h
      cases heq
  obtain ⟨d, hd, hpair⟩ := hserved
  exact ⟨d, (servedEdges_subperm edgeDue birth budget ages).subset hd, hpair⟩

theorem strongest_reason {fromPath toPath : String} {reason : DueReason} {slice : Slice}
    (h : .edge fromPath toPath reason slice ∈ (prioritize edgeDue birth budget ages).queue) :
    (∃ d ∈ edgeDue, d.pair = (fromPath, toPath) ∧ d.reason = reason) ∧
      ∀ d ∈ edgeDue, d.pair = (fromPath, toPath) → reasonRank d.reason ≤ reasonRank reason := by
  obtain ⟨d, hd, hpair, rfl⟩ := mem_queue edgeDue birth budget ages h
  refine ⟨⟨d, (mem_kept hd).1, hpair, rfl⟩, fun d' hd' hpair' => ?_⟩
  exact (mem_kept hd).2 d' hd' (key_of_pair (hpair'.trans hpair.symm))

theorem loud_split (h : 0 < (prioritize edgeDue birth budget ages).backstopOverdueRemaining) :
    (prioritize edgeDue birth budget ages).held .main = 0 ∧
    (prioritize edgeDue birth budget ages).held .periphery ≤ capOf budget .periphery ∧
    (prioritize edgeDue birth budget ages).held .birth ≤ capOf budget .birth := by
  obtain ⟨-, hperi, hmain, hbirth⟩ := held_eq edgeDue birth budget ages
  rw [hperi, hmain, hbirth]
  exact allocate_overdue budget _ _ _ (Nat.lt_of_sub_pos h)

theorem served_all (h : (prioritize edgeDue birth budget ages).queue.length < budget) :
    (servedEdges edgeDue birth budget ages).Perm (kept edgeDue) ∧
      (prioritize edgeDue birth budget ages).births = birth := by
  obtain ⟨hbk, hothers, hbirth, htotal⟩ := served_total edgeDue birth budget ages
  have hlen := (sorted_perm edgeDue ages).length_eq
  rw [List.length_append] at hlen
  have hserved := servedEdges_length edgeDue birth budget ages
  rw [queue_length] at h
  refine ⟨(servedEdges_subperm edgeDue birth budget ages).perm_of_length_le ?_, ?_⟩
  · omega
  · rw [births_eq]
    exact List.take_of_length_le (by omega)

/-- **When the split is fair and loud.** -/
theorem prioritize_fair_iff :
    FairSplit edgeDue birth budget ages ↔ KeysTellApart edgeDue birth budget := by
  obtain ⟨hcounts, hapart⟩ := backstop_counts edgeDue
  have hbk := (served_total edgeDue birth budget ages).1
  rw [bkSorted_length] at hbk
  have hcounted : (prioritize edgeDue birth budget ages).backstopOverdueRemaining
      = ((backstopPairs edgeDue).filter
          fun p => p ∉ (prioritize edgeDue birth budget ages).pairs).length
        ↔ BackstopKeysApart edgeDue := by
    rw [remaining_eq, overdue_length, bkSorted_length, ← hapart]
    omega
  obtain ⟨-, hheld, -, hheldBirth⟩ := held_eq edgeDue birth budget ages
  have hreserves : 4 ≤ budget →
      (prioritize edgeDue birth budget ages).held .periphery
        = min (capOf budget .periphery) (otherKeys edgeDue).length ∧
      min (capOf budget .birth) birth.length
        ≤ (prioritize edgeDue birth budget ages).held .birth := by
    intro hfour
    rw [hheld, hheldBirth, ← peripherySorted_length edgeDue ages]
    exact allocate_reserves budget _ _ _ hfour
  constructor
  · intro h
    refine ⟨hcounted.mp h.counted, fun hfour => ?_, fun hroom d hd d' hd' hkey => ?_⟩
    · have hmin := (h.reserved hfour).1
      rw [(hreserves hfour).1] at hmin
      exact hmin.trans (Nat.min_le_right _ _)
    · have hfree : (prioritize edgeDue birth budget ages).queue.length < budget := by
        rw [queue_length, kept_length]
        omega
      have hall := (h.exhausted hfree).1
      rw [pairs_eq] at hall
      obtain ⟨e, he, hpair⟩ := List.mem_map.mp (hall d hd)
      obtain ⟨e', he', hpair'⟩ := List.mem_map.mp (hall d' hd')
      have hsub := (servedEdges_subperm edgeDue birth budget ages).subset
      have hsame := eq_of_kept (hsub he) (hsub he')
        ((key_of_pair hpair).trans (hkey.trans (key_of_pair hpair').symm))
      rw [← hpair, ← hpair', hsame]
  · intro h
    refine ⟨?_, pairs_nodup edgeDue birth budget ages, ?_, ?_, hcounted.mpr h.backstop,
      loud_split edgeDue birth budget ages, ?_, ?_⟩
    · rw [queue_length]
      exact Nat.min_le_left _ _
    · intro hbirth
      rw [births_eq]
      exact (List.take_sublist _ _).nodup hbirth
    · exact fun _ _ _ _ hmem => strongest_reason edgeDue birth budget ages hmem
    · intro hfour
      refine ⟨?_, (hreserves hfour).2⟩
      rw [(hreserves hfour).1]
      exact Nat.le_min.mpr ⟨Nat.min_le_left _ _, h.reserve hfour⟩
    · intro hfree
      obtain ⟨hall, hbirths⟩ := served_all edgeDue birth budget ages hfree
      refine ⟨fun d hd => ?_, fun path hpath => hbirths.symm ▸ hpath⟩
      rw [queue_length, kept_length] at hfree
      obtain ⟨d', hd', hkey⟩ := exists_kept hd
      rw [pairs_eq, ← h.room (by omega) d' (mem_kept hd').1 d hd hkey]
      exact List.mem_map_of_mem (hall.mem_iff.mpr hd')

end Split

theorem keysTellApart_of_no_newline
    (h : ∀ d ∈ edgeDue, '\n' ∉ d.fromPath.toList ∧ '\n' ∉ d.toPath.toList) (birth : List String)
    (budget : Nat) : KeysTellApart edgeDue birth budget := by
  have hapart : ∀ d ∈ edgeDue, ∀ d' ∈ edgeDue, d.key = d'.key → d.pair = d'.pair := by
    intro d hd d' hd' hkey
    obtain ⟨h₁, h₂⟩ := Edges.edgeKey_inj (h d' hd').1 (h d' hd').2 hkey
    unfold DueEdge.pair
    rw [h₁, h₂]
  refine ⟨fun d hd d' hd' _ _ => hapart d hd d' hd', fun _ => ?_, fun _ => hapart⟩
  refine (Nat.min_le_right _ _).trans ?_
  have hsub : (otherPairs edgeDue).map (fun p => edgeKey p.1 p.2) ⊆ otherKeys edgeDue := by
    intro k hk
    obtain ⟨p, hp, rfl⟩ := List.mem_map.mp hk
    obtain ⟨hp, hother⟩ := List.mem_filter.mp hp
    have hnot : p ∉ backstopPairs edgeDue := by simpa using hother
    obtain ⟨d, hd, rfl⟩ := List.mem_map.mp (List.mem_dedup.mp hp)
    refine List.mem_filter.mpr ⟨List.mem_dedup.mpr (List.mem_map_of_mem hd), decide_eq_true ?_⟩
    intro hkey
    obtain ⟨d', hd', hreason, hkey⟩ := mem_backstopKeys.mp hkey
    refine hnot (mem_backstopPairs.mpr ⟨d', hd', hreason, ?_⟩)
    exact hapart d' hd' d hd hkey
  have hnodup : ((otherPairs edgeDue).map fun p => edgeKey p.1 p.2).Nodup := by
    refine ((List.nodup_dedup _).filter _).map_on fun p hp p' hp' hkey => ?_
    obtain ⟨d, hd, rfl⟩ := List.mem_map.mp (List.mem_dedup.mp (List.mem_filter.mp hp).1)
    obtain ⟨d', hd', rfl⟩ := List.mem_map.mp (List.mem_dedup.mp (List.mem_filter.mp hp').1)
    exact hapart d hd d' hd' hkey
  have hlen := (List.subperm_of_subset hnodup hsub).length_le
  rwa [List.length_map] at hlen

/-- Two overdue pairs under one key: one is served, and none is said to remain. -/
theorem overdue_uncounted :
    ¬ FairSplit
      [{ fromPath := "a.md\nb.md", toPath := "c.md", strength := 1, reason := .backstop },
       { fromPath := "a.md", toPath := "b.md\nc.md", strength := 1, reason := .backstop }]
      [] 1 [] := by
  intro h
  exact absurd h.counted (by decide +kernel)

end Consolidate
