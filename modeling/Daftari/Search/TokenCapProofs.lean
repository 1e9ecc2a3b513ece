import Daftari.Search.SuppressionProofs

/-! # The token cap — which of the added hits are served

    `search/coverage.ts`: coverage, pulled-in heads and edges add hits to the ranked ones, and
    the snippets of what was added share one budget.  Hits with a head of their own go first,
    then those that came last, until the rest fits.

    * `enforceTokenCap`: the cap, with the order of the evictions;
    * `evicts_iff`: **when no head goes before a coverage hit**; the other rules always hold. -/

namespace TokenCap

open Sources Suppression

/-! ## A budget -/

section Budget

variable {α : Type*} (size : α → Nat) (cap : ℚ)

def total (l : List α) : Nat := (l.map size).sum

/-- Dropping while the budget is exceeded.  The list is given from its end. -/
def dropLoop : List α → ℚ → List α
  | [], _ => []
  | dropped :: ordered, used =>
      if cap < used then dropLoop ordered (used - size dropped) else dropped :: ordered

def fitted (l : List α) : List α := (dropLoop size cap l.reverse (total size l)).reverse

variable {size cap}

theorem total_append (l r : List α) : total size (l ++ r) = total size l + total size r := by
  unfold total
  rw [List.map_append, List.sum_append]

theorem total_perm {l r : List α} (h : l.Perm r) : total size l = total size r :=
  (h.map size).sum_nat

theorem total_take_mono (l : List α) {m n : Nat} (h : m ≤ n) :
    total size (l.take m) ≤ total size (l.take n) := by
  obtain ⟨k, rfl⟩ := Nat.exists_eq_add_of_le h
  rw [List.take_add, total_append]
  exact Nat.le_add_right _ _

/-- **What is left is the longest start that fits.** -/
theorem fitted_spec (hcap : 0 ≤ cap) (l : List α) :
    ∃ n ≤ l.length, fitted size cap l = l.take n ∧ (total size (l.take n) : ℚ) ≤ cap ∧
      ∀ m ≤ l.length, (total size (l.take m) : ℚ) ≤ cap → m ≤ n := by
  induction l using List.reverseRecOn with
  | nil => exact ⟨0, Nat.le_refl 0, rfl, by simpa [total] using hcap, fun m hm _ => hm⟩
  | append_singleton l a ih =>
      unfold fitted
      rw [List.reverse_append, List.reverse_singleton, List.singleton_append]
      unfold dropLoop
      by_cases hover : cap < total size (l ++ [a])
      · rw [if_pos hover]
        obtain ⟨n, hn, hfit, hle, hmax⟩ := ih
        have hused : (total size (l ++ [a]) : ℚ) - size a = total size l := by
          simp [total]
        rw [hused]
        refine ⟨n, hn.trans (by simp), ?_, ?_, ?_⟩
        · rw [List.take_append_of_le_length hn]
          exact hfit
        · rw [List.take_append_of_le_length hn]
          exact hle
        · intro m hm hmle
          rcases Nat.lt_or_ge l.length m with hlt | hge
          · -- the whole list does not fit
            rw [List.take_of_length_le (by rw [List.length_append]; exact hlt)] at hmle
            exact absurd hmle (not_le.mpr hover)
          · rw [List.take_append_of_le_length hge] at hmle
            exact hmax m hge hmle
      · rw [if_neg hover]
        refine ⟨(l ++ [a]).length, Nat.le_refl _, ?_, ?_, fun m hm _ => hm⟩
        · rw [List.take_length]
          simp
        · rw [List.take_length]
          exact not_lt.mp hover

end Budget

/-! ## The cap -/

def isSynthetic (h : HybridHit) : Bool := h.viaCoverage || h.viaForeground || h.viaEdge.isSome

/-- One for a hit whose chain resolves. -/
def staleKey (h : HybridHit) : Nat := if (h.currentSource.bind headOf).isSome then 1 else 0

def compareStale (a b : HybridHit) : Ordering := compare (staleKey a) (staleKey b)

instance : Std.TransCmp compareStale := Stable.transCmp_on compare staleKey

/-- The added hits in the order in which they are kept: the evictions are from its end. -/
def ordered (hits : List HybridHit) : List HybridHit :=
  Stable.sort compareStale (hits.filter isSynthetic)

def chars (h : HybridHit) : Nat := h.snippet.length

def enforceTokenCap (hits : List HybridHit) (tokenCapChars : ℚ) : List HybridHit :=
  if hits.filter isSynthetic = [] then hits
  else
    let keep := (fitted chars tokenCapChars (ordered hits)).map HybridHit.path
    hits.filter fun h => !isSynthetic h || h.path ∈ keep

/-- What the cap is to do. -/
structure Evicts (cap : ℚ) (hits out : List HybridHit) : Prop where
  /-- The ranked hits stay. -/
  ranked : ∀ h ∈ hits, isSynthetic h = false → h ∈ out
  /-- What stays, stays in its order. -/
  order : out.Sublist hits
  /-- What stays of the added ones fits. -/
  fits : (total chars (out.filter isSynthetic) : ℚ) ≤ cap
  /-- Nothing goes where all fit. -/
  all : (total chars (hits.filter isSynthetic) : ℚ) ≤ cap → out = hits
  /-- What goes is the smallest end of the order of evictions with which the rest fits. -/
  smallest : ∃ n ≤ (ordered hits).length,
    (∀ h ∈ hits, isSynthetic h = true → (h ∈ out ↔ h ∈ (ordered hits).take n)) ∧
      (total chars ((ordered hits).take n) : ℚ) ≤ cap ∧
      ∀ m ≤ (ordered hits).length, (total chars ((ordered hits).take m) : ℚ) ≤ cap → m ≤ n
  /-- No pulled-in head goes where a coverage hit stays. -/
  heads : ∀ h ∈ hits, h.viaForeground = true → ∀ c ∈ out, c.viaCoverage = true → h ∈ out

/-- A coverage hit that comes before a head, and fits with what is before it, leaves room for what
    is up to the head. -/
def HeadsFit (cap : ℚ) (hits : List HybridHit) : Prop :=
  ∀ i j c h, i < j → (ordered hits)[i]? = some c → c.viaCoverage = true →
    (ordered hits)[j]? = some h → h.viaForeground = true →
    (total chars ((ordered hits).take (i + 1)) : ℚ) ≤ cap →
    (total chars ((ordered hits).take (j + 1)) : ℚ) ≤ cap

section Cap

variable {hits : List HybridHit} {cap : ℚ}

theorem mem_ordered {h : HybridHit} : h ∈ ordered hits ↔ h ∈ hits ∧ isSynthetic h = true :=
  (Stable.sort_perm compareStale _).mem_iff.trans List.mem_filter

theorem ordered_nodup (h : (hits.map HybridHit.path).Nodup) : (ordered hits).Nodup :=
  (Stable.sort_perm compareStale _).nodup_iff.mpr ((List.Nodup.of_map _ h).filter _)

theorem mem_enforceTokenCap (hdistinct : (hits.map HybridHit.path).Nodup) {n : Nat}
    (hfit : fitted chars cap (ordered hits) = (ordered hits).take n) {h : HybridHit} :
    h ∈ enforceTokenCap hits cap ↔
      h ∈ hits ∧ (isSynthetic h = true → h ∈ (ordered hits).take n) := by
  unfold enforceTokenCap
  by_cases hnone : hits.filter isSynthetic = []
  · rw [if_pos hnone]
    refine ⟨fun hin => ⟨hin, fun hsyn => ?_⟩, And.left⟩
    have hmem : h ∈ hits.filter isSynthetic := List.mem_filter.mpr ⟨hin, hsyn⟩
    rw [hnone] at hmem
    cases hmem
  · rw [if_neg hnone, hfit]
    rw [List.mem_filter]
    refine and_congr_right fun hin => ?_
    cases hsyn : isSynthetic h with
    | false => simp
    | true =>
        rw [Bool.not_true, Bool.false_or, decide_eq_true_iff, List.mem_map]
        constructor
        · rintro ⟨x, hx, hpath⟩ _
          have hxin : x ∈ hits := (mem_ordered.mp (List.mem_of_mem_take hx)).1
          rwa [List.inj_on_of_nodup_map hdistinct hin hxin hpath.symm]
        · intro hx
          exact ⟨h, hx rfl, rfl⟩

theorem enforceTokenCap_sublist : (enforceTokenCap hits cap).Sublist hits := by
  unfold enforceTokenCap
  split
  · exact List.Sublist.refl _
  · exact List.filter_sublist

theorem served_perm (hdistinct : (hits.map HybridHit.path).Nodup) {n : Nat}
    (hfit : fitted chars cap (ordered hits) = (ordered hits).take n) :
    ((enforceTokenCap hits cap).filter isSynthetic).Perm ((ordered hits).take n) := by
  have hhits : hits.Nodup := List.Nodup.of_map _ hdistinct
  refine (List.perm_ext_iff_of_nodup ((hhits.sublist enforceTokenCap_sublist).filter _)
    ((ordered_nodup hdistinct).sublist (List.take_sublist _ _))).mpr fun h => ?_
  rw [List.mem_filter, mem_enforceTokenCap hdistinct hfit]
  constructor
  · rintro ⟨⟨-, hkept⟩, hsyn⟩
    exact hkept hsyn
  · intro hkept
    obtain ⟨hin, hsyn⟩ := mem_ordered.mp (List.mem_of_mem_take hkept)
    exact ⟨⟨hin, fun _ => hkept⟩, hsyn⟩

/-- **WHICH HITS GO**: the cap evicts as it should exactly where every head fits that a fitting
    coverage hit comes before. -/
theorem evicts_iff (hdistinct : (hits.map HybridHit.path).Nodup) (hcap : 0 ≤ cap) :
    Evicts cap hits (enforceTokenCap hits cap) ↔ HeadsFit cap hits := by
  obtain ⟨n, hn, hfit, hle, hmax⟩ := @fitted_spec _ chars cap hcap (ordered hits)
  have hmem := fun h => @mem_enforceTokenCap hits cap hdistinct n hfit h
  have hnodup := ordered_nodup hdistinct
  constructor
  · rintro ⟨-, -, -, -, -, hheads⟩ i j c h hij hc hcov hh hvia hroom
    have hlt : i < (ordered hits).length := (List.getElem?_eq_some_iff.mp hc).1
    have hin : i < n := hmax (i + 1) hlt hroom
    have hcIn : c ∈ (ordered hits).take n :=
      List.mem_of_getElem? ((List.getElem?_take_of_lt hin).trans hc)
    have hcHits := (mem_ordered.mp (List.mem_of_mem_take hcIn)).1
    obtain ⟨hhHits, hhSyn⟩ := mem_ordered.mp (List.mem_of_getElem? hh)
    have hserved := hheads h hhHits hvia c ((hmem c).mpr ⟨hcHits, fun _ => hcIn⟩) hcov
    obtain ⟨k, hk⟩ := List.mem_iff_getElem?.mp (((hmem h).mp hserved).2 hhSyn)
    have hkn : k < n := by
      have hklt := (List.getElem?_eq_some_iff.mp hk).1
      rw [List.length_take] at hklt
      exact hklt.trans_le (Nat.min_le_left _ _)
    rw [List.getElem?_take_of_lt hkn] at hk
    have hjlt : j < (ordered hits).length := (List.getElem?_eq_some_iff.mp hh).1
    obtain rfl : j = k := (List.getElem?_inj hjlt hnodup).mp (hh.trans hk.symm)
    exact le_trans (Nat.cast_le.mpr (total_take_mono _ hkn)) hle
  · intro hheads
    refine ⟨?_, enforceTokenCap_sublist, ?_, ?_, ⟨n, hn, ?_, hle, hmax⟩, ?_⟩
    · intro h hin hranked
      refine (hmem h).mpr ⟨hin, fun hsyn => ?_⟩
      rw [hranked] at hsyn
      cases hsyn
    · rw [total_perm (served_perm hdistinct hfit)]
      exact hle
    · intro hall
      rw [← total_perm (Stable.sort_perm compareStale (hits.filter isSynthetic))] at hall
      have hwhole := hmax (ordered hits).length (Nat.le_refl _) (by
        rw [List.take_length]
        exact hall)
      have hkept : hits ⊆ enforceTokenCap hits cap := by
        intro h hin
        refine (hmem h).mpr ⟨hin, fun hsyn => ?_⟩
        rw [List.take_of_length_le hwhole]
        exact mem_ordered.mpr ⟨hin, hsyn⟩
      exact enforceTokenCap_sublist.eq_of_length_le
        (List.subperm_of_subset (List.Nodup.of_map _ hdistinct) hkept).length_le
    · intro h hin hsyn
      rw [hmem h]
      exact ⟨fun hout => hout.2 hsyn, fun hkept => ⟨hin, fun _ => hkept⟩⟩
    · intro h hin hvia c hc hcov
      have hsyn : isSynthetic h = true := by simp [isSynthetic, hvia]
      have hcsyn : isSynthetic c = true := by simp [isSynthetic, hcov]
      refine (hmem h).mpr ⟨hin, fun _ => ?_⟩
      obtain ⟨i, hi⟩ := List.mem_iff_getElem?.mp (((hmem c).mp hc).2 hcsyn)
      obtain ⟨j, hj⟩ := List.mem_iff_getElem?.mp (mem_ordered.mpr ⟨hin, hsyn⟩)
      have hin' : i < n := by
        have hlt := (List.getElem?_eq_some_iff.mp hi).1
        rw [List.length_take] at hlt
        exact hlt.trans_le (Nat.min_le_left _ _)
      rw [List.getElem?_take_of_lt hin'] at hi
      rcases Nat.lt_or_ge j n with hjn | hnj
      · exact List.mem_of_getElem? ((List.getElem?_take_of_lt hjn).trans hj)
      · have hroom : (total chars ((ordered hits).take (i + 1)) : ℚ) ≤ cap :=
          le_trans (Nat.cast_le.mpr (total_take_mono _ hin')) hle
        have hlt : j < (ordered hits).length := (List.getElem?_eq_some_iff.mp hj).1
        have hlast := hmax (j + 1) hlt
          (hheads i j c h (hin'.trans_le hnj) hi hcov hj hvia hroom)
        exact absurd hnj (Nat.not_le.mpr hlast)

end Cap

/-! ## A head that goes first -/

def coverageHit (path : String) (currentSource : Option CurrentSource) : HybridHit :=
  { rankedHit path with
    score := 0, bm25Score := 0, snippet := Text.units path.toList,
    currentSource := currentSource, viaCoverage := true }

def headHit (path : String) : HybridHit :=
  { rankedHit path with
    score := 0, bm25Score := 0, snippet := Text.units path.toList, viaForeground := true }

/-- Coverage added `c` and `a`, and the head `b` has the slot of `a`, which it replaced. -/
def coveredHits : List HybridHit :=
  [rankedHit "r.md", coverageHit "c.md" none, headHit "b.md",
    coverageHit "a.md" (some (.resolved "b.md" "b.md" [] 1))]

/-- With room for one of them the head goes, and the coverage hit before it stays. -/
theorem head_evicted : ¬ Evicts 4 coveredHits (enforceTokenCap coveredHits 4) := by
  intro h
  have hout : headHit "b.md" ∉ enforceTokenCap coveredHits 4 := by decide +kernel
  exact hout (h.heads _ (by decide +kernel) rfl (coverageHit "c.md" none) (by decide +kernel) rfl)

theorem evicts_without_coverage :
    Evicts 4 [rankedHit "r.md", headHit "b.md"]
      (enforceTokenCap [rankedHit "r.md", headHit "b.md"] 4) := by
  refine (evicts_iff (by decide) (by norm_num)).mpr ?_
  rintro i j c h - hc hcov - - -
  obtain ⟨hin, -⟩ := mem_ordered.mp (List.mem_of_getElem? hc)
  rcases List.mem_cons.mp hin with rfl | hin
  · cases hcov
  · obtain rfl := List.mem_singleton.mp hin
    cases hcov

end TokenCap
