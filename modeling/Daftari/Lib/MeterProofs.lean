import Mathlib.Algebra.Order.Field.Basic
import Mathlib.Tactic.Linarith
import Mathlib.Tactic.Ring

/-! # Meters — what a lazily refilled allowance grants

    A meter holds tokens as of an instant and gains them at a steady rate up to a cap, so
    its level at a later instant needs no state in between.  A use checks the level at one
    instant and, if there is a whole token, takes one at a later instant.

    * `level_settle`: a meter may be brought up to date at any time;
    * `allows_of_wait`: a token is there again after the time it takes to accrue;
    * `length_window_le`: **in a window no more is granted than the cap and what the window
      accrues**;
    * `Answered`: a list of uses with what each was answered, `Answered.length_window_le`,
      `Answered.granted_of_wait` and `Answered.unique`. -/

/-- Tokens as of an instant. -/
structure Meter (K : Type*) where
  tokens : K
  since : K

/-- A check, and the instant at which a granted use is paid for. -/
structure Use (K : Type*) where
  check : K
  charge : K
deriving DecidableEq

namespace Meter

variable {K : Type*} [Field K] [LinearOrder K] [IsStrictOrderedRing K]

section Level

variable (cap rate : K)

/-- What a meter holds at an instant. -/
def level (m : Meter K) (t : K) : K := min cap (m.tokens + rate * (t - m.since))

/-- Is there a whole token? -/
def allows (m : Meter K) (t : K) : Bool := 1 ≤ m.level cap rate t

/-- A use: a granted one takes its token when it is charged. -/
def spend (m : Meter K) (u : Use K) : Meter K :=
  if m.allows cap rate u.check then ⟨m.level cap rate u.charge - 1, u.charge⟩ else m

def grants : Meter K → List (Use K) → List K
  | _, [] => []
  | m, u :: us =>
      (if m.allows cap rate u.check then [u.check] else []) ++ grants (m.spend cap rate u) us

end Level

/-- Uses one after another, from an instant on. -/
def Ordered : K → List (Use K) → Prop
  | _, [] => True
  | t, u :: us => t ≤ u.check ∧ u.check ≤ u.charge ∧ Ordered u.charge us

variable {cap rate : K}

omit [IsStrictOrderedRing K] in
theorem level_le_cap (m : Meter K) (t : K) : m.level cap rate t ≤ cap := min_le_left _ _

section Rate

variable (hrate : 0 ≤ rate)
include hrate

theorem level_mono (m : Meter K) {s t : K} (hst : s ≤ t) :
    m.level cap rate s ≤ m.level cap rate t := by
  refine min_le_min le_rfl ?_
  have hgain : rate * (s - m.since) ≤ rate * (t - m.since) :=
    mul_le_mul_of_nonneg_left (by linarith) hrate
  linarith

theorem level_le_add (m : Meter K) {s t : K} (hst : s ≤ t) :
    m.level cap rate t ≤ m.level cap rate s + rate * (t - s) := by
  have hgain : 0 ≤ rate * (t - s) := mul_nonneg hrate (by linarith)
  rcases le_total cap (m.tokens + rate * (s - m.since)) with hcap | htok
  · have hs : m.level cap rate s = cap := min_eq_left hcap
    have ht : m.level cap rate t ≤ cap := m.level_le_cap t
    linarith
  · have hs : m.level cap rate s = m.tokens + rate * (s - m.since) := min_eq_right htok
    have ht : m.level cap rate t ≤ m.tokens + rate * (t - m.since) := min_le_right _ _
    linarith

/-- **Bringing a meter up to date changes no later level.** -/
theorem level_settle (m : Meter K) {s t : K} (hst : s ≤ t) :
    level cap rate ⟨m.level cap rate s, s⟩ t = m.level cap rate t := by
  have hgain : 0 ≤ rate * (t - s) := mul_nonneg hrate (by linarith)
  have hsplit : m.tokens + rate * (t - m.since) =
      m.tokens + rate * (s - m.since) + rate * (t - s) := by ring
  show min cap (min cap (m.tokens + rate * (s - m.since)) + rate * (t - s)) =
    min cap (m.tokens + rate * (t - m.since))
  rw [hsplit]
  rcases le_total cap (m.tokens + rate * (s - m.since)) with hcap | htok
  · rw [min_eq_left hcap, min_eq_left (by linarith), min_eq_left (by linarith)]
  · rw [min_eq_right htok]

theorem level_of_full (m : Meter K) {s t : K} (hfull : cap ≤ m.level cap rate s)
    (hst : s ≤ t) : m.level cap rate t = cap :=
  le_antisymm (m.level_le_cap t) (hfull.trans (m.level_mono hrate hst))

/-- **A token is there once it has had the time to accrue.** -/
theorem allows_of_wait (m : Meter K) {s t : K} (hcap : 1 ≤ cap) (hst : s ≤ t)
    (hwait : 1 - m.level cap rate s ≤ rate * (t - s)) : m.allows cap rate t = true := by
  refine decide_eq_true ?_
  rw [← m.level_settle hrate hst]
  show 1 ≤ min cap (m.level cap rate s + rate * (t - s))
  exact le_min hcap (by linarith)

theorem level_spend (m : Meter K) {u : Use K} (hu : u.check ≤ u.charge)
    (hpos : 0 ≤ m.level cap rate u.check) : 0 ≤ (m.spend cap rate u).level cap rate u.charge ∧
      (m.spend cap rate u).level cap rate u.charge +
        (if m.allows cap rate u.check then 1 else 0) ≤ m.level cap rate u.charge := by
  have hmono : m.level cap rate u.check ≤ m.level cap rate u.charge := m.level_mono hrate hu
  by_cases hallow : m.allows cap rate u.check = true
  · have hone : 1 ≤ m.level cap rate u.check := of_decide_eq_true hallow
    have hlevel : (m.spend cap rate u).level cap rate u.charge =
        m.level cap rate u.charge - 1 := by
      have htop : m.level cap rate u.charge ≤ cap := m.level_le_cap u.charge
      show level cap rate (if m.allows cap rate u.check then _ else m) u.charge = _
      rw [if_pos hallow]
      show min cap (m.level cap rate u.charge - 1 + rate * (u.charge - u.charge)) = _
      rw [sub_self, mul_zero, add_zero]
      exact min_eq_right (by linarith)
    rw [hlevel, if_pos hallow]
    constructor <;> linarith
  · have hsame : m.spend cap rate u = m := if_neg hallow
    rw [hsame, if_neg hallow]
    constructor <;> linarith

/-! ## Windows -/

omit hrate [IsStrictOrderedRing K] in
theorem le_of_mem_grants {m : Meter K} {us : List (Use K)} {t c : K} (hord : Ordered t us)
    (hc : c ∈ grants cap rate m us) : t ≤ c := by
  induction us generalizing m t with
  | nil => cases hc
  | cons u us ih =>
      obtain ⟨ht, hu, hrest⟩ := hord
      rcases List.mem_append.mp hc with hhead | htail
      · by_cases hallow : m.allows cap rate u.check = true
        · rw [if_pos hallow, List.mem_singleton] at hhead
          rw [hhead]
          exact ht
        · rw [if_neg hallow] at hhead
          cases hhead
      · exact (ht.trans hu).trans (ih hrest htail)

theorem length_until_le {m : Meter K} {us : List (Use K)} {s e : K}
    (hord : Ordered s us) (hpos : 0 ≤ m.level cap rate s) (hse : s ≤ e) :
    (((grants cap rate m us).filter fun c => c ≤ e).length : K) ≤
      m.level cap rate s + rate * (e - s) := by
  induction us generalizing m s with
  | nil =>
      have hgain : 0 ≤ rate * (e - s) := mul_nonneg hrate (by linarith)
      show ((0 : ℕ) : K) ≤ _
      rw [Nat.cast_zero]
      linarith
  | cons u us ih =>
      obtain ⟨hs, hu, hrest⟩ := hord
      have hcheck : 0 ≤ m.level cap rate u.check := hpos.trans (m.level_mono hrate hs)
      obtain ⟨hnext, htaken⟩ := m.level_spend hrate hu hcheck
      have hnone : ∀ {t : K}, e < t → Ordered t us →
          (grants cap rate (m.spend cap rate u) us).filter (fun c => c ≤ e) = [] := by
        intro t het hord
        refine List.filter_eq_nil_iff.mpr ?_
        intro c hc
        have htc := le_of_mem_grants hord hc
        simp only [decide_eq_true_eq, not_le]
        linarith
      show ((((if m.allows cap rate u.check then [u.check] else []) ++
        grants cap rate (m.spend cap rate u) us).filter fun c => c ≤ e).length : K) ≤ _
      rw [List.filter_append, List.length_append, Nat.cast_add]
      have hgain : 0 ≤ rate * (e - s) := mul_nonneg hrate (by linarith)
      rcases le_or_gt u.charge e with hle | hlt
      · -- the use is paid for within the window: the rest starts with one token less
        have htail := ih hrest hnext hle
        have hlevel : m.level cap rate u.charge ≤
            m.level cap rate s + rate * (u.charge - s) := m.level_le_add hrate (hs.trans hu)
        have hhead : (((if m.allows cap rate u.check then [u.check] else []).filter
            fun c => c ≤ e).length : K) ≤ if m.allows cap rate u.check then 1 else 0 := by
          by_cases hallow : m.allows cap rate u.check = true
          · rw [if_pos hallow, if_pos hallow]
            exact_mod_cast List.length_filter_le _ _
          · rw [if_neg hallow, if_neg hallow]
            show ((0 : ℕ) : K) ≤ 0
            rw [Nat.cast_zero]
        linarith
      · rw [hnone hlt hrest, List.length_nil, Nat.cast_zero, add_zero]
        by_cases hin : m.allows cap rate u.check = true ∧ u.check ≤ e
        · have hone : 1 ≤ m.level cap rate u.check := of_decide_eq_true hin.1
          have hlevel : m.level cap rate u.check ≤
              m.level cap rate s + rate * (u.check - s) := m.level_le_add hrate hs
          have hmore : rate * (u.check - s) ≤ rate * (e - s) :=
            mul_le_mul_of_nonneg_left (by linarith [hin.2]) hrate
          have hlen : (((if m.allows cap rate u.check then [u.check] else []).filter
              fun c => c ≤ e).length : K) ≤ 1 := by
            rw [if_pos hin.1]
            exact_mod_cast List.length_filter_le _ _
          linarith
        · have hempty : (if m.allows cap rate u.check then [u.check] else []).filter
              (fun c => c ≤ e) = [] := by
            by_cases hallow : m.allows cap rate u.check = true
            · have hout : ¬ u.check ≤ e := fun h => hin ⟨hallow, h⟩
              rw [if_pos hallow]
              exact List.filter_cons_of_neg (by simpa using hout)
            · rw [if_neg hallow]
              rfl
          rw [hempty, List.length_nil, Nat.cast_zero]
          linarith

/-- **In a window no more is granted than the cap and what the window accrues.** -/
theorem length_window_le {m : Meter K} {us : List (Use K)} {t s e : K} (hcap : 1 ≤ cap)
    (hord : Ordered t us) (hpos : 0 ≤ m.level cap rate t) (hse : s ≤ e) :
    (((grants cap rate m us).filter fun c => s ≤ c ∧ c ≤ e).length : K) ≤ cap + rate * (e - s) := by
  have hgain : 0 ≤ rate * (e - s) := mul_nonneg hrate (by linarith)
  induction us generalizing m t with
  | nil =>
      show ((0 : ℕ) : K) ≤ _
      rw [Nat.cast_zero]
      linarith
  | cons u us ih =>
      obtain ⟨ht, hu, hrest⟩ := hord
      have hcheck : 0 ≤ m.level cap rate u.check := hpos.trans (m.level_mono hrate ht)
      rcases lt_or_ge u.check s with hbefore | hfrom
      · -- a use before the window is not counted
        have htail := ih hrest (m.level_spend hrate hu hcheck).1
        have hhead : (if m.allows cap rate u.check then [u.check] else []).filter
            (fun c => s ≤ c ∧ c ≤ e) = [] := by
          by_cases hallow : m.allows cap rate u.check = true
          · rw [if_pos hallow]
            refine List.filter_cons_of_neg ?_
            simp only [decide_eq_true_eq, not_and]
            intro h
            linarith
          · rw [if_neg hallow]
            rfl
        show ((((if m.allows cap rate u.check then [u.check] else []) ++
          grants cap rate (m.spend cap rate u) us).filter fun c => s ≤ c ∧ c ≤ e).length : K) ≤ _
        rw [List.filter_append, hhead, List.nil_append]
        exact htail
      · have hordered : Ordered u.check (u :: us) := ⟨le_rfl, hu, hrest⟩
        have hsame : (grants cap rate m (u :: us)).filter (fun c => s ≤ c ∧ c ≤ e) =
            (grants cap rate m (u :: us)).filter fun c => c ≤ e := by
          refine List.filter_congr ?_
          intro c hc
          have hsc : s ≤ c := hfrom.trans (le_of_mem_grants hordered hc)
          simp [hsc]
        rw [hsame]
        rcases le_or_gt u.check e with hin | hafter
        · have huntil := length_until_le hrate hordered hcheck hin
          have htop : m.level cap rate u.check ≤ cap := m.level_le_cap u.check
          have hless : rate * (e - u.check) ≤ rate * (e - s) :=
            mul_le_mul_of_nonneg_left (by linarith) hrate
          linarith
        · have hnone : (grants cap rate m (u :: us)).filter (fun c => c ≤ e) = [] := by
            refine List.filter_eq_nil_iff.mpr ?_
            intro c hc
            have htc := le_of_mem_grants hordered hc
            simp only [decide_eq_true_eq, not_le]
            linarith
          rw [hnone, List.length_nil, Nat.cast_zero]
          linarith

end Rate

omit [Field K] [IsStrictOrderedRing K] in
theorem Ordered.append_singleton {t : K} {us : List (Use K)} {u : Use K} (hord : Ordered t us)
    (hlast : ∀ v ∈ us, v.charge ≤ u.check) (ht : t ≤ u.check) (hu : u.check ≤ u.charge) :
    Ordered t (us ++ [u]) := by
  induction us generalizing t with
  | nil => exact ⟨ht, hu, trivial⟩
  | cons v us ih =>
      obtain ⟨htv, hv, hrest⟩ := hord
      exact ⟨htv, hv, ih hrest (fun w hw => hlast w (List.mem_cons_of_mem v hw))
        (hlast v List.mem_cons_self)⟩

/-! ## What uses are answered -/

section Answers

variable {ρ : Type*} (cap rate) (answer : K → ρ)

def after (m : Meter K) (us : List (Use K)) : Meter K := us.foldl (spend cap rate) m

def Answered : Meter K → List (Use K × ρ) → Prop
  | _, [] => True
  | m, x :: xs => x.2 = answer (m.level cap rate x.1.check) ∧ Answered (m.spend cap rate x.1) xs

variable {cap rate answer}

omit [IsStrictOrderedRing K] in
theorem after_append (m : Meter K) (us : List (Use K)) (u : Use K) :
    m.after cap rate (us ++ [u]) = (m.after cap rate us).spend cap rate u := by
  show (us ++ [u]).foldl _ m = _
  rw [List.foldl_append]
  rfl

omit [IsStrictOrderedRing K] in
theorem answered_append {m : Meter K} {xs ys : List (Use K × ρ)} :
    Answered cap rate answer m (xs ++ ys) ↔ Answered cap rate answer m xs ∧
      Answered cap rate answer (m.after cap rate (xs.map Prod.fst)) ys := by
  induction xs generalizing m with
  | nil => exact ⟨fun h => ⟨trivial, h⟩, fun h => h.2⟩
  | cons x xs ih =>
      show x.2 = _ ∧ Answered cap rate answer _ (xs ++ ys) ↔ (x.2 = _ ∧ _) ∧ _
      rw [ih, and_assoc]
      rfl

omit [IsStrictOrderedRing K] in
theorem Answered.unique {m : Meter K} {xs ys : List (Use K × ρ)}
    (hx : Answered cap rate answer m xs) (hy : Answered cap rate answer m ys)
    (huses : xs.map Prod.fst = ys.map Prod.fst) : xs = ys := by
  induction xs generalizing m ys with
  | nil =>
      cases ys with
      | nil => rfl
      | cons y ys => cases huses
  | cons x xs ih =>
      cases ys with
      | nil => cases huses
      | cons y ys =>
          obtain ⟨hfirst, hrest⟩ := List.cons.inj huses
          have huse : x.1 = y.1 := hfirst
          have hanswer : x.2 = y.2 := by rw [hx.1, hy.1, huse]
          have htail : Answered cap rate answer (m.spend cap rate x.1) ys := huse ▸ hy.2
          rw [ih hx.2 htail hrest, Prod.ext huse hanswer]

variable {granted : ρ → Bool} (hgranted : ∀ l, granted (answer l) = decide (1 ≤ l))
include hgranted

omit [IsStrictOrderedRing K] in
theorem Answered.grants_eq {m : Meter K} {xs : List (Use K × ρ)}
    (hx : Answered cap rate answer m xs) :
    (xs.filter fun x => granted x.2).map (fun x => x.1.check) =
      grants cap rate m (xs.map Prod.fst) := by
  induction xs generalizing m with
  | nil => rfl
  | cons x xs ih =>
      have hallow : granted x.2 = m.allows cap rate x.1.check := by
        rw [hx.1, hgranted]
        rfl
      show _ = (if m.allows cap rate x.1.check then [x.1.check] else []) ++ _
      rw [← ih hx.2, ← hallow]
      cases hg : granted x.2 with
      | true =>
          rw [List.filter_cons, if_pos hg]
          rfl
      | false =>
          rw [List.filter_cons, if_neg (by rw [hg]; exact Bool.false_ne_true)]
          rfl

/-- **No more answers in a window grant a use than the cap and what the window accrues.** -/
theorem Answered.length_window_le {m : Meter K} {xs : List (Use K × ρ)} {t s e : K}
    (hx : Answered cap rate answer m xs) (hrate : 0 ≤ rate) (hcap : 1 ≤ cap)
    (hord : Ordered t (xs.map Prod.fst)) (hpos : 0 ≤ m.level cap rate t) (hse : s ≤ e) :
    ((xs.filter fun x => granted x.2 ∧ s ≤ x.1.check ∧ x.1.check ≤ e).length : K) ≤
      cap + rate * (e - s) := by
  have hwindow := m.length_window_le hrate hcap hord hpos hse
  rw [← hx.grants_eq hgranted, List.filter_map, List.length_map, List.filter_filter] at hwindow
  refine le_trans (le_of_eq ?_) hwindow
  congr 2
  refine List.filter_congr ?_
  intro x _
  show decide (granted x.2 = true ∧ s ≤ x.1.check ∧ x.1.check ≤ e) =
    (decide (s ≤ x.1.check ∧ x.1.check ≤ e) && granted x.2)
  cases granted x.2 with
  | true => simp
  | false => simp

/-- **A denied use is granted when it is repeated, with no use in between, after the time
    that its missing part takes to accrue.** -/
theorem Answered.granted_of_wait {m : Meter K} {pre post : List (Use K × ρ)}
    {denied next : Use K × ρ} (hrate : 0 ≤ rate) (hcap : 1 ≤ cap)
    (hx : Answered cap rate answer m (pre ++ denied :: next :: post))
    (hdenied : granted denied.2 = false) (hwait : ∀ l, denied.2 = answer l → l < 1 →
      1 - l ≤ rate * (next.1.check - denied.1.check))
    (hlater : denied.1.check ≤ next.1.check) : granted next.2 = true := by
  obtain ⟨-, hfirst, hsecond, -⟩ := answered_append.mp hx
  have hlow : (m.after cap rate (pre.map Prod.fst)).level cap rate denied.1.check < 1 := by
    rw [hfirst, hgranted, decide_eq_false_iff_not, not_le] at hdenied
    exact hdenied
  have hsame : (m.after cap rate (pre.map Prod.fst)).spend cap rate denied.1 =
      m.after cap rate (pre.map Prod.fst) := by
    refine if_neg ?_
    show ¬ decide (1 ≤ _) = true
    rw [decide_eq_true_eq, not_le]
    exact hlow
  rw [hsame] at hsecond
  rw [hsecond, hgranted]
  exact allows_of_wait hrate _ hcap hlater (hwait _ hfirst hlow)

end Answers

end Meter
