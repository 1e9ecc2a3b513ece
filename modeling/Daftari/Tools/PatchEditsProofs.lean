import Daftari.Tools.WriteProofs

/-! # Patch edits — where a text occurs, and how the edits count it

    An edit names the text it replaces, and is meant to apply only where that text can be one place.
    The code splits the running body at the text and counts the pieces; a split does not see
    occurrences that overlap.

    * `unique_iff`: **one position is one match and no overlap**;
    * `applyBodyEdits_iff`: **the edits are unambiguous exactly when no edit that is applied
      overlaps itself.** -/

namespace Write

/-! ## Occurrences -/

/-- The text occurs at this position of the body. -/
def OccursAt (pattern text : List Char) (i : Nat) : Prop := pattern <+: text.drop i

instance (pattern text : List Char) (i : Nat) : Decidable (OccursAt pattern text i) :=
  inferInstanceAs (Decidable (pattern <+: text.drop i))

/-- The text occurs at two positions that share characters. -/
def Overlaps (pattern text : List Char) : Prop :=
  ∃ i j, i < j ∧ j < i + pattern.length ∧ OccursAt pattern text i ∧ OccursAt pattern text j

section Occurrences

variable {pattern text pre post : List Char}

theorem OccursAt.lt_length (hp : pattern ≠ []) {i : Nat} (h : OccursAt pattern text i) :
    i < text.length := by
  have hle := h.length_le
  have hpos := List.length_pos_iff.mpr hp
  rw [List.length_drop] at hle
  omega

theorem occursAt_append {i : Nat} :
    OccursAt pattern (pre ++ post) (pre.length + i) ↔ OccursAt pattern post i := by
  unfold OccursAt
  rw [List.drop_append, List.drop_of_length_le (by omega), List.nil_append,
    Nat.add_sub_cancel_left]

/-- **The split finds nothing** where the text does not occur. -/
theorem breakOn_eq_none (hp : pattern ≠ []) :
    breakOn pattern text = none ↔ ∀ i, ¬ OccursAt pattern text i := by
  induction text with
  | nil =>
      refine iff_of_true rfl fun i h => ?_
      exact absurd (h.lt_length hp) (Nat.not_lt_zero i)
  | cons c rest ih =>
      unfold breakOn
      by_cases hpre : pattern.isPrefixOf (c :: rest) = true
      · rw [if_pos hpre]
        refine iff_of_false (by simp) fun h => h 0 ?_
        exact List.isPrefixOf_iff_prefix.mp hpre
      · rw [if_neg hpre, Option.map_eq_none_iff, ih]
        constructor
        · intro h i
          cases i with
          | zero => exact fun hzero => hpre (List.isPrefixOf_iff_prefix.mpr hzero)
          | succ i => exact h i
        · intro h i
          exact h (i + 1)

/-- **The split finds the first occurrence.** -/
theorem breakOn_eq_some (h : breakOn pattern text = some (pre, post)) :
    text = pre ++ pattern ++ post ∧ ∀ i < pre.length, ¬ OccursAt pattern text i := by
  induction text generalizing pre with
  | nil => cases h
  | cons c rest ih =>
      unfold breakOn at h
      by_cases hpre : pattern.isPrefixOf (c :: rest) = true
      · rw [if_pos hpre] at h
        obtain ⟨rfl, rfl⟩ := Prod.mk.inj (Option.some.inj h)
        obtain ⟨t, ht⟩ := List.isPrefixOf_iff_prefix.mp hpre
        refine ⟨?_, fun i hi => absurd hi (Nat.not_lt_zero i)⟩
        rw [List.nil_append, ← ht, List.drop_left]
      · rw [if_neg hpre] at h
        obtain ⟨⟨pre', post'⟩, hbreak, he⟩ := Option.map_eq_some_iff.mp h
        obtain ⟨rfl, rfl⟩ := Prod.mk.inj he
        obtain ⟨hrest, hfirst⟩ := ih hbreak
        refine ⟨?_, ?_⟩
        · rw [List.cons_append, List.cons_append, ← hrest]
        · intro i hi
          cases i with
          | zero => exact fun hzero => hpre (List.isPrefixOf_iff_prefix.mpr hzero)
          | succ i => exact hfirst i (by simpa using hi)

theorem occursAt_of_breakOn (h : breakOn pattern text = some (pre, post)) :
    OccursAt pattern text pre.length := by
  obtain ⟨rfl, _⟩ := breakOn_eq_some h
  unfold OccursAt
  rw [List.append_assoc, List.drop_left]
  exact List.prefix_append _ _

/-- **One match**: the text occurs, and not again after its first occurrence. -/
theorem countMatches_eq_one (hp : pattern ≠ []) : countMatches pattern (text.length + 1) text = 1 ↔
      ∃ pre post, breakOn pattern text = some (pre, post) ∧ ∀ i, ¬ OccursAt pattern post i := by
  unfold countMatches
  cases hbreak : breakOn pattern text with
  | none => simp
  | some e =>
      obtain ⟨pre, post⟩ := e
      obtain ⟨htext, _⟩ := breakOn_eq_some hbreak
      have hpos := List.length_pos_iff.mpr hp
      have hlen : text.length = pre.length + pattern.length + post.length := by
        rw [htext, List.length_append, List.length_append]
      obtain ⟨fuel, hfuel⟩ : ∃ fuel, text.length = fuel + 1 := ⟨text.length - 1, by omega⟩
      have hzero : countMatches pattern text.length post + 1 = 1 ↔ breakOn pattern post = none := by
        rw [hfuel]
        unfold countMatches
        cases breakOn pattern post with
        | none => simp
        | some e => simp
      refine hzero.trans ((breakOn_eq_none hp).trans ?_)
      constructor
      · intro h
        exact ⟨pre, post, rfl, h⟩
      · rintro ⟨pre', post', he, h⟩
        obtain ⟨rfl, rfl⟩ := Prod.mk.inj (Option.some.inj he)
        exact h

/-- **One position is one match and no overlap.** -/
theorem unique_iff (hp : pattern ≠ []) :
    (∃ i, OccursAt pattern text i ∧ ∀ j, OccursAt pattern text j → j = i) ↔
      countMatches pattern (text.length + 1) text = 1 ∧ ¬ Overlaps pattern text := by
  rw [countMatches_eq_one hp]
  constructor
  · rintro ⟨i, hi, honly⟩
    refine ⟨?_, ?_⟩
    · cases hbreak : breakOn pattern text with
      | none => exact absurd hi ((breakOn_eq_none hp).mp hbreak i)
      | some e =>
          obtain ⟨pre, post⟩ := e
          refine ⟨pre, post, rfl, fun j hj => ?_⟩
          have hfirst := honly _ (occursAt_of_breakOn hbreak)
          have hagain : OccursAt pattern text ((pre ++ pattern).length + j) := by
            rw [(breakOn_eq_some hbreak).1]
            exact occursAt_append.mpr hj
          have hsame := honly _ hagain
          have hpos := List.length_pos_iff.mpr hp
          rw [List.length_append] at hsame
          omega
    · rintro ⟨a, b, hlt, _, ha, hb⟩
      have ha' := honly a ha
      have hb' := honly b hb
      omega
  · rintro ⟨⟨pre, post, hbreak, hpost⟩, hoverlap⟩
    obtain ⟨htext, hfirst⟩ := breakOn_eq_some hbreak
    have hocc := occursAt_of_breakOn hbreak
    refine ⟨pre.length, hocc, fun j hj => ?_⟩
    by_contra hne
    rcases Nat.lt_or_gt_of_ne hne with hlt | hgt
    · exact hfirst j hlt hj
    · by_cases hin : j < pre.length + pattern.length
      · exact hoverlap ⟨pre.length, j, hgt, hin, hocc, hj⟩
      · -- past the first occurrence the position is one of the rest
        obtain ⟨k, rfl⟩ := Nat.exists_eq_add_of_le (Nat.not_lt.mp hin)
        rw [htext, ← List.length_append] at hj
        exact hpost k (occursAt_append.mp hj)

end Occurrences

/-! ## Edits in turn -/

def replaceFirst (body : List Char) (edit : BodyEdit) : List Char :=
  match breakOn edit.old body with
  | some (pre, post) => pre ++ edit.new ++ post
  | none => body

def turns : List Char → List BodyEdit → List (List Char × BodyEdit)
  | _, [] => []
  | body, edit :: rest => (body, edit) :: turns (replaceFirst body edit) rest

/-- **What the edits are meant to do**: each one's text occurs at exactly one
    position of the running body, and that occurrence is replaced. -/
inductive Unambiguous : List Char → List BodyEdit → List Char → Prop where
  | done (body : List Char) : Unambiguous body [] body
  | edit {body result : List Char} {e : BodyEdit} {rest : List BodyEdit} (i : Nat)
      (occurs : OccursAt e.old body i) (only : ∀ j, OccursAt e.old body j → j = i)
      (then_ : Unambiguous (body.take i ++ e.new ++ body.drop (i + e.old.length)) rest result) :
      Unambiguous body (e :: rest) result

/-- An edit that splits the body in two. -/
def MatchesOnce (body : List Char) (edit : BodyEdit) : Prop :=
  countMatches edit.old (body.length + 1) body = 1

instance (body : List Char) (edit : BodyEdit) : Decidable (MatchesOnce body edit) :=
  inferInstanceAs (Decidable (_ = 1))

section Edits

variable {body result : List Char} {edits : List BodyEdit}

theorem old_ne_nil_of_readBodyEdits (h : readBodyEdits edits = .ok ()) :
    ∀ e ∈ edits, e.old ≠ [] := by
  have hall : ∀ (l : List (BodyEdit × Nat)),
      (l.forM fun e => do
        refuse (e.1.old = [])
          ("vault_patch: body_edits[" ++ toString e.2 ++ "] has an empty 'old'")
        refuse (e.1.old = e.1.new)
          ("vault_patch: body_edits[" ++ toString e.2 ++ "] has identical 'old' and 'new'"))
        = Except.ok () → ∀ e ∈ l, e.1.old ≠ [] := by
    intro l
    induction l with
    | nil =>
        intro _ e he
        cases he
    | cons x l ih =>
        intro hl e he
        obtain ⟨_, hx, hl⟩ := bind_eq_ok hl
        obtain ⟨_, hempty, _⟩ := bind_eq_ok hx
        rcases List.mem_cons.mp he with rfl | he
        · exact refuse_eq_ok hempty
        · exact ih hl e he
  obtain ⟨_, _, h⟩ := bind_eq_ok h
  intro e he
  obtain ⟨i, hi⟩ := List.mem_iff_getElem?.mp he
  exact hall _ h (e, i) (List.mk_mem_zipIdx_iff_getElem?.mpr hi)

/-- **What the code does**: every edit in turn splits the body in two. -/
theorem applyBodyEdits_eq_ok {n : Nat} : applyBodyEdits n body edits = .ok result ↔
      (∀ t ∈ turns body edits, MatchesOnce t.1 t.2) ∧ result = edits.foldl replaceFirst body := by
  induction edits generalizing n body with
  | nil =>
      constructor
      · intro h
        refine ⟨fun t ht => ?_, (Except.ok.inj h).symm⟩
        cases ht
      · rintro ⟨_, rfl⟩
        rfl
  | cons e rest ih =>
      unfold applyBodyEdits
      simp only [turns, List.forall_mem_cons, List.foldl_cons]
      cases hbreak : breakOn e.old body with
      | none =>
          refine iff_of_false (by simp) ?_
          rintro ⟨⟨honce, _⟩, _⟩
          unfold MatchesOnce countMatches at honce
          rw [hbreak] at honce
          cases honce
      | some p =>
          obtain ⟨pre, post⟩ := p
          have hreplace : replaceFirst body e = pre ++ e.new ++ post := by
            unfold replaceFirst
            rw [hbreak]
          simp only
          rw [hreplace]
          by_cases honce : countMatches e.old (body.length + 1) body = 1
          · rw [if_pos honce, ih]
            constructor
            · rintro ⟨hrest, hresult⟩
              exact ⟨⟨honce, hrest⟩, hresult⟩
            · rintro ⟨⟨_, hrest⟩, hresult⟩
              exact ⟨hrest, hresult⟩
          · rw [if_neg honce]
            refine iff_of_false (by simp) ?_
            rintro ⟨⟨h, _⟩, _⟩
            exact honce h

theorem replaceFirst_eq {e : BodyEdit} (hp : e.old ≠ []) {i : Nat}
    (hi : OccursAt e.old body i) (honly : ∀ j, OccursAt e.old body j → j = i) :
    replaceFirst body e = body.take i ++ e.new ++ body.drop (i + e.old.length) := by
  unfold replaceFirst
  cases hbreak : breakOn e.old body with
  | none => exact absurd hi ((breakOn_eq_none hp).mp hbreak i)
  | some p =>
      obtain ⟨pre, post⟩ := p
      obtain ⟨hbody, _⟩ := breakOn_eq_some hbreak
      obtain rfl := honly _ (occursAt_of_breakOn hbreak)
      have htake : (pre ++ e.old ++ post).take pre.length = pre := by
        rw [List.append_assoc, List.take_left]
      have hdrop : (pre ++ e.old ++ post).drop (pre.length + e.old.length) = post := by
        rw [← List.length_append, List.drop_left]
      rw [hbody, htake, hdrop]

/-- **What they are meant to do**: every edit in turn has one position. -/
theorem unambiguous_iff (hold : ∀ e ∈ edits, e.old ≠ []) : Unambiguous body edits result ↔
      (∀ t ∈ turns body edits, MatchesOnce t.1 t.2 ∧ ¬ Overlaps t.2.old t.1) ∧
        result = edits.foldl replaceFirst body := by
  induction edits generalizing body with
  | nil =>
      constructor
      · rintro ⟨⟩
        refine ⟨fun t ht => ?_, rfl⟩
        cases ht
      · rintro ⟨_, rfl⟩
        exact .done _
  | cons e rest ih =>
      have hp := hold e List.mem_cons_self
      have hrest := fun d hd => hold d (List.mem_cons_of_mem e hd)
      simp only [turns, List.forall_mem_cons, List.foldl_cons]
      constructor
      · rintro ⟨⟩
        rename_i i hoccurs honly hthen
        rw [← replaceFirst_eq hp hoccurs honly, ih hrest] at hthen
        exact ⟨⟨(unique_iff hp).mp ⟨i, hoccurs, honly⟩, hthen.1⟩, hthen.2⟩
      · rintro ⟨⟨hunique, hturns⟩, hresult⟩
        obtain ⟨i, hoccurs, honly⟩ := (unique_iff hp).mpr hunique
        refine .edit i hoccurs honly ?_
        rw [← replaceFirst_eq hp hoccurs honly]
        exact (ih hrest).mpr ⟨hturns, hresult⟩

/-- **The edits are unambiguous exactly when no applied edit overlaps itself**: either the text of
    some edit does not split the running body in two, and the list is refused, or at no turn does a
    text occur at positions that share characters. -/
theorem applyBodyEdits_iff (body : List Char) (edits : List BodyEdit)
    (h : readBodyEdits edits = .ok ()) :
    (∀ result, applyBodyEdits 0 body edits = .ok result ↔ Unambiguous body edits result) ↔
      ((∃ t ∈ turns body edits, ¬ MatchesOnce t.1 t.2) ∨
        ∀ t ∈ turns body edits, ¬ Overlaps t.2.old t.1) := by
  have hold := old_ne_nil_of_readBodyEdits h
  constructor
  · intro hexact
    by_cases honce : ∀ t ∈ turns body edits, MatchesOnce t.1 t.2
    · right
      have hok := applyBodyEdits_eq_ok (n := 0).mpr ⟨honce, rfl⟩
      intro t ht
      exact ((unambiguous_iff hold).mp ((hexact _).mp hok)).1 t ht |>.2
    · left
      push Not at honce
      exact honce
  · intro hcond result
    rw [applyBodyEdits_eq_ok, unambiguous_iff hold]
    constructor
    · rintro ⟨honce, hresult⟩
      refine ⟨fun t ht => ⟨honce t ht, ?_⟩, hresult⟩
      rcases hcond with ⟨t', ht', hnot⟩ | hno
      · exact absurd (honce t' ht') hnot
      · exact hno t ht
    · rintro ⟨hboth, hresult⟩
      exact ⟨fun t ht => (hboth t ht).1, hresult⟩

def nextDay : List BodyEdit := [⟨['1'], ['2']⟩]

theorem nextDay_unambiguous : Unambiguous "May 1".toList nextDay "May 2".toList := by
  refine ((applyBodyEdits_iff "May 1".toList nextDay rfl).mpr (Or.inr ?_) _).mp (by decide +kernel)
  -- a text of one character has no room to overlap itself
  rintro t ht ⟨i, j, hij, hji, _⟩
  obtain rfl : t = ("May 1".toList, ⟨['1'], ['2']⟩) := List.mem_singleton.mp ht
  rw [List.length_singleton] at hji
  omega

/-- **`aa` IN `aaa`**: one match, and two positions. -/
theorem overlapping_edit_applied :
    readBodyEdits [⟨"aa".toList, "b".toList⟩] = .ok () ∧
    applyBodyEdits 0 "aaa".toList [⟨"aa".toList, "b".toList⟩] = .ok "ba".toList ∧
    ¬ Unambiguous "aaa".toList [⟨"aa".toList, "b".toList⟩] "ba".toList := by
  refine ⟨rfl, by decide +kernel, ?_⟩
  rintro ⟨⟩
  rename_i i _ honly _
  have hzero := honly 0 (by decide)
  have hone := honly 1 (by decide)
  omega

end Edits

end Write
