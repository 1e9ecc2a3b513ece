import Mathlib.Data.List.Infix
import Mathlib.Tactic.Common

/-! # Texts as lines — first occurrences, and blocks of whole lines

    A text is its lines joined by a separator.  A block of lines, joined, occurs in
    the text wherever its characters do; it is a block of the text's lines where it
    starts a line and ends one, and the separators before it count the lines.

    * `indexOf`: the first occurrence of a text in another;
    * `splitOn_append`: the lines of two texts with a separator between them;
    * `WholeLines`: an occurrence that starts a line and ends one;
    * `splitOn_of_wholeLines`, `exists_wholeLines`: **occurrences of whole lines are
      runs of lines**, counted by the separators before them. -/

namespace Lines

variable {α : Type} [DecidableEq α]

/-! ## First occurrences -/

/-- `String.prototype.indexOf`; `none` is `-1`. -/
def indexOf (pattern : List α) : List α → Option Nat
  | [] => if pattern = [] then some 0 else none
  | c :: text =>
      if pattern <+: c :: text then some 0 else (indexOf pattern text).map (· + 1)

variable {pattern text : List α}

theorem indexOf_eq_some {i : Nat} (h : indexOf pattern text = some i) :
    pattern <+: text.drop i ∧ i ≤ text.length ∧ ∀ j < i, ¬ pattern <+: text.drop j := by
  induction text generalizing i with
  | nil =>
      unfold indexOf at h
      split at h
      case isTrue hp =>
        cases h
        exact ⟨by rw [hp]; exact List.nil_prefix, Nat.le_refl _, fun j hj => absurd hj (by omega)⟩
      case isFalse => cases h
  | cons c text ih =>
      unfold indexOf at h
      split at h
      case isTrue hp =>
        cases h
        exact ⟨hp, Nat.zero_le _, fun j hj => absurd hj (by omega)⟩
      case isFalse hp =>
        obtain ⟨k, hk, rfl⟩ := Option.map_eq_some_iff.mp h
        obtain ⟨hpre, hle, hfirst⟩ := ih hk
        refine ⟨hpre, Nat.succ_le_succ hle, fun j hj => ?_⟩
        cases j with
        | zero => exact hp
        | succ j => exact hfirst j (by omega)

theorem indexOf_eq_none : indexOf pattern text = none ↔ ¬ pattern <:+: text := by
  induction text with
  | nil =>
      unfold indexOf
      by_cases hp : pattern = [] <;> simp [hp]
  | cons c text ih =>
      unfold indexOf
      rw [List.infix_cons_iff]
      by_cases hp : pattern <+: c :: text
      · simp [hp]
      · simp [hp, ih]

variable {before : List α}

theorem indexOf_append {after : List α}
    (hfirst : ∀ j < before.length, ¬ pattern <+: (before ++ pattern ++ after).drop j) :
    indexOf pattern (before ++ pattern ++ after) = some before.length := by
  cases h : indexOf pattern (before ++ pattern ++ after) with
  | none =>
      refine absurd ?_ (indexOf_eq_none.mp h)
      exact ⟨before, after, rfl⟩
  | some i =>
      obtain ⟨hpre, -, hless⟩ := indexOf_eq_some h
      have hhere : pattern <+: (before ++ pattern ++ after).drop before.length := by
        rw [List.append_assoc, List.drop_left]
        exact List.prefix_append _ _
      rcases Nat.lt_trichotomy i before.length with hlt | heq | hgt
      · exact absurd hpre (hfirst i hlt)
      · rw [heq]
      · exact absurd hhere (hless _ hgt)

theorem split_of_indexOf {i : Nat} (h : indexOf pattern text = some i) :
    text = text.take i ++ pattern ++ text.drop (i + pattern.length) := by
  obtain ⟨⟨after, hafter⟩, -, -⟩ := indexOf_eq_some h
  have hdrop : text.drop (i + pattern.length) = after := by
    rw [← List.drop_drop, ← hafter, List.drop_left]
  rw [hdrop, List.append_assoc, hafter, List.take_append_drop]

/-! ## Lines -/

variable {sep : α}

theorem splitOn_append (a b : List α) :
    (a ++ sep :: b).splitOn sep = a.splitOn sep ++ b.splitOn sep := by
  induction a with
  | nil =>
      rw [List.nil_append, List.splitOn_cons_eq_if_modifyHead, if_pos (beq_self_eq_true _),
        List.splitOn_nil]
      rfl
  | cons c a ih =>
      rw [List.cons_append, List.splitOn_cons_eq_if_modifyHead, List.splitOn_cons_eq_if_modifyHead,
        ih]
      split
      · rfl
      · cases hs : a.splitOn sep with
        | nil => exact absurd hs (List.splitOn_ne_nil _ _)
        | cons first rest => rfl

theorem length_splitOn (a : List α) : (a.splitOn sep).length = a.count sep + 1 := by
  induction a with
  | nil => rw [List.splitOn_nil]; rfl
  | cons c a ih =>
      rw [List.splitOn_cons_eq_if_modifyHead, List.count_cons]
      split
      · rw [List.length_cons, ih]
      · rw [List.length_modifyHead, ih]

variable {ls : List (List α)}

theorem splitOn_join (hne : ls ≠ []) (h : ∀ l ∈ ls, sep ∉ l) :
    ([sep].intercalate ls).splitOn sep = ls := List.splitOn_intercalate sep h hne

omit [DecidableEq α] in
theorem join_append {ms : List (List α)} (hls : ls ≠ []) (hms : ms ≠ []) :
    [sep].intercalate (ls ++ ms) = [sep].intercalate ls ++ sep :: [sep].intercalate ms := by
  induction ls with
  | nil => exact absurd rfl hls
  | cons l ls ih =>
      cases ls with
      | nil =>
          rw [List.singleton_append, List.intercalate_cons_of_ne_nil hms,
            List.intercalate_singleton]
          simp
      | cons l' ls =>
          rw [List.cons_append, List.intercalate_cons_of_ne_nil (by simp),
            ih (List.cons_ne_nil _ _), List.intercalate_cons_of_ne_nil (List.cons_ne_nil _ _)]
          simp

theorem of_mem_splitOn {a l : List α} (h : l ∈ a.splitOn sep) : sep ∉ l ∧ l ⊆ a := by
  induction a generalizing l with
  | nil =>
      rw [List.splitOn_nil, List.mem_singleton] at h
      rw [h]
      exact ⟨List.not_mem_nil, List.nil_subset _⟩
  | cons c a ih =>
      rw [List.splitOn_cons_eq_if_modifyHead] at h
      split at h
      case isTrue =>
        rcases List.mem_cons.mp h with rfl | h
        · exact ⟨List.not_mem_nil, List.nil_subset _⟩
        · exact ⟨(ih h).1, List.subset_cons_of_subset _ (ih h).2⟩
      case isFalse hc =>
        cases hs : a.splitOn sep with
        | nil => exact absurd hs (List.splitOn_ne_nil _ _)
        | cons first rest =>
            rw [hs, List.modifyHead_cons] at h
            rw [hs] at ih
            rcases List.mem_cons.mp h with rfl | h
            · obtain ⟨hnot, hsub⟩ := ih List.mem_cons_self
              refine ⟨fun hmem => ?_, List.cons_subset_cons _ hsub⟩
              rcases List.mem_cons.mp hmem with rfl | hmem
              · exact hc (beq_self_eq_true _)
              · exact hnot hmem
            · obtain ⟨hnot, hsub⟩ := ih (List.mem_cons_of_mem _ h)
              exact ⟨hnot, List.subset_cons_of_subset _ hsub⟩

theorem mem_splitOn_of_mem {a : List α} {x : α} (h : x ∈ a) (hx : x ≠ sep) :
    ∃ l ∈ a.splitOn sep, x ∈ l := by
  induction a with
  | nil => cases h
  | cons c a ih =>
      rw [List.splitOn_cons_eq_if_modifyHead]
      split
      case isTrue hc =>
        have ha : x ∈ a :=
          (List.mem_cons.mp h).resolve_left fun heq => hx (heq.trans (eq_of_beq hc))
        obtain ⟨l, hl, hmem⟩ := ih ha
        exact ⟨l, List.mem_cons_of_mem _ hl, hmem⟩
      case isFalse =>
        cases hs : a.splitOn sep with
        | nil => exact absurd hs (List.splitOn_ne_nil _ _)
        | cons first rest =>
            rw [hs] at ih
            rcases List.mem_cons.mp h with rfl | ha
            · exact ⟨x :: first, List.mem_cons_self, List.mem_cons_self⟩
            · obtain ⟨l, hl, hmem⟩ := ih ha
              rcases List.mem_cons.mp hl with rfl | hrest
              · exact ⟨c :: l, List.mem_cons_self, List.mem_cons_of_mem _ hmem⟩
              · exact ⟨l, List.mem_cons_of_mem _ hrest, hmem⟩

theorem infix_of_mem_splitOn {a l : List α} (h : l ∈ a.splitOn sep) : l <:+: a := by
  have hjoin : [sep].intercalate (a.splitOn sep) = a := List.intercalate_splitOn _
  obtain ⟨before, after, hsplit⟩ := List.append_of_mem h
  rw [← hjoin, hsplit]
  cases before with
  | nil =>
      cases after with
      | nil => rw [List.nil_append, List.intercalate_singleton]
      | cons m after =>
          exact (List.prefix_append _ _).isInfix
  | cons b before =>
      rw [join_append (List.cons_ne_nil _ _) (List.cons_ne_nil _ _)]
      cases after with
      | nil =>
          exact ⟨[sep].intercalate (b :: before) ++ [sep], [], by simp⟩
      | cons m after =>
          exact ⟨[sep].intercalate (b :: before) ++ [sep],
            sep :: [sep].intercalate (m :: after), by simp⟩

/-! ## Whole lines -/

/-- What stands before an occurrence ends a line, or there is nothing. -/
def StartsLine (sep : α) (before : List α) : Prop := before = [] ∨ before.getLast? = some sep

/-- What stands after an occurrence begins with the end of a line, or there is nothing. -/
def EndsLine (sep : α) (after : List α) : Prop := after = [] ∨ after.head? = some sep

instance (before : List α) : Decidable (StartsLine sep before) :=
  inferInstanceAs (Decidable (_ ∨ _))

instance (after : List α) : Decidable (EndsLine sep after) :=
  inferInstanceAs (Decidable (_ ∨ _))

theorem splitOn_of_wholeLines {block after : List α} (hbefore : StartsLine sep before)
    (hafter : EndsLine sep after) :
    ∃ ps qs, (before ++ block ++ after).splitOn sep = ps ++ block.splitOn sep ++ qs
      ∧ ps.length = before.count sep := by
  have htail : ∃ qs, (block ++ after).splitOn sep = block.splitOn sep ++ qs := by
    rcases hafter with rfl | hhead
    · exact ⟨[], by rw [List.append_nil, List.append_nil]⟩
    · obtain ⟨after', rfl⟩ := List.head?_eq_some_iff.mp hhead
      exact ⟨after'.splitOn sep, splitOn_append _ _⟩
  obtain ⟨qs, hqs⟩ := htail
  rcases hbefore with rfl | hlast
  · exact ⟨[], qs, by rw [List.nil_append, hqs, List.nil_append], rfl⟩
  · obtain ⟨before', rfl⟩ := List.getLast?_eq_some_iff.mp hlast
    refine ⟨before'.splitOn sep, qs, ?_, ?_⟩
    · rw [List.append_assoc, List.append_assoc, List.singleton_append, splitOn_append, hqs,
        List.append_assoc]
    · rw [length_splitOn, List.count_append, List.count_singleton_self]

/-- **A run of a text's lines occurs in it**, after as many separators as there are
    lines before it. -/
theorem exists_wholeLines {ps qs : List (List α)} (h : text.splitOn sep = ps ++ ls ++ qs)
    (hne : ls ≠ []) :
    ∃ before after, text = before ++ [sep].intercalate ls ++ after ∧ StartsLine sep before
      ∧ EndsLine sep after ∧ before.count sep = ps.length := by
  have htext : text = [sep].intercalate (ps ++ ls ++ qs) := by
    rw [← h, List.intercalate_splitOn]
  have hps : ∀ l ∈ ps, sep ∉ l := fun l hl => (of_mem_splitOn (a := text) (by simp [h, hl])).1
  -- what stands before the run
  obtain ⟨before, hbefore, hstarts, hcount⟩ : ∃ before,
      [sep].intercalate (ps ++ ls) = before ++ [sep].intercalate ls ∧ StartsLine sep before
        ∧ before.count sep = ps.length := by
    rcases eq_or_ne ps [] with rfl | hne'
    · exact ⟨[], rfl, Or.inl rfl, rfl⟩
    · refine ⟨[sep].intercalate ps ++ [sep], ?_, Or.inr (by simp), ?_⟩
      · rw [join_append hne' hne, List.append_assoc, List.singleton_append]
      · have hlen : (([sep].intercalate ps).splitOn sep).length = _ := length_splitOn _
        rw [splitOn_join hne' hps] at hlen
        rw [List.count_append, List.count_singleton_self, hlen]
  -- and after it
  rcases eq_or_ne qs [] with rfl | hqs
  · refine ⟨before, [], ?_, hstarts, Or.inl rfl, hcount⟩
    rw [htext, List.append_nil, List.append_nil, hbefore]
  · refine ⟨before, sep :: [sep].intercalate qs, ?_, hstarts, Or.inr rfl, hcount⟩
    rw [htext, join_append (by simp [hne]) hqs, hbefore]

/-! ## Ranges of lines -/

/-- The lines `a` to `b`, counted from one, where there are such lines. -/
def linesAt (ls : List (List α)) (a b : Nat) : Option (List (List α)) :=
  if 1 ≤ a ∧ a ≤ b ∧ b ≤ ls.length then some ((ls.take b).drop (a - 1)) else none

omit [DecidableEq α] in
theorem linesAt_eq_some {bs : List (List α)} {a b : Nat} : linesAt ls a b = some bs ↔
      ∃ ps qs, ls = ps ++ bs ++ qs ∧ a = ps.length + 1 ∧ b = ps.length + bs.length ∧ bs ≠ [] := by
  unfold linesAt
  constructor
  · intro h
    split at h
    case isFalse => cases h
    case isTrue hrange =>
      obtain ⟨ha, hab, hb⟩ := hrange
      obtain rfl := Option.some.inj h
      have hlen : ((ls.take b).drop (a - 1)).length = b - (a - 1) := by
        rw [List.length_drop, List.length_take, Nat.min_eq_left hb]
      have hfirst : (ls.take (a - 1)).length = a - 1 := by
        rw [List.length_take]
        omega
      refine ⟨ls.take (a - 1), ls.drop b, ?_, by omega, by omega, ?_⟩
      · have htake : ls.take (a - 1) = (ls.take b).take (a - 1) := by
          rw [List.take_take, Nat.min_eq_left (by omega)]
        rw [htake, List.take_append_drop, List.take_append_drop]
      · intro hnil
        rw [hnil, List.length_nil] at hlen
        omega
  · rintro ⟨ps, qs, rfl, rfl, rfl, hne⟩
    have hpos := List.length_pos_iff.mpr hne
    have htake : (ps ++ bs ++ qs).take (ps.length + bs.length) = ps ++ bs := by
      rw [← List.length_append]
      exact List.take_left
    rw [if_pos ⟨by omega, by omega, by simp⟩, htake, Nat.add_sub_cancel, List.drop_left]

theorem prefix_first_line {after : List α} (h : sep ∉ before) :
    ∃ first rest, (before ++ after).splitOn sep = first :: rest ∧ before <+: first := by
  induction before with
  | nil =>
      cases hs : after.splitOn sep with
      | nil => exact absurd hs (List.splitOn_ne_nil _ _)
      | cons first rest => exact ⟨first, rest, hs, List.nil_prefix⟩
  | cons c before ih =>
      obtain ⟨hc, hbefore⟩ := not_or.mp fun hmem => h (List.mem_cons.mpr hmem)
      obtain ⟨first, rest, hsplit, hpre⟩ := ih hbefore
      refine ⟨c :: first, rest, ?_, List.cons_prefix_cons.mpr ⟨rfl, hpre⟩⟩
      rw [List.cons_append, List.splitOn_cons_eq_if_modifyHead, if_neg (by simpa using Ne.symm hc),
        hsplit]
      rfl

end Lines
