import Daftari.Lib.TextProofs

/-! # Regular expressions — backtracking matches in order of preference

    A regular expression of the language is matched by trying its choices in order:
    the match that counts is the first.  `run` lists them all, in that order, so the
    order is data and what every match must look like is a fact about a list.

    * `Regex.run`: the matches from one position, with what the groups hold;
    * `Regex.exec`: the first match from the leftmost position that has one;
    * `mem_run_*`: what a match is made of, construct by construct;
    * `not_mem_used`: a character that no class holds is in no match. -/

/-- A pattern.  The quantifiers stand on character classes. -/
inductive Regex where
  | empty
  /-- A character of a class. -/
  | one (p : Char → Bool)
  /-- A class with a quantifier: at least `lo`, at most `hi`; `lazy` takes few. -/
  | many (isLazy : Bool) (lo : Nat) (hi : Option Nat) (p : Char → Bool)
  | seq (r s : Regex)
  /-- The left one is preferred. -/
  | alt (r s : Regex)
  | group (i : Nat) (r : Regex)
  /-- `^`. -/
  | start
  /-- `$`. -/
  | stop
  /-- `\b`. -/
  | boundary

namespace Regex

/-- What a match has used, what is left of the text, and what its groups hold. -/
structure Match where
  used : List Char
  rest : List Char
  groups : List (Nat × List Char)
deriving DecidableEq

/-- What a group holds; `none` is `undefined`. -/
def Match.group (m : Match) (i : Nat) : Option (List Char) := m.groups.lookup i

/-- The two matches of a sequence, one after the other. -/
def Match.andThen (m n : Match) : Match := ⟨m.used ++ n.used, n.rest, m.groups ++ n.groups⟩

/-! ## Patterns in use -/

/-- Parts one after another. -/
def all (rs : List Regex) : Regex := rs.foldr .seq .empty

/-- A text, to the letter. -/
def text (s : List Char) : Regex := all (s.map fun c => .one (· = c))

/-- A text under the `i` flag. -/
def textIgnoringCase (s : List Char) : Regex := all (s.map fun c => .one (·.toLower = c.toLower))

/-- `r?`. -/
def opt (r : Regex) : Regex := .alt r .empty

/-- One of several, the first preferred. -/
def oneOf : List Regex → Regex
  | [] => .empty
  | [r] => r
  | r :: rs => .alt r (oneOf rs)

/-- `.`. -/
def dot (c : Char) : Bool := !Text.isTerminator c

/-- A character of a word, for `\b`. -/
def isWord (c : Char) : Bool := c.isAlphanum || c == '_'

/-! ## Matching -/

/-- The lengths that a quantifier may take, in the order in which it tries them. -/
def lengths (isLazy : Bool) (lo : Nat) (hi : Option Nat) (available : Nat) : List Nat :=
  let ns := (List.range (available + 1)).filter fun n => lo ≤ n ∧ ∀ h ∈ hi, n ≤ h
  if isLazy then ns else ns.reverse

/-- The matches at one position, `before` the characters before it, the last first. -/
@[simp] def run : Regex → List Char → List Char → List Match
  | .empty, _, text => [⟨[], text, []⟩]
  | .one _, _, [] => []
  | .one p, _, c :: text => if p c then [⟨[c], text, []⟩] else []
  | .many isLazy lo hi p, _, text =>
      (lengths isLazy lo hi (text.takeWhile p).length).map fun n => ⟨text.take n, text.drop n, []⟩
  | .seq r s, before, text =>
      (run r before text).flatMap fun m =>
        (run s (m.used.reverse ++ before) m.rest).map m.andThen
  | .alt r s, before, text => run r before text ++ run s before text
  | .group i r, before, text =>
      (run r before text).map fun m => { m with groups := (i, m.used) :: m.groups }
  | .start, before, text => if before = [] then [⟨[], text, []⟩] else []
  | .stop, _, text => if text = [] then [⟨[], text, []⟩] else []
  | .boundary, before, text =>
      if before.head?.any isWord ≠ text.head?.any isWord then [⟨[], text, []⟩] else []

/-- The search from one position on: the characters passed over, and the match. -/
def search (r : Regex) (before : List Char) : List Char → Option (List Char × Match)
  | [] => (r.run before []).head?.map fun m => ([], m)
  | c :: text =>
      match (r.run before (c :: text)).head? with
      | some m => some ([], m)
      | none => (search r (c :: before) text).map fun found => (c :: found.1, found.2)

/-- `RegExp.prototype.exec`: what stands before the match, and the match. -/
def exec (r : Regex) (text : List Char) : Option (List Char × Match) := search r [] text

/-- `RegExp.prototype.test`. -/
def test (r : Regex) (text : List Char) : Bool := (r.exec text).isSome

/-! ## What a match is made of -/

section Members

variable {r s : Regex} {p : Char → Bool} {before text : List Char} {m : Match}

@[simp] theorem mem_run_empty : m ∈ run .empty before text ↔ m = ⟨[], text, []⟩ := by
  simp [run]

theorem mem_run_one : m ∈ run (.one p) before text ↔ ∃ c, p c = true ∧ text = c :: m.rest
      ∧ m.used = [c] ∧ m.groups = [] := by
  cases text with
  | nil => simp [run]
  | cons d text =>
      obtain ⟨used, rest, groups⟩ := m
      simp only [run]
      by_cases hd : p d = true
      · simp only [hd, if_true, List.mem_singleton, Match.mk.injEq, List.cons.injEq]
        constructor
        · rintro ⟨rfl, rfl, rfl⟩
          exact ⟨d, hd, ⟨rfl, rfl⟩, rfl, rfl⟩
        · rintro ⟨c, -, ⟨rfl, rfl⟩, rfl, rfl⟩
          exact ⟨rfl, rfl, rfl⟩
      · simp only [hd, Bool.false_eq_true, if_false, List.not_mem_nil, false_iff, List.cons.injEq]
        rintro ⟨c, hc, ⟨rfl, -⟩, -⟩
        exact hd hc

theorem mem_lengths {isLazy : Bool} {lo : Nat} {hi : Option Nat} {available n : Nat} :
    n ∈ lengths isLazy lo hi available ↔ n ≤ available ∧ lo ≤ n ∧ ∀ h ∈ hi, n ≤ h := by
  unfold lengths
  cases isLazy <;> simp [Nat.lt_succ_iff]

theorem le_takeWhile_iff {n : Nat} (hn : n ≤ text.length) :
    n ≤ (text.takeWhile p).length ↔ ∀ c ∈ text.take n, p c = true := by
  induction text generalizing n with
  | nil => simp at hn; simp [hn]
  | cons c text ih =>
      cases n with
      | zero => simp
      | succ n =>
          have hn : n ≤ text.length := Nat.le_of_succ_le_succ hn
          by_cases hc : p c = true
          · rw [List.takeWhile_cons_of_pos hc, List.length_cons, List.take_succ_cons,
              Nat.succ_le_succ_iff, ih hn, List.forall_mem_cons]
            exact ⟨fun h => ⟨hc, h⟩, fun h => h.2⟩
          · rw [List.takeWhile_cons_of_neg hc, List.take_succ_cons, List.forall_mem_cons]
            exact ⟨fun h => absurd h (by simp), fun h => absurd h.1 hc⟩

theorem mem_run_many {isLazy : Bool} {lo : Nat} {hi : Option Nat} :
    m ∈ run (.many isLazy lo hi p) before text ↔ text = m.used ++ m.rest
      ∧ (∀ c ∈ m.used, p c = true) ∧ lo ≤ m.used.length ∧ (∀ h ∈ hi, m.used.length ≤ h)
      ∧ m.groups = [] := by
  obtain ⟨used, rest, groups⟩ := m
  simp only [run, List.mem_map, mem_lengths, Match.mk.injEq]
  constructor
  · rintro ⟨n, ⟨hn, hlo, hhi⟩, rfl, rfl, rfl⟩
    have hle : n ≤ text.length := hn.trans (List.takeWhile_prefix p).length_le
    have hlen : (text.take n).length = n := List.length_take_of_le hle
    refine ⟨(List.take_append_drop n text).symm, (le_takeWhile_iff hle).mp hn, ?_, ?_, rfl⟩
    · rw [hlen]
      exact hlo
    · rw [hlen]
      exact hhi
  · rintro ⟨rfl, hused, hlo, hhi, rfl⟩
    have htake : (used ++ rest).take used.length = used := List.take_left
    have hle : used.length ≤ (used ++ rest).length := by simp
    refine ⟨used.length, ⟨(le_takeWhile_iff hle).mpr ?_, hlo, hhi⟩, htake, List.drop_left, rfl⟩
    rw [htake]
    exact hused

theorem mem_run_seq : m ∈ run (.seq r s) before text ↔ ∃ m₁ ∈ run r before text,
      ∃ m₂ ∈ run s (m₁.used.reverse ++ before) m₁.rest, m = m₁.andThen m₂ := by
  simp only [run, List.mem_flatMap, List.mem_map]
  constructor
  · rintro ⟨m₁, h₁, m₂, h₂, rfl⟩
    exact ⟨m₁, h₁, m₂, h₂, rfl⟩
  · rintro ⟨m₁, h₁, m₂, h₂, rfl⟩
    exact ⟨m₁, h₁, m₂, h₂, rfl⟩

theorem mem_run_alt :
    m ∈ run (.alt r s) before text ↔ m ∈ run r before text ∨ m ∈ run s before text :=
  List.mem_append

theorem mem_run_group {i : Nat} : m ∈ run (.group i r) before text ↔ ∃ m₁ ∈ run r before text,
      m = { m₁ with groups := (i, m₁.used) :: m₁.groups } := by
  simp only [run, List.mem_map, eq_comm]

theorem mem_run_start : m ∈ run .start before text ↔ before = [] ∧ m = ⟨[], text, []⟩ := by
  simp only [run]
  split <;> simp_all

theorem mem_run_stop : m ∈ run .stop before text ↔ text = [] ∧ m = ⟨[], text, []⟩ := by
  simp only [run]
  split <;> simp_all

theorem mem_run_boundary : m ∈ run .boundary before text ↔
      before.head?.any isWord ≠ text.head?.any isWord ∧ m = ⟨[], text, []⟩ := by
  simp only [run]
  split <;> simp_all

theorem mem_run_opt : m ∈ run (opt r) before text ↔ m ∈ run r before text ∨ m = ⟨[], text, []⟩ := by
  rw [opt, mem_run_alt, mem_run_empty]

theorem mem_run_all_nil : m ∈ run (all []) before text ↔ m = ⟨[], text, []⟩ := mem_run_empty

theorem mem_run_all_cons {rs : List Regex} :
    m ∈ run (all (r :: rs)) before text ↔ ∃ m₁ ∈ run r before text,
      ∃ m₂ ∈ run (all rs) (m₁.used.reverse ++ before) m₁.rest, m = m₁.andThen m₂ :=
  mem_run_seq

theorem mem_run_text {s : List Char} :
    m ∈ run (Regex.text s) before text ↔ text = s ++ m.rest ∧ m.used = s ∧ m.groups = [] := by
  induction s generalizing before text m with
  | nil =>
      obtain ⟨used, rest, groups⟩ := m
      simp only [Regex.text, List.map_nil, mem_run_all_nil, Match.mk.injEq, List.nil_append]
      exact ⟨fun ⟨h₁, h₂, h₃⟩ => ⟨h₂.symm, h₁, h₃⟩, fun ⟨h₁, h₂, h₃⟩ => ⟨h₂, h₁.symm, h₃⟩⟩
  | cons c s ih =>
      simp only [Regex.text, List.map_cons, mem_run_all_cons]
      constructor
      · rintro ⟨m₁, h₁, m₂, h₂, rfl⟩
        obtain ⟨d, hd, htext, hused, hgroups⟩ := mem_run_one.mp h₁
        obtain rfl : d = c := of_decide_eq_true hd
        obtain ⟨htext₂, hused₂, hgroups₂⟩ := ih.mp h₂
        refine ⟨?_, ?_, ?_⟩
        · rw [htext, htext₂]
          rfl
        · simp [Match.andThen, hused, hused₂]
        · simp [Match.andThen, hgroups, hgroups₂]
      · rintro ⟨rfl, hused, hgroups⟩
        refine ⟨⟨[c], s ++ m.rest, []⟩, mem_run_one.mpr ⟨c, by simp, rfl, rfl, rfl⟩,
          ⟨s, m.rest, []⟩, ih.mpr ⟨rfl, rfl, rfl⟩, ?_⟩
        obtain ⟨used, rest, groups⟩ := m
        simp_all [Match.andThen]

theorem used_append_rest (h : m ∈ run r before text) : m.used ++ m.rest = text := by
  induction r generalizing before text m with
  | empty => rw [mem_run_empty.mp h]; rfl
  | one p =>
      obtain ⟨c, -, rfl, hused, -⟩ := mem_run_one.mp h
      rw [hused]
      rfl
  | many isLazy lo hi p => exact (mem_run_many.mp h).1.symm
  | seq r s ihr ihs =>
      obtain ⟨m₁, h₁, m₂, h₂, rfl⟩ := mem_run_seq.mp h
      change (m₁.used ++ m₂.used) ++ m₂.rest = text
      rw [List.append_assoc, ihs h₂, ihr h₁]
  | alt r s ihr ihs =>
      rcases mem_run_alt.mp h with h | h
      · exact ihr h
      · exact ihs h
  | group i r ih =>
      obtain ⟨m₁, h₁, rfl⟩ := mem_run_group.mp h
      have hsplit := ih h₁
      exact hsplit
  | start => rw [(mem_run_start.mp h).2]; rfl
  | stop => rw [(mem_run_stop.mp h).2]; rfl
  | boundary => rw [(mem_run_boundary.mp h).2]; rfl

theorem pieces_of_all {rs : List Regex} (h : m ∈ run (all rs) before text) :
    ∃ ms : List Match, List.Forall₂ (fun r n => ∃ b t, n ∈ run r b t) rs ms
      ∧ m.used = ms.flatMap Match.used ∧ m.groups = ms.flatMap Match.groups := by
  induction rs generalizing before text m with
  | nil =>
      rw [mem_run_all_nil.mp h]
      exact ⟨[], .nil, rfl, rfl⟩
  | cons r rs ih =>
      obtain ⟨m₁, h₁, m₂, h₂, rfl⟩ := mem_run_all_cons.mp h
      obtain ⟨ms, hms, hused, hgroups⟩ := ih h₂
      refine ⟨m₁ :: ms, .cons ⟨_, _, h₁⟩ hms, ?_, ?_⟩
      · rw [List.flatMap_cons, ← hused]
        rfl
      · rw [List.flatMap_cons, ← hgroups]
        rfl

/-- The pattern has no groups. -/
def isPlain : Regex → Bool
  | .seq r s | .alt r s => isPlain r && isPlain s
  | .group _ _ => false
  | _ => true

theorem groups_of_plain (hr : r.isPlain = true) (h : m ∈ run r before text) : m.groups = [] := by
  induction r generalizing before text m with
  | empty => rw [mem_run_empty.mp h]
  | one p =>
      obtain ⟨d, -, -, -, hgroups⟩ := mem_run_one.mp h
      exact hgroups
  | many isLazy lo hi p => exact (mem_run_many.mp h).2.2.2.2
  | seq r s ihr ihs =>
      obtain ⟨m₁, h₁, m₂, h₂, rfl⟩ := mem_run_seq.mp h
      obtain ⟨hr₁, hr₂⟩ := (Bool.and_eq_true _ _).mp hr
      change m₁.groups ++ m₂.groups = []
      rw [ihr hr₁ h₁, ihs hr₂ h₂]
      rfl
  | alt r s ihr ihs =>
      obtain ⟨hr₁, hr₂⟩ := (Bool.and_eq_true _ _).mp hr
      rcases mem_run_alt.mp h with h | h
      · exact ihr hr₁ h
      · exact ihs hr₂ h
  | group i r ih => exact absurd hr Bool.false_ne_true
  | start => rw [(mem_run_start.mp h).2]
  | stop => rw [(mem_run_stop.mp h).2]
  | boundary => rw [(mem_run_boundary.mp h).2]

theorem groups_of_group {i : Nat} (hr : r.isPlain = true) (h : m ∈ run (.group i r) before text) :
    m.groups = [(i, m.used)] := by
  obtain ⟨n, hn, rfl⟩ := mem_run_group.mp h
  rw [groups_of_plain hr hn]

def avoids (c : Char) : Regex → Bool
  | .one p | .many _ _ _ p => !p c
  | .seq r s | .alt r s => avoids c r && avoids c s
  | .group _ r => avoids c r
  | .empty | .start | .stop | .boundary => true

/-- **What no class holds is in no match.** -/
theorem not_mem_used {c : Char} (hr : r.avoids c = true) (h : m ∈ run r before text) :
    c ∉ m.used := by
  induction r generalizing before text m with
  | empty => rw [mem_run_empty.mp h]; exact List.not_mem_nil
  | start => rw [(mem_run_start.mp h).2]; exact List.not_mem_nil
  | stop => rw [(mem_run_stop.mp h).2]; exact List.not_mem_nil
  | boundary => rw [(mem_run_boundary.mp h).2]; exact List.not_mem_nil
  | one p =>
      obtain ⟨d, hd, -, hused, -⟩ := mem_run_one.mp h
      intro hc
      rw [hused, List.mem_singleton] at hc
      rw [avoids, hc, hd] at hr
      cases hr
  | many isLazy lo hi p =>
      intro hc
      rw [avoids, (mem_run_many.mp h).2.1 c hc] at hr
      cases hr
  | seq r s ihr ihs =>
      obtain ⟨m₁, h₁, m₂, h₂, rfl⟩ := mem_run_seq.mp h
      obtain ⟨hr₁, hr₂⟩ := (Bool.and_eq_true _ _).mp hr
      intro hc
      rcases List.mem_append.mp hc with hc | hc
      · exact ihr hr₁ h₁ hc
      · exact ihs hr₂ h₂ hc
  | alt r s ihr ihs =>
      obtain ⟨hr₁, hr₂⟩ := (Bool.and_eq_true _ _).mp hr
      rcases mem_run_alt.mp h with h | h
      · exact ihr hr₁ h
      · exact ihs hr₂ h
  | group i r ih =>
      obtain ⟨m₁, h₁, rfl⟩ := mem_run_group.mp h
      have hused := ih hr h₁
      exact hused

end Members

/-! ## Searching -/

section Searching

variable {r : Regex}

variable {text skipped before : List Char} {m : Match}

theorem of_search (h : r.search before text = some (skipped, m)) :
    ∃ here, text = skipped ++ here ∧ (r.run (skipped.reverse ++ before) here).head? = some m := by
  induction text generalizing before skipped with
  | nil =>
      obtain ⟨m', hm, heq⟩ := Option.map_eq_some_iff.mp h
      cases heq
      exact ⟨[], rfl, hm⟩
  | cons c text ih =>
      simp only [search] at h
      split at h
      case h_1 m' hm =>
        cases h
        exact ⟨c :: text, rfl, hm⟩
      case h_2 =>
        obtain ⟨⟨skipped', m'⟩, hfound, heq⟩ := Option.map_eq_some_iff.mp h
        cases heq
        obtain ⟨here, rfl, hm⟩ := ih hfound
        exact ⟨here, rfl, by simpa using hm⟩

theorem of_exec (h : r.exec text = some (skipped, m)) :
    ∃ here, text = skipped ++ here ∧ m ∈ r.run skipped.reverse here := by
  obtain ⟨here, htext, hm⟩ := of_search h
  rw [List.append_nil] at hm
  exact ⟨here, htext, List.mem_of_head? hm⟩

theorem rest_of_stop {rs : List Regex} (h : m ∈ run (all (rs ++ [.stop])) before text) :
    m.rest = [] := by
  induction rs generalizing before text m with
  | nil =>
      obtain ⟨m₁, h₁, m₂, h₂, rfl⟩ := mem_run_all_cons.mp h
      obtain ⟨rfl, rfl⟩ := mem_run_stop.mp h₁
      rw [mem_run_all_nil.mp h₂]
      rfl
  | cons r rs ih =>
      obtain ⟨m₁, -, m₂, h₂, rfl⟩ := mem_run_all_cons.mp h
      have hrest := ih h₂
      exact hrest

/-- **A pattern between `^` and `$` matches the text as a whole or not at all.** -/
theorem of_exec_whole {rs : List Regex}
    (h : (all (.start :: (rs ++ [.stop]))).exec text = some (skipped, m)) :
    m.used = text ∧ m ∈ run (all (rs ++ [.stop])) [] text := by
  obtain ⟨here, rfl, hm⟩ := of_exec h
  obtain ⟨m₁, h₁, m₂, h₂, rfl⟩ := mem_run_all_cons.mp hm
  obtain ⟨hbefore, rfl⟩ := mem_run_start.mp h₁
  obtain rfl : skipped = [] := List.reverse_eq_nil_iff.mp hbefore
  have hsplit := used_append_rest h₂
  rw [rest_of_stop h₂, List.append_nil] at hsplit
  exact ⟨hsplit, h₂⟩

theorem exec_whole_eq_none {rs : List Regex} {c : Char}
    (havoids : (all (rs ++ [.stop])).avoids c = true) (hc : c ∈ text) :
    (all (.start :: (rs ++ [.stop]))).exec text = none := by
  cases h : (all (.start :: (rs ++ [.stop]))).exec text with
  | none => rfl
  | some found =>
      obtain ⟨hused, hm⟩ := of_exec_whole (show _ = some (found.1, found.2) from h)
      rw [← hused] at hc
      exact absurd hc (not_mem_used havoids hm)

theorem search_append
    (hnone : ∀ a b, skipped = a ++ b → b ≠ [] → r.run (a.reverse ++ before) (b ++ text) = [])
    (hm : (r.run (skipped.reverse ++ before) text).head? = some m) :
    r.search before (skipped ++ text) = some (skipped, m) := by
  induction skipped generalizing before with
  | nil =>
      rw [List.reverse_nil, List.nil_append] at hm
      cases text with
      | nil => simp [search, hm]
      | cons c text => simp [search, hm]
  | cons c skipped ih =>
      have hhere : r.run before (c :: (skipped ++ text)) = [] := by
        have h := hnone [] (c :: skipped) rfl (List.cons_ne_nil _ _)
        simpa using h
      have hthere : r.search (c :: before) (skipped ++ text) = some (skipped, m) := by
        refine ih (fun a b hab hb => ?_) (by simpa using hm)
        have h := hnone (c :: a) b (by rw [hab]; rfl) hb
        simpa using h
      simp [search, hhere, hthere]

end Searching

end Regex
