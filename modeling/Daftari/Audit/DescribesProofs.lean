import Daftari.Lib.LinesProofs
import Daftari.Lib.NumeralsProofs
import Daftari.Lib.RegexProofs

/-! # `describes` entries — repository, path, symbol and pin

    An entry is `[repo:]path[::symbol][#L<start>[-<end>]]@<sha>`.  The pin is the tail that a
    pattern anchored at the end finds; what is left is cut at the first `::` and at the first `:`.

    * `parse_formatPin`: **a formatted pin parses back, whatever stands before it**;
    * `parseHead_joined_iff`: the heads that parse back after their parts are put together. -/

namespace Describes

/-! ## Parsing -/

/-- `DescribesPin`. -/
structure Pin where
  start : Option Nat
  last : Option Nat
  sha : List Char
deriving DecidableEq

/-- `ParsedDescribes`. -/
@[ext] structure Parsed where
  repo : List Char
  path : List Char
  symbol : Option (List Char)
  pin : Option Pin
  malformedPin : Bool
deriving DecidableEq

/-- `[0-9a-f]`. -/
def isHex (c : Char) : Bool := c.isDigit || ('a' ≤ c && c ≤ 'f')

/-- `\d+`. -/
def numberRe : Regex := .many false 1 none Char.isDigit

def pinSuffix : Regex :=
  .all [.opt (.all [.text ['#', 'L'], .group 1 numberRe,
      .opt (.all [.text ['-'], .group 2 numberRe])]),
    .text ['@'], .group 3 (.many false 7 (some 40) isHex), .stop]

/-- The repository, the path and the symbol of what stands before the pin. -/
def parseHead (head sourceRepo : List Char) : Parsed :=
  let symbolIdx := Lines.indexOf [':', ':'] head
  let symbol := symbolIdx.bind fun i =>
    let rest := Text.trim (head.drop (i + 2))
    if rest = [] then none else some rest
  let bindingHead := symbolIdx.elim head fun i => head.take i
  match Lines.indexOf [':'] bindingHead with
  | none => ⟨sourceRepo, Text.trim bindingHead, symbol, none, false⟩
  | some i =>
      ⟨Text.trim (bindingHead.take i), Text.trim (bindingHead.drop (i + 1)), symbol, none, false⟩

def parseDescribesEntry (entry sourceRepo : List Char) : Parsed :=
  match pinSuffix.exec entry with
  | none => parseHead entry sourceRepo
  | some (head, m) =>
      let start := (m.group 1).map Numerals.value
      let last := ((m.group 2).map Numerals.value).orElse fun _ => start
      let sha := (m.group 3).getD []
      if start.any fun s => last.any fun e => e < s then
        { parseHead head sourceRepo with malformedPin := true }
      else { parseHead head sourceRepo with pin := some ⟨start, last, sha⟩ }

def formatPin (head : List Char) (start last : Nat) (sha : List Char) : List Char :=
  head ++ ['#', 'L'] ++ Nat.toDigits 10 start ++ ['-'] ++ Nat.toDigits 10 last
    ++ ['@'] ++ sha

theorem pin_parseHead (head sourceRepo : List Char) : (parseHead head sourceRepo).pin = none := by
  unfold parseHead
  dsimp only
  split <;> rfl

theorem parse_of_pin {entry sourceRepo : List Char} {pin : Pin}
    (h : (parseDescribesEntry entry sourceRepo).pin = some pin) :
    (∃ head, parseDescribesEntry entry sourceRepo
        = { parseHead head sourceRepo with pin := some pin })
      ∧ ∀ s ∈ pin.start, ∀ e ∈ pin.last, s ≤ e := by
  unfold parseDescribesEntry at h ⊢
  split at h
  case h_1 =>
    rw [pin_parseHead] at h
    cases h
  case h_2 head m _ =>
    dsimp only at h ⊢
    split at h
    case isTrue =>
      rw [pin_parseHead] at h
      cases h
    case isFalse hnot =>
      obtain rfl := Option.some.inj h
      rw [if_neg hnot]
      refine ⟨⟨head, rfl⟩, fun s hs e he => ?_⟩
      have hs : (m.group 1).map Numerals.value = some s := hs
      have he : (((m.group 2).map Numerals.value).orElse fun _ =>
        (m.group 1).map Numerals.value) = some e := he
      rw [he, hs] at hnot
      simpa using hnot

/-! ## A formatted pin -/

section Pins

open Regex

variable {before text : List Char} {m : Regex.Match}

theorem mem_run_number {i : Nat} : m ∈ run (.group i numberRe) before text ↔ text = m.used ++ m.rest
      ∧ (∀ c ∈ m.used, c.isDigit = true) ∧ m.used ≠ [] ∧ m.groups = [(i, m.used)] := by
  rw [mem_run_group]
  constructor
  · rintro ⟨n, hn, rfl⟩
    obtain ⟨htext, hdigits, hlen, -, hgroups⟩ := mem_run_many.mp hn
    refine ⟨htext, hdigits, ?_, ?_⟩
    · exact List.length_pos_iff.mp hlen
    · rw [hgroups]
  · rintro ⟨htext, hdigits, hne, hgroups⟩
    refine ⟨⟨m.used, m.rest, []⟩, mem_run_many.mpr ⟨htext, hdigits, ?_, ?_, rfl⟩, ?_⟩
    · exact List.length_pos_iff.mpr hne
    · exact fun h hh => absurd hh (by simp)
    · obtain ⟨used, rest, groups⟩ := m
      rw [show groups = _ from hgroups]

/-- What the tail of a pin's range may be. -/
inductive RangeOf : List Char → List (Nat × List Char) → Prop where
  | none : RangeOf [] []
  | one {d : List Char} (hd : ∀ c ∈ d, c.isDigit = true) (hne : d ≠ []) :
      RangeOf ('#' :: 'L' :: d) [(1, d)]
  | two {d d' : List Char} (hd : ∀ c ∈ d, c.isDigit = true) (hne : d ≠ [])
      (hd' : ∀ c ∈ d', c.isDigit = true) (hne' : d' ≠ []) :
      RangeOf ('#' :: 'L' :: d ++ '-' :: d') [(1, d), (2, d')]

theorem mem_run_range : m ∈ run (.opt (.all [.text ['#', 'L'], .group 1 numberRe,
        .opt (.all [.text ['-'], .group 2 numberRe])])) before text
      ↔ RangeOf m.used m.groups ∧ text = m.used ++ m.rest := by
  constructor
  · intro h
    refine ⟨?_, (used_append_rest h).symm⟩
    rcases mem_run_opt.mp h with h | rfl
    · obtain ⟨mark, hmark, m₁, h₁, rfl⟩ := mem_run_all_cons.mp h
      obtain ⟨first, hfirst, m₂, h₂, rfl⟩ := mem_run_all_cons.mp h₁
      obtain ⟨last, hlast, m₃, h₃, rfl⟩ := mem_run_all_cons.mp h₂
      obtain rfl := mem_run_all_nil.mp h₃
      obtain ⟨-, hused, hgroups⟩ := mem_run_text.mp hmark
      obtain ⟨-, hd, hne, hgroups₁⟩ := mem_run_number.mp hfirst
      rcases mem_run_opt.mp hlast with hlast | rfl
      · obtain ⟨dash, hdash, m₄, h₄, rfl⟩ := mem_run_all_cons.mp hlast
        obtain ⟨second, hsecond, m₅, h₅, rfl⟩ := mem_run_all_cons.mp h₄
        obtain rfl := mem_run_all_nil.mp h₅
        obtain ⟨-, hused₂, hgroups₂⟩ := mem_run_text.mp hdash
        obtain ⟨-, hd', hne', hgroups₃⟩ := mem_run_number.mp hsecond
        simp only [Match.andThen, hused, hgroups, hgroups₁, hused₂, hgroups₂, hgroups₃,
          List.nil_append, List.append_nil]
        have htwo := RangeOf.two hd hne hd' hne'
        simpa using htwo
      · simp only [Match.andThen, hused, hgroups, hgroups₁, List.nil_append, List.append_nil]
        exact RangeOf.one hd hne
    · exact .none
  · obtain ⟨used, rest, groups⟩ := m
    rintro ⟨hrange, rfl⟩
    refine mem_run_opt.mpr ?_
    cases hrange with
    | none => exact Or.inr rfl
    | @one d hd hne =>
        refine Or.inl (mem_run_all_cons.mpr ⟨⟨['#', 'L'], d ++ rest, []⟩,
          mem_run_text.mpr ⟨rfl, rfl, rfl⟩, ⟨d, rest, [(1, d)]⟩, ?_, rfl⟩)
        refine mem_run_all_cons.mpr ⟨⟨d, rest, [(1, d)]⟩, mem_run_number.mpr ⟨rfl, hd, hne, rfl⟩,
          ⟨[], rest, []⟩, ?_, by simp [Match.andThen]⟩
        exact mem_run_all_cons.mpr ⟨⟨[], rest, []⟩, mem_run_opt.mpr (Or.inr rfl),
          ⟨[], rest, []⟩, mem_run_all_nil.mpr rfl, rfl⟩
    | @two d d' hd hne hd' hne' =>
        refine Or.inl (mem_run_all_cons.mpr ⟨⟨['#', 'L'], d ++ '-' :: (d' ++ rest), []⟩,
          mem_run_text.mpr ⟨by simp, rfl, rfl⟩, ⟨d ++ '-' :: d', rest, [(1, d), (2, d')]⟩, ?_, rfl⟩)
        refine mem_run_all_cons.mpr ⟨⟨d, '-' :: (d' ++ rest), [(1, d)]⟩,
          mem_run_number.mpr ⟨rfl, hd, hne, rfl⟩, ⟨'-' :: d', rest, [(2, d')]⟩, ?_,
          by simp [Match.andThen]⟩
        refine mem_run_all_cons.mpr ⟨⟨'-' :: d', rest, [(2, d')]⟩, mem_run_opt.mpr (Or.inl ?_),
          ⟨[], rest, []⟩, mem_run_all_nil.mpr rfl, by simp [Match.andThen]⟩
        refine mem_run_all_cons.mpr ⟨⟨['-'], d' ++ rest, []⟩,
          mem_run_text.mpr ⟨rfl, rfl, rfl⟩, ⟨d', rest, [(2, d')]⟩, ?_, rfl⟩
        exact mem_run_all_cons.mpr ⟨⟨d', rest, [(2, d')]⟩, mem_run_number.mpr ⟨rfl, hd', hne', rfl⟩,
          ⟨[], rest, []⟩, mem_run_all_nil.mpr rfl, by simp [Match.andThen]⟩

/-- **What the pattern of a pin matches**: a range, the mark and a hash, up to the end. -/
theorem mem_run_pinSuffix : m ∈ pinSuffix.run before text ↔ ∃ range groups sha, RangeOf range groups
      ∧ (∀ c ∈ sha, isHex c = true) ∧ 7 ≤ sha.length ∧ sha.length ≤ 40
      ∧ text = range ++ '@' :: sha ∧ m = ⟨text, [], groups ++ [(3, sha)]⟩ := by
  constructor
  · intro h
    obtain ⟨range, hrange, m₁, h₁, rfl⟩ := mem_run_all_cons.mp h
    obtain ⟨mark, hmark, m₂, h₂, rfl⟩ := mem_run_all_cons.mp h₁
    obtain ⟨sha, hsha, m₃, h₃, rfl⟩ := mem_run_all_cons.mp h₂
    obtain ⟨stop, hstop, m₄, h₄, rfl⟩ := mem_run_all_cons.mp h₃
    obtain ⟨hrest, rfl⟩ := mem_run_stop.mp hstop
    obtain rfl := mem_run_all_nil.mp h₄
    obtain ⟨hof, rfl⟩ := mem_run_range.mp hrange
    obtain ⟨htext, hused, hgroups⟩ := mem_run_text.mp hmark
    obtain ⟨n, hn, rfl⟩ := mem_run_group.mp hsha
    obtain ⟨htext', hhex, hlo, hhi, hnone⟩ := mem_run_many.mp hn
    rw [hrest, List.append_nil] at htext'
    refine ⟨range.used, range.groups, n.used, hof, hhex, hlo, hhi 40 rfl, ?_, ?_⟩
    · rw [htext, htext']
      rfl
    · simp [Match.andThen, htext, htext', hused, hgroups, hnone, hrest]
  · rintro ⟨range, groups, sha, hrange, hhex, hlo, hhi, rfl, rfl⟩
    refine mem_run_all_cons.mpr ⟨⟨range, '@' :: sha, groups⟩, mem_run_range.mpr ⟨hrange, rfl⟩,
      ⟨'@' :: sha, [], [(3, sha)]⟩, ?_, rfl⟩
    refine mem_run_all_cons.mpr ⟨⟨['@'], sha, []⟩, mem_run_text.mpr ⟨rfl, rfl, rfl⟩,
      ⟨sha, [], [(3, sha)]⟩, ?_, rfl⟩
    refine mem_run_all_cons.mpr ⟨⟨sha, [], [(3, sha)]⟩, mem_run_group.mpr ⟨⟨sha, [], []⟩,
      mem_run_many.mpr ⟨by simp, hhex, hlo, fun h hh => ?_, rfl⟩, rfl⟩, ⟨[], [], []⟩, ?_,
      by simp [Match.andThen]⟩
    · obtain rfl := Option.some.inj hh
      exact hhi
    · exact mem_run_all_cons.mpr ⟨⟨[], [], []⟩, mem_run_stop.mpr ⟨rfl, rfl⟩, ⟨[], [], []⟩,
        mem_run_all_nil.mpr rfl, rfl⟩

theorem eq_of_last_mark {a : Char} {u v s t : List Char} (h : u ++ a :: s = v ++ a :: t)
    (hs : a ∉ s) (ht : a ∉ t) : u = v ∧ s = t := by
  rcases List.append_eq_append_iff.mp h with ⟨w, rfl, hw⟩ | ⟨w, rfl, hw⟩
  · cases w with
    | nil => exact ⟨(List.append_nil u).symm, (List.cons.inj hw).2⟩
    | cons c w =>
        refine absurd ?_ hs
        rw [(List.cons.inj hw).2]
        exact List.mem_append_right _ List.mem_cons_self
  · cases w with
    | nil => exact ⟨List.append_nil v, (List.cons.inj hw).2.symm⟩
    | cons c w =>
        refine absurd ?_ ht
        rw [(List.cons.inj hw).2]
        exact List.mem_append_right _ List.mem_cons_self

theorem not_mem_digits {c : Char} (hc : c.isDigit = false) {d : List Char}
    (hd : ∀ x ∈ d, x.isDigit = true) : c ∉ d := by
  intro hmem
  rw [hd c hmem] at hc
  cases hc

theorem at_not_mem_hex {s : List Char} (hs : ∀ c ∈ s, isHex c = true) : '@' ∉ s :=
  fun hmem => absurd (hs _ hmem) (by decide)

theorem RangeOf.front {range : List Char} {groups : List (Nat × List Char)}
    (h : RangeOf range groups) : ∀ x y, range = x ++ '#' :: y → x = [] := by
  have hcut : ∀ t : List Char, '#' ∉ t → ∀ x y, '#' :: t = x ++ '#' :: y → x = [] := by
    intro t ht x y hxy
    cases x with
    | nil => rfl
    | cons c x =>
        refine absurd ?_ ht
        rw [(List.cons.inj hxy).2]
        exact List.mem_append_right _ List.mem_cons_self
  intro x y hxy
  cases h with
  | none => exact (List.append_eq_nil_iff.mp hxy.symm).1
  | one hd hne =>
      refine hcut _ ?_ x y hxy
      have hnot := not_mem_digits (c := '#') rfl hd
      simpa using hnot
  | two hd hne hd' hne' =>
      refine hcut _ ?_ x y hxy
      have hnot := not_mem_digits (c := '#') rfl hd
      have hnot' := not_mem_digits (c := '#') rfl hd'
      simp [hnot, hnot']

theorem RangeOf.groups_eq {d d' : List Char} {groups : List (Nat × List Char)}
    (hd : ∀ c ∈ d, c.isDigit = true) (hd' : ∀ c ∈ d', c.isDigit = true)
    (h : RangeOf ('#' :: 'L' :: d ++ '-' :: d') groups) : groups = [(1, d), (2, d')] := by
  generalize hrange : '#' :: 'L' :: d ++ '-' :: d' = range at h
  have hdash := not_mem_digits (c := '-') rfl hd
  cases h with
  | none => cases hrange
  | one he hne =>
      have htail := (List.cons.inj (List.cons.inj hrange).2).2
      refine absurd ?_ (not_mem_digits (c := '-') rfl he)
      rw [← htail]
      exact List.mem_append_right _ List.mem_cons_self
  | two he hne he' hne' =>
      have htail := (List.cons.inj (List.cons.inj hrange).2).2
      obtain ⟨rfl, -, rfl⟩ := (List.append_cons_inj_of_notMem hdash
        (not_mem_digits (c := '-') rfl hd')).mp htail
      rfl

/-- **The pattern finds a formatted pin, whatever stands before it.** -/
theorem exec_formatPin (head : List Char) (start last : Nat) {sha : List Char}
    (hhex : ∀ c ∈ sha, isHex c = true) (hlo : 7 ≤ sha.length) (hhi : sha.length ≤ 40) :
    ∃ m, pinSuffix.exec (formatPin head start last sha) = some (head, m)
      ∧ m.groups = [(1, Nat.toDigits 10 start), (2, Nat.toDigits 10 last), (3, sha)] := by
  have hd : ∀ n, ∀ c ∈ Nat.toDigits 10 n, c.isDigit = true :=
    fun n c hc => Nat.isDigit_of_mem_toDigits (by omega) (by omega) hc
  have hne : ∀ n, Nat.toDigits 10 n ≠ [] := fun n => Nat.toDigits_ne_nil
  generalize hrange : '#' :: 'L' :: Nat.toDigits 10 start ++ '-' :: Nat.toDigits 10 last = range
  have htext : formatPin head start last sha = head ++ (range ++ '@' :: sha) := by
    rw [← hrange]
    simp [formatPin]
  have hof : RangeOf range [(1, Nat.toDigits 10 start), (2, Nat.toDigits 10 last)] := by
    rw [← hrange]
    exact .two (hd start) (hne start) (hd last) (hne last)
  refine ⟨⟨range ++ '@' :: sha, [], _⟩, ?_, rfl⟩
  rw [htext]
  refine search_append (fun x y _ hy => List.eq_nil_iff_forall_not_mem.mpr fun m hm => ?_) ?_
  · -- earlier no range begins
    obtain ⟨range', groups', sha', hof', hhex', -, -, htext', -⟩ := mem_run_pinSuffix.mp hm
    rw [← List.append_assoc] at htext'
    obtain ⟨hsame, -⟩ := eq_of_last_mark htext' (at_not_mem_hex hhex) (at_not_mem_hex hhex')
    rw [← hrange] at hsame
    exact hy (hof'.front y _ hsame.symm)
  · -- here every match is the same
    have hmem : (⟨range ++ '@' :: sha, [], [(1, Nat.toDigits 10 start), (2, Nat.toDigits 10 last),
        (3, sha)]⟩ : Match) ∈ pinSuffix.run (head.reverse ++ []) (range ++ '@' :: sha) :=
      mem_run_pinSuffix.mpr ⟨range, _, sha, hof, hhex, hlo, hhi, rfl, rfl⟩
    cases hrun : pinSuffix.run (head.reverse ++ []) (range ++ '@' :: sha) with
    | nil =>
        rw [hrun] at hmem
        cases hmem
    | cons m ms =>
        have hm : m ∈ pinSuffix.run (head.reverse ++ []) (range ++ '@' :: sha) := by
          rw [hrun]
          exact List.mem_cons_self
        obtain ⟨range', groups', sha', hof', hhex', -, -, htext', rfl⟩ := mem_run_pinSuffix.mp hm
        obtain ⟨rfl, rfl⟩ := eq_of_last_mark htext' (at_not_mem_hex hhex) (at_not_mem_hex hhex')
        rw [← hrange] at hof'
        rw [hof'.groups_eq (hd start) (hd last)]
        rfl

end Pins

/-- **A formatted pin parses back.** -/
theorem parse_formatPin (head sourceRepo : List Char) {start last : Nat} (hle : start ≤ last)
    {sha : List Char} (hhex : ∀ c ∈ sha, isHex c = true) (hlo : 7 ≤ sha.length)
    (hhi : sha.length ≤ 40) : parseDescribesEntry (formatPin head start last sha) sourceRepo
      = { parseHead head sourceRepo with pin := some ⟨some start, some last, sha⟩ } := by
  obtain ⟨m, hexec, hgroups⟩ := exec_formatPin head start last hhex hlo hhi
  have hvalue : ∀ n, Numerals.value (Nat.toDigits 10 n) = n :=
    fun n => Nat.ofDigitChars_toDigits (by omega) (by omega)
  have h₁ : m.group 1 = some (Nat.toDigits 10 start) := by rw [Regex.Match.group, hgroups]; rfl
  have h₂ : m.group 2 = some (Nat.toDigits 10 last) := by rw [Regex.Match.group, hgroups]; rfl
  have h₃ : m.group 3 = some sha := by rw [Regex.Match.group, hgroups]; rfl
  unfold parseDescribesEntry
  rw [hexec]
  simp only [h₁, h₂, h₃, Option.map_some, hvalue, Option.orElse_some, Option.any_some,
    Option.getD_some]
  rw [if_neg (by simpa using hle)]

/-! ## Heads put together again -/

/-- The part of a head before the symbol. -/
def Parsed.binding (p : Parsed) : List Char :=
  (if p.repo = [] then [] else p.repo ++ [':']) ++ p.path

/-- The head that the parts make: `[repo:]path[::symbol]`. -/
def Parsed.joined (p : Parsed) : List Char :=
  p.binding ++ p.symbol.elim [] fun s => if s = [] then [] else ':' :: ':' :: s

/-- The cuts of the head are where they were: no `::` before the symbol, not even
    across its start, and no colon in a path without a repository. -/
structure SpellsBack (p : Parsed) : Prop where
  plain : ¬ [':', ':'] <:+: p.binding
  apart : p.symbol ≠ none → p.binding.getLast? ≠ some ':'
  bare : p.repo = [] → ':' ∉ p.path

instance (p : Parsed) : Decidable (SpellsBack p) :=
  decidable_of_iff (¬ [':', ':'] <:+: p.binding
      ∧ (p.symbol ≠ none → p.binding.getLast? ≠ some ':') ∧ (p.repo = [] → ':' ∉ p.path))
    ⟨fun ⟨h₁, h₂, h₃⟩ => ⟨h₁, h₂, h₃⟩, fun ⟨h₁, h₂, h₃⟩ => ⟨h₁, h₂, h₃⟩⟩

theorem trim_sublist (s : List Char) : (Text.trim s).Sublist s :=
  (List.rdropWhile_prefix _ _).sublist.trans (List.dropWhile_sublist _)

/-- What a head is cut into before the repository is read. -/
def bindingHead (head : List Char) : List Char :=
  (Lines.indexOf [':', ':'] head).elim head fun i => head.take i

structure Parts (p : Parsed) : Prop where
  repo : Text.trim p.repo = p.repo
  path : Text.trim p.path = p.path
  symbol : ∀ s ∈ p.symbol, Text.trim s = s ∧ s ≠ []
  colon : ':' ∉ p.repo
  pin : p.pin = none
  wellFormed : p.malformedPin = false

theorem not_mem_take_indexOf {head : List Char} {i : Nat} {c : Char}
    (h : Lines.indexOf [c] head = some i) : c ∉ head.take i := by
  obtain ⟨-, -, hfirst⟩ := Lines.indexOf_eq_some h
  intro hmem
  obtain ⟨j, hj, rfl⟩ := List.mem_iff_getElem.mp hmem
  rw [List.length_take] at hj
  refine hfirst j (by omega) ?_
  rw [List.getElem_take, List.drop_eq_getElem_cons (by omega)]
  exact ⟨_, rfl⟩

theorem symbol_parseHead (head sourceRepo : List Char) :
    (parseHead head sourceRepo).symbol = (Lines.indexOf [':', ':'] head).bind fun i =>
      if Text.trim (head.drop (i + 2)) = [] then none
      else some (Text.trim (head.drop (i + 2))) := by
  unfold parseHead
  dsimp only
  split <;> rfl

theorem parts_parseHead (head : List Char) : Parts (parseHead head []) := by
  have hsymbol : ∀ s ∈ (parseHead head []).symbol, Text.trim s = s ∧ s ≠ [] := by
    intro s hs
    have hs := (symbol_parseHead head []).symm.trans hs
    obtain ⟨i, -, hi⟩ := Option.bind_eq_some_iff.mp hs
    split at hi
    case isTrue => cases hi
    case isFalse hne =>
      cases hi
      exact ⟨Text.trim_trim _, hne⟩
  unfold parseHead at hsymbol ⊢
  dsimp only at hsymbol ⊢
  split
  case h_1 hcolon =>
    rw [hcolon] at hsymbol
    exact ⟨rfl, Text.trim_trim _, hsymbol, List.not_mem_nil, rfl, rfl⟩
  case h_2 i hcolon =>
    rw [hcolon] at hsymbol
    refine ⟨Text.trim_trim _, Text.trim_trim _, hsymbol, fun hmem => ?_, rfl, rfl⟩
    exact not_mem_take_indexOf hcolon ((trim_sublist _).subset hmem)

theorem parseHead_cases (head : List Char) :
    (Lines.indexOf [':'] (bindingHead head) = none ∧ (parseHead head []).repo = []
        ∧ (parseHead head []).path = Text.trim (bindingHead head))
      ∨ ∃ i, Lines.indexOf [':'] (bindingHead head) = some i
        ∧ (parseHead head []).repo = Text.trim ((bindingHead head).take i)
        ∧ (parseHead head []).path = Text.trim ((bindingHead head).drop (i + 1)) := by
  unfold parseHead bindingHead
  dsimp only
  split
  case h_1 h => exact Or.inl ⟨h, rfl, rfl⟩
  case h_2 i h => exact Or.inr ⟨i, h, rfl, rfl⟩

/-- Trimming and cutting lengthen nothing, and without a repository they leave a colon
    only where they shorten. -/
theorem length_binding (head : List Char) :
    (parseHead head []).binding.length ≤ (bindingHead head).length
      ∧ ((parseHead head []).binding.length = (bindingHead head).length →
        (parseHead head []).repo = [] → ':' ∉ (parseHead head []).path) := by
  unfold Parsed.binding
  rcases parseHead_cases head with ⟨hcolon, hrepo, hpath⟩ | ⟨i, hcolon, hrepo, hpath⟩
  · rw [hrepo, hpath, if_pos rfl, List.nil_append]
    refine ⟨(trim_sublist _).length_le, fun _ _ hmem => ?_⟩
    refine Lines.indexOf_eq_none.mp hcolon ?_
    obtain ⟨a, b, hab⟩ := List.append_of_mem ((trim_sublist _).subset hmem)
    exact ⟨a, b, by rw [hab, List.append_assoc]; rfl⟩
  · obtain ⟨⟨rest, hrest⟩, -, -⟩ := Lines.indexOf_eq_some hcolon
    have hlt : i < (bindingHead head).length := by
      have hlen := congrArg List.length hrest
      simp at hlen
      omega
    have hpath' : (parseHead head []).path.length ≤ (bindingHead head).length - (i + 1) := by
      rw [hpath, ← List.length_drop]
      exact (trim_sublist _).length_le
    have hrepo' : (parseHead head []).repo.length ≤ i := by
      rw [hrepo]
      refine (trim_sublist _).length_le.trans ?_
      rw [List.length_take]
      exact Nat.min_le_left _ _
    by_cases hempty : (parseHead head []).repo = []
    · rw [if_pos hempty, List.nil_append]
      exact ⟨by omega, fun heq => absurd heq (by omega)⟩
    · rw [if_neg hempty, List.length_append, List.length_append, List.length_singleton]
      exact ⟨by omega, fun _ hnil => absurd hnil hempty⟩

section Joined

variable {p : Parsed}

theorem joined_of_none (h : p.symbol = none) : p.joined = p.binding := by
  unfold Parsed.joined
  rw [h]
  exact List.append_nil _

theorem joined_of_some {s : List Char} (h : p.symbol = some s) (hne : s ≠ []) :
    p.joined = p.binding ++ [':', ':'] ++ s := by
  unfold Parsed.joined
  rw [h, Option.elim_some, if_neg hne, List.append_assoc]
  rfl

/-- **The parts of a head that parses back spell the same cuts.** -/
theorem SpellsBack.of_parse (hparts : Parts p) (hback : parseHead p.joined [] = p) :
    SpellsBack p := by
  have hlen := length_binding p.joined
  have hsymbol := symbol_parseHead p.joined []
  rw [hback] at hlen hsymbol
  cases hk : Lines.indexOf [':', ':'] p.joined with
  | none =>
      rw [hk] at hsymbol
      have hjoined := joined_of_none hsymbol
      have hhead : bindingHead p.joined = p.binding := by
        rw [bindingHead, hk, Option.elim_none, hjoined]
      rw [hjoined] at hk
      exact ⟨Lines.indexOf_eq_none.mp hk, fun h => absurd hsymbol h, hlen.2 (by rw [hhead])⟩
  | some k =>
      have hhead : bindingHead p.joined = p.joined.take k := by
        rw [bindingHead, hk, Option.elim_some]
      obtain ⟨hat, hle, hfirst⟩ := Lines.indexOf_eq_some hk
      rw [hhead, List.length_take] at hlen
      have hbound := hat.length_le
      rw [List.length_drop] at hbound
      have hbound : 2 ≤ p.joined.length - k := hbound
      cases hs : p.symbol with
      | none =>
          -- the cut would have shortened the head
          have hlen₁ := hlen.1
          rw [joined_of_none hs] at hlen₁ hbound
          omega
      | some s =>
          obtain ⟨-, hne⟩ := hparts.symbol s hs
          have hjoined := joined_of_some hs hne
          have hcut : s.length ≤ p.joined.length - (k + 2) := by
            rw [hk, hs, Option.bind_some] at hsymbol
            split at hsymbol
            case isTrue => cases hsymbol
            case isFalse =>
              rw [Option.some.inj hsymbol, ← List.length_drop]
              exact (trim_sublist _).length_le
          have htotal : p.joined.length = p.binding.length + 2 + s.length := by
            rw [hjoined, List.length_append, List.length_append]
            rfl
          have hk' : k = p.binding.length := by omega
          subst hk'
          have hdrop : ∀ a b, p.binding = a ++ b →
              p.joined.drop a.length = b ++ [':', ':'] ++ s := by
            intro a b hab
            rw [hjoined, hab, List.append_assoc, List.append_assoc, List.drop_left,
              List.append_assoc]
          refine ⟨?_, ?_, hlen.2 (by omega)⟩
          · rintro ⟨a, b, hab⟩
            rw [List.append_assoc] at hab
            refine hfirst a.length ?_ ?_
            · rw [← hab, List.length_append]
              simp
            · rw [hdrop a _ hab.symm, List.append_assoc, List.append_assoc]
              exact List.prefix_append _ _
          · intro _ hlast
            obtain ⟨a, ha⟩ := List.getLast?_eq_some_iff.mp hlast
            refine hfirst a.length ?_ ?_
            · rw [ha, List.length_append]
              simp
            · rw [hdrop a _ ha]
              exact ⟨':' :: s, rfl⟩

/-- **Parts that spell the same cuts parse back.** -/
theorem SpellsBack.parse (hparts : Parts p) (h : SpellsBack p) : parseHead p.joined [] = p := by
  have hindex : Lines.indexOf [':', ':'] p.joined = p.symbol.map fun _ => p.binding.length := by
    cases hs : p.symbol with
    | none =>
        rw [joined_of_none hs]
        exact Lines.indexOf_eq_none.mpr h.plain
    | some s =>
        rw [joined_of_some hs (hparts.symbol s hs).2]
        refine Lines.indexOf_append fun j hj hpre => ?_
        have hb : p.binding = p.binding.take j ++ p.binding.drop j :=
          (List.take_append_drop _ _).symm
        rw [List.append_assoc, List.drop_append_of_le_length (Nat.le_of_lt hj)] at hpre
        cases hrest : p.binding.drop j with
        | nil =>
            have hlen := congrArg List.length hrest
            rw [List.length_drop, List.length_nil] at hlen
            omega
        | cons c tail =>
            rw [hrest] at hpre
            obtain ⟨hc, htail⟩ := List.cons_prefix_cons.mp hpre
            subst hc
            cases tail with
            | nil =>
                refine h.apart (by rw [hs]; exact Option.some_ne_none _) ?_
                rw [hb, hrest, List.getLast?_concat]
            | cons d rest =>
                obtain ⟨rfl, -⟩ := List.cons_prefix_cons.mp htail
                rw [hrest] at hb
                refine h.plain ⟨p.binding.take j, rest, ?_⟩
                rw [List.append_assoc]
                exact hb.symm
  have hhead : bindingHead p.joined = p.binding := by
    rw [bindingHead, hindex]
    cases hs : p.symbol with
    | none => rw [Option.map_none, Option.elim_none, joined_of_none hs]
    | some s =>
        rw [Option.map_some, Option.elim_some, joined_of_some hs (hparts.symbol s hs).2,
          List.append_assoc, List.take_left]
  have hsymbol : (parseHead p.joined []).symbol = p.symbol := by
    rw [symbol_parseHead, hindex]
    cases hs : p.symbol with
    | none => rfl
    | some s =>
        obtain ⟨htrim, hne⟩ := hparts.symbol s hs
        have hdrop : p.joined.drop (p.binding.length + 2) = s := by
          rw [joined_of_some hs hne]
          exact List.drop_left' (by simp)
        rw [Option.map_some, Option.bind_some, hdrop, htrim, if_neg hne]
  have hbinding : (parseHead p.joined []).repo = p.repo
      ∧ (parseHead p.joined []).path = p.path := by
    by_cases hrepo : p.repo = []
    · have hpath : p.binding = p.path := by
        rw [Parsed.binding, if_pos hrepo, List.nil_append]
      rcases parseHead_cases p.joined with ⟨-, h₁, h₂⟩ | ⟨i, hi, -, -⟩
      · rw [h₁, h₂, hhead, hpath, hparts.path, hrepo]
        exact ⟨rfl, rfl⟩
      · rw [hhead, hpath] at hi
        obtain ⟨hat, -, -⟩ := Lines.indexOf_eq_some hi
        exact absurd (List.mem_of_mem_drop (hat.subset (List.mem_singleton_self _))) (h.bare hrepo)
    · have hsplit : p.binding = p.repo ++ [':'] ++ p.path := by
        rw [Parsed.binding, if_neg hrepo]
      have hcolon : Lines.indexOf [':'] p.binding = some p.repo.length := by
        rw [hsplit]
        refine Lines.indexOf_append fun j hj hpre => hparts.colon ?_
        rw [List.append_assoc, List.drop_append_of_le_length (Nat.le_of_lt hj),
          List.drop_eq_getElem_cons hj] at hpre
        rw [(List.cons_prefix_cons.mp hpre).1]
        exact List.getElem_mem hj
      rcases parseHead_cases p.joined with ⟨hi, -, -⟩ | ⟨i, hi, h₁, h₂⟩
      · rw [hhead, hcolon] at hi
        cases hi
      · rw [hhead, hcolon] at hi
        obtain rfl := Option.some.inj hi
        have htake : p.binding.take p.repo.length = p.repo := by
          rw [hsplit, List.append_assoc, List.take_left]
        have hdrop : p.binding.drop (p.repo.length + 1) = p.path := by
          rw [hsplit]
          exact List.drop_left' (by simp)
        rw [h₁, h₂, hhead, htake, hdrop, hparts.repo, hparts.path]
        exact ⟨rfl, rfl⟩
  have hback := parts_parseHead p.joined
  refine Parsed.ext hbinding.1 hbinding.2 hsymbol ?_ ?_
  · rw [hback.pin, hparts.pin]
  · rw [hback.wellFormed, hparts.wellFormed]

end Joined

theorem parseHead_joined_iff (head : List Char) :
    parseHead (parseHead head []).joined [] = parseHead head [] ↔ SpellsBack (parseHead head []) :=
  ⟨SpellsBack.of_parse (parts_parseHead head), SpellsBack.parse (parts_parseHead head)⟩

end Describes
