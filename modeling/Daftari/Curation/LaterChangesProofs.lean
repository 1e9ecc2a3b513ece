import Daftari.Curation.CertificatesProofs
import Daftari.Lib.NumeralsProofs

/-! # Later changes — instants in two precisions, compared as texts

    The log is stamped to the millisecond, the edge store to the second, and what an artifact's
    upstream has changed since a baseline is found by comparing the texts.  A point comes before a
    `Z`, so a stamp of a second comes after those of its milliseconds.

    * `Instant`, `NamesMilli`, `NamesSecond`: the two spellings of an instant;
    * `lt_milli_iff`, `lt_second_iff`: how they compare;
    * `later_change_counted_iff`: **every later change is counted, however the baseline and a lower
      one are spelled, exactly if those of the baseline's own second are repeated later.** -/

namespace Staleness

open Numerals (Digits value)

/-! ## Stamps -/

/-- The digits of a date and time: year, month, day, hour, minute, second. -/
structure Fields where
  year : List Char
  month : List Char
  day : List Char
  hour : List Char
  minute : List Char
  second : List Char

/-- All in digits, of the length they have in a stamp. -/
def Fields.Ok (f : Fields) : Prop :=
  (Digits f.year ∧ Digits f.month ∧ Digits f.day ∧ Digits f.hour ∧ Digits f.minute ∧
    Digits f.second) ∧
  f.year.length = 4 ∧ f.month.length = 2 ∧ f.day.length = 2 ∧ f.hour.length = 2 ∧
    f.minute.length = 2 ∧ f.second.length = 2

/-- `YYYY-MM-DDTHH:MM:SS`. -/
def Fields.text (f : Fields) : List Char :=
  f.year ++ (['-'] ++ (f.month ++ (['-'] ++ (f.day ++ (['T'] ++ (f.hour ++ ([':'] ++ (f.minute ++
    ([':'] ++ f.second)))))))))

/-- The digits in their order, as one number. -/
def Fields.number (f : Fields) : Nat :=
  value (f.year ++ (f.month ++ (f.day ++ (f.hour ++ (f.minute ++ f.second)))))

def instant (second milli : Nat) : Nat := second * 1000 + milli

/-- `toISOString`. -/
def NamesMilli (ts : String) (t : Nat) : Prop :=
  ∃ (f : Fields) (milli : List Char), f.Ok ∧ Digits milli ∧ milli.length = 3 ∧
    ts = String.ofList (f.text ++ ('.' :: milli ++ ['Z'])) ∧ t = instant f.number (value milli)

/-- `toSecondISO`. -/
def NamesSecond (ts : String) (t : Nat) : Prop :=
  ∃ f : Fields, f.Ok ∧ ts = String.ofList (f.text ++ ['Z']) ∧ t = instant f.number 0

/-- A baseline is spelled in either way. -/
def NamesBaseline (ts : String) (t : Nat) : Prop := NamesMilli ts t ∨ NamesSecond ts t

theorem Fields.plain {f : Fields} (h : f.Ok) : ∀ c ∈ f.text, c.toNat < 0x10000 := by
  obtain ⟨⟨hy, hmo, hd, hh, hmi, hs⟩, -⟩ := h
  have hdigits : ∀ {s : List Char}, Digits s → ∀ c ∈ s, c.toNat < 0x10000 := fun hs c hc => by
    have hdigit := (Numerals.toNat_of_isDigit (hs c hc)).2
    exact lt_trans hdigit (by decide)
  have hmark : ∀ {d : Char}, d.toNat < 0x10000 → ∀ c ∈ [d], c.toNat < 0x10000 :=
    fun hd => List.forall_mem_singleton.mpr hd
  simp only [Fields.text, List.forall_mem_append]
  exact ⟨hdigits hy, hmark (by decide), hdigits hmo, hmark (by decide), hdigits hd,
    hmark (by decide), hdigits hh, hmark (by decide), hdigits hmi, hmark (by decide), hdigits hs⟩

theorem Fields.length_text {f : Fields} (h : f.Ok) : f.text.length = 19 := by
  obtain ⟨-, hy, hmo, hd, hh, hmi, hs⟩ := h
  simp only [Fields.text, List.length_append, List.length_singleton, hy, hmo, hd, hh, hmi, hs]

theorem Fields.text_lt_iff {f g : Fields} (hf : f.Ok) (hg : g.Ok) :
    f.text.map Char.toNat < g.text.map Char.toNat ↔ f.number < g.number := by
  obtain ⟨⟨hy, hmo, hd, hh, hmi, hs⟩, ly, lmo, ld, lh, lmi, ls⟩ := hf
  obtain ⟨⟨hy', hmo', hd', hh', hmi', hs'⟩, ly', lmo', ld', lh', lmi', ls'⟩ := hg
  have happend : ∀ {a b : List Char}, Digits a → Digits b → Digits (a ++ b) := fun ha hb c hc =>
    (List.mem_append.mp hc).elim (ha c) (hb c)
  rw [Fields.number, Fields.number, ← Numerals.map_lt_iff
    (happend hy (happend hmo (happend hd (happend hh (happend hmi hs)))))
    (happend hy' (happend hmo' (happend hd' (happend hh' (happend hmi' hs')))))
    (by simp only [List.length_append, *])]
  have hmark : ∀ {c : Char} {a b u v : List Nat}, (a < b ↔ u < v) →
      ([c].map Char.toNat ++ a < [c].map Char.toNat ++ b ↔ u < v) := by
    intro c a b u v h
    rw [Numerals.lex_append rfl, ← h]
    exact ⟨fun hlt => (hlt.resolve_left (List.lt_irrefl _)).2, fun hlt => .inr ⟨rfl, hlt⟩⟩
  have hfield : ∀ {x y : List Char} {a b u v : List Nat}, x.length = y.length → (a < b ↔ u < v) →
      (x.map Char.toNat ++ a < y.map Char.toNat ++ b ↔
        x.map Char.toNat ++ u < y.map Char.toNat ++ v) := by
    intro x y a b u v hlen h
    have hlen' : (x.map Char.toNat).length = (y.map Char.toNat).length := by
      rw [List.length_map, List.length_map, hlen]
    rw [Numerals.lex_append hlen', Numerals.lex_append hlen', h]
  simp only [Fields.text, List.map_append]
  exact hfield (ly.trans ly'.symm) (hmark (hfield (lmo.trans lmo'.symm) (hmark
    (hfield (ld.trans ld'.symm) (hmark (hfield (lh.trans lh'.symm) (hmark
      (hfield (lmi.trans lmi'.symm) (hmark Iff.rfl)))))))))

theorem lt_stamp_iff {f g : Fields} (hf : f.Ok) (hg : g.Ok) {rest rest' : List Char}
    (hrest : ∀ c ∈ rest, c.toNat < 0x10000) (hrest' : ∀ c ∈ rest', c.toNat < 0x10000) :
    Text.lt (String.ofList (f.text ++ rest)) (String.ofList (g.text ++ rest')) = true ↔
      f.number < g.number ∨ f.number = g.number ∧ rest.map Char.toNat < rest'.map Char.toNat := by
  have hlen : (f.text.map Char.toNat).length = (g.text.map Char.toNat).length := by
    rw [List.length_map, List.length_map, Fields.length_text hf, Fields.length_text hg]
  have heq : f.text.map Char.toNat = g.text.map Char.toNat ↔ f.number = g.number := by
    have hlt := Fields.text_lt_iff hf hg
    have hgt := Fields.text_lt_iff hg hf
    constructor
    · intro h
      rw [h] at hlt hgt
      have hnot := List.lt_irrefl (g.text.map Char.toNat)
      exact le_antisymm (not_lt.mp fun h => hnot (hgt.mpr h)) (not_lt.mp fun h => hnot (hlt.mpr h))
    · intro h
      rw [h] at hlt hgt
      exact List.le_antisymm (List.not_lt.mp fun h => lt_irrefl _ (hgt.mp h))
        (List.not_lt.mp fun h => lt_irrefl _ (hlt.mp h))
  unfold Text.lt
  rw [decide_eq_true_iff, String.toList_ofList, String.toList_ofList,
    Numerals.units_eq_map (List.forall_mem_append.mpr ⟨Fields.plain hf, hrest⟩),
    Numerals.units_eq_map (List.forall_mem_append.mpr ⟨Fields.plain hg, hrest'⟩),
    List.map_append, List.map_append, Numerals.lex_append hlen, Fields.text_lt_iff hf hg, heq]

private theorem milli_plain {milli : List Char} (h : Digits milli) :
    ∀ c ∈ '.' :: milli ++ ['Z'], c.toNat < 0x10000 := by
  intro c hc
  rcases List.mem_cons.mp hc with rfl | hc
  · decide
  · rcases List.mem_append.mp hc with hc | hc
    · exact lt_trans (Numerals.toNat_of_isDigit (h c hc)).2 (by decide)
    · obtain rfl := List.mem_singleton.mp hc
      decide

private theorem z_plain : ∀ c ∈ ['Z'], c.toNat < 0x10000 :=
  List.forall_mem_singleton.mpr (by decide)

private theorem milli_lt {milli : List Char} (h : Digits milli) (hlen : milli.length = 3) :
    value milli < 1000 := by
  have hlt := Numerals.value_lt h
  rwa [hlen] at hlt

theorem lt_milli_iff {b e : String} {t u : Nat} (hb : NamesMilli b t) (he : NamesMilli e u) :
    Text.lt b e = true ↔ t < u := by
  obtain ⟨f, m, hf, hm, hlen, rfl, rfl⟩ := hb
  obtain ⟨g, n, hg, hn, hlen', rfl, rfl⟩ := he
  have hpoint : ('.' :: m ++ ['Z']).map Char.toNat < ('.' :: n ++ ['Z']).map Char.toNat ↔
      value m < value n := by
    have hmaps : (m.map Char.toNat).length = (n.map Char.toNat).length := by
      rw [List.length_map, List.length_map, hlen, hlen']
    rw [List.cons_append, List.cons_append, List.map_cons, List.map_cons, List.cons_lt_cons_iff,
      List.map_append, List.map_append, Numerals.lex_append hmaps,
      Numerals.map_lt_iff hm hn (hlen.trans hlen'.symm)]
    constructor
    · rintro (h | ⟨-, h | ⟨-, h⟩⟩)
      · exact absurd h (lt_irrefl _)
      · exact h
      · exact absurd h (List.lt_irrefl _)
    · exact fun h => .inr ⟨rfl, .inl h⟩
  rw [lt_stamp_iff hf hg (milli_plain hm) (milli_plain hn), hpoint]
  have hlo := milli_lt hm hlen
  have hhi := milli_lt hn hlen'
  unfold instant
  omega

/-- **A baseline to the second** is before no instant of its own second. -/
theorem lt_second_iff {b e : String} {t u : Nat} (hb : NamesSecond b t) (he : NamesMilli e u) :
    Text.lt b e = true ↔ t / 1000 < u / 1000 := by
  obtain ⟨f, hf, rfl, rfl⟩ := hb
  obtain ⟨g, n, hg, hn, hlen, rfl, rfl⟩ := he
  have hz : ¬ ['Z'].map Char.toNat < ('.' :: n ++ ['Z']).map Char.toNat := by
    show ¬ ['Z'.toNat] < '.'.toNat :: _
    rw [List.cons_lt_cons_iff]
    rintro (h | ⟨h, -⟩)
    · exact absurd h (by decide)
    · exact absurd h (by decide)
  rw [lt_stamp_iff hf hg z_plain (milli_plain hn)]
  have hhi := milli_lt hn hlen
  unfold instant
  constructor
  · rintro (h | ⟨-, h⟩)
    · omega
    · exact absurd h hz
  · intro h
    exact .inl (by omega)

/-! ## What is counted -/

section Counted

variable (log : List ProvenanceEntry) (instantOf : ProvenanceEntry → Nat) (unit : String)

/-- The changes of the unit since an instant, whichever way a baseline is spelled. -/
structure Counted (baseline : String) (t : Nat) : Prop where
  later : ∀ e ∈ log, e.file = unit → e.rejectedStale = false → t < instantOf e →
    ∀ f ∈ changedFieldsFromProvenance e, f ∈ (changedFieldsSince log unit baseline).1
  noEarlier : ∀ f ∈ (changedFieldsSince log unit baseline).1, ∃ e ∈ log, e.file = unit ∧
    e.rejectedStale = false ∧ t ≤ instantOf e ∧ f ∈ changedFieldsFromProvenance e
  lowered : ∀ lower s, NamesBaseline lower s → s ≤ t →
    (changedFieldsSince log unit baseline).1 ⊆ (changedFieldsSince log unit lower).1

/-- What is changed later in the baseline's own second is changed again in a later second. -/
def Repeated (t : Nat) : Prop :=
  ∀ e ∈ log, e.file = unit → e.rejectedStale = false → t < instantOf e →
    instantOf e / 1000 = t / 1000 →
    ∀ f ∈ changedFieldsFromProvenance e, ∃ e' ∈ log, e'.file = unit ∧ e'.rejectedStale = false ∧
      t / 1000 < instantOf e' / 1000 ∧ f ∈ changedFieldsFromProvenance e'

variable {log instantOf unit}

theorem counts_iff {baseline : String} {e : ProvenanceEntry} : counts unit baseline e = true ↔
    e.file = unit ∧ e.rejectedStale = false ∧ Text.lt baseline e.timestamp = true := by
  rw [counts, Bool.and_eq_true, Bool.and_eq_true, decide_eq_true_iff, Bool.not_eq_true', and_assoc]

theorem exists_lower {baseline : String} {t : Nat} (h : NamesBaseline baseline t) :
    ∃ lower s, NamesSecond lower s ∧ s ≤ t ∧ s / 1000 = t / 1000 := by
  rcases h with ⟨f, m, hf, hm, hlen, -, rfl⟩ | ⟨f, hf, -, rfl⟩
  · refine ⟨_, _, ⟨f, hf, rfl, rfl⟩, ?_, ?_⟩
    · exact Nat.add_le_add_left (Nat.zero_le _) _
    · have hlt := milli_lt hm hlen
      unfold instant
      omega
  · exact ⟨_, _, ⟨f, hf, rfl, rfl⟩, le_rfl, rfl⟩

/-- **EVERY LATER CHANGE IS COUNTED** exactly if those of the baseline's own second are repeated
    in a later one. -/
theorem later_change_counted_iff (hlog : ∀ e ∈ log, NamesMilli e.timestamp (instantOf e))
    {baseline : String} {t : Nat} (hbaseline : NamesBaseline baseline t) :
    Counted log instantOf unit baseline t ↔ Repeated log instantOf unit t := by
  have hafter : ∀ {b : String} {s : Nat}, NamesBaseline b s → ∀ e ∈ log,
      s / 1000 < instantOf e / 1000 → Text.lt b e.timestamp = true := by
    intro b s hb e he hlt
    rcases hb with hb | hb
    · exact (lt_milli_iff hb (hlog e he)).mpr (by omega)
    · exact (lt_second_iff hb (hlog e he)).mpr hlt
  have hnot : ∀ {b : String} {s : Nat}, NamesBaseline b s → ∀ e ∈ log,
      Text.lt b e.timestamp = true → s < instantOf e := by
    intro b s hb e he hlt
    rcases hb with hb | hb
    · exact (lt_milli_iff hb (hlog e he)).mp hlt
    · have hsec := (lt_second_iff hb (hlog e he)).mp hlt
      omega
  constructor
  · intro h e he hfile hlanded hlater hsame f hf
    have hin := h.later e he hfile hlanded hlater f hf
    obtain ⟨lower, s, hlower, hle, hsec⟩ := exists_lower hbaseline
    obtain ⟨e', he', hcounts, hf'⟩ :=
      mem_changedFieldsSince.mp (h.lowered lower s (.inr hlower) hle hin)
    obtain ⟨hfile', hlanded', hlt⟩ := counts_iff.mp hcounts
    have hsec' := (lt_second_iff hlower (hlog e' he')).mp hlt
    exact ⟨e', he', hfile', hlanded', hsec ▸ hsec', hf'⟩
  · intro h
    -- a change later than the baseline is found by every baseline that is no later
    have hfound : ∀ {lower : String} {s : Nat}, NamesBaseline lower s → s ≤ t → ∀ e ∈ log,
        e.file = unit → e.rejectedStale = false → t < instantOf e →
        ∀ f ∈ changedFieldsFromProvenance e, f ∈ (changedFieldsSince log unit lower).1 := by
      intro lower s hlower hle e he hfile hlanded hlater f hf
      by_cases hsame : instantOf e / 1000 = t / 1000
      · obtain ⟨e', he', hfile', hlanded', hsec, hf'⟩ := h e he hfile hlanded hlater hsame f hf
        exact mem_changedFieldsSince.mpr ⟨e', he', counts_iff.mpr
          ⟨hfile', hlanded', hafter hlower e' he' (by omega)⟩, hf'⟩
      · exact mem_changedFieldsSince.mpr ⟨e, he, counts_iff.mpr
          ⟨hfile, hlanded, hafter hlower e he (by omega)⟩, hf⟩
    refine ⟨hfound hbaseline le_rfl, fun f hf => ?_, fun lower s hlower hle f hf => ?_⟩
    · obtain ⟨e, he, hcounts, hf⟩ := mem_changedFieldsSince.mp hf
      obtain ⟨hfile, hlanded, hlt⟩ := counts_iff.mp hcounts
      exact ⟨e, he, hfile, hlanded, (hnot hbaseline e he hlt).le, hf⟩
    · obtain ⟨e, he, hcounts, hf⟩ := mem_changedFieldsSince.mp hf
      obtain ⟨hfile, hlanded, hlt⟩ := counts_iff.mp hcounts
      exact hfound hlower hle e he hfile hlanded (hnot hbaseline e he hlt) f hf

end Counted

def noonFields (second : Char) : Fields :=
  ⟨['2', '0', '2', '6'], ['0', '7'], ['0', '1'], ['1', '2'], ['0', '0'], ['0', second]⟩

def pricesWrite (second : Char) : ProvenanceEntry where
  timestamp := String.ofList ((noonFields second).text ++ ('.' :: ['5', '0', '0'] ++ ['Z']))
  file := "prices.md"
  action := "update"
  bodyChanged := some true
  stamped := fun h => by
    rw [← String.toList_inj, String.toList_ofList] at h
    cases h

def noonStamp : String := String.ofList ((noonFields '0').text ++ ['Z'])

private theorem noon_named : NamesBaseline noonStamp (instant (noonFields '0').number 0) := by
  refine .inr ⟨noonFields '0', ?_, rfl, rfl⟩
  simp only [Fields.Ok, Digits, ← List.all_eq_true]
  decide

theorem later_change_counted_next_second :
    Counted [pricesWrite '1'] (fun _ => instant (noonFields '1').number 500) "prices.md" noonStamp
      (instant (noonFields '0').number 0) := by
  refine (later_change_counted_iff (fun e he => ?_) noon_named).mpr fun e he _ _ _ hsame => ?_
  · obtain rfl := List.mem_singleton.mp he
    refine ⟨noonFields '1', ['5', '0', '0'], ?_, ?_, rfl, rfl, rfl⟩ <;>
      simp only [Fields.Ok, Digits, ← List.all_eq_true] <;> decide
  · exact absurd hsame (by decide)

/-- **A change half a second after its baseline** is not counted. -/
theorem same_second_uncounted :
    (changedFieldsSince [pricesWrite '0'] "prices.md" noonStamp).1 = [] ∧
    ¬ Counted [pricesWrite '0'] (fun _ => instant (noonFields '0').number 500) "prices.md" noonStamp
      (instant (noonFields '0').number 0) := by
  have hnone : (changedFieldsSince [pricesWrite '0'] "prices.md" noonStamp).1 = [] := by
    decide +kernel
  have hbody : "body" ∈ changedFieldsFromProvenance (pricesWrite '0') := by decide +kernel
  refine ⟨hnone, fun h => ?_⟩
  have hin := h.later (pricesWrite '0') List.mem_cons_self rfl (by decide) (by decide) "body" hbody
  cases hin

end Staleness
