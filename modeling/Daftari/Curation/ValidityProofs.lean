import Daftari.Frontmatter.DatesProofs

/-! # Valid time — one window, read in two places

    A document may say from when until when it holds, up to and without the last
    day.  A read asks where a day lies; the lint asks whether the window of a
    canonical document has closed with nothing to follow it.

    * `classified`, `handedOn`: **a read places every day by the window**;
    * `oneBoundary_iff`: **the lint agrees with it, except on the day itself.** -/

/-! ## Half-open windows -/

namespace Window

variable {δ : Type*} [LinearOrder δ]

/-- An open start has begun. -/
def begun (lo : Option δ) (d : δ) : Prop := ∀ l ∈ lo, l ≤ d

/-- An open end lasts. -/
def lasts (hi : Option δ) (d : δ) : Prop := ∀ h ∈ hi, d < h

/-- The days from `lo` on and before `hi`. -/
def window (lo hi : Option δ) : Set δ := { d | begun lo d ∧ lasts hi d }

/-- There is room between the ends. -/
def room (lo hi : Option δ) : Prop := ∀ l ∈ lo, ∀ h ∈ hi, l < h

theorem begun_of_not_lasts {lo hi : Option δ} {d : δ} (hroom : room lo hi)
    (h : ¬ lasts hi d) : begun lo d := by
  intro l hl
  by_contra hlate
  refine h fun e he => ?_
  exact lt_trans (not_le.mp hlate) (hroom l hl e he)

/-- **Windows that meet hand over**: no day is in both, and none between the outer ends is
    in neither. -/
theorem window_handoff (lo hi : Option δ) (b d : δ) :
    ¬ (d ∈ window lo (some b) ∧ d ∈ window (some b) hi) ∧
      (begun lo d → lasts hi d → d ∈ window lo (some b) ∨ d ∈ window (some b) hi) := by
  refine ⟨?_, ?_⟩
  · rintro ⟨⟨_, hbefore⟩, hafter, _⟩
    exact absurd (hbefore b rfl) (not_lt.mpr (hafter b rfl))
  · intro hlo hhi
    rcases lt_or_ge d b with hd | hd
    · left
      refine ⟨hlo, fun h hh => ?_⟩
      obtain rfl := Option.some.inj hh
      exact hd
    · right
      refine ⟨fun l hl => ?_, hhi⟩
      obtain rfl := Option.some.inj hl
      exact hd

end Window

namespace Validity

open Frontmatter

/-! ## Reading -/

inductive ValidityState where
  | inWindow
  | expired
  | notYet
  | unknown
deriving DecidableEq, Repr

structure ValidityInput where
  validFrom : Option String
  validUntil : Option String

structure ValidityReport where
  validFrom : Option String
  validUntil : Option String
  state : ValidityState
  banner : Option String
deriving DecidableEq, Repr

def daysBeforeYear (year : Nat) : Nat :=
  365 * year + (year + 3) / 4 - (year + 99) / 100 + (year + 399) / 400

def dayNumber (day : Day) : Nat :=
  daysBeforeYear day.1
    + ((List.range (day.2.1 - 1)).map fun i => daysInMonth day.1 (i + 1)).sum + day.2.2

/-- `daysBetween`: whole days between two canonical dates. -/
def daysBetween (fromISO toISO : String) : Int :=
  (dayNumber (canonicalDay toISO) : Int) - dayNumber (canonicalDay fromISO)

/-- Written, but not a date. -/
def malformed (raw : Option String) : Bool :=
  raw.isSome && (raw.bind normalizeIsoDate).isNone

/-- `until <= from`. -/
def inverted (lo hi : Option String) : Bool :=
  lo.any fun l => hi.any fun h => !Text.lt l h

def computeValidity (input : ValidityInput) (asOf : String) : Option ValidityReport :=
  if input.validFrom = none ∧ input.validUntil = none then none
  else
    let lo := input.validFrom.bind normalizeIsoDate
    let hi := input.validUntil.bind normalizeIsoDate
    let report := ValidityReport.mk input.validFrom input.validUntil
    match normalizeIsoDate asOf with
    | none => some (report .unknown none)
    | some day =>
        if malformed input.validFrom || malformed input.validUntil then
          some (report .unknown none)
        else if inverted lo hi then some (report .unknown none)
        else if lo.any (Text.lt day) then some (report .notYet none)
        else
          match hi with
          | none => some (report .inWindow none)
          | some h =>
              if Text.lt day h then some (report .inWindow none)
              else some (report .expired (some ("⚠ STALE — validity ended " ++ h ++ " ("
                ++ toString (daysBetween h day) ++ "d ago)")))

example : (computeValidity ⟨some "2026-1-5", some "2026-03-01"⟩ "2026-04-01").map
    ValidityReport.banner = some (some "⚠ STALE — validity ended 2026-03-01 (31d ago)") := by
  decide +kernel

/-! ## Linting -/

structure LoadedDoc where
  path : String
  frontmatter : Fields

/-- What a document says about its window. -/
def LoadedDoc.input (d : LoadedDoc) : ValidityInput :=
  ⟨d.frontmatter.validFrom, d.frontmatter.validUntil⟩

/-- The kinds of a `ValidityConflict`. -/
inductive ConflictKind where
  | malformedEndpoint
  | inverted
  | supersessionOverlap
  | supersessionGap
  | expiredCanonical
deriving DecidableEq, Repr

structure ValidityConflict where
  path : String
  kind : ConflictKind
  detail : String
deriving DecidableEq, Repr

/-- An endpoint that is no date, named verbatim. -/
def endpointConflicts (path field : String) (raw : Option String) : List ValidityConflict :=
  if malformed raw then
    [⟨path, .malformedEndpoint,
      field ++ " is not a YYYY-MM-DD date: \"" ++ raw.getD "" ++ "\""⟩]
  else []

/-- The finding on an inverted or empty window. -/
def invertedConflict (path lo hi : String) : ValidityConflict :=
  ⟨path, .inverted, if hi = lo then
      "valid_from and valid_until are both " ++ lo ++ " — a half-open window [" ++ lo ++ ", "
        ++ hi ++ ") contains no days"
    else "valid_until " ++ hi ++ " is not after valid_from " ++ lo⟩

/-- The end of a window against the start of its successor's. -/
def handoffConflicts (byPath : String → Option LoadedDoc) (d : LoadedDoc)
    (hi : Option String) : List ValidityConflict :=
  match d.frontmatter.supersededBy.bind byPath, hi with
  | some successor, some h =>
      match normalizeIsoDate (successor.frontmatter.validFrom.getD "") with
      | none => []
      | some s =>
          if Text.lt s h then
            [⟨d.path, .supersessionOverlap,
              "this document claims validity until " ++ h ++ ", but its successor "
                ++ "claims validity from " ++ s ++ " — the vault asserts both held at once"⟩]
          else if Text.lt h s then
            [⟨d.path, .supersessionGap,
              "this document's validity ends " ++ h ++ " and its successor's begins "
                ++ s ++ " — no document records a belief for the days between"⟩]
          else []
  | _, _ => []

/-- A canonical document whose window has closed, with nothing to follow it. -/
def expiredConflicts (today : String) (d : LoadedDoc) (hi : Option String) :
    List ValidityConflict :=
  match hi with
  | none => []
  | some h =>
      if d.frontmatter.status = .canonical ∧ d.frontmatter.domain = .accumulation
          ∧ Text.lt h today ∧ d.frontmatter.supersededBy = none then
        [⟨d.path, .expiredCanonical,
          "canonical document's validity ended " ++ h ++ " with no superseded_by — "
            ++ "it says it stopped being true and nothing replaced it"⟩]
      else []

def conflictsOf (byPath : String → Option LoadedDoc) (today : String) (d : LoadedDoc) :
    List ValidityConflict :=
  let fm := d.frontmatter
  if fm.validFrom = none ∧ fm.validUntil = none then []
  else
    let lo := fm.validFrom.bind normalizeIsoDate
    let hi := fm.validUntil.bind normalizeIsoDate
    endpointConflicts d.path "valid_from" fm.validFrom
      ++ endpointConflicts d.path "valid_until" fm.validUntil
      ++ if malformed fm.validFrom || malformed fm.validUntil then []
        else if inverted lo hi then [invertedConflict d.path (lo.getD "") (hi.getD "")]
        else handoffConflicts byPath d hi ++ expiredConflicts today d hi

/-- `validityConflicts`, at an instant in ISO form. -/
def validityConflicts (docs : List LoadedDoc) (now : String) : List ValidityConflict :=
  docs.flatMap (conflictsOf (Assoc.lastBy LoadedDoc.path docs) (dateOnly now))

/-! ## Texts and days -/

def endpoint (raw : Option String) : Option Day := raw.bind dayOf

section Days

variable {raw lo hi : Option String} {d : Day} {day : String}

theorem endpoint_eq : endpoint raw = (raw.bind normalizeIsoDate).map canonicalDay := by
  cases raw with
  | none => rfl
  | some s => rfl

theorem names_of_endpoint {t : String} (h : raw.bind normalizeIsoDate = some t) :
    Names t (canonicalDay t) := by
  obtain ⟨s, _, hs⟩ := Option.bind_eq_some_iff.mp h
  exact normalizeIsoDate_eq_some hs

theorem malformed_iff : malformed raw = true ↔ raw ≠ none ∧ endpoint raw = none := by
  rw [endpoint_eq, Option.map_eq_none_iff]
  unfold malformed
  rw [Bool.and_eq_true, Option.isNone_iff_eq_none, Option.isSome_iff_ne_none]

theorem inverted_iff : inverted (lo.bind normalizeIsoDate) (hi.bind normalizeIsoDate) = false ↔
    Window.room (endpoint lo) (endpoint hi) := by
  unfold Window.room
  rw [endpoint_eq, endpoint_eq]
  unfold inverted
  cases hl : lo.bind normalizeIsoDate with
  | none => simp
  | some l =>
      cases hh : hi.bind normalizeIsoDate with
      | none => simp
      | some h =>
          have hlt := (names_of_endpoint hl).lt_iff (names_of_endpoint hh)
          simp only [Option.any_some, Option.map_some, Option.mem_some_iff, forall_eq', ← hlt]
          cases Text.lt l h <;> simp

theorem early_iff (hd : Names day d) :
    (lo.bind normalizeIsoDate).any (Text.lt day) = false ↔ Window.begun (endpoint lo) d := by
  unfold Window.begun
  rw [endpoint_eq]
  cases hl : lo.bind normalizeIsoDate with
  | none => simp
  | some l =>
      have hlt := hd.lt_iff (names_of_endpoint hl)
      simp only [Option.any_some, Option.map_some, Option.mem_some_iff, forall_eq', ← not_lt, ← hlt]
      cases Text.lt day l <;> simp

theorem lasts_iff (hd : Names day d) :
    Window.lasts (endpoint hi) d ↔ ∀ h ∈ hi.bind normalizeIsoDate, Text.lt day h = true := by
  unfold Window.lasts
  rw [endpoint_eq]
  cases hh : hi.bind normalizeIsoDate with
  | none => simp
  | some h =>
      have hlt := hd.lt_iff (names_of_endpoint hh)
      simp only [Option.map_some, Option.mem_some_iff, forall_eq', ← hlt]

end Days

/-! ## What a read says -/

/-- Both ends are dates or open, and there is room between them. -/
def WellFormed (input : ValidityInput) : Prop :=
  malformed input.validFrom = false ∧ malformed input.validUntil = false
    ∧ Window.room (endpoint input.validFrom) (endpoint input.validUntil)

/-- A document that says something about its window. -/
def Speaks (input : ValidityInput) : Prop := ¬ (input.validFrom = none ∧ input.validUntil = none)

def stateAt (input : ValidityInput) (asOf : String) : Option ValidityState :=
  (computeValidity input asOf).map ValidityReport.state

def windowOf (input : ValidityInput) : Set Day :=
  Window.window (endpoint input.validFrom) (endpoint input.validUntil)

/-- A read places a day by the half-open window. -/
structure Classified (input : ValidityInput) (asOf : String) (d : Day) : Prop where
  silent : stateAt input asOf = none ↔ ¬ Speaks input
  unknown : stateAt input asOf = some .unknown ↔ Speaks input ∧ ¬ WellFormed input
  notYet : stateAt input asOf = some .notYet ↔
    Speaks input ∧ WellFormed input ∧ ¬ Window.begun (endpoint input.validFrom) d
  expired : stateAt input asOf = some .expired ↔
    Speaks input ∧ WellFormed input ∧ ¬ Window.lasts (endpoint input.validUntil) d
  inWindow : stateAt input asOf = some .inWindow ↔
    Speaks input ∧ WellFormed input ∧ d ∈ windowOf input

section Reads

variable {input : ValidityInput} {asOf : String} {d : Day}

theorem stateAt_of_silent (h : ¬ Speaks input) : stateAt input asOf = none := by
  unfold stateAt computeValidity
  rw [if_pos (not_not.mp h)]
  rfl

theorem stateAt_of_ill_formed {day : String} (hday : normalizeIsoDate asOf = some day)
    (hs : Speaks input) (h : ¬ WellFormed input) : stateAt input asOf = some .unknown := by
  unfold stateAt computeValidity
  rw [if_neg hs]
  rw [hday]
  dsimp only
  split
  · rfl
  · split
    · rfl
    · rename_i hends hroom
      rw [Bool.or_eq_true, not_or, Bool.not_eq_true, Bool.not_eq_true] at hends
      exact absurd ⟨hends.1, hends.2, inverted_iff.mp (Bool.eq_false_of_not_eq_true hroom)⟩ h

theorem stateAt_of_well_formed {day : String} (hday : normalizeIsoDate asOf = some day)
    (hs : Speaks input) (h : WellFormed input) :
    (¬ Window.begun (endpoint input.validFrom) (canonicalDay day) ∧
        stateAt input asOf = some .notYet) ∨
      (Window.begun (endpoint input.validFrom) (canonicalDay day) ∧
        ¬ Window.lasts (endpoint input.validUntil) (canonicalDay day) ∧
          stateAt input asOf = some .expired) ∨
      (canonicalDay day ∈ windowOf input ∧ stateAt input asOf = some .inWindow) := by
  obtain ⟨hfrom, huntil, hroom⟩ := h
  have hnames := normalizeIsoDate_eq_some hday
  unfold stateAt computeValidity
  rw [if_neg hs]
  rw [hday]
  dsimp only
  rw [hfrom, huntil, inverted_iff.mpr hroom, Bool.or_self, if_neg Bool.false_ne_true,
    if_neg Bool.false_ne_true]
  by_cases hearly : (input.validFrom.bind normalizeIsoDate).any (Text.lt day) = true
  · left
    rw [if_pos hearly]
    refine ⟨fun hbegun => ?_, rfl⟩
    rw [(early_iff hnames).mpr hbegun] at hearly
    cases hearly
  · right
    have hbegun := (early_iff hnames).mp (Bool.eq_false_of_not_eq_true hearly)
    rw [if_neg hearly]
    cases hhi : input.validUntil.bind normalizeIsoDate with
    | none =>
        right
        refine ⟨⟨hbegun, (lasts_iff hnames).mpr fun h hh => ?_⟩, rfl⟩
        rw [hhi] at hh
        cases hh
    | some h =>
        dsimp only
        by_cases hin : Text.lt day h = true
        · right
          rw [if_pos hin]
          refine ⟨⟨hbegun, (lasts_iff hnames).mpr fun h' hh => ?_⟩, rfl⟩
          rw [hhi] at hh
          rwa [← Option.some.inj hh]
        · left
          rw [if_neg hin]
          exact ⟨hbegun, fun hlasts => hin ((lasts_iff hnames).mp hlasts h hhi), rfl⟩

/-- **A read places every day by the window**, and is at a loss only where there is none. -/
theorem classified (hd : dayOf asOf = some d) : Classified input asOf d := by
  obtain ⟨day, hday, rfl⟩ := Option.map_eq_some_iff.mp hd
  by_cases hs : Speaks input
  · by_cases hw : WellFormed input
    · have hroom := hw.2.2
      rcases stateAt_of_well_formed hday hs hw with
        ⟨hlo, hstate⟩ | ⟨hlo, hhi, hstate⟩ | ⟨hin, hstate⟩
      · have hlasts : Window.lasts (endpoint input.validUntil) (canonicalDay day) := by
          by_contra hno
          exact hlo (Window.begun_of_not_lasts hroom hno)
        have hout : canonicalDay day ∉ windowOf input := fun hin => hlo hin.1
        constructor <;> simp [hstate, hs, hw, hlo, hlasts, hout]
      · have hout : canonicalDay day ∉ windowOf input := fun hin => hhi hin.2
        constructor <;> simp [hstate, hs, hw, hlo, hhi, hout]
      · constructor <;> simp [hstate, hs, hw, hin, hin.1, hin.2]
    · have hstate := stateAt_of_ill_formed hday hs hw
      constructor <;> simp [hstate, hs, hw]
  · have hstate : stateAt input asOf = none := stateAt_of_silent hs
    constructor <;> simp [hstate, hs]

/-- The windows of two documents meet: the one ends on the day the other begins. -/
def Meets (p s : ValidityInput) : Prop :=
  ∃ b, endpoint p.validUntil = some b ∧ endpoint s.validFrom = some b

/-- A day both windows hold, or neither although it lies between their outer ends. -/
def Handover (p s : ValidityInput) (asOf : String) (d : Day) : Prop :=
  ¬ (stateAt p asOf = some .inWindow ∧ stateAt s asOf = some .inWindow) ∧
    (malformed p.validFrom = false → malformed s.validUntil = false →
      Window.begun (endpoint p.validFrom) d → Window.lasts (endpoint s.validUntil) d →
        stateAt p asOf = some .inWindow ∨ stateAt s asOf = some .inWindow)

/-- **Documents whose windows meet hand over**: no day is shared, and none is lost. -/
theorem handedOn {p s : ValidityInput} (hmeets : Meets p s) (hd : dayOf asOf = some d) :
    Handover p s asOf d := by
  obtain ⟨b, hp, hs⟩ := hmeets
  obtain ⟨hdisjoint, hcover⟩ := Window.window_handoff (endpoint p.validFrom)
    (endpoint s.validUntil) b d
  have hpin := (classified hd : Classified p asOf d).inWindow
  have hsin := (classified hd : Classified s asOf d).inWindow
  unfold windowOf at hpin hsin
  rw [hp] at hpin
  rw [hs] at hsin
  have hwritten : ∀ {raw : Option String}, endpoint raw = some b →
      raw ≠ none ∧ malformed raw = false := by
    intro raw hraw
    refine ⟨?_, ?_⟩
    · rintro rfl
      cases hraw
    · refine Bool.eq_false_of_not_eq_true fun hbad => ?_
      rw [(malformed_iff.mp hbad).2] at hraw
      cases hraw
  refine ⟨?_, ?_⟩
  · rintro ⟨hpre, hpost⟩
    exact hdisjoint ⟨(hpin.mp hpre).2.2, (hsin.mp hpost).2.2⟩
  · intro hfrom huntil hbegun hlasts
    rcases hcover hbegun hlasts with hin | hin
    · left
      refine hpin.mpr ⟨fun hnone => (hwritten hp).1 hnone.2, ⟨hfrom, (hwritten hp).2, ?_⟩, hin⟩
      intro l hl h hh
      rw [hp] at hh
      obtain rfl := Option.some.inj hh
      exact lt_of_le_of_lt (hin.1 l hl) (hin.2 b rfl)
    · right
      refine hsin.mpr ⟨fun hnone => (hwritten hs).1 hnone.1, ⟨(hwritten hs).2, huntil, ?_⟩, hin⟩
      intro l hl h hh
      rw [hs] at hl
      obtain rfl := Option.some.inj hl
      exact lt_of_le_of_lt (hin.1 b rfl) (hin.2 h hh)

end Reads

/-! ## What the lint says -/

section Lint

variable {byPath : String → Option LoadedDoc} {today : String} {doc : LoadedDoc}

def Standing (doc : LoadedDoc) : Prop :=
  doc.frontmatter.status = .canonical ∧ doc.frontmatter.domain = .accumulation
    ∧ doc.frontmatter.supersededBy = none

theorem path_of_mem_conflictsOf {c : ValidityConflict} (h : c ∈ conflictsOf byPath today doc) :
    c.path = doc.path := by
  have hends : ∀ field raw, c ∈ endpointConflicts doc.path field raw → c.path = doc.path := by
    intro field raw hc
    unfold endpointConflicts at hc
    split at hc
    · rw [List.mem_singleton.mp hc]
    · cases hc
  unfold conflictsOf at h
  dsimp only at h
  split at h
  · cases h
  · rcases List.mem_append.mp h with h | h
    · rcases List.mem_append.mp h with h | h
      · exact hends _ _ h
      · exact hends _ _ h
    · split at h
      · cases h
      · split at h
        · rw [List.mem_singleton.mp h]
          rfl
        · rcases List.mem_append.mp h with h | h
          · unfold handoffConflicts at h
            repeat' split at h
            all_goals first | cases h; done | rw [List.mem_singleton.mp h]
          · unfold expiredConflicts at h
            repeat' split at h
            all_goals first | cases h; done | rw [List.mem_singleton.mp h]

/-- **When the lint reports a closed window.** -/
theorem reports_iff (hstanding : Standing doc) :
    (∃ c ∈ conflictsOf byPath today doc, c.kind = .expiredCanonical) ↔
      Speaks doc.input ∧ WellFormed doc.input
        ∧ ∃ h ∈ doc.frontmatter.validUntil.bind normalizeIsoDate, Text.lt h today = true := by
  have hends : ∀ field raw, ∀ c ∈ endpointConflicts doc.path field raw,
      c.kind ≠ .expiredCanonical := by
    intro field raw c hc
    unfold endpointConflicts at hc
    split at hc
    · rw [List.mem_singleton.mp hc]
      rintro ⟨⟩
    · cases hc
  have hhandoff : ∀ c ∈ handoffConflicts byPath doc
      (doc.frontmatter.validUntil.bind normalizeIsoDate), c.kind ≠ .expiredCanonical := by
    intro c hc
    unfold handoffConflicts at hc
    rw [hstanding.2.2] at hc
    cases hc
  have hexpired : (∃ c ∈ expiredConflicts today doc
      (doc.frontmatter.validUntil.bind normalizeIsoDate), c.kind = .expiredCanonical) ↔
        ∃ h ∈ doc.frontmatter.validUntil.bind normalizeIsoDate, Text.lt h today = true := by
    unfold expiredConflicts
    cases doc.frontmatter.validUntil.bind normalizeIsoDate with
    | none => simp
    | some h =>
        simp only [hstanding.1, hstanding.2.1, hstanding.2.2, true_and, and_true,
          Option.mem_some_iff, exists_eq_left']
        cases Text.lt h today <;> simp
  unfold conflictsOf
  by_cases hs : Speaks doc.input
  · have hspeaks : ¬ (doc.frontmatter.validFrom = none ∧ doc.frontmatter.validUntil = none) := hs
    rw [if_neg hspeaks]
    constructor
    · rintro ⟨c, hc, hkind⟩
      rcases List.mem_append.mp hc with hc | hc
      · rcases List.mem_append.mp hc with hc | hc
        · exact absurd hkind (hends _ _ c hc)
        · exact absurd hkind (hends _ _ c hc)
      · split at hc
        · cases hc
        · rename_i hwritten
          rw [Bool.or_eq_true, not_or, Bool.not_eq_true, Bool.not_eq_true] at hwritten
          split at hc
          · rw [List.mem_singleton.mp hc] at hkind
            cases hkind
          · rename_i hroom
            refine ⟨hs, ⟨hwritten.1, hwritten.2,
              inverted_iff.mp (Bool.eq_false_of_not_eq_true hroom)⟩, ?_⟩
            rcases List.mem_append.mp hc with hc | hc
            · exact absurd hkind (hhandoff c hc)
            · exact hexpired.mp ⟨c, hc, hkind⟩
    · rintro ⟨_, ⟨hfrom, huntil, hroom⟩, hclosed⟩
      obtain ⟨c, hc, hkind⟩ := hexpired.mpr hclosed
      refine ⟨c, List.mem_append_right _ ?_, hkind⟩
      have hfrom' : malformed doc.frontmatter.validFrom = false := hfrom
      have huntil' : malformed doc.frontmatter.validUntil = false := huntil
      have hroom' : inverted (doc.frontmatter.validFrom.bind normalizeIsoDate)
          (doc.frontmatter.validUntil.bind normalizeIsoDate) = false := inverted_iff.mpr hroom
      rw [hfrom', huntil', Bool.or_self, if_neg Bool.false_ne_true, hroom',
        if_neg Bool.false_ne_true]
      exact List.mem_append_right _ hc
  · have hsilent : doc.frontmatter.validFrom = none ∧ doc.frontmatter.validUntil = none :=
      not_not.mp hs
    rw [if_pos hsilent]
    refine iff_of_false ?_ fun h => hs h.1
    rintro ⟨c, hc, _⟩
    cases hc

end Lint

/-! ## The two together -/

section Boundary

variable {docs : List LoadedDoc} {now : String} {d : Day}

/-- The lint reports a closed window for this document. -/
def Reported (docs : List LoadedDoc) (now : String) (doc : LoadedDoc) : Prop :=
  ∃ c ∈ validityConflicts docs now, c.path = doc.path ∧ c.kind = .expiredCanonical

/-- Validity has one boundary: a read places every day by the window, windows that meet
    hand over, and the lint calls a window closed when a read does. -/
structure OneBoundary (docs : List LoadedDoc) (now : String) (d : Day) : Prop where
  classified : ∀ doc ∈ docs, ∀ asOf, dayOf asOf = some d → Classified doc.input asOf d
  handedOn : ∀ p ∈ docs, ∀ s ∈ docs, Meets p.input s.input →
    ∀ asOf, dayOf asOf = some d → Handover p.input s.input asOf d
  agreed : ∀ doc ∈ docs, Standing doc →
    (Reported docs now doc ↔ stateAt doc.input (dateOnly now) = some .expired)

theorem reported_iff (hpaths : (docs.map LoadedDoc.path).Nodup) {doc : LoadedDoc}
    (hdoc : doc ∈ docs) : Reported docs now doc ↔
      ∃ c ∈ conflictsOf (Assoc.lastBy LoadedDoc.path docs) (dateOnly now) doc,
        c.kind = .expiredCanonical := by
  constructor
  · rintro ⟨c, hc, hpath, hkind⟩
    obtain ⟨doc', hdoc', hc⟩ := List.mem_flatMap.mp hc
    have hsame : doc' = doc := List.inj_on_of_nodup_map hpaths hdoc' hdoc
      ((path_of_mem_conflictsOf hc).symm.trans hpath)
    exact ⟨c, hsame ▸ hc, hkind⟩
  · rintro ⟨c, hc, hkind⟩
    exact ⟨c, List.mem_flatMap.mpr ⟨doc, hdoc, hc⟩, path_of_mem_conflictsOf hc, hkind⟩

theorem agreed_iff (hpaths : (docs.map LoadedDoc.path).Nodup)
    (hnow : normalizeIsoDate (dateOnly now) = some (dateOnly now))
    (hd : dayOf (dateOnly now) = some d) {doc : LoadedDoc} (hdoc : doc ∈ docs)
    (hstanding : Standing doc) :
    (Reported docs now doc ↔ stateAt doc.input (dateOnly now) = some .expired) ↔
      ¬ (WellFormed doc.input ∧ endpoint doc.frontmatter.validUntil = some d) := by
  have hnames : Names (dateOnly now) d := by
    unfold dayOf at hd
    rw [hnow] at hd
    rw [← Option.some.inj hd]
    exact normalizeIsoDate_eq_some hnow
  have hends : endpoint doc.frontmatter.validUntil
      = (doc.frontmatter.validUntil.bind normalizeIsoDate).map canonicalDay := endpoint_eq
  have hclosed : (∃ h ∈ doc.frontmatter.validUntil.bind normalizeIsoDate,
      Text.lt h (dateOnly now) = true) ↔
        ∃ h, endpoint doc.frontmatter.validUntil = some h ∧ h < d := by
    rw [hends]
    cases hh : doc.frontmatter.validUntil.bind normalizeIsoDate with
    | none => simp
    | some h =>
        have hlt := (names_of_endpoint hh).lt_iff hnames
        simp [hlt]
  have hended : ¬ Window.lasts (endpoint doc.frontmatter.validUntil) d ↔
      ∃ h, endpoint doc.frontmatter.validUntil = some h ∧ h ≤ d := by
    unfold Window.lasts
    push Not
    rfl
  rw [reported_iff hpaths hdoc, reports_iff hstanding, (classified hd).expired, hclosed]
  show (_ ↔ _ ∧ _ ∧ ¬ Window.lasts (endpoint doc.frontmatter.validUntil) d) ↔ _
  rw [hended]
  constructor
  · rintro hagree ⟨hwell, hend⟩
    have hspeaks : Speaks doc.input := by
      rintro ⟨_, hnone⟩
      have hnone' : doc.frontmatter.validUntil = none := hnone
      rw [hnone'] at hend
      cases hend
    obtain ⟨_, _, h, hh, hlt⟩ := hagree.mpr ⟨hspeaks, hwell, d, hend, le_refl d⟩
    obtain rfl := Option.some.inj (hend.symm.trans hh)
    exact lt_irrefl _ hlt
  · intro hnot
    constructor
    · rintro ⟨hspeaks, hwell, h, hh, hlt⟩
      exact ⟨hspeaks, hwell, h, hh, le_of_lt hlt⟩
    · rintro ⟨hspeaks, hwell, h, hh, hle⟩
      refine ⟨hspeaks, hwell, h, hh, lt_of_le_of_ne hle ?_⟩
      rintro rfl
      exact hnot ⟨hwell, hh⟩

/-- **One boundary, except on the day itself**: the readings agree on a day exactly when no
    standing document's window ends on it. -/
theorem oneBoundary_iff (hpaths : (docs.map LoadedDoc.path).Nodup)
    (hnow : normalizeIsoDate (dateOnly now) = some (dateOnly now))
    (hd : dayOf (dateOnly now) = some d) :
    OneBoundary docs now d ↔ ∀ doc ∈ docs, Standing doc →
      ¬ (WellFormed doc.input ∧ endpoint doc.frontmatter.validUntil = some d) := by
  constructor
  · intro h doc hdoc hstanding
    exact (agreed_iff hpaths hnow hd hdoc hstanding).mp (h.agreed doc hdoc hstanding)
  · intro h
    refine ⟨fun _ _ _ hasOf => Validity.classified hasOf,
      fun _ _ _ _ hmeets _ hasOf => Validity.handedOn hmeets hasOf, ?_⟩
    intro doc hdoc hstanding
    exact (agreed_iff hpaths hnow hd hdoc hstanding).mpr (h doc hdoc hstanding)

/-- A canonical document whose window ends on the first of March. -/
def marchDoc : LoadedDoc :=
  ⟨"a.md", coerce (fun _ => "") [("status", .str "canonical"),
    ("domain", .str "accumulation"), ("valid_until", .str "2026-3-1")]⟩

/-- The day after, the two readings agree. -/
theorem dayAfter_oneBoundary :
    OneBoundary [marchDoc] "2026-03-02T08:00:00.000Z" (toLex (2026, toLex (3, 2))) := by
  refine (oneBoundary_iff (by decide) (by decide +kernel) (by decide +kernel)).mpr ?_
  rintro doc hdoc _ ⟨_, hend⟩
  obtain rfl := List.mem_singleton.mp hdoc
  revert hend
  decide +kernel

/-- **On the day itself they do not**: the window has ended, and the lint says nothing. -/
theorem lastDay_unreported : Standing marchDoc ∧
    stateAt marchDoc.input (dateOnly "2026-03-01T08:00:00.000Z") = some .expired ∧
      ¬ Reported [marchDoc] "2026-03-01T08:00:00.000Z" marchDoc := by
  refine ⟨⟨by decide +kernel, by decide +kernel, by decide +kernel⟩, by decide +kernel, ?_⟩
  rintro ⟨c, hc, _⟩
  have hnone : validityConflicts [marchDoc] "2026-03-01T08:00:00.000Z" = [] := by
    decide +kernel
  cases hc

end Boundary

end Validity
