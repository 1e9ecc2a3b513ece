import Daftari.Curation.TensionLogProofs
import Daftari.Lib.LinesProofs
import Mathlib.Tactic.IntervalCases

/-! # The fields of a tension block — what comes back as it was written

    A written block reads back as the same entry when every text in it does.  A text without line
    breaks and without white space at its ends does, with three exceptions: a source line is cut at
    its first mark, a date must look like one, and what a resolution leaves empty is not written.

    * `roundTrips_iff`: **which entries read back as they are**. -/

namespace Tension

open Text Lines

attribute [ext] TensionResolution TensionEntry Parsing

/-! ## Plain texts -/

/-- One line, without white space at its ends. -/
structure Plain (s : Str) : Prop where
  flat : ∀ c ∈ s, isTerminator c = false
  trimmed : trim s = s

instance (s : Str) : Decidable (Plain s) :=
  decidable_of_iff (s.all (fun c => !isTerminator c) = true ∧ trim s = s)
    ⟨fun h => ⟨fun c hc => by simpa using List.all_eq_true.mp h.1 c hc, h.2⟩,
      fun h => ⟨List.all_eq_true.mpr fun c hc => by simp [h.flat c hc], h.trimmed⟩⟩

theorem trim_eq_self_iff {s : Str} :
    trim s = s ↔ (∀ c ∈ s.head?, isSpace c = false) ∧ ∀ c ∈ s.getLast?, isSpace c = false := by
  constructor
  · intro h
    have hstart : trimStart s = s := by
      rw [← h]
      unfold trim
      rw [trimStart_trimEnd]
      exact congrArg trimEnd (List.dropWhile_idempotent isSpace s)
    have hend : trimEnd s = s := by
      have := h
      unfold trim at this
      rw [hstart] at this
      exact this
    constructor
    · intro c hc
      obtain ⟨t, rfl⟩ := List.head?_eq_some_iff.mp hc
      by_contra hs
      have hpos : isSpace c = true := by simpa using hs
      have hlen := (List.dropWhile_suffix isSpace (l := t)).length_le
      have hdrop : t.dropWhile isSpace = c :: t := by
        rw [← List.dropWhile_cons_of_pos hpos]
        exact hstart
      rw [hdrop, List.length_cons] at hlen
      omega
    · intro c hc
      obtain ⟨t, rfl⟩ := List.getLast?_eq_some_iff.mp hc
      by_contra hs
      have hpos : isSpace c = true := by simpa using hs
      have hlen := (List.rdropWhile_prefix isSpace (l := t)).length_le
      have hdrop : t.rdropWhile isSpace = t ++ [c] := by
        rw [← List.rdropWhile_concat_pos isSpace t c hpos]
        exact hend
      rw [hdrop, List.length_append, List.length_singleton] at hlen
      omega
  · rintro ⟨hhead, hlast⟩
    have hstart : trimStart s = s := by
      cases s with
      | nil => rfl
      | cons c t => exact trimStart_cons (hhead c rfl)
    unfold trim
    rw [hstart]
    rcases List.eq_nil_or_concat s with rfl | ⟨t, c, rfl⟩
    · rfl
    · rw [List.concat_eq_append] at hlast ⊢
      have hc := hlast c (by simp)
      exact List.rdropWhile_concat_neg isSpace t c (by simp [hc])

theorem trim_between {a m b : Str} (ha : trim a = a) (hne : a ≠ []) (hb : trim b = b)
    (hne' : b ≠ []) : trim (a ++ m ++ b) = a ++ m ++ b := by
  refine trim_eq_self_iff.mpr ⟨fun c hc => ?_, fun c hc => ?_⟩
  · rw [List.append_assoc, List.head?_append_of_ne_nil _ hne] at hc
    exact (trim_eq_self_iff.mp ha).1 c hc
  · rw [List.getLast?_append_of_ne_nil _ hne'] at hc
    exact (trim_eq_self_iff.mp hb).2 c hc

theorem Plain.oneLine_eq {s : Str} (h : Plain s) : oneLine s = s := oneLine_of_flat h.flat

theorem trimStart_of_trim {s : Str} (h : trim s = s) : trimStart s = s := by
  cases s with
  | nil => rfl
  | cons c t => exact trimStart_cons ((trim_eq_self_iff.mp h).1 c rfl)

theorem trim_space_append {w s : Str} (hw : ∀ c ∈ w, isSpace c = true) :
    trim (w ++ s) = trim s := by
  unfold trim trimStart
  rw [List.dropWhile_append_of_pos hw]

/-! ## Source lines -/

/-- What stands between a path and its claim. -/
def saysMark : Str := " says ".toList

theorem cutAt_eq {mark : Str} (hmark : mark ≠ []) (s : Str) :
    cutAt mark s = (indexOf mark s).map fun i => (s.take i, s.drop (i + mark.length)) := by
  induction s with
  | nil => simp [cutAt, indexOf, hmark]
  | cons c s ih =>
      unfold cutAt indexOf
      by_cases hp : mark <+: c :: s
      · have hp' : mark.isPrefixOf (c :: s) = true := List.isPrefixOf_iff_prefix.mpr hp
        simp [hp, hp']
      · have hp' : ¬ mark.isPrefixOf (c :: s) = true :=
          fun h => hp (List.isPrefixOf_iff_prefix.mp h)
        rw [if_neg hp', if_neg hp, ih]
        cases indexOf mark s with
        | none => rfl
        | some i =>
            simp only [Option.map_some, List.take_succ_cons, Nat.add_right_comm i 1,
              List.drop_succ_cons]

theorem says_mark_inside {path claim : Str} {j : Nat} (hj : j < path.length)
    (hpre : saysMark <+: (path ++ saysMark ++ claim).drop j) : saysMark <:+: path ++ [' '] := by
  have hspace : path ++ saysMark ++ claim = (path ++ [' ']) ++ ("says ".toList ++ claim) := by
    simp [saysMark]
  obtain ⟨after, hafter⟩ := hpre
  by_cases hin : j + saysMark.length ≤ path.length + 1
  · refine ⟨(path ++ [' ']).take j, (path ++ [' ']).drop (j + saysMark.length), ?_⟩
    have htake : ((path ++ [' ']).drop j).take saysMark.length = saysMark := by
      have h := congrArg (List.take saysMark.length) hafter
      rw [List.take_left, hspace, List.drop_append_of_le_length (by simp; omega),
        List.take_append_of_le_length (by simp; omega)] at h
      exact h.symm
    have hsplit := List.take_append_drop saysMark.length ((path ++ [' ']).drop j)
    rw [htake, List.drop_drop] at hsplit
    rw [List.append_assoc, hsplit, List.take_append_drop]
  · -- the mark's second character or a later one would be the space after the path
    exfalso
    have hget : saysMark[path.length - j]? = some ' ' := by
      have h := congrArg (fun l => l[path.length - j]?) hafter
      have hlt : path.length - j < saysMark.length := by omega
      simp only [List.getElem?_append_left hlt, List.getElem?_drop] at h
      rw [h, hspace, show j + (path.length - j) = path.length from by omega,
        List.getElem?_append_left (by simp), List.getElem?_append_right (Nat.le_refl _),
        Nat.sub_self]
      rfl
    have hlen : saysMark.length = 6 := rfl
    have hlo : 1 ≤ path.length - j := by omega
    have hhi : path.length - j ≤ 4 := by omega
    revert hget
    generalize path.length - j = k at hlo hhi
    interval_cases k <;> decide

theorem parseSourceLine_of_cut {s p c : Str} (h : cutAt saysMark s = some (p, c)) :
    parseSourceLine s = (trim p, trim c) := by
  unfold parseSourceLine
  rw [show cutAt " says ".toList s = some (p, c) from h]

/-- **A source line is read as its path and its claim unless the path goes on with the mark.** -/
theorem parseSourceLine_iff {path claim : Str} (hpath : trim path = path)
    (hclaim : trim claim = claim) : parseSourceLine (path ++ saysMark ++ claim) = (path, claim)
      ↔ ¬ saysMark <:+: path ++ [' '] := by
  have hmark : saysMark ≠ [] := by decide
  have hcut := cutAt_eq hmark (path ++ saysMark ++ claim)
  constructor
  · rintro hread ⟨a, b, hab⟩
    have hlen := congrArg List.length hab
    simp only [List.length_append, List.length_singleton] at hlen
    have hsays : saysMark.length = 6 := rfl
    have hpre : saysMark <+: (path ++ saysMark ++ claim).drop a.length := by
      have hspace : path ++ saysMark ++ claim = (path ++ [' ']) ++ ("says ".toList ++ claim) := by
        simp [saysMark]
      rw [hspace, ← hab, List.append_assoc, List.append_assoc, List.drop_left]
      exact List.prefix_append _ _
    cases hi : indexOf saysMark (path ++ saysMark ++ claim) with
    | none => exact indexOf_eq_none.mp hi ⟨path, claim, rfl⟩
    | some i =>
        have hle : i ≤ a.length := by
          by_contra hgt
          exact (indexOf_eq_some hi).2.2 a.length (by omega) hpre
        rw [hi, Option.map_some] at hcut
        have hfst : trim ((path ++ saysMark ++ claim).take i) = path := by
          rw [parseSourceLine_of_cut hcut] at hread
          exact congrArg Prod.fst hread
        have hshort : (trim ((path ++ saysMark ++ claim).take i)).length ≤ i :=
          Nat.le_trans ((List.rdropWhile_prefix isSpace _).length_le.trans
            (List.dropWhile_suffix isSpace).length_le) (List.length_take_le _ _)
        rw [hfst] at hshort
        omega
  · intro hnot
    have hi : indexOf saysMark (path ++ saysMark ++ claim) = some path.length :=
      indexOf_append fun j hj hpre => hnot (says_mark_inside hj hpre)
    rw [hi, Option.map_some] at hcut
    have htake : (path ++ saysMark ++ claim).take path.length = path := by
      rw [List.append_assoc, List.take_left]
    have hdrop : (path ++ saysMark ++ claim).drop (path.length + saysMark.length) = claim := by
      rw [← List.length_append, List.drop_left]
    rw [parseSourceLine_of_cut hcut, htake, hdrop, hpath, hclaim]

/-! ## References -/

/-- References without commas come back as they were, whatever white space is before them. -/
theorem pieces_of_references {refs : List Str} (hne : refs ≠ [])
    (hrefs : ∀ ref ∈ refs, trim ref = ref ∧ ',' ∉ ref) {w : Str}
    (hw : ∀ c ∈ w, isSpace c = true ∧ c ≠ ',') :
    ((w ++ (", ".toList).intercalate refs).splitOn ',').map trim = refs := by
  induction refs generalizing w with
  | nil => exact absurd rfl hne
  | cons ref refs ih =>
      obtain ⟨htrim, hcomma⟩ := hrefs ref List.mem_cons_self
      have hfree : ∀ s : Str, ',' ∉ w ++ (ref ++ s) ↔ ',' ∉ s := by
        intro s
        simp only [List.mem_append, not_or]
        exact ⟨fun h => h.2.2, fun h => ⟨fun hc => (hw _ hc).2 rfl, hcomma, h⟩⟩
      have hplain : trim (w ++ ref) = ref :=
        (trim_space_append fun c hc => (hw c hc).1).trans htrim
      have hone : (w ++ ref).splitOn ',' = [w ++ ref] := by
        have h := fun hl => List.splitOn_intercalate ',' hl (List.cons_ne_nil (w ++ ref) [])
        rw [List.intercalate_singleton] at h
        refine h fun l hl => ?_
        rw [List.mem_singleton.mp hl, ← List.append_nil ref]
        exact (hfree []).mpr List.not_mem_nil
      cases refs with
      | nil => rw [List.intercalate_singleton, hone, List.map_singleton, hplain]
      | cons ref' refs =>
          rw [List.intercalate_cons_of_ne_nil (List.cons_ne_nil _ _)]
          have hsplit : w ++ (ref ++ ", ".toList ++ (", ".toList).intercalate (ref' :: refs))
              = (w ++ ref) ++ ',' :: ([' '] ++ (", ".toList).intercalate (ref' :: refs)) := by
            simp
          rw [hsplit, splitOn_append, hone, List.map_append, List.map_singleton, hplain,
            ih (List.cons_ne_nil _ _) (fun r hr => hrefs r (List.mem_cons_of_mem _ hr))]
          · rfl
          · intro c hc
            rw [List.mem_singleton.mp hc]
            decide

/-- **References come back one by one.** -/
theorem parseReferences_intercalate {refs : List Str} (hne : refs ≠ [])
    (hrefs : ∀ ref ∈ refs, trim ref = ref ∧ ',' ∉ ref) (hfull : [] ∉ refs) :
    parseReferences ((", ".toList).intercalate refs) = refs := by
  have hpieces := pieces_of_references hne hrefs (w := []) (by simp)
  rw [List.nil_append] at hpieces
  unfold parseReferences
  rw [hpieces, List.filter_eq_self]
  intro ref href
  exact decide_eq_true fun h => hfull (h ▸ href)

theorem mem_of_mem_intercalate {sep : Str} {ls : List Str} {c : Char}
    (hc : c ∈ sep.intercalate ls) : c ∈ sep ∨ ∃ l ∈ ls, c ∈ l := by
  induction ls with
  | nil => cases hc
  | cons l ls ih =>
      cases ls with
      | nil =>
          rw [List.intercalate_singleton] at hc
          exact Or.inr ⟨l, List.mem_cons_self, hc⟩
      | cons l' ls =>
          rw [List.intercalate_cons_of_ne_nil (List.cons_ne_nil _ _), List.mem_append,
            List.mem_append] at hc
          rcases hc with (hc | hc) | hc
          · exact Or.inr ⟨l, List.mem_cons_self, hc⟩
          · exact Or.inl hc
          · rcases ih hc with hc | ⟨m, hm, hc⟩
            · exact Or.inl hc
            · exact Or.inr ⟨m, List.mem_cons_of_mem _ hm, hc⟩

theorem trim_intercalate {refs : List Str} (hrefs : ∀ ref ∈ refs, trim ref = ref)
    (hfull : [] ∉ refs) :
    trim ((", ".toList).intercalate refs) = (", ".toList).intercalate refs := by
  have hne : ∀ rs : List Str, rs ≠ [] → [] ∉ rs → (", ".toList).intercalate rs ≠ [] := by
    intro rs hrs hno
    cases rs with
    | nil => exact absurd rfl hrs
    | cons r rs =>
        have hr : r ≠ [] := fun h => hno (by rw [h]; exact List.mem_cons_self)
        cases rs with
        | nil => rwa [List.intercalate_singleton]
        | cons r' rs =>
            simp
  induction refs with
  | nil => rfl
  | cons ref refs ih =>
      have href : ref ≠ [] := fun h => hfull (by rw [h]; exact List.mem_cons_self)
      have hrest : [] ∉ refs := fun h => hfull (List.mem_cons_of_mem _ h)
      cases refs with
      | nil =>
          rw [List.intercalate_singleton]
          exact hrefs ref List.mem_cons_self
      | cons ref' refs =>
          rw [List.intercalate_cons_of_ne_nil (List.cons_ne_nil _ _)]
          exact trim_between (hrefs ref List.mem_cons_self) href
            (ih (fun r hr => hrefs r (List.mem_cons_of_mem _ hr)) hrest)
            (hne _ (List.cons_ne_nil _ _) hrest)

/-! ## What any block is read as -/

/-- An entry that some block is read as: its date looks like one, and its resolution has
    nothing that is empty. -/
structure WellFormed (e : TensionEntry) : Prop where
  date : isDate e.date = true
  rationale : ∀ r ∈ e.resolution, r.rationale ≠ some []
  references : ∀ r ∈ e.resolution, r.references ≠ some [] ∧ ∀ refs ∈ r.references, [] ∉ refs

theorem references_applyLine {p : Parsing} (hp : ∀ refs ∈ p.references, [] ∉ refs) (line : Str) :
    ∀ refs ∈ (applyLine p line).references, [] ∉ refs := by
  unfold applyLine
  split
  case h_1 => exact hp
  case h_2 label value _ =>
    split
    case h_1 => exact hp
    case h_2 l _ =>
      cases l with
      | references =>
          intro refs hrefs
          obtain rfl := Option.some.inj hrefs
          intro hmem
          simpa using (List.mem_filter.mp hmem).2
      | _ => exact hp

theorem date_applyLine (p : Parsing) (line : Str) : (applyLine p line).entry.date = p.entry.date ∧
      (applyLine p line).entry.resolution = p.entry.resolution := by
  unfold applyLine
  split
  case h_1 => exact ⟨rfl, rfl⟩
  case h_2 label value _ =>
    split
    case h_1 => exact ⟨rfl, rfl⟩
    case h_2 l _ => cases l <;> exact ⟨rfl, rfl⟩

theorem Parsing.finish_wellFormed {q : Parsing} (hdate : isDate q.entry.date = true)
    (hres : q.entry.resolution = none) (hrefs : ∀ refs ∈ q.references, [] ∉ refs) :
    WellFormed q.finish := by
  unfold Parsing.finish
  split
  case h_2 => exact ⟨hdate, by simp [hres], by simp [hres]⟩
  case h_1 =>
    refine ⟨hdate, ?_, ?_⟩
    · intro r hr
      obtain rfl := Option.some.inj hr
      intro hempty
      have hmem : ([] : Str) ∈ q.rationale.filter (· ≠ []) := hempty
      simp at hmem
    · intro r hr
      obtain rfl := Option.some.inj hr
      refine ⟨fun hempty => ?_, fun refs hrefs' => ?_⟩
      · have hmem : ([] : List Str) ∈ q.references.filter (· ≠ []) := hempty
        simp at hmem
      · have hmem : refs ∈ q.references.filter (· ≠ []) := hrefs'
        exact hrefs refs (Option.mem_filter_iff.mp hmem).1

/-- **Whatever is read as an entry is well formed.** -/
theorem parseBlock_wellFormed {block : Str} {e : TensionEntry} (h : parseBlock block = some e) :
    WellFormed e := by
  unfold parseBlock at h
  split at h
  case h_1 => cases h
  case h_2 header lines _ =>
    obtain ⟨⟨date, title⟩, hheader, rfl⟩ := Option.map_eq_some_iff.mp h
    have hfold : ∀ (ls : List Str) (p : Parsing), (∀ refs ∈ p.references, [] ∉ refs) →
        p.entry.resolution = none →
        (∀ refs ∈ (ls.foldl applyLine p).references, [] ∉ refs)
          ∧ (ls.foldl applyLine p).entry.date = p.entry.date
          ∧ (ls.foldl applyLine p).entry.resolution = none := by
      intro ls
      induction ls with
      | nil => exact fun p hp hr => ⟨hp, rfl, hr⟩
      | cons line ls ih =>
          intro p hp hr
          obtain ⟨hdate, hres⟩ := date_applyLine p line
          obtain ⟨hrefs, hdate', hres'⟩ :=
            ih (applyLine p line) (references_applyLine hp line) (hres.trans hr)
          exact ⟨hrefs, hdate'.trans hdate, hres'⟩
    obtain ⟨hrefs, hdate, hres⟩ := hfold lines { entry := blankEntry date title }
      (fun refs h => nomatch h) rfl
    have hisDate : isDate date = true := by
      unfold matchHeader at hheader
      split at hheader
      case isFalse => cases hheader
      case isTrue hdates =>
        split at hheader
        case h_2 => cases hheader
        case h_1 =>
          obtain ⟨t, -, ht⟩ := Option.map_eq_some_iff.mp hheader
          obtain ⟨rfl, -⟩ := Prod.mk.inj ht
          exact hdates.1
    exact Parsing.finish_wellFormed (hdate ▸ hisDate) hres hrefs

/-! ## The fields of a plain entry -/

def TensionResolution.texts (r : TensionResolution) : List Str :=
  r.resolvedAt :: r.resolvedBy :: (r.rationale.toList ++ r.references.getD [])

def TensionEntry.texts (e : TensionEntry) : List Str :=
  [e.date, e.title, e.sourceA, e.claimA, e.sourceB, e.claimB, e.status, e.loggedBy]
    ++ [e.id, e.positionA, e.positionB, e.readerA, e.readerB, e.decidedByPrincipal].flatMap
        Option.toList
    ++ (e.resolution.map TensionResolution.texts).getD []

/-- An entry whose texts are plain, and not empty where one is called for; its references
    have no commas. -/
structure PlainEntry (e : TensionEntry) : Prop where
  plain : ∀ s ∈ e.texts, Plain s
  title : e.title ≠ []
  sourceA : e.sourceA ≠ [] ∧ e.claimA ≠ []
  sourceB : e.sourceB ≠ [] ∧ e.claimB ≠ []
  decided : e.decidedByPrincipal ≠ some []
  resolved : e.resolved = e.resolution.isSome
  commas : ∀ r ∈ e.resolution, ∀ refs ∈ r.references, ∀ ref ∈ refs, ',' ∉ ref

section Reading

variable {e : TensionEntry} {fs : List (Label × Str)} {l' : Label} {v : Str}

theorem part_written {β : Type} (hfs : entryFields e = fs ++ [(l', v)]) (part : Parsing → β)
    (l : Label) (write : β → Str → β) (hwrite : ∀ p v, part (applyField p l v) = write (part p) v)
    (hframe : ∀ p l' v, l' ≠ l → part (applyField p l' v) = part p)
    (htrim : ∀ w ∈ written e l, trim w = w) (p : Parsing) :
    part (applyFields p (fs ++ [(l', trim v)])) =
      ((written e l).map (write (part p))).getD (part p) := by
  have hvalues : valuesOf l (fs ++ [(l', trim v)]) = (written e l).toList := by
    have h := valuesOf_entryFields e l
    rw [hfs, valuesOf_append] at h
    rw [valuesOf_append]
    by_cases hl : l' = l
    · have hlast : ∀ u, valuesOf l [(l', u)] = [u] := fun u => by simp [valuesOf, hl]
      rw [hlast] at h ⊢
      cases hw : written e l with
      | none => simp [hw] at h
      | some w =>
          rw [hw] at h
          have hv : v ∈ [w] := by
            have hmem : v ∈ (some w).toList := by rw [← h]; simp
            exact hmem
          obtain rfl := List.mem_singleton.mp hv
          rw [htrim v hw]
          exact h
    · have hlast : ∀ u, valuesOf l [(l', u)] = [] := fun u => by simp [valuesOf, hl]
      rw [hlast] at h ⊢
      exact h
  rw [applyFields_part part l write hwrite hframe, hvalues]
  cases hw : written e l with
  | none => rfl
  | some w =>
      change write (part p) (trimStart w) = write (part p) w
      rw [trimStart_of_trim (htrim w hw)]

theorem read_option (hfs : entryFields e = fs ++ [(l', v)]) (part : Parsing → Option Str)
    (l : Label) (hwrite : ∀ p v, part (applyField p l v) = some (trim v))
    (hframe : ∀ p l' v, l' ≠ l → part (applyField p l' v) = part p) {u : Option Str}
    (hwritten : written e l = u.map oneLine) (hu : ∀ s ∈ u, Plain s) (p : Parsing)
    (hp : part p = none) : part (applyFields p (fs ++ [(l', trim v)])) = u := by
  have hmap : u.map oneLine = u := by
    cases u with
    | none => rfl
    | some s => exact congrArg some (hu s rfl).oneLine_eq
  rw [hmap] at hwritten
  rw [part_written hfs part l (fun _ v => some (trim v)) hwrite hframe
    (by rw [hwritten]; exact fun s hs => (hu s hs).trimmed) p, hwritten, hp]
  cases u with
  | none => rfl
  | some s => exact congrArg some (hu s rfl).trimmed

theorem read_text (hfs : entryFields e = fs ++ [(l', v)]) (part : Parsing → Str)
    (l : Label) (hwrite : ∀ p v, part (applyField p l v) = trim v)
    (hframe : ∀ p l' v, l' ≠ l → part (applyField p l' v) = part p) {s : Str}
    (hwritten : written e l = some (oneLine s)) (hs : Plain s) (p : Parsing) :
    part (applyFields p (fs ++ [(l', trim v)])) = s := by
  rw [hs.oneLine_eq] at hwritten
  rw [part_written hfs part l (fun _ v => trim v) hwrite hframe
    (by rw [hwritten]; rintro _ ⟨⟩; exact hs.trimmed) p, hwritten]
  exact hs.trimmed

theorem read_source (hfs : entryFields e = fs ++ [(l', v)]) (part : Parsing → Str × Str)
    (l : Label) (hwrite : ∀ p v, part (applyField p l v) = parseSourceLine v)
    (hframe : ∀ p l' v, l' ≠ l → part (applyField p l' v) = part p) {path claim : Str}
    (hwritten : written e l = some (oneLine path ++ " says ".toList ++ oneLine claim))
    (hpath : Plain path) (hclaim : Plain claim) (hne : path ≠ [] ∧ claim ≠ []) (p : Parsing) :
    part (applyFields p (fs ++ [(l', trim v)])) = parseSourceLine (path ++ saysMark ++ claim) := by
  rw [hpath.oneLine_eq, hclaim.oneLine_eq] at hwritten
  rw [part_written hfs part l (fun _ v => parseSourceLine v) hwrite hframe
    (by
      rw [hwritten]
      rintro _ ⟨⟩
      exact trim_between hpath.trimmed hne.1 hclaim.trimmed hne.2) p, hwritten]
  rfl

theorem PlainEntry.resolution_plain (h : PlainEntry e) {r : TensionResolution}
    (hr : e.resolution = some r) : ∀ s ∈ r.texts, Plain s := by
  intro s hs
  refine h.plain s (List.mem_append_right _ ?_)
  rw [hr]
  exact hs

theorem written_references (h : PlainEntry e) (hwell : WellFormed e) :
    written e .references
      = (e.resolution.bind (·.references)).map (", ".toList).intercalate := by
  change (e.resolution.bind fun r => ((r.references.filter (· ≠ [])).map
    (", ".toList).intercalate).map oneLine) = _
  cases hr : e.resolution with
  | none => rfl
  | some r =>
      rw [Option.bind_some, Option.bind_some]
      cases hrs : r.references with
      | none => rfl
      | some refs =>
          have hne : refs ≠ [] := by
            rintro rfl
            exact (hwell.references r hr).1 hrs
          have hjoined : oneLine ((", ".toList).intercalate refs)
              = (", ".toList).intercalate refs := by
            refine oneLine_of_flat fun c hc => ?_
            rcases mem_of_mem_intercalate hc with hc | ⟨ref, href, hc⟩
            · exact forall_mem_of_all (P := fun c => isTerminator c = false) (by decide) c hc
            · refine (h.resolution_plain hr ref ?_).flat c hc
              simp [TensionResolution.texts, hrs, href]
          rw [Option.filter_some_pos (by simpa using hne), Option.map_some, Option.map_some,
            hjoined]

theorem references_read (h : PlainEntry e) (hwell : WellFormed e)
    (hfs : entryFields e = fs ++ [(l', v)]) (p : Parsing) (hp : p.references = none) :
    (applyFields p (fs ++ [(l', trim v)])).references = e.resolution.bind (·.references) := by
  have hwritten := written_references h hwell
  have hall : ∀ refs ∈ e.resolution.bind (·.references), refs ≠ [] ∧ [] ∉ refs
      ∧ ∀ ref ∈ refs, trim ref = ref ∧ ',' ∉ ref := by
    intro refs hrefs
    obtain ⟨r, hr, hrs⟩ := Option.bind_eq_some_iff.mp hrefs
    obtain ⟨hne, hfull⟩ := hwell.references r hr
    refine ⟨?_, hfull refs hrs, fun ref href => ⟨?_, h.commas r hr refs hrs ref href⟩⟩
    · rintro rfl
      exact hne hrs
    · refine (h.resolution_plain hr ref ?_).trimmed
      simp [TensionResolution.texts, hrs, href]
  rw [part_written hfs (·.references) .references (fun _ v => some (parseReferences v))
    (fun _ _ => rfl) (fun p l' v h => by cases l' <;> first | rfl | exact absurd rfl h)
    ?_ p, hwritten, hp]
  · cases hrefs : e.resolution.bind (·.references) with
    | none => rfl
    | some refs =>
        obtain ⟨hne, hfull, href⟩ := hall refs hrefs
        exact congrArg some (parseReferences_intercalate hne href hfull)
  · intro w hw
    rw [hwritten] at hw
    obtain ⟨refs, hrefs, rfl⟩ := Option.map_eq_some_iff.mp hw
    obtain ⟨-, hfull, href⟩ := hall refs hrefs
    exact trim_intercalate (fun ref hr => (href ref hr).1) hfull

theorem kinds_read (hfs : entryFields e = fs ++ [(l', v)]) (p : Parsing)
    (hkind : p.entry.kind = .unspecified) (hrk : p.resolutionKind = none) :
    (applyFields p (fs ++ [(l', trim v)])).entry.kind = e.kind
      ∧ (applyFields p (fs ++ [(l', trim v)])).resolutionKind = e.resolution.map (·.kind) := by
  constructor
  · rw [part_read hfs (·.entry.kind) .kind (fun b v => (TensionKind.ofText (trim v)).getD b)
      (fun _ _ => rfl) (fun p l' v h => by cases l' <;> first | rfl | exact absurd rfl h)
      (fun _ v => by rw [trim_trim]) p, hkind]
    unfold written
    by_cases hk : e.kind = .unspecified
    · rw [if_pos hk, hk]
      rfl
    · rw [if_neg hk]
      simp only [Option.map_some, Option.getD_some, TensionKind.ofText_text]
  · rw [part_read hfs (·.resolutionKind) .resolutionKind
      (fun b v => (ResolutionKind.ofText (trim v)).or b)
      (fun _ _ => rfl) (fun p l' v h => by cases l' <;> first | rfl | exact absurd rfl h)
      (fun _ v => by rw [trim_trim]) p, hrk]
    unfold written
    cases e.resolution with
    | none => rfl
    | some r => simp [ResolutionKind.ofText_text]

theorem nonEmpty_of_ne {u : Option Str} (h : u ≠ some []) : nonEmpty u = u := by
  cases u with
  | none => rfl
  | some s => exact Option.filter_some_pos (by simpa using h)

theorem written_rationale (hwell : WellFormed e) :
    written e .rationale = (e.resolution.bind (·.rationale)).map oneLine := by
  change (e.resolution.bind fun r => (nonEmpty r.rationale).map oneLine) = _
  cases hr : e.resolution with
  | none => rfl
  | some r =>
      rw [Option.bind_some, Option.bind_some, nonEmpty_of_ne (hwell.rationale r hr)]

theorem Parsing.finish_sources (q : Parsing) :
    q.finish.sourceA = q.entry.sourceA ∧ q.finish.claimA = q.entry.claimA
      ∧ q.finish.sourceB = q.entry.sourceB ∧ q.finish.claimB = q.entry.claimB := by
  unfold Parsing.finish
  split <;> exact ⟨rfl, rfl, rfl, rfl⟩

theorem finish_of_fields (h : PlainEntry e) (hwell : WellFormed e) :
    Parsing.finish
      { entry := { e with resolved := false, resolution := none }
        resolvedAt := e.resolution.map (·.resolvedAt)
        resolvedBy := e.resolution.map (·.resolvedBy)
        resolutionKind := e.resolution.map (·.kind)
        rationale := e.resolution.bind (·.rationale)
        references := e.resolution.bind (·.references) } = e := by
  have hresolved := h.resolved
  cases hr : e.resolution with
  | none =>
      rw [hr] at hresolved
      exact TensionEntry.ext rfl rfl rfl rfl rfl rfl rfl rfl rfl rfl rfl hresolved.symm hr.symm
        rfl rfl rfl rfl
  | some r =>
      have hrefs : r.references.filter (· ≠ []) = r.references := by
        cases hrs : r.references with
        | none => rfl
        | some refs =>
            refine Option.filter_some_pos (decide_eq_true ?_)
            rintro rfl
            exact (hwell.references r hr).1 hrs
      rw [hr] at hresolved
      refine TensionEntry.ext rfl rfl rfl rfl rfl rfl rfl rfl rfl rfl rfl hresolved.symm ?_
        rfl rfl rfl rfl
      rw [hr]
      refine congrArg some (TensionResolution.ext rfl rfl rfl ?_ hrefs)
      exact nonEmpty_of_ne (hwell.rationale r hr)

theorem fields_read (h : PlainEntry e) (hwell : WellFormed e)
    (hA : ¬ saysMark <:+: e.sourceA ++ [' ']) (hB : ¬ saysMark <:+: e.sourceB ++ [' '])
    (hfs : entryFields e = fs ++ [(l', v)]) {p : Parsing}
    (hp : p = { entry := blankEntry e.date e.title }) :
    applyFields p (fs ++ [(l', trim v)]) =
      { entry := { e with resolved := false, resolution := none }
        resolvedAt := e.resolution.map (·.resolvedAt)
        resolvedBy := e.resolution.map (·.resolvedBy)
        resolutionKind := e.resolution.map (·.kind)
        rationale := e.resolution.bind (·.rationale)
        references := e.resolution.bind (·.references) } := by
  have hplain : ∀ s ∈ e.texts, Plain s := h.plain
  have hoption : ∀ u ∈ [e.id, e.positionA, e.positionB, e.readerA, e.readerB, e.decidedByPrincipal],
      ∀ s ∈ u, Plain s := by
    intro u hu s hs
    refine hplain s (List.mem_append_left _ (List.mem_append_right _ ?_))
    exact List.mem_flatMap.mpr ⟨u, hu, Option.mem_toList.mpr hs⟩
  have hresolution : ∀ s, (∃ r, e.resolution = some r ∧ s ∈ r.texts) → Plain s :=
    fun s ⟨r, hr, hs⟩ => h.resolution_plain hr s hs
  have hsourceA : (e.sourceA, e.claimA) = _ := ((parseSourceLine_iff
    (hplain e.sourceA (by simp [TensionEntry.texts])).trimmed
    (hplain e.claimA (by simp [TensionEntry.texts])).trimmed).mpr hA).symm
  have hsourceB : (e.sourceB, e.claimB) = _ := ((parseSourceLine_iff
    (hplain e.sourceB (by simp [TensionEntry.texts])).trimmed
    (hplain e.claimB (by simp [TensionEntry.texts])).trimmed).mpr hB).symm
  rw [← read_source hfs (fun p => (p.entry.sourceA, p.entry.claimA)) .sourceA
    (fun _ _ => rfl) (fun p l' v h => by cases l' <;> first | rfl | exact absurd rfl h) rfl
    (hplain _ (by simp [TensionEntry.texts])) (hplain _ (by simp [TensionEntry.texts])) h.sourceA p]
    at hsourceA
  rw [← read_source hfs (fun p => (p.entry.sourceB, p.entry.claimB)) .sourceB
    (fun _ _ => rfl) (fun p l' v h => by cases l' <;> first | rfl | exact absurd rfl h) rfl
    (hplain _ (by simp [TensionEntry.texts])) (hplain _ (by simp [TensionEntry.texts])) h.sourceB p]
    at hsourceB
  obtain ⟨hdate, htitle, hres, hresn⟩ := header_read p (fs ++ [(l', trim v)])
  obtain ⟨hkind, hrk⟩ := kinds_read hfs p (by rw [hp]; rfl) (by rw [hp])
  have hoption' := @read_option e fs l' v hfs
  have hid := hoption' (·.entry.id) .id (fun _ _ => rfl)
    (fun p l' v h => by cases l' <;> first | rfl | exact absurd rfl h) rfl
    (hoption e.id (by simp)) p (by rw [hp]; rfl)
  have hposA := hoption' (·.entry.positionA) .positionA (fun _ _ => rfl)
    (fun p l' v h => by cases l' <;> first | rfl | exact absurd rfl h) rfl
    (hoption e.positionA (by simp)) p (by rw [hp]; rfl)
  have hposB := hoption' (·.entry.positionB) .positionB (fun _ _ => rfl)
    (fun p l' v h => by cases l' <;> first | rfl | exact absurd rfl h) rfl
    (hoption e.positionB (by simp)) p (by rw [hp]; rfl)
  have hreadA := hoption' (·.entry.readerA) .readerA (fun _ _ => rfl)
    (fun p l' v h => by cases l' <;> first | rfl | exact absurd rfl h) rfl
    (hoption e.readerA (by simp)) p (by rw [hp]; rfl)
  have hreadB := hoption' (·.entry.readerB) .readerB (fun _ _ => rfl)
    (fun p l' v h => by cases l' <;> first | rfl | exact absurd rfl h) rfl
    (hoption e.readerB (by simp)) p (by rw [hp]; rfl)
  have hdecided := hoption' (·.entry.decidedByPrincipal) .decidedByPrincipal (fun _ _ => rfl)
    (fun p l' v h => by cases l' <;> first | rfl | exact absurd rfl h)
    (by rw [written, nonEmpty_of_ne h.decided])
    (hoption e.decidedByPrincipal (by simp)) p (by rw [hp]; rfl)
  have hstatus := read_text hfs (·.entry.status) .status (fun _ _ => rfl)
    (fun p l' v h => by cases l' <;> first | rfl | exact absurd rfl h) rfl
    (hplain e.status (by simp [TensionEntry.texts])) p
  have hlogged := read_text hfs (·.entry.loggedBy) .loggedBy (fun _ _ => rfl)
    (fun p l' v h => by cases l' <;> first | rfl | exact absurd rfl h) rfl
    (hplain e.loggedBy (by simp [TensionEntry.texts])) p
  have hat := @read_option e fs l' v hfs (·.resolvedAt) .resolvedAt (fun _ _ => rfl)
    (fun p l' v h => by cases l' <;> first | rfl | exact absurd rfl h)
    (e.resolution.map (·.resolvedAt)) (by rw [written, Option.map_map]; rfl)
    (fun s hs => by
      obtain ⟨r, hr, rfl⟩ := Option.map_eq_some_iff.mp hs
      exact hresolution _ ⟨r, hr, by simp [TensionResolution.texts]⟩) p (by rw [hp])
  have hby := @read_option e fs l' v hfs (·.resolvedBy) .resolvedBy (fun _ _ => rfl)
    (fun p l' v h => by cases l' <;> first | rfl | exact absurd rfl h)
    (e.resolution.map (·.resolvedBy)) (by rw [written, Option.map_map]; rfl)
    (fun s hs => by
      obtain ⟨r, hr, rfl⟩ := Option.map_eq_some_iff.mp hs
      exact hresolution _ ⟨r, hr, by simp [TensionResolution.texts]⟩) p (by rw [hp])
  have hrationale := @read_option e fs l' v hfs (·.rationale) .rationale (fun _ _ => rfl)
    (fun p l' v h => by cases l' <;> first | rfl | exact absurd rfl h)
    (e.resolution.bind (·.rationale)) (written_rationale hwell)
    (fun s hs => by
      obtain ⟨r, hr, hs⟩ := Option.bind_eq_some_iff.mp hs
      exact hresolution _ ⟨r, hr, by simp [TensionResolution.texts, hs]⟩) p (by rw [hp])
  have hrefs := references_read h hwell hfs p (by rw [hp])
  exact Parsing.ext (TensionEntry.ext hid (hdate.trans (by rw [hp]; rfl))
    (htitle.trans (by rw [hp]; exact (hplain e.title (by simp [TensionEntry.texts])).trimmed))
    hkind (Prod.mk.inj hsourceA).1.symm (Prod.mk.inj hsourceA).2.symm
    (Prod.mk.inj hsourceB).1.symm (Prod.mk.inj hsourceB).2.symm hstatus hlogged hdecided
    (hres.trans (by rw [hp]; rfl)) (hresn.trans (by rw [hp]; rfl)) hposA hposB hreadA hreadB)
    hat hby hrk hrationale hrefs

end Reading

/-! ## Round trips -/

/-- **Which plain entries come back as they are**: those with a date, with nothing empty in
    the resolution, and with paths that do not go on with the mark. -/
theorem roundTrips_iff {e : TensionEntry} (h : PlainEntry e) :
    parseBlock (trim (renderEntry e)) = some e ↔ WellFormed e
      ∧ ¬ saysMark <:+: e.sourceA ++ [' '] ∧ ¬ saysMark <:+: e.sourceB ++ [' '] := by
  obtain ⟨fs, l, v, hfs⟩ := entryFields_last e
  have hplain : ∀ s ∈ e.texts, Plain s := h.plain
  have htitle : Plain e.title := hplain _ (by simp [TensionEntry.texts])
  have hread : isDate e.date = true → parseBlock (trim (renderEntry e)) = some (applyFields
      { entry := blankEntry e.date e.title } (fs ++ [(l, trim v)])).finish := by
    intro hdate
    have hblock := parseBlock_eq hdate (by rw [htitle.trimmed]; exact h.title) (w := []) (by simp)
      hfs
    rw [List.append_nil, htitle.oneLine_eq, trimStart_of_trim htitle.trimmed] at hblock
    exact hblock
  constructor
  · intro hback
    have hwell := parseBlock_wellFormed hback
    have hentry := Option.some.inj ((hread hwell.date).symm.trans hback)
    have hsourceA := read_source hfs (fun p => (p.entry.sourceA, p.entry.claimA)) .sourceA
      (fun _ _ => rfl) (fun p l' v h => by cases l' <;> first | rfl | exact absurd rfl h) rfl
      (hplain _ (by simp [TensionEntry.texts])) (hplain _ (by simp [TensionEntry.texts])) h.sourceA
      { entry := blankEntry e.date e.title }
    have hsourceB := read_source hfs (fun p => (p.entry.sourceB, p.entry.claimB)) .sourceB
      (fun _ _ => rfl) (fun p l' v h => by cases l' <;> first | rfl | exact absurd rfl h) rfl
      (hplain _ (by simp [TensionEntry.texts])) (hplain _ (by simp [TensionEntry.texts])) h.sourceB
      { entry := blankEntry e.date e.title }
    obtain ⟨hA, hA', hB, hB'⟩ := Parsing.finish_sources (applyFields
      { entry := blankEntry e.date e.title } (fs ++ [(l, trim v)]))
    rw [← hA, ← hA', hentry] at hsourceA
    rw [← hB, ← hB', hentry] at hsourceB
    refine ⟨hwell, ?_, ?_⟩
    · exact (parseSourceLine_iff (hplain _ (by simp [TensionEntry.texts])).trimmed
        (hplain _ (by simp [TensionEntry.texts])).trimmed).mp hsourceA.symm
    · exact (parseSourceLine_iff (hplain _ (by simp [TensionEntry.texts])).trimmed
        (hplain _ (by simp [TensionEntry.texts])).trimmed).mp hsourceB.symm
  · rintro ⟨hwell, hA, hB⟩
    rw [hread hwell.date, fields_read h hwell hA hB hfs rfl]
    exact congrArg some (finish_of_fields h hwell)

def TensionEntry.withResolution (e : TensionEntry) (r : Option TensionResolution) : TensionEntry :=
  { e with resolved := r.isSome, resolution := r }

theorem trimmed_ne (u : Option Str) : trimmed u ≠ some [] := by
  intro h
  have hmem : ([] : Str) ∈ (u.map trim).filter (· ≠ []) := h
  simp at hmem

/-- **The entries of `addTension` that come back as they are**, with any resolution or none.
    Their texts are plain; a path may be any. -/
theorem addTension_roundTrips_iff {file : Option Str} {today : Str} {input : TensionInput}
    {e : TensionEntry} {text : Str} (hadd : addTension file today input = .ok (e, text))
    {resolution : Option TensionResolution}
    (hplain : ∀ s ∈ (e.withResolution resolution).texts, Plain s)
    (hcommas : ∀ r ∈ resolution, ∀ refs ∈ r.references, ∀ ref ∈ refs, ',' ∉ ref) :
    parseBlock (trim (renderEntry (e.withResolution resolution)))
        = some (e.withResolution resolution) ↔
      WellFormed (e.withResolution resolution)
        ∧ ¬ saysMark <:+: e.sourceA ++ [' '] ∧ ¬ saysMark <:+: e.sourceB ++ [' '] := by
  unfold addTension at hadd
  split at hadd
  case h_1 => cases hadd
  case h_2 kind hcheck =>
    obtain ⟨rfl, -⟩ := Prod.mk.inj (Except.ok.inj hadd)
    have hrequired : ∀ f ∈ requiredFields input, trim f.2 ≠ [] := (checkInput_ok hcheck).1
    exact roundTrips_iff
      { plain := hplain
        title := hrequired ("title", input.title) (by simp [requiredFields])
        sourceA := ⟨hrequired ("sourceA", input.sourceA) (by simp [requiredFields]),
          hrequired ("claimA", input.claimA) (by simp [requiredFields])⟩
        sourceB := ⟨hrequired ("sourceB", input.sourceB) (by simp [requiredFields]),
          hrequired ("claimB", input.claimB) (by simp [requiredFields])⟩
        decided := trimmed_ne input.decidedByPrincipal
        resolved := rfl
        commas := hcommas }

def disagreement (pathA : String) : TensionInput where
  title := "Two prices".toList
  kind := "factual".toList
  sourceA := pathA.toList
  claimA := "ten".toList
  sourceB := "b.md".toList
  claimB := "twelve".toList
  loggedBy := "ada".toList

def settled : TensionResolution where
  resolvedAt := "2026-01-02".toList
  resolvedBy := "ada".toList
  kind := .corrected
  references := some ["a.md".toList, "c.md".toList]

def plainEntry : TensionEntry :=
  newEntry "tension-001".toList "2026-01-01".toList .factual (disagreement "a.md")

/-- It comes back, resolved. -/
theorem addTension_roundTrips_iff_plain :
    parseBlock (trim (renderEntry (plainEntry.withResolution (some settled))))
      = some (plainEntry.withResolution (some settled)) := by
  have hadd : addTension none "2026-01-01".toList (disagreement "a.md")
      = .ok (plainEntry, '\n' :: renderEntry plainEntry) := rfl
  have hplain : ∀ s ∈ (plainEntry.withResolution (some settled)).texts, Plain s := by
    decide +kernel
  have hcommas : ∀ r ∈ some settled, ∀ refs ∈ r.references, ∀ ref ∈ refs, ',' ∉ ref := by
    decide +kernel
  refine (addTension_roundTrips_iff hadd hplain hcommas).mpr ⟨⟨?_, ?_, ?_⟩, ?_, ?_⟩ <;>
    decide +kernel

/-- A path that says something is cut where it does. -/
theorem path_cut_at_mark :
    ∃ e text, addTension none "2026-01-01".toList (disagreement "notes/she says no.md")
        = .ok (e, text)
      ∧ (∀ s ∈ (e.withResolution none).texts, Plain s)
      ∧ parseBlock (trim (renderEntry (e.withResolution none))) ≠ some (e.withResolution none) := by
  refine ⟨_, _, rfl, by decide +kernel, by decide +kernel⟩

end Tension
