import Daftari.Audit.DescribesProofs

/-! # Anchors — where the lines that a pin names are now

    A pin names lines of a blob.  When the file is another blob by now, the lines are
    searched in its text, as one text, and the range is counted from the line ends
    before the match and the span of the pin.

    * `inPlace_iff`: the range is that of the pinned lines exactly where the match is of
      whole lines and the pin's lines exist;
    * `preserves_iff`: **when a pin keeps what it pins.** -/

namespace Anchors

open Describes Lines

/-! ## Reading -/

/-- A code repository: the texts of the regular files in its working tree, and what
    `git hash-object` and `git cat-file blob` print. -/
structure Repo where
  file : List Char → Option (List Char)
  hashObject : List Char → Option (List Char)
  catFile : List Char → Option (List Char)

def hashObjectFile (repo : Repo) (relPath : List Char) : Option (List Char) :=
  (repo.hashObject relPath).map Text.trim

def defaultMaxBytes : Nat := 256 * 1024

def byteLength (text : List Char) : Nat := text.foldl (fun n c => n + c.utf8Size) 0

def bom : Char := Char.ofNat 0xFEFF

/-- `TextDecoder` drops a byte order mark at the start. -/
def dropBom : List Char → List Char
  | [] => []
  | c :: text => if c = bom then text else c :: text

/-- `readTextFile`: not a file over the cap, and no file with a NUL byte. -/
def readTextFile (repo : Repo) (relPath : List Char) : Option (List Char) :=
  (repo.file relPath).bind fun text =>
    if byteLength text > defaultMaxBytes then none
    else if Char.ofNat 0 ∈ text then none
    else some (dropBom text)

/-! ## Classifying -/

inductive AnchorState where
  | intact
  | moved
  | missing
deriving DecidableEq

/-- `AnchorClassification`. -/
structure Classification where
  state : AnchorState
  relocated : Option (Nat × Nat)
deriving DecidableEq

/-- `slice(start - 1, last)`: line zero counts from the end. -/
def slice {α : Type} (ls : List α) (start last : Nat) : List α :=
  (ls.take last).drop (if start = 0 then ls.length - 1 else start - 1)

/-- The pinned lines, as one text. -/
def blockOf (pinned : List Char) (start last : Nat) : List Char :=
  ['\n'].intercalate (slice (pinned.splitOn '\n') start last)

def searchBlock (repo : Repo) (relPath pinned : List Char) (start last : Nat) :
    Option Classification :=
  let block := blockOf pinned start last
  if block = [] then some ⟨.moved, none⟩
  else
    match readTextFile repo relPath with
    | none => none
    | some text =>
        match indexOf block text with
        | none => some ⟨.moved, none⟩
        | some idx =>
            let newStart := (text.take idx).count '\n' + 1
            some ⟨.intact, some (newStart, newStart + (last - start))⟩

def classifyPin (repo : Repo) (relPath : List Char) (pin : Pin) : Option Classification :=
  match repo.file relPath with
  | none => some ⟨.missing, none⟩
  | some _ =>
      match hashObjectFile repo relPath with
      | none => none
      | some current =>
          if pin.sha <+: current then some ⟨.intact, none⟩
          else
            match pin.start, pin.last with
            | some start, some last =>
                match repo.catFile pin.sha with
                | none => some ⟨.moved, none⟩
                | some pinned => searchBlock repo relPath pinned start last
            | _, _ => some ⟨.moved, none⟩

/-! ## Re-pinning -/

def anchorPinCap : Nat := 24

/-- What of the configuration is read. -/
structure Config where
  jitAnchors : Bool
  codeRepos : List Char → Option Repo

/-- Why an entry was not pinned again. -/
inductive SkipState where
  | moved
  | missing
  | null
deriving DecidableEq

structure RepinPlan where
  replacements : List (List Char × List Char)
  skipped : List (List Char × SkipState)
deriving DecidableEq

/-- What becomes of an entry. -/
inductive Outcome where
  | replaced (entry : List Char)
  | skipped (state : SkipState)
  | healthy

/-- One turn of the loop in `computeRepin`. -/
def repinEntry (repo : Repo) (parsed : Parsed) (pin : Pin) : Outcome :=
  match classifyPin repo parsed.path pin with
  | none => .skipped .null
  | some ⟨.moved, _⟩ => .skipped .moved
  | some ⟨.missing, _⟩ => .skipped .missing
  | some ⟨.intact, none⟩ => .healthy
  | some ⟨.intact, some (start, last)⟩ =>
      match hashObjectFile repo parsed.path with
      | none => .skipped .null
      | some hash => .replaced (formatPin parsed.joined start last (hash.take 12))

def candidate (cfg : Config) (raw : List Char) : Option (List Char × Outcome) :=
  let parsed := parseDescribesEntry raw []
  match parsed.pin, cfg.codeRepos parsed.repo with
  | some pin, some repo => some (raw, repinEntry repo parsed pin)
  | _, _ => none

def RepinPlan.record (plan : RepinPlan) (e : List Char × Outcome) : RepinPlan :=
  match e.2 with
  | .replaced entry => { plan with replacements := plan.replacements ++ [(e.1, entry)] }
  | .skipped state => { plan with skipped := plan.skipped ++ [(e.1, state)] }
  | .healthy => plan

/-- How the document's `describes` may not be had. -/
inductive DocError where
  | invalidPath (message : String)
  | unreadable (message : String)
  | unparsable (message : String)

def DocError.text : DocError → String
  | .invalidPath message => "computeRepin: invalid path: " ++ message
  | .unreadable message => "computeRepin: cannot read doc: " ++ message
  | .unparsable message => "computeRepin: cannot parse doc: " ++ message

/-- `computeRepin`, over the loaded configuration and the document's `describes`. -/
def computeRepin (loaded : Except String Config) (doc : Except DocError (List (List Char))) :
    Except String RepinPlan :=
  match loaded with
  | .error e => .error ("computeRepin: config load failed: " ++ e)
  | .ok cfg =>
      if cfg.jitAnchors = false then .ok ⟨[], []⟩
      else
        match doc with
        | .error e => .error e.text
        | .ok describes =>
            .ok (((describes.filterMap (candidate cfg)).take anchorPinCap).foldl RepinPlan.record
              ⟨[], []⟩)

/-! ## What is asked of a pin -/

def linesOf (text : List Char) : List (List Char) := text.splitOn '\n'

/-- A pinned entry keeps what it pins: where it is said to have moved, its lines are; where
    they still are, it is intact; and the entry that is written for it parses back to
    the same binding with that range and is plainly intact. -/
structure Preserves (repo : Repo) (raw : List Char) (pin : Pin) (start last : Nat)
    (pinned current : List Char) : Prop where
  relocated : ∀ a b,
    classifyPin repo (parseDescribesEntry raw []).path pin = some ⟨.intact, some (a, b)⟩ →
      ∃ bs, linesAt (linesOf pinned) start last = some bs ∧ linesAt (linesOf current) a b = some bs
  kept : ∀ bs, linesAt (linesOf pinned) start last = some bs → bs <:+: linesOf current →
    ∃ r, classifyPin repo (parseDescribesEntry raw []).path pin = some ⟨.intact, r⟩
  repinned : ∀ a b,
    classifyPin repo (parseDescribesEntry raw []).path pin = some ⟨.intact, some (a, b)⟩ →
      ∀ cfg describes plan, cfg.codeRepos (parseDescribesEntry raw []).repo = some repo →
        computeRepin (.ok cfg) (.ok describes) = .ok plan →
        ∀ entry, (raw, entry) ∈ plan.replacements →
          ∃ sha, parseDescribesEntry entry []
              = { parseDescribesEntry raw [] with pin := some ⟨some a, some b, sha⟩ }
            ∧ classifyPin repo (parseDescribesEntry raw []).path ⟨some a, some b, sha⟩
              = some ⟨.intact, none⟩

/-- The first occurrence of the block is one of whole lines, of lines that the pinned
    text has, and not on a line that begins with a byte order mark. -/
structure InPlace (pinned current text : List Char) (start last i : Nat) : Prop where
  exist : 1 ≤ start ∧ last ≤ (linesOf pinned).length
  starts : StartsLine '\n' (text.take i)
  ends : EndsLine '\n' (text.drop (i + (blockOf pinned start last).length))
  unmarked : text ≠ current → '\n' ∈ text.take i

/-! ## Where the match is -/

section Place

variable {pinned current : List Char} {start last i : Nat}

theorem dropBom_cases (current : List Char) :
    dropBom current = current ∨ current = bom :: dropBom current := by
  cases current with
  | nil => exact Or.inl rfl
  | cons c text =>
      by_cases hc : c = bom
      · exact Or.inr (by rw [hc, dropBom, if_pos rfl])
      · exact Or.inl (by rw [dropBom, if_neg hc])

variable {bs : List (List Char)}

theorem blockOf_eq (h : linesAt (linesOf pinned) start last = some bs) :
    blockOf pinned start last = ['\n'].intercalate bs := by
  unfold linesAt at h
  split at h
  case isFalse => cases h
  case isTrue hrange =>
    obtain rfl := Option.some.inj h
    unfold blockOf slice
    rw [if_neg (by omega)]
    rfl

theorem exists_linesAt (hle : start ≤ last) (h : 1 ≤ start ∧ last ≤ (linesOf pinned).length) :
    ∃ bs, linesAt (linesOf pinned) start last = some bs := by
  unfold linesAt
  rw [if_pos ⟨h.1, hle, h.2⟩]
  exact ⟨_, rfl⟩

variable {qs : List (List Char)} {text : List Char}

theorem newline_not_mem {ps : List (List Char)} (h : linesOf text = ps ++ bs ++ qs) :
    ∀ l ∈ bs, '\n' ∉ l :=
  fun l hl => (of_mem_splitOn (a := text) (by
    change l ∈ linesOf text
    rw [h]
    exact List.mem_append_left _ (List.mem_append_right _ hl))).1

theorem linesOf_bom {first : List Char} {rest : List (List Char)}
    (h : linesOf text = first :: rest) : linesOf (bom :: text) = (bom :: first) :: rest := by
  unfold linesOf at h ⊢
  rw [List.splitOn_cons_eq_if_modifyHead, if_neg (by decide), h]
  rfl

theorem newline_mem_of_marked {first : List Char} {rest : List (List Char)}
    (hlines : linesOf text = first :: rest) (hbs : linesOf (bom :: text) = bs ++ qs)
    (hne : bs ≠ []) (hpre : ['\n'].intercalate bs <+: text.drop i) : '\n' ∈ text.take i := by
  by_contra hnone
  rw [linesOf_bom hlines] at hbs
  cases bs with
  | nil => exact hne rfl
  | cons l bs =>
      obtain ⟨rfl, -⟩ := List.cons.inj hbs
      have hline : '\n' ∉ bom :: first := by
        refine (of_mem_splitOn (a := bom :: text) ?_).1
        change _ ∈ linesOf (bom :: text)
        rw [linesOf_bom hlines]
        exact List.mem_cons_self
      obtain ⟨tail, htail⟩ : ∃ tail, ['\n'].intercalate ((bom :: first) :: bs)
          = (bom :: first) ++ tail := by
        cases bs with
        | nil => exact ⟨[], by rw [List.intercalate_singleton, List.append_nil]⟩
        | cons l' bs =>
            exact ⟨_, (List.intercalate_cons_cons).trans (List.append_assoc _ _ _)⟩
      obtain ⟨after, hafter⟩ := hpre
      have htext : text = (text.take i ++ (bom :: first)) ++ (tail ++ after) := by
        rw [List.append_assoc, ← List.append_assoc (bom :: first), ← htail, hafter,
          List.take_append_drop]
      have hplain : '\n' ∉ text.take i ++ (bom :: first) := by
        rw [List.mem_append]
        exact not_or.mpr ⟨hnone, hline⟩
      obtain ⟨first', rest', hsplit, hprefix⟩ : ∃ first' rest',
          (text.take i ++ (bom :: first) ++ (tail ++ after)).splitOn '\n' = first' :: rest'
            ∧ text.take i ++ (bom :: first) <+: first' := prefix_first_line hplain
      rw [← htext] at hsplit
      obtain ⟨rfl, -⟩ := List.cons.inj (hlines.symm.trans hsplit)
      have hlen := hprefix.length_le
      rw [List.length_append, List.length_cons] at hlen
      omega

theorem linesOf_dropBom {ps : List (List Char)} (h : linesOf current = ps ++ bs ++ qs)
    (hmark : dropBom current ≠ current → ps ≠ []) :
    ∃ ps' qs', linesOf (dropBom current) = ps' ++ bs ++ qs' ∧ ps'.length = ps.length := by
  rcases dropBom_cases current with hsame | hbom
  · rw [hsame]
    exact ⟨ps, qs, h, rfl⟩
  · have hne : dropBom current ≠ current := by
      intro heq
      have hlen := congrArg List.length hbom
      rw [List.length_cons, heq] at hlen
      omega
    cases hlines : linesOf (dropBom current) with
    | nil => exact absurd hlines (List.splitOn_ne_nil _ _)
    | cons first rest =>
        rw [hbom, linesOf_bom hlines] at h
        cases ps with
        | nil => exact absurd rfl (hmark hne)
        | cons l ps =>
            obtain ⟨-, hrest⟩ := List.cons.inj h
            exact ⟨first :: ps, qs, by rw [hrest]; rfl, rfl⟩

/-- **A match whose range holds the pinned lines is a match of whole lines.** -/
theorem inPlace_of_linesAt {b : Nat}
    (hi : indexOf (blockOf pinned start last) (dropBom current) = some i)
    (hbs : linesAt (linesOf pinned) start last = some bs)
    (hat : linesAt (linesOf current) (((dropBom current).take i).count '\n' + 1) b = some bs) :
    InPlace pinned current (dropBom current) start last i := by
  have hexist : 1 ≤ start ∧ last ≤ (linesOf pinned).length := by
    unfold linesAt at hbs
    split at hbs
    case isTrue hrange => exact ⟨hrange.1, hrange.2.2⟩
    case isFalse => cases hbs
  have hblock := blockOf_eq hbs
  obtain ⟨hpre, -, hfirst⟩ := indexOf_eq_some hi
  obtain ⟨ps, qs, hcurrent, ha, -, hne⟩ := linesAt_eq_some.mp hat
  have hcount : ps.length = ((dropBom current).take i).count '\n' := by omega
  have hmark : dropBom current ≠ current → '\n' ∈ (dropBom current).take i := by
    intro hmarked
    have hbom := (dropBom_cases current).resolve_left hmarked
    by_contra hnone
    have hnil : ps = [] := by
      rw [← List.length_eq_zero_iff, hcount]
      exact List.count_eq_zero.mpr hnone
    cases hlines : linesOf (dropBom current) with
    | nil => exact absurd hlines (List.splitOn_ne_nil _ _)
    | cons first rest =>
        rw [hnil, List.nil_append] at hcurrent
        rw [hbom] at hcurrent
        refine hnone (newline_mem_of_marked hlines hcurrent hne ?_)
        rw [← hblock]
        exact hpre
  obtain ⟨ps', qs', hlines, hlen⟩ := linesOf_dropBom hcurrent fun hmarked hnil => by
    have hpos := List.count_pos_iff.mpr (hmark hmarked)
    rw [hnil, List.length_nil] at hcount
    omega
  obtain ⟨before, after, htext, hstarts, hends, hbefore⟩ := exists_wholeLines hlines hne
  rw [← hblock] at htext
  have hle : i ≤ before.length := by
    by_contra hlt
    refine hfirst before.length (by omega) ?_
    rw [htext, List.append_assoc, List.drop_left]
    exact List.prefix_append _ _
  have hwhole : i = before.length := by
    by_contra hother
    -- an earlier match stands after fewer line ends
    rcases hstarts with rfl | hlast
    · exact hother (Nat.le_zero.mp hle)
    · obtain ⟨w, rfl⟩ := List.getLast?_eq_some_iff.mp hlast
      have hi' : i ≤ w.length := by
        rw [List.length_append, List.length_singleton] at hle hother
        omega
      have htake : (dropBom current).take i = w.take i := by
        rw [htext, List.append_assoc, List.append_assoc, List.take_append_of_le_length hi']
      have hfew := (List.take_sublist i w).count_le '\n'
      rw [List.count_append, List.count_singleton_self, hlen, hcount, htake] at hbefore
      omega
  subst hwhole
  have htake : (dropBom current).take before.length = before := by
    rw [htext, List.append_assoc, List.take_left]
  have hdrop : (dropBom current).drop (before.length + (blockOf pinned start last).length)
      = after := by
    rw [htext, ← List.length_append, List.drop_left]
  exact ⟨hexist, by rwa [htake], by rwa [hdrop], hmark⟩

/-- **A match of whole lines has the pinned lines in its range.** -/
theorem linesAt_of_inPlace (hle : start ≤ last)
    (hi : indexOf (blockOf pinned start last) (dropBom current) = some i)
    (h : InPlace pinned current (dropBom current) start last i) :
    ∃ bs, linesAt (linesOf pinned) start last = some bs
      ∧ linesAt (linesOf current) (((dropBom current).take i).count '\n' + 1)
        (((dropBom current).take i).count '\n' + 1 + (last - start)) = some bs := by
  obtain ⟨bs, hbs⟩ := exists_linesAt hle h.exist
  refine ⟨bs, hbs, linesAt_eq_some.mpr ?_⟩
  obtain ⟨ps₀, qs₀, hpinned, hstart, hlast, hne⟩ := linesAt_eq_some.mp hbs
  have hsplit : (blockOf pinned start last).splitOn '\n' = bs := by
    rw [blockOf_eq hbs]
    exact splitOn_join hne (newline_not_mem hpinned)
  have htext := split_of_indexOf hi
  obtain ⟨ps, qs, hlines, hcount⟩ : ∃ ps qs, ((dropBom current).take i ++ blockOf pinned start last
      ++ (dropBom current).drop (i + (blockOf pinned start last).length)).splitOn '\n'
        = ps ++ (blockOf pinned start last).splitOn '\n' ++ qs
      ∧ ps.length = ((dropBom current).take i).count '\n' :=
    splitOn_of_wholeLines h.starts h.ends
  rw [← htext, hsplit] at hlines
  rcases dropBom_cases current with hsame | hbom
  · rw [hsame] at hlines
    exact ⟨ps, qs, hlines, by omega, by omega, hne⟩
  · have hpos := List.count_pos_iff.mpr (h.unmarked fun heq => by
      have hlen := congrArg List.length hbom
      rw [List.length_cons, heq] at hlen
      omega)
    cases ps with
    | nil =>
        rw [List.length_nil] at hcount
        omega
    | cons first ps =>
        refine ⟨(bom :: first) :: ps, qs, ?_, ?_, ?_, hne⟩
        · rw [hbom]
          exact linesOf_bom hlines
        · rw [← hcount]
          rfl
        · rw [← hcount]
          simp only [List.length_cons]
          omega

end Place

/-! ## A pin and its file -/

/-- A well-formed pin of lines, with the text of its blob, and the file it is on; git
    prints hashes in lower-case hex. -/
structure Scene (repo : Repo) (raw : List Char) (start last : Nat)
    (sha pinned current blobId : List Char) : Prop where
  pin : (parseDescribesEntry raw []).pin = some ⟨some start, some last, sha⟩
  file : repo.file (parseDescribesEntry raw []).path = some current
  blob : repo.catFile sha = some pinned
  hash : hashObjectFile repo (parseDescribesEntry raw []).path = some blobId
  hex : 12 ≤ blobId.length ∧ ∀ c ∈ blobId, isHex c = true

/-- The blob has changed, and the search finds what the pin means: a match is one of
    whole lines that the blob has, and on an entry whose parts spell it; and where the
    file has the lines, they are not one empty line, the file can be read, and they
    are not found at a byte order mark alone. -/
structure Locatable (repo : Repo) (raw : List Char) (start last : Nat)
    (pinned current : List Char) : Prop where
  inPlace : ∀ text i, readTextFile repo (parseDescribesEntry raw []).path = some text →
    blockOf pinned start last ≠ [] → indexOf (blockOf pinned start last) text = some i →
      InPlace pinned current text start last i ∧ SpellsBack (parseDescribesEntry raw [])
  found : ∀ bs, linesAt (linesOf pinned) start last = some bs → bs <:+: linesOf current →
    blockOf pinned start last ≠ []
      ∧ ∃ text, readTextFile repo (parseDescribesEntry raw []).path = some text
        ∧ blockOf pinned start last <:+: text

section Scenes

variable {repo : Repo} {raw sha pinned current blobId : List Char} {start last : Nat}

theorem Scene.le (h : Scene repo raw start last sha pinned current blobId) : start ≤ last :=
  (parse_of_pin h.pin).2 start rfl last rfl

theorem Scene.read (h : Scene repo raw start last sha pinned current blobId) {text : List Char}
    (hread : readTextFile repo (parseDescribesEntry raw []).path = some text) :
    text = dropBom current := by
  unfold readTextFile at hread
  rw [h.file, Option.bind_some] at hread
  split at hread
  · cases hread
  split at hread
  · cases hread
  · exact (Option.some.inj hread).symm

theorem Scene.classify (h : Scene repo raw start last sha pinned current blobId) :
    classifyPin repo (parseDescribesEntry raw []).path ⟨some start, some last, sha⟩
      = if sha <+: blobId then some ⟨.intact, none⟩
        else searchBlock repo (parseDescribesEntry raw []).path pinned start last := by
  unfold classifyPin
  simp only [h.file, h.hash, h.blob]

theorem Scene.relocated_iff (h : Scene repo raw start last sha pinned current blobId) {a b : Nat} :
    classifyPin repo (parseDescribesEntry raw []).path ⟨some start, some last, sha⟩
        = some ⟨.intact, some (a, b)⟩
      ↔ ¬ sha <+: blobId ∧ blockOf pinned start last ≠ [] ∧ ∃ text i,
        readTextFile repo (parseDescribesEntry raw []).path = some text
          ∧ indexOf (blockOf pinned start last) text = some i ∧ a = (text.take i).count '\n' + 1
          ∧ b = (text.take i).count '\n' + 1 + (last - start) := by
  rw [h.classify]
  unfold searchBlock
  by_cases hsame : sha <+: blobId
  · simp [hsame]
  by_cases hblock : blockOf pinned start last = []
  · simp [hsame, hblock]
  cases hread : readTextFile repo (parseDescribesEntry raw []).path with
  | none => simp [hsame, hblock]
  | some text =>
      cases hi : indexOf (blockOf pinned start last) text with
      | none => simp [hsame, hblock, hi]
      | some i => simp [hsame, hblock, hi, eq_comm]

theorem Scene.intact_iff (h : Scene repo raw start last sha pinned current blobId) :
    (∃ r, classifyPin repo (parseDescribesEntry raw []).path ⟨some start, some last, sha⟩
        = some ⟨.intact, r⟩) ↔ sha <+: blobId ∨ blockOf pinned start last ≠ [] ∧ ∃ text,
        readTextFile repo (parseDescribesEntry raw []).path = some text
          ∧ blockOf pinned start last <:+: text := by
  rw [h.classify]
  unfold searchBlock
  by_cases hsame : sha <+: blobId
  · simp [hsame]
  by_cases hblock : blockOf pinned start last = []
  · simp [hsame, hblock]
  cases hread : readTextFile repo (parseDescribesEntry raw []).path with
  | none => simp [hsame, hblock]
  | some text =>
      cases hi : indexOf (blockOf pinned start last) text with
      | none =>
          have hnot := indexOf_eq_none.mp hi
          simp [hsame, hblock, hi, hnot]
      | some i =>
          have hin : blockOf pinned start last <:+: text :=
            ⟨_, _, (split_of_indexOf hi).symm⟩
          simp [hsame, hblock, hi, hin]

theorem mem_replacements {cfg : Config} {describes : List (List Char)} {plan : RepinPlan}
    {entry : List Char} (h : computeRepin (.ok cfg) (.ok describes) = .ok plan)
    (hmem : (raw, entry) ∈ plan.replacements) :
    candidate cfg raw = some (raw, .replaced entry) := by
  have hfold : ∀ (es : List (List Char × Outcome)) (p : RepinPlan),
      (raw, entry) ∈ (es.foldl RepinPlan.record p).replacements →
        (raw, entry) ∈ p.replacements ∨ (raw, Outcome.replaced entry) ∈ es := by
    intro es
    induction es with
    | nil => exact fun p hp => Or.inl hp
    | cons e es ih =>
        intro p hp
        rcases ih _ hp with hp | hp
        · unfold RepinPlan.record at hp
          split at hp
          case h_1 entry' he =>
            rcases List.mem_append.mp hp with hp | hp
            · exact Or.inl hp
            · obtain ⟨rfl, rfl⟩ := Prod.mk.inj (List.mem_singleton.mp hp)
              exact Or.inr (List.mem_cons.mpr (Or.inl (Prod.ext rfl he.symm)))
          case h_2 => exact Or.inl hp
          case h_3 => exact Or.inl hp
        · exact Or.inr (List.mem_cons_of_mem _ hp)
  unfold computeRepin at h
  dsimp only at h
  split at h
  case isTrue =>
    cases h
    cases hmem
  case isFalse =>
    cases h
    rcases hfold _ _ hmem with hnone | hin
    · cases hnone
    · obtain ⟨raw', -, hraw'⟩ := List.mem_filterMap.mp (List.mem_of_mem_take hin)
      have hsame : raw' = raw := by
        unfold candidate at hraw'
        dsimp only at hraw'
        split at hraw'
        case h_1 => exact (Prod.mk.inj (Option.some.inj hraw')).1
        case h_2 => cases hraw'
      rwa [hsame] at hraw'

/-- Every name stands for one repository. -/
def onlyRepo (repo : Repo) : Config := ⟨true, fun _ => some repo⟩

theorem computeRepin_single {entry : List Char}
    (h : candidate (onlyRepo repo) raw = some (raw, .replaced entry)) :
    computeRepin (.ok (onlyRepo repo)) (.ok [raw]) = .ok ⟨[(raw, entry)], []⟩ := by
  unfold computeRepin
  simp only [onlyRepo] at h ⊢
  simp [h, anchorPinCap, RepinPlan.record]

theorem Scene.candidate_eq (h : Scene repo raw start last sha pinned current blobId) {a b : Nat}
    (hat : classifyPin repo (parseDescribesEntry raw []).path ⟨some start, some last, sha⟩
      = some ⟨.intact, some (a, b)⟩) {cfg : Config}
    (hrepo : cfg.codeRepos (parseDescribesEntry raw []).repo = some repo) :
    candidate cfg raw = some (raw, .replaced
      (formatPin (parseDescribesEntry raw []).joined a b (blobId.take 12))) := by
  unfold candidate repinEntry
  simp only [h.pin, hrepo, hat, h.hash]

theorem Scene.parse_eq (h : Scene repo raw start last sha pinned current blobId) {a b : Nat}
    (hle : a ≤ b) :
    parseDescribesEntry (formatPin (parseDescribesEntry raw []).joined a b (blobId.take 12)) []
      = { parseHead (parseDescribesEntry raw []).joined [] with
        pin := some ⟨some a, some b, blobId.take 12⟩ } := by
  have hlen : (blobId.take 12).length = 12 := by
    rw [List.length_take]
    exact Nat.min_eq_left h.hex.1
  exact parse_formatPin _ [] hle (fun c hc => h.hex.2 c (List.mem_of_mem_take hc)) (by omega)
    (by omega)

/-- **The new entry names the same binding exactly when its parts spell it.** -/
theorem Scene.parse_back_iff (h : Scene repo raw start last sha pinned current blobId)
    (pin : Pin) :
    { parseHead (parseDescribesEntry raw []).joined [] with pin := some pin }
        = ({ parseDescribesEntry raw [] with pin := some pin } : Parsed)
      ↔ SpellsBack (parseDescribesEntry raw []) := by
  obtain ⟨head, hhead⟩ := (parse_of_pin h.pin).1
  have hspells : SpellsBack (parseDescribesEntry raw []) ↔ SpellsBack (parseHead head []) := by
    rw [hhead]
    exact ⟨fun h => ⟨h.plain, h.apart, h.bare⟩, fun h => ⟨h.plain, h.apart, h.bare⟩⟩
  rw [hspells, ← parseHead_joined_iff, hhead]
  constructor
  · intro hback
    refine Parsed.ext (congrArg Parsed.repo hback :) (congrArg Parsed.path hback :)
      (congrArg Parsed.symbol hback :) ?_ (congrArg Parsed.malformedPin hback :)
    rw [pin_parseHead, pin_parseHead]
  · intro hback
    change { parseHead (parseHead head []).joined [] with pin := some pin } = _
    rw [hback]

/-- **When a pin keeps what it pins.** -/
theorem preserves_iff (h : Scene repo raw start last sha pinned current blobId) :
    Preserves repo raw ⟨some start, some last, sha⟩ start last pinned current
      ↔ sha <+: blobId ∨ Locatable repo raw start last pinned current := by
  constructor
  · intro hkeeps
    by_cases hsame : sha <+: blobId
    · exact Or.inl hsame
    refine Or.inr ⟨fun text i hread hblock hi => ?_, fun bs hbs hin => ?_⟩
    · have hat := h.relocated_iff.mpr ⟨hsame, hblock, text, i, hread, hi, rfl, rfl⟩
      obtain rfl := h.read hread
      obtain ⟨bs, hbs, hhere⟩ := hkeeps.relocated _ _ hat
      refine ⟨inPlace_of_linesAt hi hbs hhere, ?_⟩
      have hrepo : (onlyRepo repo).codeRepos (parseDescribesEntry raw []).repo = some repo := rfl
      have hplan := computeRepin_single (h.candidate_eq hat hrepo)
      obtain ⟨sha', hparse, -⟩ := hkeeps.repinned _ _ hat _ _ _ hrepo hplan _
        (List.mem_singleton_self _)
      rw [h.parse_eq (Nat.le_add_right _ _)] at hparse
      have hsha : sha' = blobId.take 12 := by
        have hpin := congrArg Parsed.pin hparse
        exact (Pin.mk.inj (Option.some.inj hpin)).2.2.symm
      rw [hsha] at hparse
      exact (h.parse_back_iff _).mp hparse
    · exact (h.intact_iff.mp (hkeeps.kept bs hbs hin)).resolve_left hsame
  · intro hcond
    refine ⟨fun a b hat => ?_, fun bs hbs hin => ?_, fun a b hat => ?_⟩
    · obtain ⟨hdiffers, hblock, text, i, hread, hi, rfl, rfl⟩ := h.relocated_iff.mp hat
      obtain ⟨hplace, -⟩ := (hcond.resolve_left hdiffers).inPlace text i hread hblock hi
      obtain rfl := h.read hread
      exact linesAt_of_inPlace h.le hi hplace
    · exact h.intact_iff.mpr (hcond.imp_right fun hloc => hloc.found bs hbs hin)
    · obtain ⟨hdiffers, hblock, text, i, hread, hi, rfl, rfl⟩ := h.relocated_iff.mp hat
      obtain ⟨-, hspells⟩ := (hcond.resolve_left hdiffers).inPlace text i hread hblock hi
      intro cfg describes plan hrepo hplan entry hentry
      have hcandidate := mem_replacements hplan hentry
      rw [h.candidate_eq hat hrepo] at hcandidate
      obtain rfl := Outcome.replaced.inj (Prod.mk.inj (Option.some.inj hcandidate)).2
      refine ⟨blobId.take 12, ?_, ?_⟩
      · rw [h.parse_eq (Nat.le_add_right _ _)]
        exact (h.parse_back_iff _).mpr hspells
      · unfold classifyPin
        simp only [h.file, h.hash]
        rw [if_pos (List.take_prefix _ _)]

end Scenes

def changedFile (pinned current : String) : Repo where
  file path := if path = "a.ts".toList then some current.toList else none
  hashObject path := if path = "a.ts".toList then some "0123456789abcdef\n".toList else none
  catFile sha := if sha = "fedcba9".toList then some pinned.toList else none

/-- Two lines, one line further down. -/
theorem preserves_iff_moved_down :
    Preserves (changedFile "one\ntwo" "new\none\ntwo") "r:a.ts::f#L1-2@fedcba9".toList
      ⟨some 1, some 2, "fedcba9".toList⟩ 1 2 "one\ntwo".toList "new\none\ntwo".toList := by
  have hhex : ("0123456789abcdef".toList.all isHex) = true := by decide +kernel
  have hscene : Scene (changedFile "one\ntwo" "new\none\ntwo") "r:a.ts::f#L1-2@fedcba9".toList 1 2
      "fedcba9".toList "one\ntwo".toList "new\none\ntwo".toList "0123456789abcdef".toList :=
    ⟨by decide +kernel, by decide +kernel, by decide +kernel, by decide +kernel,
      by decide +kernel, List.all_eq_true.mp hhex⟩
  have hread : readTextFile (changedFile "one\ntwo" "new\none\ntwo")
      (parseDescribesEntry "r:a.ts::f#L1-2@fedcba9".toList []).path
      = some "new\none\ntwo".toList := by decide +kernel
  refine (preserves_iff hscene).mpr (Or.inr ⟨fun text i htext _ hi => ?_, fun _ _ _ => ?_⟩)
  · obtain rfl := Option.some.inj (hread.symm.trans htext)
    have hfour : indexOf (blockOf "one\ntwo".toList 1 2) "new\none\ntwo".toList = some 4 := by
      decide +kernel
    obtain rfl := Option.some.inj (hfour.symm.trans hi)
    refine ⟨⟨by decide +kernel, by decide +kernel, by decide +kernel, ?_⟩, by decide +kernel⟩
    exact fun hmarked => absurd rfl hmarked
  · exact ⟨by decide +kernel, _, hread, by decide +kernel⟩

/-- A pin past the end of its blob is moved to a range past the end of the file. -/
theorem range_past_the_end :
    classifyPin (changedFile "one\ntwo" "new\none\ntwo") "a.ts".toList
        ⟨some 2, some 5, "fedcba9".toList⟩ = some ⟨.intact, some (3, 6)⟩
      ∧ ¬ Preserves (changedFile "one\ntwo" "new\none\ntwo") "r:a.ts#L2-5@fedcba9".toList
        ⟨some 2, some 5, "fedcba9".toList⟩ 2 5 "one\ntwo".toList "new\none\ntwo".toList := by
  refine ⟨by decide +kernel, fun h => ?_⟩
  obtain ⟨bs, hbs, -⟩ := h.relocated 3 6 (by decide +kernel)
  have hnone : linesAt (linesOf "one\ntwo".toList) 2 5 = none := by decide +kernel
  cases hbs

end Anchors
