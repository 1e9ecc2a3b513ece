import Daftari.Lib.TextProofs

/-! # The tension entry — how a block is written and read

    `curation/tension.ts`, the text of one entry: a `## ` header with the date
    and the title, and one `- **Label:** value` line per field.  Every value is
    free text, flattened to one line where it is written.

    * `renderEntry` writes an entry, `parseBlock` reads a block back by the
      regular expressions of the source, which are transcribed for any text;
    * `matchLine_fieldLine`: a written line reads back as its own label and
      value, whatever the value. -/

namespace Tension

open Text

/-- Strings, as texts. -/
abbrev Str := List Char

/-- Flatten to one line: every line break becomes a space. -/
def oneLine : Str → Str
  | '\r' :: '\n' :: s => ' ' :: oneLine s
  | c :: s => (if isTerminator c then ' ' else c) :: oneLine s
  | [] => []

/-! ## Data -/

/-- `TENSION_KINDS`. -/
inductive TensionKind where
  | temporal
  | factual
  | interpretive
  | interProposal
  | positional
  | unspecified
  deriving DecidableEq, Repr

/-- `RESOLUTION_KINDS`. -/
inductive ResolutionKind where
  | superseded
  | corrected
  | accepted
  | invalid
  | consolidated
  deriving DecidableEq, Repr

def TensionKind.text : TensionKind → Str
  | .temporal => "temporal".toList
  | .factual => "factual".toList
  | .interpretive => "interpretive".toList
  | .interProposal => "inter-proposal".toList
  | .positional => "positional".toList
  | .unspecified => "unspecified".toList

def ResolutionKind.text : ResolutionKind → Str
  | .superseded => "superseded".toList
  | .corrected => "corrected".toList
  | .accepted => "accepted".toList
  | .invalid => "invalid".toList
  | .consolidated => "consolidated".toList

def TensionKind.ofText (s : Str) : Option TensionKind :=
  [.temporal, .factual, .interpretive, .interProposal, .positional,
    .unspecified].find? fun k => k.text = s

def ResolutionKind.ofText (s : Str) : Option ResolutionKind :=
  [.superseded, .corrected, .accepted, .invalid, .consolidated].find?
    fun k => k.text = s

structure TensionResolution where
  resolvedAt : Str
  resolvedBy : Str
  kind : ResolutionKind
  rationale : Option Str := none
  references : Option (List Str) := none
  deriving DecidableEq, Repr

structure TensionEntry where
  id : Option Str
  date : Str
  title : Str
  kind : TensionKind
  sourceA : Str
  claimA : Str
  sourceB : Str
  claimB : Str
  status : Str
  loggedBy : Str
  decidedByPrincipal : Option Str
  resolved : Bool
  resolution : Option TensionResolution
  positionA : Option Str
  positionB : Option Str
  readerA : Option Str
  readerB : Option Str
  deriving DecidableEq, Repr

inductive Label where
  | id
  | kind
  | sourceA
  | sourceB
  | status
  | loggedBy
  | positionA
  | positionB
  | readerA
  | readerB
  | decidedByPrincipal
  | resolvedAt
  | resolvedBy
  | resolutionKind
  | rationale
  | references
  deriving DecidableEq, Repr

def Label.text : Label → Str
  | .id => "Id".toList
  | .kind => "Kind".toList
  | .sourceA => "Source A".toList
  | .sourceB => "Source B".toList
  | .status => "Status".toList
  | .loggedBy => "Logged by".toList
  | .positionA => "Position A".toList
  | .positionB => "Position B".toList
  | .readerA => "Reader A".toList
  | .readerB => "Reader B".toList
  | .decidedByPrincipal => "Decided by principal".toList
  | .resolvedAt => "Resolved at".toList
  | .resolvedBy => "Resolved by".toList
  | .resolutionKind => "Resolution kind".toList
  | .rationale => "Rationale".toList
  | .references => "References".toList

/-- Lower case, as far as a comparison with an ASCII text can see: no other
    character than the Kelvin sign has an ASCII lower case. -/
def lower (s : Str) : Str :=
  s.map fun c => if c.val == 0x212A then 'k' else c.toLower

def Label.ofText (s : Str) : Option Label :=
  [.id, .kind, .sourceA, .sourceB, .status, .loggedBy, .positionA, .positionB,
    .readerA, .readerB, .decidedByPrincipal, .resolvedAt, .resolvedBy,
    .resolutionKind, .rationale, .references].find? fun l =>
      lower l.text = lower s

/-! ## Writing -/

/-- `- **Label:** value`. -/
def fieldLine (f : Label × Str) : Str :=
  "- **".toList ++ f.1.text ++ ":** ".toList ++ f.2

def optField (l : Label) (v : Option Str) : List (Label × Str) :=
  match v with
  | none => []
  | some v => [(l, oneLine v)]

/-- An optional text that is left out when it is empty. -/
def nonEmpty (v : Option Str) : Option Str := v.filter (· ≠ [])

/-- The lines of `renderResolution`. -/
def resolutionFields (r : TensionResolution) : List (Label × Str) :=
  [(.resolvedAt, oneLine r.resolvedAt), (.resolvedBy, oneLine r.resolvedBy),
    (.resolutionKind, oneLine r.kind.text)]
    ++ optField .rationale (nonEmpty r.rationale)
    ++ optField .references ((r.references.filter (· ≠ [])).map
        (", ".toList).intercalate)

/-- The field lines of an entry.  The kind of a legacy entry is not written. -/
def entryFields (e : TensionEntry) : List (Label × Str) :=
  optField .id e.id
    ++ optField .kind (if e.kind = .unspecified then none else some e.kind.text)
    ++ [(.sourceA, oneLine e.sourceA ++ " says ".toList ++ oneLine e.claimA),
        (.sourceB, oneLine e.sourceB ++ " says ".toList ++ oneLine e.claimB),
        (.status, oneLine e.status), (.loggedBy, oneLine e.loggedBy)]
    ++ optField .positionA e.positionA ++ optField .positionB e.positionB
    ++ optField .readerA e.readerA ++ optField .readerB e.readerB
    ++ optField .decidedByPrincipal (nonEmpty e.decidedByPrincipal)
    ++ (e.resolution.map resolutionFields).getD []

/-- `## date — title`. -/
def headerLine (e : TensionEntry) : Str :=
  "## ".toList ++ oneLine e.date ++ " — ".toList ++ oneLine e.title

def renderEntry (e : TensionEntry) : Str :=
  ['\n'].intercalate (headerLine e :: (entryFields e).map fieldLine) ++ ['\n']

/-! ## Reading -/

/-- Is there no line terminator in the text?  (`.` matches every character of it.) -/
def flat (s : Str) : Bool := s.all fun c => !isTerminator c

/-- The rest of `/^-\s+\*\*(.+?):\*\*\s*(.*)$/` after the opening stars: the
    shortest label for which the whole line matches. -/
def labelValue (label : Str) : Str → Option (Str × Str)
  | [] => none
  | c :: s =>
      let value := trimStart ((c :: s).drop 3)
      if label ≠ [] ∧ ":**".toList.isPrefixOf (c :: s) ∧ flat value then
        some (label, value)
      else if isTerminator c then none
      else labelValue (label ++ [c]) s

/-- `/^-\s+\*\*(.+?):\*\*\s*(.*)$/`: the label and the value of a field line. -/
def matchLine : Str → Option (Str × Str)
  | '-' :: s =>
      match s.takeWhile isSpace, trimStart s with
      | _ :: _, '*' :: '*' :: t => labelValue [] t
      | _, _ => none
  | _ => none

/-- The text before the first occurrence of `mark`, and the text after it. -/
def cutAt (mark : Str) : Str → Option (Str × Str)
  | [] => none
  | c :: s =>
      if mark.isPrefixOf (c :: s) then some ([], (c :: s).drop mark.length)
      else (cutAt mark s).map fun (a, b) => (c :: a, b)

def parseSourceLine (value : Str) : Str × Str :=
  match cutAt " says ".toList value with
  | none => (trim value, [])
  | some (path, claim) => (trim path, trim claim)

def parseReferences (value : Str) : List Str :=
  ((value.splitOn ',').map trim).filter (· ≠ [])

/-- An entry being read, with its resolution fields on the side. -/
structure Parsing where
  entry : TensionEntry
  resolvedAt : Option Str := none
  resolvedBy : Option Str := none
  resolutionKind : Option ResolutionKind := none
  rationale : Option Str := none
  references : Option (List Str) := none

/-- Take one labelled value.  A kind that is none is passed over. -/
def applyField (p : Parsing) (l : Label) (value : Str) : Parsing :=
  match l with
  | .id => { p with entry := { p.entry with id := some (trim value) } }
  | .kind =>
      { p with entry := { p.entry with
        kind := (TensionKind.ofText (trim value)).getD p.entry.kind } }
  | .sourceA =>
      { p with entry := { p.entry with
        sourceA := (parseSourceLine value).1
        claimA := (parseSourceLine value).2 } }
  | .sourceB =>
      { p with entry := { p.entry with
        sourceB := (parseSourceLine value).1
        claimB := (parseSourceLine value).2 } }
  | .status => { p with entry := { p.entry with status := trim value } }
  | .loggedBy => { p with entry := { p.entry with loggedBy := trim value } }
  | .positionA =>
      { p with entry := { p.entry with positionA := some (trim value) } }
  | .positionB =>
      { p with entry := { p.entry with positionB := some (trim value) } }
  | .readerA =>
      { p with entry := { p.entry with readerA := some (trim value) } }
  | .readerB =>
      { p with entry := { p.entry with readerB := some (trim value) } }
  | .decidedByPrincipal =>
      { p with entry := { p.entry with
        decidedByPrincipal := some (trim value) } }
  | .resolvedAt => { p with resolvedAt := some (trim value) }
  | .resolvedBy => { p with resolvedBy := some (trim value) }
  | .resolutionKind =>
      { p with resolutionKind :=
        (ResolutionKind.ofText (trim value)).or p.resolutionKind }
  | .rationale => { p with rationale := some (trim value) }
  | .references => { p with references := some (parseReferences value) }

/-- One line of a block.  A line that is no field line, or has a label nobody
    knows, is passed over. -/
def applyLine (p : Parsing) (line : Str) : Parsing :=
  match matchLine line with
  | none => p
  | some (label, value) =>
      match Label.ofText label with
      | none => p
      | some l => applyField p l value

/-- `/^\d{4}-\d{2}-\d{2}$/`. -/
def isDate : Str → Bool
  | [a, b, c, d, '-', e, f, '-', g, h] => [a, b, c, d, e, f, g, h].all Char.isDigit
  | _ => false

/-- `\s+(.+)$`: the title, which may have to take the last blank back. -/
def matchTitle (s : Str) : Option Str :=
  let blanks := s.takeWhile isSpace
  if blanks = [] then none
  else match trimStart s with
    | [] => (blanks.tail.getLast?.filter fun c => !isTerminator c).map ([·])
    | t => if flat t then some t else none

/-- `line.replace(/^##\s+/, "")`. -/
def stripMark (line : Str) : Str :=
  match line with
  | '#' :: '#' :: s => if s.takeWhile isSpace = [] then line else trimStart s
  | _ => line

/-- `/^(\d{4}-\d{2}-\d{2})\s+—\s+(.+)$/` on the stripped header: the date and the title. -/
def matchHeader (s : Str) : Option (Str × Str) :=
  if isDate (s.take 10) ∧ (s.drop 10).takeWhile isSpace ≠ [] then
    match trimStart (s.drop 10) with
    | '—' :: t => (matchTitle t).map fun title => (s.take 10, title)
    | _ => none
  else none

/-- The status a tension is logged with, unless the caller gives one. -/
def defaultTensionStatus : Str := "unresolved".toList

def blankEntry (date title : Str) : TensionEntry where
  id := none
  date := date
  title := trim title
  kind := .unspecified
  sourceA := []
  claimA := []
  sourceB := []
  claimB := []
  status := defaultTensionStatus
  loggedBy := []
  decidedByPrincipal := none
  resolved := false
  resolution := none
  positionA := none
  positionB := none
  readerA := none
  readerB := none

/-- The entry at the end of its block: resolved when the three resolution fields were all there. -/
def Parsing.finish (p : Parsing) : TensionEntry :=
  match p.resolvedAt, p.resolvedBy, p.resolutionKind with
  | some at_, some by_, some kind =>
      { p.entry with
        resolved := true
        resolution := some
          { resolvedAt := at_, resolvedBy := by_, kind := kind,
            rationale := nonEmpty p.rationale,
            references := p.references.filter (· ≠ []) } }
  | _, _, _ => p.entry

def parseBlock (block : Str) : Option TensionEntry :=
  match block.splitOn '\n' with
  | [] => none
  | header :: lines =>
      (matchHeader (stripMark header)).map fun (date, title) =>
        (lines.foldl applyLine { entry := blankEntry date title }).finish

/-! ## A flattened text is one line -/

theorem oneLine_flat (s : Str) : ∀ c ∈ oneLine s, isTerminator c = false := by
  fun_induction oneLine s with
  | case1 s ih =>
      intro c hc
      rcases List.mem_cons.mp hc with rfl | hc
      · decide
      · exact ih c hc
  | case2 d s _ ih =>
      intro c hc
      rcases List.mem_cons.mp hc with rfl | hc
      · split
        · decide
        · rename_i h
          simpa using h
      · exact ih c hc
  | case3 => exact fun _ hc => nomatch hc

variable {s : Str}

theorem oneLine_visible (h : ∃ c ∈ s, isSpace c = false) : ∃ c ∈ oneLine s, isSpace c = false := by
  have hterm : ∀ c, isSpace c = false → isTerminator c = false := by
    intro c hc
    unfold isSpace at hc
    unfold isTerminator
    simp only [Bool.or_eq_false_iff, Bool.and_eq_false_iff, beq_eq_false_iff_ne,
      decide_eq_false_iff_not] at hc ⊢
    refine ⟨⟨⟨?_, ?_⟩, by tauto⟩, by tauto⟩
    · rintro he
      rw [he] at hc
      revert hc
      decide
    · rintro he
      rw [he] at hc
      revert hc
      decide
  obtain ⟨c, hc, hs⟩ := h
  refine ⟨c, ?_, hs⟩
  fun_induction oneLine s with
  | case1 s ih =>
      rcases List.mem_cons.mp hc with rfl | hc
      · exact absurd hs (by decide)
      · rcases List.mem_cons.mp hc with rfl | hc
        · exact absurd hs (by decide)
        · exact List.mem_cons_of_mem _ (ih hc)
  | case2 d s _ ih =>
      rcases List.mem_cons.mp hc with rfl | hc
      · rw [hterm c hs]
        exact List.mem_cons_self
      · exact List.mem_cons_of_mem _ (ih hc)
  | case3 => cases hc

/-! ## A written line reads back as itself -/

variable {v : Str}

theorem labelValue_append {l : Str} (acc : Str) (hl : ∀ c ∈ l, c ≠ ':' ∧ isTerminator c = false)
    (hne : acc ++ l ≠ []) (hv : flat (trimStart v) = true) :
    labelValue acc (l ++ (":**".toList ++ v)) = some (acc ++ l, trimStart v) := by
  induction l generalizing acc with
  | nil =>
      rw [List.append_nil] at hne
      show labelValue acc (':' :: '*' :: '*' :: v) = _
      rw [labelValue, if_pos ⟨hne, rfl, hv⟩, List.append_nil]
      rfl
  | cons c l ih =>
      obtain ⟨hc, hterm⟩ := hl c List.mem_cons_self
      have hno : ":**".toList.isPrefixOf (c :: (l ++ (":**".toList ++ v))) = false := by
        show ((':' == c) && _) = false
        rw [beq_false_of_ne (Ne.symm hc)]
        rfl
      rw [List.cons_append, labelValue, if_neg (by rw [hno]; simp),
        if_neg (by rw [hterm]; exact Bool.false_ne_true)]
      rw [ih (acc ++ [c]) (fun d hd => hl d (List.mem_cons_of_mem _ hd)) (by simp)]
      simp

variable (l : Label)

theorem Label.text_plain : (∀ c ∈ l.text, c ≠ ':' ∧ isTerminator c = false) ∧ l.text ≠ [] := by
  refine ⟨forall_mem_of_all ?_, ?_⟩
  · cases l <;> decide
  · cases l <;> decide

theorem Label.ofText_text : Label.ofText l.text = some l := by
  cases l <;> decide

/-- **A field line reads back as its label and its value**, for every value without a line break. -/
theorem matchLine_label (hv : flat (trimStart v) = true) :
    matchLine ("- **".toList ++ l.text ++ ":**".toList ++ v) =
      some (l.text, trimStart v) := by
  obtain ⟨hplain, hne⟩ := l.text_plain
  have happ : "- **".toList ++ l.text ++ ":**".toList ++ v =
      '-' :: ' ' :: '*' :: '*' :: (l.text ++ (":**".toList ++ v)) := by
    simp
  rw [happ]
  have hval := labelValue_append [] hplain (by simpa using hne) hv
  exact hval

theorem flat_of_forall (h : ∀ c ∈ s, isTerminator c = false) : flat s = true := by
  unfold flat
  rw [List.all_eq_true]
  intro c hc
  rw [h c hc]
  rfl

theorem flat_trimStart (h : ∀ c ∈ s, isTerminator c = false) : flat (trimStart s) = true :=
  flat_of_forall fun c hc => h c (List.dropWhile_suffix _ |>.subset hc)

theorem applyLine_fieldLine (p : Parsing) (l : Label) (hv : ∀ c ∈ v, isTerminator c = false) :
    applyLine p (fieldLine (l, v)) = applyField p l (trimStart v) := by
  have hline : fieldLine (l, v) =
      "- **".toList ++ l.text ++ ":**".toList ++ (' ' :: v) := by
    simp [fieldLine]
  have hstart : trimStart (' ' :: v) = trimStart v :=
    List.dropWhile_cons_of_pos (by decide)
  have hmatch := matchLine_label l (v := ' ' :: v)
    (by rw [hstart]; exact flat_trimStart hv)
  unfold applyLine
  rw [hline, hmatch, hstart]
  simp only [Label.ofText_text]

theorem applyLine_trimEnd (p : Parsing) (l : Label) (hv : ∀ c ∈ v, isTerminator c = false) :
    applyLine p (trimEnd (fieldLine (l, v))) = applyField p l (trim v) := by
  have hline : fieldLine (l, v) =
      ("- **".toList ++ l.text ++ ":**".toList) ++ (' ' :: v) := by
    simp [fieldLine]
  by_cases hvis : trim v = []
  · -- nothing visible in the value: the line ends with the stars
    have hspace : ∀ c ∈ ' ' :: v, isSpace c = true := by
      intro c hc
      cases hs : isSpace c with
      | true => rfl
      | false =>
          rcases List.mem_cons.mp hc with rfl | hc
          · exact absurd hs (by decide)
          · exact absurd hvis (trim_ne_nil.mpr ⟨c, hc, hs⟩)
    have hend : trimEnd (fieldLine (l, v)) =
        "- **".toList ++ l.text ++ ":**".toList ++ [] := by
      rw [hline, trimEnd_append_space hspace, List.append_nil]
      exact trimEnd_append (s := "- **".toList ++ l.text)
        (t := ":**".toList) (by decide)
    have hmatch := matchLine_label l (v := []) rfl
    unfold applyLine
    rw [hend, hmatch]
    simp only [Label.ofText_text]
    rw [hvis]
    rfl
  · have hend' : trimEnd v ≠ [] := by
      intro he
      apply hvis
      rw [← trim_trimEnd, he]
      rfl
    have hend : trimEnd (fieldLine (l, v)) = fieldLine (l, trimEnd v) := by
      have happ : fieldLine (l, v) =
          ("- **".toList ++ l.text ++ ":** ".toList) ++ v := rfl
      rw [happ, trimEnd_append hend']
      rfl
    have hsub : ∀ c ∈ trimEnd v, isTerminator c = false :=
      fun c hc => hv c ((List.rdropWhile_prefix _ _).subset hc)
    rw [hend, applyLine_fieldLine p l hsub, trimStart_trimEnd]
    rfl

/-! ## What the fold over the fields leaves -/

def valuesOf (l : Label) (fs : List (Label × Str)) : List Str :=
  fs.filterMap fun f => if f.1 = l then some f.2 else none

@[simp] theorem valuesOf_append (fs gs : List (Label × Str)) :
    valuesOf l (fs ++ gs) = valuesOf l fs ++ valuesOf l gs :=
  List.filterMap_append

/-- Read field lines by label and value, as the fold over the lines does. -/
def applyFields (p : Parsing) (fs : List (Label × Str)) : Parsing :=
  fs.foldl (fun p f => applyField p f.1 (trimStart f.2)) p

/-- **One label at a time.**  A part of the entry that only the label `l`
    writes is written by the values of `l`, in order. -/
theorem applyFields_part {β : Type} (part : Parsing → β) (l : Label) (write : β → Str → β)
    (hwrite : ∀ p v, part (applyField p l v) = write (part p) v)
    (hframe : ∀ p l' v, l' ≠ l → part (applyField p l' v) = part p)
    (fs : List (Label × Str)) (p : Parsing) : part (applyFields p fs) =
      (valuesOf l fs).foldl (fun b v => write b (trimStart v)) (part p) := by
  induction fs generalizing p with
  | nil => rfl
  | cons f fs ih =>
      obtain ⟨l', v⟩ := f
      show part (applyFields (applyField p l' (trimStart v)) fs) = _
      rw [ih]
      by_cases hl : l' = l
      · subst hl
        rw [hwrite]
        simp [valuesOf]
      · rw [hframe p l' _ hl]
        simp [valuesOf, hl]

theorem foldl_fieldLines (p : Parsing) (fs : List (Label × Str)) (l : Label)
    (v : Str) (hfs : ∀ f ∈ fs, ∀ c ∈ f.2, isTerminator c = false)
    (hv : ∀ c ∈ v, isTerminator c = false) :
    (fs.map fieldLine ++ [trimEnd (fieldLine (l, v))]).foldl applyLine p =
      applyFields p (fs ++ [(l, trim v)]) := by
  have htrim : trimStart (trim v) = trim v := by
    unfold trim
    rw [trimStart_trimEnd]
    unfold trimStart
    rw [List.dropWhile_idempotent]
  have hfold : ∀ (fs : List (Label × Str)) (p : Parsing),
      (∀ f ∈ fs, ∀ c ∈ f.2, isTerminator c = false) →
      (fs.map fieldLine).foldl applyLine p = applyFields p fs := by
    intro fs
    induction fs with
    | nil => exact fun _ _ => rfl
    | cons f fs ih =>
        intro p h
        show (fs.map fieldLine).foldl applyLine (applyLine p (fieldLine f)) = _
        rw [applyLine_fieldLine p f.1 (h f List.mem_cons_self)]
        exact ih _ fun g hg => h g (List.mem_cons_of_mem _ hg)
  unfold applyFields
  rw [List.foldl_append, List.foldl_append, hfold fs p hfs]
  show applyLine _ _ = applyField _ l (trimStart (trim v))
  rw [applyLine_trimEnd _ l hv, htrim]
  rfl

/-- A part that looks at its values trimmed does not see the last line being
    trimmed with the block. -/
theorem applyFields_trimmed {β : Type} (part : Parsing → β) (l : Label) (write : β → Str → β)
    (hwrite : ∀ p v, part (applyField p l v) = write (part p) v)
    (hframe : ∀ p l' v, l' ≠ l → part (applyField p l' v) = part p)
    (htrim : ∀ b v, write b (trim v) = write b v)
    (fs : List (Label × Str)) (l' : Label) (v : Str) (p : Parsing) :
    part (applyFields p (fs ++ [(l', trim v)])) =
      (valuesOf l (fs ++ [(l', v)])).foldl write (part p) := by
  have hfold : ∀ (vs : List Str) (b : β),
      vs.foldl (fun b v => write b (trimStart v)) b = vs.foldl write b := by
    intro vs
    induction vs with
    | nil => exact fun _ => rfl
    | cons u vs ih =>
        intro b
        have hu : write b (trimStart u) = write b u := by
          rw [← htrim b (trimStart u), trim_trimStart, htrim]
        rw [List.foldl_cons, List.foldl_cons, hu]
        exact ih _
  rw [applyFields_part part l write hwrite hframe, hfold]
  by_cases hl : l' = l
  · subst hl
    simp [valuesOf, htrim]
  · simp [valuesOf, hl]

/-! ## The fields of an entry -/

theorem valuesOf_optField (l' : Label) (v : Option Str) : valuesOf l (optField l' v) =
      if l' = l then (v.map oneLine).toList else [] := by
  cases v with
  | none => simp [optField, valuesOf]
  | some v => by_cases h : l' = l <;> simp [optField, valuesOf, h]

theorem entryFields_flat (e : TensionEntry) :
    ∀ f ∈ entryFields e, ∀ c ∈ f.2, isTerminator c = false := by
  have hopt : ∀ (l : Label) (v : Option Str), ∀ f ∈ optField l v, ∀ c ∈ f.2,
      isTerminator c = false := by
    intro l v f hf
    cases v with
    | none => cases hf
    | some v =>
        obtain rfl := List.mem_singleton.mp hf
        exact oneLine_flat v
  have hsays : ∀ a b : Str, ∀ c ∈ oneLine a ++ " says ".toList ++ oneLine b,
      isTerminator c = false := by
    intro a b c hc
    rcases List.mem_append.mp hc with hc | hc
    · rcases List.mem_append.mp hc with hc | hc
      · exact oneLine_flat a c hc
      · have hmark : ∀ c ∈ " says ".toList, isTerminator c = false :=
          forall_mem_of_all (by decide)
        exact hmark c hc
    · exact oneLine_flat b c hc
  have hres : ∀ r : TensionResolution, ∀ f ∈ resolutionFields r, ∀ c ∈ f.2,
      isTerminator c = false := by
    intro r f hf
    simp only [resolutionFields, List.mem_append, List.mem_cons, List.not_mem_nil, or_false] at hf
    rcases hf with (((rfl | rfl | rfl) | hf) | hf)
    · exact oneLine_flat _
    · exact oneLine_flat _
    · exact oneLine_flat _
    · exact hopt _ _ f hf
    · exact hopt _ _ f hf
  intro f hf
  simp only [entryFields, List.mem_append, List.mem_cons, List.not_mem_nil, or_false] at hf
  rcases hf with ((((((((hf | hf) | (rfl | rfl | rfl | rfl)) | hf) | hf) | hf) | hf)
    | hf) | hf)
  · exact hopt _ _ f hf
  · exact hopt _ _ f hf
  · exact hsays _ _
  · exact hsays _ _
  · exact oneLine_flat _
  · exact oneLine_flat _
  · exact hopt _ _ f hf
  · exact hopt _ _ f hf
  · exact hopt _ _ f hf
  · exact hopt _ _ f hf
  · exact hopt _ _ f hf
  · cases hr : e.resolution with
    | none => rw [hr] at hf; cases hf
    | some r => rw [hr] at hf; exact hres r f hf

theorem entryFields_last (e : TensionEntry) : ∃ fs l v, entryFields e = fs ++ [(l, v)] := by
  rcases List.eq_nil_or_concat (entryFields e) with h | ⟨fs, ⟨l, v⟩, h⟩
  · exact absurd h (by simp [entryFields])
  · exact ⟨fs, l, v, by rw [h, List.concat_eq_append]⟩

/-! ## A written block reads back -/

theorem fieldLine_flat {f : Label × Str} (hf : ∀ c ∈ f.2, isTerminator c = false) :
    ∀ c ∈ fieldLine f, isTerminator c = false := by
  intro c hc
  rcases List.mem_append.mp hc with hc | hc
  · rcases List.mem_append.mp hc with hc | hc
    · rcases List.mem_append.mp hc with hc | hc
      · have hdash : ∀ c ∈ "- **".toList, isTerminator c = false :=
          forall_mem_of_all (by decide)
        exact hdash c hc
      · exact (f.1.text_plain.1 c hc).2
    · have hstars : ∀ c ∈ ":** ".toList, isTerminator c = false :=
          forall_mem_of_all (by decide)
      exact hstars c hc
  · exact hf c hc

theorem headerLine_flat (e : TensionEntry) : ∀ c ∈ headerLine e, isTerminator c = false := by
  intro c hc
  rcases List.mem_append.mp hc with hc | hc
  · rcases List.mem_append.mp hc with hc | hc
    · rcases List.mem_append.mp hc with hc | hc
      · have hmark : ∀ c ∈ "## ".toList, isTerminator c = false :=
          forall_mem_of_all (by decide)
        exact hmark c hc
      · exact oneLine_flat _ c hc
    · have hdash : ∀ c ∈ " — ".toList, isTerminator c = false :=
          forall_mem_of_all (by decide)
      exact hdash c hc
  · exact oneLine_flat _ c hc

theorem newline_not_mem (h : ∀ c ∈ s, isTerminator c = false) : '\n' ∉ s := by
  intro hm
  exact absurd (h _ hm) (by decide)

theorem intercalate_concat (ls : List Str) :
    ∃ pre, ∀ x, ['\n'].intercalate (ls ++ [x]) = pre ++ x := by
  induction ls with
  | nil => exact ⟨[], fun x => by simp⟩
  | cons l ls ih =>
      obtain ⟨pre, hpre⟩ := ih
      refine ⟨l ++ '\n' :: pre, ?_⟩
      intro x
      have hne : ls ++ [x] ≠ [] := by simp
      rw [List.cons_append, List.intercalate_cons_of_ne_nil hne, hpre]
      simp

/-- The lines of a trimmed block are the lines as written, the last one trimmed. -/
theorem splitOn_block (e : TensionEntry) {w : Str} (hw : ∀ c ∈ w, isSpace c = true)
    {fs : List (Label × Str)} {l : Label} (hfs : entryFields e = fs ++ [(l, v)]) :
    (trim (renderEntry e ++ w)).splitOn '\n' =
      headerLine e :: (fs.map fieldLine ++ [trimEnd (fieldLine (l, v))]) := by
  obtain ⟨pre, hpre⟩ := intercalate_concat (headerLine e :: fs.map fieldLine)
  have hflat := entryFields_flat e
  rw [hfs] at hflat
  have hrender : renderEntry e ++ w = pre ++ fieldLine (l, v) ++ ('\n' :: w) := by
    unfold renderEntry
    rw [hfs, List.map_append, ← hpre]
    simp
  have hspace : ∀ c ∈ '\n' :: w, isSpace c = true := by
    intro c hc
    rcases List.mem_cons.mp hc with rfl | hc
    · decide
    · exact hw c hc
  have hlast : trimEnd (fieldLine (l, v)) ≠ [] := by
    show trimEnd ('-' :: _) ≠ []
    exact trimEnd_cons (by decide)
  have hend : trimEnd (renderEntry e ++ w) = ['\n'].intercalate
      (headerLine e :: (fs.map fieldLine ++ [trimEnd (fieldLine (l, v))])) := by
    rw [hrender, trimEnd_append_space hspace, trimEnd_append hlast, ← hpre]
    rfl
  have hstart : trimStart (renderEntry e ++ w) = renderEntry e ++ w := by
    have hhash : ∃ t, renderEntry e ++ w = '#' :: t := by
      unfold renderEntry
      exact ⟨_, by simp [headerLine]; rfl⟩
    obtain ⟨t, ht⟩ := hhash
    rw [ht]
    exact trimStart_cons (by decide)
  unfold trim
  rw [hstart, hend]
  refine List.splitOn_intercalate '\n' ?_ (List.cons_ne_nil _ _)
  intro x hx
  rcases List.mem_cons.mp hx with rfl | hx
  · exact newline_not_mem (headerLine_flat e)
  · rcases List.mem_append.mp hx with hx | hx
    · obtain ⟨f, hf, rfl⟩ := List.mem_map.mp hx
      exact newline_not_mem
        (fieldLine_flat (hflat f (List.mem_append_left _ hf)))
    · obtain rfl := List.mem_singleton.mp hx
      refine newline_not_mem fun c hc => ?_
      have hm := (List.rdropWhile_prefix _ _).subset hc
      exact fieldLine_flat (hflat (l, v) (by simp)) c hm

theorem digit_plain {c : Char} (h : c.isDigit = true) :
    isSpace c = false ∧ isTerminator c = false := by
  unfold Char.isDigit at h
  simp only [Bool.and_eq_true, decide_eq_true_eq, UInt32.le_iff_toNat_le] at h
  have hlo : 48 ≤ c.val.toNat := h.1
  have hhi : c.val.toNat ≤ 57 := h.2
  have hne : ∀ n : UInt32, 57 < n.toNat ∨ n.toNat < 48 → (c.val == n) = false := by
    intro n hn
    rw [beq_eq_false_iff_ne]
    rintro rfl
    omega
  have hle : ∀ n : UInt32, 57 < n.toNat → decide (n ≤ c.val) = false := by
    intro n hn
    rw [decide_eq_false_iff_not, UInt32.le_iff_toNat_le]
    omega
  have hge : ∀ n : UInt32, n.toNat < 48 → decide (c.val ≤ n) = false := by
    intro n hn
    rw [decide_eq_false_iff_not, UInt32.le_iff_toNat_le]
    omega
  constructor
  · unfold isSpace
    rw [hne _ (by decide), hge 0x0D (by decide), hne 0xA0 (by decide),
      hne 0x1680 (by decide), hle 0x2000 (by decide), hne 0x2028 (by decide),
      hne 0x2029 (by decide), hne 0x202F (by decide), hne 0x205F (by decide),
      hne 0x3000 (by decide), hne 0xFEFF (by decide)]
    simp
  · unfold isTerminator
    rw [hne 0x0A (by decide), hne 0x0D (by decide), hne 0x2028 (by decide),
      hne 0x2029 (by decide)]
    rfl

theorem isDate_plain (h : isDate s = true) :
    s.length = 10 ∧ ∀ c ∈ s, isSpace c = false ∧ isTerminator c = false := by
  unfold isDate at h
  split at h
  · rename_i a b c d e f g k
    refine ⟨rfl, ?_⟩
    have hall : ∀ x ∈ [a, b, c, d, e, f, g, k], x.isDigit = true :=
      List.all_eq_true.mp h
    have hdash : isSpace '-' = false ∧ isTerminator '-' = false := by decide
    intro x hx
    by_cases hd : x = '-'
    · rw [hd]
      exact hdash
    · refine digit_plain (hall x ?_)
      simp only [List.mem_cons, List.not_mem_nil, or_false] at hx ⊢
      tauto
  · cases h

theorem oneLine_of_flat (h : ∀ c ∈ s, isTerminator c = false) : oneLine s = s := by
  fun_induction oneLine s with
  | case1 s ih => exact absurd (h '\r' (by simp)) (by decide)
  | case2 c s _ ih =>
      rw [h c List.mem_cons_self, ih fun d hd => h d (List.mem_cons_of_mem _ hd)]
      rfl
  | case3 => rfl

variable {e : TensionEntry}

/-- **The header reads back**: the date as it is, the title flattened. -/
theorem matchHeader_headerLine (hdate : isDate e.date = true) (htitle : trim e.title ≠ []) :
    matchHeader (stripMark (headerLine e)) = some (e.date, trimStart (oneLine e.title)) := by
  obtain ⟨hlen, hplain⟩ := isDate_plain hdate
  have hone : oneLine e.date = e.date :=
    oneLine_of_flat fun c hc => (hplain c hc).2
  set t := oneLine e.title with ht
  have hvis : trimStart t ≠ [] := by
    obtain ⟨c, hc, hs⟩ := oneLine_visible (trim_ne_nil.mp htitle)
    intro hnil
    have hall := List.dropWhile_eq_nil_iff.mp hnil c hc
    rw [hs] at hall
    cases hall
  obtain ⟨d, ds, hds⟩ : ∃ d ds, e.date = d :: ds := by
    cases hd : e.date with
    | nil => rw [hd] at hlen; cases hlen
    | cons d ds => exact ⟨d, ds, rfl⟩
  have hstrip : stripMark (headerLine e) = e.date ++ (" — ".toList ++ t) := by
    have hline : headerLine e = '#' :: '#' :: ' ' :: (e.date ++ (" — ".toList ++ t)) := by
      unfold headerLine
      rw [hone, ← ht]
      simp
    have hd : isSpace d = false := (hplain d (by rw [hds]; exact List.mem_cons_self)).1
    have hstart : trimStart (' ' :: (e.date ++ (" — ".toList ++ t))) =
        e.date ++ (" — ".toList ++ t) := by
      unfold trimStart
      rw [List.dropWhile_cons_of_pos (by decide), hds, List.cons_append]
      exact List.dropWhile_cons_of_neg (by simp [hd])
    rw [hline]
    unfold stripMark
    simp only
    rw [if_neg (by simp [show isSpace ' ' = true from by decide]), hstart]
  have htake : (e.date ++ (" — ".toList ++ t)).take 10 = e.date := by
    rw [← hlen]
    exact List.take_left
  have hdrop : (e.date ++ (" — ".toList ++ t)).drop 10 = " — ".toList ++ t := by
    rw [← hlen]
    exact List.drop_left
  have htitle' : matchTitle (' ' :: t) = some (trimStart t) := by
    have hflat := flat_trimStart (oneLine_flat e.title)
    unfold matchTitle
    have hstart : trimStart (' ' :: t) = trimStart t :=
      List.dropWhile_cons_of_pos (by decide)
    rw [hstart, List.takeWhile_cons_of_pos (by decide),
      if_neg (List.cons_ne_nil _ _)]
    cases hc : trimStart t with
    | nil => exact absurd hc hvis
    | cons c cs =>
        rw [hc] at hflat
        show (if flat (c :: cs) = true then some (c :: cs) else none) = _
        rw [if_pos hflat]
  have hblank : (" — ".toList ++ t).takeWhile isSpace ≠ [] := by
    show List.takeWhile isSpace (' ' :: _) ≠ []
    exact List.cons_ne_nil _ _
  rw [hstrip]
  unfold matchHeader
  rw [htake, hdrop, if_pos ⟨hdate, hblank⟩]
  show (match '—' :: ' ' :: t with
    | '—' :: t => (matchTitle t).map fun title => (e.date, title)
    | _ => none) = _
  simp only [htitle', Option.map_some]

/-- What an entry reads back as, on the fields the log is kept by. -/
structure Rereads (e r : TensionEntry) : Prop where
  date : r.date = e.date
  title : r.title = trim (oneLine e.title)
  id : r.id = e.id.map fun v => trim (oneLine v)
  kind : r.kind = e.kind
  status : r.status = trim (oneLine e.status)
  loggedBy : r.loggedBy = trim (oneLine e.loggedBy)
  resolved : r.resolved = e.resolution.isSome
  resolution : r.resolution.map (fun x => (x.resolvedAt, x.resolvedBy, x.kind)) =
    e.resolution.map fun x =>
      (trim (oneLine x.resolvedAt), trim (oneLine x.resolvedBy), x.kind)

theorem TensionKind.ofText_text (k : TensionKind) :
    TensionKind.ofText (trim (oneLine k.text)) = some k := by
  cases k <;> decide

theorem ResolutionKind.ofText_text (k : ResolutionKind) :
    ResolutionKind.ofText (trim (oneLine k.text)) = some k := by
  cases k <;> decide

/-- The value an entry writes under each label, if any. -/
def written (e : TensionEntry) : Label → Option Str
  | .id => e.id.map oneLine
  | .kind => if e.kind = .unspecified then none else some (oneLine e.kind.text)
  | .sourceA => some (oneLine e.sourceA ++ " says ".toList ++ oneLine e.claimA)
  | .sourceB => some (oneLine e.sourceB ++ " says ".toList ++ oneLine e.claimB)
  | .status => some (oneLine e.status)
  | .loggedBy => some (oneLine e.loggedBy)
  | .positionA => e.positionA.map oneLine
  | .positionB => e.positionB.map oneLine
  | .readerA => e.readerA.map oneLine
  | .readerB => e.readerB.map oneLine
  | .decidedByPrincipal => (nonEmpty e.decidedByPrincipal).map oneLine
  | .resolvedAt => e.resolution.map fun r => oneLine r.resolvedAt
  | .resolvedBy => e.resolution.map fun r => oneLine r.resolvedBy
  | .resolutionKind => e.resolution.map fun r => oneLine r.kind.text
  | .rationale => e.resolution.bind fun r => (nonEmpty r.rationale).map oneLine
  | .references => e.resolution.bind fun r =>
      ((r.references.filter (· ≠ [])).map (", ".toList).intercalate).map oneLine

/-- **Each label is written at most once.** -/
theorem valuesOf_entryFields (e : TensionEntry) (l : Label) :
    valuesOf l (entryFields e) = (written e l).toList := by
  have hcons : ∀ (l l' : Label) (v : Str) (fs : List (Label × Str)),
      valuesOf l ((l', v) :: fs) =
        if l' = l then v :: valuesOf l fs else valuesOf l fs := by
    intro l l' v fs
    by_cases h : l' = l <;> simp [valuesOf, h]
  have hnil : valuesOf l [] = [] := rfl
  have hkind : ∀ k : TensionKind,
      ((if k = .unspecified then none else some k.text).map oneLine).toList =
        (if k = .unspecified then none else some (oneLine k.text)).toList := by
    intro k
    cases k <;> rfl
  unfold entryFields written
  cases hr : e.resolution with
  | none =>
      simp only [valuesOf_append, valuesOf_optField, hcons, hnil, Option.map_none,
        Option.getD_none, Option.bind_none, List.append_nil]
      cases l <;> simp [hkind]
  | some r =>
      simp only [resolutionFields, valuesOf_append, valuesOf_optField, hcons, hnil,
        Option.map_some, Option.getD_some, Option.bind_some]
      cases l <;> simp [hkind]

section Reading

variable {e : TensionEntry} {fs : List (Label × Str)} {l' : Label} {v : Str}

/-- What one label leaves of a block that was read: the value written under it,
    or what was there before. -/
theorem part_read {β : Type} (hfs : entryFields e = fs ++ [(l', v)])
    (part : Parsing → β) (l : Label) (write : β → Str → β)
    (hwrite : ∀ p v, part (applyField p l v) = write (part p) v)
    (hframe : ∀ p l' v, l' ≠ l → part (applyField p l' v) = part p)
    (htrim : ∀ b v, write b (trim v) = write b v) (p : Parsing) :
    part (applyFields p (fs ++ [(l', trim v)])) =
      ((written e l).map (write (part p))).getD (part p) := by
  rw [applyFields_trimmed part l write hwrite hframe htrim, ← hfs, valuesOf_entryFields]
  cases written e l <;> rfl

theorem header_read (p : Parsing) (gs : List (Label × Str)) :
    (applyFields p gs).entry.date = p.entry.date ∧ (applyFields p gs).entry.title = p.entry.title ∧
      (applyFields p gs).entry.resolved = p.entry.resolved ∧
      (applyFields p gs).entry.resolution = p.entry.resolution := by
  induction gs generalizing p with
  | nil => exact ⟨rfl, rfl, rfl, rfl⟩
  | cons f gs ih =>
      obtain ⟨hd, ht, hr, hs⟩ := ih (applyField p f.1 (trimStart f.2))
      have hone : ∀ (l : Label) (v : Str),
          (applyField p l v).entry.date = p.entry.date ∧
          (applyField p l v).entry.title = p.entry.title ∧
          (applyField p l v).entry.resolved = p.entry.resolved ∧
          (applyField p l v).entry.resolution = p.entry.resolution := by
        intro l v
        cases l <;> exact ⟨rfl, rfl, rfl, rfl⟩
      obtain ⟨hd', ht', hr', hs'⟩ := hone f.1 (trimStart f.2)
      exact ⟨hd.trans hd', ht.trans ht', hr.trans hr', hs.trans hs'⟩

theorem rereads_finish (hfs : entryFields e = fs ++ [(l', v)]) (title : Str)
    (htitle : trim title = trim (oneLine e.title)) :
    Rereads e (applyFields { entry := blankEntry e.date title }
      (fs ++ [(l', trim v)])).finish := by
  set p : Parsing := { entry := blankEntry e.date title }
  set q := applyFields p (fs ++ [(l', trim v)]) with hq
  obtain ⟨hdate, htitle', hres, hresn⟩ := header_read p (fs ++ [(l', trim v)])
  have hid : q.entry.id = e.id.map fun v => trim (oneLine v) := by
    rw [hq, part_read hfs (·.entry.id) .id (fun _ v => some (trim v))
      (fun _ _ => rfl) (fun p l' v h => by cases l' <;> first | rfl | exact absurd rfl h)
      (fun _ v => by rw [trim_trim]) p]
    unfold written
    cases e.id <;> rfl
  have hkind : q.entry.kind = e.kind := by
    rw [hq, part_read hfs (·.entry.kind) .kind (fun b v => (TensionKind.ofText (trim v)).getD b)
      (fun _ _ => rfl) (fun p l' v h => by cases l' <;> first | rfl | exact absurd rfl h)
      (fun _ v => by rw [trim_trim]) p]
    unfold written
    by_cases hk : e.kind = .unspecified
    · rw [if_pos hk, hk]
      rfl
    · rw [if_neg hk]
      simp only [Option.map_some, Option.getD_some, TensionKind.ofText_text]
  have hstatus : q.entry.status = trim (oneLine e.status) := by
    rw [hq, part_read hfs (·.entry.status) .status (fun _ v => trim v)
      (fun _ _ => rfl) (fun p l' v h => by cases l' <;> first | rfl | exact absurd rfl h)
      (fun _ v => by rw [trim_trim]) p]
    rfl
  have hlogged : q.entry.loggedBy = trim (oneLine e.loggedBy) := by
    rw [hq, part_read hfs (·.entry.loggedBy) .loggedBy (fun _ v => trim v)
      (fun _ _ => rfl) (fun p l' v h => by cases l' <;> first | rfl | exact absurd rfl h)
      (fun _ v => by rw [trim_trim]) p]
    rfl
  have hat : q.resolvedAt = e.resolution.map fun r => trim (oneLine r.resolvedAt) := by
    rw [hq, part_read hfs (·.resolvedAt) .resolvedAt (fun _ v => some (trim v))
      (fun _ _ => rfl) (fun p l' v h => by cases l' <;> first | rfl | exact absurd rfl h)
      (fun _ v => by rw [trim_trim]) p]
    unfold written
    cases e.resolution <;> rfl
  have hby : q.resolvedBy = e.resolution.map fun r => trim (oneLine r.resolvedBy) := by
    rw [hq, part_read hfs (·.resolvedBy) .resolvedBy (fun _ v => some (trim v))
      (fun _ _ => rfl) (fun p l' v h => by cases l' <;> first | rfl | exact absurd rfl h)
      (fun _ v => by rw [trim_trim]) p]
    unfold written
    cases e.resolution <;> rfl
  have hrk : q.resolutionKind = e.resolution.map (·.kind) := by
    rw [hq, part_read hfs (·.resolutionKind) .resolutionKind
      (fun b v => (ResolutionKind.ofText (trim v)).or b)
      (fun _ _ => rfl) (fun p l' v h => by cases l' <;> first | rfl | exact absurd rfl h)
      (fun _ v => by rw [trim_trim]) p]
    unfold written
    cases e.resolution with
    | none => rfl
    | some r => simp [ResolutionKind.ofText_text]
  cases hr : e.resolution with
  | none =>
      rw [hr] at hat
      have hfin : q.finish = q.entry := by
        unfold Parsing.finish
        rw [hat]
        rfl
      rw [hfin]
      exact ⟨hdate, htitle'.trans htitle, hid, hkind, hstatus, hlogged,
        by rw [hr]; exact hres, by rw [hr, hresn]; rfl⟩
  | some r =>
      rw [hr] at hat hby hrk
      unfold Parsing.finish
      rw [hat, hby, hrk]
      exact ⟨hdate, htitle'.trans htitle, hid, hkind, hstatus, hlogged,
        by rw [hr]; rfl, by rw [hr]; rfl⟩

end Reading

theorem parseBlock_eq (hdate : isDate e.date = true) (htitle : trim e.title ≠ []) {w : Str}
    (hw : ∀ c ∈ w, isSpace c = true) {fs : List (Label × Str)} {l : Label}
    (hfs : entryFields e = fs ++ [(l, v)]) :
    parseBlock (trim (renderEntry e ++ w)) = some (applyFields
      { entry := blankEntry e.date (trimStart (oneLine e.title)) }
      (fs ++ [(l, trim v)])).finish := by
  have hflat := entryFields_flat e
  rw [hfs] at hflat
  unfold parseBlock
  rw [splitOn_block e hw hfs]
  simp only
  rw [matchHeader_headerLine hdate htitle, Option.map_some,
    foldl_fieldLines _ fs l v (fun f hf => hflat f (List.mem_append_left _ hf))
      (hflat (l, v) (by simp))]

/-- **A written block reads back**, whatever the free texts of its fields and
    whatever blank space follows it. -/
theorem parseBlock_renderEntry (hdate : isDate e.date = true) (htitle : trim e.title ≠ [])
    {w : Str} (hw : ∀ c ∈ w, isSpace c = true) :
    ∃ r, parseBlock (trim (renderEntry e ++ w)) = some r ∧ Rereads e r := by
  obtain ⟨fs, l, v, hfs⟩ := entryFields_last e
  exact ⟨_, parseBlock_eq hdate htitle hw hfs,
    rereads_finish hfs (trimStart (oneLine e.title)) (trim_trimStart _)⟩

end Tension
