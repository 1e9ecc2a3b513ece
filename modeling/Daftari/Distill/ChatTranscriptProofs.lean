import Daftari.Lib.LinesProofs
import Daftari.Lib.NumeralsProofs
import Daftari.Lib.RegexProofs
import Mathlib.Data.List.Forall2

/-! # Chat exports — headers, the lines that continue them, and line endings

    A line that reads as an iOS or an Android header starts a message; any other
    line continues the message before it.  `.` does not match a carriage return and
    `$` stands at the end of the line only, so a header that ends in one is none.

    * `parse_blocks`: every line from the first message on is the header of one
      message or part of its text, but for the headers with an impossible hour;
    * `noLineLost_iff`: **nothing is lost and the line endings do not matter exactly
      when no line but the last is a header**. -/

namespace ChatTranscript

/-! ## Patterns -/

/-- The marks that `BIDI_RE` matches. -/
def isBidi (c : Char) : Bool :=
  c.val == 0x200E || c.val == 0x200F || (0x202A ≤ c.val && c.val ≤ 0x202C)
    || (0x2066 ≤ c.val && c.val ≤ 0x2069)

def stripBidi (s : List Char) : List Char := s.filter fun c => !isBidi c

/-- The digits of a quantifier `lo` to `hi`. -/
def digits (lo hi : Nat) : Regex := .many false lo (some hi) Char.isDigit

/-- The date of a header, the first group. -/
def dateRe : Regex :=
  .group 1 (.all [digits 1 2, .text "/".toList, digits 1 2, .text "/".toList, digits 2 4])

/-- What stands between `^` and `$` in `IOS_LINE_RE`. -/
def iosParts : List Regex :=
  [.many false 0 none isBidi, .text "[".toList, dateRe, .text ", ".toList,
    .group 2 (.all [digits 1 2, .text ":".toList, digits 2 2,
      .opt (.all [.text ":".toList, digits 2 2]), .opt (.text " ".toList),
      .one (fun c => c = 'A' ∨ c = 'P'), .text "M".toList]),
    .text "] ".toList, .group 3 (.many true 1 none Regex.dot), .text ": ".toList,
    .group 4 (.many false 0 none Regex.dot)]

def iosLineRe : Regex := .all (.start :: (iosParts ++ [.stop]))

/-- What stands between `^` and `$` in `ANDROID_LINE_RE`. -/
def androidParts : List Regex :=
  [dateRe, .text ", ".toList, .group 2 (.all [digits 2 2, .text ":".toList, digits 2 2]),
    .text " - ".toList, .group 3 (.many true 1 none Regex.dot), .text ": ".toList,
    .group 4 (.many false 0 none Regex.dot)]

def androidLineRe : Regex := .all (.start :: (androidParts ++ [.stop]))

/-- What the four groups of a header hold. -/
structure Header where
  date : List Char
  time : List Char
  rawSender : List Char
  rawBody : List Char
deriving DecidableEq

def headerOf (m : Regex.Match) : Header where
  date := (m.group 1).getD []
  time := (m.group 2).getD []
  rawSender := (m.group 3).getD []
  rawBody := (m.group 4).getD []

/-- `IOS_LINE_RE.exec`. -/
def iosMatch (line : List Char) : Option Header :=
  (iosLineRe.exec line).map fun found => headerOf found.2

/-- `ANDROID_LINE_RE.exec`. -/
def androidMatch (line : List Char) : Option Header :=
  (androidLineRe.exec line).map fun found => headerOf found.2

/-! ## Timestamps -/

/-- `Number.parseInt` of a text that begins with its digits. -/
def parseInt (s : List Char) : Nat := Numerals.value (s.takeWhile Char.isDigit)

def expandYear (y : List Char) : Nat :=
  let n := parseInt y
  if y.length ≤ 2 then if n < 100 then 2000 + n else n else n

def pad2 (n : Nat) : List Char :=
  List.replicate (2 - (Nat.toDigits 10 n).length) '0' ++ Nat.toDigits 10 n

/-- `/AM$/i` and `/PM$/i`. -/
def meridiemRe (letters : List Char) : Regex := .all [.textIgnoringCase letters, .stop]

/-- `/ ?[AP]M$/i`. -/
def meridiemTailRe : Regex :=
  .all [.opt (.text " ".toList), .one (fun c => c.toLower = 'a' ∨ c.toLower = 'p'),
    .textIgnoringCase "M".toList, .stop]

/-- `replace` of the first match by nothing. -/
def removeFirst (re : Regex) (s : List Char) : List Char :=
  match re.exec s with
  | some (before, m) => before ++ m.rest
  | none => s

/-- `parseIosTime`: the hour, the minute and the second, unless the hour is outside
    the twelve of the clock. -/
def parseIosTime (t : List Char) : Option (Nat × Nat × Nat) :=
  let cleaned := Text.trim t
  let isPM := (meridiemRe "PM".toList).test cleaned
  let isAM := (meridiemRe "AM".toList).test cleaned
  let timePart := Text.trim (removeFirst meridiemTailRe cleaned)
  let parts := (timePart.splitOn ':').map parseInt
  let h := parts.headD 0
  let m := parts.getD 1 0
  let s := parts.getD 2 0
  if h < 1 ∨ h > 12 then none
  else if isAM ∧ h = 12 then some (0, m, s)
  else if isPM ∧ h ≠ 12 then some (h + 12, m, s)
  else some (h, m, s)

/-- The year, the month and the day of a date, as both formats write them. -/
def isoDate (date : List Char) : List Char :=
  let parts := date.splitOn '/'
  Nat.toDigits 10 (expandYear (parts.getD 2 [])) ++ '-' :: pad2 (parseInt (parts.getD 0 []))
    ++ '-' :: pad2 (parseInt (parts.getD 1 []))

def iosToIso (date time : List Char) : Option (List Char) :=
  (parseIosTime time).map fun t =>
    isoDate date ++ 'T' :: pad2 t.1 ++ ':' :: pad2 t.2.1 ++ ':' :: pad2 t.2.2

def androidToIso (date time : List Char) : List Char :=
  let parts := time.splitOn ':'
  isoDate date ++ 'T' :: pad2 (parseInt (parts.getD 0 []))
    ++ ':' :: pad2 (parseInt (parts.getD 1 []))
    ++ ":00".toList

/-! ## Bodies -/

inductive MessageType where
  | text
  | system
  | call
  | attachment
  | edited
  | deleted
deriving DecidableEq

def omittedRe : Regex :=
  .all [.boundary,
    .group 1 (.oneOf (["image", "document", "audio", "video", "sticker", "GIF",
      "Contact card"].map fun w => .textIgnoringCase w.toList)),
    .textIgnoringCase " omitted".toList, .boundary]

def attachedRe : Regex :=
  .all [.start, .text "<attached: ".toList, .group 1 (.many true 1 none Regex.dot),
    .text ">".toList, .stop]

def editedSuffix : List Char := "<This message was edited>".toList

/-- `classifyBody`: the type, the text and the attachment, by the first test met. -/
def classifyBody (body : List Char) : MessageType × List Char × Option (List Char) :=
  if "end-to-end encrypted".toList <:+: body then (.system, body, none)
  else if body = "You deleted this message.".toList
      ∨ body = "This message was deleted.".toList then (.deleted, body, none)
  else if "Video call".toList <+: body ∨ "Voice call".toList <+: body then (.call, body, none)
  else
    match attachedRe.exec body with
    | some (_, m) => (.attachment, body, m.group 1)
    | none =>
        if omittedRe.test body then (.attachment, body, none)
        else if editedSuffix <:+ body then
          (.edited, Text.trimEnd (body.take (body.length - editedSuffix.length)), none)
        else (.text, body, none)

/-! ## Messages -/

/-- `NormalizedMessage`. -/
structure Message where
  ts : List Char
  sender : List Char
  type : MessageType
  text : List Char
  attachment : Option (List Char)
deriving DecidableEq

def Header.message (h : Header) (ts : List Char) : Message :=
  let body := classifyBody (stripBidi h.rawBody)
  { ts := ts
    sender := stripBidi (Text.trim h.rawSender)
    type := body.1
    text := body.2.1
    attachment := body.2.2 }

def Message.continued (m : Message) (line : List Char) : Message :=
  { m with text := m.text ++ '\n' :: line }

def continueLast (messages : List Message) (line : List Char) : List Message :=
  match messages.getLast? with
  | some last => messages.dropLast ++ [last.continued line]
  | none => messages

/-- One turn of the loop in `parse`. -/
def readLine (messages : List Message) (line : List Char) : List Message :=
  match iosMatch line with
  | some h =>
      match iosToIso h.date h.time with
      -- malformed timestamp: the line is skipped
      | none => messages
      | some ts => messages ++ [h.message ts]
  | none =>
      match androidMatch line with
      | some h => messages ++ [h.message (androidToIso h.date h.time)]
      | none => continueLast messages line

/-- `ChatTranscriptAdapter.parse`. -/
def parse (raw : List Char) : List Message :=
  if Text.trim raw = [] then [] else (raw.splitOn '\n').foldl readLine []

/-! ## What a line does -/

def opens (line : List Char) : Option Message :=
  match iosMatch line with
  | some h => (iosToIso h.date h.time).map h.message
  | none => (androidMatch line).map fun h => h.message (androidToIso h.date h.time)

/-- The line is a header that starts a message. -/
def Starts (line : List Char) : Prop := (opens line).isSome = true

instance (line : List Char) : Decidable (Starts line) :=
  inferInstanceAs (Decidable (_ = true))

def MisTimed (line : List Char) : Prop :=
  (iosMatch line).any (fun h => (iosToIso h.date h.time).isNone) = true

instance (line : List Char) : Decidable (MisTimed line) :=
  inferInstanceAs (Decidable (_ = true))

/-- **The three things a line can do.** -/
theorem readLine_cases (messages : List Message) (line : List Char) :
    (∃ m, opens line = some m ∧ ¬ MisTimed line ∧ readLine messages line = messages ++ [m])
      ∨ (opens line = none ∧ MisTimed line ∧ readLine messages line = messages)
      ∨ (opens line = none ∧ ¬ MisTimed line
        ∧ readLine messages line = continueLast messages line) := by
  unfold opens MisTimed readLine
  cases hios : iosMatch line with
  | some h =>
      cases hts : iosToIso h.date h.time with
      | some ts => exact Or.inl ⟨h.message ts, by simp [hts], by simp [hts], by simp [hts]⟩
      | none => exact Or.inr (Or.inl ⟨by simp [hts], by simp [hts], by simp [hts]⟩)
  | none =>
      cases handroid : androidMatch line with
      | some h => exact Or.inl ⟨_, rfl, by simp, rfl⟩
      | none => exact Or.inr (Or.inr ⟨rfl, by simp, rfl⟩)

/-- What the text of a message shows of the body after its header: all of it but the
    marks, and the edited marker with the space before it. -/
def Shows (rawBody first : List Char) : Prop :=
  first = stripBidi rawBody
    ∨ ∃ gap, (∀ c ∈ gap, Text.isSpace c = true) ∧ stripBidi rawBody = first ++ gap ++ editedSuffix

/-- The line is a header of one of the two formats, and the message is its. -/
def Heads (line : List Char) (m : Message) : Prop :=
  ∃ date time rawSender rawBody, m.sender = stripBidi (Text.trim rawSender)
    ∧ Shows rawBody m.text
    ∧ ((some m.ts = iosToIso date time ∧ ∃ marks, (∀ c ∈ marks, isBidi c = true)
        ∧ line = marks ++ "[".toList ++ date ++ ", ".toList ++ time ++ "] ".toList ++ rawSender
          ++ ": ".toList ++ rawBody)
      ∨ (m.ts = androidToIso date time
        ∧ line = date ++ ", ".toList ++ time ++ " - ".toList ++ rawSender ++ ": ".toList
          ++ rawBody))

theorem shows_classifyBody (rawBody : List Char) :
    Shows rawBody (classifyBody (stripBidi rawBody)).2.1 := by
  generalize hbody : stripBidi rawBody = body
  have hself : Shows rawBody body := Or.inl hbody.symm
  unfold classifyBody
  split
  · exact hself
  split
  · exact hself
  split
  · exact hself
  split
  · exact hself
  split
  · exact hself
  split
  case isTrue hedited =>
    obtain ⟨shown, hshown⟩ := hedited
    have htake : body.take (body.length - editedSuffix.length) = shown := by
      rw [← hshown, List.length_append, Nat.add_sub_cancel, List.take_left]
    refine Or.inr ⟨shown.rtakeWhile Text.isSpace, fun c hc => ?_, ?_⟩
    · exact List.mem_rtakeWhile_imp hc
    · rw [htake, hbody, ← hshown]
      congr 1
      exact (List.rdropWhile_append_rtakeWhile ..).symm
  case isFalse => exact hself

variable {line : List Char}

theorem iosMatch_eq_some {h : Header} (hm : iosMatch line = some h) :
    ∃ marks, (∀ c ∈ marks, isBidi c = true)
      ∧ line = marks ++ "[".toList ++ h.date ++ ", ".toList ++ h.time ++ "] ".toList ++ h.rawSender
        ++ ": ".toList ++ h.rawBody := by
  obtain ⟨⟨skipped, m⟩, hexec, rfl⟩ := Option.map_eq_some_iff.mp hm
  obtain ⟨hused, hrun⟩ := Regex.of_exec_whole hexec
  obtain ⟨ms, hms, hpieces, hgroups⟩ := Regex.pieces_of_all hrun
  rw [hused] at hpieces
  rcases hms with _ | ⟨⟨_, _, hmarks⟩, _ | ⟨⟨_, _, hopen⟩, _ | ⟨⟨_, _, hdate⟩, _ | ⟨⟨_, _, hcomma⟩,
    _ | ⟨⟨_, _, htime⟩, _ | ⟨⟨_, _, hclose⟩, _ | ⟨⟨_, _, hsender⟩, _ | ⟨⟨_, _, hcolon⟩,
    _ | ⟨⟨_, _, hbody⟩, _ | ⟨⟨_, _, hstop⟩, _ | _⟩⟩⟩⟩⟩⟩⟩⟩⟩⟩
  obtain ⟨-, hbidi, -, -, hmarks⟩ := Regex.mem_run_many.mp hmarks
  obtain ⟨-, hopen, hopen'⟩ := Regex.mem_run_text.mp hopen
  obtain ⟨-, hcomma, hcomma'⟩ := Regex.mem_run_text.mp hcomma
  obtain ⟨-, hclose, hclose'⟩ := Regex.mem_run_text.mp hclose
  obtain ⟨-, hcolon, hcolon'⟩ := Regex.mem_run_text.mp hcolon
  have hdate := Regex.groups_of_group rfl hdate
  have htime := Regex.groups_of_group rfl htime
  have hsender := Regex.groups_of_group rfl hsender
  have hbody := Regex.groups_of_group rfl hbody
  obtain ⟨-, rfl⟩ := Regex.mem_run_stop.mp hstop
  simp only [List.flatMap_cons, List.flatMap_nil, hmarks, hopen, hopen', hcomma, hcomma', hclose,
    hclose', hcolon, hcolon', hdate, htime, hsender, hbody, List.nil_append, List.append_nil]
    at hpieces hgroups
  refine ⟨_, hbidi, ?_⟩
  simp only [headerOf, Regex.Match.group, hgroups, List.cons_append, List.nil_append,
    List.lookup_cons, beq_self_eq_true, Nat.reduceBEq, Option.getD_some]
  simpa only [List.append_assoc] using hpieces

theorem androidMatch_eq_some {h : Header} (hm : androidMatch line = some h) :
    line = h.date ++ ", ".toList ++ h.time ++ " - ".toList ++ h.rawSender ++ ": ".toList
      ++ h.rawBody := by
  obtain ⟨⟨skipped, m⟩, hexec, rfl⟩ := Option.map_eq_some_iff.mp hm
  obtain ⟨hused, hrun⟩ := Regex.of_exec_whole hexec
  obtain ⟨ms, hms, hpieces, hgroups⟩ := Regex.pieces_of_all hrun
  rw [hused] at hpieces
  rcases hms with _ | ⟨⟨_, _, hdate⟩, _ | ⟨⟨_, _, hcomma⟩, _ | ⟨⟨_, _, htime⟩, _ | ⟨⟨_, _, hdash⟩,
    _ | ⟨⟨_, _, hsender⟩, _ | ⟨⟨_, _, hcolon⟩, _ | ⟨⟨_, _, hbody⟩, _ | ⟨⟨_, _, hstop⟩, _ | _⟩⟩⟩⟩⟩⟩⟩⟩
  obtain ⟨-, hcomma, hcomma'⟩ := Regex.mem_run_text.mp hcomma
  obtain ⟨-, hdash, hdash'⟩ := Regex.mem_run_text.mp hdash
  obtain ⟨-, hcolon, hcolon'⟩ := Regex.mem_run_text.mp hcolon
  have hdate := Regex.groups_of_group rfl hdate
  have htime := Regex.groups_of_group rfl htime
  have hsender := Regex.groups_of_group rfl hsender
  have hbody := Regex.groups_of_group rfl hbody
  obtain ⟨-, rfl⟩ := Regex.mem_run_stop.mp hstop
  simp only [List.flatMap_cons, List.flatMap_nil, hcomma, hcomma', hdash, hdash', hcolon, hcolon',
    hdate, htime, hsender, hbody, List.nil_append, List.append_nil] at hpieces hgroups
  simp only [headerOf, Regex.Match.group, hgroups, List.cons_append, List.nil_append,
    List.lookup_cons, beq_self_eq_true, Nat.reduceBEq, Option.getD_some]
  simpa only [List.append_assoc] using hpieces

/-- **A line that starts a message is its header.** -/
theorem heads_of_opens {m : Message} (h : opens line = some m) : Heads line m := by
  unfold opens at h
  cases hios : iosMatch line with
  | some head =>
      rw [hios] at h
      obtain ⟨ts, hts, rfl⟩ := Option.map_eq_some_iff.mp h
      exact ⟨head.date, head.time, head.rawSender, head.rawBody, rfl, shows_classifyBody _,
        Or.inl ⟨hts.symm, iosMatch_eq_some hios⟩⟩
  | none =>
      rw [hios] at h
      obtain ⟨head, handroid, rfl⟩ := Option.map_eq_some_iff.mp h
      exact ⟨head.date, head.time, head.rawSender, head.rawBody, rfl, shows_classifyBody _,
        Or.inr ⟨rfl, androidMatch_eq_some handroid⟩⟩

/-! ## Carriage returns -/

theorem iosMatch_eq_none (h : '\r' ∈ line) : iosMatch line = none := by
  unfold iosMatch iosLineRe
  rw [Regex.exec_whole_eq_none (by decide +kernel) h]
  rfl

theorem androidMatch_eq_none (h : '\r' ∈ line) : androidMatch line = none := by
  unfold androidMatch androidLineRe
  rw [Regex.exec_whole_eq_none (by decide +kernel) h]
  rfl

theorem opens_eq_none (h : '\r' ∈ line) : opens line = none := by
  unfold opens
  rw [iosMatch_eq_none h, androidMatch_eq_none h]
  rfl

/-! ## Lines read one by one -/

def readLines (ls : List (List Char)) : List Message := ls.foldl readLine []

theorem readLines_concat (ls : List (List Char)) (line : List Char) :
    readLines (ls ++ [line]) = readLine (readLines ls) line := List.foldl_concat ..

theorem not_misTimed_of_starts (h : Starts line) : ¬ MisTimed line := by
  rcases readLine_cases [] line with ⟨m, -, hnot, -⟩ | ⟨hnone, -, -⟩ | ⟨hnone, -, -⟩
  · exact hnot
  · rw [Starts, hnone] at h
    cases h
  · rw [Starts, hnone] at h
    cases h

theorem length_continueLast (messages : List Message) (line : List Char) :
    (continueLast messages line).length = messages.length := by
  rcases List.eq_nil_or_concat messages with rfl | ⟨init, last, rfl⟩
  · rfl
  · simp [continueLast]

theorem length_readLines (ls : List (List Char)) :
    (readLines ls).length = ls.countP fun line => Starts line := by
  induction ls using List.reverseRecOn with
  | nil => rfl
  | append_singleton ls line ih =>
      rw [readLines_concat, List.countP_append, ← ih]
      rcases readLine_cases (readLines ls) line with ⟨m, hm, -, hs⟩ | ⟨hnone, -, hs⟩
        | ⟨hnone, -, hs⟩
      · have hstarts : Starts line := by rw [Starts, hm]; rfl
        rw [hs]
        simp [hstarts]
      · have hstarts : ¬ Starts line := by rw [Starts, hnone]; exact Bool.false_ne_true
        rw [hs]
        simp [hstarts]
      · have hstarts : ¬ Starts line := by rw [Starts, hnone]; exact Bool.false_ne_true
        rw [hs, length_continueLast]
        simp [hstarts]

theorem readLines_eq_nil {ls : List (List Char)} (h : ∀ line ∈ ls, ¬ Starts line) :
    readLines ls = [] := by
  rw [← List.length_eq_zero_iff, length_readLines, List.countP_eq_zero]
  exact fun line hline => by simpa using h line hline

theorem colon_mem_of_starts (h : Starts line) : ':' ∈ line := by
  obtain ⟨m, hm⟩ := Option.isSome_iff_exists.mp h
  obtain ⟨date, time, rawSender, rawBody, -, -, ⟨-, marks, -, hline⟩ | ⟨-, hline⟩⟩ :=
    heads_of_opens hm
  · rw [hline]
    simp
  · rw [hline]
    simp

theorem parse_eq (raw : List Char) : parse raw = readLines (raw.splitOn '\n') := by
  unfold parse
  split
  case isFalse => rfl
  case isTrue hblank =>
    refine (readLines_eq_nil fun line hline hstarts => ?_).symm
    have hcolon := (Lines.of_mem_splitOn hline).2 (colon_mem_of_starts hstarts)
    refine Text.trim_ne_nil.mpr ⟨':', hcolon, rfl⟩ hblank

/-! ## Blocks of lines -/

/-- A header and the lines that continue it. -/
structure Block where
  line : List Char
  more : List (List Char)

def Block.lines (b : Block) : List (List Char) := b.line :: b.more

/-- The message is the one that the block's header starts, with the other lines after
    its text, and none of these is a header. -/
structure Block.Tells (b : Block) (m : Message) : Prop where
  heads : ∃ first, Heads b.line first
    ∧ m = { first with text := first.text ++ b.more.flatMap fun line => '\n' :: line }
  more : ∀ line ∈ b.more, ¬ Starts line

/-- The lines from the first message on, without the headers that have no hour. -/
def keptLines (ls : List (List Char)) : List (List Char) :=
  (ls.dropWhile fun line => ¬ Starts line).filter fun line => ¬ MisTimed line

/-- Every line from the first message on is a header of one message or part of its
    text, in the order of the export. -/
def Recovered (raw : List Char) (messages : List Message) : Prop :=
  ∃ blocks : List Block, keptLines (raw.splitOn '\n') = blocks.flatMap Block.lines
    ∧ List.Forall₂ Block.Tells blocks messages

theorem Block.Tells.continued {b : Block} {m : Message} (h : b.Tells m) (hline : ¬ Starts line) :
    Block.Tells ⟨b.line, b.more ++ [line]⟩ (m.continued line) := by
  obtain ⟨⟨first, hfirst, rfl⟩, hmore⟩ := h
  refine ⟨⟨first, hfirst, ?_⟩, ?_⟩
  · simp [Message.continued]
  · intro l hl
    rcases List.mem_append.mp hl with hl | hl
    · exact hmore l hl
    · rwa [List.mem_singleton.mp hl]

theorem forall₂_concat {α β : Type} {R : α → β → Prop} {as : List α} {a : α} {bs : List β}
    (h : List.Forall₂ R (as ++ [a]) bs) :
    ∃ bs' b, bs = bs' ++ [b] ∧ List.Forall₂ R as bs' ∧ R a b := by
  have hrev := List.forall₂_reverse_iff.mpr h
  rw [List.reverse_append, List.reverse_singleton, List.singleton_append] at hrev
  obtain ⟨b, rest, hab, hrest, hbs⟩ := List.forall₂_cons_left_iff.mp hrev
  refine ⟨rest.reverse, b, ?_, ?_, hab⟩
  · rw [← List.reverse_cons, ← hbs, List.reverse_reverse]
  · rw [← List.forall₂_reverse_iff, List.reverse_reverse]
    exact hrest

section Blocks

variable {ls : List (List Char)} {line : List Char}

theorem keptLines_eq_nil (h : keptLines ls = []) : ∀ line ∈ ls, ¬ Starts line := by
  intro line hline hstarts
  cases hdrop : ls.dropWhile fun line => ¬ Starts line with
  | nil =>
      have hall := List.dropWhile_eq_nil_iff.mp hdrop line hline
      simp [hstarts] at hall
  | cons first rest =>
      have hfirst : Starts first := by
        have hhead := List.head?_dropWhile_not (fun line => ¬ Starts line) ls
        rw [hdrop] at hhead
        simpa using hhead
      have hmem : first ∈ keptLines ls := by
        unfold keptLines
        rw [hdrop]
        exact List.mem_filter.mpr
          ⟨List.mem_cons_self, decide_eq_true (not_misTimed_of_starts hfirst)⟩
      rw [h] at hmem
      cases hmem

theorem keptLines_starts (h : Starts line) : keptLines (ls ++ [line]) = keptLines ls ++ [line] := by
  have hkeep := not_misTimed_of_starts h
  unfold keptLines
  rw [List.dropWhile_append]
  split
  case isTrue hempty =>
    rw [List.isEmpty_iff.mp hempty]
    simp [h, hkeep]
  case isFalse => simp [hkeep]

theorem keptLines_misTimed (h : ¬ Starts line) (hskip : MisTimed line) :
    keptLines (ls ++ [line]) = keptLines ls := by
  unfold keptLines
  rw [List.dropWhile_append]
  split
  case isTrue hempty =>
    rw [List.isEmpty_iff.mp hempty]
    simp [h]
  case isFalse => simp [hskip]

theorem keptLines_more (hskip : ¬ MisTimed line) (hsome : keptLines ls ≠ []) :
    keptLines (ls ++ [line]) = keptLines ls ++ [line] := by
  have hdrop : ls.dropWhile (fun line => ¬ Starts line) ≠ [] := by
    intro hnil
    refine hsome ?_
    unfold keptLines
    rw [hnil]
    rfl
  unfold keptLines
  rw [List.dropWhile_append, if_neg (by simpa using hdrop)]
  simp [hskip]

theorem keptLines_orphan (h : ¬ Starts line) (hnone : keptLines ls = []) :
    keptLines (ls ++ [line]) = [] := by
  have hstarts : ∀ l ∈ ls ++ [line], ¬ Starts l := by
    intro l hl
    rcases List.mem_append.mp hl with hl | hl
    · exact keptLines_eq_nil hnone l hl
    · rwa [List.mem_singleton.mp hl]
  have hdrop : (ls ++ [line]).dropWhile (fun line => ¬ Starts line) = [] :=
    List.dropWhile_eq_nil_iff.mpr fun l hl => by simpa using hstarts l hl
  unfold keptLines
  rw [hdrop]
  rfl

/-- **The lines that are kept are those of the messages**, each message its header and
    the lines that continue it. -/
theorem readLines_blocks (ls : List (List Char)) :
    ∃ blocks : List Block, keptLines ls = blocks.flatMap Block.lines
      ∧ List.Forall₂ Block.Tells blocks (readLines ls) := by
  induction ls using List.reverseRecOn with
  | nil => exact ⟨[], rfl, .nil⟩
  | append_singleton ls line ih =>
      obtain ⟨blocks, hkept, htells⟩ := ih
      rw [readLines_concat]
      rcases readLine_cases (readLines ls) line with ⟨m, hm, -, hs⟩ | ⟨hnone, hskip, hs⟩
        | ⟨hnone, hskip, hs⟩
      · -- a new block, the header alone
        have hstarts : Starts line := by rw [Starts, hm]; rfl
        refine ⟨blocks ++ [⟨line, []⟩], ?_, ?_⟩
        · rw [keptLines_starts hstarts, hkept, List.flatMap_append]
          rfl
        · rw [hs]
          refine List.rel_append htells (.cons ⟨⟨m, heads_of_opens hm, ?_⟩, ?_⟩ .nil)
          · simp
          · exact fun l hl => absurd hl List.not_mem_nil
      · have hstarts : ¬ Starts line := by rw [Starts, hnone]; exact Bool.false_ne_true
        refine ⟨blocks, ?_, ?_⟩
        · rw [keptLines_misTimed hstarts hskip, hkept]
        · rw [hs]
          exact htells
      · have hstarts : ¬ Starts line := by rw [Starts, hnone]; exact Bool.false_ne_true
        rcases List.eq_nil_or_concat blocks with rfl | ⟨init, b, rfl⟩
        · -- no message yet: the line is ignored
          refine ⟨[], keptLines_orphan hstarts hkept, ?_⟩
          have hnil := List.forall₂_nil_left_iff.mp htells
          rw [hs, hnil]
          exact .nil
        · -- the last block grows
          rw [List.concat_eq_append] at hkept htells
          obtain ⟨ms, m, hms, hinit, hb⟩ := forall₂_concat htells
          have hlines : (init ++ [b]).flatMap Block.lines
              = init.flatMap Block.lines ++ b.lines := by
            simp
          have hsome : keptLines ls ≠ [] := by
            rw [hkept, hlines]
            exact List.append_ne_nil_of_right_ne_nil _ (List.cons_ne_nil _ _)
          refine ⟨init ++ [⟨b.line, b.more ++ [line]⟩], ?_, ?_⟩
          · rw [keptLines_more hskip hsome, hkept, hlines]
            simp [Block.lines]
          · rw [hs, hms]
            unfold continueLast
            rw [List.getLast?_concat, List.dropLast_concat]
            exact List.rel_append hinit (.cons (hb.continued hstarts) .nil)

end Blocks

/-! ## Line endings -/

/-- The export with the line endings of Windows. -/
def crlf (raw : List Char) : List Char :=
  raw.flatMap fun c => if c = '\n' then ['\r', '\n'] else [c]

def Message.withoutCr (m : Message) : Message :=
  { m with
    text := ['\n'].intercalate
      ((m.text.splitOn '\n').map fun l => if l.getLast? = some '\r' then l.dropLast else l) }

/-- What is asked: the same messages under either line ending, and no line lost. -/
def NoLineLost (raw : List Char) : Prop :=
  (parse (crlf raw)).map Message.withoutCr = (parse raw).map Message.withoutCr
    ∧ Recovered raw (parse raw)

theorem splitOn_crlf {raw last : List Char} {init : List (List Char)}
    (h : raw.splitOn '\n' = init ++ [last]) :
    (crlf raw).splitOn '\n' = init.map (· ++ ['\r']) ++ [last] := by
  induction raw generalizing init last with
  | nil =>
      have hsplit : [] ++ [[]] = init ++ [last] := h
      obtain ⟨rfl, hlast⟩ := List.append_inj' hsplit rfl
      rw [← List.cons.inj hlast |>.1]
      rfl
  | cons c raw ih =>
      obtain ⟨init', last', hraw⟩ : ∃ init' last', raw.splitOn '\n' = init' ++ [last'] := by
        rcases List.eq_nil_or_concat (raw.splitOn '\n') with hnil | ⟨init', last', hraw⟩
        · exact absurd hnil (List.splitOn_ne_nil _ _)
        · exact ⟨init', last', hraw.trans (List.concat_eq_append ..)⟩
      have hcrlf := ih hraw
      rw [List.splitOn_cons_eq_if_modifyHead, hraw] at h
      by_cases hc : c = '\n'
      · subst hc
        rw [if_pos (beq_self_eq_true _), ← List.cons_append] at h
        obtain ⟨rfl, hlast⟩ := List.append_inj' h rfl
        have htext : crlf ('\n' :: raw) = '\r' :: '\n' :: crlf raw := rfl
        rw [htext, List.splitOn_cons_eq_if_modifyHead, if_neg (by decide),
          List.splitOn_cons_eq_if_modifyHead, if_pos (beq_self_eq_true _), hcrlf,
          List.modifyHead_cons, ← hlast]
        rfl
      · have htext : crlf (c :: raw) = c :: crlf raw := by
          simp [crlf, hc]
        have hne : ¬ (c == '\n') = true := by simpa using hc
        rw [if_neg hne] at h
        rw [htext, List.splitOn_cons_eq_if_modifyHead, if_neg hne, hcrlf]
        cases init' with
        | nil =>
            have hsplit : [] ++ [c :: last'] = init ++ [last] := h
            obtain ⟨rfl, hlast⟩ := List.append_inj' hsplit rfl
            rw [← hlast]
            rfl
        | cons first rest =>
            have hsplit : ((c :: first) :: rest) ++ [last'] = init ++ [last] := h
            obtain ⟨rfl, hlast⟩ := List.append_inj' hsplit rfl
            rw [← hlast]
            rfl

/-- **Nothing is lost and the line endings make no difference exactly when no line but
    the last starts a message.** -/
theorem noLineLost_iff (raw : List Char) :
    NoLineLost raw ↔ ∀ line ∈ (raw.splitOn '\n').dropLast, ¬ Starts line := by
  obtain ⟨init, last, hraw⟩ : ∃ init last, raw.splitOn '\n' = init ++ [last] := by
    rcases List.eq_nil_or_concat (raw.splitOn '\n') with hnil | ⟨init, last, hraw⟩
    · exact absurd hnil (List.splitOn_ne_nil _ _)
    · exact ⟨init, last, hraw.trans (List.concat_eq_append ..)⟩
  have hcr : ∀ line ∈ init.map (· ++ ['\r']), ¬ Starts line := by
    intro line hline hstarts
    obtain ⟨l, -, rfl⟩ := List.mem_map.mp hline
    rw [Starts, opens_eq_none (List.mem_append_right _ (List.mem_singleton_self _))] at hstarts
    cases hstarts
  have hcrlf : parse (crlf raw) = readLine [] last := by
    rw [parse_eq, splitOn_crlf hraw, readLines_concat, readLines_eq_nil hcr]
  have hlf : parse raw = readLine (readLines init) last := by
    rw [parse_eq, hraw, readLines_concat]
  rw [hraw, List.dropLast_concat]
  constructor
  · rintro ⟨hsame, -⟩
    -- the CRLF export has at most the last message, so the others number none
    have hlen := congrArg List.length hsame
    rw [List.length_map, List.length_map, parse_eq, parse_eq, hraw, splitOn_crlf hraw,
      length_readLines, length_readLines, List.countP_append, List.countP_append,
      List.countP_eq_zero.mpr fun line hline => by simpa using hcr line hline] at hlen
    have hnone : init.countP (fun line => Starts line) = 0 := by omega
    intro line hline
    simpa using List.countP_eq_zero.mp hnone line hline
  · intro hnone
    refine ⟨?_, ?_⟩
    · rw [hcrlf, hlf, readLines_eq_nil hnone]
    · rw [parse_eq]
      exact readLines_blocks _

/-- Two messages, of which the CRLF export shows the last one. -/
theorem crlf_loses_messages :
    ¬ NoLineLost "1/2/26, 10:00 - Ann: hi\n1/2/26, 10:01 - Bob: yo".toList := by
  rintro ⟨hsame, -⟩
  exact absurd (congrArg List.length hsame) (by decide +kernel)

end ChatTranscript
