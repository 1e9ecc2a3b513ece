import Mathlib.Tactic.Common

/-! # URLs — how they are spelled, and the pairs of their queries

    A URL that has been parsed is four texts: the scheme, the host, the path and the
    query.  It is spelled by putting them together, and read back by cutting at the first
    character that can end each part.

    * `Url.text`, `Url.read`: the spelling, and the reading; `read_text` is the round trip;
    * `formDecode`, `formEncode`: a name or a value of a query, as it is spelled;
    * `parsePairs`, `serializePairs`, `setPair`: the pairs of a query;
    * `formDecode_literal`, `parsePairs_append`: **what is written plainly is read back.** -/

namespace Web

/-! ## URLs -/

/-- A URL, as it has been parsed. -/
structure Url where
  scheme : List Char
  host : List Char
  path : List Char
  query : Option (List Char)
  deriving DecidableEq

/-- What stands between a scheme and its host. -/
def schemeMark : List Char := [':', '/', '/']

/-- How a query is spelled. -/
def queryText : Option (List Char) → List Char
  | none => []
  | some q => '?' :: q

/-- How a URL is spelled. -/
def Url.text (u : Url) : List Char :=
  u.scheme ++ (schemeMark ++ (u.host ++ (u.path ++ queryText u.query)))

def endsHost (c : Char) : Bool := c = '/' || c = '?' || c = '#'

def endsPath (c : Char) : Bool := c = '?' || c = '#'

/-- What follows a path: a query, up to a fragment. -/
def readQuery : List Char → Option (List Char)
  | '?' :: rest => some (rest.takeWhile (· ≠ '#'))
  | _ => none

/-- The parts of a text after its scheme. -/
def readParts (scheme rest : List Char) : Url where
  scheme := scheme
  host := rest.takeWhile (!endsHost ·)
  path := (rest.dropWhile (!endsHost ·)).takeWhile (!endsPath ·)
  query := readQuery ((rest.dropWhile (!endsHost ·)).dropWhile (!endsPath ·))

def Url.read (s : List Char) : Option Url :=
  if schemeMark.isPrefixOf (s.dropWhile (· ≠ ':')) then
    some (readParts (s.takeWhile (· ≠ ':')) ((s.dropWhile (· ≠ ':')).drop schemeMark.length))
  else none

/-- The parts are what parsing leaves: none has a character that would end it. -/
structure Url.Spelled (u : Url) : Prop where
  scheme : ':' ∉ u.scheme
  host : ∀ c ∈ u.host, endsHost c = false
  path : ∀ c ∈ u.path, endsPath c = false
  rooted : ∃ rest, u.path = '/' :: rest
  query : ∀ q ∈ u.query, '#' ∉ q

theorem takeWhile_append_stop {p : Char → Bool} {s : List Char} {t : List Char}
    (hs : ∀ c ∈ s, p c = true) (hrest : ∀ c ∈ t.head?, p c = false) :
    (s ++ t).takeWhile p = s ∧ (s ++ t).dropWhile p = t := by
  induction s with
  | nil =>
      cases t with
      | nil => exact ⟨rfl, rfl⟩
      | cons c t =>
          have hc := hrest c rfl
          simp [hc]
  | cons c s ih =>
      have hc := hs c List.mem_cons_self
      obtain ⟨htake, hdrop⟩ := ih fun d hd => hs d (List.mem_cons_of_mem _ hd)
      simp [hc, htake, hdrop]

theorem readQuery_queryText {q : Option (List Char)} (h : ∀ s ∈ q, '#' ∉ s) :
    readQuery (queryText q) = q := by
  cases q with
  | none => rfl
  | some s =>
      have hs := (takeWhile_append_stop (p := (· ≠ '#')) (s := s) (t := [])
        (fun c hc => by
          have hne : c ≠ '#' := fun heq => h s rfl (heq ▸ hc)
          simpa using hne) (by simp)).1
      rw [List.append_nil] at hs
      exact congrArg some hs

/-- **A spelled URL is read back.** -/
theorem read_text {u : Url} (h : u.Spelled) : Url.read u.text = some u := by
  obtain ⟨scheme, host, path, query⟩ := u
  obtain ⟨hscheme, hhost, hpath, ⟨rest, rfl⟩, hquery⟩ := h
  obtain ⟨htake, hdrop⟩ := takeWhile_append_stop (p := (· ≠ ':')) (s := scheme)
    (t := schemeMark ++ (host ++ ('/' :: rest ++ queryText query)))
    (fun c hc => by
      have hne : c ≠ ':' := fun heq => hscheme (heq ▸ hc)
      simpa using hne) (by simp [schemeMark])
  obtain ⟨htakeHost, hdropHost⟩ := takeWhile_append_stop (p := (!endsHost ·)) (s := host)
    (t := '/' :: rest ++ queryText query) (fun c hc => by simp [hhost c hc])
    (by simp [endsHost])
  obtain ⟨htakePath, hdropPath⟩ := takeWhile_append_stop (p := (!endsPath ·)) (s := '/' :: rest)
    (t := queryText query) (fun c hc => by simp [hpath c hc])
    (by cases query <;> simp [queryText, endsPath])
  unfold Url.read Url.text
  rw [htake, hdrop, if_pos (by simp [schemeMark])]
  unfold readParts
  rw [List.drop_left, htakeHost, hdropHost, htakePath, hdropPath, readQuery_queryText hquery]

/-! ## Bytes and texts -/

/-- The bytes of a text. -/
def utf8Bytes (s : List Char) : List Nat :=
  s.flatMap fun c => (String.utf8EncodeChar c).map UInt8.toNat

/-- A character that is not read to its end: how many bytes it still needs, between which
    bounds the next one lies, and the bits read so far. -/
structure Unread where
  needed : Nat
  low : Nat
  high : Nat
  bits : Nat

/-- The first byte of a character: what it gives, and what is then unread. -/
def firstByte (b : Nat) : List Char × Option Unread :=
  if b < 0x80 then ([Char.ofNat b], none)
  else if 0xC2 ≤ b ∧ b ≤ 0xDF then ([], some ⟨1, 0x80, 0xBF, b - 0xC0⟩)
  else if b = 0xE0 then ([], some ⟨2, 0xA0, 0xBF, 0⟩)
  else if b = 0xED then ([], some ⟨2, 0x80, 0x9F, 0xD⟩)
  else if 0xE1 ≤ b ∧ b ≤ 0xEF then ([], some ⟨2, 0x80, 0xBF, b - 0xE0⟩)
  else if b = 0xF0 then ([], some ⟨3, 0x90, 0xBF, 0⟩)
  else if b = 0xF4 then ([], some ⟨3, 0x80, 0x8F, 4⟩)
  else if 0xF1 ≤ b ∧ b ≤ 0xF3 then ([], some ⟨3, 0x80, 0xBF, b - 0xF0⟩)
  else (['\uFFFD'], none)

/-- One more byte; a byte that does not go on starts anew. -/
def nextByte : Option Unread → Nat → List Char × Option Unread
  | none, b => firstByte b
  | some u, b =>
      if u.low ≤ b ∧ b ≤ u.high then
        let bits := u.bits * 64 + b % 64
        if u.needed = 1 then ([Char.ofNat bits], none)
        else ([], some ⟨u.needed - 1, 0x80, 0xBF, bits⟩)
      else ('\uFFFD' :: (firstByte b).1, (firstByte b).2)

/-- The text of bytes; what is no text is replaced. -/
def decodeUtf8 : Option Unread → List Nat → List Char
  | none, [] => []
  | some _, [] => ['\uFFFD']
  | u, b :: bs => (nextByte u b).1 ++ decodeUtf8 (nextByte u b).2 bs

/-! ## Names and values of a query -/

def hexDigit? (b : Nat) : Option Nat :=
  if 48 ≤ b ∧ b ≤ 57 then some (b - 48)
  else if 65 ≤ b ∧ b ≤ 70 then some (b - 55)
  else if 97 ≤ b ∧ b ≤ 102 then some (b - 87)
  else none

/-- A percent sign and two hexadecimal digits are a byte. -/
def percentDecode : List Nat → List Nat
  | 37 :: h :: l :: rest =>
      match hexDigit? h, hexDigit? l with
      | some x, some y => (x * 16 + y) :: percentDecode rest
      | _, _ => 37 :: percentDecode (h :: l :: rest)
  | b :: rest => b :: percentDecode rest
  | [] => []

/-- A name or a value, as it is read. -/
def formDecode (s : List Char) : List Char :=
  decodeUtf8 none (percentDecode (utf8Bytes (s.map fun c => if c = '+' then ' ' else c)))

/-- The characters that stand for themselves. -/
def isFormPlain (c : Char) : Bool :=
  c.isAlphanum || c = '*' || c = '-' || c = '.' || c = '_'

/-- A digit of an escaped byte. -/
def upperHex (n : Nat) : Char := Char.ofNat (if n < 10 then 48 + n else 55 + n)

/-- A name or a value, as it is spelled. -/
def formEncode (s : List Char) : List Char :=
  s.flatMap fun c =>
    if isFormPlain c then [c]
    else if c = ' ' then ['+']
    else (utf8Bytes [c]).flatMap fun b => ['%', upperHex (b / 16), upperHex (b % 16)]

/-! ## Pairs -/

/-- One piece of a query: its name, and what follows the first equals sign. -/
def readPair (s : List Char) : List Char × List Char :=
  (formDecode (s.takeWhile (· ≠ '=')), formDecode ((s.dropWhile (· ≠ '=')).drop 1))

def parsePairs (query : List Char) : List (List Char × List Char) :=
  ((query.splitOn '&').filter (· ≠ [])).map readPair

/-- The first pair of the name has the value, and no other pair has the name; a new pair stands
    last. -/
def setPair (name value : List Char) : List (List Char × List Char) → List (List Char × List Char)
  | [] => [(name, value)]
  | p :: ps =>
      if p.1 = name then (name, value) :: ps.filter (·.1 ≠ name) else p :: setPair name value ps

/-- A pair, as it is spelled. -/
def pairText (p : List Char × List Char) : List Char := formEncode p.1 ++ '=' :: formEncode p.2

/-- Pairs, as they are spelled. -/
def serializePairs (ps : List (List Char × List Char)) : List Char :=
  ['&'].intercalate (ps.map pairText)

/-- `searchParams.set`. -/
def Url.setParam (u : Url) (name value : List Char) : Url :=
  { u with query := some (serializePairs (setPair name value (parsePairs (u.query.getD [])))) }

def lastPair (ps : List (List Char × List Char)) (name : List Char) : Option (List Char) :=
  (ps.reverse.find? (·.1 = name)).map Prod.snd

/-! ## What is written plainly -/

/-- The character is read as itself. -/
def isLiteral (c : Char) : Bool := c.toNat < 128 && c ≠ '%' && c ≠ '+'

variable {s : List Char}

theorem utf8Bytes_ascii (h : ∀ c ∈ s, c.toNat < 128) : utf8Bytes s = s.map Char.toNat := by
  unfold utf8Bytes
  induction s with
  | nil => rfl
  | cons c s ih =>
      have hlt := h c List.mem_cons_self
      have hbyte : (String.utf8EncodeChar c).map UInt8.toNat = [c.toNat] := by
        unfold String.utf8EncodeChar
        have hone : c.val.toNat ≤ 127 := Nat.le_of_lt_succ hlt
        rw [if_pos hone, List.map_singleton, UInt8.toNat_ofNat']
        exact congrArg (fun n => [n]) (Nat.mod_eq_of_lt (Nat.lt_of_lt_of_le hlt (by decide)))
      rw [List.flatMap_cons, hbyte, ih fun d hd => h d (List.mem_cons_of_mem _ hd)]
      rfl

theorem decodeUtf8_goes_on {needed low high bits b : Nat} (bs : List Nat) (hlow : low ≤ b)
    (hhigh : b ≤ high) : decodeUtf8 (some ⟨needed + 2, low, high, bits⟩) (b :: bs)
      = decodeUtf8 (some ⟨needed + 1, 0x80, 0xBF, bits * 64 + b % 64⟩) bs := by
  have hnext : nextByte (some ⟨needed + 2, low, high, bits⟩) b
      = ([], some ⟨needed + 1, 0x80, 0xBF, bits * 64 + b % 64⟩) := by
    unfold nextByte
    dsimp only
    rw [if_pos ⟨hlow, hhigh⟩, if_neg (by omega)]
    rfl
  rw [decodeUtf8, hnext]
  rfl

theorem decodeUtf8_ends {low high bits b : Nat} (bs : List Nat) (hlow : low ≤ b)
    (hhigh : b ≤ high) : decodeUtf8 (some ⟨1, low, high, bits⟩) (b :: bs)
      = Char.ofNat (bits * 64 + b % 64) :: decodeUtf8 none bs := by
  have hnext : nextByte (some ⟨1, low, high, bits⟩) b
      = ([Char.ofNat (bits * 64 + b % 64)], none) := by
    unfold nextByte
    dsimp only
    rw [if_pos ⟨hlow, hhigh⟩, if_pos rfl]
  rw [decodeUtf8, hnext]
  rfl

theorem decodeUtf8_first {b : Nat} {u : Unread} (bs : List Nat) (h : firstByte b = ([], some u)) :
    decodeUtf8 none (b :: bs) = decodeUtf8 (some u) bs := by
  have hnext : nextByte none b = ([], some u) := h
  rw [decodeUtf8, hnext]
  rfl

/-- **The bytes of a character are read as it.** -/
theorem decodeUtf8_char (c : Char) (bs : List Nat) :
    decodeUtf8 none ((String.utf8EncodeChar c).map UInt8.toNat ++ bs)
      = c :: decodeUtf8 none bs := by
  have hc : Char.ofNat c.val.toNat = c := Char.ofNat_toNat c
  have hvalid : c.val.toNat < 0xD800 ∨ 0xDFFF < c.val.toNat ∧ c.val.toNat < 0x110000 := c.valid
  unfold String.utf8EncodeChar
  dsimp only
  generalize c.val.toNat = v at hc hvalid
  have hbyte : ∀ n, n < 256 → (UInt8.ofNat n).toNat = n := fun n hn => by
    exact Nat.mod_eq_of_lt hn
  split
  · rw [List.map_singleton, hbyte v (by omega), List.singleton_append]
    have hfirst : nextByte none v = ([c], none) := by
      change firstByte v = _
      unfold firstByte
      rw [if_pos (by omega), hc]
    rw [decodeUtf8, hfirst]
    rfl
  split
  · have hfirst : firstByte (v / 64 % 0x20 + 0xC0) = ([], some ⟨1, 0x80, 0xBF, v / 64⟩) := by
      have hbits : v / 64 % 0x20 + 0xC0 - 0xC0 = v / 64 := by omega
      unfold firstByte
      rw [if_neg (by omega), if_pos (by omega), hbits]
    have hvalue : v / 64 * 64 + (v % 0x40 + 0x80) % 64 = v := by omega
    rw [List.map_cons, List.map_singleton, hbyte _ (by omega), hbyte _ (by omega),
      List.cons_append, List.singleton_append, decodeUtf8_first _ hfirst,
      decodeUtf8_ends _ (by omega) (by omega), hvalue, hc]
  split
  · obtain ⟨low, high, hfirst, hlow, hhigh⟩ : ∃ low high,
        firstByte (v / 4096 % 0x10 + 0xE0) = ([], some ⟨2, low, high, v / 4096⟩) ∧
          low ≤ v / 64 % 0x40 + 0x80 ∧ v / 64 % 0x40 + 0x80 ≤ high := by
      have hbits : v / 4096 % 0x10 + 0xE0 - 0xE0 = v / 4096 := by omega
      unfold firstByte
      rw [if_neg (by omega), if_neg (by omega)]
      by_cases hzero : v / 4096 = 0
      · rw [if_pos (by omega), hzero]
        exact ⟨0xA0, 0xBF, rfl, by omega, by omega⟩
      · rw [if_neg (by omega)]
        by_cases hsurrogate : v / 4096 = 0xD
        · rw [if_pos (by omega), hsurrogate]
          exact ⟨0x80, 0x9F, rfl, by omega, by omega⟩
        · rw [if_neg (by omega), if_pos (by omega), hbits]
          exact ⟨0x80, 0xBF, rfl, by omega, by omega⟩
    have hvalue : (v / 4096 * 64 + (v / 64 % 0x40 + 0x80) % 64) * 64 + (v % 0x40 + 0x80) % 64
        = v := by omega
    rw [List.map_cons, List.map_cons, List.map_singleton, hbyte _ (by omega), hbyte _ (by omega),
      hbyte _ (by omega), List.cons_append, List.cons_append, List.singleton_append,
      decodeUtf8_first _ hfirst, decodeUtf8_goes_on _ hlow hhigh,
      decodeUtf8_ends _ (by omega) (by omega), hvalue, hc]
  · obtain ⟨low, high, hfirst, hlow, hhigh⟩ : ∃ low high,
        firstByte (v / 262144 % 0x08 + 0xF0) = ([], some ⟨3, low, high, v / 262144⟩) ∧
          low ≤ v / 4096 % 0x40 + 0x80 ∧ v / 4096 % 0x40 + 0x80 ≤ high := by
      have hbits : v / 262144 % 0x08 + 0xF0 - 0xF0 = v / 262144 := by omega
      unfold firstByte
      rw [if_neg (by omega), if_neg (by omega), if_neg (by omega), if_neg (by omega),
        if_neg (by omega)]
      by_cases hzero : v / 262144 = 0
      · rw [if_pos (by omega), hzero]
        exact ⟨0x90, 0xBF, rfl, by omega, by omega⟩
      · rw [if_neg (by omega)]
        by_cases hlast : v / 262144 = 4
        · rw [if_pos (by omega), hlast]
          exact ⟨0x80, 0x8F, rfl, by omega, by omega⟩
        · rw [if_neg (by omega), if_pos (by omega), hbits]
          exact ⟨0x80, 0xBF, rfl, by omega, by omega⟩
    have hvalue : ((v / 262144 * 64 + (v / 4096 % 0x40 + 0x80) % 64) * 64
        + (v / 64 % 0x40 + 0x80) % 64) * 64 + (v % 0x40 + 0x80) % 64 = v := by omega
    rw [List.map_cons, List.map_cons, List.map_cons, List.map_singleton, hbyte _ (by omega),
      hbyte _ (by omega), hbyte _ (by omega), hbyte _ (by omega), List.cons_append,
      List.cons_append, List.cons_append, List.singleton_append, decodeUtf8_first _ hfirst,
      decodeUtf8_goes_on _ hlow hhigh, decodeUtf8_goes_on _ (by omega) (by omega),
      decodeUtf8_ends _ (by omega) (by omega), hvalue, hc]

/-- **A text is read back from its bytes.** -/
theorem decodeUtf8_utf8Bytes (s : List Char) : decodeUtf8 none (utf8Bytes s) = s := by
  induction s with
  | nil => rfl
  | cons c s ih =>
      have hcons : utf8Bytes (c :: s)
          = (String.utf8EncodeChar c).map UInt8.toNat ++ utf8Bytes s := List.flatMap_cons
      rw [hcons, decodeUtf8_char, ih]

theorem utf8Bytes_lt (s : List Char) : ∀ b ∈ utf8Bytes s, b < 256 := by
  intro b hb
  obtain ⟨c, -, hc⟩ := List.mem_flatMap.mp hb
  obtain ⟨u, -, rfl⟩ := List.mem_map.mp hc
  exact u.toNat_lt

theorem utf8Bytes_ne_nil (h : s ≠ []) : utf8Bytes s ≠ [] := by
  intro hnil
  have hread := decodeUtf8_utf8Bytes s
  rw [hnil] at hread
  exact h hread.symm

theorem percentDecode_cons {b : Nat} (h : b ≠ 37) (bs : List Nat) :
    percentDecode (b :: bs) = b :: percentDecode bs := by
  rw [percentDecode]
  rintro h' l rest rfl
  exact absurd rfl h

theorem percentDecode_plain {bs : List Nat} (h : 37 ∉ bs) : percentDecode bs = bs := by
  induction bs with
  | nil => rfl
  | cons b bs ih =>
      rw [List.mem_cons, not_or] at h
      rw [percentDecode_cons (Ne.symm h.1), ih h.2]

theorem decodeUtf8_ascii (h : ∀ c ∈ s, c.toNat < 128) : decodeUtf8 none (s.map Char.toNat) = s := by
  rw [← utf8Bytes_ascii h]
  exact decodeUtf8_utf8Bytes s

/-- **What is written plainly is read as it is written.** -/
theorem formDecode_literal (h : s.all isLiteral = true) : formDecode s = s := by
  have hall : ∀ c ∈ s, c.toNat < 128 ∧ c ≠ '%' ∧ c ≠ '+' := by
    intro c hc
    have hlit := List.all_eq_true.mp h c hc
    simpa [isLiteral, and_assoc] using hlit
  have hplus : s.map (fun c => if c = '+' then ' ' else c) = s := by
    rw [List.map_congr_left fun c hc => if_neg (hall c hc).2.2]
    exact List.map_id s
  have hascii : ∀ c ∈ s, c.toNat < 128 := fun c hc => (hall c hc).1
  unfold formDecode
  rw [hplus, utf8Bytes_ascii hascii, percentDecode_plain, decodeUtf8_ascii hascii]
  intro hmem
  obtain ⟨c, hc, hcode⟩ := List.mem_map.mp hmem
  exact (hall c hc).2.1 (Char.toNat_inj.mp hcode)

theorem formEncode_plain (h : s.all isFormPlain = true) : formEncode s = s := by
  unfold formEncode
  induction s with
  | nil => rfl
  | cons c s ih =>
      rw [List.all_cons, Bool.and_eq_true] at h
      rw [List.flatMap_cons, if_pos h.1, ih h.2]
      rfl

theorem isLiteral_of_plain {c : Char} (h : isFormPlain c = true) : isLiteral c = true := by
  have hcode : (c.toNat < 128 ∧ c.toNat ≠ 37) ∧ c.toNat ≠ 43 := by
    unfold isFormPlain Char.isAlphanum Char.isAlpha Char.isUpper Char.isLower Char.isDigit at h
    simp only [Bool.or_eq_true, Bool.and_eq_true, decide_eq_true_iff, UInt32.le_iff_toNat_le,
      ge_iff_le] at h
    have hval : c.toNat = c.val.toNat := rfl
    have hupper : 'A'.val.toNat = 65 ∧ 'Z'.val.toNat = 90 := ⟨rfl, rfl⟩
    have hlower : 'a'.val.toNat = 97 ∧ 'z'.val.toNat = 122 := ⟨rfl, rfl⟩
    have hdigits : '0'.val.toNat = 48 ∧ '9'.val.toNat = 57 := ⟨rfl, rfl⟩
    rcases h with (((((hletter | hletter) | hdigit) | rfl) | rfl) | rfl) | rfl
    · omega
    · omega
    · omega
    all_goals decide
  unfold isLiteral
  simp only [Bool.and_eq_true, decide_eq_true_iff, ne_eq]
  refine ⟨⟨hcode.1.1, ?_⟩, ?_⟩
  · rintro rfl
    exact hcode.1.2 rfl
  · rintro rfl
    exact hcode.2 rfl

theorem all_isLiteral_of_plain (h : s.all isFormPlain = true) : s.all isLiteral = true :=
  List.all_eq_true.mpr fun c hc => isLiteral_of_plain (List.all_eq_true.mp h c hc)

theorem not_mem_of_plain {c : Char} (h : s.all isFormPlain = true) (hc : isFormPlain c = false) :
    c ∉ s := by
  intro hmem
  have hplain := List.all_eq_true.mp h c hmem
  rw [hc] at hplain
  cases hplain

theorem parsePairs_append (q r : List Char) :
    parsePairs (q ++ '&' :: r) = parsePairs q ++ parsePairs r := by
  unfold parsePairs
  rw [List.splitOn_append_cons_self, List.filter_append, List.map_append]

/-- **A query of one pair.** -/
theorem parsePairs_single {name value : List Char} (hname : '=' ∉ name)
    (hplain : '&' ∉ name ++ '=' :: value) :
    parsePairs (name ++ '=' :: value) = [(formDecode name, formDecode value)] := by
  obtain ⟨htake, hdrop⟩ := takeWhile_append_stop (p := (· ≠ '=')) (s := name)
    (t := '=' :: value) (fun c hc => by
      have hne : c ≠ '=' := fun heq => hname (heq ▸ hc)
      simpa using hne) (by simp)
  unfold parsePairs
  rw [List.splitOn_eq_singleton hplain]
  have hne : name ++ '=' :: value ≠ [] := by simp
  rw [List.filter_cons, if_pos (by simp [hne]), List.filter_nil, List.map_singleton]
  unfold readPair
  rw [htake, hdrop]
  rfl

end Web
