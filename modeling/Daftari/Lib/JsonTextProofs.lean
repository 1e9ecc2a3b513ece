import Daftari.Lib.TextProofs
import Mathlib.Tactic.IntervalCases

/-! # JSON texts — reading and writing them

    A text is read character by character, with a stack of the arrays and objects that are still
    open: every text either ends in a value or is refused, and a text that stops in the middle is
    refused too.  Strings are kept as UTF-16 code units, numbers as their numerals.

    * `parse`: `JSON.parse`;
    * `stringify`: `JSON.stringify` of an object of strings, numbers and booleans, indented by two;
    * `parse_stringify`: **what was written is read back.** -/

namespace JsonText

/-! ## Values -/

inductive Json where
  | null
  | bool (b : Bool)
  | num (numeral : List Char)
  | str (units : List Nat)
  | arr (items : List Json)
  | obj (members : List (List Nat × Json))

def member (members : List (List Nat × Json)) (name : String) : Option Json :=
  members.reverse.lookup (Text.units name.toList)

/-- The characters of a string's units; a surrogate without its other half is replaced. -/
def ofUnits : List Nat → List Char
  | [] => []
  | [u] => [if 0xD800 ≤ u ∧ u < 0xE000 then '\uFFFD' else Char.ofNat u]
  | u :: v :: rest =>
      if 0xD800 ≤ u ∧ u < 0xDC00 ∧ 0xDC00 ≤ v ∧ v < 0xE000 then
        Char.ofNat (0x10000 + (u - 0xD800) * 0x400 + (v - 0xDC00)) :: ofUnits rest
      else (if 0xD800 ≤ u ∧ u < 0xE000 then '\uFFFD' else Char.ofNat u) :: ofUnits (v :: rest)

theorem ofUnits_single {u : Nat} (h : ¬ (0xD800 ≤ u ∧ u < 0xE000)) (rest : List Nat) :
    ofUnits (u :: rest) = Char.ofNat u :: ofUnits rest := by
  cases rest with
  | nil =>
      change [if 0xD800 ≤ u ∧ u < 0xE000 then '\uFFFD' else Char.ofNat u] = [Char.ofNat u]
      rw [if_neg h]
  | cons v rest =>
      have hpair : ¬ (0xD800 ≤ u ∧ u < 0xDC00 ∧ 0xDC00 ≤ v ∧ v < 0xE000) := by omega
      rw [ofUnits, if_neg hpair, if_neg h]

theorem ofUnits_unitsOf (c : Char) (rest : List Nat) :
    ofUnits (Text.unitsOf c ++ rest) = c :: ofUnits rest := by
  have hvalid : c.toNat < 0xD800 ∨ 0xDFFF < c.toNat ∧ c.toNat < 0x110000 := c.valid
  have hc : Char.ofNat c.toNat = c := Char.ofNat_toNat c
  unfold Text.unitsOf
  dsimp only
  split
  · rw [List.singleton_append, ofUnits_single (by omega), hc]
  · have hpair : 0xD800 ≤ 0xD800 + (c.toNat - 0x10000) / 0x400 ∧
        0xD800 + (c.toNat - 0x10000) / 0x400 < 0xDC00 ∧
        0xDC00 ≤ 0xDC00 + (c.toNat - 0x10000) % 0x400 ∧
        0xDC00 + (c.toNat - 0x10000) % 0x400 < 0xE000 := by omega
    have hsum : 0x10000 + (0xD800 + (c.toNat - 0x10000) / 0x400 - 0xD800) * 0x400
        + (0xDC00 + (c.toNat - 0x10000) % 0x400 - 0xDC00) = c.toNat := by omega
    rw [List.cons_append, List.cons_append, List.nil_append, ofUnits, if_pos hpair, hsum, hc]

theorem ofUnits_units (s : List Char) : ofUnits (Text.units s) = s := by
  induction s with
  | nil => rfl
  | cons c s ih =>
      have hcons : Text.units (c :: s) = Text.unitsOf c ++ Text.units s := rfl
      rw [hcons, ofUnits_unitsOf, ih]

theorem ofUnits_ne_nil {units : List Nat} (h : units ≠ []) : ofUnits units ≠ [] := by
  cases units with
  | nil => exact absurd rfl h
  | cons u rest =>
      cases rest with
      | nil => exact List.cons_ne_nil _ _
      | cons v rest =>
          rw [ofUnits]
          split <;> exact List.cons_ne_nil _ _

/-- A property of a value that is not null; `none` is `undefined`. -/
def field (j : Json) (name : String) : Option Json :=
  match j with
  | .obj members => member members name
  | _ => none

def strOf : Option Json → Option (List Nat)
  | some (.str s) => some s
  | _ => none

/-- `typeof v === "object" && v !== null`. -/
def isObject : Json → Bool
  | .obj _ | .arr _ => true
  | _ => false

/-! ## The reader -/

/-- An array or object that is still open, with what was read of it. -/
inductive Frame where
  | items (read : List Json)
  | members (read : List (List Nat × Json))
  | valueOf (read : List (List Nat × Json)) (key : List Nat)

/-- How far a numeral was read. -/
inductive Numeral where
  | minus
  | zero
  | whole
  | point
  | fraction
  | exponent
  | exponentSign
  | exponentDigits
deriving DecidableEq

def Numeral.next (n : Numeral) (c : Char) : Option Numeral :=
  match n with
  | .minus => if c = '0' then some .zero else if c.isDigit then some .whole else none
  | .zero =>
      if c = '.' then some .point
      else if c = 'e' ∨ c = 'E' then some .exponent else none
  | .whole =>
      if c.isDigit then some .whole
      else if c = '.' then some .point
      else if c = 'e' ∨ c = 'E' then some .exponent else none
  | .point => if c.isDigit then some .fraction else none
  | .fraction =>
      if c.isDigit then some .fraction
      else if c = 'e' ∨ c = 'E' then some .exponent else none
  | .exponent =>
      if c.isDigit then some .exponentDigits
      else if c = '+' ∨ c = '-' then some .exponentSign else none
  | .exponentSign => if c.isDigit then some .exponentDigits else none
  | .exponentDigits => if c.isDigit then some .exponentDigits else none

def Numeral.complete : Numeral → Bool
  | .zero | .whole | .fraction | .exponentDigits => true
  | .minus | .point | .exponent | .exponentSign => false

/-- Where in an escape sequence a string is. -/
inductive Escape where
  | none
  | backslash
  | hex (left value : Nat)

/-- What the reader expects. -/
inductive Mode where
  | value
  | firstItem
  | key
  | firstKey
  | colon (key : List Nat)
  | complete (v : Json)
  | word (rest : List Char) (v : Json)
  | text (isKey : Bool) (units : List Nat) (escape : Escape)
  | number (numeral : List Char) (n : Numeral)

/-- The reader between two characters. -/
structure Reader where
  stack : List Frame
  mode : Mode

def isBlank (c : Char) : Bool := c = ' ' ∨ c = '\t' ∨ c = '\n' ∨ c = '\r'

def hexValue (c : Char) : Option Nat :=
  if c.isDigit then some (c.toNat - 48)
  else if 'a' ≤ c ∧ c ≤ 'f' then some (c.toNat - 87)
  else if 'A' ≤ c ∧ c ≤ 'F' then some (c.toNat - 55)
  else none

/-- The character that a backslash and a letter stand for. -/
def unescape (c : Char) : Option Nat :=
  if c = '"' ∨ c = '\\' ∨ c = '/' then some c.toNat
  else if c = 'b' then some 8
  else if c = 'f' then some 12
  else if c = 'n' then some 10
  else if c = 'r' then some 13
  else if c = 't' then some 9
  else none

/-- The first character of a value. -/
def start (stack : List Frame) (c : Char) : Option Reader :=
  if c = '{' then some ⟨.members [] :: stack, .firstKey⟩
  else if c = '[' then some ⟨.items [] :: stack, .firstItem⟩
  else if c = '"' then some ⟨stack, .text false [] .none⟩
  else if c = 't' then some ⟨stack, .word ['r', 'u', 'e'] (.bool true)⟩
  else if c = 'f' then some ⟨stack, .word ['a', 'l', 's', 'e'] (.bool false)⟩
  else if c = 'n' then some ⟨stack, .word ['u', 'l', 'l'] .null⟩
  else if c = '-' then some ⟨stack, .number [c] .minus⟩
  else if c = '0' then some ⟨stack, .number [c] .zero⟩
  else if c.isDigit then some ⟨stack, .number [c] .whole⟩
  else none

/-- The character after a value. -/
def proceed (stack : List Frame) (v : Json) (c : Char) : Option Reader :=
  if isBlank c then some ⟨stack, .complete v⟩
  else
    match stack with
    | .items read :: rest =>
        if c = ',' then some ⟨.items (read ++ [v]) :: rest, .value⟩
        else if c = ']' then some ⟨rest, .complete (.arr (read ++ [v]))⟩
        else none
    | .valueOf read key :: rest =>
        if c = ',' then some ⟨.members (read ++ [(key, v)]) :: rest, .key⟩
        else if c = '}' then some ⟨rest, .complete (.obj (read ++ [(key, v)]))⟩
        else none
    | _ => none

/-- The next character of a string or key. -/
def stepText (stack : List Frame) (isKey : Bool) (units : List Nat) (escape : Escape) (c : Char) :
    Option Reader :=
  match escape with
  | .none =>
      if c = '"' then some ⟨stack, if isKey then .colon units else .complete (.str units)⟩
      else if c = '\\' then some ⟨stack, .text isKey units .backslash⟩
      else if c.toNat < 32 then none
      else some ⟨stack, .text isKey (units ++ Text.unitsOf c) .none⟩
  | .backslash =>
      if c = 'u' then some ⟨stack, .text isKey units (.hex 4 0)⟩
      else (unescape c).map fun unit => ⟨stack, .text isKey (units ++ [unit]) .none⟩
  | .hex left value =>
      (hexValue c).map fun digit =>
        if left = 1 then ⟨stack, .text isKey (units ++ [value * 16 + digit]) .none⟩
        else ⟨stack, .text isKey units (.hex (left - 1) (value * 16 + digit))⟩

def step (r : Reader) (c : Char) : Option Reader :=
  match r.mode with
  | .value => if isBlank c then some r else start r.stack c
  | .firstItem =>
      if isBlank c then some r
      else if c = ']' then
        match r.stack with
        | .items read :: rest => some ⟨rest, .complete (.arr read)⟩
        | _ => none
      else start r.stack c
  | .key =>
      if isBlank c then some r
      else if c = '"' then some ⟨r.stack, .text true [] .none⟩ else none
  | .firstKey =>
      if isBlank c then some r
      else if c = '}' then
        match r.stack with
        | .members read :: rest => some ⟨rest, .complete (.obj read)⟩
        | _ => none
      else if c = '"' then some ⟨r.stack, .text true [] .none⟩ else none
  | .colon key =>
      if isBlank c then some r
      else if c = ':' then
        match r.stack with
        | .members read :: rest => some ⟨.valueOf read key :: rest, .value⟩
        | _ => none
      else none
  | .complete v => proceed r.stack v c
  | .word [] _ => none
  | .word [x] v => if c = x then some ⟨r.stack, .complete v⟩ else none
  | .word (x :: rest) v => if c = x then some ⟨r.stack, .word rest v⟩ else none
  | .text isKey units escape => stepText r.stack isKey units escape c
  | .number numeral n =>
      match n.next c with
      | some n' => some ⟨r.stack, .number (numeral ++ [c]) n'⟩
      | none => if n.complete then proceed r.stack (.num numeral) c else none

/-- A text, from a point on. -/
def run (r : Reader) (text : List Char) : Option Reader := text.foldlM step r

/-- The value, if the text may end here. -/
def finish : Reader → Option Json
  | ⟨[], .complete v⟩ => some v
  | ⟨[], .number numeral n⟩ => if n.complete then some (.num numeral) else none
  | _ => none

/-- `JSON.parse`; no result is its `SyntaxError`. -/
def parse (text : List Char) : Option Json := (run ⟨[], .value⟩ text).bind finish

/-! ## The writer -/

/-- The values without parts. -/
inductive Scalar where
  | bool (b : Bool)
  | nat (n : Nat)
  | str (s : List Char)
deriving DecidableEq

def Scalar.json : Scalar → Json
  | .bool b => .bool b
  | .nat n => .num (Nat.toDigits 10 n)
  | .str s => .str (Text.units s)

/-- A character of a string, escaped where it has to be. -/
def escape (c : Char) : List Char :=
  if c = '"' then ['\\', '"']
  else if c = '\\' then ['\\', '\\']
  else if c.toNat = 8 then ['\\', 'b']
  else if c.toNat = 12 then ['\\', 'f']
  else if c.toNat = 10 then ['\\', 'n']
  else if c.toNat = 13 then ['\\', 'r']
  else if c.toNat = 9 then ['\\', 't']
  else if c.toNat < 32 then
    ['\\', 'u', '0', '0', Nat.digitChar (c.toNat / 16), Nat.digitChar (c.toNat % 16)]
  else [c]

def quote (s : List Char) : List Char := '"' :: s.flatMap escape ++ ['"']

def Scalar.text : Scalar → List Char
  | .bool true => "true".toList
  | .bool false => "false".toList
  | .nat n => Nat.toDigits 10 n
  | .str s => quote s

/-- `"name": value`. -/
def memberText (m : String × Scalar) : List Char :=
  quote m.1.toList ++ [':', ' '] ++ m.2.text

/-- `JSON.stringify(members, null, 2)`, of an object that has members. -/
def stringify (members : List (String × Scalar)) : List Char :=
  ['{', '\n', ' ', ' '] ++ [',', '\n', ' ', ' '].intercalate (members.map memberText)
    ++ ['\n', '}']

/-- `"name":value`. -/
def compactMember (m : String × Scalar) : List Char := quote m.1.toList ++ [':'] ++ m.2.text

/-- `JSON.stringify(members)`. -/
def stringifyCompact (members : List (String × Scalar)) : List Char :=
  ['{'] ++ [','].intercalate (members.map compactMember) ++ ['}']

/-! ## Reading in pieces -/

theorem run_cons (r : Reader) (c : Char) (text : List Char) :
    run r (c :: text) = (step r c).bind fun r' => run r' text := List.foldlM_cons ..

theorem run_append (r : Reader) (s t : List Char) :
    run r (s ++ t) = (run r s).bind fun r' => run r' t := List.foldlM_append ..

section Strings

variable (stack : List Frame) (isKey : Bool) (units : List Nat)

theorem hexValue_digitChar {d : Nat} (h : d < 16) : hexValue (Nat.digitChar d) = some d := by
  have hall : ∀ d < 16, hexValue (Nat.digitChar d) = some d := by decide
  exact hall d h

theorem run_hex {n : Nat} (h : n < 32) : run ⟨stack, .text isKey units .none⟩
        ['\\', 'u', '0', '0', Nat.digitChar (n / 16), Nat.digitChar (n % 16)]
      = some ⟨stack, .text isKey (units ++ [n]) .none⟩ := by
  have hhigh := hexValue_digitChar (d := n / 16) (by omega)
  have hlow := hexValue_digitChar (d := n % 16) (by omega)
  show ((hexValue (Nat.digitChar (n / 16))).map _).bind _ = _
  rw [hhigh]
  show ((hexValue (Nat.digitChar (n % 16))).map _).bind _ = _
  rw [hlow]
  have hvalue : (0 * 16 + n / 16) * 16 + n % 16 = n := by omega
  show some (Reader.mk stack (.text isKey (units ++ [(0 * 16 + n / 16) * 16 + n % 16]) .none)) = _
  rw [hvalue]

/-- **An escaped character is read as itself.** -/
theorem run_escape (c : Char) : run ⟨stack, .text isKey units .none⟩ (escape c)
      = some ⟨stack, .text isKey (units ++ Text.unitsOf c) .none⟩ := by
  have hunits : c.toNat < 0x10000 → Text.unitsOf c = [c.toNat] := fun h => if_pos h
  unfold escape
  split
  · rename_i hc
    subst hc
    rfl
  split
  · rename_i hc
    subst hc
    rfl
  rename_i hquote hslash
  split
  · rename_i hc
    rw [hunits (by omega), hc]
    rfl
  split
  · rename_i hc
    rw [hunits (by omega), hc]
    rfl
  split
  · rename_i hc
    rw [hunits (by omega), hc]
    rfl
  split
  · rename_i hc
    rw [hunits (by omega), hc]
    rfl
  split
  · rename_i hc
    rw [hunits (by omega), hc]
    rfl
  split
  · rename_i hc
    rw [hunits (by omega)]
    exact run_hex stack isKey units hc
  · rename_i hc
    show ((stepText stack isKey units .none c).bind _) = _
    unfold stepText
    rw [if_neg hquote, if_neg hslash, if_neg hc]
    rfl

theorem run_escaped (s : List Char) : run ⟨stack, .text isKey units .none⟩ (s.flatMap escape)
      = some ⟨stack, .text isKey (units ++ Text.units s) .none⟩ := by
  induction s generalizing units with
  | nil =>
      rw [List.flatMap_nil, Text.units, List.flatMap_nil, List.append_nil]
      rfl
  | cons c s ih =>
      rw [List.flatMap_cons, run_append, run_escape, Option.bind_some, ih, List.append_assoc]
      rfl

/-- **A quoted string is read as itself**, as a value -/
theorem run_quote (s : List Char) :
    run ⟨stack, .value⟩ (quote s) = some ⟨stack, .complete (.str (Text.units s))⟩ := by
  show run ⟨stack, .text false [] .none⟩ (s.flatMap escape ++ ['"']) = _
  rw [run_append, run_escaped]
  rfl

theorem run_quote_key (s : List Char) :
    run ⟨stack, .key⟩ (quote s) = some ⟨stack, .colon (Text.units s)⟩ := by
  show run ⟨stack, .text true [] .none⟩ (s.flatMap escape ++ ['"']) = _
  rw [run_append, run_escaped]
  rfl

end Strings

section Members

variable (stack : List Frame)

/-- **The digits of a number are read as a numeral.** -/
theorem run_toDigits {n : Nat} (h : 0 < n) : run ⟨stack, .value⟩ (Nat.toDigits 10 n)
      = some ⟨stack, .number (Nat.toDigits 10 n) .whole⟩ := by
  induction n using Nat.strong_induction_on with
  | h n ih =>
      by_cases hn : n < 10
      · have hall : ∀ d < 10, 0 < d → start stack (Nat.digitChar d)
            = some ⟨stack, .number [Nat.digitChar d] .whole⟩
            ∧ isBlank (Nat.digitChar d) = false := by
          intro d hd hpos
          interval_cases d <;> exact ⟨rfl, rfl⟩
        obtain ⟨hstart, hblank⟩ := hall n hn h
        rw [Nat.toDigits_of_lt_base hn, run_cons]
        show (if isBlank (Nat.digitChar n) = true then _ else start stack _).bind _ = _
        rw [hblank, if_neg Bool.false_ne_true, hstart]
        rfl
      · have hdigit : (Nat.digitChar (n % 10)).isDigit = true := by
          have hall : ∀ d < 10, (Nat.digitChar d).isDigit = true := by decide
          exact hall _ (by omega)
        rw [Nat.toDigits_of_base_le (by omega) (by omega), run_append,
          ih (n / 10) (by omega) (by omega), Option.bind_some, run_cons]
        have hnext : Numeral.whole.next (Nat.digitChar (n % 10)) = some .whole := if_pos hdigit
        simp only [step, hnext, Option.bind_some]
        rfl

/-- **A scalar is read as itself** when a comma, a line break or the end of the object follows. -/
theorem run_scalar (v : Scalar) {c : Char} (hc : c = ',' ∨ c = '\n' ∨ c = '}') (rest : List Char) :
    run ⟨stack, .value⟩ (v.text ++ c :: rest)
      = (proceed stack v.json c).bind fun r => run r rest := by
  rw [run_append]
  cases v with
  | bool b => cases b <;> rfl
  | str s =>
      show (run _ (quote s)).bind _ = _
      rw [run_quote]
      rfl
  | nat n =>
      show (run _ (Nat.toDigits 10 n)).bind _ = _
      by_cases hn : n = 0
      · subst hn
        rcases hc with rfl | rfl | rfl <;> rfl
      · rw [run_toDigits stack (by omega)]
        rcases hc with rfl | rfl | rfl <;> rfl

variable (read : List (List Nat × Json))

theorem run_member (m : String × Scalar) (rest : List Char) :
    run ⟨.members read :: stack, .key⟩ (memberText m ++ rest)
      = run ⟨.valueOf read (Text.units m.1.toList) :: stack, .value⟩ (m.2.text ++ rest) := by
  unfold memberText
  rw [List.append_assoc, List.append_assoc, run_append, run_quote_key, Option.bind_some]
  rfl

/-- The member as it is read. -/
def entry (m : String × Scalar) : List Nat × Json := (Text.units m.1.toList, m.2.json)

variable {members : List (String × Scalar)}

/-- **Written members are read back**, after those that were read before. -/
theorem run_members (hne : members ≠ []) : run ⟨.members read :: stack, .key⟩
        ([',', '\n', ' ', ' '].intercalate (members.map memberText) ++ ['\n', '}'])
      = some ⟨stack, .complete (.obj (read ++ members.map entry))⟩ := by
  induction members generalizing read with
  | nil => exact absurd rfl hne
  | cons m members ih =>
      cases members with
      | nil =>
          rw [List.map_singleton, List.intercalate_singleton, run_member,
            run_scalar _ _ (Or.inr (Or.inl rfl))]
          rfl
      | cons m' members =>
          rw [List.map_cons, List.map_cons, List.intercalate_cons_cons, ← List.map_cons,
            List.append_assoc, List.append_assoc, run_member, List.cons_append,
            run_scalar _ _ (Or.inl rfl)]
          -- the line break and the indent before the next name are skipped
          show run ⟨.members (read ++ [entry m]) :: stack, .key⟩
            ([',', '\n', ' ', ' '].intercalate ((m' :: members).map memberText) ++ ['\n', '}']) = _
          rw [ih _ (List.cons_ne_nil _ _), List.append_assoc]
          rfl

/-- **What was written is read back.** -/
theorem parse_stringify (hne : members ≠ []) :
    parse (stringify members) = some (.obj (members.map entry)) := by
  obtain ⟨text, htext⟩ : ∃ text, [',', '\n', ' ', ' '].intercalate (members.map memberText)
      ++ ['\n', '}'] = '"' :: text := by
    cases members with
    | nil => exact absurd rfl hne
    | cons m members =>
        rw [List.map_cons]
        cases members.map memberText with
        | nil => exact ⟨_, rfl⟩
        | cons t ts =>
            exact ⟨_, rfl⟩
  have hread := run_members [] [] hne
  rw [htext] at hread
  unfold parse stringify
  rw [List.append_assoc]
  rw [htext]
  -- before the first name an object may also end, which it does not here
  show (run ⟨[.members []], .key⟩ ('"' :: text)).bind finish = _
  rw [hread]
  rfl

theorem run_compactMember (m : String × Scalar) (rest : List Char) :
    run ⟨.members read :: stack, .key⟩ (compactMember m ++ rest)
      = run ⟨.valueOf read (Text.units m.1.toList) :: stack, .value⟩ (m.2.text ++ rest) := by
  unfold compactMember
  rw [List.append_assoc, List.append_assoc, run_append, run_quote_key, Option.bind_some]
  rfl

theorem run_compactMembers (hne : members ≠ []) :
    run ⟨.members read :: stack, .key⟩ ([','].intercalate (members.map compactMember) ++ ['}'])
      = some ⟨stack, .complete (.obj (read ++ members.map entry))⟩ := by
  induction members generalizing read with
  | nil => exact absurd rfl hne
  | cons m members ih =>
      cases members with
      | nil =>
          rw [List.map_singleton, List.intercalate_singleton, run_compactMember,
            run_scalar _ _ (Or.inr (Or.inr rfl))]
          rfl
      | cons m' members =>
          rw [List.map_cons, List.map_cons, List.intercalate_cons_cons, ← List.map_cons,
            List.append_assoc, List.append_assoc, run_compactMember, List.singleton_append,
            run_scalar _ _ (Or.inl rfl)]
          show run ⟨.members (read ++ [entry m]) :: stack, .key⟩
            ([','].intercalate ((m' :: members).map compactMember) ++ ['}']) = _
          rw [ih _ (List.cons_ne_nil _ _), List.append_assoc]
          rfl

/-- **What was written without white space is read back too.** -/
theorem parse_stringifyCompact (hne : members ≠ []) :
    parse (stringifyCompact members) = some (.obj (members.map entry)) := by
  obtain ⟨text, htext⟩ : ∃ text, [','].intercalate (members.map compactMember) ++ ['}']
      = '"' :: text := by
    cases members with
    | nil => exact absurd rfl hne
    | cons m members =>
        rw [List.map_cons]
        cases members.map compactMember with
        | nil => exact ⟨_, rfl⟩
        | cons t ts =>
            exact ⟨_, rfl⟩
  have hread := run_compactMembers [] [] hne
  rw [htext] at hread
  unfold parse stringifyCompact
  rw [List.append_assoc, htext]
  show (run ⟨[.members []], .key⟩ ('"' :: text)).bind finish = _
  rw [hread]
  rfl

end Members

theorem member_entries (members : List (String × Scalar)) (name : String) :
    member (members.map entry) name = (members.reverse.lookup name).map Scalar.json := by
  unfold member
  rw [← List.map_reverse]
  induction members.reverse with
  | nil => rfl
  | cons m ms ih =>
      have hname : (Text.units name.toList == (entry m).1) = (name == m.1) := by
        rw [Bool.eq_iff_iff, beq_iff_eq, beq_iff_eq]
        exact (Text.units_injective.eq_iff.trans String.toList_inj)
      rw [List.map_cons, List.lookup_cons, List.lookup_cons, hname]
      cases name == m.1 with
      | true => rfl
      | false => exact ih

end JsonText
