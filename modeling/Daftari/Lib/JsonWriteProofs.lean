import Daftari.Lib.JsonTextProofs

/-! # Writing any JSON value — and reading it back

    `JSON.stringify` without white space, of values of every shape.  A surrogate without its other
    half is written as an escape, so that every text can be encoded.  The reader of
    `Daftari.Lib.JsonTextProofs` undoes it, so a text stands for one value.

    * `write`: the text of a value;
    * `run_write`: **the reader, over the text of a value**, on whatever is open;
    * `write_injective`: **different values have different texts.** -/

namespace JsonText

/-! ## The text of a value -/

def hex4 (n : Nat) : List Char :=
  [Nat.digitChar (n / 4096), Nat.digitChar (n / 256 % 16), Nat.digitChar (n / 16 % 16),
    Nat.digitChar (n % 16)]

/-- A unit that is no half of a pair. -/
def unitText (u : Nat) : List Char :=
  if 0xD800 ≤ u ∧ u < 0xE000 then '\\' :: 'u' :: hex4 u else escape (Char.ofNat u)

/-- The units of a string, between its quotes. -/
def unitsText : List Nat → List Char
  | [] => []
  | [u] => unitText u
  | u :: v :: rest =>
      if 0xD800 ≤ u ∧ u < 0xDC00 ∧ 0xDC00 ≤ v ∧ v < 0xE000 then
        escape (Char.ofNat (0x10000 + (u - 0xD800) * 0x400 + (v - 0xDC00))) ++ unitsText rest
      else unitText u ++ unitsText (v :: rest)

def quoteUnits (units : List Nat) : List Char := '"' :: unitsText units ++ ['"']

mutual

/-- `JSON.stringify`. -/
def write : Json → List Char
  | .null => "null".toList
  | .bool true => "true".toList
  | .bool false => "false".toList
  | .num numeral => numeral
  | .str units => quoteUnits units
  | .arr [] => ['[', ']']
  | .arr (v :: vs) => '[' :: write v ++ writeItems vs
  | .obj [] => ['{', '}']
  | .obj ((k, v) :: ms) => '{' :: quoteUnits k ++ ':' :: write v ++ writeMembers ms

/-- The rest of an array, after an item. -/
def writeItems : List Json → List Char
  | [] => [']']
  | v :: vs => ',' :: write v ++ writeItems vs

/-- The rest of an object, after a member. -/
def writeMembers : List (List Nat × Json) → List Char
  | [] => ['}']
  | (k, v) :: ms => ',' :: quoteUnits k ++ ':' :: write v ++ writeMembers ms

end

/-- How far a numeral is after its characters; `none` is no numeral. -/
def readNumeral : List Char → Option Numeral
  | [] => none
  | c :: s =>
      (if c = '-' then some .minus else if c = '0' then some .zero
        else if c.isDigit then some .whole else none).bind fun n => s.foldlM Numeral.next n

/-- A numeral of the format. -/
def IsNumeral (s : List Char) : Prop := ∃ n, readNumeral s = some n ∧ n.complete = true

/-- The values there are in memory: the units have sixteen bits, the numerals are
    numerals, and the names of an object are distinct. -/
inductive Proper : Json → Prop where
  | null : Proper .null
  | bool (b : Bool) : Proper (.bool b)
  | num {numeral : List Char} (h : IsNumeral numeral) : Proper (.num numeral)
  | str {units : List Nat} (h : ∀ u ∈ units, u < 0x10000) : Proper (.str units)
  | arr {items : List Json} (h : ∀ v ∈ items, Proper v) : Proper (.arr items)
  | obj {members : List (List Nat × Json)} (hnames : (members.map Prod.fst).Nodup)
      (hunits : ∀ m ∈ members, ∀ u ∈ m.1, u < 0x10000) (h : ∀ m ∈ members, Proper m.2) :
      Proper (.obj members)

/-! ## Strings -/

section Strings

variable (stack : List Frame) (isKey : Bool) (units : List Nat)

theorem run_hex4 {n : Nat} (h : n < 0x10000) :
    run ⟨stack, .text isKey units .none⟩ ('\\' :: 'u' :: hex4 n)
      = some ⟨stack, .text isKey (units ++ [n]) .none⟩ := by
  have h₁ := hexValue_digitChar (d := n / 4096) (by omega)
  have h₂ := hexValue_digitChar (d := n / 256 % 16) (by omega)
  have h₃ := hexValue_digitChar (d := n / 16 % 16) (by omega)
  have h₄ := hexValue_digitChar (d := n % 16) (by omega)
  have hvalue : (((0 * 16 + n / 4096) * 16 + n / 256 % 16) * 16 + n / 16 % 16) * 16 + n % 16
      = n := by
    omega
  show ((hexValue (Nat.digitChar (n / 4096))).map _).bind _ = _
  rw [h₁]
  show ((hexValue (Nat.digitChar (n / 256 % 16))).map _).bind _ = _
  rw [h₂]
  show ((hexValue (Nat.digitChar (n / 16 % 16))).map _).bind _ = _
  rw [h₃]
  show ((hexValue (Nat.digitChar (n % 16))).map _).bind _ = _
  rw [h₄]
  show some (Reader.mk stack (.text isKey (units ++
    [(((0 * 16 + n / 4096) * 16 + n / 256 % 16) * 16 + n / 16 % 16) * 16 + n % 16]) .none)) = _
  rw [hvalue]

omit stack isKey units in
theorem toNat_ofNat {n : Nat} (h : n.isValidChar) : (Char.ofNat n).toNat = n := by
  have hofNat : Char.ofNat n = Char.ofNatAux n h := dif_pos h
  rw [hofNat]
  rfl

/-- **A unit is read as itself**, a lone surrogate from its escape. -/
theorem run_unitText {u : Nat} (h : u < 0x10000) : run ⟨stack, .text isKey units .none⟩ (unitText u)
      = some ⟨stack, .text isKey (units ++ [u]) .none⟩ := by
  unfold unitText
  split
  · exact run_hex4 stack isKey units h
  · rename_i hlone
    have hvalid : u.isValidChar := by
      omega
    have hnat : (Char.ofNat u).toNat = u := toNat_ofNat hvalid
    have hunits : Text.unitsOf (Char.ofNat u) = [u] := by
      unfold Text.unitsOf
      rw [hnat]
      exact if_pos h
    rw [run_escape, hunits]

theorem unitsOf_pair {u v : Nat} (h : 0xD800 ≤ u ∧ u < 0xDC00 ∧ 0xDC00 ≤ v ∧ v < 0xE000) :
    Text.unitsOf (Char.ofNat (0x10000 + (u - 0xD800) * 0x400 + (v - 0xDC00))) = [u, v] := by
  have hvalid : (0x10000 + (u - 0xD800) * 0x400 + (v - 0xDC00)).isValidChar := by
    omega
  unfold Text.unitsOf
  rw [toNat_ofNat hvalid]
  have hhigh : 0xD800 + (0x10000 + (u - 0xD800) * 0x400 + (v - 0xDC00) - 0x10000) / 0x400 = u := by
    omega
  have hlow : 0xDC00 + (0x10000 + (u - 0xD800) * 0x400 + (v - 0xDC00) - 0x10000) % 0x400 = v := by
    omega
  rw [if_neg (by omega), hhigh, hlow]

theorem run_unitsText {us : List Nat} (h : ∀ u ∈ us, u < 0x10000) :
    run ⟨stack, .text isKey units .none⟩ (unitsText us)
      = some ⟨stack, .text isKey (units ++ us) .none⟩ := by
  induction us using unitsText.induct generalizing units with
  | case1 =>
      rw [List.append_nil]
      rfl
  | case2 u => exact run_unitText stack isKey units (h u List.mem_cons_self)
  | case3 u v rest hpair ih =>
      have hrest := fun w hw => h w (List.mem_cons_of_mem _ (List.mem_cons_of_mem _ hw))
      rw [unitsText, if_pos hpair, run_append, run_escape, unitsOf_pair hpair, Option.bind_some,
        ih _ hrest, List.append_assoc]
      rfl
  | case4 u v rest hpair ih =>
      rw [unitsText, if_neg hpair, run_append, run_unitText _ _ _ (h u List.mem_cons_self),
        Option.bind_some, ih _ fun w hw => h w (List.mem_cons_of_mem _ hw), List.append_assoc]
      rfl

theorem run_quoteUnits {us : List Nat} (h : ∀ u ∈ us, u < 0x10000) :
    run ⟨stack, .text isKey [] .none⟩ (unitsText us ++ ['"'])
      = some ⟨stack, if isKey then .colon us else .complete (.str us)⟩ := by
  rw [run_append, run_unitsText stack isKey [] h]
  rfl

end Strings

/-! ## Values -/

/-- The reader stands behind a value: it has it, or has read a numeral that may end here. -/
def Behind (stack : List Frame) (v : Json) (r : Reader) : Prop :=
  r = ⟨stack, .complete v⟩ ∨
    ∃ numeral n, v = .num numeral ∧ n.complete = true ∧ r = ⟨stack, .number numeral n⟩

/-- The text of the value is read up to its end, whatever is open. -/
def Reads (v : Json) : Prop :=
  ∀ stack, ∃ r, run ⟨stack, .value⟩ (write v) = some r ∧ Behind stack v r

/-- **A comma or a closing bracket ends the value.** -/
theorem step_of_behind {stack : List Frame} {v : Json} {r : Reader} (h : Behind stack v r)
    {c : Char} (hc : c = ',' ∨ c = ']' ∨ c = '}') : step r c = proceed stack v c := by
  rcases h with rfl | ⟨numeral, n, rfl, hn, rfl⟩
  · rfl
  · have hstop : n.next c = none := by rcases hc with rfl | rfl | rfl <;> cases n <;> rfl
    simp only [step, hstop]
    exact if_pos hn

variable {v : Json}

theorem finish_of_behind {r : Reader} (h : Behind [] v r) : finish r = some v := by
  rcases h with rfl | ⟨numeral, n, rfl, hn, rfl⟩
  · rfl
  · exact if_pos hn

theorem Reads.run {v : Json} (h : Reads v) (stack : List Frame) {c : Char}
    (hc : c = ',' ∨ c = ']' ∨ c = '}') (rest : List Char) :
    run ⟨stack, .value⟩ (write v ++ c :: rest)
      = (proceed stack v c).bind fun r => JsonText.run r rest := by
  obtain ⟨r, hrun, hr⟩ := h stack
  rw [run_append, hrun, Option.bind_some, run_cons, step_of_behind hr hc]

variable (stack : List Frame)

theorem run_numeral (s : List Char) {read : List Char} {n n' : Numeral}
    (h : s.foldlM Numeral.next n = some n') :
    run ⟨stack, .number read n⟩ s = some ⟨stack, .number (read ++ s) n'⟩ := by
  induction s generalizing read n with
  | nil =>
      obtain rfl := Option.some.inj h
      rw [List.append_nil]
      rfl
  | cons c s ih =>
      obtain ⟨m, hm, hrest⟩ := Option.bind_eq_some_iff.mp h
      have hstep : step ⟨stack, .number read n⟩ c = some ⟨stack, .number (read ++ [c]) m⟩ := by
        simp only [step, hm]
      rw [run_cons, hstep, Option.bind_some, ih hrest, List.append_assoc]
      rfl

/-- The first character of a numeral: no white space, no bracket. -/
theorem numeral_head {c : Char} {s : List Char} {n : Numeral} (h : readNumeral (c :: s) = some n) :
    (isBlank c = false ∧ c ≠ ']') ∧ ∃ m, (∀ stack, start stack c = some ⟨stack, .number [c] m⟩) ∧
        s.foldlM Numeral.next m = some n := by
  obtain ⟨m, hm, hrest⟩ := Option.bind_eq_some_iff.mp h
  by_cases hminus : c = '-'
  · subst hminus
    obtain rfl := Option.some.inj hm
    exact ⟨⟨rfl, by decide⟩, _, fun _ => rfl, hrest⟩
  by_cases hzero : c = '0'
  · subst hzero
    obtain rfl := Option.some.inj hm
    exact ⟨⟨rfl, by decide⟩, _, fun _ => rfl, hrest⟩
  rw [if_neg hminus, if_neg hzero] at hm
  by_cases hdigit : c.isDigit = true
  · rw [if_pos hdigit] at hm
    obtain rfl := Option.some.inj hm
    have hne : ∀ d : Char, d.isDigit = false → c ≠ d := by
      rintro d hd rfl
      rw [hd] at hdigit
      cases hdigit
    have hblank : isBlank c = false := by
      simp [isBlank, hne ' ' rfl, hne '\t' rfl, hne '\n' rfl, hne '\r' rfl]
    refine ⟨⟨hblank, hne ']' rfl⟩, _, fun stack => ?_, hrest⟩
    simp only [start, hne '{' rfl, hne '[' rfl, hne '"' rfl, hne 't' rfl, hne 'f' rfl,
      hne 'n' rfl, hminus, hzero, hdigit, if_true, if_false]
  · rw [if_neg hdigit] at hm
    cases hm

theorem reads_num {numeral : List Char} (h : IsNumeral numeral) : Reads (.num numeral) := by
  intro stack
  obtain ⟨n, hread, hn⟩ := h
  cases numeral with
  | nil => cases hread
  | cons c s =>
      obtain ⟨⟨hblank, -⟩, m, hstart, hrest⟩ := numeral_head hread
      refine ⟨⟨stack, .number (c :: s) n⟩, ?_, Or.inr ⟨c :: s, n, rfl, hn, rfl⟩⟩
      have hstep : step ⟨stack, .value⟩ c = some ⟨stack, .number [c] m⟩ := by
        show (if isBlank c = true then _ else start stack c) = _
        rw [hblank, if_neg Bool.false_ne_true, hstart]
      show run _ (c :: s) = _
      rw [run_cons, hstep, Option.bind_some]
      exact run_numeral stack s hrest

theorem run_writeItems {items : List Json} (h : ∀ v ∈ items, Reads v) (read : List Json)
    (hv : Reads v) : run ⟨.items read :: stack, .value⟩ (write v ++ writeItems items)
      = some ⟨stack, .complete (.arr (read ++ v :: items))⟩ := by
  induction items generalizing read v with
  | nil =>
      rw [writeItems, hv.run _ (Or.inr (Or.inl rfl))]
      rfl
  | cons w items ih =>
      rw [writeItems, List.cons_append, hv.run _ (Or.inl rfl)]
      show run ⟨.items (read ++ [v]) :: stack, .value⟩ (write w ++ writeItems items) = _
      rw [ih (fun x hx => h x (List.mem_cons_of_mem _ hx)) _ (h w List.mem_cons_self),
        List.append_assoc]
      rfl

theorem run_name (read : List (List Nat × Json)) {k : List Nat} (hk : ∀ u ∈ k, u < 0x10000)
    (rest : List Char) : run ⟨.members read :: stack, .key⟩ (quoteUnits k ++ ':' :: rest)
      = run ⟨.valueOf read k :: stack, .value⟩ rest := by
  show run ⟨.members read :: stack, .text true [] .none⟩
    (unitsText k ++ ['"'] ++ ':' :: rest) = _
  rw [run_append, run_quoteUnits _ _ hk]
  rfl

/-- The rest of an object, from a name on. -/
theorem run_writeMembers {members : List (List Nat × Json)}
    (h : ∀ m ∈ members, (∀ u ∈ m.1, u < 0x10000) ∧ Reads m.2) (read : List (List Nat × Json))
    {k : List Nat} (hk : ∀ u ∈ k, u < 0x10000) (hv : Reads v) :
    run ⟨.members read :: stack, .key⟩ (quoteUnits k ++ ':' :: (write v ++ writeMembers members))
      = some ⟨stack, .complete (.obj (read ++ (k, v) :: members))⟩ := by
  induction members generalizing read k v with
  | nil =>
      rw [run_name stack read hk, writeMembers, hv.run _ (Or.inr (Or.inr rfl))]
      rfl
  | cons m members ih =>
      obtain ⟨k', w⟩ := m
      obtain ⟨hk', hw⟩ := h _ List.mem_cons_self
      rw [run_name stack read hk, writeMembers, List.cons_append, List.cons_append,
        hv.run _ (Or.inl rfl), List.append_assoc]
      show run ⟨.members (read ++ [(k, v)]) :: stack, .key⟩
        (quoteUnits k' ++ ':' :: (write w ++ writeMembers members)) = _
      rw [ih (fun x hx => h x (List.mem_cons_of_mem _ hx)) _ hk' hw, List.append_assoc]
      rfl

/-- An array that is not closed at once begins with an item. -/
theorem run_firstItem (h : Proper v) (rest : List Char) :
    run ⟨stack, .firstItem⟩ (write v ++ rest) = run ⟨stack, .value⟩ (write v ++ rest) := by
  cases h with
  | null => rfl
  | bool b => cases b <;> rfl
  | str h => rfl
  | num h =>
      rename_i numeral
      obtain ⟨n, hread, -⟩ := h
      cases numeral with
      | nil => cases hread
      | cons c s =>
          obtain ⟨⟨hblank, hclose⟩, -⟩ := numeral_head hread
          have hsame : step ⟨stack, .firstItem⟩ c = step ⟨stack, .value⟩ c := by
            show (if isBlank c = true then _ else if c = ']' then _ else start stack c)
              = if isBlank c = true then _ else start stack c
            rw [hblank, if_neg Bool.false_ne_true, if_neg Bool.false_ne_true, if_neg hclose]
          show run _ (c :: (s ++ rest)) = run _ (c :: (s ++ rest))
          rw [run_cons, run_cons, hsame]
  | arr h =>
      rename_i items
      cases items <;> rfl
  | obj hnames hunits h =>
      rename_i members
      cases members <;> rfl

/-- **The reader, over the text of a value.** -/
theorem run_write (h : Proper v) : Reads v := by
  induction h with
  | null => exact fun stack => ⟨_, rfl, Or.inl rfl⟩
  | bool b => exact fun stack => ⟨_, by cases b <;> rfl, Or.inl rfl⟩
  | num h => exact reads_num h
  | str h =>
      exact fun stack => ⟨_, run_quoteUnits stack false h, Or.inl rfl⟩
  | arr hproper ih =>
      rename_i items
      intro stack
      refine ⟨⟨stack, .complete (.arr items)⟩, ?_, Or.inl rfl⟩
      cases items with
      | nil => rfl
      | cons v items =>
          show run ⟨.items [] :: stack, .firstItem⟩ (write v ++ writeItems items) = _
          rw [run_firstItem _ (hproper v List.mem_cons_self)]
          exact run_writeItems stack (fun w hw => ih w (List.mem_cons_of_mem _ hw)) []
            (ih v List.mem_cons_self)
  | obj hnames hunits hproper ih =>
      rename_i members
      intro stack
      refine ⟨⟨stack, .complete (.obj members)⟩, ?_, Or.inl rfl⟩
      cases members with
      | nil => rfl
      | cons m members =>
          obtain ⟨k, v⟩ := m
          have hrest : ∀ x ∈ members, (∀ u ∈ x.1, u < 0x10000) ∧ Reads x.2 := fun x hx =>
            ⟨hunits x (List.mem_cons_of_mem _ hx), ih x (List.mem_cons_of_mem _ hx)⟩
          refine Eq.trans ?_ (run_writeMembers stack hrest [] (hunits _ List.mem_cons_self)
            (ih _ List.mem_cons_self))
          show run ⟨.members [] :: stack, .firstKey⟩
            ((quoteUnits k ++ ':' :: write v) ++ writeMembers members) = _
          rw [List.append_assoc]
          rfl

theorem parse_write (h : Proper v) : parse (write v) = some v := by
  obtain ⟨r, hrun, hr⟩ := run_write h []
  unfold parse
  rw [hrun]
  exact finish_of_behind hr

/-- **Different values have different texts.** -/
theorem write_injective {w : Json} (hv : Proper v) (hw : Proper w) (h : write v = write w) :
    v = w :=
  Option.some.inj ((parse_write hv).symm.trans ((congrArg parse h).trans (parse_write hw)))

end JsonText
