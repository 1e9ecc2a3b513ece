import Daftari.Lib.LinesProofs
import Daftari.Lib.NumeralsProofs

/-! # Internet addresses in text — the forms of an address, and a reader for them

    An IPv4 address is four decimal numbers with dots between them.  An IPv6 address is eight groups
    of hexadecimal digits with colons between them, of which a run of zeros may be left out for
    `::`, the last two may be written as an IPv4 address, and a zone may follow after `%`.

    * `Denotes s a`: **the text `s` is a form of the address `a`**, as a grammar;
    * `read`: a reader, and `read_eq_some_iff`: it reads the forms of an address and nothing else,
      so that a text denotes at most one;
    * `isIP`: the family of the address a text denotes. -/

namespace AddressText

/-! ## Addresses -/

/-- The families, `4` and `6`. -/
inductive Family
  | v4
  | v6
  deriving DecidableEq, Repr

def Family.width : Family → Nat
  | .v4 => 32
  | .v6 => 128

/-- An address: its family, and its bits as a number. -/
structure Addr where
  family : Family
  value : Nat
  deriving DecidableEq, Repr

/-- Sixteen-bit words, the first the most significant. -/
def wordsValue (ws : List Nat) : Nat := ws.foldl (fun acc w => acc * 65536 + w) 0

/-! ## The parts of a form -/

def isHexDigit (c : Char) : Bool :=
  c.isDigit || ('a' ≤ c && c ≤ 'f') || ('A' ≤ c && c ≤ 'F')

/-- The number a hexadecimal digit stands for. -/
def hexDigit (c : Char) : Nat :=
  if c.isDigit then c.toNat - '0'.toNat
  else if 'a' ≤ c then c.toNat - 'a'.toNat + 10
  else c.toNat - 'A'.toNat + 10

/-- The number a run of hexadecimal digits writes. -/
def hexValue (s : List Char) : Nat := s.foldl (fun acc c => acc * 16 + hexDigit c) 0

def HexGroup (s : List Char) : Prop :=
  1 ≤ s.length ∧ s.length ≤ 4 ∧ s.all isHexDigit = true

/-- A decimal number up to 255, without leading zeros. -/
def Octet (s : List Char) : Prop :=
  s ≠ [] ∧ s.all Char.isDigit = true ∧ (s.head? = some '0' → s = ['0'])
    ∧ Numerals.value s ≤ 255

instance (s : List Char) : Decidable (HexGroup s) := inferInstanceAs (Decidable (_ ∧ _))

instance (s : List Char) : Decidable (Octet s) := inferInstanceAs (Decidable (_ ∧ _))

/-- Four decimal numbers with dots between them, and their value. -/
inductive Dotted : List Char → Nat → Prop
  | mk {a b c d : List Char} (ha : Octet a) (hb : Octet b) (hc : Octet c) (hd : Octet d) :
      Dotted (['.'].intercalate [a, b, c, d])
        (((Numerals.value a * 256 + Numerals.value b) * 256 + Numerals.value c) * 256
          + Numerals.value d)

/-- Groups and the words they write.  Where `tail` is set, the last one may be an IPv4
    address, which writes two words. -/
inductive Words : Bool → List (List Char) → List Nat → Prop
  | nil {tail : Bool} : Words tail [] []
  | hex {tail : Bool} {g : List Char} {gs : List (List Char)} {ws : List Nat} (hg : HexGroup g)
      (hgs : Words tail gs ws) : Words tail (g :: gs) (hexValue g :: ws)
  | dotted {g : List Char} {n : Nat} (hg : Dotted g n) :
      Words true [g] [n / 65536, n % 65536]

def join (gs : List (List Char)) : List Char := [':'].intercalate gs

/-- The characters of a zone's name. -/
def isZoneChar (c : Char) : Bool :=
  c.isDigit || ('a' ≤ c && c ≤ 'z') || ('A' ≤ c && c ≤ 'Z') || c == '-' || c == '.' || c == ':'

/-- No zone, or `%` and its name. -/
def Zone (z : List Char) : Prop :=
  z = [] ∨ z.head? = some '%' ∧ z.tail ≠ [] ∧ z.tail.all isZoneChar = true

instance (z : List Char) : Decidable (Zone z) := inferInstanceAs (Decidable (_ ∨ _))

/-- **The text is a form of the address.** -/
inductive Denotes : List Char → Addr → Prop
  | v4 {s : List Char} {n : Nat} (h : Dotted s n) : Denotes s ⟨.v4, n⟩
  | full {gs : List (List Char)} {ws : List Nat} {z : List Char} (h : Words true gs ws)
      (hlen : ws.length = 8) (hz : Zone z) : Denotes (join gs ++ z) ⟨.v6, wordsValue ws⟩
  | gap {hs ts : List (List Char)} {ws us : List Nat} {z : List Char} (hh : Words false hs ws)
      (ht : Words true ts us) (hlen : ws.length + us.length ≤ 7) (hz : Zone z) :
      Denotes (join hs ++ (':' :: ':' :: join ts) ++ z)
        ⟨.v6, wordsValue (ws ++ (List.replicate (8 - (ws.length + us.length)) 0 ++ us))⟩

/-! ## Reading -/

/-- `split("::")`. -/
def splitGap : List Char → List (List Char)
  | ':' :: ':' :: s => [] :: splitGap s
  | c :: s => (splitGap s).modifyHead (c :: ·)
  | [] => [[]]

def readDotted (s : List Char) : Option Nat :=
  match s.splitOn '.' with
  | [a, b, c, d] =>
      if Octet a ∧ Octet b ∧ Octet c ∧ Octet d then
        some (((Numerals.value a * 256 + Numerals.value b) * 256 + Numerals.value c) * 256
          + Numerals.value d)
      else none
  | _ => none

def readWords (tail : Bool) : List (List Char) → Option (List Nat)
  | [] => some []
  | g :: gs =>
      if HexGroup g then (readWords tail gs).map (hexValue g :: ·)
      else if tail = true ∧ gs = [] then (readDotted g).map fun n => [n / 65536, n % 65536]
      else none

/-- The groups of a text; the empty text has none. -/
def groupsOf (s : List Char) : List (List Char) := if s = [] then [] else s.splitOn ':'

/-- Read the words of an IPv6 address without its zone. -/
def readWords6 (s : List Char) : Option (List Nat) :=
  match splitGap s with
  | [s] =>
      match readWords true (groupsOf s) with
      | some ws => if ws.length = 8 then some ws else none
      | none => none
  | [h, t] =>
      match readWords false (groupsOf h), readWords true (groupsOf t) with
      | some ws, some us =>
          if ws.length + us.length ≤ 7 then
            some (ws ++ (List.replicate (8 - (ws.length + us.length)) 0 ++ us))
          else none
      | _, _ => none
  | _ => none

def read (s : List Char) : Option Addr :=
  match readDotted s with
  | some n => some ⟨.v4, n⟩
  | none =>
      if Zone (s.dropWhile (· != '%')) then
        (readWords6 (s.takeWhile (· != '%'))).map fun ws => ⟨.v6, wordsValue ws⟩
      else none

/-- `isIP`: the family of the address, or `none` for `0`. -/
def isIP (s : List Char) : Option Family := (read s).map Addr.family

/-! ## The characters of the parts -/

variable {c : Char}

theorem isHexDigit_of_isDigit (h : c.isDigit = true) : isHexDigit c = true := by
  unfold isHexDigit
  rw [h]
  rfl

variable {s : List Char}

theorem not_mem_of_all_hex (h : s.all isHexDigit = true) (hc : isHexDigit c = false) : c ∉ s := by
  intro hmem
  have hhex := List.all_eq_true.mp h c hmem
  rw [hc] at hhex
  cases hhex

theorem Octet.all_hex (h : Octet s) : s.all isHexDigit = true :=
  List.all_eq_true.mpr fun c hc => isHexDigit_of_isDigit (List.all_eq_true.mp h.2.1 c hc)

variable {n : Nat}

theorem Dotted.char (h : Dotted s n) (hc : isHexDigit c = false) (hdot : c ≠ '.') : c ∉ s := by
  obtain ⟨ha, hb, hc', hd⟩ := h
  simp only [List.intercalate_cons_cons, List.intercalate_singleton, List.mem_append,
    List.mem_singleton, not_or]
  exact ⟨⟨not_mem_of_all_hex ha.all_hex hc, hdot⟩, ⟨not_mem_of_all_hex hb.all_hex hc, hdot⟩,
    ⟨not_mem_of_all_hex hc'.all_hex hc, hdot⟩, not_mem_of_all_hex hd.all_hex hc⟩

theorem Dotted.dot_mem (h : Dotted s n) : '.' ∈ s := by
  obtain ⟨ha, hb, hc, hd⟩ := h
  simp [List.intercalate_cons_cons]

variable {gs : List (List Char)} {ws : List Nat} {tail : Bool}

theorem Words.char (h : Words tail gs ws) (hc : isHexDigit c = false) (hdot : c ≠ '.') :
    ∀ g ∈ gs, c ∉ g := by
  induction h with
  | nil => intro g hg; cases hg
  | hex hg _ ih =>
      intro g' hg'
      rcases List.mem_cons.mp hg' with rfl | hmem
      · exact not_mem_of_all_hex hg.2.2 hc
      · exact ih g' hmem
  | dotted hg =>
      intro g' hg'
      obtain rfl := List.mem_singleton.mp hg'
      exact hg.char hc hdot

theorem Words.group (h : Words tail gs ws) : ∀ g ∈ gs, g ≠ [] ∧ ':' ∉ g ∧ '%' ∉ g := by
  induction h with
  | nil => intro g hg; cases hg
  | hex hg _ ih =>
      intro g' hg'
      rcases List.mem_cons.mp hg' with rfl | hmem
      · refine ⟨?_, not_mem_of_all_hex hg.2.2 rfl, not_mem_of_all_hex hg.2.2 rfl⟩
        intro hnil
        rw [hnil] at hg
        exact absurd hg.1 (by simp)
      · exact ih g' hmem
  | dotted hg =>
      intro g' hg'
      obtain rfl := List.mem_singleton.mp hg'
      exact ⟨List.ne_nil_of_mem hg.dot_mem, hg.char rfl (by decide), hg.char rfl (by decide)⟩

/-! ## The size of what they write -/

theorem Octet.length_le (h : Octet s) : 1 ≤ s.length ∧ s.length ≤ 3 := by
  obtain ⟨hne, hdigits, hzero, hvalue⟩ := h
  obtain ⟨c, rest, rfl⟩ := List.exists_cons_of_ne_nil hne
  rw [Numerals.value_cons] at hvalue
  by_contra hlong
  have hc := Numerals.toNat_of_isDigit (List.all_eq_true.mp hdigits c List.mem_cons_self)
  have hpow : 10 ^ 3 ≤ 10 ^ rest.length :=
    Nat.pow_le_pow_right (by omega) (by rw [List.length_cons] at hlong; omega)
  have hnonzero : 1 ≤ c.toNat - '0'.toNat := by
    by_contra hlt
    have hc0 : c = '0' := Char.toNat_inj.mp (by omega)
    have hall := hzero (by rw [hc0]; rfl)
    rw [(List.cons.inj hall).2] at hlong
    exact hlong (by simp)
  have hmul := Nat.mul_le_mul_left (10 ^ rest.length) hnonzero
  omega

theorem hexDigit_lt (h : isHexDigit c = true) : hexDigit c < 16 := by
  unfold isHexDigit at h
  unfold hexDigit
  split
  case isTrue hd =>
    have hdigit := Numerals.toNat_of_isDigit hd
    omega
  case isFalse hd =>
    have hrange : 'a' ≤ c ∧ c ≤ 'f' ∨ 'A' ≤ c ∧ c ≤ 'F' := by simpa [hd] using h
    rcases hrange with ⟨hlo, hhi⟩ | ⟨hlo, hhi⟩
    · rw [if_pos hlo]
      have h₂ : c.toNat ≤ 102 := UInt32.le_iff_toNat_le.mp hhi
      show c.toNat - 97 + 10 < 16
      omega
    · have h₁ : (65 : Nat) ≤ c.toNat := UInt32.le_iff_toNat_le.mp hlo
      have h₂ : c.toNat ≤ 70 := UInt32.le_iff_toNat_le.mp hhi
      rw [if_neg fun hle => by
        have h₃ : (97 : Nat) ≤ c.toNat := UInt32.le_iff_toNat_le.mp hle
        omega]
      show c.toNat - 65 + 10 < 16
      omega

theorem hexValue_lt (h : s.all isHexDigit = true) : hexValue s < 16 ^ s.length := by
  induction s using List.reverseRecOn with
  | nil => exact Nat.one_pos
  | append_singleton s c ih =>
      rw [List.all_append, Bool.and_eq_true] at h
      have hs := ih h.1
      have hc : hexDigit c < 16 := hexDigit_lt (by simpa using h.2)
      have hlast : hexValue (s ++ [c]) = hexValue s * 16 + hexDigit c := by
        unfold hexValue
        rw [List.foldl_append, List.foldl_cons, List.foldl_nil]
      rw [hlast, List.length_append, List.length_singleton, Nat.pow_succ]
      omega

theorem HexGroup.lt {g : List Char} (h : HexGroup g) : hexValue g < 65536 := by
  have hlt := hexValue_lt h.2.2
  have hpow : 16 ^ g.length ≤ 16 ^ 4 := Nat.pow_le_pow_right (by omega) h.2.1
  omega

theorem Dotted.lt (h : Dotted s n) : n < 2 ^ 32 := by
  obtain ⟨ha, hb, hc, hd⟩ := h
  have h₁ := ha.2.2.2
  have h₂ := hb.2.2.2
  have h₃ := hc.2.2.2
  have h₄ := hd.2.2.2
  omega

theorem Words.lt (h : Words tail gs ws) : ∀ w ∈ ws, w < 65536 := by
  induction h with
  | nil => intro w hw; cases hw
  | hex hg _ ih =>
      intro w hw
      rcases List.mem_cons.mp hw with rfl | hmem
      · exact hg.lt
      · exact ih w hmem
  | dotted hg =>
      intro w hw
      have hlt := hg.lt
      simp only [List.mem_cons, List.not_mem_nil, or_false] at hw
      rcases hw with rfl | rfl <;> omega

theorem wordsValue_append_singleton (ws : List Nat) (w : Nat) :
    wordsValue (ws ++ [w]) = wordsValue ws * 65536 + w := by
  unfold wordsValue
  rw [List.foldl_append, List.foldl_cons, List.foldl_nil]

theorem words_lt_of_gap {hs ts : List (List Char)} {us : List Nat} (hh : Words false hs ws)
    (ht : Words true ts us) : ∀ w ∈ ws ++ (List.replicate n 0 ++ us), w < 65536 := by
  intro w hw
  rw [List.mem_append, List.mem_append, List.mem_replicate] at hw
  rcases hw with hw | ⟨-, rfl⟩ | hw
  · exact hh.lt w hw
  · omega
  · exact ht.lt w hw

/-! ## The parts read back -/

theorem readDotted_eq_some_iff : readDotted s = some n ↔ Dotted s n := by
  constructor
  · intro h
    unfold readDotted at h
    split at h
    case h_1 a b c d hs =>
      split at h
      case isTrue ho =>
        obtain rfl := Option.some.inj h
        have hjoin : ['.'].intercalate (s.splitOn '.') = s := List.intercalate_splitOn _
        rw [hs] at hjoin
        rw [← hjoin]
        exact ⟨ho.1, ho.2.1, ho.2.2.1, ho.2.2.2⟩
      case isFalse => cases h
    case h_2 => cases h
  · rintro ⟨ha, hb, hc, hd⟩
    have hdot : ∀ {o : List Char}, Octet o → '.' ∉ o := fun ho =>
      not_mem_of_all_hex ho.all_hex rfl
    unfold readDotted
    rw [Lines.splitOn_join (List.cons_ne_nil _ _) (by simp [hdot ha, hdot hb, hdot hc, hdot hd])]
    exact if_pos ⟨ha, hb, hc, hd⟩

theorem Dotted.not_hexGroup (h : Dotted s n) : ¬ HexGroup s :=
  fun hg => not_mem_of_all_hex hg.2.2 rfl h.dot_mem

theorem readWords_eq_some_iff : readWords tail gs = some ws ↔ Words tail gs ws := by
  constructor
  · intro h
    induction gs generalizing ws with
    | nil =>
        obtain rfl := Option.some.inj h
        exact .nil
    | cons g gs ih =>
        unfold readWords at h
        split at h
        case isTrue hg =>
          obtain ⟨ws', hws', rfl⟩ := Option.map_eq_some_iff.mp h
          exact .hex hg (ih hws')
        case isFalse =>
          split at h
          case isTrue hlast =>
            obtain ⟨rfl, rfl⟩ := hlast
            obtain ⟨n, hn, rfl⟩ := Option.map_eq_some_iff.mp h
            exact .dotted (readDotted_eq_some_iff.mp hn)
          case isFalse => cases h
  · intro h
    induction h with
    | nil => rfl
    | hex hg _ ih => rw [readWords, if_pos hg, ih]; rfl
    | dotted hg =>
        rw [readWords, if_neg hg.not_hexGroup, if_pos ⟨rfl, rfl⟩, readDotted_eq_some_iff.mpr hg]
        rfl

/-! ## Groups and gaps -/

/-- Groups, as they stand between colons. -/
def Groups (gs : List (List Char)) : Prop := ∀ g ∈ gs, g ≠ [] ∧ ':' ∉ g ∧ '%' ∉ g

theorem join_cons_cons (g g' : List Char) (gs : List (List Char)) :
    join (g :: g' :: gs) = g ++ ':' :: join (g' :: gs) := by
  unfold join
  rw [List.intercalate_cons_cons, List.append_assoc, List.singleton_append]

theorem join_eq_cons {g : List Char} (h : Groups (g :: gs)) :
    ∃ c rest, join (g :: gs) = c :: rest ∧ c ≠ ':' := by
  obtain ⟨hne, hcolon, -⟩ := h g List.mem_cons_self
  obtain ⟨c, rest, rfl⟩ := List.exists_cons_of_ne_nil hne
  have hc : c ≠ ':' := fun heq => hcolon (heq ▸ List.mem_cons_self)
  cases gs with
  | nil => exact ⟨c, rest, List.intercalate_singleton, hc⟩
  | cons g' gs => exact ⟨c, _, by rw [join_cons_cons, List.cons_append], hc⟩

theorem groupsOf_join (h : Groups gs) : groupsOf (join gs) = gs := by
  unfold groupsOf
  cases gs with
  | nil => rfl
  | cons g gs =>
      obtain ⟨c, rest, hjoin, -⟩ := join_eq_cons h
      rw [if_neg (by rw [hjoin]; exact List.cons_ne_nil _ _)]
      exact Lines.splitOn_join (List.cons_ne_nil _ _) fun l hl => (h l hl).2.1

theorem join_groupsOf (s : List Char) : join (groupsOf s) = s := by
  unfold groupsOf
  split
  case isTrue hs => rw [hs]; rfl
  case isFalse => exact List.intercalate_splitOn _

theorem not_mem_join (hc : c ≠ ':') (h : ∀ g ∈ gs, c ∉ g) : c ∉ join gs := by
  induction gs with
  | nil => exact List.not_mem_nil
  | cons g gs ih =>
      have hg := h g List.mem_cons_self
      have hgs := ih fun g' hg' => h g' (List.mem_cons_of_mem _ hg')
      cases gs with
      | nil =>
          rw [show join [g] = g from List.intercalate_singleton]
          exact hg
      | cons g' gs =>
          rw [join_cons_cons, List.mem_append, List.mem_cons]
          rintro (hmem | heq | hmem)
          · exact hg hmem
          · exact hc heq
          · exact hgs hmem

theorem percent_not_mem_join (h : Groups gs) : '%' ∉ join gs :=
  not_mem_join (by decide) fun g hg => (h g hg).2.2

theorem splitGap_ne_nil (s : List Char) : splitGap s ≠ [] := by
  fun_induction splitGap s with
  | case1 => exact List.cons_ne_nil _ _
  | case2 c s _ ih =>
      cases hs : splitGap s with
      | nil => exact absurd hs ih
      | cons first rest => exact List.cons_ne_nil _ _
  | case3 => exact List.cons_ne_nil _ _

theorem splitGap_cons (h : c = ':' → s.head? ≠ some ':') :
    splitGap (c :: s) = (splitGap s).modifyHead (c :: ·) := by
  rw [splitGap]
  intro s' hc hs
  exact h hc (by rw [hs]; rfl)

theorem modifyHead_nil_append (l : List (List Char)) : l.modifyHead ([] ++ ·) = l := by
  cases l with
  | nil => rfl
  | cons first rest => rfl

theorem splitGap_append {g : List Char} (h : ':' ∉ g) :
    splitGap (g ++ s) = (splitGap s).modifyHead (g ++ ·) := by
  induction g with
  | nil => exact (modifyHead_nil_append _).symm
  | cons c g ih =>
      obtain ⟨hc, hg⟩ := not_or.mp fun hmem => h (List.mem_cons.mpr hmem)
      rw [List.cons_append, splitGap_cons fun heq => absurd heq.symm hc, ih hg,
        List.modifyHead_modifyHead]
      rfl

theorem splitGap_join_append (h : Groups gs) :
    splitGap (join gs ++ s) = (splitGap s).modifyHead (join gs ++ ·) := by
  induction gs with
  | nil => exact (modifyHead_nil_append _).symm
  | cons g gs ih =>
      have hg := (h g List.mem_cons_self).2.1
      cases gs with
      | nil =>
          rw [show join [g] = g from List.intercalate_singleton]
          exact splitGap_append hg
      | cons g' gs =>
          have hgs : Groups (g' :: gs) := fun g'' hg'' => h g'' (List.mem_cons_of_mem _ hg'')
          obtain ⟨c, rest, hjoin, hc⟩ := join_eq_cons hgs
          rw [join_cons_cons, List.append_assoc, List.cons_append, splitGap_append hg,
            splitGap_cons (by rw [hjoin]; simpa using hc), ih hgs, List.modifyHead_modifyHead,
            List.modifyHead_modifyHead]
          congr 1
          funext first
          simp

theorem intercalate_splitGap (s : List Char) : [':', ':'].intercalate (splitGap s) = s := by
  fun_induction splitGap s with
  | case1 s ih =>
      cases hs : splitGap s with
      | nil => exact absurd hs (splitGap_ne_nil s)
      | cons first rest =>
          rw [hs] at ih
          rw [List.intercalate_cons_cons, ih]
          rfl
  | case2 c s _ ih =>
      cases hs : splitGap s with
      | nil => exact absurd hs (splitGap_ne_nil s)
      | cons first rest =>
          rw [hs] at ih
          rw [List.modifyHead_cons]
          cases rest with
          | nil =>
              rw [List.intercalate_singleton] at ih ⊢
              rw [ih]
          | cons second rest =>
              rw [List.intercalate_cons_cons] at ih ⊢
              rw [List.cons_append, List.cons_append, ih]
  | case3 => rfl

theorem splitGap_join (h : Groups gs) : splitGap (join gs) = [join gs] := by
  have hcut := splitGap_join_append (s := []) h
  rw [List.append_nil] at hcut
  rw [hcut]
  show [join gs ++ []] = _
  rw [List.append_nil]

theorem splitGap_gap {hs ts : List (List Char)} (hh : Groups hs) (ht : Groups ts) :
    splitGap (join hs ++ ':' :: ':' :: join ts) = [join hs, join ts] := by
  rw [splitGap_join_append hh]
  show [join hs ++ []] ++ splitGap (join ts) = _
  rw [splitGap_join ht, List.append_nil]
  rfl

/-! ## The reader reads the forms -/

theorem cut_at {x : Char} {t : List Char} (hs : x ∉ s) (ht : t = [] ∨ t.head? = some x) :
    (s ++ t).takeWhile (· != x) = s ∧ (s ++ t).dropWhile (· != x) = t := by
  have hall : ∀ c ∈ s, (c != x) = true := fun c hc =>
    bne_iff_ne.mpr fun heq => hs (heq ▸ hc)
  have hstart : t.takeWhile (· != x) = [] ∧ t.dropWhile (· != x) = t := by
    rcases ht with rfl | hhead
    · exact ⟨rfl, rfl⟩
    · obtain ⟨rest, rfl⟩ := List.head?_eq_some_iff.mp hhead
      simp
  constructor
  · rw [List.takeWhile_append_of_pos hall, hstart.1, List.append_nil]
  · rw [List.dropWhile_append_of_pos hall, hstart.2]

theorem cut_zone {z : List Char} (hs : '%' ∉ s) (hz : Zone z) :
    (s ++ z).takeWhile (· != '%') = s ∧ (s ++ z).dropWhile (· != '%') = z :=
  cut_at hs (hz.imp_right And.left)

theorem readDotted_eq_none (h : ':' ∈ s) : readDotted s = none := by
  cases hr : readDotted s with
  | none => rfl
  | some n => exact absurd h ((readDotted_eq_some_iff.mp hr).char rfl (by decide))

theorem Words.length_le (h : Words tail gs ws) : ws.length ≤ gs.length + 1 := by
  induction h with
  | nil => exact Nat.zero_le _
  | hex _ _ ih => exact Nat.succ_le_succ ih
  | dotted => exact Nat.le_refl _

theorem colon_mem_join (h : Words true gs ws) (hlen : ws.length = 8) : ':' ∈ join gs := by
  have hgs := h.length_le
  match gs, hgs with
  | [], hgs => rw [List.length_nil] at hgs; omega
  | [g], hgs => rw [List.length_singleton] at hgs; omega
  | g :: g' :: gs, _ => rw [join_cons_cons]; simp

theorem readWords6_full (h : Words true gs ws) (hlen : ws.length = 8) :
    readWords6 (join gs) = some ws := by
  unfold readWords6
  rw [splitGap_join h.group]
  simp only
  rw [groupsOf_join h.group, readWords_eq_some_iff.mpr h]
  exact if_pos hlen

theorem readWords6_gap {hs ts : List (List Char)} {us : List Nat} (hh : Words false hs ws)
    (ht : Words true ts us) (hlen : ws.length + us.length ≤ 7) :
    readWords6 (join hs ++ ':' :: ':' :: join ts)
      = some (ws ++ (List.replicate (8 - (ws.length + us.length)) 0 ++ us)) := by
  unfold readWords6
  rw [splitGap_gap hh.group ht.group]
  simp only
  rw [groupsOf_join hh.group, groupsOf_join ht.group, readWords_eq_some_iff.mpr hh,
    readWords_eq_some_iff.mpr ht]
  exact if_pos hlen

theorem read_v6 {z : List Char} (hcolon : ':' ∈ s) (hs : '%' ∉ s) (hz : Zone z)
    (h : readWords6 s = some ws) : read (s ++ z) = some ⟨.v6, wordsValue ws⟩ := by
  obtain ⟨htake, hdrop⟩ := cut_zone hs hz
  unfold read
  rw [readDotted_eq_none (List.mem_append_left _ hcolon)]
  rw [hdrop, htake, if_pos hz, h]
  rfl

theorem denotes_of_readWords6 {z : List Char} (h : readWords6 s = some ws) (hz : Zone z) :
    Denotes (s ++ z) ⟨.v6, wordsValue ws⟩ := by
  have hjoin := intercalate_splitGap s
  unfold readWords6 at h
  split at h
  case h_1 s' hs =>
    rw [hs, List.intercalate_singleton] at hjoin
    rw [← hjoin]
    split at h
    case h_1 us hus =>
      split at h
      case isTrue hlen =>
        obtain rfl := Option.some.inj h
        rw [← join_groupsOf s']
        exact .full (readWords_eq_some_iff.mp hus) hlen hz
      case isFalse => cases h
    case h_2 => cases h
  case h_2 a b hs =>
    rw [hs, List.intercalate_cons_cons, List.intercalate_singleton, List.append_assoc] at hjoin
    rw [← hjoin]
    split at h
    case h_1 us vs hus hvs =>
      split at h
      case isTrue hlen =>
        obtain rfl := Option.some.inj h
        have hgap := Denotes.gap (readWords_eq_some_iff.mp hus) (readWords_eq_some_iff.mp hvs)
          hlen hz
        rw [join_groupsOf, join_groupsOf] at hgap
        exact hgap
      case isFalse => cases h
    case h_2 => cases h
  case h_3 => cases h

/-- **The reader reads the forms of an address, and nothing else.** -/
theorem read_eq_some_iff {a : Addr} : read s = some a ↔ Denotes s a := by
  constructor
  · intro h
    unfold read at h
    split at h
    case h_1 n hn =>
      obtain rfl := Option.some.inj h
      exact .v4 (readDotted_eq_some_iff.mp hn)
    case h_2 =>
      split at h
      case isTrue hz =>
        obtain ⟨ws, hws, rfl⟩ := Option.map_eq_some_iff.mp h
        have hden := denotes_of_readWords6 hws hz
        rw [List.takeWhile_append_dropWhile] at hden
        exact hden
      case isFalse => cases h
  · intro h
    cases h with
    | v4 h =>
        unfold read
        rw [readDotted_eq_some_iff.mpr h]
    | full h hlen hz =>
        exact read_v6 (colon_mem_join h hlen) (percent_not_mem_join h.group) hz
          (readWords6_full h hlen)
    | gap hh ht hlen hz =>
        refine read_v6 (by simp) ?_ hz (readWords6_gap hh ht hlen)
        simp only [List.mem_append, List.mem_cons, not_or]
        exact ⟨percent_not_mem_join hh.group, by decide, by decide, percent_not_mem_join ht.group⟩

theorem Denotes.slash {a : Addr} (h : Denotes s a) : '/' ∉ s := by
  have hzone : ∀ {z : List Char}, Zone z → '/' ∉ z := by
    rintro z (rfl | ⟨hhead, -, hall⟩) hmem
    · cases hmem
    · obtain ⟨rest, rfl⟩ := List.head?_eq_some_iff.mp hhead
      rcases List.mem_cons.mp hmem with heq | hrest
      · exact absurd heq (by decide)
      · exact absurd (List.all_eq_true.mp hall _ hrest) (by decide)
  cases h with
  | v4 h => exact h.char rfl (by decide)
  | full h _ hz =>
      simp only [List.mem_append, not_or]
      exact ⟨not_mem_join (by decide) (h.char rfl (by decide)), hzone hz⟩
  | gap hh ht _ hz =>
      simp only [List.mem_append, List.mem_cons, not_or]
      exact ⟨⟨not_mem_join (by decide) (hh.char rfl (by decide)), by decide, by decide,
        not_mem_join (by decide) (ht.char rfl (by decide))⟩, hzone hz⟩

theorem Denotes.unique {a b : Addr} (ha : Denotes s a) (hb : Denotes s b) : a = b := by
  have h := read_eq_some_iff.mpr ha
  rw [read_eq_some_iff.mpr hb] at h
  exact (Option.some.inj h).symm

theorem Denotes.isIP {a : Addr} (h : Denotes s a) : isIP s = some a.family := by
  unfold AddressText.isIP
  rw [read_eq_some_iff.mpr h]
  rfl

/-- **`isIP` accepts the texts that denote an address.** -/
theorem isSome_isIP_iff : (isIP s).isSome = true ↔ ∃ a, Denotes s a := by
  constructor
  · intro h
    obtain ⟨f, hf⟩ := Option.isSome_iff_exists.mp h
    obtain ⟨a, ha, -⟩ := Option.map_eq_some_iff.mp hf
    exact ⟨a, read_eq_some_iff.mp ha⟩
  · rintro ⟨a, ha⟩
    rw [ha.isIP]
    rfl

end AddressText
