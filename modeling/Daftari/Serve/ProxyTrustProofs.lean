import Daftari.Lib.AddressTextProofs
import Mathlib.Data.Nat.Bitwise

/-! # Trusted proxies — who a public request is from

    A forwarded header is honoured only where the socket's peer is in one of the
    configured ranges, and then the client is the first hop from the right that is in
    none of them.  An IPv4 peer of a dual-stack listener shows as the IPv6 address
    `::ffff:a.b.c.d`, which is read as the IPv4 address.

    * `ipInCidr_iff`: an address is in a range, **as it is read**;
    * `proxyTrust_exact_iff`: **the spellings for which the answer is the address's**:
      an IPv4 address written in IPv6, but not as `::ffff:a.b.c.d`, is missed. -/

namespace ProxyTrust

open AddressText

/-! ## Reading addresses and ranges -/

/-- A range: its first address, the length of its prefix, and its family. -/
structure CidrRange where
  base : Nat
  bits : Nat
  version : Family
  deriving DecidableEq, Repr

/-- `/^\\d{1,3}$/`. -/
def isShortDecimal (s : List Char) : Bool :=
  decide (1 ≤ s.length) && decide (s.length ≤ 3) && s.all Char.isDigit

/-- `/^::ffff:(\\d{1,3}\\.\\d{1,3}\\.\\d{1,3}\\.\\d{1,3})$/i`. -/
def isMappedSpelling (ip : List Char) : Bool :=
  (ip.take 7).map Char.toLower == [':', ':', 'f', 'f', 'f', 'f', ':']
    && decide (((ip.drop 7).splitOn '.').length = 4)
    && ((ip.drop 7).splitOn '.').all isShortDecimal

def normalizeMappedV4 (ip : List Char) : List Char :=
  if isMappedSpelling ip then ip.drop 7 else ip

/-- The loop of `ipv4ToBigInt`. -/
def ipv4Parts : Nat → List (List Char) → Option Nat
  | acc, [] => some acc
  | acc, part :: parts =>
      if !isShortDecimal part then none
      else if 255 < Numerals.value part then none
      else ipv4Parts ((acc <<< 8) ||| Numerals.value part) parts

def ipv4ToBigInt (ip : List Char) : Option Nat :=
  let parts := ip.splitOn '.'
  if parts.length ≠ 4 then none else ipv4Parts 0 parts

/-- One group of `parseGroups`. -/
def parseGroup (last : Bool) (group : List Char) : Option (List Nat) :=
  if '.' ∈ group then
    -- an embedded IPv4 tail occupies two groups
    if !last then none
    else
      match ipv4ToBigInt group with
      | none => none
      | some v4 => some [(v4 >>> 16) &&& 0xffff, v4 &&& 0xffff]
  else if HexGroup group then some [hexValue group]
  else none

/-- The loop of `parseGroups`. -/
def parseGroupList : List (List Char) → Option (List Nat)
  | [] => some []
  | group :: groups =>
      match parseGroup groups.isEmpty group with
      | none => none
      | some out => (parseGroupList groups).map (out ++ ·)

def parseGroups (segment : List Char) : Option (List Nat) :=
  if segment = [] then some [] else parseGroupList (segment.splitOn ':')

/-- The end of `ipv6ToBigInt`: eight groups, put together. -/
def packGroups (groups : List Nat) : Option Nat :=
  if groups.length ≠ 8 then none else some (groups.foldl (fun acc g => (acc <<< 16) ||| g) 0)

def ipv6ToBigInt (ip : List Char) : Option Nat :=
  let withoutZone := ip.takeWhile (· != '%')
  match splitGap withoutZone with
  | [segment] =>
      match parseGroups segment with
      | none => none
      | some head => packGroups head
  | [first, second] =>
      match parseGroups first, parseGroups second with
      | some head, some tail =>
          let filled := head.length + tail.length
          if 8 < filled then none else packGroups (head ++ (List.replicate (8 - filled) 0 ++ tail))
      | _, _ => none
  | _ => none

def ipToBigInt (ip : List Char) : Family → Option Nat
  | .v4 => ipv4ToBigInt ip
  | .v6 => ipv6ToBigInt ip

/-- The length of a prefix: all bits where there is no slash. -/
def prefixBits (max : Nat) : List Char → Option Nat
  | [] => some max
  | _ :: raw =>
      if !isShortDecimal raw then none
      else if max < Numerals.value raw then none
      else some (Numerals.value raw)

def parseCidr (spec : List Char) : Option CidrRange :=
  let ipStr := normalizeMappedV4 (spec.takeWhile (· != '/'))
  match isIP ipStr with
  | none => none
  | some version =>
      match prefixBits version.width (spec.dropWhile (· != '/')) with
      | none => none
      | some bits =>
          match ipToBigInt ipStr version with
          | none => none
          | some value =>
              let hostBits := version.width - bits
              some ⟨(value >>> hostBits) <<< hostBits, bits, version⟩

def ipInCidr (ip : List Char) (cidr : CidrRange) : Bool :=
  let normalized := normalizeMappedV4 ip
  match isIP normalized with
  | none => false
  | some version =>
      if version ≠ cidr.version then false
      else
        match ipToBigInt normalized version with
        | none => false
        | some value =>
            let hostBits := version.width - cidr.bits
            (value >>> hostBits) <<< hostBits == cidr.base

def ipInAnyCidr (ip : List Char) (cidrs : List CidrRange) : Bool := cidrs.any (ipInCidr ip)

def parseTrustedProxies (specs : List (List Char)) : List CidrRange := specs.filterMap parseCidr

/-! ## Resolving the client -/

/-- The forwarded header: absent, once, or more than once. -/
inductive ForwardedFor
  | absent
  | one (header : List Char)
  | many (headers : List (List Char))
  deriving DecidableEq, Repr

/-- The header as one text. -/
def ForwardedFor.header : ForwardedFor → Option (List Char)
  | .absent => none
  | .one header => some header
  | .many headers => some ([','].intercalate headers)

/-- `replace(/^\\[|\\]$/g, "")`. -/
def stripBrackets (s : List Char) : List Char :=
  let s' := if s.head? = some '[' then s.tail else s
  if s'.getLast? = some ']' then s'.dropLast else s'

def hopOf (entry : List Char) : List Char := stripBrackets (Text.trim entry)

def hopsOf (header : List Char) : List (List Char) :=
  ((header.splitOn ',').map hopOf).filter fun hop => decide (0 < hop.length)

/-- The loop over the hops, the rightmost first. -/
def firstUntrusted (fallback : List Char) (trustedProxies : List CidrRange) :
    List (List Char) → List Char
  | [] => fallback
  | hop :: hops =>
      if isIP (normalizeMappedV4 hop) = none then fallback
      else if !ipInAnyCidr hop trustedProxies then hop
      else firstUntrusted fallback trustedProxies hops

def resolvePublicRemote (socketRemote : Option (List Char)) (forwardedFor : ForwardedFor)
    (trustedProxies : List CidrRange) : List Char :=
  match socketRemote with
  | none => "unknown".toList
  | some socket =>
      if trustedProxies.length = 0 then socket
      else if !ipInAnyCidr socket trustedProxies then socket
      else
        match forwardedFor.header with
        | none => socket
        | some header => firstUntrusted socket trustedProxies (hopsOf header).reverse

/-! ## What a text denotes, as it is read -/

/-- The IPv4 address an IPv6 address maps, else the address itself. -/
def fold (a : Addr) : Addr :=
  if a.family = .v6 ∧ a.value / 2 ^ 32 = 0xffff then ⟨.v4, a.value % 2 ^ 32⟩ else a

/-- The address as the code reads the spelling: mapped addresses only in dotted form. -/
def readAs (ip : List Char) (a : Addr) : Addr := if isMappedSpelling ip then fold a else a

variable {s : List Char}

theorem isShortDecimal_of_octet (h : Octet s) : isShortDecimal s = true := by
  obtain ⟨hlo, hhi⟩ := h.length_le
  unfold isShortDecimal
  rw [h.2.1, decide_eq_true hlo, decide_eq_true hhi]
  rfl

theorem ipv4Parts_octet {acc : Nat} {parts : List (List Char)} (h : Octet s) :
    ipv4Parts acc (s :: parts) = ipv4Parts (acc * 256 + Numerals.value s) parts := by
  have hvalue := h.2.2.2
  have hor : (acc <<< 8) ||| Numerals.value s = acc * 256 + Numerals.value s := by
    rw [← Nat.shiftLeft_add_eq_or_of_lt (by omega), Nat.shiftLeft_eq]
  rw [ipv4Parts, isShortDecimal_of_octet h, if_neg (by simp), if_neg (by omega), hor]

variable {n : Nat}

theorem ipv4ToBigInt_of_dotted (h : Dotted s n) : ipv4ToBigInt s = some n := by
  obtain ⟨ha, hb, hc, hd⟩ := h
  have hdot : ∀ {o : List Char}, Octet o → '.' ∉ o := fun ho =>
    not_mem_of_all_hex ho.all_hex rfl
  unfold ipv4ToBigInt
  rw [Lines.splitOn_join (List.cons_ne_nil _ _) (by simp [hdot ha, hdot hb, hdot hc, hdot hd])]
  show ipv4Parts 0 _ = _
  rw [ipv4Parts_octet ha, ipv4Parts_octet hb, ipv4Parts_octet hc, ipv4Parts_octet hd, ipv4Parts,
    Nat.zero_mul, Nat.zero_add]

theorem parseGroup_hex {last : Bool} {g : List Char} (h : HexGroup g) :
    parseGroup last g = some [hexValue g] := by
  unfold parseGroup
  rw [if_neg (not_mem_of_all_hex h.2.2 rfl), if_pos h]

theorem parseGroup_dotted {g : List Char} (h : Dotted g n) :
    parseGroup true g = some [n / 65536, n % 65536] := by
  have hlt := h.lt
  have hhigh : (n >>> 16) &&& 0xffff = n / 65536 := by
    rw [show (0xffff : Nat) = 2 ^ 16 - 1 from rfl, Nat.and_two_pow_sub_one_eq_mod,
      Nat.shiftRight_eq_div_pow]
    exact Nat.mod_eq_of_lt (by omega)
  have hlow : n &&& 0xffff = n % 65536 := by
    rw [show (0xffff : Nat) = 2 ^ 16 - 1 from rfl, Nat.and_two_pow_sub_one_eq_mod]
  unfold parseGroup
  rw [if_pos h.dot_mem, ipv4ToBigInt_of_dotted h, if_neg (by simp)]
  simp only
  rw [hhigh, hlow]

variable {ws : List Nat}

theorem parseGroupList_of_words {tail : Bool} {gs : List (List Char)} (h : Words tail gs ws) :
    parseGroupList gs = some ws := by
  induction h with
  | nil => rfl
  | hex hg _ ih =>
      rw [parseGroupList, parseGroup_hex hg]
      rw [ih]
      rfl
  | dotted hg =>
      rw [parseGroupList, List.isEmpty_nil, parseGroup_dotted hg]
      rfl

theorem parseGroups_join {tail : Bool} {gs : List (List Char)} (h : Words tail gs ws) :
    parseGroups (join gs) = some ws := by
  have hgroups : parseGroups (join gs) = parseGroupList (groupsOf (join gs)) := by
    unfold parseGroups groupsOf
    split
    · rfl
    · rfl
  rw [hgroups, groupsOf_join h.group, parseGroupList_of_words h]

theorem foldl_words (h : ∀ w ∈ ws, w < 65536) :
    ws.foldl (fun acc g => (acc <<< 16) ||| g) 0 = wordsValue ws := by
  induction ws using List.reverseRecOn with
  | nil => rfl
  | append_singleton ws w ih =>
      have hw : w < 65536 := h w (List.mem_append_right _ List.mem_cons_self)
      rw [List.foldl_append, List.foldl_cons, List.foldl_nil,
        ih fun w' hw' => h w' (List.mem_append_left _ hw'), wordsValue_append_singleton,
        ← Nat.shiftLeft_add_eq_or_of_lt (by omega), Nat.shiftLeft_eq]

theorem packGroups_of_length (hlen : ws.length = 8) (h : ∀ w ∈ ws, w < 65536) :
    packGroups ws = some (wordsValue ws) := by
  unfold packGroups
  rw [if_neg (not_not.mpr hlen), foldl_words h]

variable {a : Addr}

/-- **The code reads every form of an address as that address.** -/
theorem ipToBigInt_of_denotes (h : Denotes s a) : ipToBigInt s a.family = some a.value := by
  cases h with
  | v4 h => exact ipv4ToBigInt_of_dotted h
  | full h hlen hz =>
      show ipv6ToBigInt _ = _
      unfold ipv6ToBigInt
      simp only
      rw [(cut_zone (percent_not_mem_join h.group) hz).1, splitGap_join h.group]
      simp only
      rw [parseGroups_join h]
      exact packGroups_of_length hlen h.lt
  | @gap hs ts ws us z hh ht hlen hz =>
      have hpercent : '%' ∉ join hs ++ ':' :: ':' :: join ts := by
        simp only [List.mem_append, List.mem_cons, not_or]
        exact ⟨percent_not_mem_join hh.group, by decide, by decide, percent_not_mem_join ht.group⟩
      show ipv6ToBigInt _ = _
      unfold ipv6ToBigInt
      simp only
      rw [(cut_zone hpercent hz).1, splitGap_gap hh.group ht.group]
      simp only
      rw [parseGroups_join hh, parseGroups_join ht]
      simp only
      rw [if_neg (by omega)]
      refine packGroups_of_length ?_ ?_
      · rw [List.length_append, List.length_append, List.length_replicate]
        omega
      · exact words_lt_of_gap hh ht

/-! ## The mapped spelling -/

theorem toLower_cases (c : Char) :
    c = c.toLower ∨ 65 ≤ c.toNat ∧ c.toNat ≤ 90 ∧ c.toLower.toNat = c.toNat + 32 := by
  unfold Char.toLower
  split
  case isTrue hup =>
    have h₁ : (65 : Nat) ≤ c.toNat := UInt32.le_iff_toNat_le.mp hup.1
    have h₂ : c.toNat ≤ 90 := UInt32.le_iff_toNat_le.mp hup.2
    refine Or.inr ⟨h₁, h₂, ?_⟩
    show (c.val + 32).toNat = c.toNat + 32
    exact Nat.mod_eq_of_lt (show c.toNat + 32 < 2 ^ 32 by omega)
  case isFalse => exact Or.inl rfl

theorem eq_colon_of_toLower {c : Char} (h : c.toLower = ':') : c = ':' := by
  rcases toLower_cases c with hc | ⟨hlo, _, hc⟩
  · rw [hc, h]
  · rw [h] at hc
    have : (58 : Nat) = c.toNat + 32 := hc
    omega

theorem eq_f_of_toLower {c : Char} (h : c.toLower = 'f') : c = 'f' ∨ c = 'F' := by
  rcases toLower_cases c with hc | ⟨-, -, hc⟩
  · exact Or.inl (by rw [hc, h])
  · rw [h] at hc
    have hcap : (102 : Nat) = c.toNat + 32 := hc
    exact Or.inr (Char.toNat_inj.mp (show c.toNat = 70 by omega))

theorem hexGroup_ffff {a b c d : Char} (ha : a = 'f' ∨ a = 'F') (hb : b = 'f' ∨ b = 'F')
    (hc : c = 'f' ∨ c = 'F') (hd : d = 'f' ∨ d = 'F') :
    HexGroup [a, b, c, d] ∧ hexValue [a, b, c, d] = 0xffff := by
  have hhex : ∀ {e : Char}, e = 'f' ∨ e = 'F' → isHexDigit e = true ∧ hexDigit e = 15 := by
    rintro e (rfl | rfl)
    · exact ⟨rfl, rfl⟩
    · exact ⟨rfl, rfl⟩
  constructor
  · exact ⟨by simp, by simp, by simp [hhex ha, hhex hb, hhex hc, hhex hd]⟩
  · simp [hexValue, hhex ha, hhex hb, hhex hc, hhex hd]

theorem isDigit_of_isShortDecimal (h : isShortDecimal s = true) : s.all isHexDigit = true := by
  unfold isShortDecimal at h
  simp only [Bool.and_eq_true] at h
  exact List.all_eq_true.mpr fun c hc => isHexDigit_of_isDigit (List.all_eq_true.mp h.2 c hc)

variable {ip : List Char}

theorem exists_of_isMappedSpelling (h : isMappedSpelling ip = true) :
    ∃ g, ip = ':' :: ':' :: (g ++ ':' :: ip.drop 7) ∧ HexGroup g ∧ hexValue g = 0xffff
      ∧ '.' ∈ ip.drop 7 ∧ ∀ c, isHexDigit c = false → c ≠ '.' → c ∉ ip.drop 7 := by
  unfold isMappedSpelling at h
  simp only [Bool.and_eq_true, beq_iff_eq, decide_eq_true_eq] at h
  obtain ⟨⟨htake, hlen⟩, hall⟩ := h
  have hsplit := List.take_append_drop 7 ip
  obtain ⟨g, hg, hgroup, hvalue⟩ : ∃ g, ip.take 7 = ':' :: ':' :: (g ++ [':']) ∧ HexGroup g
      ∧ hexValue g = 0xffff := by
    simp only [List.map_eq_cons_iff, List.map_eq_nil_iff] at htake
    obtain ⟨a, _, hip, ha, b, _, rfl, hb, c, _, rfl, hc, d, _, rfl, hd, e, _, rfl, he, f, _, rfl,
      hf, i, _, rfl, hi, rfl⟩ := htake
    obtain ⟨hgroup, hvalue⟩ := hexGroup_ffff (eq_f_of_toLower hc) (eq_f_of_toLower hd)
      (eq_f_of_toLower he) (eq_f_of_toLower hf)
    refine ⟨[c, d, e, f], ?_, hgroup, hvalue⟩
    rw [hip, eq_colon_of_toLower ha, eq_colon_of_toLower hb, eq_colon_of_toLower hi]
    rfl
  refine ⟨g, ?_, hgroup, hvalue, ?_, ?_⟩
  · have hcut : ip = ip.take 7 ++ ip.drop 7 := hsplit.symm
    rw [hg] at hcut
    simpa using hcut
  · -- without a dot there is one part
    by_contra hdot
    rw [Lines.length_splitOn, List.count_eq_zero.mpr hdot] at hlen
    omega
  · intro c hc hdot hmem
    obtain ⟨part, hpart, hc'⟩ := Lines.mem_splitOn_of_mem hmem hdot
    have hdigits := isDigit_of_isShortDecimal (List.all_eq_true.mp hall part hpart)
    exact not_mem_of_all_hex hdigits hc hc'

theorem wordsValue_mapped :
    wordsValue ([] ++ (List.replicate 5 0 ++ [0xffff, n / 65536, n % 65536]))
      = 0xffff * 2 ^ 32 + n := by
  simp only [wordsValue, List.replicate, List.nil_append, List.cons_append, List.foldl_cons,
    List.foldl_nil]
  omega

/-- **What a mapped spelling denotes**: the IPv6 address that maps its IPv4 address. -/
theorem denotes_mapped_iff (h : isMappedSpelling ip = true) :
    Denotes ip a ↔ ∃ n, Dotted (ip.drop 7) n ∧ a = ⟨.v6, 0xffff * 2 ^ 32 + n⟩ := by
  obtain ⟨g, hip, hgroup, hvalue, hdot, hchars⟩ := exists_of_isMappedSpelling h
  have hjoin : join [g, ip.drop 7] = g ++ ':' :: ip.drop 7 := by
    rw [join_cons_cons]
    congr 2
    exact List.intercalate_singleton
  have hform : ∀ n, Dotted (ip.drop 7) n → Denotes ip ⟨.v6, 0xffff * 2 ^ 32 + n⟩ := by
    intro n hn
    have hgap := @Denotes.gap [] _ _ _ [] .nil (.hex hgroup (.dotted hn))
      (show 0 + 3 ≤ 7 by omega) (Or.inl rfl)
    rw [hvalue, List.append_nil, hjoin] at hgap
    have hgap' : Denotes (':' :: ':' :: (g ++ ':' :: ip.drop 7)) ⟨.v6, _⟩ := hgap
    rw [← hip] at hgap'
    rw [← wordsValue_mapped]
    exact hgap'
  constructor
  · intro ha
    cases hr : readDotted (ip.drop 7) with
    | some n =>
        have hn := readDotted_eq_some_iff.mp hr
        exact ⟨n, hn, ha.unique (hform n hn)⟩
    | none =>
        -- the last group is neither an address nor hexadecimal
        have hread := read_eq_some_iff.mpr ha
        have hgroups : Groups [g, ip.drop 7] := by
          intro g' hg'
          simp only [List.mem_cons, List.not_mem_nil, or_false] at hg'
          rcases hg' with rfl | rfl
          · exact (show Words true [g'] _ from .hex hgroup .nil).group _ List.mem_cons_self
          · exact ⟨List.ne_nil_of_mem hdot, hchars _ rfl (by decide), hchars _ rfl (by decide)⟩
        have hpercent : '%' ∉ ip := by
          rw [hip, ← hjoin]
          simp only [List.mem_cons, not_or]
          exact ⟨by decide, by decide, percent_not_mem_join hgroups⟩
        have hsplit : splitGap ip = [[], join [g, ip.drop 7]] := by
          have hgap := @splitGap_gap [] _ (fun _ h => nomatch h) hgroups
          rw [hjoin] at hgap
          have hgap' : splitGap (':' :: ':' :: (g ++ ':' :: ip.drop 7)) = _ := hgap
          rw [← hip] at hgap'
          rw [hgap', hjoin]
          rfl
        have hnot : ¬ HexGroup (ip.drop 7) := fun hg => not_mem_of_all_hex hg.2.2 rfl hdot
        have hwords : readWords6 ip = none := by
          unfold readWords6
          rw [hsplit]
          simp only
          rw [groupsOf_join hgroups, readWords, if_pos hgroup, readWords, if_neg hnot,
            if_pos ⟨rfl, rfl⟩, hr]
          rfl
        obtain ⟨htake, hdrop⟩ := cut_zone hpercent (Or.inl rfl)
        rw [List.append_nil] at htake hdrop
        unfold AddressText.read at hread
        rw [readDotted_eq_none (by rw [hip]; simp)] at hread
        have hzone : Zone [] := Or.inl rfl
        rw [hdrop, htake, if_pos hzone, hwords] at hread
        cases hread
  · rintro ⟨n, hn, rfl⟩
    exact hform n hn

/-! ## An address in a range -/

theorem fold_mapped (h : n < 2 ^ 32) : fold ⟨.v6, 0xffff * 2 ^ 32 + n⟩ = ⟨.v4, n⟩ := by
  unfold fold
  rw [if_pos ⟨rfl, by dsimp only; omega⟩]
  have hlow : (0xffff * 2 ^ 32 + n) % 2 ^ 32 = n := by omega
  rw [hlow]

/-- **What is left of a form denotes the address as it is read.** -/
theorem denotes_normalize (h : Denotes ip a) : Denotes (normalizeMappedV4 ip) (readAs ip a) := by
  unfold normalizeMappedV4 readAs
  split
  case isTrue hm =>
    obtain ⟨n, hn, rfl⟩ := (denotes_mapped_iff hm).mp h
    rw [fold_mapped hn.lt]
    exact .v4 hn
  case isFalse => exact h

theorem denotes_of_normalize {b : Addr} (h : Denotes (normalizeMappedV4 ip) b) :
    ∃ a, Denotes ip a ∧ b = readAs ip a := by
  unfold normalizeMappedV4 at h
  unfold readAs
  split at h
  case isTrue hm =>
    have hread : ∃ n, Dotted (ip.drop 7) n ∧ b = ⟨.v4, n⟩ := by
      obtain ⟨g, -, -, -, -, hchars⟩ := exists_of_isMappedSpelling hm
      have hcolon : ':' ∉ ip.drop 7 := hchars _ rfl (by decide)
      generalize ip.drop 7 = q at h hcolon ⊢
      cases h with
      | v4 h => exact ⟨_, h, rfl⟩
      | full h hlen _ => exact absurd (List.mem_append_left _ (colon_mem_join h hlen)) hcolon
      | gap => exact absurd (by simp) hcolon
    obtain ⟨n, hn, rfl⟩ := hread
    refine ⟨_, (denotes_mapped_iff hm).mpr ⟨n, hn, rfl⟩, ?_⟩
    rw [if_pos hm, fold_mapped hn.lt]
  case isFalse hm => exact ⟨b, h, by rw [if_neg hm]⟩

/-- A prefix: an address, and how many of its leading bits count. -/
structure Prefix where
  addr : Addr
  bits : Nat
  deriving DecidableEq, Repr

def Prefix.hostBits (p : Prefix) : Nat := p.addr.family.width - p.bits

/-- **The address has the prefix**: it is of the family, and has the leading bits. -/
def Prefix.Has (p : Prefix) (a : Addr) : Prop :=
  a.family = p.addr.family ∧ ∀ i, p.hostBits ≤ i → a.value.testBit i = p.addr.value.testBit i

def Prefix.range (p : Prefix) : CidrRange :=
  ⟨(p.addr.value >>> p.hostBits) <<< p.hostBits, p.bits, p.addr.family⟩

/-- The text of a range: a form of an address, and perhaps the length of the prefix.
    The length counts bits of the family the address is read in: an address in the
    dotted mapped spelling has 32 of them, one in any other IPv6 spelling 128. -/
def CidrText (spec : List Char) (p : Prefix) : Prop :=
  ∃ s a, Denotes s a ∧ p.addr = readAs s a
    ∧ (spec = s ∧ p.bits = p.addr.family.width
      ∨ ∃ raw, spec = s ++ '/' :: raw ∧ isShortDecimal raw = true ∧ p.bits = Numerals.value raw
          ∧ p.bits ≤ p.addr.family.width)

theorem masked_eq_iff {x y : Nat} :
    (x >>> n) <<< n = (y >>> n) <<< n ↔ ∀ i, n ≤ i → x.testBit i = y.testBit i := by
  constructor
  · intro h i hi
    have hbit := congrArg (Nat.testBit · i) h
    simp only [Nat.testBit_shiftLeft, Nat.testBit_shiftRight, decide_eq_true hi, Bool.true_and,
      Nat.add_sub_cancel' hi] at hbit
    exact hbit
  · intro h
    refine Nat.eq_of_testBit_eq fun i => ?_
    simp only [Nat.testBit_shiftLeft, Nat.testBit_shiftRight]
    by_cases hi : n ≤ i
    · rw [Nat.add_sub_cancel' hi, h i hi]
    · rw [decide_eq_false hi, Bool.false_and, Bool.false_and]

/-- **An address is in a range**, as it is read. -/
theorem ipInCidr_iff (p : Prefix) (h : Denotes ip a) :
    ipInCidr ip p.range = true ↔ p.Has (readAs ip a) := by
  have hread := denotes_normalize h
  unfold ipInCidr Prefix.Has
  simp only [hread.isIP, ipToBigInt_of_denotes hread]
  have hversion : p.range.version = p.addr.family := rfl
  rw [hversion]
  by_cases hfam : (readAs ip a).family = p.addr.family
  · have hbits : (readAs ip a).family.width - p.range.bits = p.hostBits := by
      rw [hfam]
      rfl
    rw [if_neg (not_not.mpr hfam), hbits, beq_iff_eq]
    exact masked_eq_iff.trans (and_iff_right hfam).symm
  · rw [if_pos hfam]
    exact iff_of_false (by simp) fun hhas => hfam hhas.1

theorem prefixBits_eq_some_iff {max bits : Nat} {rest : List Char} (h : rest = [] ∨
    rest.head? = some '/') : prefixBits max rest = some bits ↔
      rest = [] ∧ bits = max ∨ ∃ raw, rest = '/' :: raw ∧ isShortDecimal raw = true
        ∧ bits = Numerals.value raw ∧ bits ≤ max := by
  rcases h with rfl | hhead
  · constructor
    · intro h
      exact Or.inl ⟨rfl, (Option.some.inj h).symm⟩
    · rintro (⟨-, rfl⟩ | ⟨raw, hraw, -⟩)
      · rfl
      · cases hraw
  · obtain ⟨raw, rfl⟩ := List.head?_eq_some_iff.mp hhead
    rw [prefixBits]
    constructor
    · intro h
      split at h
      case isTrue => cases h
      case isFalse hshort =>
        split at h
        case isTrue => cases h
        case isFalse hle =>
          obtain rfl := Option.some.inj h
          exact Or.inr ⟨raw, rfl, by simpa using hshort, rfl, by omega⟩
    · rintro (⟨hnil, -⟩ | ⟨raw', hraw, hshort, rfl, hle⟩)
      · cases hnil
      · obtain rfl := (List.cons.inj hraw).2
        rw [hshort, if_neg (by simp), if_neg (by omega)]

/-- **The ranges that are read, and what is read of them.** -/
theorem parseCidr_eq_some_iff {spec : List Char} {cidr : CidrRange} :
    parseCidr spec = some cidr ↔ ∃ p, CidrText spec p ∧ cidr = p.range := by
  constructor
  · intro h
    unfold parseCidr at h
    simp only at h
    split at h
    case h_1 => cases h
    case h_2 version hversion =>
      split at h
      case h_1 => cases h
      case h_2 bits hbits =>
        split at h
        case h_1 => cases h
        case h_2 value hvalue =>
          obtain rfl := Option.some.inj h
          obtain ⟨b, hb⟩ := isSome_isIP_iff.mp (by rw [hversion]; rfl)
          obtain rfl : b.family = version := Option.some.inj (hb.isIP.symm.trans hversion)
          obtain rfl : b.value = value :=
            Option.some.inj ((ipToBigInt_of_denotes hb).symm.trans hvalue)
          obtain ⟨a, ha, rfl⟩ := denotes_of_normalize hb
          have hrest : spec.dropWhile (· != '/') = [] ∨
              (spec.dropWhile (· != '/')).head? = some '/' := by
            cases hd : spec.dropWhile (· != '/') with
            | nil => exact Or.inl rfl
            | cons c rest =>
                have hc := List.head?_dropWhile_not (· != '/') spec
                rw [hd] at hc
                exact Or.inr (by simpa using hc)
          refine ⟨⟨readAs (spec.takeWhile (· != '/')) a, bits⟩, ⟨_, a, ha, rfl, ?_⟩, rfl⟩
          have hcut := List.takeWhile_append_dropWhile (p := (· != '/')) (l := spec)
          rcases (prefixBits_eq_some_iff hrest).mp hbits with ⟨hnil, hmax⟩ | ⟨raw, hraw, hshort⟩
          · rw [hnil, List.append_nil] at hcut
            exact Or.inl ⟨hcut.symm, hmax⟩
          · rw [hraw] at hcut
            exact Or.inr ⟨raw, hcut.symm, hshort⟩
  · rintro ⟨p, ⟨s, a, ha, haddr, hspec⟩, rfl⟩
    obtain ⟨rest, hrest, rfl, hbits⟩ : ∃ rest, (rest = [] ∨ rest.head? = some '/')
        ∧ spec = s ++ rest ∧ prefixBits p.addr.family.width rest = some p.bits := by
      rcases hspec with ⟨rfl, hbits⟩ | ⟨raw, rfl, hshort⟩
      · exact ⟨[], Or.inl rfl, (List.append_nil _).symm,
          (prefixBits_eq_some_iff (Or.inl rfl)).mpr (Or.inl ⟨rfl, hbits⟩)⟩
      · exact ⟨'/' :: raw, Or.inr rfl, rfl,
          (prefixBits_eq_some_iff (Or.inr rfl)).mpr (Or.inr ⟨raw, rfl, hshort⟩)⟩
    have hread := denotes_normalize ha
    rw [← haddr] at hread
    unfold parseCidr
    simp only [(cut_at ha.slash hrest).1, (cut_at ha.slash hrest).2, hread.isIP, hbits,
      ipToBigInt_of_denotes hread]
    rfl

/-! ## The client -/

/-- An entry of the header that is taken for the client, if anything is: it is a hop,
    and in none of the ranges. -/
def Untrusted (trustedProxies : List CidrRange) (entry : List Char) : Prop :=
  hopOf entry ≠ [] ∧ ipInAnyCidr (hopOf entry) trustedProxies = false

theorem hopsOf_eq (header : List Char) :
    hopsOf header = ((header.splitOn ',').map hopOf).filter fun hop => decide (0 < hop.length) :=
  rfl

variable {trustedProxies : List CidrRange}

theorem firstUntrusted_append {fallback hop : List Char} {before after : List (List Char)}
    (h : ipInAnyCidr hop trustedProxies = false) :
    firstUntrusted fallback trustedProxies (before ++ hop :: after)
      = firstUntrusted fallback trustedProxies (before ++ [hop]) := by
  induction before with
  | nil =>
      rw [List.nil_append, List.nil_append, firstUntrusted, firstUntrusted, h]
      rfl
  | cons b before ih =>
      rw [List.cons_append, List.cons_append, firstUntrusted, firstUntrusted, ih]

/-- **What stands left of an untrusted entry is not looked at.** -/
theorem resolvePublicRemote_agree {socketRemote : Option (List Char)}
    {forwarded forwarded' : ForwardedFor} {header header' entry : List Char}
    {left left' right : List (List Char)} (hf : forwarded.header = some header)
    (hf' : forwarded'.header = some header') (hs : header.splitOn ',' = left ++ entry :: right)
    (hs' : header'.splitOn ',' = left' ++ entry :: right)
    (hentry : Untrusted trustedProxies entry) :
    resolvePublicRemote socketRemote forwarded trustedProxies
      = resolvePublicRemote socketRemote forwarded' trustedProxies := by
  have hkeep : decide (0 < (hopOf entry).length) = true :=
    decide_eq_true (List.length_pos_iff.mpr hentry.1)
  -- from the right, the hops are the same up to the untrusted one
  have hhops : ∀ {header : List Char} {left : List (List Char)},
      header.splitOn ',' = left ++ entry :: right → ∀ fallback,
        firstUntrusted fallback trustedProxies (hopsOf header).reverse
          = firstUntrusted fallback trustedProxies
              (((right.map hopOf).filter fun hop => decide (0 < hop.length)).reverse
                ++ [hopOf entry]) := by
    intro header left hs fallback
    rw [hopsOf_eq, hs, List.map_append, List.map_cons, List.filter_append,
      List.filter_cons_of_pos (p := fun hop : List Char => decide (0 < hop.length)) hkeep,
      List.reverse_append, List.reverse_cons, List.append_assoc, List.singleton_append]
    exact firstUntrusted_append hentry.2
  unfold resolvePublicRemote
  cases socketRemote with
  | none => rfl
  | some socket =>
      simp only [hf, hf']
      rw [hhops hs, hhops hs']

theorem resolvePublicRemote_of_untrusted {socket : List Char} {forwarded : ForwardedFor}
    (h : ipInAnyCidr socket trustedProxies = false) :
    resolvePublicRemote (some socket) forwarded trustedProxies = socket := by
  unfold resolvePublicRemote
  simp only
  rw [h]
  split
  · rfl
  · rfl

/-! ## Every spelling of an address -/

/-- The spelling is read as the address it denotes: it is of no mapped address, or it
    is the dotted spelling of one. -/
def Shown (ip : List Char) (a : Addr) : Prop := readAs ip a = fold a

theorem of_not_shown (h : ¬ Shown ip a) :
    readAs ip a = a ∧ a.family = .v6 ∧ (fold a).family = .v4 := by
  unfold Shown readAs fold at *
  by_cases hm : isMappedSpelling ip = true
  · rw [if_pos hm] at h
    exact absurd rfl h
  · rw [if_neg hm] at h ⊢
    by_cases hmap : a.family = .v6 ∧ a.value / 2 ^ 32 = 0xffff
    · rw [if_pos hmap]
      exact ⟨rfl, hmap.1, rfl⟩
    · rw [if_neg hmap] at h
      exact absurd rfl h

theorem fold_injective_of_mapped {ip₁ ip₂ : List Char} {a₁ a₂ : Addr} (h₁ : ¬ Shown ip₁ a₁)
    (h₂ : ¬ Shown ip₂ a₂) (h : fold a₁ = fold a₂) : a₁ = a₂ := by
  have hmapped : ∀ {a : Addr}, (fold a).family = .v4 → a.family = .v6 →
      a = ⟨.v6, 0xffff * 2 ^ 32 + (fold a).value⟩ := by
    intro a hfold hfam
    unfold fold at hfold ⊢
    split
    case isTrue hmap =>
      obtain ⟨f, n⟩ := a
      obtain ⟨rfl, hn⟩ := hmap
      have hn' : n / 2 ^ 32 = 0xffff := hn
      congr 1
      show n = 0xffff * 2 ^ 32 + n % 2 ^ 32
      omega
    case isFalse hmap =>
      rw [if_neg hmap, hfam] at hfold
      cases hfold
  obtain ⟨-, hfam₁, hfold₁⟩ := of_not_shown h₁
  obtain ⟨-, hfam₂, hfold₂⟩ := of_not_shown h₂
  rw [hmapped hfold₁ hfam₁, hmapped hfold₂ hfam₂, h]

theorem Prefix.has_self (a : Addr) (bits : Nat) : (Prefix.mk a bits).Has a :=
  ⟨rfl, fun _ _ => rfl⟩

/-- The answer for a spelling is the one for its address exactly where the spelling is
    read as the address, or neither the address nor its spelling's bits are in the range. -/
theorem ipInCidr_exact_iff (p : Prefix) (h : Denotes ip a) :
    (ipInCidr ip p.range = true ↔ p.Has (fold a)) ↔ Shown ip a ∨ ¬ p.Has (fold a) ∧ ¬ p.Has a := by
  rw [ipInCidr_iff p h]
  by_cases hshown : Shown ip a
  · rw [show readAs ip a = fold a from hshown]
    exact iff_of_true Iff.rfl (Or.inl hshown)
  · obtain ⟨hread, hfam, hfold⟩ := of_not_shown hshown
    rw [hread]
    have hone : ¬ (p.Has a ∧ p.Has (fold a)) := by
      rintro ⟨⟨h₁, -⟩, h₂, -⟩
      rw [hfam, ← h₂, hfold] at h₁
      cases h₁
    constructor
    · intro hiff
      exact Or.inr ⟨fun hf => hone ⟨hiff.mpr hf, hf⟩, fun ha => hone ⟨ha, hiff.mp ha⟩⟩
    · rintro (hs | ⟨hf, ha⟩)
      · exact absurd hs hshown
      · exact iff_of_false ha hf

/-- Two spellings of one address get one answer for every range exactly where both are
    read as the address, or neither is. -/
theorem ipInCidr_agree_iff {ip₁ ip₂ : List Char} {a₁ a₂ : Addr} (h₁ : Denotes ip₁ a₁)
    (h₂ : Denotes ip₂ a₂) (hsame : fold a₁ = fold a₂) :
    (∀ spec cidr, parseCidr spec = some cidr → ipInCidr ip₁ cidr = ipInCidr ip₂ cidr) ↔
      (Shown ip₁ a₁ ↔ Shown ip₂ a₂) := by
  -- a spelling is itself the text of a range, which only spellings read alike are in
  have hself : ∀ {ip ip' : List Char} {a a' : Addr}, Denotes ip a → Denotes ip' a' →
      fold a = fold a' → Shown ip a → ¬ Shown ip' a' →
        ∃ spec cidr, parseCidr spec = some cidr ∧ ipInCidr ip cidr ≠ ipInCidr ip' cidr := by
    intro ip ip' a a' h h' hsame hs hs'
    obtain ⟨hread, hfam, hfold⟩ := of_not_shown hs'
    refine ⟨ip, (Prefix.mk (readAs ip a) (readAs ip a).family.width).range,
      parseCidr_eq_some_iff.mpr ⟨_, ⟨ip, a, h, rfl, Or.inl ⟨rfl, rfl⟩⟩, rfl⟩, fun heq => ?_⟩
    have hin := (ipInCidr_iff _ h).mpr (Prefix.has_self (readAs ip a) (readAs ip a).family.width)
    rw [heq] at hin
    have hfam' : (readAs ip' a').family = (readAs ip a).family := ((ipInCidr_iff _ h').mp hin).1
    rw [hread, hfam, show readAs ip a = fold a from hs, hsame, hfold] at hfam'
    cases hfam'
  constructor
  · intro hall
    constructor
    · intro hs₁
      by_contra hs₂
      obtain ⟨spec, cidr, hparse, hne⟩ := hself h₁ h₂ hsame hs₁ hs₂
      exact hne (hall spec cidr hparse)
    · intro hs₂
      by_contra hs₁
      obtain ⟨spec, cidr, hparse, hne⟩ := hself h₂ h₁ hsame.symm hs₂ hs₁
      exact hne (hall spec cidr hparse).symm
  · intro hiff spec cidr hparse
    obtain ⟨p, -, rfl⟩ := parseCidr_eq_some_iff.mp hparse
    have hread : readAs ip₁ a₁ = readAs ip₂ a₂ := by
      by_cases hs₁ : Shown ip₁ a₁
      · rw [show readAs ip₁ a₁ = fold a₁ from hs₁, hsame, show readAs ip₂ a₂ = fold a₂ from
          hiff.mp hs₁]
      · have hs₂ := fun hs₂ => hs₁ (hiff.mpr hs₂)
        rw [(of_not_shown hs₁).1, (of_not_shown hs₂).1]
        exact fold_injective_of_mapped hs₁ hs₂ hsame
    rw [Bool.eq_iff_iff, ipInCidr_iff p h₁, ipInCidr_iff p h₂, hread]

/-- **Which answers are the address's.**  A text is read as a range exactly where it is the text of
    a prefix.  Whether an address is in it is answered for the address, in every spelling but one
    kind: an IPv4 address mapped into IPv6, and not written `::ffff:a.b.c.d`, is missed in IPv4
    ranges and found in IPv6 ones; two spellings agree on all ranges unless one of them is of that
    kind and the other is not.  The socket's address stands where it is not trusted, and what stands
    left of an untrusted entry of the header changes nothing. -/
theorem proxyTrust_exact_iff (p : Prefix) (ip : List Char) :
    (∀ spec cidr, parseCidr spec = some cidr ↔ ∃ p, CidrText spec p ∧ cidr = p.range)
    ∧ ((isIP ip).isSome = true → ∃ a, Denotes ip a
        ∧ ((ipInCidr ip p.range = true ↔ p.Has (fold a)) ↔
            Shown ip a ∨ ¬ p.Has (fold a) ∧ ¬ p.Has a))
    ∧ (∀ ip₁ a₁ ip₂ a₂, Denotes ip₁ a₁ → Denotes ip₂ a₂ → fold a₁ = fold a₂ →
        ((∀ spec cidr, parseCidr spec = some cidr → ipInCidr ip₁ cidr = ipInCidr ip₂ cidr) ↔
          (Shown ip₁ a₁ ↔ Shown ip₂ a₂)))
    ∧ (∀ socket forwarded trustedProxies, ipInAnyCidr socket trustedProxies = false →
        resolvePublicRemote (some socket) forwarded trustedProxies = socket)
    ∧ ∀ socketRemote trustedProxies forwarded forwarded' header header' entry left left' right,
        ForwardedFor.header forwarded = some header →
        ForwardedFor.header forwarded' = some header' →
        header.splitOn ',' = left ++ entry :: right →
        header'.splitOn ',' = left' ++ entry :: right →
        Untrusted trustedProxies entry →
        resolvePublicRemote socketRemote forwarded trustedProxies
          = resolvePublicRemote socketRemote forwarded' trustedProxies := by
  refine ⟨fun _ _ => parseCidr_eq_some_iff, ?_, ?_, ?_, ?_⟩
  · intro hip
    obtain ⟨a, ha⟩ := isSome_isIP_iff.mp hip
    exact ⟨a, ha, ipInCidr_exact_iff p ha⟩
  · intro ip₁ a₁ ip₂ a₂ h₁ h₂ hsame
    exact ipInCidr_agree_iff h₁ h₂ hsame
  · intro socket forwarded trustedProxies h
    exact resolvePublicRemote_of_untrusted h
  · intro socketRemote trustedProxies forwarded forwarded' header header' entry left left' right
      hf hf' hs hs' hentry
    exact resolvePublicRemote_agree hf hf' hs hs' hentry

/-- At the dotted spelling of the loopback address, and the range of that address. -/
theorem proxyTrust_exact_iff_dotted :
    (isIP "::ffff:127.0.0.1".toList).isSome = true
      ∧ ∃ a, Denotes "::ffff:127.0.0.1".toList a
        ∧ ((ipInCidr "::ffff:127.0.0.1".toList (Prefix.mk ⟨.v4, 0x7f000001⟩ 32).range = true ↔
            (Prefix.mk ⟨.v4, 0x7f000001⟩ 32).Has (fold a)) ↔
          Shown "::ffff:127.0.0.1".toList a
            ∨ ¬ (Prefix.mk ⟨.v4, 0x7f000001⟩ 32).Has (fold a)
              ∧ ¬ (Prefix.mk ⟨.v4, 0x7f000001⟩ 32).Has a) :=
  have hip : (isIP "::ffff:127.0.0.1".toList).isSome = true := by decide +kernel
  ⟨hip, (proxyTrust_exact_iff _ _).2.1 hip⟩

/-- The loopback address in two spellings of one IPv6 address: the range `127.0.0.1/32`
    has it in the dotted spelling, and not in the hexadecimal one. -/
theorem hexadecimal_mapped_missed :
    read "::ffff:127.0.0.1".toList = some ⟨.v6, 0xffff7f000001⟩
      ∧ read "::ffff:7f00:1".toList = some ⟨.v6, 0xffff7f000001⟩
      ∧ ∃ cidr, parseCidr "127.0.0.1/32".toList = some cidr
        ∧ ipInCidr "::ffff:127.0.0.1".toList cidr = true
        ∧ ipInCidr "::ffff:7f00:1".toList cidr = false := by
  refine ⟨by decide +kernel, by decide +kernel, ⟨0x7f000001, 32, .v4⟩, ?_, ?_, ?_⟩
  · decide +kernel
  · decide +kernel
  · decide +kernel

end ProxyTrust
