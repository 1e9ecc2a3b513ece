import Mathlib.Data.List.Basic
import Mathlib.Data.List.DropRight
import Mathlib.Data.List.TakeWhile
import Mathlib.Tactic.Common

/-! # Text as a script sees it — white space, trimming, lines, string order

    Texts are lists of characters.  What is here follows the string operations of a JavaScript host
    where they differ from Lean's: the white space that `\s` and `trim` know, the four line
    terminators, and the order of strings, which compares UTF-16 code units and not characters.

    * `lt`, the order of strings, and `eq_of_not_lt`: it is total;
    * `trim`, `trimEnd` and what trimming twice, or trimming a part, does;
    * `blocks`: a text cut before every line that starts with a mark, and `blocks_append`, which
      reads blocks written one after another back. -/

namespace Text

/-- The characters `\s` matches and `trim` removes: white space and line terminators. -/
def isSpace (c : Char) : Bool :=
  c.val == 0x20 || (0x09 ≤ c.val && c.val ≤ 0x0D) || c.val == 0xA0
    || c.val == 0x1680 || (0x2000 ≤ c.val && c.val ≤ 0x200A)
    || c.val == 0x2028 || c.val == 0x2029 || c.val == 0x202F
    || c.val == 0x205F || c.val == 0x3000 || c.val == 0xFEFF

/-- The line terminators: what `.` does not match, and what `^` and `$` see
    under the multiline flag. -/
def isTerminator (c : Char) : Bool :=
  c.val == 0x0A || c.val == 0x0D || c.val == 0x2028 || c.val == 0x2029

variable {s : List Char}

theorem forall_mem_of_all {P : Char → Prop} [DecidablePred P]
    (h : (s.all fun c => decide (P c)) = true) : ∀ c ∈ s, P c := by
  intro c hc
  exact of_decide_eq_true (List.all_eq_true.mp h c hc)

/-- Membership in a list of texts, decided by comparing them with each. -/
@[reducible] def decidableMem (s : List Char) (l : List (List Char)) : Decidable (s ∈ l) :=
  decidable_of_iff (l.contains s = true) List.contains_iff_mem

theorem lawful {α : Type} [DecidableEq α] : LawfulBEq (List α) := inferInstance

def unitsOf (c : Char) : List Nat :=
  let n := c.toNat
  if n < 0x10000 then [n]
  else [0xD800 + (n - 0x10000) / 0x400, 0xDC00 + (n - 0x10000) % 0x400]

/-- The UTF-16 code units of a text. -/
def units (s : List Char) : List Nat := s.flatMap unitsOf

/-- `a < b` on strings. -/
def lt (a b : String) : Bool := decide (units a.toList < units b.toList)

theorem unitsOf_ne_nil (c : Char) : unitsOf c ≠ [] := by
  unfold unitsOf
  dsimp only
  split <;> simp

/-- The units of a character tell where it ends: no character's units go on with another's. -/
theorem unitsOf_append_inj {c d : Char} {u v : List Nat}
    (h : unitsOf c ++ u = unitsOf d ++ v) : c = d ∧ u = v := by
  have hc := c.valid
  have hd := d.valid
  have hcn : c.toNat.isValidChar := hc
  have hdn : d.toNat.isValidChar := hd
  have hval : c.toNat = d.toNat → c = d := fun he => Char.toNat_inj.mp he
  unfold unitsOf at h
  dsimp only at h
  split at h <;> split at h
  · rw [List.cons_append, List.cons_append, List.cons.injEq] at h
    exact ⟨hval h.1, h.2⟩
  · simp only [List.cons_append, List.nil_append, List.cons.injEq] at h
    omega
  · simp only [List.cons_append, List.nil_append, List.cons.injEq] at h
    omega
  · simp only [List.cons_append, List.nil_append, List.cons.injEq] at h
    obtain ⟨h₁, h₂, h₃⟩ := h
    exact ⟨hval (by omega), h₃⟩

theorem units_injective : Function.Injective units := by
  intro s
  induction s with
  | nil =>
      intro t h
      cases t with
      | nil => rfl
      | cons d t =>
          have : unitsOf d ++ units t = [] := h.symm
          exact absurd (List.append_eq_nil_iff.mp this).1 (unitsOf_ne_nil d)
  | cons c s ih =>
      intro t h
      cases t with
      | nil =>
          have : unitsOf c ++ units s = [] := h
          exact absurd (List.append_eq_nil_iff.mp this).1 (unitsOf_ne_nil c)
      | cons d t =>
          have hcd : unitsOf c ++ units s = unitsOf d ++ units t := h
          obtain ⟨rfl, hst⟩ := unitsOf_append_inj hcd
          rw [ih hst]

theorem eq_of_not_lt {a b : String} (hab : lt a b = false) (hba : lt b a = false) : a = b := by
  have h₁ := of_decide_eq_false hab
  have h₂ := of_decide_eq_false hba
  have he : units a.toList = units b.toList :=
    List.le_antisymm (List.not_lt.mp h₂) (List.not_lt.mp h₁)
  exact String.toList_inj.mp (units_injective he)

theorem not_lt_trans {a b c : String} (hab : lt a b = false) (hbc : lt b c = false) :
    lt a c = false := by
  have h₁ := List.not_lt.mp (of_decide_eq_false hab)
  have h₂ := List.not_lt.mp (of_decide_eq_false hbc)
  exact decide_eq_false (List.not_lt.mpr (List.le_trans h₂ h₁))

theorem not_lt_of_lt {a b : String} (h : lt a b = true) : lt b a = false := by
  exact decide_eq_false (List.lt_asymm (of_decide_eq_true h))

/-- **Sorting two texts forgets which came first.** -/
theorem sorted_comm {α : Type*} (f : String → String → α) (a b : String) :
    (if lt b a then f b a else f a b) = if lt a b then f a b else f b a := by
  cases hba : lt b a with
  | true => rw [if_pos rfl, not_lt_of_lt hba, if_neg Bool.false_ne_true]
  | false =>
      rw [if_neg Bool.false_ne_true]
      cases hab : lt a b with
      | true => rw [if_pos rfl]
      | false => rw [if_neg Bool.false_ne_true, eq_of_not_lt hab hba]

/-! ## Trimming -/

def trimStart (s : List Char) : List Char := s.dropWhile isSpace

def trimEnd (s : List Char) : List Char := s.rdropWhile isSpace

def trim (s : List Char) : List Char := trimEnd (trimStart s)

theorem trimEnd_append_space {w : List Char} (hw : ∀ c ∈ w, isSpace c = true) :
    trimEnd (s ++ w) = trimEnd s := by
  induction w using List.reverseRecOn with
  | nil => rw [List.append_nil]
  | append_singleton w c ih =>
      have hc : isSpace c = true := hw c (by simp)
      unfold trimEnd at ih ⊢
      rw [← List.append_assoc, List.rdropWhile_concat_pos _ _ _ hc]
      exact ih fun d hd => hw d (by simp [hd])

theorem trimEnd_append {t : List Char} (ht : trimEnd t ≠ []) :
    trimEnd (s ++ t) = s ++ trimEnd t := by
  induction t using List.reverseRecOn with
  | nil => exact absurd rfl ht
  | append_singleton t c ih =>
      unfold trimEnd at ih ht ⊢
      rw [← List.append_assoc]
      by_cases hc : isSpace c = true
      · rw [List.rdropWhile_concat_pos _ _ _ hc] at ht ⊢
        rw [List.rdropWhile_concat_pos _ _ _ hc]
        exact ih ht
      · rw [List.rdropWhile_concat_neg _ _ _ hc,
          List.rdropWhile_concat_neg _ _ _ hc, List.append_assoc]

theorem trimEnd_cons {c : Char} (hc : isSpace c = false) : trimEnd (c :: s) ≠ [] := by
  intro h
  have hall := List.rdropWhile_eq_nil_iff.mp h c (by simp)
  rw [hc] at hall
  cases hall

theorem trimStart_cons {c : Char} (hc : isSpace c = false) : trimStart (c :: s) = c :: s := by
  unfold trimStart
  rw [List.dropWhile_cons_of_neg (by simp [hc])]

@[simp] theorem trim_trimStart (s : List Char) : trim (trimStart s) = trim s := by
  unfold trim trimStart
  rw [List.dropWhile_idempotent]

theorem dropWhile_trimEnd {p : Char → Bool} (hp : ∀ c, p c = true → isSpace c = true)
    (s : List Char) : (trimEnd s).dropWhile p = trimEnd (s.dropWhile p) := by
  induction s with
  | nil => rfl
  | cons c s ih =>
      by_cases hc : p c = true
      · rw [List.dropWhile_cons_of_pos hc, ← ih]
        by_cases hn : trimEnd s = []
        · have hall := List.rdropWhile_eq_nil_iff.mp hn
          have hnil : trimEnd (c :: s) = [] :=
            List.rdropWhile_eq_nil_iff.mpr (by
              intro d hd
              rcases List.mem_cons.mp hd with rfl | hd
              · exact hp _ hc
              · exact hall d hd)
          rw [hnil, hn]
        · have happ : trimEnd ([c] ++ s) = [c] ++ trimEnd s := trimEnd_append hn
          rw [List.singleton_append, List.singleton_append] at happ
          rw [happ]
          exact List.dropWhile_cons_of_pos hc
      · rw [List.dropWhile_cons_of_neg hc]
        obtain ⟨t, ht⟩ := List.rdropWhile_prefix (p := isSpace) (l := c :: s)
        cases he : trimEnd (c :: s) with
        | nil => rfl
        | cons d u =>
            unfold trimEnd at he
            rw [he, List.cons_append] at ht
            obtain ⟨rfl, _⟩ := List.cons.inj ht
            exact List.dropWhile_cons_of_neg hc

theorem trimStart_trimEnd (s : List Char) : trimStart (trimEnd s) = trimEnd (trimStart s) :=
  dropWhile_trimEnd (fun _ h => h) s

@[simp] theorem trim_trimEnd (s : List Char) : trim (trimEnd s) = trim s := by
  unfold trim
  rw [trimStart_trimEnd]
  exact List.rdropWhile_idempotent isSpace _

theorem trim_append_space {w : List Char} (hw : ∀ c ∈ w, isSpace c = true) :
    trim (s ++ w) = trim s := by
  rw [← trim_trimEnd, trimEnd_append_space hw, trim_trimEnd]

@[simp] theorem trim_trim (s : List Char) : trim (trim s) = trim s := by
  show trim (trimEnd (trimStart s)) = trim s
  rw [trim_trimEnd, trim_trimStart]

/-- What is left of a text after trimming is nothing exactly when there was nothing visible. -/
theorem trim_ne_nil : trim s ≠ [] ↔ ∃ c ∈ s, isSpace c = false := by
  constructor
  · intro h
    by_contra hno
    apply h
    have hall : ∀ c ∈ s, isSpace c = true := by
      intro c hc
      cases hs : isSpace c with
      | true => rfl
      | false => exact absurd ⟨c, hc, hs⟩ hno
    have hnil : trimStart s = [] := List.dropWhile_eq_nil_iff.mpr hall
    unfold trim
    rw [hnil]
    rfl
  · rintro ⟨c, hc, hs⟩ h
    have hend : trimStart (trimEnd s) = [] := by
      rw [trimStart_trimEnd]
      exact h
    have hstart := List.rdropWhile_eq_nil_iff.mp h
    have hcs : c ∈ trimStart s := by
      by_contra hn
      have hmem : c ∈ s.takeWhile isSpace := by
        have happ := List.takeWhile_append_dropWhile (p := isSpace) (l := s)
        rw [← happ] at hc
        exact (List.mem_append.mp hc).resolve_right hn
      rw [List.mem_takeWhile_imp hmem] at hs
      cases hs
    rw [hstart c hcs] at hs
    cases hs

/-! ## Blocks -/

/-- Cut a text before every line, but the first, that starts with `mark`. -/
def blocks (mark : List Char) : List Char → List (List Char)
  | [] => [[]]
  | c :: s =>
      match blocks mark s with
      | [] => [[c]]
      | b :: bs =>
          if isTerminator c && mark.isPrefixOf s then [c] :: b :: bs
          else (c :: b) :: bs

/-- A text with no inner line that starts with `mark`. -/
def Unbroken (mark : List Char) : List Char → Prop
  | [] => True
  | c :: s => (isTerminator c = true → ¬ mark <+: s) ∧ Unbroken mark s

variable {mark : List Char}

theorem blocks_ne_nil (s : List Char) : blocks mark s ≠ [] := by
  cases s with
  | nil => exact List.cons_ne_nil _ _
  | cons c s =>
      unfold blocks
      split
      · exact List.cons_ne_nil _ _
      · split
        · exact List.cons_ne_nil _ _
        · exact List.cons_ne_nil _ _

/-- A line without terminators, and then an unbroken text that does not start
    with the mark, are unbroken. -/
theorem unbroken_line {l m : List Char} (hl : ∀ c ∈ l, isTerminator c = false)
    (hm : ¬ mark <+: m) (hu : Unbroken mark m) : Unbroken mark (l ++ '\n' :: m) := by
  induction l with
  | nil => exact ⟨fun _ => hm, hu⟩
  | cons c l ih =>
      refine ⟨?_, ih fun d hd => hl d (List.mem_cons_of_mem _ hd)⟩
      intro hc
      rw [hl c List.mem_cons_self] at hc
      cases hc

theorem blocks_unbroken (h : Unbroken mark s) : blocks mark s = [s] := by
  induction s with
  | nil => rfl
  | cons c s ih =>
      unfold blocks
      rw [ih h.2]
      simp only
      rw [if_neg]
      intro hc
      rw [Bool.and_eq_true] at hc
      exact h.1 hc.1 (List.isPrefixOf_iff_prefix.mp hc.2)

/-- A prefix that avoids the last character of `b` and reaches into `b ++ r` is a prefix of `b`. -/
theorem prefix_of_append {b r : List Char} {t : Char} (hlast : t ∈ b)
    (ht : t ∉ mark) (h : mark <+: b ++ r) : mark <+: b := by
  rcases Nat.le_total mark.length b.length with hle | hle
  · exact List.prefix_of_prefix_length_le h (List.prefix_append b r) hle
  · have hb := List.prefix_of_prefix_length_le (List.prefix_append b r) h hle
    exact absurd (hb.subset hlast) ht

/-- **A block and what follows it.**  An unbroken text that ends its line,
    followed by a line with the mark, is cut off as one block. -/
theorem blocks_append {b r : List Char} {t : Char} (hu : Unbroken mark b)
    (hlast : b.getLast? = some t) (hterm : isTerminator t = true)
    (ht : t ∉ mark) (hr : mark <+: r) : blocks mark (b ++ r) = b :: blocks mark r := by
  induction b with
  | nil => cases hlast
  | cons c b ih =>
      have hpre : mark.isPrefixOf r = true := List.isPrefixOf_iff_prefix.mpr hr
      cases b with
      | nil =>
          obtain rfl : c = t := by simpa using hlast
          show blocks mark (c :: r) = [c] :: blocks mark r
          cases hb : blocks mark r with
          | nil => exact absurd hb (blocks_ne_nil r)
          | cons x xs => simp [blocks, hb, hterm, hpre]
      | cons d b =>
          have hlast' : (d :: b).getLast? = some t := by
            exact hlast
          have hmem : t ∈ d :: b := List.mem_of_getLast? hlast'
          show blocks mark (c :: (d :: b ++ r)) = _
          rw [blocks, ih hu.2 hlast']
          simp only
          rw [if_neg]
          intro hc
          rw [Bool.and_eq_true] at hc
          have hreach := List.isPrefixOf_iff_prefix.mp hc.2
          exact hu.1 hc.1 (prefix_of_append hmem ht hreach)

end Text
