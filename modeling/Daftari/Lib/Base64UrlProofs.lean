import Mathlib.Data.List.Basic
import Mathlib.Tactic.Common

/-! # base64url — bytes as letters

    Bytes are written with the URL-safe alphabet, six bits a letter and without padding.

    * `base64url`, `ofBase64url`: three bytes are four letters, and what is no letter is skipped;
    * `ofBase64url_base64url`: **what was written is read back**, and there is no dot in it. -/

namespace Base64

def alphabet : List Char :=
  "ABCDEFGHIJKLMNOPQRSTUVWXYZabcdefghijklmnopqrstuvwxyz0123456789-_".toList

/-- The letter of six bits. -/
def letter (n : Nat) : Char := alphabet.getD n '-'

/-- The six bits of a letter; the letters of the other alphabet stand for the same. -/
def sixOf (c : Char) : Option Nat :=
  if c = '+' then some 62 else if c = '/' then some 63 else alphabet.idxOf? c

/-- base64url without padding. -/
def base64url : List Nat → List Char
  | [] => []
  | [a] => [letter (a / 4), letter (a % 4 * 16)]
  | [a, b] => [letter (a / 4), letter (a % 4 * 16 + b / 16), letter (b % 16 * 4)]
  | a :: b :: c :: bytes =>
      letter (a / 4) :: letter (a % 4 * 16 + b / 16) :: letter (b % 16 * 4 + c / 64)
        :: letter (c % 64) :: base64url bytes

/-- The bytes of groups of six bits; what is left over is dropped. -/
def ofSixes : List Nat → List Nat
  | w :: x :: y :: z :: sixes =>
      (w * 4 + x / 16) :: (x % 16 * 16 + y / 4) :: (y % 4 * 64 + z) :: ofSixes sixes
  | [w, x, y] => [w * 4 + x / 16, x % 16 * 16 + y / 4]
  | [w, x] => [w * 4 + x / 16]
  | [_] => []
  | [] => []

/-- The bytes that a text stands for; what is no letter is skipped. -/
def ofBase64url (s : List Char) : List Nat := ofSixes (s.filterMap sixOf)

theorem sixOf_letter {n : Nat} (h : n < 64) : sixOf (letter n) = some n := by
  have hall : ∀ n < 64, sixOf (letter n) = some n := by decide +kernel
  exact hall n h

theorem letter_ne_dot (n : Nat) : letter n ≠ '.' := by
  unfold letter
  rw [List.getD_eq_getElem?_getD]
  cases hat : alphabet[n]? with
  | none =>
      intro h
      exact absurd h (by decide)
  | some c =>
      have hmem := List.mem_of_getElem? hat
      have hall : alphabet.all (fun c => c ≠ '.') = true := by decide +kernel
      simpa using List.all_eq_true.mp hall _ hmem

/-- **base64url is read back.** -/
theorem ofBase64url_base64url {bytes : List Nat} (h : ∀ b ∈ bytes, b < 256) :
    ofBase64url (base64url bytes) = bytes := by
  unfold ofBase64url
  induction bytes using base64url.induct with
  | case1 => rfl
  | case2 a =>
      have ha := h a (by simp)
      unfold base64url
      simp only [List.filterMap_cons, List.filterMap_nil, sixOf_letter (show a / 4 < 64 by omega),
        sixOf_letter (show a % 4 * 16 < 64 by omega), ofSixes]
      congr 1
      omega
  | case3 a b =>
      have ha := h a (by simp)
      have hb := h b (by simp)
      unfold base64url
      simp only [List.filterMap_cons, List.filterMap_nil, sixOf_letter (show a / 4 < 64 by omega),
        sixOf_letter (show a % 4 * 16 + b / 16 < 64 by omega),
        sixOf_letter (show b % 16 * 4 < 64 by omega), ofSixes]
      congr 1
      · omega
      · congr 1
        omega
  | case4 a b c bytes ih =>
      have ha := h a (by simp)
      have hb := h b (by simp)
      have hc := h c (by simp)
      have hrest := ih fun x hx => h x (by simp [hx])
      unfold base64url
      simp only [List.filterMap_cons, sixOf_letter (show a / 4 < 64 by omega),
        sixOf_letter (show a % 4 * 16 + b / 16 < 64 by omega),
        sixOf_letter (show b % 16 * 4 + c / 64 < 64 by omega),
        sixOf_letter (show c % 64 < 64 by omega), ofSixes]
      congr 1
      · omega
      · congr 1
        · omega
        · congr 1
          omega

theorem dot_not_mem_base64url (bytes : List Nat) : '.' ∉ base64url bytes := by
  induction bytes using base64url.induct with
  | case1 => exact List.not_mem_nil
  | case2 a =>
      unfold base64url
      simp [(letter_ne_dot _).symm]
  | case3 a b =>
      unfold base64url
      simp [(letter_ne_dot _).symm]
  | case4 a b c bytes ih =>
      unfold base64url
      simp [(letter_ne_dot _).symm, ih]

theorem base64url_ne_nil {bytes : List Nat} (h : bytes ≠ []) : base64url bytes ≠ [] := by
  cases bytes with
  | nil => exact absurd rfl h
  | cons a bytes =>
      cases bytes with
      | nil => exact List.cons_ne_nil _ _
      | cons b bytes =>
          cases bytes with
          | nil => exact List.cons_ne_nil _ _
          | cons c bytes => exact List.cons_ne_nil _ _

example : base64url [110, 195, 169] = "bsOp".toList := by decide +kernel

end Base64
