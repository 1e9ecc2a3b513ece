import Daftari.Lib.Base64UrlProofs
import Daftari.Lib.JsonTextProofs
import Daftari.Lib.MachineProofs
import Daftari.Lib.NumeralsProofs
import Daftari.Lib.UrlProofs
import Mathlib.Algebra.Order.Field.Rat

/-! # Sessions — the audience of a vault, and the tokens that are minted for it

    `serve/session.ts`: a server takes the audience of its vault from a file that the first one
    creates, and mints and accepts tokens for that audience.  The file is created empty and
    written afterwards, so for a moment, or for ever if the creator dies, there is a file
    without an audience.

    * `signSession`, `verifySession`: the token, and `verify_signed`: **a minted token is
      accepted for its audience and for no other**;
    * `audience_agree_iff`: **all servers agree exactly in the runs in which nobody reads the
      file between its creation and its content.** -/

namespace Audience

open JsonText

/-! ## Tokens -/

structure Digest where
  bytes : List Nat
  length : bytes.length = 32
  small : ∀ b ∈ bytes, b < 256

/-- `SessionPayload`, its texts in UTF-16 units and its expiry a number. -/
structure SessionPayload (S N : Type) where
  user : S
  role : S
  exp : N
  aud : S
deriving DecidableEq

structure Host (Key : Type) where
  hmac : Key → List Char → Digest
  /-- The number that a numeral denotes, if it is finite. -/
  number : List Char → Option ℚ

/-- The errors of `verifySession`. -/
inductive SessionError where
  | malformed
  | mismatch
  | notJson
  | notObject
  | shape
  | expired
  | audience
deriving DecidableEq, Repr

def SessionError.message : SessionError → String
  | .malformed => "malformed session token"
  | .mismatch => "session signature mismatch"
  | .notJson => "session payload is not valid JSON"
  | .notObject => "session payload is not an object"
  | .shape => "session payload shape is invalid"
  | .expired => "session expired"
  | .audience => "session audience mismatch"

def SessionPayload.members (p : SessionPayload (List Char) Nat) : List (String × Scalar) :=
  [("user", .str p.user), ("role", .str p.role), ("exp", .nat p.exp), ("aud", .str p.aud)]

def payloadB64 (p : SessionPayload (List Char) Nat) : List Char :=
  Base64.base64url (Web.utf8Bytes (stringifyCompact p.members))

section Tokens

variable {Key : Type} (host : Host Key)

def signSession (payload : SessionPayload (List Char) Nat) (key : Key) : List Char :=
  payloadB64 payload ++ '.' :: Base64.base64url (host.hmac key (payloadB64 payload)).bytes

/-- What `verifySession` does with a payload that was parsed. -/
def verifyPayload (raw : Json) (nowSec : ℚ) (audience : List Char) :
    Except SessionError (SessionPayload (List Char) ℚ) :=
  if isObject raw = false then .error .notObject
  else
    match strOf (field raw "user"), strOf (field raw "role"), field raw "exp" with
    | some user, some role, some (.num numeral) =>
        match host.number numeral with
        | none => .error .shape
        | some exp =>
            if exp ≤ nowSec then .error .expired
            else if strOf (field raw "aud") = some (Text.units audience) then
              .ok ⟨ofUnits user, ofUnits role, exp, audience⟩
            else .error .audience
    | _, _, _ => .error .shape

def verifySession (token : List Char) (key : Key) (nowSec : ℚ) (audience : List Char) :
    Except SessionError (SessionPayload (List Char) ℚ) :=
  let payload := token.takeWhile (· ≠ '.')
  let mac := (token.dropWhile (· ≠ '.')).tail
  if payload = [] ∨ mac = [] then .error .malformed
  else
    let expected := (host.hmac key payload).bytes
    let presented := Base64.ofBase64url mac
    let sameLength := decide (presented.length = expected.length)
    let macEqual := decide ((if sameLength then presented else expected) = expected)
    if !sameLength || !macEqual then .error .mismatch
    else
      match parse (Web.decodeUtf8 none (Base64.ofBase64url payload)) with
      | none => .error .notJson
      | some raw => verifyPayload host raw nowSec audience

variable {host}

theorem payloadB64_ne_nil (p : SessionPayload (List Char) Nat) : payloadB64 p ≠ [] :=
  Base64.base64url_ne_nil (Web.utf8Bytes_ne_nil (by unfold stringifyCompact; simp))

theorem Digest.ne_nil (d : Digest) : d.bytes ≠ [] := by
  intro hnil
  have hlen := d.length
  rw [hnil] at hlen
  cases hlen

theorem parse_payloadB64 (p : SessionPayload (List Char) Nat) :
    parse (Web.decodeUtf8 none (Base64.ofBase64url (payloadB64 p)))
      = some (.obj (p.members.map entry)) := by
  unfold payloadB64
  rw [Base64.ofBase64url_base64url (Web.utf8Bytes_lt _), Web.decodeUtf8_utf8Bytes]
  exact parse_stringifyCompact (List.cons_ne_nil _ _)

theorem verifyPayload_members {p : SessionPayload (List Char) Nat} {nowSec : ℚ}
    (hnumber : host.number (Nat.toDigits 10 p.exp) = some (p.exp : ℚ)) (hnow : nowSec < p.exp)
    (audience : List Char) : verifyPayload host (.obj (p.members.map entry)) nowSec audience
      = if audience = p.aud then .ok ⟨p.user, p.role, p.exp, p.aud⟩ else .error .audience := by
  have hfield : ∀ name, field (.obj (p.members.map entry)) name
      = (p.members.reverse.lookup name).map Scalar.json := fun name => member_entries _ name
  have huser : strOf (field (.obj (p.members.map entry)) "user") = some (Text.units p.user) := by
    rw [hfield]
    rfl
  have hrole : strOf (field (.obj (p.members.map entry)) "role") = some (Text.units p.role) := by
    rw [hfield]
    rfl
  have hexp : field (.obj (p.members.map entry)) "exp" = some (.num (Nat.toDigits 10 p.exp)) := by
    rw [hfield]
    rfl
  have haud : strOf (field (.obj (p.members.map entry)) "aud") = some (Text.units p.aud) := by
    rw [hfield]
    rfl
  unfold verifyPayload
  rw [if_neg (by simp [isObject]), huser, hrole, hexp, haud]
  simp only [hnumber]
  rw [if_neg (not_le.mpr hnow), ofUnits_units, ofUnits_units]
  by_cases hsame : audience = p.aud
  · rw [if_pos hsame, if_pos (by rw [hsame]), hsame]
  · rw [if_neg hsame, if_neg]
    intro hunits
    exact hsame (Text.units_injective (Option.some.inj hunits)).symm

/-- **A minted token is accepted for its audience and for no other**, until it expires. -/
theorem verify_signed {p : SessionPayload (List Char) Nat} (key : Key) {nowSec : ℚ}
    (hnumber : host.number (Nat.toDigits 10 p.exp) = some (p.exp : ℚ)) (hnow : nowSec < p.exp)
    (audience : List Char) : verifySession host (signSession host p key) key nowSec audience
      = if audience = p.aud then .ok ⟨p.user, p.role, p.exp, p.aud⟩ else .error .audience := by
  have hdot : '.' ∉ payloadB64 p := Base64.dot_not_mem_base64url _
  obtain ⟨htake, hdrop⟩ := @Web.takeWhile_append_stop (· ≠ '.') (payloadB64 p)
    ('.' :: Base64.base64url (host.hmac key (payloadB64 p)).bytes)
    (fun c hc => decide_eq_true fun heq => hdot (heq ▸ hc))
    (fun c hc => by
      obtain rfl := Option.some.inj hc
      exact decide_eq_false fun hne => hne rfl)
  have hmac := Base64.ofBase64url_base64url (host.hmac key (payloadB64 p)).small
  unfold verifySession signSession
  simp only [htake, hdrop, List.tail_cons, hmac]
  rw [if_neg (not_or.mpr ⟨payloadB64_ne_nil p, Base64.base64url_ne_nil (Digest.ne_nil _)⟩),
    if_neg (by simp), parse_payloadB64]
  exact verifyPayload_members hnumber hnow audience

end Tokens

/-! ## The audience -/

/-- The random id that a process draws: sixteen bytes in hexadecimal. -/
structure Token where
  text : List Char
  length : text.length = 32
  hex : text.all (fun c => c ∈ "0123456789abcdef".toList) = true

/-- How far a run of `sessionAudience` is. -/
inductive Pc where
  | start
  /-- There was none: it creates it, if there still is none. -/
  | missing
  /-- It created the file and writes its content. -/
  | created (token : Token)
  | again
  | done (value : List Char)
  /-- It died, or its second read failed. -/
  | dead

inductive Act (P : Type) where
  | read (p : P)
  | create (p : P) (token : Token)
  | write (p : P)
  | readAgain (p : P)
  | die (p : P)

/-- The processes of one vault, the file, and what was returned so far. -/
structure State (P : Type) where
  file : Option (List Char)
  pc : P → Pc
  returned : List (List Char)

section Machine

variable {P : Type} [DecidableEq P]

def State.to (s : State P) (p : P) (pc : Pc) : State P :=
  { s with pc := Function.update s.pc p pc }

def State.returns (s : State P) (p : P) (content : List Char) : State P :=
  { s.to p (.done (Text.trim content)) with returned := s.returned ++ [Text.trim content] }

def enabled (s : State P) : Act P → Prop
  | .read p => s.pc p = .start
  | .create p _ => s.pc p = .missing
  | .write p => ∃ token, s.pc p = .created token
  | .readAgain p => s.pc p = .again
  | .die p => (∀ value, s.pc p ≠ .done value) ∧ s.pc p ≠ .dead

def next (s : State P) : Act P → State P
  | .read p =>
      match s.file with
      | some content => s.returns p content
      | none => s.to p .missing
  | .create p token =>
      match s.file with
      | some _ => s.to p .again
      | none => { s.to p (.created token) with file := some [] }
  | .write p =>
      match s.pc p with
      | .created token => { s.to p .again with file := some token.text }
      | _ => s
  | .readAgain p =>
      match s.file with
      | some content => s.returns p content
      | none => s.to p .dead
  | .die p => s.to p .dead

/-- Any number of processes that run `sessionAudience` on one vault. -/
def machine (P : Type) [DecidableEq P] : Machine (State P) (Act P) where
  enabled := enabled
  next := next

/-- A vault without an audience. -/
def fresh (P : Type) : State P := ⟨none, fun _ => .start, []⟩

def Act.Reads : Act P → Prop
  | .read _ | .readAgain _ => True
  | .create _ _ | .write _ | .die _ => False

/-- The file was created and has no content yet. -/
def State.Blank (s : State P) : Prop := s.file = some []

/-! ## What a run returns -/

/-- What the servers of a vault are to make of the audiences that they were given. -/
structure Agreed {Key : Type} (host : Host Key) (s : State P) : Prop where
  /-- No audience is empty. -/
  filled : ∀ v ∈ s.returned, v ≠ []
  /-- All are the same. -/
  same : ∀ v ∈ s.returned, ∀ w ∈ s.returned, v = w
  /-- A token that one server minted is accepted by every other. -/
  accepted : ∀ v ∈ s.returned, ∀ w ∈ s.returned, ∀ (key : Key)
    (p : SessionPayload (List Char) Nat) (nowSec : ℚ), p.aud = v →
    host.number (Nat.toDigits 10 p.exp) = some (p.exp : ℚ) → nowSec < p.exp →
    verifySession host (signSession host p key) key nowSec w
      = .ok ⟨p.user, p.role, p.exp, p.aud⟩
  /-- A server with another audience rejects it. -/
  rejected : ∀ v ∈ s.returned, ∀ (key : Key) (p : SessionPayload (List Char) Nat) (nowSec : ℚ),
    p.aud = v → host.number (Nat.toDigits 10 p.exp) = some (p.exp : ℚ) → nowSec < p.exp →
    ∀ other, other ≠ v →
      verifySession host (signSession host p key) key nowSec other = .error .audience

theorem not_isSpace_hex {c : Char} (h : c ∈ "0123456789abcdef".toList) :
    Text.isSpace c = false := by
  have hall : "0123456789abcdef".toList.all (fun c => !Text.isSpace c) = true := by decide +kernel
  simpa using List.all_eq_true.mp hall c h

theorem Token.trim (token : Token) : Text.trim token.text = token.text := by
  have hplain : ∀ c ∈ token.text, Text.isSpace c = false := fun c hc =>
    not_isSpace_hex (of_decide_eq_true (List.all_eq_true.mp token.hex c hc))
  have hend : Text.trimEnd token.text = token.text := by
    refine List.rdropWhile_eq_self_iff.mpr fun hne => ?_
    rw [hplain _ (List.getLast_mem hne)]
    exact Bool.false_ne_true
  have hstart : Text.trimStart token.text = token.text := by
    refine List.dropWhile_eq_self_iff.mpr fun hpos => ?_
    rw [hplain _ (List.getElem_mem _)]
    exact Bool.false_ne_true
  have hboth : Text.trim token.text = Text.trimEnd (Text.trimStart token.text) := rfl
  rw [hboth, hstart, hend]

theorem Token.ne_nil (token : Token) : token.text ≠ [] := by
  intro hnil
  have hlen := token.length
  rw [hnil] at hlen
  cases hlen

/-- The phases of the file, in a run in which nobody reads it while it is blank. -/
inductive Phase (s : State P) : Prop
  | absent (hfile : s.file = none) (hpc : ∀ p token, s.pc p ≠ .created token)
      (hret : s.returned = [])
  | blank (hfile : s.file = some [])
      (hone : ∀ p q t u, s.pc p = .created t → s.pc q = .created u → p = q)
      (hret : s.returned = [])
  | written (token : Token) (hfile : s.file = some token.text)
      (hpc : ∀ p t, s.pc p ≠ .created t) (hret : ∀ v ∈ s.returned, v = token.text)

section Steps

variable {s : State P} {p : P} {pc : Pc}

theorem pc_to (q : P) : (s.to p pc).pc q = if q = p then pc else s.pc q :=
  Function.update_apply ..

theorem created_of_to (hpc : ∀ token, pc ≠ .created token) {q : P} {token : Token}
    (h : (s.to p pc).pc q = .created token) : s.pc q = .created token ∧ q ≠ p := by
  rw [pc_to] at h
  by_cases hq : q = p
  · rw [if_pos hq] at h
    exact absurd h (hpc token)
  · rw [if_neg hq] at h
    exact ⟨h, hq⟩

theorem Phase.to (h : Phase s) (hpc : ∀ token, pc ≠ .created token) : Phase (s.to p pc) := by
  cases h with
  | absent hfile hnone hret =>
      exact .absent hfile (fun q t hq => hnone q t (created_of_to hpc hq).1) hret
  | blank hfile hone hret =>
      exact .blank hfile (fun q r t u hq hr => hone q r t u (created_of_to hpc hq).1
        (created_of_to hpc hr).1) hret
  | written token hfile hnone hret =>
      exact .written token hfile (fun q t hq => hnone q t (created_of_to hpc hq).1) hret

theorem Phase.returns (h : Phase s) (hblank : ¬ s.Blank) {content : List Char}
    (hfile : s.file = some content) : Phase (s.returns p content) := by
  cases h with
  | absent hnone _ _ =>
      rw [hfile] at hnone
      cases hnone
  | blank hempty _ _ => exact absurd hempty hblank
  | written token htext hnone hret =>
      rw [hfile] at htext
      obtain rfl := Option.some.inj htext
      refine .written token hfile (fun q t hq => ?_) ?_
      · exact hnone q t (created_of_to (by simp) hq).1
      · intro v hv
        rcases List.mem_append.mp hv with hv | hv
        · exact hret v hv
        · rw [List.mem_singleton.mp hv, token.trim]

/-- **Every step keeps the phases**, as long as no blank file is read. -/
theorem Phase.next (h : Phase s) {a : Act P} (ha : enabled s a) (hread : a.Reads → ¬ s.Blank) :
    Phase (next s a) := by
  cases a with
  | read q =>
      unfold Audience.next
      cases hfile : s.file with
      | none => exact h.to (by simp)
      | some content => exact h.returns (hread trivial) hfile
  | create q token =>
      unfold Audience.next
      cases hfile : s.file with
      | some content => exact h.to (by simp)
      | none =>
          -- the file is there now, and this process alone has created it
          cases h with
          | absent _ hnone hret =>
              refine .blank rfl (fun x y t u hx hy => ?_) hret
              have honly : ∀ z v, (s.to q (.created token)).pc z = .created v → z = q := by
                intro z v hz
                rw [pc_to] at hz
                by_contra hne
                rw [if_neg hne] at hz
                exact hnone z v hz
              rw [honly x t hx, honly y u hy]
          | blank hempty _ _ =>
              rw [hfile] at hempty
              cases hempty
          | written _ htext _ _ =>
              rw [hfile] at htext
              cases htext
  | write q =>
      obtain ⟨token, htoken⟩ := ha
      unfold Audience.next
      simp only [htoken]
      cases h with
      | absent _ hnone _ => exact absurd htoken (hnone q token)
      | written _ _ hnone _ => exact absurd htoken (hnone q token)
      | blank _ hone hret =>
          refine .written token rfl (fun x t hx => ?_) ?_
          · obtain ⟨hold, hne⟩ := created_of_to (by simp) hx
            exact hne (hone x q t token hold htoken)
          · intro v hv
            have hempty : v ∈ s.returned := hv
            rw [hret] at hempty
            cases hempty
  | readAgain q =>
      unfold Audience.next
      cases hfile : s.file with
      | none => exact h.to (by simp)
      | some content => exact h.returns (hread trivial) hfile
  | die q => exact h.to (by simp)

end Steps

variable {Key : Type} {host : Host Key}

omit [DecidableEq P] in
theorem Phase.agreed {s : State P} (h : Phase s) : Agreed host s := by
  have hsame : ∀ v ∈ s.returned, ∃ token : Token, v = token.text ∧
      ∀ w ∈ s.returned, w = token.text := by
    intro v hv
    cases h with
    | absent _ _ hret =>
        rw [hret] at hv
        cases hv
    | blank _ _ hret =>
        rw [hret] at hv
        cases hv
    | written token _ _ hret => exact ⟨token, hret v hv, hret⟩
  refine ⟨?_, ?_, ?_, ?_⟩
  · intro v hv
    obtain ⟨token, rfl, -⟩ := hsame v hv
    exact token.ne_nil
  · intro v hv w hw
    obtain ⟨token, rfl, hall⟩ := hsame v hv
    exact (hall w hw).symm
  · intro v hv w hw key p nowSec haud hnumber hnow
    obtain ⟨token, rfl, hall⟩ := hsame v hv
    rw [verify_signed key hnumber hnow, if_pos ((hall w hw).trans haud.symm)]
  · intro v _ key p nowSec haud hnumber hnow other hother
    rw [verify_signed key hnumber hnow, if_neg (haud ▸ hother)]

omit [DecidableEq P] in
theorem phase_fresh : Phase (fresh P) :=
  .absent rfl (fun _ _ h => nomatch h) rfl

/-- **THE SERVERS OF A VAULT AGREE** at every point of a run exactly if nobody reads the file in
    it while the file is created and has no content. -/
theorem audience_agree_iff (host : Host Key) {as : List (Act P)} {s : State P}
    (h : (machine P).Exec (fresh P) as s) :
    (∀ pre post t, as = pre ++ post → (machine P).Exec (fresh P) pre t → Agreed host t) ↔
      ∀ pre a post t, as = pre ++ a :: post → (machine P).Exec (fresh P) pre t →
        a.Reads → ¬ t.Blank := by
  constructor
  · intro hagreed pre a post t heq hpre hreads hblank
    rw [heq] at h
    obtain ⟨u, hu, ha, -⟩ := h.split
    obtain rfl := hpre.unique hu
    -- the read returns an empty audience
    have hstep : (machine P).Exec (fresh P) (pre ++ [a]) (next t a) :=
      hpre.append (.cons ha (.nil _))
    have hempty : [] ∈ (next t a).returned := by
      have hfile : t.file = some [] := hblank
      cases a with
      | read q =>
          unfold next
          rw [hfile]
          exact List.mem_append_right _ (List.mem_singleton_self _)
      | readAgain q =>
          unfold next
          rw [hfile]
          exact List.mem_append_right _ (List.mem_singleton_self _)
      | create q token => exact absurd hreads not_false
      | write q => exact absurd hreads not_false
      | die q => exact absurd hreads not_false
    have hsplit : as = (pre ++ [a]) ++ post := by
      rw [heq, List.append_assoc]
      rfl
    exact (hagreed (pre ++ [a]) post _ hsplit hstep).filled [] hempty rfl
  · intro hclean pre post t heq hpre
    have hrestricted := hpre.restrict (P := fun t a => a.Reads → ¬ t.Blank)
      fun pre' a mid u hsplit hu => hclean pre' a (mid ++ post) u
        (by rw [heq, hsplit, List.append_assoc]; rfl) hu
    have hphase : Phase t := Machine.reach_invariant
      (fun _ _ hs ha => hs.next ha.1 ha.2) phase_fresh ⟨pre, hrestricted⟩
    exact hphase.agreed

end Machine

/-! ## Two servers -/

def sampleToken : Token where
  text := List.replicate 32 'a'
  length := rfl
  hex := by decide +kernel

/-- What a host gives for one token: the digest of this payload under the key `key`. -/
def sampleHost : Host (List Char) where
  hmac _ _ :=
    { bytes := [118, 174, 211, 5, 100, 53, 55, 162, 148, 195, 3, 205, 68, 252, 229, 231, 1, 162,
        9, 48, 240, 158, 19, 61, 8, 251, 174, 2, 75, 106, 13, 52]
      length := rfl
      small := by decide }
  number numeral := if numeral.all Char.isDigit then some (Numerals.value numeral : ℚ) else none

example : signSession sampleHost ⟨"ann".toList, "admin".toList, 1900000000, sampleToken.text⟩
    "key".toList = ("eyJ1c2VyIjoiYW5uIiwicm9sZSI6ImFkbWluIiwiZXhwIjoxOTAwMDAwMDAwLCJhdWQiOiJhYW"
      ++ "FhYWFhYWFhYWFhYWFhYWFhYWFhYWFhYWFhYWFhYSJ9"
      ++ ".dq7TBWQ1N6KUwwPNRPzl5wGiCTDwnhM9CPuuAktqDTQ").toList
    := by decide +kernel

/-- The second server reads the file that the first one has just created. -/
def hastyRun : List (Act Bool) := [.read false, .create false sampleToken, .read true]

def lateRun : List (Act Bool) :=
  [.read false, .create false sampleToken, .write false, .readAgain false, .read true]

/-- **The audience that the second server got is empty.** -/
theorem hasty_empty : ∃ s, (machine Bool).Exec (fresh Bool) hastyRun s ∧ [] ∈ s.returned :=
  ⟨_, .cons rfl (.cons rfl (.cons rfl (.nil _))), List.mem_singleton_self _⟩

theorem late_agree_iff : ∃ s, (machine Bool).Exec (fresh Bool) lateRun s ∧
    ((∀ pre post t, lateRun = pre ++ post → (machine Bool).Exec (fresh Bool) pre t →
        Agreed sampleHost t) ↔
      ∀ pre a post t, lateRun = pre ++ a :: post → (machine Bool).Exec (fresh Bool) pre t →
        a.Reads → ¬ t.Blank) := by
  have hrun : (machine Bool).Exec (fresh Bool) lateRun _ :=
    .cons rfl (.cons rfl (.cons ⟨sampleToken, rfl⟩ (.cons rfl (.cons rfl (.nil _)))))
  exact ⟨_, hrun, audience_agree_iff sampleHost hrun⟩

end Audience
