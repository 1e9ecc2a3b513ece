import Daftari.Integrations.EngineProofs
import Daftari.Lib.TableProofs
import Daftari.Lib.TextProofs
import Mathlib.Data.Nat.Digits.Defs

/-! # Integration state — what is kept about each connected provider

    `integrations/types.ts` and `integrations/state.ts`: one encrypted file holds the
    providers' tokens, cursors, enrollments and webhooks, and the authorizations that
    have begun.  Every operation reads it, changes it and writes it back under one
    lock, so an operation is a function from what is stored to what is stored.

    * `ProviderState`, `IntegrationState`: the file. -/

namespace Integration

open Engine (SourceState)

/-! ## The providers -/

/-- `PROVIDER_NAMES`. -/
inductive ProviderName where
  | google
  | notion
  | m365
deriving DecidableEq, Repr

def ProviderName.text : ProviderName → String
  | .google => "google"
  | .notion => "notion"
  | .m365 => "m365"

/-- `EnrollmentRecord.kind`. -/
inductive EnrollmentKind where
  | file
  | folder
deriving DecidableEq, Repr

structure EnrollmentRecord where
  ref : String
  kind : EnrollmentKind
  label : String
  targetCollection : String
  enrolledAt : String
  enrolledBy : String
  driveId : String
  remoteId : String
  webUrl : Option String
  includeSpeakerNotes : Bool
  cursorKey : String
  audienceAckAt : String
  readersAtEnrollment : List String
deriving DecidableEq

/-- One of the provider-side subscriptions of a channel. -/
structure Subscription where
  id : String
  resource : String
  expiresAt : String
deriving DecidableEq

structure WebhookChannel where
  id : String
  secret : String
  expiresAt : Option String := none
  verificationRequired : Option Bool := none
  subscriptions : Option (List Subscription) := none
deriving DecidableEq

structure PendingWebhook where
  nonce : String
  secret : String
deriving DecidableEq

structure ProviderAccount where
  id : String
  tenantId : String
  displayName : Option String := none
  upn : Option String := none
deriving DecidableEq

inductive AuthorizationStatus where
  | ok
  | reconnectRequired
deriving DecidableEq

structure Authorization where
  status : AuthorizationStatus
  since : String
  reason : Option String := none
deriving DecidableEq

/-- `ProviderState`; the adapter's own data is opaque. -/
structure ProviderState (D : Type) where
  accessToken : String
  refreshToken : String
  accessTokenExpiresAt : Option String := none
  cursor : Option String := none
  webhookSetupToken : Option String := none
  webhook : Option WebhookChannel := none
  pendingWebhook : Option PendingWebhook := none
  enrollment : Option (List EnrollmentRecord) := none
  adapterData : Option D := none
  sources : List (String × SourceState) := []
  account : Option ProviderAccount := none
  authorization : Option Authorization := none
deriving DecidableEq

structure ProviderTokens where
  accessToken : String
  refreshToken : String
  accessTokenExpiresAt : Option String := none
  account : Option ProviderAccount := none
deriving DecidableEq

/-! ## The file -/

structure OAuthState where
  provider : ProviderName
  callbackNonce : String
  pkceVerifier : String
  expiresAt : String
deriving DecidableEq

structure IntegrationState (D : Type) where
  providers : ProviderName → Option (ProviderState D)
  oauthStates : Table String OAuthState

/-- `validProviderState`, of what a typed state can still be wrong in: a set-up token
    is long enough, and armed only while there is no channel. -/
def validProviderState {D : Type} (s : ProviderState D) : Bool :=
  s.webhookSetupToken.all (fun token => 16 ≤ (Text.units token.toList).length)
    && s.pendingWebhook.all (fun p => p.nonce ≠ "" && p.secret ≠ "")
    && !(s.webhook.isSome && s.webhookSetupToken.isSome)

/-- The host's clock: an instant as `toISOString` spells it, and `Date.parse`, which
    reads it back. -/
structure Host where
  toISO : Int → String
  dateParse : String → Option Int
  dateParse_toISO : ∀ t, dateParse (toISO t) = some t

def IntegrationState.setProvider {D : Type} (s : IntegrationState D) (name : ProviderName)
    (p : ProviderState D) : IntegrationState D :=
  { s with providers := Function.update s.providers name (some p) }

/-! ## A host to run on -/

private def bitText (d : Nat) : Char := if d = 0 then '0' else '1'

private def bitValue (c : Char) : Nat := if c = '0' then 0 else 1

private def numeral : Int → String
  | .ofNat n => String.ofList ('+' :: (Nat.digits 2 n).map bitText)
  | .negSucc n => String.ofList ('-' :: (Nat.digits 2 n).map bitText)

private def numeralValue (text : String) : Option Int :=
  match text.toList with
  | '+' :: bits => some (.ofNat (Nat.ofDigits 2 (bits.map bitValue)))
  | '-' :: bits => some (.negSucc (Nat.ofDigits 2 (bits.map bitValue)))
  | _ => none

private theorem ofDigits_bits (n : Nat) :
    Nat.ofDigits 2 (((Nat.digits 2 n).map bitText).map bitValue) = n := by
  have hid : (Nat.digits 2 n).map (bitValue ∘ bitText) = (Nat.digits 2 n).map id := by
    apply List.map_congr_left
    intro d hd
    have hlt : d < 2 := Nat.digits_lt_base (by omega) hd
    have hbit : d = 0 ∨ d = 1 := by omega
    rcases hbit with rfl | rfl <;> rfl
  rw [List.map_map, hid, List.map_id, Nat.ofDigits_digits]

def Host.numerals : Host where
  toISO := numeral
  dateParse := numeralValue
  dateParse_toISO := by
    intro t
    cases t with
    | ofNat n => simp only [numeral, numeralValue, String.toList_ofList, ofDigits_bits]
    | negSucc n => simp only [numeral, numeralValue, String.toList_ofList, ofDigits_bits]

end Integration
