import Daftari.Integrations.WebhooksProofs

/-! # Interleaved webhooks — who clears the pending channel, who registers

    Set-ups, captures and activations of one provider in any order, each phase one
    step.  Remote calls come back when they like, with what they like.

    * `World.Inv`, `Inv.step`: a pending channel has a live owner, a registration that
      was recorded is there;
    * `one_token_one_webhook`: **what holds in every interleaving**. -/

namespace Webhook

open Integration

variable {D : Type} (host : Host) (adapter : Adapter D)

/-! ## The interleavings -/

/-- The clock, the provider's entry, where set-ups and verifications stand, and (ghosts)
    the channels minted and recorded, by set-up, and the tokens captured with. -/
structure World (D : Type) where
  clock : Int
  provider : Option (ProviderState D)
  setups : Nat → Option (SetupPhase D)
  verifications : Nat → Option VerifyPhase
  verifying : Bool
  minted : List (Nat × PendingWebhook)
  recorded : List (Nat × WebhookChannel)
  captured : List String

inductive Action where
  | prepare (id : Nat) (env : Preparing)
  | respond (id : Nat) (urlValid : Bool) (call : RemoteCall)
  | record (id : Nat)
  | arm (checks : Except String Unit) (setupToken : String)
  | confirm (checks : Except String Unit)
  | verify (id : Nat) (checks : Except String Unit) (request : WebhookRequest)
      (call : VerifyCall)
  | capture (id : Nat) (call : VerifyCall)
  | tick (ms : Nat)

/-- The set-up that takes the step. -/
def Action.setup : Action → Option Nat
  | .prepare id _ | .respond id _ _ | .record id => some id
  | _ => none

/-- The channel a set-up waits with. -/
def SetupPhase.pending : SetupPhase D → Option PendingWebhook
  | .calling _ pending => pending
  | .returned pending _ => some pending
  | .ended _ => none

def SetupPhase.channel : SetupPhase D → Option WebhookChannel
  | .ended (.ok channel) => some channel
  | _ => none

def SetupPhase.hasFailed : SetupPhase D → Bool
  | .ended (.error _) => true
  | _ => false

def VerifyPhase.isWaiting : VerifyPhase → Bool
  | .waiting _ => true
  | .ended _ => false

namespace World

/-- The start: nothing is on its way. -/
def start (clock : Int) (provider : Option (ProviderState D)) : World D :=
  ⟨clock, provider, fun _ => none, fun _ => none, false, [], [], []⟩

def enter (s : World D) (id : Nat) (r : SetupPhase D × Option (ProviderState D)) : World D :=
  { s with
    provider := r.2
    setups := Function.update s.setups id (some r.1) }

def next (s : World D) : Action → World D
  | .prepare id env =>
      let r := prepareWebhook host adapter env s.clock s.provider
      { s.enter id r with minted := s.minted ++ (r.1.pending.map fun p => (id, p)).toList }
  | .respond id urlValid call =>
      match s.setups id with
      | some (.calling snapshot pending) =>
          s.enter id (Webhook.respond adapter snapshot pending urlValid call, s.provider)
      | _ => s
  | .record id =>
      match s.setups id with
      | some (.returned pending result) =>
          let r := recordWebhook adapter pending result s.provider
          { s.enter id r with
            recorded := s.recorded ++ (r.1.channel.map fun ch => (id, ch)).toList }
      | _ => s
  | .arm checks setupToken =>
      { s with provider := (armProviderWebhookSetup adapter checks setupToken s.provider).2 }
  | .confirm checks =>
      { s with provider := (confirmProviderWebhookVerification adapter checks s.provider).2 }
  | .verify id checks request call =>
      let phase := verifySnapshot adapter checks request s.verifying call s.provider
      { s with
        verifications := Function.update s.verifications id (some phase)
        verifying := s.verifying || phase.isWaiting }
  | .capture id call =>
      match s.verifications id with
      | some (.waiting request) =>
          let r := captureVerification adapter request call s.provider
          { s with
            provider := r.2
            verifications := Function.update s.verifications id (some (.ended r.1))
            verifying := false
            captured := s.captured ++ match r.1 with
              | .ok _ => request.setupToken.toList
              | .error _ => [] }
      | _ => s
  | .tick ms => { s with clock := s.clock + ms }

/-- A set-up starts once, with a channel whose texts are random and fresh; only a manual
    provider is armed and confirmed. -/
def enabled (s : World D) : Action → Bool
  | .prepare id env => (s.setups id).isNone
      && decide (env.minted.nonce ∉ s.minted.map fun m => m.2.nonce)
      && decide (env.minted.nonce ≠ "") && decide (env.minted.secret ≠ "")
  | .arm _ _ | .confirm _ => decide (adapter.webhookSetup = .manual)
  | .verify id _ _ _ => (s.verifications id).isNone
  | _ => true

/-- The pending channel, the registration and the armed token. -/
def pending (s : World D) : Option PendingWebhook :=
  s.provider.bind ProviderState.pendingWebhook

def webhook (s : World D) : Option WebhookChannel := s.provider.bind ProviderState.webhook

def armed (s : World D) : Option String := s.provider.bind ProviderState.webhookSetupToken

def AllEnded (s : World D) : Prop :=
  ∀ id phase, s.setups id = some phase → ∃ result, phase = .ended result

end World

/-- **Any interleaving.** -/
def webhooks : Machine (World D) Action where
  enabled s a := s.enabled adapter a = true
  next := World.next host adapter

instance (s : World D) (a : Action) : Decidable ((webhooks host adapter).enabled s a) :=
  inferInstanceAs (Decidable (s.enabled adapter a = true))

/-! ## What one phase does -/

/-- Only the tokens, their expiry and the authorization differ. -/
def TokensOnly (p q : ProviderState D) : Prop :=
  ∃ access refresh expires authorization, q = { p with
    accessToken := access
    refreshToken := refresh
    accessTokenExpiresAt := expires
    authorization := authorization }

variable {host adapter}

theorem TokensOnly.refl (p : ProviderState D) : TokensOnly p p := ⟨_, _, _, _, rfl⟩

/-- **A refresh changes the tokens only**, and what it returns is what it has stored. -/
theorem refreshExpiredTokens_tokensOnly (host : Host) (adapter : Adapter D) (env : Preparing)
    (p : ProviderState D) (now : Int) : TokensOnly p (refreshExpiredTokens host adapter env p now).2
      ∧ ∀ q, (refreshExpiredTokens host adapter env p now).1 = .ok q →
        q = (refreshExpiredTokens host adapter env p now).2 := by
  have hfails : ∀ (e : String) (q : ProviderState D), TokensOnly p q →
      TokensOnly p ((.error e, q) : Except String (ProviderState D) × ProviderState D).2
        ∧ ∀ q', ((.error e, q) : Except String (ProviderState D) × ProviderState D).1
          = .ok q' → q' = q := by
    intro e q hq
    refine ⟨hq, ?_⟩
    rintro q' ⟨⟩
  simp only [refreshExpiredTokens]
  split
  · refine ⟨TokensOnly.refl p, ?_⟩
    rintro q ⟨⟩
    rfl
  · split
    · exact hfails _ p (TokensOnly.refl p)
    · exact hfails _ p (TokensOnly.refl p)
    · exact hfails _ p (TokensOnly.refl p)
    · split
      · split
        · exact hfails _ p (TokensOnly.refl p)
        · exact hfails _ _ ⟨_, _, _, _, rfl⟩
      · exact hfails _ p (TokensOnly.refl p)
    · split
      · exact hfails _ p (TokensOnly.refl p)
      · split
        · exact hfails _ p (TokensOnly.refl p)
        · refine ⟨⟨_, _, _, _, rfl⟩, ?_⟩
          rintro q ⟨⟩
          rfl

/-- **The first phase** refreshes the tokens, and then it fails, or calls without a
    channel of its own, or mints one. -/
theorem prepareWebhook_cases (host : Host) (adapter : Adapter D) (env : Preparing) (now : Int)
    (p : ProviderState D) : ∃ q, TokensOnly p q ∧
      ((∃ e, prepareWebhook host adapter env now (some p) = (.ended (.error e), some q))
        ∨ prepareWebhook host adapter env now (some p) = (.calling q none, some q)
        ∨ prepareWebhook host adapter env now (some p)
            = (.calling { q with pendingWebhook := some env.minted } (some env.minted),
              some { q with pendingWebhook := some env.minted })
          ∧ validProviderState { q with pendingWebhook := some env.minted } = true) := by
  simp only [prepareWebhook]
  cases env.checks with
  | error e => exact ⟨p, TokensOnly.refl p, Or.inl ⟨e, rfl⟩⟩
  | ok =>
      obtain ⟨htokens, hok⟩ := refreshExpiredTokens_tokensOnly host adapter env p now
      refine ⟨_, htokens, ?_⟩
      dsimp only
      cases hres : refreshExpiredTokens host adapter env p now with
      | mk result stored =>
          rw [hres] at hok
          cases result with
          | error e => exact Or.inl ⟨e, rfl⟩
          | ok refreshed =>
              obtain rfl : refreshed = stored := hok refreshed rfl
              dsimp only
              split
              · exact Or.inr (Or.inl rfl)
              · unfold writeState
                by_cases hvalid : validProviderState
                    { refreshed with pendingWebhook := some env.minted } = true
                · rw [if_pos hvalid]
                  exact Or.inr (Or.inr ⟨rfl, hvalid⟩)
                · rw [if_neg hvalid]
                  exact Or.inl ⟨_, rfl⟩

variable {p : ProviderState D}

/-- An entry is valid when its token is long enough, its pending channel has texts, and
    it is not both armed and registered. -/
theorem validProviderState_iff : validProviderState p = true ↔
    (∀ t, p.webhookSetupToken = some t → 16 ≤ (Text.units t.toList).length)
      ∧ (∀ w, p.pendingWebhook = some w → w.nonce ≠ "" ∧ w.secret ≠ "")
      ∧ (p.webhook = none ∨ p.webhookSetupToken = none) := by
  simp only [validProviderState]
  cases p.webhookSetupToken <;> cases p.pendingWebhook <;> cases p.webhook <;> simp

theorem TokensOnly.valid {q : ProviderState D} (h : TokensOnly p q)
    (hp : validProviderState p = true) : validProviderState q = true := by
  obtain ⟨_, _, _, _, rfl⟩ := h
  exact hp

/-- **The third phase** of an entry that can take the result. -/
theorem recordWebhook_ok (adapter : Adapter D) (pending : PendingWebhook)
    {result : Except String WebhookChannel} (hp : validProviderState p = true)
    (hfree : ∀ ch, result = .ok ch → p.webhookSetupToken = none) :
    validProviderState (recordedState pending result p) = true
      ∧ recordWebhook adapter pending result (some p)
        = (.ended result, some (recordedState pending result p)) := by
  obtain ⟨htoken, hpend, hboth⟩ := validProviderState_iff.mp hp
  have hvalid : validProviderState (recordedState pending result p) = true := by
    refine validProviderState_iff.mpr ⟨htoken, ?_, ?_⟩
    · intro w hw
      refine hpend w ?_
      have hw' : (if p.pendingWebhook.map PendingWebhook.nonce = some pending.nonce then none
        else p.pendingWebhook) = some w := hw
      split at hw'
      · cases hw'
      · exact hw'
    · cases result with
      | error e => exact hboth
      | ok ch => exact Or.inr (hfree ch rfl)
  refine ⟨hvalid, ?_⟩
  simp only [recordWebhook, writeState, hvalid, if_true]

/-- A capture takes the armed token of an entry without a webhook, or it changes nothing. -/
theorem captureVerification_cases (adapter : Adapter D) (request : WebhookRequest)
    (call : VerifyCall) (provider : Option (ProviderState D)) :
    (∃ e, captureVerification adapter request call provider = (.error e, provider))
      ∨ ∃ p token channel, provider = some p ∧ p.webhook = none
        ∧ p.webhookSetupToken = some token ∧ request.setupToken = some token
        ∧ validProviderState { p with webhookSetupToken := none, webhook := some channel } = true
        ∧ captureVerification adapter request call provider = (.ok (.verification channel),
          some { p with webhookSetupToken := none, webhook := some channel }) := by
  cases provider with
  | none => exact Or.inl ⟨_, rfl⟩
  | some p =>
      simp only [captureVerification]
      split
      · exact Or.inl ⟨_, rfl⟩
      · rename_i hweb
        split
        · exact Or.inl ⟨_, rfl⟩
        · rename_i harmed
          split
          · exact Or.inl ⟨_, rfl⟩
          · rename_i channel _
            split
            · exact Or.inl ⟨_, rfl⟩
            · unfold writeState
              by_cases hvalid : validProviderState
                  { p with webhookSetupToken := none, webhook := some channel } = true
              · rw [if_pos hvalid]
                rw [not_or, not_not] at harmed
                obtain ⟨token, htoken⟩ := Option.ne_none_iff_exists'.mp harmed.1
                refine Or.inr ⟨p, token, channel, rfl, ?_, htoken, harmed.2.trans htoken,
                  hvalid, rfl⟩
                simpa using hweb
              · rw [if_neg hvalid]
                exact Or.inl ⟨_, rfl⟩
          · exact Or.inl ⟨_, rfl⟩

theorem armProviderWebhookSetup_cases (adapter : Adapter D) (checks : Except String Unit)
    (setupToken : String) (provider : Option (ProviderState D)) :
    (∃ e, armProviderWebhookSetup adapter checks setupToken provider = (some e, provider))
      ∨ ∃ p, provider = some p ∧ p.webhook = none
        ∧ validProviderState { p with webhookSetupToken := some setupToken } = true
        ∧ armProviderWebhookSetup adapter checks setupToken provider
          = (none, some { p with webhookSetupToken := some setupToken }) := by
  simp only [armProviderWebhookSetup]
  cases checks with
  | error e => exact Or.inl ⟨e, rfl⟩
  | ok =>
      cases provider with
      | none => exact Or.inl ⟨_, rfl⟩
      | some p =>
          dsimp only
          split
          · exact Or.inl ⟨_, rfl⟩
          · rename_i hweb
            split
            · exact Or.inl ⟨_, rfl⟩
            · unfold writeState
              by_cases hvalid : validProviderState
                  { p with webhookSetupToken := some setupToken } = true
              · rw [if_pos hvalid]
                exact Or.inr ⟨p, rfl, by simpa using hweb, hvalid, rfl⟩
              · rw [if_neg hvalid]
                exact Or.inl ⟨_, rfl⟩

theorem confirmProviderWebhookVerification_cases (adapter : Adapter D)
    (checks : Except String Unit) (provider : Option (ProviderState D)) :
    (∃ e, confirmProviderWebhookVerification adapter checks provider = (some e, provider))
      ∨ ∃ p channel, provider = some p ∧ p.webhook = some channel
        ∧ validProviderState
          { p with webhook := some { channel with verificationRequired := some false } } = true
        ∧ confirmProviderWebhookVerification adapter checks provider = (none,
          some { p with webhook := some { channel with verificationRequired := some false } }) := by
  simp only [confirmProviderWebhookVerification]
  cases checks with
  | error e => exact Or.inl ⟨e, rfl⟩
  | ok =>
      cases provider with
      | none => exact Or.inl ⟨_, rfl⟩
      | some p =>
          dsimp only
          split
          · exact Or.inl ⟨_, rfl⟩
          · rename_i channel hweb
            split
            · unfold writeState
              by_cases hvalid : validProviderState
                  { p with webhook := some { channel with verificationRequired := some false } }
              · rw [if_pos hvalid]
                exact Or.inr ⟨p, channel, rfl, hweb, hvalid, rfl⟩
              · rw [if_neg hvalid]
                exact Or.inl ⟨_, rfl⟩
            · exact Or.inl ⟨_, rfl⟩

/-! ## The invariant -/

namespace World

variable {s : World D}

def Registered (s : World D) (ch : WebhookChannel) : Prop :=
  ∃ w, s.webhook = some w ∧ w.id = ch.id ∧ w.secret = ch.secret

/-- A set-up waits with this channel. -/
def Live (s : World D) (id : Nat) (p : PendingWebhook) : Prop :=
  ∃ phase, s.setups id = some phase ∧ phase.pending = some p

/-- A set-up that has yet to record is as its adapter lets it be: a manual one has a
    channel to record only where there is a registration. -/
def Mindful (adapter : Adapter D) (s : World D) (phase : SetupPhase D) : Prop :=
  adapter.webhookSetup = .manual → s.webhook = none →
    match phase with
    | .calling snapshot _ => snapshot.webhook = none
    | .returned _ (.ok _) => False
    | _ => True

/-- **The invariant.** -/
structure Inv (adapter : Adapter D) (s : World D) : Prop where
  valid : ∀ p, s.provider = some p → validProviderState p = true
  unarmed : adapter.webhookSetup = .automatic → s.armed = none
  started : ∀ m ∈ s.minted, s.setups m.1 ≠ none
  ids : (s.minted.map Prod.fst).Nodup
  nonces : (s.minted.map fun m => m.2.nonce).Nodup
  live : ∀ id p, s.Live id p → (id, p) ∈ s.minted ∧ s.provider ≠ none
  owned : ∀ p, s.pending = some p → ∃ id, s.Live id p
  mindful : ∀ id phase, s.setups id = some phase → s.Mindful adapter phase
  captures : s.captured.length ≤ 1 ∧ (s.captured ≠ [] → s.webhook ≠ none)
  ended : ∀ r ∈ s.recorded, s.setups r.1 = some (.ended (.ok r.2))
  last : ∀ r, s.recorded.getLast? = some r → s.Registered r.2

/-- **Another entry**: valid, not armed by accident, with no other pending channel, and
    with the registration it had. -/
theorem Inv.setProvider (h : s.Inv adapter) {q : ProviderState D}
    (hvalid : validProviderState q = true)
    (hunarmed : adapter.webhookSetup = .automatic → q.webhookSetupToken = none)
    (hpending : ∀ p, q.pendingWebhook = some p → s.pending = some p)
    (hwebhook : ∀ w, s.webhook = some w →
      ∃ w', q.webhook = some w' ∧ w'.id = w.id ∧ w'.secret = w.secret) :
    ({ s with provider := some q } : World D).Inv adapter := by
  have hnone : q.webhook = none → s.webhook = none := by
    intro hq
    by_contra hne
    obtain ⟨w, hw⟩ := Option.ne_none_iff_exists'.mp hne
    obtain ⟨w', hw', -⟩ := hwebhook w hw
    rw [hq] at hw'
    cases hw'
  refine ⟨?_, hunarmed, h.started, h.ids, h.nonces, ?_, ?_, ?_, ⟨h.captures.1, ?_⟩, h.ended, ?_⟩
  · rintro p ⟨⟩
    exact hvalid
  · intro id p hlive
    refine ⟨(h.live id p hlive).1, ?_⟩
    rintro ⟨⟩
  · intro p hp
    exact h.owned p (hpending p hp)
  · intro id phase hphase hmanual hq
    exact h.mindful id phase hphase hmanual (hnone hq)
  · intro hne hq
    exact h.captures.2 hne (hnone hq)
  · intro r hr
    obtain ⟨w, hw, hid, hsecret⟩ := h.last r hr
    obtain ⟨w', hw', hid', hsecret'⟩ := hwebhook w hw
    exact ⟨w', hw', hid'.trans hid, hsecret'.trans hsecret⟩

/-- **A set-up's phase**, one that has no channel of its own that it had not before. -/
theorem Inv.setPhase (h : s.Inv adapter) (id : Nat) (phase : SetupPhase D)
    (hlive : ∀ p, phase.pending = some p → s.Live id p)
    (howner : ∀ p, s.Live id p → s.pending = some p → phase.pending = some p)
    (hmindful : s.Mindful adapter phase) (hended : ∀ ch, s.setups id ≠ some (.ended (.ok ch))) :
    ({ s with setups := Function.update s.setups id (some phase) } : World D).Inv adapter := by
  refine ⟨h.valid, h.unarmed, ?_, h.ids, h.nonces, ?_, ?_, ?_, h.captures, ?_, h.last⟩
  · intro m hm
    show Function.update s.setups id (some phase) m.1 ≠ none
    by_cases hid : m.1 = id
    · rw [hid, Function.update_self]
      exact Option.some_ne_none _
    · rw [Function.update_of_ne hid]
      exact h.started m hm
  · rintro id' p ⟨phase', hphase', hp⟩
    refine h.live id' p ?_
    replace hphase' : Function.update s.setups id (some phase) id' = some phase' := hphase'
    by_cases hid : id' = id
    · subst hid
      rw [Function.update_self] at hphase'
      obtain rfl := Option.some.inj hphase'
      exact hlive p hp
    · rw [Function.update_of_ne hid] at hphase'
      exact ⟨phase', hphase', hp⟩
  · intro p hp
    obtain ⟨id', hlive'⟩ := h.owned p hp
    by_cases hid : id' = id
    · subst hid
      exact ⟨id', phase, Function.update_self _ _ _, howner p hlive' hp⟩
    · obtain ⟨phase', hphase', hp'⟩ := hlive'
      refine ⟨id', phase', ?_, hp'⟩
      show Function.update s.setups id (some phase) id' = _
      rw [Function.update_of_ne hid]
      exact hphase'
  · intro id' phase' hphase'
    replace hphase' : Function.update s.setups id (some phase) id' = some phase' := hphase'
    by_cases hid : id' = id
    · subst hid
      rw [Function.update_self] at hphase'
      obtain rfl := Option.some.inj hphase'
      exact hmindful
    · rw [Function.update_of_ne hid] at hphase'
      exact h.mindful id' phase' hphase'
  · intro r hr
    have hr' := h.ended r hr
    show Function.update s.setups id (some phase) r.1 = _
    by_cases hid : r.1 = id
    · exact absurd (hid ▸ hr') (hended r.2)
    · rw [Function.update_of_ne hid]
      exact hr'

variable {p : ProviderState D}

theorem Inv.tokensOnly (h : s.Inv adapter) {q : ProviderState D} (hp : s.provider = some p)
    (hq : TokensOnly p q) : ({ s with provider := some q } : World D).Inv adapter := by
  have hvalid := hq.valid (h.valid p hp)
  have harmed : s.armed = p.webhookSetupToken := by rw [World.armed, hp]; rfl
  have hpend : s.pending = p.pendingWebhook := by rw [World.pending, hp]; rfl
  have hweb : s.webhook = p.webhook := by rw [World.webhook, hp]; rfl
  obtain ⟨_, _, _, _, rfl⟩ := hq
  refine h.setProvider hvalid ?_ ?_ ?_
  · intro hauto
    exact harmed.symm.trans (h.unarmed hauto)
  · intro w hw
    exact hpend.trans hw
  · intro w hw
    exact ⟨w, hweb.symm.trans hw, rfl, rfl⟩

variable {id : Nat}

/-- **Minting**: a set-up that has not started writes its channel. -/
theorem Inv.mint (h : s.Inv adapter) {m : PendingWebhook} (hp : s.provider = some p)
    (hfree : s.setups id = none) (hfresh : m.nonce ∉ s.minted.map fun m => m.2.nonce)
    (hvalid : validProviderState { p with pendingWebhook := some m } = true) :
    ({ s with
        provider := some { p with pendingWebhook := some m }
        setups := Function.update s.setups id
          (some (.calling { p with pendingWebhook := some m } (some m)))
        minted := s.minted ++ [(id, m)] } : World D).Inv adapter := by
  have hweb : s.webhook = p.webhook := by rw [World.webhook, hp]; rfl
  have hother : ∀ {id'}, s.setups id' ≠ none → id' ≠ id := by
    rintro id' hne rfl
    exact hne hfree
  have hnew : id ∉ s.minted.map Prod.fst := by
    intro hmem
    obtain ⟨m', hm', rfl⟩ := List.mem_map.mp hmem
    exact h.started m' hm' hfree
  refine ⟨?_, ?_, ?_, ?_, ?_, ?_, ?_, ?_, ⟨h.captures.1, ?_⟩, ?_, ?_⟩
  · rintro q ⟨⟩
    exact hvalid
  · intro hauto
    have harmed := h.unarmed hauto
    rw [World.armed, hp] at harmed
    exact harmed
  · intro m' hm'
    show Function.update s.setups id _ m'.1 ≠ none
    rcases List.mem_append.mp hm' with hm' | hm'
    · rw [Function.update_of_ne (hother (h.started m' hm'))]
      exact h.started m' hm'
    · obtain rfl := List.mem_singleton.mp hm'
      rw [Function.update_self]
      exact Option.some_ne_none _
  · show ((s.minted ++ [(id, m)]).map Prod.fst).Nodup
    rw [List.map_append, List.nodup_append]
    refine ⟨h.ids, List.nodup_singleton _, ?_⟩
    intro a ha b hb hab
    have hb' : b = id := List.mem_singleton.mp hb
    exact hnew (hb' ▸ hab ▸ ha)
  · show ((s.minted ++ [(id, m)]).map fun m => m.2.nonce).Nodup
    rw [List.map_append, List.nodup_append]
    refine ⟨h.nonces, List.nodup_singleton _, ?_⟩
    intro a ha b hb hab
    have hb' : b = m.nonce := List.mem_singleton.mp hb
    exact hfresh (hb' ▸ hab ▸ ha)
  · rintro id' w ⟨phase, hphase, hw⟩
    replace hphase : Function.update s.setups id _ id' = some phase := hphase
    refine ⟨?_, Option.some_ne_none _⟩
    by_cases hid : id' = id
    · subst hid
      rw [Function.update_self] at hphase
      obtain rfl := Option.some.inj hphase
      obtain rfl := Option.some.inj hw
      exact List.mem_append_right _ (List.mem_singleton_self _)
    · rw [Function.update_of_ne hid] at hphase
      exact List.mem_append_left _ (h.live id' w ⟨phase, hphase, hw⟩).1
  · intro w hw
    obtain rfl := Option.some.inj hw
    exact ⟨id, _, Function.update_self _ _ _, rfl⟩
  · intro id' phase hphase hmanual hnone
    replace hphase : Function.update s.setups id _ id' = some phase := hphase
    by_cases hid : id' = id
    · subst hid
      rw [Function.update_self] at hphase
      obtain rfl := Option.some.inj hphase
      exact hnone
    · rw [Function.update_of_ne hid] at hphase
      exact h.mindful id' phase hphase hmanual (hweb.trans hnone)
  · intro hne hnone
    exact h.captures.2 hne (hweb.trans hnone)
  · intro r hr
    have hr' := h.ended r hr
    show Function.update s.setups id _ r.1 = _
    rw [Function.update_of_ne (hother (by rw [hr']; exact Option.some_ne_none _))]
    exact hr'
  · intro r hr
    obtain ⟨w, hw, hrest⟩ := h.last r hr
    exact ⟨w, hweb.symm.trans hw, hrest⟩

/-- A set-up's result can be recorded: a manual one has a registration, an automatic one
    no armed token. -/
theorem Inv.free_of_returned (h : s.Inv adapter) {pending : PendingWebhook}
    {result : Except String WebhookChannel} (hp : s.provider = some p)
    (hphase : s.setups id = some (.returned pending result)) :
    ∀ ch, result = .ok ch → p.webhookSetupToken = none := by
  rintro ch rfl
  cases hsetup : adapter.webhookSetup with
  | automatic =>
      have harmed := h.unarmed hsetup
      rw [World.armed, hp] at harmed
      exact harmed
  | manual =>
      have hweb : p.webhook ≠ none := by
        intro hnone
        exact h.mindful id _ hphase hsetup (by rw [World.webhook, hp]; exact hnone)
      exact ((validProviderState_iff.mp (h.valid p hp)).2.2).resolve_left hweb

/-- **Recording** what a set-up has come to. -/
theorem Inv.record (h : s.Inv adapter) {pending : PendingWebhook}
    {result : Except String WebhookChannel} (hp : s.provider = some p)
    (hphase : s.setups id = some (.returned pending result))
    (hvalid : validProviderState (recordedState pending result p) = true) :
    ({ s with
        provider := some (recordedState pending result p)
        setups := Function.update s.setups id (some (.ended result))
        recorded := s.recorded ++ ((SetupPhase.channel (.ended result : SetupPhase D)).map
          fun ch => (id, ch)).toList } : World D).Inv adapter := by
  have hweb : s.webhook = p.webhook := by rw [World.webhook, hp]; rfl
  have hpend : s.pending = p.pendingWebhook := by rw [World.pending, hp]; rfl
  have hnone : (recordedState pending result p).webhook = none → s.webhook = none := by
    rw [hweb]
    cases result with
    | error e => exact fun hr => hr
    | ok ch => rintro ⟨⟩
  refine ⟨?_, ?_, ?_, h.ids, h.nonces, ?_, ?_, ?_, ⟨h.captures.1, ?_⟩, ?_, ?_⟩
  · rintro q ⟨⟩
    exact hvalid
  · intro hauto
    have harmed := h.unarmed hauto
    rw [World.armed, hp] at harmed
    exact harmed
  · intro m hm
    show Function.update s.setups id _ m.1 ≠ none
    by_cases hid : m.1 = id
    · rw [hid, Function.update_self]
      exact Option.some_ne_none _
    · rw [Function.update_of_ne hid]
      exact h.started m hm
  · rintro id' w ⟨phase, hphase', hw⟩
    replace hphase' : Function.update s.setups id _ id' = some phase := hphase'
    refine ⟨?_, Option.some_ne_none _⟩
    by_cases hid : id' = id
    · subst hid
      rw [Function.update_self] at hphase'
      obtain rfl := Option.some.inj hphase'
      cases hw
    · rw [Function.update_of_ne hid] at hphase'
      exact (h.live id' w ⟨phase, hphase', hw⟩).1
  · -- the channel that is still pending is another set-up's
    intro w hw
    have hw' : (if p.pendingWebhook.map PendingWebhook.nonce = some pending.nonce then none
      else p.pendingWebhook) = some w := hw
    split at hw'
    · cases hw'
    · rename_i hnonce
      obtain ⟨id', phase, hphase', hpending⟩ := h.owned w (hpend.trans hw')
      refine ⟨id', phase, ?_, hpending⟩
      show Function.update s.setups id _ id' = _
      rw [Function.update_of_ne, hphase']
      rintro rfl
      rw [hphase] at hphase'
      obtain rfl := Option.some.inj hphase'
      obtain rfl := Option.some.inj hpending
      exact hnonce (by rw [hw']; rfl)
  · intro id' phase hphase' hmanual hq
    replace hphase' : Function.update s.setups id _ id' = some phase := hphase'
    by_cases hid : id' = id
    · subst hid
      rw [Function.update_self] at hphase'
      obtain rfl := Option.some.inj hphase'
      trivial
    · rw [Function.update_of_ne hid] at hphase'
      exact h.mindful id' phase hphase' hmanual (hnone hq)
  · intro hne hq
    exact h.captures.2 hne (hnone hq)
  · intro r hr
    show Function.update s.setups id _ r.1 = _
    rcases List.mem_append.mp hr with hr | hr
    · have hr' := h.ended r hr
      by_cases hid : r.1 = id
      · rw [hid, hphase] at hr'
        cases hr'
      · rw [Function.update_of_ne hid]
        exact hr'
    · cases result with
      | error e => cases hr
      | ok ch =>
          obtain rfl := List.mem_singleton.mp hr
          exact Function.update_self _ _ _
  · intro r hr
    cases result with
    | error e =>
        have hr' : s.recorded.getLast? = some r := by
          rw [← hr]
          exact congrArg List.getLast? (List.append_nil _).symm
        obtain ⟨w, hw, hrest⟩ := h.last r hr'
        exact ⟨w, hweb.symm.trans hw, hrest⟩
    | ok ch =>
        have hr' : (s.recorded ++ [(id, ch)]).getLast? = some r := hr
        rw [List.getLast?_append, List.getLast?_singleton] at hr'
        obtain rfl := Option.some.inj hr'
        exact ⟨ch, rfl, rfl, rfl⟩

theorem next_prepare {env : Preparing} {r : SetupPhase D × Option (ProviderState D)}
    (h : prepareWebhook host adapter env s.clock s.provider = r) (hr : r.1.pending = none) :
    next host adapter s (.prepare id env) = s.enter id r := by
  simp only [next, h, hr, Option.map_none, Option.toList_none, List.append_nil]
  rfl

theorem prepareWebhook_none (host : Host) (adapter : Adapter D) (env : Preparing) (now : Int) :
    ∃ e, prepareWebhook host adapter env now none = (.ended (.error e), none) := by
  unfold prepareWebhook
  cases env.checks with
  | error e => exact ⟨e, rfl⟩
  | ok => exact ⟨_, rfl⟩

theorem Inv.prepare (h : s.Inv adapter) {env : Preparing}
    (ha : s.enabled adapter (.prepare id env) = true) :
    (next host adapter s (.prepare id env)).Inv adapter := by
  simp only [enabled, Bool.and_eq_true, Option.isNone_iff_eq_none, decide_eq_true_eq] at ha
  obtain ⟨⟨⟨hfree, hfresh⟩, -⟩, -⟩ := ha
  have hnot : ∀ {t : World D} {p}, t.setups = s.setups → ¬ t.Live id p := by
    rintro t p ht ⟨phase, hphase, -⟩
    rw [ht, hfree] at hphase
    cases hphase
  have hended : ∀ ch, s.setups id ≠ some (.ended (.ok ch)) := by
    intro ch
    rw [hfree]
    rintro ⟨⟩
  cases hp : s.provider with
  | none =>
      obtain ⟨e, he⟩ := prepareWebhook_none host adapter env s.clock
      rw [← hp] at he
      rw [next_prepare he rfl, enter, hp]
      have hset := h.setPhase id (.ended (.error e)) (by rintro p ⟨⟩)
        (fun p hlive => absurd hlive (hnot rfl)) (fun _ _ => trivial) hended
      rw [← hp]
      exact hset
  | some p =>
      obtain ⟨q, hq, hcases⟩ := prepareWebhook_cases host adapter env s.clock p
      have htokens := h.tokensOnly hp hq
      rw [← hp] at hcases
      rcases hcases with ⟨e, he⟩ | he | ⟨he, hvalid⟩
      · rw [next_prepare he rfl]
        exact htokens.setPhase id _ (by rintro p ⟨⟩) (fun p hlive => absurd hlive (hnot rfl))
          (fun _ _ => trivial) hended
      · rw [next_prepare he rfl]
        exact htokens.setPhase id _ (by rintro p ⟨⟩) (fun p hlive => absurd hlive (hnot rfl))
          (fun _ hnone => hnone) hended
      · have hmint := htokens.mint rfl hfree hfresh hvalid
        simp only [next, he]
        exact hmint

theorem Inv.respond (host : Host) (h : s.Inv adapter) {urlValid : Bool} {call : RemoteCall} :
    (next host adapter s (.respond id urlValid call)).Inv adapter := by
  simp only [next]
  split
  · rename_i snapshot pending hphase
    have hended : ∀ ch, s.setups id ≠ some (.ended (.ok ch)) := by
      intro ch
      rw [hphase]
      rintro ⟨⟩
    refine h.setPhase id _ ?_ ?_ ?_ hended
    · intro p hp
      refine ⟨_, hphase, ?_⟩
      cases pending with
      | none => cases hp
      | some w => exact hp
    · rintro p ⟨phase, hphase', hp⟩ -
      rw [hphase] at hphase'
      obtain rfl := Option.some.inj hphase'
      obtain rfl : pending = some p := hp
      rfl
    · -- a manual adapter without a registration has nothing to return
      intro hmanual hnone
      have hsnapshot : snapshot.webhook = none := h.mindful id _ hphase hmanual hnone
      have herror : ∃ e, ensured adapter snapshot call = .error e := by
        simp only [ensured, Adapter.ensureWebhook, hmanual, hsnapshot]
        exact ⟨_, rfl⟩
      obtain ⟨e, he⟩ := herror
      cases pending with
      | none => trivial
      | some w =>
          simp only [Webhook.respond, he]
          cases urlValid <;> trivial
  · exact h

theorem Inv.recordStep (host : Host) (h : s.Inv adapter) :
    (next host adapter s (.record id)).Inv adapter := by
  simp only [next]
  split
  · rename_i pending result hphase
    obtain ⟨p, hp⟩ := Option.ne_none_iff_exists'.mp (h.live id pending ⟨_, hphase, rfl⟩).2
    obtain ⟨hvalid, hrecord⟩ := recordWebhook_ok adapter pending
      (h.valid p hp) (h.free_of_returned hp hphase)
    rw [hp, hrecord]
    exact h.record hp hphase hvalid
  · exact h

theorem Inv.arm (host : Host) (h : s.Inv adapter) (hmanual : adapter.webhookSetup = .manual)
    (checks : Except String Unit) (setupToken : String) :
    (next host adapter s (.arm checks setupToken)).Inv adapter := by
  rcases armProviderWebhookSetup_cases adapter checks setupToken s.provider with
    ⟨e, he⟩ | ⟨p, hp, hweb, hvalid, he⟩
  · simp only [next, he]
    exact h
  · simp only [next, he]
    refine h.setProvider hvalid ?_ ?_ ?_
    · intro hauto
      rw [hmanual] at hauto
      cases hauto
    · intro w hw
      rw [World.pending, hp]
      exact hw
    · intro w hw
      rw [World.webhook, hp, Option.bind_some, hweb] at hw
      cases hw

theorem Inv.confirm (host : Host) (h : s.Inv adapter) (checks : Except String Unit) :
    (next host adapter s (.confirm checks)).Inv adapter := by
  rcases confirmProviderWebhookVerification_cases adapter checks s.provider with
    ⟨e, he⟩ | ⟨p, channel, hp, hweb, hvalid, he⟩
  · simp only [next, he]
    exact h
  · simp only [next, he]
    refine h.setProvider hvalid ?_ ?_ ?_
    · intro hauto
      have harmed := h.unarmed hauto
      rw [World.armed, hp] at harmed
      exact harmed
    · intro w hw
      rw [World.pending, hp]
      exact hw
    · intro w hw
      rw [World.webhook, hp, Option.bind_some, hweb] at hw
      obtain rfl := Option.some.inj hw
      exact ⟨_, rfl, rfl, rfl⟩

theorem Inv.capture (host : Host) (h : s.Inv adapter) (id : Nat) (call : VerifyCall) :
    (next host adapter s (.capture id call)).Inv adapter := by
  simp only [next]
  split
  · rename_i request hphase
    rcases captureVerification_cases adapter request call s.provider with
      ⟨e, he⟩ | ⟨p, token, channel, hp, hweb, htoken, hrequest, hvalid, he⟩
    · rw [he]
      rw [List.append_nil]
      exact ⟨h.valid, h.unarmed, h.started, h.ids, h.nonces, h.live, h.owned, h.mindful,
        h.captures, h.ended, h.last⟩
    · have hfresh : s.webhook = none := by rw [World.webhook, hp]; exact hweb
      have hset := h.setProvider hvalid (fun _ => rfl)
        (by
          intro w hw
          rw [World.pending, hp]
          exact hw)
        (by
          intro w hw
          rw [hfresh] at hw
          cases hw)
      have hnil : s.captured = [] := by
        by_contra hne
        exact h.captures.2 hne hfresh
      rw [he, hrequest, hnil]
      refine ⟨hset.valid, hset.unarmed, hset.started, hset.ids, hset.nonces, hset.live,
        hset.owned, hset.mindful, ⟨Nat.le_refl 1, ?_⟩, hset.ended, hset.last⟩
      rintro - ⟨⟩
  · exact h

/-- **Every step keeps the invariant.** -/
theorem Inv.step {a : Action} (h : s.Inv adapter) (ha : (webhooks host adapter).enabled s a) :
    ((webhooks host adapter).next s a).Inv adapter := by
  cases a with
  | prepare id env => exact h.prepare ha
  | respond id urlValid call => exact Inv.respond host h
  | record id => exact Inv.recordStep host h
  | arm checks setupToken => exact Inv.arm host h (of_decide_eq_true ha) checks setupToken
  | confirm checks => exact Inv.confirm host h checks
  | verify id checks request call =>
      exact ⟨h.valid, h.unarmed, h.started, h.ids, h.nonces, h.live, h.owned, h.mindful,
        h.captures, h.ended, h.last⟩
  | capture id call => exact Inv.capture host h id call
  | tick ms =>
      exact ⟨h.valid, h.unarmed, h.started, h.ids, h.nonces, h.live, h.owned, h.mindful,
        h.captures, h.ended, h.last⟩

end World

/-! ## What holds -/

/-- An entry to start from: valid, without a pending channel, and armed only if its
    adapter is manual. -/
structure Startable (adapter : Adapter D) (provider : Option (ProviderState D)) : Prop where
  valid : ∀ p, provider = some p → validProviderState p = true
  idle : provider.bind ProviderState.pendingWebhook = none
  unarmed : adapter.webhookSetup = .automatic →
    provider.bind ProviderState.webhookSetupToken = none

theorem Startable.inv {provider : Option (ProviderState D)} (h : Startable adapter provider)
    (clock : Int) : (World.start clock provider).Inv adapter where
  valid := h.valid
  unarmed := h.unarmed
  started := by
    intro m hm
    cases hm
  ids := List.nodup_nil
  nonces := List.nodup_nil
  live := by
    rintro id p ⟨phase, hphase, -⟩
    cases hphase
  owned := by
    intro p hp
    have hidle : (World.start clock provider).pending = none := h.idle
    rw [hidle] at hp
    cases hp
  mindful := by
    intro id phase hphase
    cases hphase
  captures := ⟨Nat.zero_le 1, fun hne => absurd rfl hne⟩
  ended := by
    intro r hr
    cases hr
  last := by
    intro r hr
    cases hr

/-- A pending channel stays, or a set-up replaces it with its own, or the set-up that
    has minted it clears it. -/
def PendingKept (s t : World D) (a : Action) : Prop :=
  ∀ p, s.pending = some p → t.pending = some p
    ∨ (∃ id env, a = .prepare id env ∧ t.pending = some env.minted)
    ∨ ∃ id, a = .record id ∧ (id, p) ∈ s.minted ∧ t.pending = none

/-- What a set-up is not about, the registration included. -/
def otherFields (p : ProviderState D) :
    Option String × Option String × Option WebhookChannel × Option (List EnrollmentRecord)
      × Option D × List (String × Engine.SourceState) × Option ProviderAccount :=
  (p.cursor, p.webhookSetupToken, p.webhook, p.enrollment, p.adapterData, p.sources, p.account)

/-- A step of a set-up that has not succeeded with it changes the tokens and the pending
    channel at most; a capture or an activation that fails changes nothing. -/
def FailureKeeps (adapter : Adapter D) (s t : World D) (a : Action) : Prop :=
  (∀ id, a.setup = some id → (∀ ch, t.setups id ≠ some (.ended (.ok ch))) →
      t.provider.map otherFields = s.provider.map otherFields)
    ∧ (∀ id call, a = .capture id call →
      (∀ v, t.verifications id ≠ some (.ended (.ok v))) → t.provider = s.provider)
    ∧ (∀ checks token, a = .arm checks token →
      (armProviderWebhookSetup adapter checks token s.provider).1.isSome = true →
        t.provider = s.provider)
    ∧ ∀ checks, a = .confirm checks →
      (confirmProviderWebhookVerification adapter checks s.provider).1.isSome = true →
        t.provider = s.provider

def CapturesArmed (s t : World D) : Prop :=
  t.captured = s.captured
    ∨ s.webhook = none ∧ ∃ token, s.armed = some token ∧ t.captured = s.captured ++ [token]

def RecordedInOrder (s : World D) : Prop :=
  (s.recorded.map Prod.fst).Sublist (s.minted.map Prod.fst)

variable {s : World D} {a : Action}

theorem pendingKept_next (h : s.Inv adapter) (ha : (webhooks host adapter).enabled s a) :
    PendingKept s ((webhooks host adapter).next s a) a := by
  intro p hp
  obtain ⟨q, hq, hqp⟩ : ∃ q, s.provider = some q ∧ q.pendingWebhook = some p :=
    Option.bind_eq_some_iff.mp hp
  cases a with
  | prepare id env =>
      obtain ⟨r, ⟨_, _, _, _, rfl⟩, hcases⟩ := prepareWebhook_cases host adapter env s.clock q
      rw [← hq] at hcases
      rcases hcases with ⟨e, he⟩ | he | ⟨he, -⟩
      · left
        show (World.next host adapter s (.prepare id env)).pending = _
        rw [World.next_prepare he rfl]
        exact hqp
      · left
        show (World.next host adapter s (.prepare id env)).pending = _
        rw [World.next_prepare he rfl]
        exact hqp
      · right; left
        refine ⟨id, env, rfl, ?_⟩
        show (World.next host adapter s (.prepare id env)).pending = _
        simp only [World.next, he]
        rfl
  | respond id urlValid call =>
      left
      show (World.next host adapter s (.respond id urlValid call)).pending = _
      simp only [World.next]
      split
      · exact hp
      · exact hp
  | record id =>
      show _ ∨ _ ∨ _
      simp only [webhooks, World.next]
      split
      · rename_i pending result hphase
        obtain ⟨hvalid, hrecord⟩ := recordWebhook_ok adapter pending
          (h.valid q hq) (h.free_of_returned hq hphase)
        rw [hq, hrecord]
        by_cases hnonce : q.pendingWebhook.map PendingWebhook.nonce = some pending.nonce
        · right; right
          refine ⟨id, rfl, ?_, if_pos hnonce⟩
          -- the same nonce was minted by one set-up only
          obtain ⟨id', hlive⟩ := h.owned p hp
          have hmem := (h.live id' p hlive).1
          have hmine := (h.live id pending ⟨_, hphase, rfl⟩).1
          rw [hqp] at hnonce
          have heq : (id', p) = (id, pending) :=
            List.inj_on_of_nodup_map h.nonces hmem hmine (Option.some.inj hnonce)
          rw [← (Prod.mk.inj heq).1]
          exact hmem
        · left
          exact (if_neg hnonce).trans hqp
      · left
        exact hp
  | arm checks setupToken =>
      left
      show (World.next host adapter s (.arm checks setupToken)).pending = _
      rcases armProviderWebhookSetup_cases adapter checks setupToken s.provider with
        ⟨e, he⟩ | ⟨r, hr, -, -, he⟩
      · simp only [World.next, he]
        exact hp
      · rw [hq] at hr
        obtain rfl := Option.some.inj hr
        simp only [World.next, he]
        exact hqp
  | confirm checks =>
      left
      show (World.next host adapter s (.confirm checks)).pending = _
      rcases confirmProviderWebhookVerification_cases adapter checks s.provider with
        ⟨e, he⟩ | ⟨r, channel, hr, -, -, he⟩
      · simp only [World.next, he]
        exact hp
      · rw [hq] at hr
        obtain rfl := Option.some.inj hr
        simp only [World.next, he]
        exact hqp
  | verify id checks request call => exact Or.inl hp
  | capture id call =>
      left
      show (World.next host adapter s (.capture id call)).pending = _
      simp only [World.next]
      split
      · rename_i request _
        rcases captureVerification_cases adapter request call s.provider with
          ⟨e, he⟩ | ⟨r, token, channel, hr, -, -, -, -, he⟩
        · rw [he]
          exact hp
        · rw [hq] at hr
          obtain rfl := Option.some.inj hr
          rw [he]
          exact hqp
      · exact hp
  | tick ms => exact Or.inl hp

theorem failureKeeps_next (h : s.Inv adapter) :
    FailureKeeps adapter s ((webhooks host adapter).next s a) a := by
  refine ⟨?_, ?_, ?_, ?_⟩
  · intro id hid hfails
    cases a with
    | prepare id' env =>
        show (World.next host adapter s (.prepare id' env)).provider.map otherFields = _
        cases hq : s.provider with
        | none =>
            obtain ⟨e, he⟩ := World.prepareWebhook_none host adapter env s.clock
            rw [← hq] at he
            rw [World.next_prepare he rfl]
            show s.provider.map otherFields = _
            rw [hq]
        | some q =>
            obtain ⟨r, ⟨_, _, _, _, rfl⟩, hcases⟩ :=
              prepareWebhook_cases host adapter env s.clock q
            rw [← hq] at hcases
            rcases hcases with ⟨e, he⟩ | he | ⟨he, -⟩
            · rw [World.next_prepare he rfl]
              rfl
            · rw [World.next_prepare he rfl]
              rfl
            · simp only [World.next, he]
              rfl
    | respond id' urlValid call =>
        show (World.next host adapter s (.respond id' urlValid call)).provider.map _ = _
        simp only [World.next]
        split <;> rfl
    | record id' =>
        obtain rfl := Option.some.inj hid
        replace hfails : ∀ ch, (World.next host adapter s (.record id')).setups id'
            ≠ some (.ended (.ok ch)) := hfails
        show (World.next host adapter s (.record id')).provider.map _ = _
        simp only [World.next] at hfails ⊢
        split
        · rename_i pending result hphase
          obtain ⟨q, hq⟩ := Option.ne_none_iff_exists'.mp (h.live id' pending ⟨_, hphase, rfl⟩).2
          obtain ⟨hvalid, hrecord⟩ := recordWebhook_ok adapter pending
            (h.valid q hq) (h.free_of_returned hq hphase)
          simp only [hphase, hq, hrecord] at hfails ⊢
          cases result with
          | error e => rfl
          | ok ch => exact absurd (Function.update_self _ _ _) (hfails ch)
        · rfl
    | arm checks token => cases hid
    | confirm checks => cases hid
    | verify id' checks request call => cases hid
    | capture id' call => cases hid
    | tick ms => cases hid
  · rintro id call rfl hfails
    replace hfails : ∀ v, (World.next host adapter s (.capture id call)).verifications id
        ≠ some (.ended (.ok v)) := hfails
    show (World.next host adapter s (.capture id call)).provider = _
    simp only [World.next] at hfails ⊢
    split
    · rename_i request hphase
      rcases captureVerification_cases adapter request call s.provider with
        ⟨e, he⟩ | ⟨r, token, channel, hr, -, -, -, -, he⟩
      · rw [he]
      · simp only [hphase, he] at hfails
        exact absurd (Function.update_self _ _ _) (hfails (.verification channel))
    · rfl
  · rintro checks token rfl hfails
    show (armProviderWebhookSetup adapter checks token s.provider).2 = _
    rcases armProviderWebhookSetup_cases adapter checks token s.provider with
      ⟨e, he⟩ | ⟨r, hr, -, -, he⟩
    · rw [he]
    · rw [he] at hfails
      cases hfails
  · rintro checks rfl hfails
    show (confirmProviderWebhookVerification adapter checks s.provider).2 = _
    rcases confirmProviderWebhookVerification_cases adapter checks s.provider with
      ⟨e, he⟩ | ⟨r, channel, hr, -, -, he⟩
    · rw [he]
    · rw [he] at hfails
      cases hfails

theorem capturesArmed_next (a : Action) : CapturesArmed s ((webhooks host adapter).next s a) := by
  cases a with
  | capture id call =>
      show CapturesArmed s (World.next host adapter s (.capture id call))
      simp only [World.next]
      split
      · rename_i request _
        rcases captureVerification_cases adapter request call s.provider with
          ⟨e, he⟩ | ⟨p, token, channel, hp, hweb, htoken, hrequest, -, he⟩
        · left
          rw [he]
          exact List.append_nil _
        · right
          refine ⟨?_, token, ?_, ?_⟩
          · rw [World.webhook, hp]
            exact hweb
          · rw [World.armed, hp]
            exact htoken
          · rw [he, hrequest]
            rfl
      · exact Or.inl rfl
  | prepare id env => exact Or.inl rfl
  | respond id urlValid call =>
      left
      show (World.next host adapter s (.respond id urlValid call)).captured = _
      simp only [World.next]
      split <;> rfl
  | record id =>
      left
      show (World.next host adapter s (.record id)).captured = _
      simp only [World.next]
      split <;> rfl
  | arm checks token => exact Or.inl rfl
  | confirm checks => exact Or.inl rfl
  | verify id checks request call => exact Or.inl rfl
  | tick ms => exact Or.inl rfl

theorem filter_mem_of_sublist {l m : List Nat} (h : l.Sublist m) (hm : m.Nodup) :
    m.filter (· ∈ l) = l := by
  induction h with
  | slnil => rfl
  | @cons l m a h ih =>
      obtain ⟨ha, hm'⟩ := List.nodup_cons.mp hm
      rw [List.filter_cons_of_neg (by simpa using fun hal => ha (h.subset hal)), ih hm']
  | @cons_cons l m a h ih =>
      obtain ⟨ha, hm'⟩ := List.nodup_cons.mp hm
      rw [List.filter_cons_of_pos (by simp)]
      congr 1
      rw [← ih hm']
      apply List.filter_congr
      intro b hb
      have hne : b ≠ a := fun hba => ha (hba ▸ hb)
      simp [hne, ih hm']

/-- **One token, one webhook.**  In every interleaving a pending channel is cleared only
    by the set-up that has minted it, and none is left when every set-up has ended; at
    most one verification is captured, with the armed token and where no webhook is
    registered; a step of a set-up that fails changes the tokens and the pending channel
    at most; and where the set-ups have recorded in the order in which they minted, the
    registration is that of the one that has minted last. -/
theorem one_token_one_webhook (host : Host) (adapter : Adapter D) {clock : Int}
    {provider : Option (ProviderState D)} (hstart : Startable adapter provider)
    {s : World D} (h : (webhooks host adapter).Reach (World.start clock provider) s) :
    (∀ a, (webhooks host adapter).enabled s a → PendingKept s ((webhooks host adapter).next s a) a
          ∧ FailureKeeps adapter s ((webhooks host adapter).next s a) a
          ∧ CapturesArmed s ((webhooks host adapter).next s a))
      ∧ (s.AllEnded → s.pending = none)
      ∧ s.captured.length ≤ 1
      ∧ ∀ id ch, (id, ch) ∈ s.recorded → RecordedInOrder s →
        ((s.minted.map Prod.fst).filter (· ∈ s.recorded.map Prod.fst)).getLast? = some id →
          s.Registered ch := by
  have hinv : s.Inv adapter := Machine.reach_invariant (fun _ _ hi ha => hi.step ha)
    (hstart.inv clock) h
  refine ⟨?_, ?_, hinv.captures.1, ?_⟩
  · intro a ha
    exact ⟨pendingKept_next hinv ha, failureKeeps_next hinv, capturesArmed_next a⟩
  · intro hended
    by_contra hne
    obtain ⟨p, hp⟩ := Option.ne_none_iff_exists'.mp hne
    obtain ⟨id, phase, hphase, hlive⟩ := hinv.owned p hp
    obtain ⟨result, rfl⟩ := hended id phase hphase
    cases hlive
  · intro id ch hmem horder hlast
    rw [filter_mem_of_sublist horder hinv.ids, List.getLast?_map, Option.map_eq_some_iff] at hlast
    obtain ⟨r, hr, rfl⟩ := hlast
    -- a set-up has recorded one channel
    have hch := hinv.ended r (List.mem_of_getLast? hr)
    rw [hinv.ended (r.1, ch) hmem] at hch
    have heq : ch = r.2 := by
      have hphase := Option.some.inj hch
      simpa using hphase
    rw [heq]
    exact hinv.last r hr

/-! ## Runs -/

private def google : Adapter Nat := ⟨.google, .automatic, none⟩

private def connected : ProviderState Nat where
  accessToken := "old"
  refreshToken := "old"
  accessTokenExpiresAt := some "past"

private theorem startable_connected : Startable google (some connected) where
  valid := by
    decide
  idle := rfl
  unarmed := fun _ => rfl

private def refreshing (nonce : String) : Preparing where
  checks := .ok ()
  credentials := .ok ()
  refreshTokens := some (.ok ⟨"new", "new", none, none⟩)
  minted := ⟨nonce, "secret"⟩

private def setUp (call : RemoteCall) : List Action :=
  [.prepare 0 (refreshing "n0"), .respond 0 true call, .record 0]

private def channel : WebhookChannel := ⟨"c", "s", none, none, none⟩

/-- A set-up that succeeds leaves its registration and nothing pending. -/
theorem setup_registers : ∃ s, (webhooks Host.numerals google).Reach
      (World.start 0 (some connected)) s
    ∧ s.webhook = some channel ∧ s.captured.length ≤ 1 := by
  obtain ⟨s, hs, hweb⟩ : ∃ s, (webhooks Host.numerals google).Reach
      (World.start 0 (some connected)) s ∧ decide (s.webhook = some channel) = true :=
    Machine.reach_of_runs_any (l := setUp (.ok channel)) (by decide +kernel)
  exact ⟨s, hs, of_decide_eq_true hweb,
    (one_token_one_webhook Host.numerals google startable_connected hs).2.2.1⟩

/-- **A set-up that fails with new tokens**: the refresh of its first phase stays. -/
theorem failed_setup_refreshes_tokens : ∃ s, (webhooks Host.numerals google).Exec
      (World.start 0 (some connected)) (setUp .failed) s
    ∧ (∃ e, s.setups 0 = some (.ended (.error e)))
    ∧ s.provider.map ProviderState.accessToken = some "new"
    ∧ connected.accessToken = "old" := by
  obtain ⟨s, hs⟩ : ∃ s, (webhooks Host.numerals google).runs
      (World.start 0 (some connected)) (setUp .failed) = some s :=
    Option.isSome_iff_exists.mp (by decide +kernel)
  have hexec := Machine.exec_of_runs hs
  have hend : ((webhooks Host.numerals google).runs (World.start 0 (some connected))
      (setUp .failed)).any (fun s => (s.setups 0).any SetupPhase.hasFailed
        && decide (s.provider.map ProviderState.accessToken = some "new")) = true := by
    decide +kernel
  rw [hs, Option.any_some, Bool.and_eq_true, decide_eq_true_eq] at hend
  obtain ⟨hended, htoken⟩ := hend
  refine ⟨s, hexec, ?_, htoken, rfl⟩
  cases hphase : s.setups 0 with
  | none =>
      rw [hphase] at hended
      cases hended
  | some phase =>
      rw [hphase] at hended
      cases phase with
      | calling snapshot pending => cases hended
      | returned pending result => cases hended
      | ended result =>
          cases result with
          | error e => exact ⟨e, rfl⟩
          | ok ch => cases hended

end Webhook
