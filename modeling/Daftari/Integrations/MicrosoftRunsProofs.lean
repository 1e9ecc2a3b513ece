import Daftari.Integrations.MicrosoftProofs

/-! # Microsoft, over runs — is every live subscription on file?

    Set-ups of the m365 channel, one after another: drives are enrolled in between, and
    subscriptions lapse at Graph.  A set-up goes through the engine's three phases; what it
    returns is recorded where it ends well and the state can be written.

    * `Inv.step`: **an orderly set-up leaves everything that exists at Graph on file**. -/

namespace Microsoft

open Integration Web Webhook

variable {D : Type}

/-! ## A set-up through the engine -/

/-- The adapter: an automatic provider that does not say when its channel is fresh. -/
def m365 : Adapter D := ⟨.m365, .automatic, none⟩

/-- `withPendingToken`, of a URL. -/
def withPendingToken (callbackUrl : Url) (nonce : String) : Url :=
  callbackUrl.setParam "pending_token".toList nonce.toList

/-- A call of `ensureProviderWebhook`: its first phase, what the adapter mints, its input (the
    callback URL, if it is one), what Graph answers, and whether the third phase can read
    and write the state. -/
structure Call where
  env : Preparing
  minted : Minted
  callbackUrl : Option Url
  now : Int
  renewBefore : Int
  answers : Answers
  written : Bool

def Call.input (call : Call) (callbackUrl : Url) (nonce : String) : EnsureWebhookInput where
  callbackUrl := withPendingToken callbackUrl nonce
  now := call.now
  renewBefore := call.renewBefore

/-- The second phase: what the adapter returns, and its requests. -/
def Call.remote (host : Host) (call : Call) (snapshot : ProviderState D) (nonce : String) :
    RemoteCall × List (Request × Answer) :=
  match call.callbackUrl with
  | none => (.failed, [])
  | some url =>
      let r := ensureWebhook host call.minted snapshot (call.input url nonce) call.answers
      (match r.1 with
        | .ok channel => .ok channel
        | .error _ => .failed, r.2)

def Call.result (host : Host) (call : Call) (snapshot : ProviderState D) (nonce : String) :
    Except String WebhookChannel :=
  if call.callbackUrl.isSome then ensured m365 snapshot (call.remote host snapshot nonce).1
  else .error "integration webhook callback URL is invalid"

/-- What a set-up that has ended returns. -/
def outcome : SetupPhase D → Except String WebhookChannel
  | .ended result => result
  | _ => .error "integration webhook setup is not over"

/-- `ensureProviderWebhook`: what it returns, the entry it leaves, and the requests. -/
def ensureProviderWebhook (host : Host) (call : Call) (provider : Option (ProviderState D)) :
    Except String WebhookChannel × Option (ProviderState D) × List (Request × Answer) :=
  let prepared := prepareWebhook host m365 call.env call.now provider
  match prepared.1 with
  | .calling snapshot (some pending) =>
      let requests := (call.remote host snapshot pending.nonce).2
      if call.written then
        let recorded := recordWebhook m365 pending (call.result host snapshot pending.nonce)
          prepared.2
        (outcome recorded.1, recorded.2, requests)
      else (.error "integration state could not be written", prepared.2, requests)
  | phase => (outcome phase, prepared.2, [])

/-! ## Runs -/

/-- The entry in the state file, and what exists at Graph because of the set-ups. -/
structure World (D : Type) where
  provider : Option (ProviderState D)
  graph : Graph

/-- One step: an enrollment, subscriptions that expire or vanish at Graph, or a set-up. -/
inductive Action where
  | enroll (enrollment : List EnrollmentRecord)
  | lapse (gone : List String)
  | ensure (call : Call)

namespace World

/-- Nothing exists yet. -/
def start (provider : Option (ProviderState D)) : World D := ⟨provider, []⟩

def next (host : Host) (s : World D) : Action → World D
  | .enroll enrollment =>
      { s with provider := s.provider.map fun p => { p with enrollment := some enrollment } }
  | .lapse gone => { s with graph := s.graph.filter (· ∉ gone) }
  | .ensure call =>
      let r := ensureProviderWebhook host call s.provider
      { provider := r.2.1, graph := s.graph.run r.2.2 }

def enabled : Action → Bool
  | .ensure call => call.minted.id ≠ "" && call.minted.secret ≠ ""
  | _ => true

def listed (s : World D) : List String :=
  ((s.provider.map existingSubscriptions).getD []).map Subscription.id

end World

def setups (D : Type) (host : Host) : Machine (World D) Action where
  enabled _ a := World.enabled a = true
  next := World.next host

instance (host : Host) (s : World D) (a : Action) : Decidable ((setups D host).enabled s a) :=
  inferInstanceAs (Decidable (World.enabled a = true))

/-! ## Orderly set-ups -/

/-- A set-up in which whatever Graph makes is recorded: where it makes a subscription for one
    of the drives it gets to, no drive stops it, every subscription that it deletes is gone,
    and the channel is written; the expiries are later than the renewals; and without an
    HTTPS callback nothing exists. -/
structure Orderly (host : Host) (call : Call) (snapshot : ProviderState D)
    (input : EnsureWebhookInput) (graph : Graph) : Prop where
  lasting : validHttpsUrl input.callbackUrl = true → ∀ driveId ∈ enrolledDrives snapshot,
    Lasting (setupTerms host call.minted snapshot input) call.answers driveId
  complete : validHttpsUrl input.callbackUrl = true →
    (∃ driveId ∈ reached (stops (setupTerms host call.minted snapshot input) call.answers
        (existingSubscriptions snapshot)) (enrolledDrives snapshot),
      makes (setupTerms host call.minted snapshot input) call.answers
        (existingSubscriptions snapshot) driveId = true) →
    (∀ driveId ∈ enrolledDrives snapshot,
      stops (setupTerms host call.minted snapshot input) call.answers
        (existingSubscriptions snapshot) driveId = false) ∧
    (∀ k s, (existingSubscriptions snapshot)[k]? = some s →
      s.id ∉ claimedSubscriptionIds (existingSubscriptions snapshot) (enrolledDrives snapshot) →
      isGone (call.answers.delete k) = true) ∧
    call.written = true
  unlisted : validHttpsUrl input.callbackUrl = false → call.written = true → graph = []

/-- Every set-up that gets past its first phase is orderly. -/
def Clean (host : Host) (s : World D) : Action → Prop
  | .ensure call => ∀ snapshot pending stored,
      prepareWebhook host m365 call.env call.now s.provider
        = (.calling snapshot (some pending), stored) →
      ∀ url, call.callbackUrl = some url →
        Orderly host call snapshot (call.input url pending.nonce) s.graph
  | _ => True

/-! ## What a set-up leaves -/

variable {host : Host} {call : Call} {p snapshot : ProviderState D} {minted : Minted}
  {input : EnsureWebhookInput} {answers : Answers}

theorem prepareWebhook_m365 (host : Host) (env : Preparing) (now : Int) (p : ProviderState D) :
    ∃ q, TokensOnly p q ∧
      ((∃ e, prepareWebhook host m365 env now (some p) = (.ended (.error e), some q)) ∨
        prepareWebhook host m365 env now (some p)
            = (.calling { q with pendingWebhook := some env.minted } (some env.minted),
              some { q with pendingWebhook := some env.minted }) ∧
          validProviderState { q with pendingWebhook := some env.minted } = true) := by
  obtain ⟨q, htokens, hended | hcalling | hminted⟩ := prepareWebhook_cases host m365 env now p
  · exact ⟨q, htokens, Or.inl hended⟩
  · exfalso
    simp only [prepareWebhook, m365] at hcalling
    cases hchecks : env.checks with
    | error e =>
        rw [hchecks] at hcalling
        cases hcalling
    | ok u =>
        rw [hchecks] at hcalling
        dsimp only at hcalling
        generalize refreshExpiredTokens host _ env p now = refreshed at hcalling
        obtain ⟨result, stored⟩ := refreshed
        cases result with
        | error e => cases hcalling
        | ok refreshed =>
            simp only [Option.map_none, reduceCtorEq, if_false] at hcalling
            split at hcalling
            · cases hcalling
            · cases hcalling
  · exact ⟨q, htokens, Or.inr hminted⟩

variable {provider : Option (ProviderState D)}

/-- **The three phases of a set-up that gets past the first.** -/
theorem ensureProviderWebhook_calling {pending : PendingWebhook}
    (h : prepareWebhook host m365 call.env call.now provider
      = (.calling snapshot (some pending), some snapshot))
    (hvalid : validProviderState snapshot = true) (hfree : snapshot.webhookSetupToken = none) :
    ensureProviderWebhook host call provider
      = (if call.written then call.result host snapshot pending.nonce
          else .error "integration state could not be written",
        some (if call.written then
            recordedState pending (call.result host snapshot pending.nonce) snapshot
          else snapshot),
        (call.remote host snapshot pending.nonce).2) := by
  unfold ensureProviderWebhook
  rw [h]
  cases hwritten : call.written with
  | false => simp
  | true =>
      have hrecord := (recordWebhook_ok m365 pending hvalid
        (fun ch (_ : call.result host snapshot pending.nonce = .ok ch) => hfree)).2
      simp [hrecord, outcome]

/-- A set-up over HTTPS ends well exactly where no drive stops it and every subscription that it
    deletes is gone. -/
theorem ensureWebhook_isOk (hhttps : validHttpsUrl input.callbackUrl = true) :
    (∃ ch, (ensureWebhook host minted p input answers).1 = .ok ch) ↔
      (∀ driveId ∈ enrolledDrives p, stops (setupTerms host minted p input) answers
        (existingSubscriptions p) driveId = false) ∧ ∀ k s, (existingSubscriptions p)[k]? = some s →
        s.id ∉ claimedSubscriptionIds (existingSubscriptions p) (enrolledDrives p) →
        isGone (answers.delete k) = true := by
  have hgone : (deleteOrphans answers (claimedSubscriptionIds (existingSubscriptions p)
      (enrolledDrives p)) 0 (existingSubscriptions p)).1 = .ok () ↔ _ := deleteOrphans_gone _ 0
  simp only [Nat.zero_add] at hgone
  rw [← ensureDrives_stops, ← hgone]
  unfold ensureWebhook
  rw [if_pos hhttps]
  dsimp only
  cases (ensureDrives (setupTerms host minted p input) answers (existingSubscriptions p)
    (enrolledDrives p)).1 with
  | error e => exact iff_of_false nofun (fun h => nomatch h.1)
  | ok subscriptions =>
      cases (deleteOrphans answers (claimedSubscriptionIds (existingSubscriptions p)
        (enrolledDrives p)) 0 (existingSubscriptions p)).1 with
      | error e => exact iff_of_false nofun (fun h => nomatch h.2)
      | ok u => exact iff_of_true ⟨_, rfl⟩ ⟨⟨subscriptions, rfl⟩, rfl⟩

variable {ch : WebhookChannel}

theorem ensureWebhook_ok (hhttps : validHttpsUrl input.callbackUrl = true)
    (h : (ensureWebhook host minted p input answers).1 = .ok ch) :
    ∃ subscriptions log, AllEnsured (setupTerms host minted p input) answers
        (existingSubscriptions p) (enrolledDrives p) subscriptions log ∧
      ch = { id := channelId minted p
             secret := channelSecret minted p
             expiresAt := earliestSubscriptionExpiry host subscriptions
             subscriptions := some subscriptions } ∧
      ∀ graph : Graph, (∀ id ∈ graph, id ∈ (existingSubscriptions p).map Subscription.id) →
        ∀ id ∈ graph.run (ensureWebhook host minted p input answers).2,
          id ∈ subscriptions.map Subscription.id := by
  unfold ensureWebhook at h ⊢
  rw [if_pos hhttps] at h ⊢
  dsimp only at h ⊢
  cases hensured : (ensureDrives (setupTerms host minted p input) answers
      (existingSubscriptions p) (enrolledDrives p)).1 with
  | error e =>
      rw [hensured] at h
      cases h
  | ok subscriptions =>
      have hall := ensureDrives_ok hensured
      rw [hensured] at h
      cases hdeleted : (deleteOrphans answers (claimedSubscriptionIds (existingSubscriptions p)
          (enrolledDrives p)) 0 (existingSubscriptions p)).1 with
      | error e =>
          rw [hdeleted] at h
          cases h
      | ok u =>
          rw [hdeleted] at h
          refine ⟨subscriptions, _, hall, (Except.ok.inj h).symm, fun graph hgraph id hid => ?_⟩
          rw [Graph.run_append] at hid
          obtain ⟨hthere, hclaimed⟩ := deleteOrphans_listed _ 0 _ hid
          rcases hall.listed graph id hthere with hlisted | ⟨hold, hunclaimed⟩
          · exact hlisted
          · exact absurd (hclaimed hdeleted (hgraph id hold)) hunclaimed

theorem ensureWebhook_quiet (hhttps : validHttpsUrl input.callbackUrl = true)
    (h : ∀ driveId ∈ reached (stops (setupTerms host minted p input) answers
        (existingSubscriptions p)) (enrolledDrives p),
      makes (setupTerms host minted p input) answers (existingSubscriptions p) driveId = false)
    (graph : Graph) (hgraph : ∀ id ∈ graph, id ∈ (existingSubscriptions p).map Subscription.id)
    {id : String} (hid : id ∈ graph.run (ensureWebhook host minted p input answers).2) :
    id ∈ (existingSubscriptions p).map Subscription.id := by
  have hfirst : ∀ i ∈ graph.run (ensureDrives (setupTerms host minted p input) answers
      (existingSubscriptions p) (enrolledDrives p)).2,
      i ∈ (existingSubscriptions p).map Subscription.id := by
    intro i hi
    rcases ensureDrives_quiet h graph hi with hold | hlisted
    · exact hgraph i hold
    · exact hlisted
  unfold ensureWebhook at hid
  rw [if_pos hhttps] at hid
  dsimp only at hid
  split at hid
  · exact hfirst id hid
  · split at hid
    · rw [Graph.run_append] at hid
      exact hfirst id (deleteOrphans_listed _ 0 _ hid).1
    · rw [Graph.run_append] at hid
      exact hfirst id (deleteOrphans_listed _ 0 _ hid).1

theorem ensureWebhook_http (h : validHttpsUrl input.callbackUrl = false) :
    ensureWebhook host minted p input answers
      = (.ok { id := channelId minted p, secret := channelSecret minted p
               subscriptions := some [] }, []) := by
  unfold ensureWebhook
  rw [h, if_neg Bool.false_ne_true]

/-! ## Valid channels -/

theorem validWebhookChannel_iff : validWebhookChannel ch = true ↔
    ch.id ≠ "" ∧ ch.secret ≠ "" ∧ ∀ s ∈ ch.subscriptions.getD [], s.id ≠ "" ∧ s.resource ≠ "" := by
  unfold validWebhookChannel
  simp [and_assoc]

def ChannelOk (p : ProviderState D) : Prop :=
  ∀ ch, p.webhook = some ch → validWebhookChannel ch = true

theorem ChannelOk.named (h : ChannelOk p) (hid : minted.id ≠ "") (hsecret : minted.secret ≠ "") :
    channelId minted p ≠ "" ∧ channelSecret minted p ≠ "" := by
  unfold channelId channelSecret
  cases hch : p.webhook with
  | none => exact ⟨hid, hsecret⟩
  | some ch =>
      obtain ⟨hchId, hchSecret, -⟩ := validWebhookChannel_iff.mp (h ch hch)
      exact ⟨hchId, hchSecret⟩

theorem ChannelOk.existing (h : ChannelOk p) :
    ∀ s ∈ existingSubscriptions p, s.id ≠ "" ∧ s.resource ≠ "" := by
  unfold existingSubscriptions
  cases hch : p.webhook with
  | none => exact nofun
  | some ch => exact (validWebhookChannel_iff.mp (h ch hch)).2.2

theorem driveRoot_ne (driveId : String) : driveRoot driveId ≠ "" := by
  intro h
  have hlist := congrArg String.toList h
  simp [driveRoot] at hlist

/-- **What a set-up returns is a valid channel.** -/
theorem ensureWebhook_valid (h : ChannelOk p) (hid : minted.id ≠ "")
    (hsecret : minted.secret ≠ "") (hok : (ensureWebhook host minted p input answers).1 = .ok ch) :
    validWebhookChannel ch = true := by
  obtain ⟨hchId, hchSecret⟩ := h.named hid hsecret
  cases hhttps : validHttpsUrl input.callbackUrl with
  | false =>
      rw [ensureWebhook_http hhttps] at hok
      obtain rfl := Except.ok.inj hok
      exact validWebhookChannel_iff.mpr ⟨hchId, hchSecret, nofun⟩
  | true =>
      obtain ⟨subscriptions, log, hall, rfl, -⟩ := ensureWebhook_ok hhttps hok
      refine validWebhookChannel_iff.mpr ⟨hchId, hchSecret, fun s hs => ⟨?_, ?_⟩⟩
      · rcases hall.named s hs with hexisting | hne | ⟨current, hcurrent, hsame⟩
        · exact (h.existing s hexisting).1
        · exact hne
        · rw [hsame]
          exact (h.existing current hcurrent).1
      · have hmem : s.resource ∈ subscriptions.map Subscription.resource := List.mem_map_of_mem hs
        rw [hall.resources] at hmem
        obtain ⟨driveId, -, hdrive⟩ := List.mem_map.mp hmem
        rw [← hdrive]
        exact driveRoot_ne driveId

/-! ## What holds over runs -/

structure EntryOk (provider : Option (ProviderState D)) : Prop where
  valid : ∀ p, provider = some p → validProviderState p = true
  unarmed : ∀ p, provider = some p → p.webhookSetupToken = none
  channel : ∀ p, provider = some p → ChannelOk p

/-- **Everything that exists at Graph is on file.** -/
structure Inv (s : World D) : Prop where
  listed : ∀ id ∈ s.graph, id ∈ s.listed
  entry : EntryOk s.provider

theorem EntryOk.of_none : EntryOk (none : Option (ProviderState D)) := by
  constructor <;> rintro p' ⟨⟩

variable {q : ProviderState D}

theorem EntryOk.of_some (hvalid : validProviderState q = true)
    (hfree : q.webhookSetupToken = none) (hchannel : ChannelOk q) : EntryOk (some q) := by
  constructor <;> rintro p' ⟨⟩ <;> assumption

theorem EntryOk.start (h : EntryOk provider) : Inv (World.start provider) where
  listed := nofun
  entry := h

theorem tokensOnly_webhook (h : TokensOnly p q) :
    q.webhook = p.webhook ∧ q.enrollment = p.enrollment
      ∧ q.webhookSetupToken = p.webhookSetupToken := by
  obtain ⟨_, _, _, _, rfl⟩ := h
  exact ⟨rfl, rfl, rfl⟩

theorem Call.result_some (host : Host) (snapshot : ProviderState D) {url : Url} (nonce : String)
    (hurl : call.callbackUrl = some url) : (call.remote host snapshot nonce).2
        = (ensureWebhook host call.minted snapshot (call.input url nonce) call.answers).2 ∧
      (∀ ch, (ensureWebhook host call.minted snapshot (call.input url nonce) call.answers).1
        = .ok ch → validWebhookChannel ch = true → call.result host snapshot nonce = .ok ch) ∧
      ∀ ch, call.result host snapshot nonce = .ok ch →
        (ensureWebhook host call.minted snapshot (call.input url nonce) call.answers).1
          = .ok ch := by
  have hvalidOk : ∀ channel, validWebhookChannel channel = true →
      ensured m365 snapshot (.ok channel) = .ok channel := by
    intro channel hvalid
    unfold ensured Adapter.ensureWebhook m365
    dsimp only
    rw [if_pos hvalid]
  have hokSame : ∀ channel ch, ensured m365 snapshot (.ok channel) = .ok ch → channel = ch := by
    intro channel ch hok
    unfold ensured Adapter.ensureWebhook m365 at hok
    dsimp only at hok
    split at hok
    · exact Except.ok.inj hok
    · cases hok
  unfold Call.result Call.remote
  rw [hurl]
  dsimp only
  generalize ensureWebhook host call.minted snapshot (call.input url nonce) call.answers = r
  obtain ⟨result, log⟩ := r
  refine ⟨rfl, ?_, ?_⟩
  · rintro ch rfl hvalid
    exact hvalidOk ch hvalid
  · intro ch hresult
    cases result with
    | error e => cases hresult
    | ok ch' => exact congrArg Except.ok (hokSame ch' ch hresult)

theorem existingSubscriptions_eq (h : q.webhook = p.webhook) :
    existingSubscriptions q = existingSubscriptions p := by
  unfold existingSubscriptions
  rw [h]

variable {s : World D}

theorem Inv.of_sameWebhook (h : Inv s) {graph : Graph} (hp : s.provider = some p)
    (hweb : q.webhook = p.webhook) (hvalid : validProviderState q = true)
    (hfree : q.webhookSetupToken = none)
    (hgraph : ∀ id ∈ graph, id ∈ (existingSubscriptions p).map Subscription.id) :
    Inv (⟨some q, graph⟩ : World D) where
  listed := by
    intro id hid
    show id ∈ (existingSubscriptions q).map Subscription.id
    rw [existingSubscriptions_eq hweb]
    exact hgraph id hid
  entry := by
    refine EntryOk.of_some hvalid hfree fun ch hch => ?_
    rw [hweb] at hch
    exact h.entry.channel p hp ch hch

theorem next_ensure (s : World D) : World.next host s (.ensure call)
    = ⟨(ensureProviderWebhook host call s.provider).2.1,
      s.graph.run (ensureProviderWebhook host call s.provider).2.2⟩ := rfl

theorem ensureProviderWebhook_none :
    (ensureProviderWebhook host call (none : Option (ProviderState D))).2 = (none, []) := by
  unfold ensureProviderWebhook prepareWebhook
  cases call.env.checks <;> rfl

theorem ensureProviderWebhook_ended {stored : Option (ProviderState D)} {e : String}
    (h : prepareWebhook host m365 call.env call.now provider = (.ended (.error e), stored)) :
    ensureProviderWebhook host call provider = (.error e, stored, []) := by
  unfold ensureProviderWebhook
  rw [h]
  rfl

theorem Inv.listed_of_some (h : Inv s) (hp : s.provider = some p) :
    ∀ id ∈ s.graph, id ∈ (existingSubscriptions p).map Subscription.id := by
  intro id hid
  have hmem := h.listed id hid
  unfold World.listed at hmem
  rw [hp] at hmem
  exact hmem

theorem Inv.calling (h : Inv s) (hminted : World.enabled (.ensure call) = true)
    (hp : s.provider = some p)
    (hcalling : prepareWebhook host m365 call.env call.now (some p)
      = (.calling { q with pendingWebhook := some call.env.minted } (some call.env.minted),
        some { q with pendingWebhook := some call.env.minted }))
    (hvalid : validProviderState { q with pendingWebhook := some call.env.minted } = true)
    (hweb : q.webhook = p.webhook) (hfree : q.webhookSetupToken = none)
    (hclean : Clean host s (.ensure call)) :
    Inv (⟨(ensureProviderWebhook host call (some p)).2.1,
      s.graph.run (ensureProviderWebhook host call (some p)).2.2⟩ : World D) := by
  have hlisted := h.listed_of_some hp
  have hminted' : call.minted.id ≠ "" ∧ call.minted.secret ≠ "" := by
    simpa [World.enabled] using hminted
  rw [ensureProviderWebhook_calling hcalling hvalid hfree]
  generalize hsnap : { q with pendingWebhook := some call.env.minted } = snapshot at *
  have hsnapWeb : snapshot.webhook = p.webhook := by rw [← hsnap]; exact hweb
  have hsnapFree : snapshot.webhookSetupToken = none := by rw [← hsnap]; exact hfree
  have hsame := existingSubscriptions_eq hsnapWeb
  have hchannel : ChannelOk snapshot := by
    intro ch hch
    rw [hsnapWeb] at hch
    exact h.entry.channel p hp ch hch
  have hrecorded : ∀ result,
      validProviderState (recordedState call.env.minted result snapshot) = true :=
    fun _ => (recordWebhook_ok m365 call.env.minted hvalid (fun _ _ => hsnapFree)).1
  -- what is not recorded leaves the channel as it was
  have hkept : (call.written = false ∨
        ∀ ch, call.result host snapshot call.env.minted.nonce ≠ .ok ch) →
      (∀ id ∈ s.graph.run (call.remote host snapshot call.env.minted.nonce).2,
        id ∈ (existingSubscriptions p).map Subscription.id) →
      Inv (⟨some (if call.written then recordedState call.env.minted
          (call.result host snapshot call.env.minted.nonce) snapshot else snapshot),
        s.graph.run (call.remote host snapshot call.env.minted.nonce).2⟩ : World D) := by
    intro hnot hgraph
    by_cases hwritten : call.written = true
    · rw [if_pos hwritten]
      refine h.of_sameWebhook hp ?_ (hrecorded _) hsnapFree hgraph
      cases hresult : call.result host snapshot call.env.minted.nonce with
      | error e => exact hsnapWeb
      | ok ch =>
          rcases hnot with hno | hno
          · rw [hwritten] at hno
            cases hno
          · exact absurd hresult (hno ch)
    · rw [if_neg hwritten]
      exact h.of_sameWebhook hp hsnapWeb hvalid hsnapFree hgraph
  -- what is recorded is a valid channel
  have htaken : ∀ ch, call.written = true →
      call.result host snapshot call.env.minted.nonce = .ok ch → validWebhookChannel ch = true →
      (∀ id ∈ s.graph.run (call.remote host snapshot call.env.minted.nonce).2,
        id ∈ (ch.subscriptions.getD []).map Subscription.id) →
      Inv (⟨some (if call.written then recordedState call.env.minted
          (call.result host snapshot call.env.minted.nonce) snapshot else snapshot),
        s.graph.run (call.remote host snapshot call.env.minted.nonce).2⟩ : World D) := by
    intro ch hwritten hresult hch hgraph
    rw [if_pos hwritten, hresult]
    refine ⟨hgraph, EntryOk.of_some (hrecorded _) hsnapFree ?_⟩
    rintro ch' hch'
    obtain rfl := Option.some.inj hch'
    exact hch
  cases hurl : call.callbackUrl with
  | none =>
      refine hkept (Or.inr ?_) ?_
      · unfold Call.result
        rw [hurl]
        exact nofun
      · unfold Call.remote
        rw [hurl]
        exact hlisted
  | some url =>
      obtain ⟨hlog, hto, hfrom⟩ := Call.result_some host snapshot
        call.env.minted.nonce hurl
      have horderly := hclean snapshot call.env.minted (some snapshot) (by rw [hp]; exact hcalling)
        url hurl
      rw [hlog] at hkept htaken ⊢
      cases hhttps : validHttpsUrl (call.input url call.env.minted.nonce).callbackUrl with
      | false =>
          have hcall : ensureWebhook host call.minted snapshot
              (call.input url call.env.minted.nonce) call.answers = _ := ensureWebhook_http hhttps
          have hfst := congrArg Prod.fst hcall
          rw [hcall] at hkept htaken hto ⊢
          by_cases hwritten : call.written = true
          · have hempty := horderly.unlisted hhttps hwritten
            have hch : validWebhookChannel { id := channelId call.minted snapshot
                                             secret := channelSecret call.minted snapshot
                                             subscriptions := some [] } = true :=
              ensureWebhook_valid hchannel hminted'.1 hminted'.2 hfst
            refine htaken _ hwritten (hto _ rfl hch) hch ?_
            rw [hempty]
            exact nofun
          · exact hkept (Or.inl (Bool.not_eq_true _ ▸ hwritten)) hlisted
      | true =>
          rw [← hsame] at hlisted
          -- where nothing new is made, nothing is lost
          have hquiet : (¬ ((∃ ch, (ensureWebhook host call.minted snapshot
                (call.input url call.env.minted.nonce) call.answers).1 = .ok ch) ∧
                call.written = true)) →
              ∀ id ∈ s.graph.run (ensureWebhook host call.minted snapshot
                (call.input url call.env.minted.nonce) call.answers).2,
                id ∈ (existingSubscriptions p).map Subscription.id := by
            intro hnot id hid
            rw [← hsame]
            refine ensureWebhook_quiet hhttps ?_ s.graph hlisted hid
            by_contra hmakes
            push Not at hmakes
            obtain ⟨driveId, hreached, hmade⟩ := hmakes
            obtain ⟨hgo, hgone, hwritten⟩ := horderly.complete hhttps
              ⟨driveId, hreached, Bool.not_eq_false _ ▸ hmade⟩
            exact hnot ⟨(ensureWebhook_isOk hhttps).mpr ⟨hgo, hgone⟩, hwritten⟩
          by_cases hgood : (∃ ch, (ensureWebhook host call.minted snapshot
              (call.input url call.env.minted.nonce) call.answers).1 = .ok ch) ∧
              call.written = true
          · obtain ⟨⟨ch, hch⟩, hwritten⟩ := hgood
            have hchValid := ensureWebhook_valid hchannel hminted'.1 hminted'.2 hch
            obtain ⟨subscriptions, log, -, hchEq, hleft⟩ := ensureWebhook_ok hhttps hch
            refine htaken ch hwritten (hto ch hch hchValid) hchValid ?_
            rw [hchEq]
            exact hleft s.graph hlisted
          · refine hkept ?_ (hquiet hgood)
            rw [not_and_or] at hgood
            rcases hgood with hfailed | hunwritten
            · exact Or.inr fun ch hch => hfailed ⟨ch, hfrom ch hch⟩
            · exact Or.inl (Bool.not_eq_true _ ▸ hunwritten)

/-- **An orderly set-up leaves everything that exists at Graph on file.** -/
theorem Inv.ensure (h : Inv s) (hminted : World.enabled (.ensure call) = true)
    (hclean : Clean host s (.ensure call)) : Inv (World.next host s (.ensure call)) := by
  rw [next_ensure]
  rcases Option.eq_none_or_eq_some s.provider with hp | ⟨p, hp⟩
  · rw [hp, ensureProviderWebhook_none]
    refine ⟨fun id hid => ?_, EntryOk.of_none⟩
    have hlisted := h.listed id hid
    unfold World.listed at hlisted
    rw [hp] at hlisted
    cases hlisted
  · have hlisted : ∀ id ∈ s.graph, id ∈ (existingSubscriptions p).map Subscription.id := by
      intro id hid
      have hmem := h.listed id hid
      unfold World.listed at hmem
      rw [hp] at hmem
      exact hmem
    obtain ⟨q, htokens, hphase⟩ := prepareWebhook_m365 host call.env call.now p
    obtain ⟨hweb, -, htoken⟩ := tokensOnly_webhook htokens
    have hfree := htoken.trans (h.entry.unarmed p hp)
    rw [hp]
    rcases hphase with ⟨e, hended⟩ | ⟨hcalling, hvalid⟩
    · rw [ensureProviderWebhook_ended hended]
      exact h.of_sameWebhook hp hweb (htokens.valid (h.entry.valid p hp)) hfree hlisted
    · exact h.calling hminted hp hcalling hvalid hweb hfree hclean

theorem Inv.step {s : World D} {a : Action} (h : Inv s) (ha : (setups D host).enabled s a)
    (hclean : Clean host s a) : Inv ((setups D host).next s a) := by
  cases a with
  | enroll enrollment =>
      obtain ⟨hlisted, hvalid, hfree, hchannel⟩ := h
      show Inv
        (⟨s.provider.map fun p => { p with enrollment := some enrollment }, s.graph⟩ : World D)
      rcases Option.eq_none_or_eq_some s.provider with hp | ⟨p, hp⟩
      · refine ⟨fun id hid => ?_, ?_⟩
        · have hmem := hlisted id hid
          unfold World.listed at hmem ⊢
          rw [hp] at hmem
          cases hmem
        · rw [hp]
          exact EntryOk.of_none
      · refine ⟨fun id hid => ?_, ?_⟩
        · have hmem := hlisted id hid
          unfold World.listed at hmem ⊢
          rw [hp] at hmem ⊢
          exact hmem
        · rw [hp]
          exact EntryOk.of_some (hvalid p hp) (hfree p hp) (hchannel p hp)
  | lapse gone =>
      exact ⟨fun id hid => h.listed id (List.mem_filter.mp hid).1, h.entry⟩
  | ensure call => exact h.ensure ha hclean

/-! ## What a call that ends well has listed -/

def Enrolled (p : ProviderState D) (driveId : String) : Prop :=
  ∃ record ∈ p.enrollment.getD [], record.driveId = driveId

/-- The channel on file lists every enrolled drive once and no other; every expiry is later
    than the renewals, and the channel's is the earliest of them. -/
structure Covers (host : Host) (s : World D) (ch : WebhookChannel) (renewBefore : Int) : Prop where
  recorded : s.provider.bind ProviderState.webhook = some ch
  once : ∀ p, s.provider = some p → ∀ driveId, Enrolled p driveId →
    ((ch.subscriptions.getD []).map Subscription.resource).count (driveRoot driveId) = 1
  only : ∀ p, s.provider = some p → ∀ sub ∈ ch.subscriptions.getD [],
    ∃ driveId, Enrolled p driveId ∧ sub.resource = driveRoot driveId
  later : ∀ sub ∈ ch.subscriptions.getD [], ∃ t, host.dateParse sub.expiresAt = some t ∧
    renewBefore < t
  earliest : (ch.subscriptions.getD [] = [] ∧ ch.expiresAt = none) ∨
    ∃ sub ∈ ch.subscriptions.getD [], ch.expiresAt = some sub.expiresAt ∧
      ∀ sub' ∈ ch.subscriptions.getD [], NoLater host sub sub'

theorem mem_enrolledDrives {driveId : String} :
    driveId ∈ enrolledDrives p ↔ Enrolled p driveId := by
  unfold enrolledDrives driveIds Enrolled
  rw [List.mem_eraseDups, List.mem_map]

/-- **What a set-up that ends well over HTTPS has listed.** -/
theorem covers_of_ok (h : Inv s) (hclean : Clean host s (.ensure call)) {url : Url}
    (hurl : call.callbackUrl = some url) (hhttps : validHttpsUrl url = true)
    (hok : (ensureProviderWebhook host call s.provider).1 = .ok ch) :
    Covers host (World.next host s (.ensure call)) ch call.renewBefore := by
  rw [next_ensure]
  rcases Option.eq_none_or_eq_some s.provider with hp | ⟨p, hp⟩
  · exfalso
    rw [hp] at hok
    unfold ensureProviderWebhook prepareWebhook at hok
    cases hchecks : call.env.checks with
    | error e =>
        rw [hchecks] at hok
        cases hok
    | ok u =>
        rw [hchecks] at hok
        cases hok
  · obtain ⟨q, htokens, hphase⟩ := prepareWebhook_m365 host call.env call.now p
    obtain ⟨-, -, htoken⟩ := tokensOnly_webhook htokens
    have hfree := htoken.trans (h.entry.unarmed p hp)
    rw [hp] at hok ⊢
    rcases hphase with ⟨e, hended⟩ | ⟨hcalling, hvalid⟩
    · rw [ensureProviderWebhook_ended hended] at hok
      cases hok
    · have hclean' := hclean { q with pendingWebhook := some call.env.minted } call.env.minted _
        (by rw [hp]; exact hcalling) url hurl
      rw [ensureProviderWebhook_calling hcalling hvalid hfree] at hok ⊢
      generalize { q with pendingWebhook := some call.env.minted } = snapshot at *
      dsimp only at hok ⊢
      by_cases hwritten : call.written = true
      · rw [if_pos hwritten] at hok
        rw [if_pos hwritten, hok]
        obtain ⟨-, -, hfrom⟩ := Call.result_some host snapshot
          call.env.minted.nonce hurl
        have hhttps' : validHttpsUrl (call.input url call.env.minted.nonce).callbackUrl = true :=
          hhttps
        obtain ⟨subscriptions, log, hall, rfl, -⟩ := ensureWebhook_ok hhttps' (hfrom ch hok)
        have hfresh := hall.lasting (hclean'.lasting hhttps')
        have hparsed : ∀ sub ∈ subscriptions, ∃ t, host.dateParse sub.expiresAt = some t ∧
            call.renewBefore < t := by
          intro sub hsub
          have hany := hfresh sub hsub
          simp only [setupTerms, Option.any_eq_true, decide_eq_true_iff] at hany
          exact hany
        have hdrives : (enrolledDrives snapshot).Nodup := Groups.nodup_eraseDups _
        refine ⟨rfl, ?_, ?_, hparsed, ?_⟩
        · rintro p' hp' driveId henrolled
          obtain rfl := Option.some.inj hp'
          show (subscriptions.map Subscription.resource).count (driveRoot driveId) = 1
          rw [hall.resources]
          exact List.count_eq_one_of_mem (hdrives.map fun _ _ => driveRoot_injective)
            (List.mem_map_of_mem (mem_enrolledDrives.mpr henrolled))
        · rintro p' hp' sub hsub
          obtain rfl := Option.some.inj hp'
          have hmem : sub.resource ∈ subscriptions.map Subscription.resource :=
            List.mem_map_of_mem hsub
          rw [hall.resources] at hmem
          obtain ⟨driveId, hdrive, heq⟩ := List.mem_map.mp hmem
          exact ⟨driveId, mem_enrolledDrives.mp hdrive, heq.symm⟩
        · exact earliestSubscriptionExpiry_spec fun sub hsub => by
            obtain ⟨t, ht, -⟩ := hparsed sub hsub
            exact ⟨t, ht⟩
      · rw [if_neg hwritten] at hok
        cases hok

/-- **Every live subscription is on file, in every run of orderly set-ups**: whatever exists at
    Graph because of them is listed in the recorded channel, and a set-up that returns a channel
    over HTTPS has listed each enrolled drive once and no other, with expiries later than the
    renewals and the earliest of them as its own. -/
theorem every_live_subscription_listed (host : Host) {provider : Option (ProviderState D)}
    (hstart : EntryOk provider) {s : World D}
    (h : ((setups D host).restrict (Clean host)).Reach (World.start provider) s) :
    (∀ id ∈ s.graph, id ∈ s.listed) ∧
      ∀ call, Clean host s (.ensure call) → ∀ url, call.callbackUrl = some url →
        validHttpsUrl url = true → ∀ ch, (ensureProviderWebhook host call s.provider).1 = .ok ch →
        Covers host (World.next host s (.ensure call)) ch call.renewBefore := by
  have hinv : Inv s := Machine.reach_invariant (fun _ _ hi ha => hi.step ha.1 ha.2)
    hstart.start h
  exact ⟨hinv.listed, fun call hclean url hurl hhttps ch hok =>
    covers_of_ok hinv hclean hurl hhttps hok⟩

/-! ## Runs on fixed answers -/

private def enrolledIn (driveId : String) : EnrollmentRecord :=
  ⟨driveId, .folder, "", "", "", "", driveId, "", none, false, "", "", []⟩

private def connectedDrives : ProviderState Nat where
  accessToken := "token"
  refreshToken := "token"
  enrollment := some [enrolledIn "a", enrolledIn "b"]

private theorem entryOk_connectedDrives : EntryOk (some connectedDrives) := by
  refine EntryOk.of_some (by decide) rfl ?_
  rintro ch ⟨⟩

private def callback : Url := ⟨"https".toList, "h".toList, "/w".toList, none⟩

/-- Graph makes a subscription for the first drive, and for the second as told. -/
private def creating (second : Answer) : Answers where
  create := fun driveId =>
    if driveId = "a" then .response 201 (some "s1") (some (Host.numerals.toISO 9)) else second
  renew := fun _ => .failed "unreachable"
  delete := fun _ => .failed "unreachable"

private def setUpWith (second : Answer) : Call where
  env := ⟨.ok (), .ok (), none, ⟨"n", "p"⟩⟩
  minted := ⟨"c", "s"⟩
  callbackUrl := some callback
  now := 0
  renewBefore := 5
  answers := creating second
  written := true

private def bothMade : Call := setUpWith (.response 201 (some "s2") (some (Host.numerals.toISO 8)))

private def minting : ProviderState Nat :=
  { connectedDrives with pendingWebhook := some ⟨"n", "p"⟩ }

private theorem clean_bothMade :
    Clean Host.numerals (World.start (some connectedDrives)) (.ensure bothMade) := by
  intro snapshot pending stored hphase url hurl
  obtain rfl := Option.some.inj hurl
  have hcalling : ((.calling minting (some ⟨"n", "p"⟩), some minting) :
      SetupPhase Nat × Option (ProviderState Nat)) = (.calling snapshot (some pending), stored) :=
    hphase
  cases hcalling
  refine ⟨fun _ driveId _ => ⟨?_, nofun⟩, fun _ _ => ⟨?_, ?_, rfl⟩, ?_⟩
  · intro status id expiresAt hanswer _
    by_cases hdrive : driveId = "a"
    · subst hdrive
      obtain ⟨-, -, rfl⟩ : status = 201 ∧ id = some "s1" ∧ expiresAt = Host.numerals.toISO 9 := by
        simpa [bothMade, setUpWith, creating, eq_comm] using hanswer
      decide +kernel
    · obtain ⟨-, -, rfl⟩ : status = 201 ∧ id = some "s2" ∧ expiresAt = Host.numerals.toISO 8 := by
        simpa [bothMade, setUpWith, creating, hdrive, eq_comm] using hanswer
      decide +kernel
  · decide +kernel
  · exact nofun
  · intro hhttp
    cases hhttp

/-- The run in which Graph makes both subscriptions is orderly, and covers both drives. -/
theorem every_live_subscription_listed_both : ∃ ch,
    (ensureProviderWebhook Host.numerals bothMade (some connectedDrives)).1 = .ok ch ∧
      Covers Host.numerals
        (World.next Host.numerals (World.start (some connectedDrives)) (.ensure bothMade)) ch
        5 := by
  obtain ⟨ch, hch⟩ : ∃ ch, (ensureProviderWebhook Host.numerals bothMade
      (some connectedDrives)).1 = .ok ch := ⟨_, rfl⟩
  exact ⟨ch, hch, (every_live_subscription_listed Host.numerals entryOk_connectedDrives
    (Machine.Reach.refl _)).2 bothMade clean_bothMade callback rfl rfl ch hch⟩

/-- **A create that fails leaves the one before it unlisted.** -/
theorem failed_create_strands : ∃ s, (setups Nat Host.numerals).Reach
      (World.start (some connectedDrives)) s ∧ "s1" ∈ s.graph ∧ "s1" ∉ s.listed := by
  have henabled : (setups Nat Host.numerals).enabled (World.start (some connectedDrives))
      (.ensure (setUpWith (.response 500 none none))) := rfl
  refine ⟨_, (Machine.Reach.refl _).step henabled, ?_, ?_⟩
  · decide +kernel
  · decide +kernel

end Microsoft
