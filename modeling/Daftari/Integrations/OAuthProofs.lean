import Daftari.Integrations.StateProofs

/-! # Authorizations — state tokens, code exchanges, reconnecting

    `integrations/oauth.ts`: an authorization begins with a state token that is stored
    with its PKCE verifier, and completes by taking the token out of the store before
    the code is exchanged.  Both run under the state lock from end to end.

    * `Session.Inv`: what is minted, what is in the file, what was exchanged;
    * `authorization_single_use`: **a token is exchanged at most once, for its provider,
      in time and with its verifier**. -/

namespace OAuth

open Integration

/-! ## The two operations -/

def oauthStateTtlMilliseconds : Int := 10 * 60 * 1000

structure IntegrationProviderConfig where
  clientIdEnv : String
  clientSecretEnv : String

/-- The input of `adapter.exchangeCode`. -/
structure ExchangeCode where
  code : String
  clientId : String
  clientSecret : String
  callbackNonce : String
  pkceVerifier : String
deriving DecidableEq

inductive ExchangeResult where
  | threw
  | failed
  | ok (tokens : ProviderTokens)

/-- What an operation finds around it: configuration, state key, credentials, adapters,
    whether the file can be read, and which of its writes succeed. -/
structure Deps where
  providerConfig : ProviderName → Except String IntegrationProviderConfig
  stateKey : Except String Unit
  configuredCredential : String → String → Except String String
  adapter : ProviderName → Option (ExchangeCode → ExchangeResult)
  readable : Except String Unit
  writes : Nat → Except String Unit

/-- What is drawn at random for a new authorization. -/
structure Drawn where
  state : String
  pkceVerifier : String
  callbackNonce : String

variable {D : Type} (host : Host) (deps : Deps)

/-- The checks of `beginAuthorization`, before it reads the file. -/
def beginChecks (provider : ProviderName) : Except String Unit := do
  let config ← deps.providerConfig provider
  deps.stateKey
  let _ ← deps.configuredCredential config.clientIdEnv (provider.text ++ " OAuth client ID")
  deps.readable
  deps.writes 0

/-- `beginAuthorization`: the error, if it fails, and the file it leaves. -/
def beginAuthorization (provider : ProviderName) (drawn : Drawn) (now : Int)
    (s : IntegrationState D) : Option String × IntegrationState D :=
  match beginChecks deps provider with
  | .error e => (some e, s)
  | .ok _ =>
      (none, { s with
        oauthStates := s.oauthStates.set drawn.state
          { provider := provider
            callbackNonce := drawn.callbackNonce
            pkceVerifier := drawn.pkceVerifier
            expiresAt := host.toISO (now + oauthStateTtlMilliseconds) } })

/-- `providerState`: the state of a provider after an exchange. -/
def providerState (tokens : ProviderTokens) (previous : Option (ProviderState D))
    (now : Int) : ProviderState D where
  accessToken := tokens.accessToken
  refreshToken := tokens.refreshToken
  sources := (previous.map ProviderState.sources).getD []
  cursor := previous.bind ProviderState.cursor
  webhook := previous.bind ProviderState.webhook
  enrollment := previous.bind ProviderState.enrollment
  account := previous.bind ProviderState.account
  authorization := previous.map fun _ => ⟨.ok, host.toISO now, none⟩
  accessTokenExpiresAt := tokens.accessTokenExpiresAt

/-- What a completion comes to: its error, if it fails; the code it exchanged, if it
    did; the tokens it stored, if it succeeds; and the file it leaves. -/
structure Completion (D : Type) where
  error : Option String
  exchange : Option ExchangeCode
  stored : Option ProviderTokens
  state : IntegrationState D

def exchangeCredentials (provider : ProviderName) (config : IntegrationProviderConfig) :
    Except String (String × String) := do
  let clientId ← deps.configuredCredential config.clientIdEnv
    (provider.text ++ " OAuth client ID")
  let clientSecret ← deps.configuredCredential config.clientSecretEnv
    (provider.text ++ " OAuth client secret")
  .ok (clientId, clientSecret)

/-- The checks of `completeAuthorization` before it looks for the token. -/
def completeChecks (provider : ProviderName) (state code : String) :
    Except String IntegrationProviderConfig := do
  if state = "" ∨ code = "" then .error "OAuth callback is missing state or code"
  else do
    let config ← deps.providerConfig provider
    deps.stateKey
    deps.readable
    .ok config

/-- The tail of a completion: what the exchange returned is stored. -/
def storeTokens (provider : ProviderName) (later : Int) (exchange : ExchangeCode)
    (consumed : IntegrationState D) (result : ExchangeResult) : Completion D :=
  match result with
  | .threw | .failed =>
      ⟨some ("OAuth code exchange failed for " ++ provider.text), some exchange, none, consumed⟩
  | .ok tokens =>
      if tokens.accessToken = "" ∨ tokens.refreshToken = "" then
        ⟨some ("OAuth code exchange returned incomplete tokens for " ++ provider.text),
          some exchange, none, consumed⟩
      else
        match deps.writes 1 with
        | .error e => ⟨some e, some exchange, none, consumed⟩
        | .ok _ =>
            ⟨none, some exchange, some tokens, consumed.setProvider provider
              (providerState host tokens (consumed.providers provider) later)⟩

/-- A completion whose token has been taken out of the file. -/
def exchangeToken (provider : ProviderName) (config : IntegrationProviderConfig)
    (transaction : OAuthState) (code : String) (now later : Int)
    (consumed : IntegrationState D) : Completion D :=
  if (host.dateParse transaction.expiresAt).any (fun expiry => expiry ≤ now) then
    ⟨some "OAuth callback state has expired", none, none, consumed⟩
  else
    match exchangeCredentials deps provider config with
    | .error e => ⟨some e, none, none, consumed⟩
    | .ok (clientId, clientSecret) =>
        match deps.adapter provider with
        | none =>
            ⟨some ("integration provider " ++ provider.text ++ " adapter is unavailable"),
              none, none, consumed⟩
        | some exchangeCode =>
            let exchange : ExchangeCode :=
              { code := code
                clientId := clientId
                clientSecret := clientSecret
                callbackNonce := transaction.callbackNonce
                pkceVerifier := transaction.pkceVerifier }
            storeTokens host deps provider later exchange consumed (exchangeCode exchange)

/-- `completeAuthorization`, at one instant until the exchange and at a later one after it. -/
def completeAuthorization (provider : ProviderName) (state code : String) (now later : Int)
    (s : IntegrationState D) : Completion D :=
  match completeChecks deps provider state code with
  | .error e => ⟨some e, none, none, s⟩
  | .ok config =>
      match s.oauthStates.find state with
      | none => ⟨some "OAuth callback state is invalid or already used", none, none, s⟩
      | some transaction =>
          if transaction.provider ≠ provider then
            ⟨some "OAuth callback state is invalid or already used", none, none, s⟩
          else
            match deps.writes 0 with
            | .error e => ⟨some e, none, none, s⟩
            | .ok _ =>
                exchangeToken host deps provider config transaction code now later
                  { s with oauthStates := s.oauthStates.erase state }

/-! ## Sequences of locked operations -/

structure Exchanged where
  token : String
  provider : ProviderName
  exchange : ExchangeCode
  instant : Int

/-- The clock, the file, and (ghosts) the tokens minted and the codes exchanged. -/
structure Session (D : Type) where
  clock : Int
  state : IntegrationState D
  minted : List (String × OAuthState)
  exchanges : List Exchanged

/-- One locked operation; any other one changes the providers as it likes. -/
inductive Operation (D : Type) where
  | begins (deps : Deps) (provider : ProviderName) (drawn : Drawn)
  | completes (deps : Deps) (provider : ProviderName) (state code : String) (took : Nat)
  | other (edit : (ProviderName → Option (ProviderState D)) →
      ProviderName → Option (ProviderState D))
  | tick (ms : Nat)

namespace Session

/-- What was begun: the entry, if the file has one now. -/
def mint (s : Session D) (token : String) (state : IntegrationState D) : Session D :=
  { s with
    state := state
    minted := s.minted ++ ((state.oauthStates.find token).map fun tx => (token, tx)).toList }

def completion (s : Session D) (deps : Deps) (provider : ProviderName)
    (state code : String) (took : Nat) : Completion D :=
  completeAuthorization host deps provider state code s.clock (s.clock + took) s.state

def next (s : Session D) : Operation D → Session D
  | .begins deps provider drawn =>
      match beginAuthorization host deps provider drawn s.clock s.state with
      | (some _, _) => s
      | (none, state) => s.mint drawn.state state
  | .completes deps provider state code took =>
      let c := s.completion host deps provider state code took
      { s with
        clock := s.clock + took
        state := c.state
        exchanges := s.exchanges ++
          (c.exchange.map fun e => ⟨state, provider, e, s.clock⟩).toList }
  | .other edit => { s with state := { s.state with providers := edit s.state.providers } }
  | .tick ms => { s with clock := s.clock + ms }

/-- What is drawn at random has not been drawn before. -/
def enabled (s : Session D) : Operation D → Bool
  | .begins _ _ drawn => decide (drawn.state ∉ Assoc.keys s.minted)
  | _ => true

/-- The tokens in the file at the start were minted before. -/
def start (clock : Int) (state : IntegrationState D) : Session D :=
  ⟨clock, state, state.oauthStates.entries, []⟩

end Session

/-- **Any sequence of operations.** -/
def authorizations : Machine (Session D) (Operation D) where
  enabled s a := s.enabled a = true
  next := Session.next host

instance (s : Session D) (a : Operation D) :
    Decidable ((authorizations (D := D) host).enabled s a) :=
  inferInstanceAs (Decidable (s.enabled a = true))

variable {host}

/-! ## One completion -/

/-- The tail of a completion has exchanged a code: it fails, and the file stays, or it
    stores what came back. -/
theorem storeTokens_cases (host : Host) (deps : Deps) (provider : ProviderName) (later : Int)
    (consumed : IntegrationState D) (exchange : ExchangeCode) (result : ExchangeResult) :
    let c := storeTokens host deps provider later exchange consumed result
    c.exchange = some exchange
      ∧ (c.stored = none ∧ c.error.isSome = true ∧ c.state = consumed
        ∨ ∃ tokens, c.stored = some tokens ∧ c.error = none
          ∧ c.state = consumed.setProvider provider
            (providerState host tokens (consumed.providers provider) later)) := by
  cases result with
  | threw => exact ⟨rfl, Or.inl ⟨rfl, rfl, rfl⟩⟩
  | failed => exact ⟨rfl, Or.inl ⟨rfl, rfl, rfl⟩⟩
  | ok tokens =>
      simp only [storeTokens]
      split
      · exact ⟨rfl, Or.inl ⟨rfl, rfl, rfl⟩⟩
      · split
        · exact ⟨rfl, Or.inl ⟨rfl, rfl, rfl⟩⟩
        · exact ⟨rfl, Or.inr ⟨tokens, rfl, rfl, rfl⟩⟩

/-- A consumed token: it has expired, or something is missing, and nothing is exchanged;
    or its verifier is. -/
theorem exchangeToken_cases (host : Host) (deps : Deps) (provider : ProviderName)
    (code : String) (now later : Int) (consumed : IntegrationState D)
    (config : IntegrationProviderConfig) (tx : OAuthState) :
    let c := exchangeToken host deps provider config tx code now later consumed
    (c.exchange = none ∧ c.stored = none ∧ c.error.isSome = true ∧ c.state = consumed)
      ∨ (∀ expiry, host.dateParse tx.expiresAt = some expiry → now < expiry)
        ∧ ∃ exchange result, exchange.pkceVerifier = tx.pkceVerifier
          ∧ exchange.callbackNonce = tx.callbackNonce
          ∧ c = storeTokens host deps provider later exchange consumed result := by
  simp only [exchangeToken]
  split
  · exact Or.inl ⟨rfl, rfl, rfl, rfl⟩
  · rename_i htime
    split
    · exact Or.inl ⟨rfl, rfl, rfl, rfl⟩
    · split
      · exact Or.inl ⟨rfl, rfl, rfl, rfl⟩
      · refine Or.inr ⟨?_, _, _, rfl, rfl, rfl⟩
        intro expiry hexpiry
        rw [hexpiry, Option.any_some, decide_eq_true_eq] at htime
        exact Int.not_le.mp htime

/-- A completion: it fails before it takes a token out of the file, or it goes on with
    a token of its provider. -/
theorem completeAuthorization_cases (host : Host) (deps : Deps) (provider : ProviderName)
    (state code : String) (now later : Int) (s : IntegrationState D) :
    let c := completeAuthorization host deps provider state code now later s
    (c.exchange = none ∧ c.stored = none ∧ c.error.isSome = true ∧ c.state = s)
      ∨ ∃ config tx, s.oauthStates.find state = some tx ∧ tx.provider = provider
        ∧ c = exchangeToken host deps provider config tx code now later
          { s with oauthStates := s.oauthStates.erase state } := by
  simp only [completeAuthorization]
  split
  · exact Or.inl ⟨rfl, rfl, rfl, rfl⟩
  · rename_i config _
    split
    · exact Or.inl ⟨rfl, rfl, rfl, rfl⟩
    · rename_i tx htx
      split
      · exact Or.inl ⟨rfl, rfl, rfl, rfl⟩
      · rename_i hprovider
        split
        · exact Or.inl ⟨rfl, rfl, rfl, rfl⟩
        · exact Or.inr ⟨config, tx, htx, Decidable.not_not.mp hprovider, rfl⟩

/-- What a completion does to the session's file and whom it asks. -/
structure Completion.Described (c : Completion D) (host : Host) (provider : ProviderName)
    (state : String) (now later : Int) (s : IntegrationState D) : Prop where
  states : c.state.oauthStates = s.oauthStates
    ∨ c.state.oauthStates = s.oauthStates.erase state
  exchanged : ∀ e, c.exchange = some e → ∃ tx, s.oauthStates.find state = some tx
    ∧ tx.provider = provider ∧ e.pkceVerifier = tx.pkceVerifier
    ∧ e.callbackNonce = tx.callbackNonce
    ∧ (∀ expiry, host.dateParse tx.expiresAt = some expiry → now < expiry)
    ∧ c.state.oauthStates = s.oauthStates.erase state
  fails : c.error.isSome = true → c.stored = none ∧ c.state.providers = s.providers
  stores : ∀ tokens, c.stored = some tokens → c.error = none
    ∧ c.state.providers = Function.update s.providers provider
      (some (providerState host tokens (s.providers provider) later))

/-- **A completion, as it is described.** -/
theorem completeAuthorization_described (host : Host) (deps : Deps) (provider : ProviderName)
    (state code : String) (now later : Int) (s : IntegrationState D) :
    (completeAuthorization host deps provider state code now later s).Described host provider
      state now later s := by
  rcases completeAuthorization_cases host deps provider state code now later s with
    ⟨hexchange, hstored, herror, hstate⟩ | ⟨config, tx, htx, hprovider, hc⟩
  · refine ⟨Or.inl (by rw [hstate]), ?_, fun _ => ⟨hstored, by rw [hstate]⟩, ?_⟩
    · intro e he
      rw [hexchange] at he
      cases he
    · intro tokens htokens
      rw [hstored] at htokens
      cases htokens
  · rw [hc]
    rcases exchangeToken_cases host deps provider code now later
        { s with oauthStates := s.oauthStates.erase state } config tx with
      ⟨hexchange, hstored, herror, hstate⟩ | ⟨htime, exchange, result, hverifier, hnonce, hc'⟩
    · refine ⟨Or.inr (by rw [hstate]), ?_, fun _ => ⟨hstored, by rw [hstate]⟩, ?_⟩
      · intro e he
        rw [hexchange] at he
        cases he
      · intro tokens htokens
        rw [hstored] at htokens
        cases htokens
    · rw [hc']
      obtain ⟨hexchange, hrest⟩ := storeTokens_cases host deps provider later
        { s with oauthStates := s.oauthStates.erase state } exchange result
      have hstates : (storeTokens host deps provider later exchange
          { s with oauthStates := s.oauthStates.erase state } result).state.oauthStates
          = s.oauthStates.erase state := by
        rcases hrest with ⟨-, -, hstate⟩ | ⟨tokens, -, -, hstate⟩
        · rw [hstate]
        · rw [hstate]
          rfl
      refine ⟨Or.inr hstates, ?_, ?_, ?_⟩
      · intro e he
        rw [hexchange] at he
        obtain rfl := Option.some.inj he
        exact ⟨tx, htx, hprovider, hverifier, hnonce, htime, hstates⟩
      · intro herror
        rcases hrest with ⟨hstored, -, hstate⟩ | ⟨tokens, -, hnone, -⟩
        · exact ⟨hstored, by rw [hstate]⟩
        · rw [hnone] at herror
          cases herror
      · intro tokens htokens
        rcases hrest with ⟨hnone, -, -⟩ | ⟨tokens', hstored, herror, hstate⟩
        · rw [hnone] at htokens
          cases htokens
        · rw [hstored] at htokens
          obtain rfl := Option.some.inj htokens
          exact ⟨herror, by rw [hstate]; rfl⟩

/-! ## Every run -/

/-- A code was exchanged for a token that was minted for the provider, with its
    verifier and in time. -/
def Exchanged.Sound (host : Host) (minted : List (String × OAuthState)) (x : Exchanged) : Prop :=
  ∃ tx, (x.token, tx) ∈ minted ∧ tx.provider = x.provider
    ∧ x.exchange.pkceVerifier = tx.pkceVerifier
    ∧ x.exchange.callbackNonce = tx.callbackNonce
    ∧ ∀ expiry, host.dateParse tx.expiresAt = some expiry → x.instant < expiry

theorem Exchanged.Sound.append {minted : List (String × OAuthState)} {x : Exchanged}
    (h : x.Sound host minted) (more : List (String × OAuthState)) :
    x.Sound host (minted ++ more) := by
  obtain ⟨tx, htx, hrest⟩ := h
  exact ⟨tx, List.mem_append_left _ htx, hrest⟩

namespace Session

def exchangedTokens (s : Session D) : List String := s.exchanges.map Exchanged.token

/-- **The invariant**: tokens are minted once; those in the file were minted and have
    not been exchanged; and each exchange is sound, and the only one of its token. -/
structure Inv (host : Host) (s : Session D) : Prop where
  mintedNodup : (Assoc.keys s.minted).Nodup
  pending : ∀ token tx, s.state.oauthStates.find token = some tx →
    (token, tx) ∈ s.minted ∧ token ∉ s.exchangedTokens
  once : s.exchangedTokens.Nodup
  sound : ∀ x ∈ s.exchanges, x.Sound host s.minted

theorem inv_start (clock : Int) (state : IntegrationState D) :
    (start clock state).Inv host where
  mintedNodup := state.oauthStates.nodup
  pending := by
    intro token tx htx
    exact ⟨Table.mem_entries.mpr htx, List.not_mem_nil⟩
  once := List.nodup_nil
  sound := by
    intro x hx
    cases hx

theorem Inv.not_exchanged {s : Session D} (h : s.Inv host) {token : String}
    (hfresh : token ∉ Assoc.keys s.minted) : token ∉ s.exchangedTokens := by
  intro hmem
  obtain ⟨x, hx, rfl⟩ := List.mem_map.mp hmem
  obtain ⟨tx, htx, -⟩ := h.sound x hx
  exact hfresh (List.mem_map.mpr ⟨(x.token, tx), htx, rfl⟩)

/-- **Minting** a fresh token. -/
theorem Inv.mint {s : Session D} (h : s.Inv host) {token : String} {tx : OAuthState}
    (hfresh : token ∉ Assoc.keys s.minted) :
    (s.mint token { s.state with oauthStates := s.state.oauthStates.set token tx }).Inv host := by
  have hminted : (s.mint token
      { s.state with oauthStates := s.state.oauthStates.set token tx }).minted
      = s.minted ++ [(token, tx)] := by
    show s.minted ++ (((s.state.oauthStates.set token tx).find token).map _).toList = _
    rw [Table.find_set_self]
    rfl
  refine ⟨?_, ?_, h.once, ?_⟩
  · rw [hminted]
    show ((s.minted ++ [(token, tx)]).map Prod.fst).Nodup
    rw [List.map_append, List.nodup_append]
    refine ⟨h.mintedNodup, List.nodup_singleton _, ?_⟩
    intro a ha b hb hab
    obtain rfl := List.mem_singleton.mp hb
    exact hfresh (hab ▸ ha)
  · intro token' tx' hfind
    rw [hminted]
    by_cases htoken : token' = token
    · subst htoken
      have hfind' : (s.state.oauthStates.set token' tx).find token' = some tx' := hfind
      rw [Table.find_set_self] at hfind'
      obtain rfl := Option.some.inj hfind'
      exact ⟨List.mem_append_right _ (List.mem_singleton.mpr rfl), h.not_exchanged hfresh⟩
    · have hfind' : (s.state.oauthStates.set token tx).find token' = some tx' := hfind
      rw [Table.find_set_of_ne _ _ htoken] at hfind'
      obtain ⟨hmem, hnot⟩ := h.pending token' tx' hfind'
      exact ⟨List.mem_append_left _ hmem, hnot⟩
  · intro x hx
    exact (h.sound x hx).append _

/-- **Completing**: the token leaves the file, and only then its code is exchanged. -/
theorem Inv.complete {s : Session D} (h : s.Inv host) (deps : Deps) (provider : ProviderName)
    (state code : String) (took : Nat) :
    (next host s (.completes deps provider state code took)).Inv host := by
  have hc := completeAuthorization_described host deps provider state code s.clock
    (s.clock + took) s.state
  -- what is still in the file was in it before
  have hkept : ∀ token tx, (s.completion host deps provider state code
      took).state.oauthStates.find token = some tx →
      s.state.oauthStates.find token = some tx := by
    intro token tx hfind
    rcases hc.states with hsame | herased
    · rw [← hsame]
      exact hfind
    · have hfind' : (s.state.oauthStates.erase state).find token = some tx := herased ▸ hfind
      rw [Table.find_erase] at hfind'
      split at hfind'
      · cases hfind'
      · exact hfind'
  have htokens : (next host s (.completes deps provider state code took)).exchangedTokens
      = s.exchangedTokens ++ ((s.completion host deps provider state code took).exchange.map
        fun _ => state).toList := by
    show (s.exchanges ++ _).map Exchanged.token = _
    rw [List.map_append]
    cases (s.completion host deps provider state code took).exchange <;> rfl
  cases hexchange : (s.completion host deps provider state code took).exchange with
  | none =>
      have hexchanges : (next host s (.completes deps provider state code took)).exchanges
          = s.exchanges := by
        show s.exchanges ++ ((s.completion host deps provider state code took).exchange.map
          _).toList = _
        rw [hexchange]
        exact List.append_nil _
      rw [hexchange] at htokens
      replace htokens : _ = s.exchangedTokens := htokens.trans (List.append_nil _)
      refine ⟨h.mintedNodup, ?_, htokens ▸ h.once, ?_⟩
      · intro token tx hfind
        rw [htokens]
        exact h.pending token tx (hkept token tx hfind)
      · intro x hx
        exact h.sound x (hexchanges ▸ hx)
  | some e =>
      obtain ⟨tx, htx, hprovider, hverifier, hnonce, htime, herased⟩ := hc.exchanged e hexchange
      obtain ⟨hminted, hnew⟩ := h.pending state tx htx
      rw [hexchange] at htokens
      refine ⟨h.mintedNodup, ?_, ?_, ?_⟩
      · intro token tx' hfind
        have hfind' : (s.state.oauthStates.erase state).find token = some tx' :=
          herased ▸ hfind
        have hne : token ≠ state := by
          rintro rfl
          rw [Table.find_erase_self] at hfind'
          cases hfind'
        obtain ⟨hmem, hnot⟩ := h.pending token tx' (hkept token tx' hfind)
        refine ⟨hmem, ?_⟩
        rw [htokens]
        intro hin
        rcases List.mem_append.mp hin with hin | hin
        · exact hnot hin
        · exact hne (List.mem_singleton.mp hin)
      · rw [htokens]
        refine List.nodup_append.mpr ⟨h.once, List.nodup_singleton _, ?_⟩
        intro a ha b hb hab
        obtain rfl := List.mem_singleton.mp hb
        exact hnew (hab ▸ ha)
      · intro x hx
        have hx' : x ∈ s.exchanges
            ++ ((s.completion host deps provider state code took).exchange.map fun e =>
              (⟨state, provider, e, s.clock⟩ : Exchanged)).toList := hx
        rw [hexchange] at hx'
        rcases List.mem_append.mp hx' with hx' | hx'
        · exact h.sound x hx'
        · obtain rfl := List.mem_singleton.mp hx'
          exact ⟨tx, hminted, hprovider, hverifier, hnonce, htime⟩

/-- **Every operation keeps the invariant.** -/
theorem Inv.step {s : Session D} {a : Operation D} (h : s.Inv host)
    (ha : (authorizations host).enabled s a) : ((authorizations host).next s a).Inv host := by
  cases a with
  | begins deps provider drawn =>
      have hfresh : drawn.state ∉ Assoc.keys s.minted := of_decide_eq_true ha
      show (next host s (.begins deps provider drawn)).Inv host
      cases hchecks : beginChecks deps provider with
      | error e =>
          have hnext : next host s (.begins deps provider drawn) = s := by
            simp only [next, beginAuthorization, hchecks]
          rw [hnext]
          exact h
      | ok =>
          simp only [next, beginAuthorization, hchecks]
          exact h.mint hfresh
  | completes deps provider state code took => exact h.complete deps provider state code took
  | other edit => exact ⟨h.mintedNodup, h.pending, h.once, h.sound⟩
  | tick ms => exact ⟨h.mintedNodup, h.pending, h.once, h.sound⟩

end Session

/-! ## Reconnecting -/

/-- A provider's state as a reconnect finds it; before the first one it is empty. -/
def previousOf (previous : Option (ProviderState D)) : ProviderState D :=
  previous.getD ⟨"", "", none, none, none, none, none, none, none, [], none, none⟩

/-- The fields that an authorization is not about. -/
def otherFields (p : ProviderState D) :
    Option String × Option String × Option WebhookChannel × Option PendingWebhook
      × Option (List EnrollmentRecord) × Option D × List (String × Engine.SourceState) :=
  (p.cursor, p.webhookSetupToken, p.webhook, p.pendingWebhook, p.enrollment, p.adapterData,
    p.sources)

/-- The connection is kept: the other providers and the other fields are as they were,
    and the account is the one the exchange returned, if it returned one. -/
def ConnectionKept (provider : ProviderName) (tokens : ProviderTokens)
    (before after : ProviderName → Option (ProviderState D)) : Prop :=
  (∀ other, other ≠ provider → after other = before other)
    ∧ ∃ p, after provider = some p ∧ otherFields p = otherFields (previousOf (before provider))
      ∧ p.account = tokens.account.or (previousOf (before provider)).account

/-- There is nothing in the connection that a reconnect forgets: no adapter data, no
    pending channel, no armed set-up token, and no new account. -/
def NothingForgotten (tokens : ProviderTokens) (previous : Option (ProviderState D)) : Prop :=
  (previousOf previous).adapterData = none ∧ (previousOf previous).pendingWebhook = none
    ∧ (previousOf previous).webhookSetupToken = none
    ∧ (tokens.account = none ∨ tokens.account = (previousOf previous).account)

theorem account_kept_iff (account previous : Option ProviderAccount) :
    previous = account.or previous ↔ account = none ∨ account = previous := by
  cases account with
  | none => simp
  | some a => simp [eq_comm]

/-- **What a reconnect stores keeps the connection exactly when nothing is forgotten.** -/
theorem connectionKept_iff (host : Host) (provider : ProviderName) (tokens : ProviderTokens)
    (later : Int) (before : ProviderName → Option (ProviderState D)) :
    ConnectionKept provider tokens before (Function.update before provider
        (some (providerState host tokens (before provider) later)))
      ↔ NothingForgotten tokens (before provider) := by
  have hothers : ∀ other, other ≠ provider → Function.update before provider
      (some (providerState host tokens (before provider) later)) other = before other :=
    fun other hother => Function.update_of_ne hother _ _
  have hfields : otherFields (providerState host tokens (before provider) later)
      = ((previousOf (before provider)).cursor, none, (previousOf (before provider)).webhook,
        none, (previousOf (before provider)).enrollment, none,
        (previousOf (before provider)).sources) := by
    cases before provider <;> rfl
  have haccount : (providerState host tokens (before provider) later).account
      = (previousOf (before provider)).account := by
    cases before provider <;> rfl
  constructor
  · rintro ⟨-, p, hp, hrest, hkept⟩
    rw [Function.update_self] at hp
    obtain rfl := Option.some.inj hp
    rw [hfields] at hrest
    simp only [otherFields, Prod.mk.injEq, true_and, and_true] at hrest
    rw [haccount, account_kept_iff] at hkept
    exact ⟨hrest.2.2.symm, hrest.2.1.symm, hrest.1.symm, hkept⟩
  · rintro ⟨hdata, hpending, hsetup, hkept⟩
    refine ⟨hothers, _, Function.update_self _ _ _, ?_, ?_⟩
    · rw [hfields]
      simp only [otherFields, hdata, hpending, hsetup]
    · rw [haccount, account_kept_iff]
      exact hkept

/-! ## Any sequence of operations -/

/-- **Authorization is single-use.**  After any sequence of operations each token was
    exchanged at most once, for the provider that it was minted for, in time and with
    its verifier; a completion that fails changes no provider, and one that stores
    tokens keeps the connection exactly when nothing in it is forgotten. -/
theorem authorization_single_use (host : Host) {clock : Int} {file : IntegrationState D}
    {s : Session D} (h : (authorizations host).Reach (Session.start clock file) s) :
    (Assoc.keys s.minted).Nodup ∧ s.exchangedTokens.Nodup
      ∧ (∀ x ∈ s.exchanges, x.Sound host s.minted)
      ∧ ∀ deps provider state code took,
        ((s.completion host deps provider state code took).error.isSome = true →
          (s.completion host deps provider state code took).state.providers
            = s.state.providers)
        ∧ ∀ tokens, (s.completion host deps provider state code took).stored = some tokens →
          (ConnectionKept provider tokens s.state.providers
              (s.completion host deps provider state code took).state.providers
            ↔ NothingForgotten tokens (s.state.providers provider)) := by
  have hinv : s.Inv host := Machine.reach_invariant (fun _ _ hi ha => hi.step ha)
    (Session.inv_start clock file) h
  refine ⟨hinv.mintedNodup, hinv.once, hinv.sound, ?_⟩
  intro deps provider state code took
  have hc := completeAuthorization_described host deps provider state code s.clock
    (s.clock + took) s.state
  refine ⟨fun herror => (hc.fails herror).2, ?_⟩
  intro tokens htokens
  obtain ⟨-, hproviders⟩ := hc.stores tokens htokens
  have hafter : (s.completion host deps provider state code took).state.providers
      = Function.update s.state.providers provider (some (providerState host tokens
        (s.state.providers provider) (s.clock + took))) := hproviders
  rw [hafter]
  exact connectionKept_iff host provider tokens (s.clock + took) s.state.providers

private def contoso : ProviderAccount := ⟨"u1", "contoso", none, none⟩

/-- Everything is configured, writes succeed, and the exchange brings tokens and an
    account, if one is given. -/
private def configured (account : Option ProviderAccount) : Deps where
  providerConfig _ := .ok ⟨"CLIENT_ID", "CLIENT_SECRET"⟩
  stateKey := .ok ()
  configuredCredential name _ := .ok name
  adapter _ := some fun _ => .ok ⟨"access", "refresh", none, account⟩
  readable := .ok ()
  writes _ := .ok ()

private def connectedWith (data : Option Nat) : IntegrationState Nat where
  providers name := if name = .m365 then
      some
        { accessToken := "old"
          refreshToken := "old"
          adapterData := data
          account := some contoso }
    else none
  oauthStates := Table.empty

private def reconnect : Operation Nat :=
  .begins (configured (some contoso)) .m365 ⟨"state", "verifier", "nonce"⟩

private def begun (data : Option Nat) : Session Nat :=
  (authorizations Host.numerals).next (Session.start 0 (connectedWith data)) reconnect

private theorem reach_begun (data : Option Nat) :
    (authorizations Host.numerals).Reach (Session.start 0 (connectedWith data)) (begun data) :=
  (Machine.Reach.refl _).step rfl

/-- A reconnect that brings the same account keeps a connection without adapter data. -/
theorem reconnect_keeps_account :
    (authorizations Host.numerals).Reach (Session.start 0 (connectedWith none)) (begun none)
      ∧ ∃ tokens, ((begun none).completion Host.numerals (configured (some contoso)) .m365
          "state" "code" 5).stored = some tokens
        ∧ ConnectionKept .m365 tokens (begun none).state.providers
          ((begun none).completion Host.numerals (configured (some contoso)) .m365
            "state" "code" 5).state.providers := by
  refine ⟨reach_begun none, ⟨"access", "refresh", none, some contoso⟩, by decide +kernel, ?_⟩
  obtain ⟨-, -, -, hcompletion⟩ := authorization_single_use Host.numerals (reach_begun none)
  exact ((hcompletion (configured (some contoso)) .m365 "state" "code" 5).2 _
    (by decide +kernel)).mpr ⟨rfl, rfl, rfl, Or.inr rfl⟩

/-- **The adapter's data is forgotten**: a reconnect that succeeds leaves the provider
    without it. -/
theorem adapter_data_forgotten :
    (authorizations Host.numerals).Reach (Session.start 0 (connectedWith (some 7)))
        (begun (some 7))
      ∧ ∃ tokens, ((begun (some 7)).completion Host.numerals (configured (some contoso)) .m365
          "state" "code" 5).stored = some tokens
        ∧ ¬ ConnectionKept .m365 tokens (begun (some 7)).state.providers
          ((begun (some 7)).completion Host.numerals (configured (some contoso)) .m365
            "state" "code" 5).state.providers := by
  refine ⟨reach_begun (some 7), ⟨"access", "refresh", none, some contoso⟩,
    by decide +kernel, ?_⟩
  rintro ⟨-, p, hp, hrest, -⟩
  have hgone : (((begun (some 7)).completion Host.numerals (configured (some contoso)) .m365
      "state" "code" 5).state.providers .m365).bind ProviderState.adapterData = none := by
    decide +kernel
  rw [hp] at hgone
  have hdata : p.adapterData = some 7 := congrArg (fun f => f.2.2.2.2.2.1) hrest
  rw [Option.bind_some, hdata] at hgone
  cases hgone

end OAuth
