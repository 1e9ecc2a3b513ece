import Daftari.Lib.JsonTextProofs
import Daftari.Integrations.MicrosoftRunsProofs
import Daftari.Integrations.QueueProofs

/-! # Notifications — is every genuine one acted on?

    A set-up gives Graph two URLs: the callback, with the token of the pending channel in its
    query, and the same text with `/lifecycle` after it.  Graph posts to them, with its own
    parameter for a validation; the route takes the path and the query apart again.

    * `callbackUrl`, `given`: the URLs, and `create_urls`: the requests carry them;
    * `received`: what the route reads of a post; `received_of_given`: **the suffix is part of
      the token, and the path is the callback's**;
    * `handle`: the route, with the verification and the queue;
    * `notification_acted_on_iff`: **when a genuine notification is acted on.** -/

namespace Microsoft

open Integration Web Webhook JsonText
open Engine (RefreshHint)
open IntegrationQueue (QueueFile Item enqueue)

/-! ## The URLs -/

structure BaseUrl where
  url : Url
  https : url.scheme = "https".toList
  spelled : url.Spelled
  bare : url.query = none

/-- The nonce of a pending channel: base64url. -/
structure Nonce where
  text : String
  plain : text.toList.all isFormPlain = true

/-- What stands before the name of a provider. -/
def integrationsPath : List Char := "/integrations/".toList

/-- `/integrations/m365/webhook`. -/
def webhookPath : List Char := "/integrations/m365/webhook".toList

/-- `/integrations/m365/webhook/lifecycle`. -/
def lifecyclePath : List Char := "/integrations/m365/webhook/lifecycle".toList

/-- `webhookUrl`: `integrationEndpoint` of the webhook route. -/
def webhookUrl (base : Url) : Url :=
  { base with path := dropSlash base.path ++ webhookPath, query := none }

def pendingName : List Char := "pending_token".toList

def validationName : List Char := "validationToken".toList

def callbackUrl (base : BaseUrl) (nonce : Nonce) : Url :=
  withPendingToken (webhookUrl base.url) nonce.text

inductive Endpoint where
  | notification
  | lifecycle

def given (base : BaseUrl) (nonce : Nonce) : Endpoint → List Char
  | .notification => (callbackUrl base nonce).text
  | .lifecycle => lifecycleUrl (callbackUrl base nonce).text

/-! ## Posts -/

/-- The token of a validation, as it is spelled in a query. -/
structure EncodedToken where
  text : List Char
  plain : '&' ∉ text ∧ '#' ∉ text

inductive Content where
  | validation (token : EncodedToken)
  | batch (text : List Char)

/-- A post of Graph's, to a URL that it was given; `body` is what the route reads of it, within
    its bounds. -/
structure Post where
  url : String
  content : Content
  body : Option (List Char)

def withParam (u : Url) (param : List Char) : Url :=
  { u with query := some (match u.query with
      | none => param
      | some q => q ++ '&' :: param) }

def Content.url (u : Url) : Content → Url
  | .validation token => withParam u (validationName ++ '=' :: token.text)
  | .batch _ => u

def requestTarget (u : Url) : List Char := u.path ++ queryText u.query

/-- `new URL(request.url, …)`: the path and the query.  Two slashes, or more, start a host. -/
def readTarget : List Char → List Char × Option (List Char)
  | '/' :: '/' :: rest =>
      let u := readParts [] (rest.dropWhile (· = '/'))
      (if u.path = [] then ['/'] else u.path, u.query)
  | target =>
      (target.takeWhile (!endsPath ·), readQuery (target.dropWhile (!endsPath ·)))

/-- What the server receives of a post to a URL. -/
def received (url : List Char) (content : Content) : Option (List Char × Option (List Char)) :=
  (Url.read url).map fun u => readTarget (requestTarget (content.url u))

/-! ## The route -/

/-- `routePrefix`. -/
def routeRoot (base : Url) : List Char :=
  if dropSlash base.path = ['/'] then [] else dropSlash base.path

/-- `routedIntegrationUrl`: the path after the route's own. -/
def routedIntegrationUrl (root pathname : List Char) : Option (List Char) :=
  if (root ++ integrationsPath).isPrefixOf pathname then some (pathname.drop root.length) else none

inductive Reply where
  /-- Some other route's. -/
  | elsewhere
  /-- Refused before the body is read. -/
  | notAdmitted
  /-- 408 or 413. -/
  | bodyRefused
  /-- 200, with the token as plain text. -/
  | challenge (token : List Char)
  /-- 401. -/
  | rejected
  /-- 503. -/
  | unavailable
  /-- 202. -/
  | accepted
  deriving DecidableEq

/-- What a post meets: the base of the routes, the checks before the state is read, the entry in
    the state file, whether the post is admitted, the queue file, if it can be read, whether it
    can be written, the clock, and the text of an event's own id. -/
structure Site (D : Type) where
  base : BaseUrl
  checks : Except String Unit
  provider : Option (ProviderState D)
  admitted : Bool
  queue : Option QueueFile
  queueWritten : Bool
  now : Int
  enqueuedAt : Int
  minted : String

variable {D : Type}

/-- `stringValue` of a field. -/
def stringField (j : Json) (name : String) : Option (List Nat) :=
  (strOf (field j name)).filter (· ≠ [])

/-- An entry of a batch: the subscription is known and the client state is the secret. -/
def entryValid (channel : WebhookChannel) (entry : Json) : Bool :=
  isObject entry &&
    match stringField entry "subscriptionId", stringField entry "clientState" with
    | some id, some clientState =>
        ((channel.subscriptions.getD []).any fun s => Text.units s.id.toList = id)
          && ofUnits clientState = channel.secret.toList
    | _, _ => false

/-- `body.value` of a batch. -/
def batchEntries (text : List Char) : Option (List Json) :=
  match (JsonText.parse text).bind (field · "value") with
  | some (.arr entries) => some entries
  | _ => none

def eventIdOf (minted : String) (entry : Json) : String :=
  match stringField entry "id" with
  | some id => String.ofList (ofUnits id)
  | none => String.ofList (ofUnits ((stringField entry "subscriptionId").getD []))
      ++ ":" ++ minted

/-- `verifyWebhook`: the id of the event; its hint is a full reconcile. -/
def verifyWebhook (minted : String) (state : ProviderState D) (text : List Char) : Option String :=
  match state.webhook, batchEntries text with
  | some channel, some (first :: rest) =>
      if (first :: rest).all (entryValid channel) then some (eventIdOf minted first) else none
  | _, _ => none

def mapLifecycleAction (event : List Nat) : Option String :=
  if event = Text.units "reauthorizationRequired".toList then some "reauthorize"
  else if event = Text.units "subscriptionRemoved".toList then some "recreate"
  else if event = Text.units "missed".toList then some "reconcile"
  else none

def entryAction (entry : Json) : Option String :=
  (stringField entry "lifecycleEvent").bind mapLifecycleAction

/-- `verifyLifecycleWebhook`: the id and the action of the first entry. -/
def verifyLifecycleWebhook (minted : String) (state : ProviderState D) (text : List Char) :
    Option (String × String) :=
  match state.webhook, batchEntries text with
  | some channel, some (first :: _) =>
      if entryValid channel first then
        (entryAction first).map fun action => (eventIdOf minted first, action)
      else none
  | _, _ => none

/-- `verifyProviderWebhook`: the id of a verified event. -/
def verifyProviderWebhook (site : Site D) (query : List (List Char × List Char))
    (text : List Char) : Option String :=
  let verified := site.provider.bind fun p => verifyWebhook site.minted p text
  let call : VerifyCall := match verified with
    | some eventId => .ok (.event (eventId ≠ ""))
    | none => .failed
  let request : WebhookRequest :=
    { pendingToken := (lastPair query pendingName).map String.ofList
      setupToken := (query.find? (·.1 = "setup_token".toList)).map fun p => String.ofList p.2 }
  let result := match verifySnapshot m365 site.checks request false call site.provider with
    | .ended result => result
    | .waiting request => (captureVerification m365 request call site.provider).1
  match result with
  | .ok (.event _) => verified
  | _ => none

/-- `verifyProviderLifecycleWebhook`: the id and the action of a verified event. -/
def verifyProviderLifecycleWebhook (site : Site D) (text : List Char) : Option (String × String) :=
  match site.checks with
  | .error _ => none
  | .ok _ => (site.provider.bind fun p => verifyLifecycleWebhook site.minted p text).filter
      fun event => event.1 ≠ ""

/-- The end of both routes: the event is put into the queue. -/
def queueEvent (site : Site D) (eventId : String) (hint : RefreshHint) : Reply × Option QueueFile :=
  match site.queue with
  | none => (.unavailable, none)
  | some file =>
      match enqueue { provider := .m365, eventId := eventId, hint := hint } site.now
          site.enqueuedAt file with
      | .error _ => (.unavailable, some file)
      | .ok none => (.accepted, some file)
      | .ok (some state) =>
          if site.queueWritten then (.accepted, some (.current state))
          else (.unavailable, some file)

def handleWebhook (site : Site D) (query : List (List Char × List Char))
    (body : Option (List Char)) : Reply × Option QueueFile :=
  if site.admitted then
    match body with
    | none => (.bodyRefused, site.queue)
    | some text =>
        match lastPair query validationName with
        | some token => (.challenge token, site.queue)
        | none =>
            match verifyProviderWebhook site query text with
            | none => (.rejected, site.queue)
            | some eventId => queueEvent site eventId .reconcile
  else (.notAdmitted, site.queue)

def handleLifecycle (site : Site D) (body : Option (List Char)) : Reply × Option QueueFile :=
  if site.admitted then
    match body with
    | none => (.bodyRefused, site.queue)
    | some text =>
        match verifyProviderLifecycleWebhook site text with
        | none => (.rejected, site.queue)
        | some (eventId, action) => queueEvent site eventId (.lifecycle action)
  else (.notAdmitted, site.queue)

/-- `handleIntegrationRoute`, of a post: the reply, and the queue file. -/
def handleIntegrationRoute (site : Site D) (pathname : List Char) (query : Option (List Char))
    (body : Option (List Char)) : Reply × Option QueueFile :=
  match routedIntegrationUrl (routeRoot site.base.url) pathname with
  | none => (.elsewhere, site.queue)
  | some routed =>
      if routed = webhookPath then handleWebhook site (parsePairs (query.getD [])) body
      else if routed = lifecyclePath then handleLifecycle site body
      else (.elsewhere, site.queue)

def handle (site : Site D) (post : Post) : Reply × Option QueueFile :=
  match received post.url.toList post.content with
  | none => (.elsewhere, site.queue)
  | some (pathname, query) => handleIntegrationRoute site pathname query post.body

/-! ## What the route reads -/

def callbackPath (base : Url) : List Char := dropSlash base.path ++ webhookPath

/-- What is put after the callback. -/
def lifecycleSuffix : List Char := "/lifecycle".toList

/-- What an endpoint adds to the callback. -/
def suffixOf : Endpoint → List Char
  | .notification => []
  | .lifecycle => lifecycleSuffix

/-- The query of a URL that Graph was given: the suffix is part of the token. -/
def givenQuery (nonce : Nonce) (e : Endpoint) : List Char :=
  pendingName ++ '=' :: (nonce.text.toList ++ suffixOf e)

/-- A URL that Graph was given, as it is read. -/
def givenUrl (base : BaseUrl) (nonce : Nonce) (e : Endpoint) : Url :=
  { base.url with path := callbackPath base.url, query := some (givenQuery nonce e) }

def postQuery (nonce : Nonce) (e : Endpoint) : Content → List Char
  | .validation token => givenQuery nonce e ++ '&' :: (validationName ++ '=' :: token.text)
  | .batch _ => givenQuery nonce e

theorem pendingName_plain : pendingName.all isFormPlain = true := by decide +kernel

theorem validationName_plain : validationName.all isFormPlain = true := by decide +kernel

theorem lifecycleSuffix_literal : lifecycleSuffix.all isLiteral = true ∧
    '&' ∉ lifecycleSuffix ∧ '#' ∉ lifecycleSuffix := by
  decide +kernel

/-- **The callback has the token as its query.** -/
theorem callbackUrl_eq (base : BaseUrl) (nonce : Nonce) :
    callbackUrl base nonce = givenUrl base nonce .notification := by
  have hquery : serializePairs [(pendingName, nonce.text.toList)]
      = givenQuery nonce .notification := by
    unfold serializePairs pairText
    rw [List.map_singleton, List.intercalate_singleton, formEncode_plain pendingName_plain,
      formEncode_plain nonce.plain]
    unfold givenQuery suffixOf
    rw [List.append_nil]
  exact congrArg (fun q => ({ base.url with path := callbackPath base.url, query := some q } : Url))
    hquery

theorem dropSlash_of_not_mem {s t : List Char} (hne : t ≠ []) (h : '/' ∉ t) :
    dropSlash (s ++ t) = s ++ t := by
  unfold dropSlash
  rw [if_neg]
  rw [List.getLast?_append_of_ne_nil _ hne]
  intro hlast
  exact h (List.mem_of_getLast? hlast)

/-- **Graph was given the callback's text, or the text with the suffix in its query.** -/
theorem given_eq (base : BaseUrl) (nonce : Nonce) (e : Endpoint) :
    given base nonce e = (givenUrl base nonce e).text := by
  cases e with
  | notification => exact congrArg Url.text (callbackUrl_eq base nonce)
  | lifecycle =>
      have hsplit : (givenUrl base nonce .notification).text
          = (base.url.scheme ++ (schemeMark ++ (base.url.host ++ callbackPath base.url)))
            ++ '?' :: givenQuery nonce .notification := by
        simp [givenUrl, Url.text, queryText]
      have hslash : '/' ∉ '?' :: givenQuery nonce .notification := by
        unfold givenQuery suffixOf
        rw [List.append_nil, List.mem_cons, List.mem_append, List.mem_cons, not_or, not_or, not_or]
        exact ⟨by decide, not_mem_of_plain pendingName_plain (by decide), by decide,
          not_mem_of_plain nonce.plain (by decide)⟩
      unfold given lifecycleUrl
      rw [callbackUrl_eq, hsplit, dropSlash_of_not_mem (List.cons_ne_nil _ _) hslash]
      unfold givenUrl Url.text queryText givenQuery suffixOf
      simp only [List.append_assoc, List.cons_append, List.append_nil]
      rfl

theorem mem_dropSlash {s : List Char} {c : Char} (h : c ∈ dropSlash s) : c ∈ s := by
  unfold dropSlash at h
  split at h
  · exact List.dropLast_subset _ h
  · exact h

theorem callbackPath_plain (base : BaseUrl) : ∀ c ∈ callbackPath base.url, endsPath c = false := by
  intro c hc
  rcases List.mem_append.mp hc with hc | hc
  · exact base.spelled.path c (mem_dropSlash hc)
  · have hall : webhookPath.all (fun c => !endsPath c) = true := by decide
    simpa using List.all_eq_true.mp hall c hc

theorem callbackPath_rooted (base : BaseUrl) : ∃ rest, callbackPath base.url = '/' :: rest := by
  obtain ⟨rest, hrest⟩ := base.spelled.rooted
  unfold callbackPath dropSlash
  rw [hrest]
  split
  · cases rest with
    | nil => exact ⟨webhookPath.tail, rfl⟩
    | cons c rest => exact ⟨(c :: rest).dropLast ++ webhookPath, by simp⟩
  · exact ⟨rest ++ webhookPath, rfl⟩

variable (nonce : Nonce)

variable (e : Endpoint)

theorem givenQuery_plain : '#' ∉ givenQuery nonce e := by
  have hsuffix : '#' ∉ suffixOf e := by
    cases e with
    | notification => exact List.not_mem_nil
    | lifecycle => exact lifecycleSuffix_literal.2.2
  unfold givenQuery
  rw [List.mem_append, List.mem_cons, List.mem_append, not_or, not_or, not_or]
  exact ⟨not_mem_of_plain pendingName_plain (by decide), by decide,
    not_mem_of_plain nonce.plain (by decide), hsuffix⟩

theorem givenUrl_spelled (base : BaseUrl) (nonce : Nonce) (e : Endpoint) :
    (givenUrl base nonce e).Spelled where
  scheme := base.spelled.scheme
  host := base.spelled.host
  path := callbackPath_plain base
  rooted := callbackPath_rooted base
  query := by
    rintro q hq
    obtain rfl := Option.some.inj hq
    exact givenQuery_plain nonce e

/-- **What is received is the callback's path, and the query.** -/
theorem received_of_given (base : BaseUrl) (nonce : Nonce) (e : Endpoint) (content : Content) :
    received (given base nonce e) content
      = some (readTarget (callbackPath base.url ++ '?' :: postQuery nonce e content)) := by
  unfold received
  rw [given_eq, read_text (givenUrl_spelled base nonce e)]
  cases content <;> rfl

/-! ## The requests of a set-up -/

/-- A set-up of the channel, as the adapter is asked for it. -/
structure Setup (D : Type) where
  minted : Minted
  state : ProviderState D
  input : EnsureWebhookInput
  answers : Answers

/-- What it returns, and its requests. -/
def Setup.run (host : Host) (s : Setup D) :
    Except String WebhookChannel × List (Request × Answer) :=
  ensureWebhook host s.minted s.state s.input s.answers

def Request.url : Request → Endpoint → Option String
  | .create _ notificationUrl _ _ _, .notification => some notificationUrl
  | .create _ _ lifecycleNotificationUrl _ _, .lifecycle => some lifecycleNotificationUrl
  | _, _ => none

/-- The URLs in what a set-up sends. -/
def Terms.url (terms : Terms) : Endpoint → String
  | .notification => terms.notificationUrl
  | .lifecycle => terms.lifecycleNotificationUrl

section

variable {terms : Terms} {answers : Answers} {existing : List Subscription}

def Gives (terms : Terms) (log : List (Request × Answer)) : Prop :=
  ∀ sent ∈ log, ∀ e url, sent.1.url e = some url → url = terms.url e

theorem gives_create (driveId : String) (a : Answer) :
    Gives terms [(terms.createRequest driveId, a)] := by
  intro sent hsent e url hurl
  obtain rfl := List.mem_singleton.mp hsent
  cases e <;> exact (Option.some.inj hurl).symm

theorem gives_cons_none {r : Request} {a : Answer} {log : List (Request × Answer)}
    (hr : ∀ e, r.url e = none) (h : Gives terms log) : Gives terms ((r, a) :: log) := by
  intro sent hsent e url hurl
  rcases List.mem_cons.mp hsent with rfl | hsent
  · rw [hr e] at hurl
    cases hurl
  · exact h sent hsent e url hurl

theorem gives_append {log log' : List (Request × Answer)} (h : Gives terms log)
    (h' : Gives terms log') : Gives terms (log ++ log') := by
  intro sent hsent
  rcases List.mem_append.mp hsent with hsent | hsent
  · exact h sent hsent
  · exact h' sent hsent

theorem gives_nil : Gives terms [] := fun _ h => absurd h List.not_mem_nil

theorem gives_renewOrRecreate (existingId driveId : String) :
    Gives terms (renewOrRecreateSubscription terms answers existingId driveId).2 := by
  have hpatched : ∀ {log : List (Request × Answer)}, Gives terms log →
      Gives terms ((Request.renew existingId terms.expirationDateTime,
        answers.renew driveId) :: log) :=
    fun h => gives_cons_none (fun e => by cases e <;> rfl) h
  unfold renewOrRecreateSubscription
  split
  · exact hpatched gives_nil
  · split
    · exact hpatched (gives_create _ _)
    · split <;> exact hpatched gives_nil

theorem gives_ensureDrive (driveId : String) :
    Gives terms (ensureDrive terms answers existing driveId).2 := by
  unfold ensureDrive
  split
  · split
    · exact gives_nil
    · exact gives_renewOrRecreate _ _
  · exact gives_create _ _

theorem gives_ensureDrives (drives : List String) :
    Gives terms (ensureDrives terms answers existing drives).2 := by
  induction drives with
  | nil => exact gives_nil
  | cons driveId rest ih =>
      have hfirst : Gives terms (ensureDrive terms answers existing driveId).2 :=
        gives_ensureDrive driveId
      rcases hdrive : ensureDrive terms answers existing driveId with ⟨s | s, log⟩
      · rw [ensureDrives_error hdrive]
        rwa [hdrive] at hfirst
      · rw [ensureDrives_next hdrive]
        rw [hdrive] at hfirst
        exact gives_append hfirst ih

theorem gives_deleteOrphans (claimed : List String) (i : Nat) :
    Gives terms (deleteOrphans answers claimed i existing).2 := by
  induction existing generalizing i with
  | nil => exact gives_nil
  | cons s rest ih =>
      have hdelete : ∀ e, (Request.delete s.id).url e = none := fun e => by cases e <;> rfl
      by_cases hclaimed : s.id ∈ claimed
      · rw [deleteOrphans_claimed hclaimed]
        exact ih (i + 1)
      · cases hanswer : deleteSubscription (answers.delete i) with
        | error e =>
            rw [deleteOrphans_failed hclaimed hanswer]
            exact gives_cons_none hdelete gives_nil
        | ok u =>
            rw [deleteOrphans_next hclaimed hanswer]
            exact gives_cons_none hdelete (ih (i + 1))

end

theorem gives_setup (host : Host) (s : Setup D) :
    Gives (setupTerms host s.minted s.state s.input) (s.run host).2 := by
  unfold Setup.run ensureWebhook
  split
  · dsimp only
    split
    · exact gives_ensureDrives _
    · split
      · exact gives_append (gives_ensureDrives _) (gives_deleteOrphans _ _)
      · exact gives_append (gives_ensureDrives _) (gives_deleteOrphans _ _)
  · exact gives_nil

variable {base : BaseUrl}

/-- **The requests carry the URLs of the callback.** -/
theorem create_urls {host : Host} {s : Setup D} {nonce : Nonce}
    (hcallback : s.input.callbackUrl = callbackUrl base nonce) {sent : Request × Answer}
    (hsent : sent ∈ (s.run host).2) {e : Endpoint} {url : String} (hurl : sent.1.url e = some url) :
    url.toList = given base nonce e := by
  have hterms := gives_setup host s sent hsent e url hurl
  rw [hterms]
  unfold Terms.url setupTerms
  rw [hcallback]
  cases e <;> exact String.toList_ofList

theorem setup_unconfirmed {host : Host} {s : Setup D} {channel : WebhookChannel}
    (h : (s.run host).1 = .ok channel) : channel.verificationRequired = none := by
  unfold Setup.run ensureWebhook at h
  split at h
  · dsimp only at h
    split at h
    · cases h
    · split at h
      · cases h
      · obtain rfl := Except.ok.inj h
        rfl
  · obtain rfl := Except.ok.inj h
    rfl

/-! ## Where the path leads -/

/-- Two slashes at the start of a path are read as the start of a host. -/
def StartsHost (path : List Char) : Prop := ['/', '/'] <+: path

instance (path : List Char) : Decidable (StartsHost path) :=
  inferInstanceAs (Decidable (['/', '/'] <+: path))

theorem dropSlash_cases (h : ¬ StartsHost base.url.path) : dropSlash base.url.path = [] ∨
      ∃ c rest, c ≠ '/' ∧ dropSlash base.url.path = '/' :: c :: rest := by
  obtain ⟨rest, hrest⟩ := base.spelled.rooted
  rw [hrest] at h ⊢
  cases rest with
  | nil => exact Or.inl rfl
  | cons c rest =>
      have hc : c ≠ '/' := by
        rintro rfl
        exact h ⟨rest, rfl⟩
      right
      unfold dropSlash
      split
      · rename_i hlast
        cases rest with
        | nil =>
            exact absurd (Option.some.inj hlast) hc
        | cons d rest => exact ⟨c, (d :: rest).dropLast, hc, rfl⟩
      · exact ⟨c, rest, hc, rfl⟩

/-- **A path that does not start a host is read as it was given, and leads to the webhook
    route.** -/
theorem routed_of_not_startsHost (h : ¬ StartsHost base.url.path) {q : List Char} (hq : '#' ∉ q) :
    readTarget (callbackPath base.url ++ '?' :: q) = (callbackPath base.url, some q) ∧
      routedIntegrationUrl (routeRoot base.url) (callbackPath base.url) = some webhookPath := by
  have hsecond : ∃ c rest, c ≠ '/' ∧ callbackPath base.url = '/' :: c :: rest := by
    unfold callbackPath
    rcases dropSlash_cases h with hnil | ⟨c, rest, hc, hcons⟩
    · rw [hnil]
      exact ⟨'i', webhookPath.drop 2, by decide, rfl⟩
    · rw [hcons]
      exact ⟨c, rest ++ webhookPath, hc, rfl⟩
  constructor
  · obtain ⟨c, rest, hc, hpath⟩ := hsecond
    obtain ⟨htake, hdrop⟩ := takeWhile_append_stop (p := (!endsPath ·)) (s := callbackPath base.url)
      (t := '?' :: q) (fun d hd => by simp [callbackPath_plain base d hd]) (by simp [endsPath])
    have hquery : readQuery ('?' :: q) = some q :=
      readQuery_queryText (q := some q) (by simpa using hq)
    have hread : readTarget (callbackPath base.url ++ '?' :: q)
        = ((callbackPath base.url ++ '?' :: q).takeWhile (!endsPath ·),
          readQuery ((callbackPath base.url ++ '?' :: q).dropWhile (!endsPath ·))) := by
      rw [hpath]
      unfold readTarget
      split
      · rename_i heq
        exact absurd (List.cons.inj (List.cons.inj heq).2).1 hc
      · rfl
    rw [hread, htake, hdrop, hquery]
  · have hroot : routeRoot base.url = dropSlash base.url.path := by
      unfold routeRoot
      rw [if_neg]
      intro hone
      rcases dropSlash_cases h with hnil | ⟨c, rest, -, hcons⟩
      · rw [hnil] at hone
        cases hone
      · rw [hcons] at hone
        cases hone
    unfold routedIntegrationUrl callbackPath
    rw [hroot, if_pos, List.drop_left]
    rw [List.isPrefixOf_iff_prefix, List.prefix_append_right_inj]
    decide +kernel

theorem not_prefix_webhookPath {k : Nat} (hk : 1 ≤ k) :
    ¬ integrationsPath <+: webhookPath.drop k := by
  have hshort : ∀ k < 27, 1 ≤ k → integrationsPath.isPrefixOf (webhookPath.drop k) = false := by
    decide +kernel
  by_cases hlt : k < 27
  · rw [← List.isPrefixOf_iff_prefix, hshort k hlt hk]
    exact Bool.false_ne_true
  · have hlen : webhookPath.length ≤ k := le_trans (by decide +kernel) (Nat.le_of_not_lt hlt)
    rw [List.drop_eq_nil_of_le hlen]
    intro h
    have hnil := List.prefix_nil.mp h
    exact absurd hnil (by decide +kernel)

theorem callbackPath_startsHost (h : StartsHost base.url.path) :
    ∃ w, callbackPath base.url = '/' :: '/' :: w := by
  obtain ⟨t, ht⟩ := h
  unfold callbackPath
  rw [← ht]
  unfold dropSlash
  split
  · cases t with
    | nil => exact ⟨webhookPath.drop 1, rfl⟩
    | cons c t => exact ⟨(c :: t).dropLast ++ webhookPath, rfl⟩
  · exact ⟨t ++ webhookPath, rfl⟩

theorem readTarget_startsHost {w q : List Char} (hplain : ∀ c ∈ w, endsPath c = false) :
    (readTarget ('/' :: '/' :: w ++ '?' :: q)).1 = ['/'] ∨
      ∃ k, 2 ≤ k ∧ (readTarget ('/' :: '/' :: w ++ '?' :: q)).1 = ('/' :: '/' :: w).drop k := by
  have hskip : (w ++ '?' :: q).dropWhile (· = '/') = w.dropWhile (· = '/') ++ '?' :: q := by
    rw [List.dropWhile_append]
    split
    · rename_i hempty
      rw [List.isEmpty_iff.mp hempty]
      rfl
    · rfl
  have hhost : (w.dropWhile (· = '/') ++ '?' :: q).dropWhile (!endsHost ·)
      = (w.dropWhile (· = '/')).dropWhile (!endsHost ·) ++ '?' :: q := by
    rw [List.dropWhile_append]
    split
    · rename_i hempty
      rw [List.isEmpty_iff.mp hempty]
      rfl
    · rfl
  have hsuffix : (w.dropWhile (· = '/')).dropWhile (!endsHost ·) <:+ w :=
    (List.dropWhile_suffix _).trans (List.dropWhile_suffix _)
  have hpath := (takeWhile_append_stop (p := (!endsPath ·))
    (s := (w.dropWhile (· = '/')).dropWhile (!endsHost ·)) (t := '?' :: q)
    (fun c hc => by simp [hplain c (hsuffix.subset hc)]) (by simp [endsPath])).1
  have hread : (readTarget ('/' :: '/' :: w ++ '?' :: q)).1
      = if (w.dropWhile (· = '/')).dropWhile (!endsHost ·) = [] then ['/']
        else (w.dropWhile (· = '/')).dropWhile (!endsHost ·) := by
    change (if (readParts [] ((w ++ '?' :: q).dropWhile (· = '/'))).path = [] then ['/']
      else (readParts [] ((w ++ '?' :: q).dropWhile (· = '/'))).path) = _
    unfold readParts
    simp only [hskip, hhost, hpath]
  rw [hread]
  split
  · exact Or.inl rfl
  · right
    refine ⟨w.length - ((w.dropWhile (· = '/')).dropWhile (!endsHost ·)).length + 2, by omega, ?_⟩
    exact List.suffix_iff_eq_drop.mp hsuffix

/-- **A path that starts a host loses it, and leads nowhere.** -/
theorem not_routed_of_startsHost (h : StartsHost base.url.path) (q : List Char) :
    routedIntegrationUrl (routeRoot base.url)
      (readTarget (callbackPath base.url ++ '?' :: q)).1 = none := by
  obtain ⟨w, hw⟩ := callbackPath_startsHost h
  have hplain : ∀ c ∈ w, endsPath c = false := fun c hc =>
    callbackPath_plain base c (hw ▸ List.mem_cons_of_mem _ (List.mem_cons_of_mem _ hc))
  have hread := readTarget_startsHost (q := q) hplain
  rw [← hw] at hread
  unfold routedIntegrationUrl
  rw [if_neg]
  rw [List.isPrefixOf_iff_prefix]
  intro hprefix
  have hrest : integrationsPath <+: (readTarget (callbackPath base.url ++ '?' :: q)).1.drop
      (routeRoot base.url).length := by
    obtain ⟨t, ht⟩ := hprefix
    rw [← ht, List.append_assoc, List.drop_left]
    exact ⟨t, rfl⟩
  rcases hread with hone | ⟨k, hk, hread⟩
  · rw [hone] at hprefix
    have hlen := hprefix.length_le
    rw [List.length_append] at hlen
    have hlong : 1 < integrationsPath.length := by decide +kernel
    simp only [List.length_cons, List.length_nil] at hlen
    omega
  rw [hread] at hrest
  rw [List.drop_drop] at hrest
  unfold routeRoot at hrest
  split at hrest
  · rename_i hone
    have hpath : callbackPath base.url = '/' :: webhookPath := by
      unfold callbackPath
      rw [hone]
      rfl
    obtain ⟨j, rfl⟩ : ∃ j, k = j + 1 := ⟨k - 1, by omega⟩
    rw [hpath, List.length_nil, Nat.add_zero, List.drop_succ_cons] at hrest
    exact not_prefix_webhookPath (by omega) hrest
  · unfold callbackPath at hrest
    rw [Nat.add_comm, ← List.drop_drop, List.drop_left] at hrest
    exact not_prefix_webhookPath (by omega) hrest

/-! ## What the query says -/

/-- **The query of a URL that Graph is given has one pair: the suffix is part of the token.** -/
theorem parsePairs_given : parsePairs (givenQuery nonce e)
      = [(pendingName, nonce.text.toList ++ suffixOf e)] := by
  have hname : formDecode pendingName = pendingName :=
    formDecode_literal (all_isLiteral_of_plain pendingName_plain)
  have hsuffix : (suffixOf e).all isLiteral = true ∧ '&' ∉ suffixOf e := by
    cases e with
    | notification => exact ⟨rfl, List.not_mem_nil⟩
    | lifecycle => exact ⟨lifecycleSuffix_literal.1, lifecycleSuffix_literal.2.1⟩
  have hvalue : formDecode (nonce.text.toList ++ suffixOf e)
      = nonce.text.toList ++ suffixOf e := by
    refine formDecode_literal ?_
    rw [List.all_append, hsuffix.1, Bool.and_true]
    exact all_isLiteral_of_plain nonce.plain
  have hplain : '&' ∉ pendingName ++ '=' :: (nonce.text.toList ++ suffixOf e) := by
    rw [List.mem_append, List.mem_cons, List.mem_append, not_or, not_or, not_or]
    exact ⟨not_mem_of_plain pendingName_plain (by decide), by decide,
      not_mem_of_plain nonce.plain (by decide), hsuffix.2⟩
  unfold givenQuery
  rw [parsePairs_single (not_mem_of_plain pendingName_plain (by decide)) hplain, hname, hvalue]

theorem no_challenge : lastPair (parsePairs (givenQuery nonce e)) validationName = none := by
  have hapart : pendingName ≠ validationName := by decide +kernel
  rw [parsePairs_given]
  unfold lastPair
  rw [List.reverse_singleton, List.find?_singleton, if_neg]
  · rfl
  · simpa using hapart

theorem challenge_token (token : EncodedToken) :
    lastPair (parsePairs (postQuery nonce e (.validation token))) validationName
      = some (formDecode token.text) := by
  have hname : formDecode validationName = validationName :=
    formDecode_literal (all_isLiteral_of_plain validationName_plain)
  have hplain : '&' ∉ validationName ++ '=' :: token.text := by
    rw [List.mem_append, List.mem_cons, not_or, not_or]
    exact ⟨not_mem_of_plain validationName_plain (by decide), by decide, token.plain.1⟩
  unfold postQuery lastPair
  rw [parsePairs_append,
    parsePairs_single (not_mem_of_plain validationName_plain (by decide)) hplain,
    List.reverse_append, List.reverse_singleton, hname]
  simp

theorem postQuery_plain (content : Content) : '#' ∉ postQuery nonce e content := by
  cases content with
  | batch text => exact givenQuery_plain nonce e
  | validation token =>
      unfold postQuery
      rw [List.mem_append, List.mem_cons, List.mem_append, List.mem_cons, not_or, not_or, not_or,
        not_or]
      exact ⟨givenQuery_plain nonce e, by decide,
        not_mem_of_plain validationName_plain (by decide), by decide, token.plain.2⟩

section

variable {site : Site D} {post : Post} {nonce : Nonce} {e : Endpoint}

/-- **Whatever URL it is to, a post that arrives goes to the webhook route.** -/
theorem handle_arrives (hurl : post.url.toList = given site.base nonce e)
    (h : ¬ StartsHost site.base.url.path) : handle site post
      = handleWebhook site (parsePairs (postQuery nonce e post.content)) post.body := by
  obtain ⟨hread, hrouted⟩ := routed_of_not_startsHost h (postQuery_plain nonce e post.content)
  unfold handle
  rw [hurl, received_of_given, hread]
  dsimp only
  unfold handleIntegrationRoute
  rw [hrouted]
  dsimp only
  rfl

theorem handle_lost (hurl : post.url.toList = given site.base nonce e)
    (h : StartsHost site.base.url.path) : handle site post = (.elsewhere, site.queue) := by
  unfold handle
  rw [hurl, received_of_given]
  dsimp only
  unfold handleIntegrationRoute
  rw [not_routed_of_startsHost h]

end

/-! ## Genuine posts -/

structure Names (channel : WebhookChannel) (entry : Json) : Prop where
  object : isObject entry = true
  subscription : ∃ s ∈ channel.subscriptions.getD [],
    stringField entry "subscriptionId" = some (Text.units s.id.toList)
  clientState : stringField entry "clientState" = some (Text.units channel.secret.toList)

theorem names_iff {channel : WebhookChannel} {entry : Json} : Names channel entry ↔
    isObject entry = true ∧ (∃ s ∈ channel.subscriptions.getD [],
      stringField entry "subscriptionId" = some (Text.units s.id.toList)) ∧
      stringField entry "clientState" = some (Text.units channel.secret.toList) :=
  ⟨fun h => ⟨h.object, h.subscription, h.clientState⟩, fun h => ⟨h.1, h.2.1, h.2.2⟩⟩

instance (channel : WebhookChannel) (entry : Json) : Decidable (Names channel entry) :=
  decidable_of_iff _ names_iff.symm

def Content.entries : Content → List Json
  | .validation _ => []
  | .batch text => (batchEntries text).getD []

/-- A post of Graph's to a URL that a set-up gave it: what the route reads of a batch is what
    was posted, and every entry names a subscription that a set-up registered. -/
structure Genuine (host : Host) (site : Site D) (e : Endpoint) (post : Post) : Prop where
  asked : ∃ (s : Setup D) (nonce : Nonce), s.input.callbackUrl = callbackUrl site.base nonce ∧
    ∃ sent ∈ (s.run host).2, sent.1.url e = some post.url
  read : ∀ text, post.content = .batch text → ∀ b ∈ post.body, b = text
  registered : ∀ text, post.content = .batch text → post.content.entries ≠ [] ∧
    ∃ p channel, site.provider = some p ∧ p.webhook = some channel ∧
      (∃ s : Setup D, (s.run host).1 = .ok channel) ∧
      ∀ entry ∈ post.content.entries, Names channel entry

/-! ## What is to be done -/

/-- What a batch asks for: a full reconcile, or an action. -/
inductive Task where
  | change
  | lifecycle (action : String)

def Task.performedBy : Task → RefreshHint → Prop
  | .change, hint => hint = .reconcile
  | .lifecycle action, hint =>
      hint = .lifecycle action ∨ action = "reconcile" ∧ hint = .reconcile

/-- A change asks for one reconcile, a lifecycle batch for the action of every entry whose event
    is recognised. -/
def tasks (entries : List Json) : Endpoint → List Task
  | .notification => [.change]
  | .lifecycle => (entries.filterMap entryAction).map .lifecycle

def Waits (minted : String) (entries : List Json) (task : Task) (queue : Option QueueFile) : Prop :=
  ∃ file, queue = some file ∧ ∃ item ∈ file.pending, item.provider = .m365 ∧
    (∃ entry ∈ entries, item.eventId = eventIdOf minted entry) ∧ task.performedBy item.hint

/-- **A validation is answered with its token; of a batch, everything that it asks for waits.** -/
def ActedOn (site : Site D) (e : Endpoint) (post : Post) (after : Reply × Option QueueFile) :
    Prop :=
  match post.content with
  | .validation token => after.1 = .challenge (formDecode token.text)
  | .batch _ => ∀ task ∈ tasks post.content.entries e,
      Waits site.minted post.content.entries task after.2

/-! ## When it is done -/

/-- The post arrives at the route, and its body is read. -/
def Serves (site : Site D) (post : Post) : Prop :=
  ¬ StartsHost site.base.url.path ∧ site.admitted = true ∧ post.body.isSome = true

def Queues (site : Site D) (eventId : String) : Prop :=
  ∃ file, site.queue = some file ∧ site.queueWritten = true ∧
    (∀ event ∈ (IntegrationQueue.readQueue site.now file).processedEvents,
      event.key ≠ IntegrationQueue.itemKey .m365 eventId) ∧
    IntegrationQueue.itemKey .m365 eventId ∉ file.pendingKeys

/-- A batch is queued: it arrives, the state can be read, and the event of its first entry is new
    to the queue. -/
def Enters (site : Site D) (post : Post) : Prop :=
  Serves site post ∧ site.checks.isOk = true ∧
    ∀ first ∈ post.content.entries.head?, Queues site (eventIdOf site.minted first)

/-- **A validation arrives; what a batch asks for waits already, or it is a reconcile, and the
    batch is queued.** -/
def Heard (site : Site D) (e : Endpoint) (post : Post) : Prop :=
  match post.content with
  | .validation _ => Serves site post
  | .batch _ => ∀ task ∈ tasks post.content.entries e,
      Waits site.minted post.content.entries task site.queue ∨
        task.performedBy .reconcile ∧ Enters site post

/-! ## Batches -/

section

variable {site : Site D} {channel : WebhookChannel} {p : ProviderState D}

theorem entryValid_of_names {entry : Json} (h : Names channel entry) :
    entryValid channel entry = true := by
  obtain ⟨s, hs, hid⟩ := h.subscription
  unfold entryValid
  rw [h.object, hid, h.clientState]
  simp only [Bool.true_and, Bool.and_eq_true, List.any_eq_true, decide_eq_true_iff]
  exact ⟨⟨s, hs, rfl⟩, ofUnits_units _⟩

theorem eventIdOf_ne (minted : String) (entry : Json) : eventIdOf minted entry ≠ "" := by
  intro hempty
  have hnil := congrArg String.toList hempty
  unfold eventIdOf at hnil
  cases hid : stringField entry "id" with
  | some id =>
      have hne : id ≠ [] := by
        simpa using (Option.filter_eq_some_iff.mp hid).2
      rw [hid] at hnil
      exact ofUnits_ne_nil hne (String.toList_ofList.symm.trans hnil)
  | none =>
      rw [hid] at hnil
      simp at hnil

theorem verifySnapshot_event {request : WebhookRequest} (hp : p.webhook = some channel)
    (hchannel : channel.verificationRequired = none) :
    verifySnapshot m365 (.ok ()) request false (.ok (.event true)) (some p)
      = .ended (.ok (.event true)) := by
  unfold verifySnapshot
  simp only [hp, hchannel]
  split <;> rfl

variable {text : List Char}

theorem verifyWebhook_genuine {first : Json} {rest : List Json} (hp : p.webhook = some channel)
    (htext : batchEntries text = some (first :: rest))
    (hnames : ∀ entry ∈ first :: rest, Names channel entry) :
    verifyWebhook site.minted p text = some (eventIdOf site.minted first) := by
  unfold verifyWebhook
  rw [hp, htext]
  dsimp only
  rw [if_pos (List.all_eq_true.mpr fun entry hentry => entryValid_of_names (hnames entry hentry))]

/-- **A genuine batch is verified whenever the state can be read, whatever its query says.** -/
theorem verifyProviderWebhook_genuine {first : Json} {rest : List Json}
    (hprovider : site.provider = some p) (hp : p.webhook = some channel)
    (hchannel : channel.verificationRequired = none)
    (htext : batchEntries text = some (first :: rest))
    (hnames : ∀ entry ∈ first :: rest, Names channel entry) (query : List (List Char × List Char)) :
    verifyProviderWebhook site query text
      = if site.checks.isOk then some (eventIdOf site.minted first) else none := by
  have hverified : (site.provider.bind fun p => verifyWebhook site.minted p text)
      = some (eventIdOf site.minted first) := by
    rw [hprovider]
    exact verifyWebhook_genuine hp htext hnames
  have hid : (decide (eventIdOf site.minted first ≠ "")) = true :=
    decide_eq_true (eventIdOf_ne _ _)
  unfold verifyProviderWebhook
  rw [hverified]
  dsimp only
  rw [hid]
  cases hchecks : site.checks with
  | error e => rfl
  | ok u =>
      rw [hprovider, verifySnapshot_event hp hchannel]
      rfl

theorem queueEvent_spec {eventId : String} (hid : eventId ≠ "") :
    (Queues site eventId ∧ ∃ file state item, site.queue = some file ∧
        (queueEvent site eventId .reconcile).2 = some (.current state) ∧
        state.pending = file.pending ++ [item] ∧ item.provider = .m365 ∧
        item.eventId = eventId ∧ item.hint = .reconcile) ∨
      (¬ Queues site eventId ∧ (queueEvent site eventId .reconcile).2 = site.queue) := by
  unfold queueEvent
  cases hqueue : site.queue with
  | none =>
      right
      refine ⟨?_, rfl⟩
      rintro ⟨file, hfile, -⟩
      rw [hqueue] at hfile
      cases hfile
  | some file =>
      dsimp only
      cases henqueue : enqueue { provider := .m365, eventId := eventId, hint := .reconcile }
          site.now site.enqueuedAt file with
      | error message =>
          unfold enqueue at henqueue
          rw [if_neg (by simp [hid, IntegrationQueue.validHint])] at henqueue
          dsimp only at henqueue
          split at henqueue <;> cases henqueue
      | ok added =>
          cases added with
          | none =>
              right
              refine ⟨?_, rfl⟩
              rintro ⟨file', hfile, -, hprocessed, hpending⟩
              rw [hqueue] at hfile
              obtain rfl := Option.some.inj hfile
              rcases IntegrationQueue.enqueue_eq_none henqueue with ⟨event, hevent, hkey⟩ | hkey
              · exact hprocessed event hevent hkey
              · exact hpending hkey
          | some state =>
              obtain ⟨hprocessed, hpending, rfl⟩ := IntegrationQueue.enqueue_eq_some henqueue
              cases hwritten : site.queueWritten with
              | true =>
                  left
                  exact ⟨⟨file, hqueue, hwritten, hprocessed, hpending⟩, file, _, _, rfl, rfl,
                    rfl, rfl, rfl, rfl⟩
              | false =>
                  right
                  refine ⟨?_, rfl⟩
                  rintro ⟨file', -, htrue, -⟩
                  rw [hwritten] at htrue
                  cases htrue

/-- **Of a genuine batch one event is queued, for a reconcile, or nothing changes.** -/
theorem handle_batch {host : Host} {e : Endpoint} {post : Post} (h : Genuine host site e post)
    (hcontent : post.content = .batch text) :
    (Enters site post ∧ ∃ file state item, site.queue = some file ∧
        (handle site post).2 = some (.current state) ∧ state.pending = file.pending ++ [item] ∧
        item.provider = .m365 ∧ item.hint = .reconcile ∧
        ∃ entry ∈ post.content.entries, item.eventId = eventIdOf site.minted entry) ∨
      (¬ Enters site post ∧ (handle site post).2 = site.queue) := by
  obtain ⟨s, nonce, hcallback, sent, hsent, hurl⟩ := h.asked
  have hurl := create_urls hcallback hsent hurl
  obtain ⟨hne, p, channel, hprovider, hp, ⟨s', hsetup⟩, hnames⟩ := h.registered text hcontent
  obtain ⟨first, rest, hentries⟩ := List.exists_cons_of_ne_nil hne
  have htext : batchEntries text = some (first :: rest) := by
    rw [hcontent] at hentries
    change (batchEntries text).getD [] = first :: rest at hentries
    cases hbatch : batchEntries text with
    | none =>
        rw [hbatch] at hentries
        cases hentries
    | some entries =>
        rw [hbatch] at hentries
        exact congrArg some hentries
  rw [hentries] at hnames
  have henters : Enters site post ↔ Serves site post ∧ site.checks.isOk = true ∧
      Queues site (eventIdOf site.minted first) := by
    unfold Enters
    rw [hentries]
    simp
  by_cases hhost : StartsHost site.base.url.path
  · right
    rw [henters, handle_lost hurl hhost]
    exact ⟨fun hserves => hserves.1.1 hhost, rfl⟩
  rw [handle_arrives hurl hhost, hcontent]
  unfold handleWebhook
  cases hadmitted : site.admitted with
  | false =>
      right
      exact ⟨fun hserves => Bool.false_ne_true (hadmitted.symm.trans hserves.1.2.1), rfl⟩
  | true =>
      cases hbody : post.body with
      | none =>
          right
          refine ⟨fun hserves => ?_, rfl⟩
          have hsome := hserves.1.2.2
          rw [hbody] at hsome
          cases hsome
      | some b =>
          obtain rfl := h.read text hcontent b hbody
          have hserves : Serves site post := ⟨hhost, hadmitted, by rw [hbody]; rfl⟩
          have hverify := verifyProviderWebhook_genuine hprovider hp (setup_unconfirmed hsetup)
            htext hnames (parsePairs (givenQuery nonce e))
          have hchallenge := no_challenge nonce e
          dsimp only
          unfold postQuery
          rw [hchallenge, hverify]
          cases hchecks : site.checks.isOk with
          | false =>
              right
              exact ⟨fun henter => Bool.false_ne_true (hchecks.symm.trans henter.2.1), rfl⟩
          | true =>
              rcases queueEvent_spec (eventIdOf_ne site.minted first) with
                ⟨hqueues, file, state, item, hfile, hstate, hpending, hm365, hid, hhint⟩ |
                ⟨hqueues, hsame⟩
              · left
                refine ⟨henters.mpr ⟨hserves, hchecks, hqueues⟩, file, state, item, hfile, hstate,
                  hpending, hm365, hhint, first, ?_, hid⟩
                rw [← hcontent, hentries]
                exact List.mem_cons_self
              · right
                exact ⟨fun henter => hqueues (henters.mp henter).2.2, hsame⟩

theorem waits_append {entries : List Json} {task : Task} {file : QueueFile}
    {state : IntegrationQueue.QueueState} {item : Item}
    (hpending : state.pending = file.pending ++ [item]) (hm365 : item.provider = .m365)
    (hhint : item.hint = .reconcile)
    (hid : ∃ entry ∈ entries, item.eventId = eventIdOf site.minted entry) :
    Waits site.minted entries task (some (.current state)) ↔
      Waits site.minted entries task (some file) ∨ task.performedBy .reconcile := by
  constructor
  · rintro ⟨file', hfile, item', hitem, hprovider, hevent, hperforms⟩
    obtain rfl := Option.some.inj hfile
    change item' ∈ state.pending at hitem
    rw [hpending] at hitem
    rcases List.mem_append.mp hitem with hitem | hitem
    · exact Or.inl ⟨file, rfl, item', hitem, hprovider, hevent, hperforms⟩
    · obtain rfl := List.mem_singleton.mp hitem
      rw [hhint] at hperforms
      exact Or.inr hperforms
  · rintro (⟨file', hfile, item', hitem, hrest⟩ | hperforms)
    · obtain rfl := Option.some.inj hfile
      refine ⟨_, rfl, item', ?_, hrest⟩
      change item' ∈ state.pending
      rw [hpending]
      exact List.mem_append_left _ hitem
    · refine ⟨_, rfl, item, ?_, hm365, hid, ?_⟩
      · change item ∈ state.pending
        rw [hpending]
        exact List.mem_append_right _ (List.mem_singleton_self _)
      · rw [hhint]
        exact hperforms

end

/-- **A genuine post is acted on exactly where it is heard**: a path that starts a host, a post
    that is not admitted or not read, a state or a queue that cannot be used, and an event that the
    queue has had before are in the way of any; of a lifecycle batch, which is read as a change,
    only reconciles are performed. -/
theorem notification_acted_on_iff {host : Host} {site : Site D} {e : Endpoint} {post : Post}
    (h : Genuine host site e post) :
    ActedOn site e post (handle site post) ↔ Heard site e post := by
  cases hcontent : post.content with
  | batch text =>
      unfold ActedOn Heard
      rw [hcontent]
      dsimp only
      rw [← hcontent]
      refine forall₂_congr fun task _ => ?_
      rcases handle_batch h hcontent with
        ⟨henters, file, state, item, hfile, hstate, hpending, hm365, hhint, hid⟩ |
        ⟨henters, hsame⟩
      · rw [hstate, hfile, waits_append hpending hm365 hhint hid]
        simp [henters]
      · rw [hsame]
        simp [henters]
  | validation token =>
      obtain ⟨s, nonce, hcallback, sent, hsent, hurl⟩ := h.asked
      have hurl := create_urls hcallback hsent hurl
      unfold ActedOn Heard
      rw [hcontent]
      by_cases hhost : StartsHost site.base.url.path
      · rw [handle_lost hurl hhost]
        exact iff_of_false nofun fun hserves => hserves.1 hhost
      have hchallenge := challenge_token nonce e token
      rw [handle_arrives hurl hhost, hcontent]
      unfold handleWebhook
      rw [hchallenge]
      cases hadmitted : site.admitted with
      | false =>
          exact iff_of_false nofun
            fun hserves => Bool.false_ne_true (hadmitted.symm.trans hserves.2.1)
      | true =>
          cases hbody : post.body with
          | none =>
              refine iff_of_false nofun fun hserves => ?_
              have hsome := hserves.2.2
              rw [hbody] at hsome
              cases hsome
          | some b => exact iff_of_true rfl ⟨hhost, hadmitted, by rw [hbody]; rfl⟩

/-! ## Posts of fixed batches -/

private def oneDrive : EnrollmentRecord :=
  ⟨"d", .folder, "", "", "", "", "d", "", none, false, "", "", []⟩

private def connectedDrive : ProviderState Nat where
  accessToken := "token"
  refreshToken := "token"
  enrollment := some [oneDrive]

private def plainBase : BaseUrl where
  url := ⟨"https".toList, "h".toList, ['/'], none⟩
  https := rfl
  spelled := by
    have hhost : "h".toList.all (fun c => !endsHost c) = true := by decide +kernel
    have hpath : ['/'].all (fun c => !endsPath c) = true := by decide
    refine ⟨by decide +kernel, fun c hc => ?_, fun c hc => ?_, ⟨[], rfl⟩, nofun⟩
    · simpa using List.all_eq_true.mp hhost c hc
    · simpa using List.all_eq_true.mp hpath c hc
  bare := rfl

private def oneNonce : Nonce := ⟨"n", rfl⟩

private def makesOne : Setup Nat where
  minted := ⟨"c", "k"⟩
  state := connectedDrive
  input := ⟨callbackUrl plainBase oneNonce, 0, 5⟩
  answers :=
    ⟨fun _ => .response 201 (some "s") (some "9"), fun _ => .failed "", fun _ => .failed ""⟩

private def oneChannel : WebhookChannel where
  id := "c"
  secret := "k"
  expiresAt := some "9"
  subscriptions := some [⟨"s", driveRoot "d", "9"⟩]

private def readySite : Site Nat where
  base := plainBase
  checks := .ok ()
  provider := some { connectedDrive with webhook := some oneChannel }
  admitted := true
  queue := some .absent
  queueWritten := true
  now := 0
  enqueuedAt := 0
  minted := "m"

private def batchText (event : String) : List Char :=
  "\x7b\"value\":[\x7b\"subscriptionId\":\"s\",\"clientState\":\"k\",\"id\":\"e\",".toList ++
    ("\"lifecycleEvent\":\"".toList ++ (event.toList ++ "\"\x7d]\x7d".toList))

private def lifecyclePost (event : String) : Post where
  url := String.ofList (given plainBase oneNonce .lifecycle)
  content := .batch (batchText event)
  body := some (batchText event)

private theorem genuine_lifecyclePost {event : String}
    (hne : (Content.batch (batchText event)).entries ≠ [])
    (hnames : ∀ entry ∈ (Content.batch (batchText event)).entries, Names oneChannel entry) :
    Genuine Host.numerals readySite .lifecycle (lifecyclePost event) where
  asked := by
    refine ⟨makesOne, oneNonce, rfl, (Request.create "d"
      (String.ofList (given plainBase oneNonce .notification))
      (String.ofList (given plainBase oneNonce .lifecycle)) "k"
      (Host.numerals.toISO (0 + 41000 * 60000)),
      .response 201 (some "s") (some "9")), ?_, rfl⟩
    exact List.mem_singleton_self _
  read := by
    rintro text hcontent b hb
    obtain rfl := Content.batch.inj hcontent
    exact (Option.some.inj hb).symm
  registered := fun text _ => ⟨hne, _, oneChannel, rfl, rfl, ⟨makesOne, rfl⟩, hnames⟩

/-- **A genuine batch that asks for its subscription to be recreated leads to a plain
    reconcile.** -/
theorem recreate_not_queued : ∃ post : Post,
    Genuine Host.numerals readySite .lifecycle post ∧
      ¬ ActedOn readySite .lifecycle post (handle readySite post) := by
  refine ⟨lifecyclePost "subscriptionRemoved",
    genuine_lifecyclePost (by decide +kernel) (by decide +kernel), fun hacted => ?_⟩
  have hactions : (lifecyclePost "subscriptionRemoved").content.entries.filterMap entryAction
      = ["recreate"] := by decide +kernel
  have hqueued : (handle readySite (lifecyclePost "subscriptionRemoved")).2.map
      (fun file => file.pending.map fun item => item.hint) = some [.reconcile] := by
    decide +kernel
  have htask : Task.lifecycle "recreate" ∈
      tasks (lifecyclePost "subscriptionRemoved").content.entries .lifecycle := by
    unfold tasks
    exact List.mem_singleton_self _
  obtain ⟨file, hfile, item, hitem, -, -, hperforms⟩ := hacted _ htask
  rw [hfile] at hqueued
  have hhint : item.hint ∈ [RefreshHint.reconcile] :=
    Option.some.inj hqueued ▸ List.mem_map_of_mem hitem
  rw [List.mem_singleton.mp hhint] at hperforms
  rcases hperforms with hperforms | ⟨hperforms, -⟩
  · cases hperforms
  · exact absurd hperforms (by decide)

private theorem heard_missed : Heard readySite .lifecycle (lifecyclePost "missed") := by
  have hactions : (lifecyclePost "missed").content.entries.filterMap entryAction
      = ["reconcile"] := by decide +kernel
  intro task htask
  unfold tasks at htask
  obtain rfl := List.mem_singleton.mp htask
  right
  refine ⟨Or.inr ⟨rfl, rfl⟩, ⟨by decide +kernel, rfl, rfl⟩, rfl, fun first _ => ?_⟩
  exact ⟨.absent, rfl, rfl, fun event hevent => absurd hevent List.not_mem_nil, List.not_mem_nil⟩

/-- A batch that asks for a reconcile is acted on. -/
theorem notification_acted_on_missed :
    ActedOn readySite .lifecycle (lifecyclePost "missed")
      (handle readySite (lifecyclePost "missed")) :=
  (notification_acted_on_iff (genuine_lifecyclePost (by decide +kernel)
    (by decide +kernel))).mpr heard_missed

end Microsoft
