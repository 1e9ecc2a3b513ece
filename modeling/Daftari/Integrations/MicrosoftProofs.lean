import Daftari.Lib.GroupsProofs
import Daftari.Lib.UrlProofs
import Daftari.Integrations.WebhookRunsProofs

/-! # Microsoft — the subscriptions of a channel

    `integrations/microsoft.ts`: one channel fans out to a subscription at Graph for every
    drive that is enrolled.  A set-up keeps what is fresh, renews or recreates what is not,
    creates what is missing and deletes what nobody is enrolled in any more; it stops at the
    first request that fails.

    * `Request`, `Answer`, `Graph.after`: what is asked of Graph, and what exists there then;
    * `ensureWebhook`: a set-up, with the requests it has made;
    * `ensureDrives_ok`, `deleteOrphans_ok`: what the two loops leave where they end;
    * `ensureDrives_quiet`: **a set-up that makes nothing new leaves nothing unlisted.** -/

namespace Microsoft

open Integration Web

/-! ## Requests and answers -/

inductive Request where
  | create (driveId notificationUrl lifecycleNotificationUrl clientState
      expirationDateTime : String)
  | renew (id expirationDateTime : String)
  | delete (id : String)
  deriving DecidableEq

/-- What becomes of a request: it fails and nothing is made of it, or there is a response,
    with its status and the strings of its body. -/
inductive Answer where
  | failed (message : String)
  | response (status : Nat) (id expirationDateTime : Option String)
  deriving DecidableEq

/-- `status < 200 || status >= 300`. -/
def isFailure (status : Nat) : Bool := status < 200 || 300 ≤ status

/-- The ids of the subscriptions at Graph that exist because of a set-up. -/
abbrev Graph := List String

/-- What exists after a request has been answered: the answers are true. -/
def Graph.after (graph : Graph) : Request × Answer → Graph
  | (_, .failed _) => graph
  | (.create .., .response status id _) =>
      if isFailure status then graph else id.getD "" :: graph
  | (.renew existing _, .response status id _) =>
      if status = 404 then graph.filter (· ≠ existing)
      else if isFailure status then graph
      else ((id.filter (· ≠ "")).getD existing) :: graph.filter (· ≠ existing)
  | (.delete id, .response status _ _) =>
      if status = 404 ∨ isFailure status = false then graph.filter (· ≠ id) else graph

/-! ## One request -/

def stringValue (value : Option String) : Option String := value.filter (· ≠ "")

/-- `createSubscription`: the id and the expiry. -/
def createSubscription : Answer → Except String (String × String)
  | .failed message => .error message
  | .response status id expirationDateTime =>
      if isFailure status then
        .error ("Microsoft Graph subscription create failed with status " ++ toString status)
      else
        match stringValue id, stringValue expirationDateTime with
        | some id, some expiresAt => .ok (id, expiresAt)
        | _, _ => .error "Microsoft Graph subscription create response is incomplete"

def deleteSubscription : Answer → Except String Unit
  | .failed message => .error message
  | .response status _ _ =>
      if status ≠ 404 ∧ isFailure status then
        .error ("Microsoft Graph subscription delete failed with status " ++ toString status)
      else .ok ()

/-- How Graph answers a set-up: a create by its drive, a renewal by the drive of the
    subscription, a delete by the place of the subscription in the channel. -/
structure Answers where
  create : String → Answer
  renew : String → Answer
  delete : Nat → Answer

/-! ## Drives -/

/-- `/drives/${driveId}/root`. -/
def driveRoot (driveId : String) : String := "/drives/" ++ driveId ++ "/root"

def driveIdFromResource (resource : String) : Option String :=
  let mark := "/drives/".toList
  if mark.isPrefixOf resource.toList then
    let rest := resource.toList.drop mark.length
    let driveId := rest.takeWhile (· ≠ '/')
    if driveId ≠ [] ∧ rest.drop driveId.length = "/root".toList then some (String.ofList driveId)
    else none
  else none

/-- `existingByDrive.get(driveId)`: the last one counts. -/
def existingByDrive (existing : List Subscription) (driveId : String) : Option Subscription :=
  existing.reverse.find? fun s => driveIdFromResource s.resource = some driveId

def driveIds (enrollment : List EnrollmentRecord) : List String :=
  (enrollment.map EnrollmentRecord.driveId).eraseDups

/-! ## A set-up -/

structure EnsureWebhookInput where
  callbackUrl : Url
  now : Int
  renewBefore : Int

def validHttpsUrl (url : Url) : Bool := url.scheme = "https".toList

/-- `subscriptionExpiration`: 41000 minutes from now. -/
def subscriptionExpiration (host : Host) (now : Int) : String := host.toISO (now + 41000 * 60000)

/-- `text.replace(/\/$/, "")`. -/
def dropSlash (text : List Char) : List Char :=
  if text.getLast? = some '/' then text.dropLast else text

/-- `${callbackUrl.replace(/\/$/, "")}/lifecycle`. -/
def lifecycleUrl (callbackUrl : List Char) : List Char :=
  dropSlash callbackUrl ++ "/lifecycle".toList

/-- What a set-up sends with every request. -/
structure Terms where
  notificationUrl : String
  lifecycleNotificationUrl : String
  secret : String
  expirationDateTime : String
  /-- `Date.parse(current.expiresAt) > renewBefore`. -/
  fresh : String → Bool

def Terms.createRequest (terms : Terms) (driveId : String) : Request :=
  .create driveId terms.notificationUrl terms.lifecycleNotificationUrl terms.secret
    terms.expirationDateTime

/-- `renewOrRecreateSubscription`, with its requests. -/
def renewOrRecreateSubscription (terms : Terms) (answers : Answers) (existingId driveId : String) :
    Except String (String × String) × List (Request × Answer) :=
  let patched := (Request.renew existingId terms.expirationDateTime, answers.renew driveId)
  match answers.renew driveId with
  | .failed message => (.error message, [patched])
  | .response status id expirationDateTime =>
      if status = 404 then
        (createSubscription (answers.create driveId),
          [patched, (terms.createRequest driveId, answers.create driveId)])
      else if isFailure status then
        (.error ("Microsoft Graph subscription renew failed with status " ++ toString status),
          [patched])
      else (.ok ((stringValue id).getD existingId,
        (stringValue expirationDateTime).getD terms.expirationDateTime), [patched])

/-- One turn of the first loop: the subscription of a drive, and the requests for it. -/
def ensureDrive (terms : Terms) (answers : Answers) (existing : List Subscription)
    (driveId : String) : Except String Subscription × List (Request × Answer) :=
  match existingByDrive existing driveId with
  | some current =>
      if terms.fresh current.expiresAt then (.ok current, [])
      else
        let r := renewOrRecreateSubscription terms answers current.id driveId
        (r.1.map fun s => ⟨s.1, driveRoot driveId, s.2⟩, r.2)
  | none =>
      ((createSubscription (answers.create driveId)).map fun s => ⟨s.1, driveRoot driveId, s.2⟩,
        [(terms.createRequest driveId, answers.create driveId)])

def ensureDrives (terms : Terms) (answers : Answers) (existing : List Subscription) :
    List String → Except String (List Subscription) × List (Request × Answer)
  | [] => (.ok [], [])
  | driveId :: rest =>
      match ensureDrive terms answers existing driveId with
      | (.error e, log) => (.error e, log)
      | (.ok s, log) =>
          let r := ensureDrives terms answers existing rest
          (r.1.map (s :: ·), log ++ r.2)

def claimedSubscriptionIds (existing : List Subscription) (driveIds : List String) : List String :=
  driveIds.filterMap fun driveId => (existingByDrive existing driveId).map Subscription.id

/-- The second loop, from a place in the channel on. -/
def deleteOrphans (answers : Answers) (claimed : List String) :
    Nat → List Subscription → Except String Unit × List (Request × Answer)
  | _, [] => (.ok (), [])
  | i, s :: rest =>
      if s.id ∈ claimed then deleteOrphans answers claimed (i + 1) rest
      else
        match deleteSubscription (answers.delete i) with
        | .error e => (.error e, [(.delete s.id, answers.delete i)])
        | .ok _ =>
            let r := deleteOrphans answers claimed (i + 1) rest
            (r.1, (.delete s.id, answers.delete i) :: r.2)

/-- The one of two that expires first; a comparison with what is no date is false. -/
def earlier (host : Host) (least current : Subscription) : Subscription :=
  match host.dateParse current.expiresAt, host.dateParse least.expiresAt with
  | some c, some l => if c < l then current else least
  | _, _ => least

def earliestSubscriptionExpiry (host : Host) : List Subscription → Option String
  | [] => none
  | first :: rest => some (rest.foldl (earlier host) first).expiresAt

/-- The texts a set-up mints, where the channel has none. -/
structure Minted where
  id : String
  secret : String

section

variable {D : Type} (host : Host) (minted : Minted) (state : ProviderState D)

/-- `state.webhook?.subscriptions ?? []`. -/
def existingSubscriptions : List Subscription :=
  (state.webhook.bind WebhookChannel.subscriptions).getD []

/-- The drives of `state.enrollment ?? []`. -/
def enrolledDrives : List String := driveIds (state.enrollment.getD [])

/-- The id and the secret of the channel: those it has, or new ones. -/
def channelId : String := (state.webhook.map WebhookChannel.id).getD minted.id

def channelSecret : String := (state.webhook.map WebhookChannel.secret).getD minted.secret

/-- What the set-up sends. -/
def setupTerms (input : EnsureWebhookInput) : Terms where
  notificationUrl := String.ofList input.callbackUrl.text
  lifecycleNotificationUrl := String.ofList (lifecycleUrl input.callbackUrl.text)
  secret := channelSecret minted state
  expirationDateTime := subscriptionExpiration host input.now
  fresh := fun expiresAt => (host.dateParse expiresAt).any fun t => input.renewBefore < t

def ensureWebhook (input : EnsureWebhookInput) (answers : Answers) :
    Except String WebhookChannel × List (Request × Answer) :=
  if validHttpsUrl input.callbackUrl then
    let existing := existingSubscriptions state
    let drives := enrolledDrives state
    let ensured := ensureDrives (setupTerms host minted state input) answers existing drives
    match ensured.1 with
    | .error e => (.error e, ensured.2)
    | .ok subscriptions =>
        let deleted := deleteOrphans answers (claimedSubscriptionIds existing drives) 0 existing
        match deleted.1 with
        | .error e => (.error e, ensured.2 ++ deleted.2)
        | .ok _ =>
            (.ok { id := channelId minted state
                   secret := channelSecret minted state
                   expiresAt := earliestSubscriptionExpiry host subscriptions
                   subscriptions := some subscriptions }, ensured.2 ++ deleted.2)
  else
    (.ok { id := channelId minted state
           secret := channelSecret minted state
           subscriptions := some [] }, [])

end

/-! ## Drives and their subscriptions -/

theorem driveIdFromResource_some {resource driveId : String}
    (h : driveIdFromResource resource = some driveId) : resource = driveRoot driveId := by
  unfold driveIdFromResource at h
  dsimp only at h
  split at h
  · rename_i hmark
    split at h
    · rename_i hdrive
      obtain ⟨rest, hrest⟩ := List.isPrefixOf_iff_prefix.mp hmark
      rw [← hrest, List.drop_left] at h hdrive
      obtain ⟨-, htail⟩ := hdrive
      have hid := Option.some.inj h
      have hsplit : rest = driveId.toList ++ "/root".toList := by
        rw [← hid, String.toList_ofList, ← htail]
        exact (List.take_append_drop _ rest).symm.trans
          (congrArg (· ++ _) (List.prefix_iff_eq_take.mp (List.takeWhile_prefix _)).symm)
      apply String.toList_injective
      rw [driveRoot, String.toList_append, String.toList_append, ← hrest, hsplit, List.append_assoc]
    · cases h
  · cases h

theorem driveRoot_injective {d d' : String} (h : driveRoot d = driveRoot d') : d = d' := by
  have hlist := congrArg String.toList h
  simp only [driveRoot, String.toList_append, List.append_assoc, List.append_cancel_left_eq,
    List.append_cancel_right_eq] at hlist
  exact String.toList_injective hlist

variable {existing : List Subscription} {terms : Terms} {answers : Answers} {graph : Graph}
  {driveId : String} {drives : List String}

variable {s : Subscription}

theorem existingByDrive_some (h : existingByDrive existing driveId = some s) :
    s ∈ existing ∧ s.resource = driveRoot driveId := by
  have hdrive := List.find?_some h
  exact ⟨List.mem_reverse.mp (List.mem_of_find?_eq_some h),
    driveIdFromResource_some (by simpa using hdrive)⟩

variable {id : String}

theorem mem_claimed : id ∈ claimedSubscriptionIds existing drives ↔
    ∃ driveId ∈ drives, ∃ s, existingByDrive existing driveId = some s ∧ s.id = id := by
  unfold claimedSubscriptionIds
  simp only [List.mem_filterMap, Option.map_eq_some_iff]

theorem stringValue_some {value : Option String} {s : String} (h : stringValue value = some s) :
    value = some s ∧ s ≠ "" := by
  unfold stringValue at h
  rw [Option.filter_eq_some_iff] at h
  exact ⟨h.1, of_decide_eq_true h.2⟩

/-! ## The earliest expiry -/

/-- `s` expires no later than `s'`. -/
def NoLater (host : Host) (s s' : Subscription) : Prop :=
  ∀ t t', host.dateParse s.expiresAt = some t → host.dateParse s'.expiresAt = some t' → t ≤ t'

variable {current : Subscription}

theorem earlier_spec {host : Host} {least : Subscription} {l c : Int}
    (hl : host.dateParse least.expiresAt = some l)
    (hc : host.dateParse current.expiresAt = some c) : (earlier host least current = least ∧ l ≤ c)
      ∨ (earlier host least current = current ∧ c < l) := by
  unfold earlier
  rw [hl, hc]
  dsimp only
  by_cases hlt : c < l
  · rw [if_pos hlt]
    exact Or.inr ⟨rfl, hlt⟩
  · rw [if_neg hlt]
    exact Or.inl ⟨rfl, Int.not_lt.mp hlt⟩

variable {rest : List Subscription}

theorem foldl_earlier {host : Host} {first : Subscription}
    (h : ∀ s ∈ first :: rest, ∃ t, host.dateParse s.expiresAt = some t) :
    rest.foldl (earlier host) first ∈ first :: rest ∧
      ∀ s ∈ first :: rest, NoLater host (rest.foldl (earlier host) first) s := by
  induction rest generalizing first with
  | nil =>
      refine ⟨List.mem_cons_self, fun s hs t t' ht ht' => ?_⟩
      obtain rfl := List.mem_singleton.mp hs
      exact le_of_eq (Option.some.inj (ht.symm.trans ht'))
  | cons current rest ih =>
      obtain ⟨l, hl⟩ := h first List.mem_cons_self
      obtain ⟨c, hc⟩ := h current (List.mem_cons_of_mem _ List.mem_cons_self)
      have hrest : ∀ s ∈ rest, ∃ t, host.dateParse s.expiresAt = some t := fun s hs =>
        h s (List.mem_cons_of_mem _ (List.mem_cons_of_mem _ hs))
      rw [List.foldl_cons]
      rcases earlier_spec hl hc with ⟨heq, hle⟩ | ⟨heq, hlt⟩
      · rw [heq]
        obtain ⟨hmem, hleast⟩ := ih (List.forall_mem_cons.mpr ⟨⟨l, hl⟩, hrest⟩)
        refine ⟨?_, List.forall_mem_cons.mpr ⟨hleast first List.mem_cons_self,
          List.forall_mem_cons.mpr ⟨?_, fun s hs => hleast s (List.mem_cons_of_mem _ hs)⟩⟩⟩
        · rcases List.mem_cons.mp hmem with hfirst | hlater
          · rw [hfirst]
            exact List.mem_cons_self
          · exact List.mem_cons_of_mem _ (List.mem_cons_of_mem _ hlater)
        · intro t t' ht ht'
          obtain rfl := Option.some.inj (hc.symm.trans ht')
          exact le_trans (hleast first List.mem_cons_self t l ht hl) hle
      · rw [heq]
        obtain ⟨hmem, hleast⟩ := ih (List.forall_mem_cons.mpr ⟨⟨c, hc⟩, hrest⟩)
        refine ⟨List.mem_cons_of_mem _ hmem, List.forall_mem_cons.mpr ⟨?_, hleast⟩⟩
        intro t t' ht ht'
        obtain rfl := Option.some.inj (hl.symm.trans ht')
        exact le_of_lt (lt_of_le_of_lt (hleast current List.mem_cons_self t c ht hc) hlt)

/-- **The expiry of a channel is the earliest of its subscriptions'.** -/
theorem earliestSubscriptionExpiry_spec {host : Host} {l : List Subscription}
    (h : ∀ s ∈ l, ∃ t, host.dateParse s.expiresAt = some t) :
    (l = [] ∧ earliestSubscriptionExpiry host l = none) ∨
      ∃ s ∈ l, earliestSubscriptionExpiry host l = some s.expiresAt ∧
        ∀ s' ∈ l, NoLater host s s' := by
  cases l with
  | nil => exact Or.inl ⟨rfl, rfl⟩
  | cons first rest =>
      obtain ⟨hmem, hleast⟩ := foldl_earlier h
      exact Or.inr ⟨_, hmem, rfl, hleast⟩

/-! ## What exists after requests -/

def Graph.run (graph : Graph) (log : List (Request × Answer)) : Graph := log.foldl Graph.after graph

theorem Graph.run_append (graph : Graph) (log log' : List (Request × Answer)) :
    graph.run (log ++ log') = (graph.run log).run log' := List.foldl_append

def isMade : Answer → Bool
  | .failed _ => false
  | .response status _ _ => !isFailure status

/-- The answer to a create says it with all that is needed. -/
def isComplete : Answer → Bool
  | .failed _ => false
  | .response status id expiresAt =>
      !isFailure status && (stringValue id).isSome && (stringValue expiresAt).isSome

/-- The answer to a delete says that the subscription is gone. -/
def isGone : Answer → Bool
  | .failed _ => false
  | .response status _ _ => status = 404 || !isFailure status

variable {a : Answer}

theorem createSubscription_ok {s : String × String} (h : createSubscription a = .ok s) :
    ∃ status, a = .response status (some s.1) (some s.2) ∧ isFailure status = false ∧
      s.1 ≠ "" ∧ s.2 ≠ "" := by
  cases a with
  | failed message => cases h
  | response status id expiresAt =>
      unfold createSubscription at h
      dsimp only at h
      split at h
      · cases h
      · rename_i hstatus
        split at h
        · rename_i id' expiresAt' hid hexpires
          obtain ⟨rfl, hne⟩ := stringValue_some hid
          obtain ⟨rfl, hne'⟩ := stringValue_some hexpires
          obtain rfl := Except.ok.inj h
          exact ⟨status, rfl, Bool.not_eq_true _ ▸ hstatus, hne, hne'⟩
        · cases h

theorem createSubscription_isComplete :
    (∃ s, createSubscription a = .ok s) ↔ isComplete a = true := by
  constructor
  · rintro ⟨s, hs⟩
    obtain ⟨status, rfl, hstatus, hid, hexpires⟩ := createSubscription_ok hs
    simp [isComplete, hstatus, stringValue, hid, hexpires]
  · intro h
    cases a with
    | failed message => cases h
    | response status id expiresAt =>
        simp only [isComplete, Bool.and_eq_true, Bool.not_eq_true', Option.isSome_iff_exists] at h
        obtain ⟨⟨hstatus, id', hid⟩, expiresAt', hexpires⟩ := h
        exact ⟨(id', expiresAt'), by simp [createSubscription, hstatus, hid, hexpires]⟩

theorem deleteSubscription_isGone : deleteSubscription a = .ok () ↔ isGone a = true := by
  cases a with
  | failed message => exact ⟨nofun, nofun⟩
  | response status id expiresAt =>
      unfold deleteSubscription isGone
      by_cases hstatus : status = 404
      · simp [hstatus]
      · cases hfail : isFailure status <;> simp [hstatus]

/-! ## What a drive's requests come to -/

/-- Do the requests for a drive make a subscription that the channel does not have? -/
def makes (terms : Terms) (answers : Answers) (existing : List Subscription) (driveId : String) :
    Bool :=
  match existingByDrive existing driveId with
  | none => isMade (answers.create driveId)
  | some current => !terms.fresh current.expiresAt &&
      match answers.renew driveId with
      | .failed _ => false
      | .response status id _ =>
          if status = 404 then isMade (answers.create driveId)
          else !isFailure status && (stringValue id).getD current.id ≠ current.id

/-- Does the set-up stop at the drive? -/
def stops (terms : Terms) (answers : Answers) (existing : List Subscription) (driveId : String) :
    Bool :=
  match existingByDrive existing driveId with
  | none => !isComplete (answers.create driveId)
  | some current => !terms.fresh current.expiresAt &&
      match answers.renew driveId with
      | .failed _ => true
      | .response status _ _ =>
          if status = 404 then !isComplete (answers.create driveId) else isFailure status

/-- The drives up to the first that the set-up stops at. -/
def reached (stops : String → Bool) : List String → List String
  | [] => []
  | driveId :: rest => if stops driveId then [driveId] else driveId :: reached stops rest

/-- The expiries that Graph answers with for a drive are later than the renewals. -/
structure Lasting (terms : Terms) (answers : Answers) (driveId : String) : Prop where
  create : ∀ status id expiresAt, answers.create driveId = .response status id (some expiresAt) →
    isFailure status = false → terms.fresh expiresAt = true
  renew : ∀ status id expiresAt, answers.renew driveId = .response status id expiresAt →
    isFailure status = false →
    terms.fresh ((stringValue expiresAt).getD terms.expirationDateTime) = true

/-! ## One drive -/

/-- What the requests for a drive leave, where they end well. -/
structure Ensured (terms : Terms) (answers : Answers) (existing : List Subscription)
    (driveId : String) (s : Subscription) (log : List (Request × Answer)) : Prop where
  resource : s.resource = driveRoot driveId
  named : s ∈ existing ∨ s.id ≠ "" ∨ ∃ current ∈ existing, s.id = current.id
  lasting : Lasting terms answers driveId → terms.fresh s.expiresAt = true
  listed : ∀ graph : Graph, ∀ id ∈ graph.run log, id = s.id ∨
    (id ∈ graph ∧ ∀ current, existingByDrive existing driveId = some current → id ≠ current.id)

theorem ensureDrive_none (h : existingByDrive existing driveId = none) :
    ensureDrive terms answers existing driveId
      = ((createSubscription (answers.create driveId)).map fun s => ⟨s.1, driveRoot driveId, s.2⟩,
        [(terms.createRequest driveId, answers.create driveId)]) := by
  unfold ensureDrive
  rw [h]

theorem ensureDrive_fresh (h : existingByDrive existing driveId = some current)
    (hfresh : terms.fresh current.expiresAt = true) :
    ensureDrive terms answers existing driveId = (.ok current, []) := by
  unfold ensureDrive
  rw [h]
  simp only [hfresh, if_true]

theorem ensureDrive_stale (h : existingByDrive existing driveId = some current)
    (hstale : terms.fresh current.expiresAt = false) : ensureDrive terms answers existing driveId
      = ((renewOrRecreateSubscription terms answers current.id driveId).1.map
          fun s => ⟨s.1, driveRoot driveId, s.2⟩,
        (renewOrRecreateSubscription terms answers current.id driveId).2) := by
  unfold ensureDrive
  rw [h]
  simp only [hstale, Bool.false_eq_true, if_false]

theorem map_ok {α β : Type} {f : α → β} {x : Except String α} {b : β} (h : x.map f = .ok b) :
    ∃ a, x = .ok a ∧ f a = b := by
  cases x with
  | error e => cases h
  | ok a => exact ⟨a, rfl, Except.ok.inj h⟩

theorem renewOrRecreate_ok {existingId : String} {s : String × String}
    (h : (renewOrRecreateSubscription terms answers existingId driveId).1 = .ok s) :
    ∃ status id expiresAt, answers.renew driveId = .response status id expiresAt ∧
      ((status = 404 ∧ createSubscription (answers.create driveId) = .ok s) ∨
        (status ≠ 404 ∧ isFailure status = false ∧ s = ((stringValue id).getD existingId,
            (stringValue expiresAt).getD terms.expirationDateTime))) := by
  unfold renewOrRecreateSubscription at h
  cases hanswer : answers.renew driveId with
  | failed message =>
      rw [hanswer] at h
      cases h
  | response status id expiresAt =>
      rw [hanswer] at h
      dsimp only at h
      refine ⟨status, id, expiresAt, rfl, ?_⟩
      by_cases hmissing : status = 404
      · rw [if_pos hmissing] at h
        exact Or.inl ⟨hmissing, h⟩
      · rw [if_neg hmissing] at h
        cases hfail : isFailure status with
        | true =>
            rw [hfail] at h
            cases h
        | false =>
            rw [hfail] at h
            exact Or.inr ⟨hmissing, rfl, (Except.ok.inj h).symm⟩

theorem renewOrRecreate_log {existingId : String} {status : Nat} {id expiresAt : Option String}
    (h : answers.renew driveId = .response status id expiresAt) :
    (renewOrRecreateSubscription terms answers existingId driveId).2
      = (.renew existingId terms.expirationDateTime, .response status id expiresAt) ::
        if status = 404 then [(terms.createRequest driveId, answers.create driveId)] else [] := by
  unfold renewOrRecreateSubscription
  rw [h]
  dsimp only
  by_cases hmissing : status = 404
  · rw [if_pos hmissing, if_pos hmissing]
  · rw [if_neg hmissing, if_neg hmissing]
    split <;> rfl

theorem after_create {s : String × String} (h : createSubscription a = .ok s) :
    graph.after (terms.createRequest driveId, a) = s.1 :: graph := by
  obtain ⟨status, rfl, hstatus, -, -⟩ := createSubscription_ok h
  simp [Graph.after, Terms.createRequest, hstatus]

/-- **The requests for a drive leave the subscription that is returned, and not the one that
    stood for the drive before.** -/
theorem ensureDrive_ok (h : (ensureDrive terms answers existing driveId).1 = .ok s) :
    Ensured terms answers existing driveId s (ensureDrive terms answers existing driveId).2 := by
  cases hcurrent : existingByDrive existing driveId with
  | none =>
      rw [ensureDrive_none hcurrent] at h ⊢
      obtain ⟨made, hmade, rfl⟩ := map_ok h
      obtain ⟨status, hanswer, hstatus, hid, -⟩ := createSubscription_ok hmade
      refine ⟨rfl, Or.inr (Or.inl hid), fun hlasting => ?_, fun graph id hmem => ?_⟩
      · exact hlasting.create status _ _ hanswer hstatus
      · rw [Graph.run, List.foldl_cons, List.foldl_nil, after_create hmade] at hmem
        rcases List.mem_cons.mp hmem with rfl | hold
        · exact Or.inl rfl
        · refine Or.inr ⟨hold, fun current hsome => ?_⟩
          rw [hcurrent] at hsome
          cases hsome
  | some current =>
      obtain ⟨hexisting, hresource⟩ := existingByDrive_some hcurrent
      cases hfresh : terms.fresh current.expiresAt with
      | true =>
          rw [ensureDrive_fresh hcurrent hfresh] at h ⊢
          obtain rfl := Except.ok.inj h
          refine ⟨hresource, Or.inl hexisting, fun _ => hfresh, fun graph id hmem => ?_⟩
          by_cases hsame : id = current.id
          · exact Or.inl hsame
          · refine Or.inr ⟨hmem, fun other hother => ?_⟩
            obtain rfl := Option.some.inj (hcurrent.symm.trans hother)
            exact hsame
      | false =>
          rw [ensureDrive_stale hcurrent hfresh] at h ⊢
          obtain ⟨renewed, hrenewed, rfl⟩ := map_ok h
          obtain ⟨status, id, expiresAt, hanswer, hcases⟩ := renewOrRecreate_ok hrenewed
          rcases hcases with ⟨hmissing, hmade⟩ | ⟨hfound, hstatus, rfl⟩
          · -- the subscription is gone, and a new one stands for the drive
            obtain ⟨status', hcreate, hstatus', hid, -⟩ := createSubscription_ok hmade
            refine ⟨rfl, Or.inr (Or.inl hid), fun hlasting => ?_, fun graph id' hmem => ?_⟩
            · exact hlasting.create status' _ _ hcreate hstatus'
            · rw [renewOrRecreate_log hanswer, if_pos hmissing, Graph.run, List.foldl_cons,
                List.foldl_cons, List.foldl_nil, after_create hmade] at hmem
              rcases List.mem_cons.mp hmem with rfl | hold
              · exact Or.inl rfl
              · simp only [Graph.after, hmissing, if_true, List.mem_filter, decide_eq_true_iff]
                  at hold
                refine Or.inr ⟨hold.1, fun other hother => ?_⟩
                obtain rfl := Option.some.inj (hcurrent.symm.trans hother)
                exact hold.2
          · refine ⟨rfl, ?_, fun hlasting => hlasting.renew status id expiresAt hanswer hstatus,
              fun graph id' hmem => ?_⟩
            · cases hid : stringValue id with
              | none => exact Or.inr (Or.inr ⟨current, hexisting, rfl⟩)
              | some told => exact Or.inr (Or.inl (stringValue_some hid).2)
            · rw [renewOrRecreate_log hanswer, if_neg hfound, Graph.run, List.foldl_cons,
                List.foldl_nil] at hmem
              simp only [Graph.after, hfound, hstatus, if_false, Bool.false_eq_true] at hmem
              rcases List.mem_cons.mp hmem with rfl | hold
              · exact Or.inl rfl
              · simp only [List.mem_filter, decide_eq_true_iff] at hold
                refine Or.inr ⟨hold.1, fun other hother => ?_⟩
                obtain rfl := Option.some.inj (hcurrent.symm.trans hother)
                exact hold.2

theorem ensureDrive_stops : (∃ s, (ensureDrive terms answers existing driveId).1 = .ok s) ↔
    stops terms answers existing driveId = false := by
  have hmap : ∀ {α β : Type} (f : α → β) (x : Except String α),
      (∃ b, x.map f = .ok b) ↔ ∃ a, x = .ok a := by
    intro α β f x
    cases x with
    | error e => exact ⟨nofun, nofun⟩
    | ok a => exact ⟨fun _ => ⟨a, rfl⟩, fun _ => ⟨f a, rfl⟩⟩
  unfold stops
  cases hcurrent : existingByDrive existing driveId with
  | none =>
      rw [ensureDrive_none hcurrent, hmap, createSubscription_isComplete]
      simp
  | some current =>
      cases hfresh : terms.fresh current.expiresAt with
      | true => simp [ensureDrive_fresh hcurrent hfresh, hfresh]
      | false =>
          rw [ensureDrive_stale hcurrent hfresh, hmap]
          unfold renewOrRecreateSubscription
          cases hanswer : answers.renew driveId with
          | failed message => simp [hfresh]
          | response status id expiresAt =>
              by_cases hmissing : status = 404
              · simp only [hmissing, if_true, hfresh, createSubscription_isComplete]
                simp
              · cases hfail : isFailure status <;> simp [hmissing, hfresh, hfail]

/-- **Requests that make nothing new leave only what is there or in the channel.** -/
theorem ensureDrive_quiet (h : makes terms answers existing driveId = false) (graph : Graph)
    (hid : id ∈ graph.run (ensureDrive terms answers existing driveId).2) :
    id ∈ graph ∨ id ∈ existing.map Subscription.id := by
  have hcreate : ∀ g : Graph, isMade (answers.create driveId) = false →
      g.after (terms.createRequest driveId, answers.create driveId) = g := by
    intro g hmade
    cases hanswer : answers.create driveId with
    | failed message => rfl
    | response status id expiresAt =>
        rw [hanswer] at hmade
        have hfail : isFailure status = true := by simpa [isMade] using hmade
        simp [Graph.after, Terms.createRequest, hfail]
  unfold makes at h
  cases hcurrent : existingByDrive existing driveId with
  | none =>
      rw [hcurrent] at h
      rw [ensureDrive_none hcurrent, Graph.run, List.foldl_cons, List.foldl_nil,
        hcreate graph h] at hid
      exact Or.inl hid
  | some current =>
      have hlisted := List.mem_map_of_mem (f := Subscription.id) (existingByDrive_some hcurrent).1
      rw [hcurrent] at h
      cases hfresh : terms.fresh current.expiresAt with
      | true =>
          rw [ensureDrive_fresh hcurrent hfresh] at hid
          exact Or.inl hid
      | false =>
          rw [ensureDrive_stale hcurrent hfresh] at hid
          simp only [hfresh, Bool.not_false, Bool.true_and] at h
          cases hanswer : answers.renew driveId with
          | failed message =>
              simp only [renewOrRecreateSubscription, hanswer] at hid
              exact Or.inl hid
          | response status told expiresAt =>
              rw [hanswer] at h
              rw [renewOrRecreate_log hanswer] at hid
              by_cases hmissing : status = 404
              · simp only [hmissing, if_true] at h
                rw [if_pos hmissing, Graph.run, List.foldl_cons, List.foldl_cons, List.foldl_nil,
                  hcreate _ h] at hid
                simp only [Graph.after, hmissing, if_true, List.mem_filter] at hid
                exact Or.inl hid.1
              · rw [if_neg hmissing, Graph.run, List.foldl_cons, List.foldl_nil] at hid
                simp only [Graph.after, hmissing, if_false] at hid
                simp only [hmissing, if_false, Bool.and_eq_false_iff, Bool.not_eq_false',
                  decide_eq_false_iff_not, not_not] at h
                rcases h with hfail | hsame
                · rw [if_pos hfail] at hid
                  exact Or.inl hid
                · cases hfail : isFailure status with
                  | true =>
                      rw [hfail] at hid
                      exact Or.inl hid
                  | false =>
                      rw [hfail] at hid
                      rcases List.mem_cons.mp hid with rfl | hold
                      · right
                        have hsame' : (told.filter (· ≠ "")).getD current.id = current.id := hsame
                        rw [hsame']
                        exact hlisted
                      · exact Or.inl (List.mem_filter.mp hold).1

/-! ## The loops -/

theorem ensureDrives_error {rest : List String} {e : String} {log : List (Request × Answer)}
    (h : ensureDrive terms answers existing driveId = (.error e, log)) :
    ensureDrives terms answers existing (driveId :: rest) = (.error e, log) := by
  unfold ensureDrives
  rw [h]

theorem ensureDrives_next {rest : List String} {log : List (Request × Answer)}
    (h : ensureDrive terms answers existing driveId = (.ok s, log)) :
    ensureDrives terms answers existing (driveId :: rest)
      = ((ensureDrives terms answers existing rest).1.map (s :: ·),
        log ++ (ensureDrives terms answers existing rest).2) := by
  rw [ensureDrives, h]

variable {claimed : List String}

theorem deleteOrphans_claimed {i : Nat} (h : s.id ∈ claimed) :
    deleteOrphans answers claimed i (s :: rest) = deleteOrphans answers claimed (i + 1) rest := by
  rw [deleteOrphans, if_pos h]

theorem deleteOrphans_failed {i : Nat} {e : String} (h : s.id ∉ claimed)
    (he : deleteSubscription (answers.delete i) = .error e) :
    deleteOrphans answers claimed i (s :: rest)
      = (.error e, [(.delete s.id, answers.delete i)]) := by
  rw [deleteOrphans, if_neg h, he]

theorem deleteOrphans_next {i : Nat} (h : s.id ∉ claimed)
    (hok : deleteSubscription (answers.delete i) = .ok ()) :
    deleteOrphans answers claimed i (s :: rest) = ((deleteOrphans answers claimed (i + 1) rest).1,
        (.delete s.id, answers.delete i) :: (deleteOrphans answers claimed (i + 1) rest).2) := by
  rw [deleteOrphans, if_neg h, hok]

/-- What the first loop leaves, where it ends. -/
structure AllEnsured (terms : Terms) (answers : Answers) (existing : List Subscription)
    (drives : List String) (subscriptions : List Subscription) (log : List (Request × Answer)) :
    Prop where
  resources : subscriptions.map Subscription.resource = drives.map driveRoot
  named : ∀ s ∈ subscriptions, s ∈ existing ∨ s.id ≠ "" ∨ ∃ current ∈ existing, s.id = current.id
  lasting : (∀ driveId ∈ drives, Lasting terms answers driveId) →
    ∀ s ∈ subscriptions, terms.fresh s.expiresAt = true
  listed : ∀ graph : Graph, ∀ id ∈ graph.run log, id ∈ subscriptions.map Subscription.id ∨
    (id ∈ graph ∧ id ∉ claimedSubscriptionIds existing drives)

/-- **The first loop lists a subscription for every drive, and what else is there was not
    claimed.** -/
theorem ensureDrives_ok {subscriptions : List Subscription}
    (h : (ensureDrives terms answers existing drives).1 = .ok subscriptions) :
    AllEnsured terms answers existing drives subscriptions
      (ensureDrives terms answers existing drives).2 := by
  induction drives generalizing subscriptions with
  | nil =>
      obtain rfl := Except.ok.inj h
      exact ⟨rfl, nofun, fun _ => nofun, fun graph id hid => Or.inr ⟨hid, List.not_mem_nil⟩⟩
  | cons driveId rest ih =>
      rcases hone : ensureDrive terms answers existing driveId with ⟨result, log⟩
      cases result with
      | error e =>
          rw [ensureDrives_error hone] at h
          cases h
      | ok s =>
          rw [ensureDrives_next hone] at h ⊢
          obtain ⟨later, hlater, rfl⟩ := map_ok h
          have hfirst := ensureDrive_ok (congrArg Prod.fst hone)
          rw [hone] at hfirst
          have hrest := ih hlater
          refine ⟨?_, ?_, ?_, ?_⟩
          · rw [List.map_cons, List.map_cons, hfirst.resource, hrest.resources]
          · intro s' hs'
            rcases List.mem_cons.mp hs' with rfl | hs'
            · exact hfirst.named
            · exact hrest.named s' hs'
          · intro hall s' hs'
            rcases List.mem_cons.mp hs' with rfl | hs'
            · exact hfirst.lasting (hall driveId List.mem_cons_self)
            · exact hrest.lasting (fun d hd => hall d (List.mem_cons_of_mem _ hd)) s' hs'
          · intro graph id hid
            rw [Graph.run_append] at hid
            rw [List.map_cons, List.mem_cons]
            rcases hrest.listed _ id hid with hlisted | ⟨hthere, hunclaimed⟩
            · exact Or.inl (Or.inr hlisted)
            · rcases hfirst.listed graph id hthere with rfl | ⟨hgraph, hother⟩
              · exact Or.inl (Or.inl rfl)
              · refine Or.inr ⟨hgraph, ?_⟩
                rw [mem_claimed]
                rintro ⟨d, hd, current, hcurrent, rfl⟩
                rcases List.mem_cons.mp hd with rfl | hd
                · exact hother current hcurrent rfl
                · exact hunclaimed (mem_claimed.mpr ⟨d, hd, current, hcurrent, rfl⟩)

theorem ensureDrives_stops : (∃ l, (ensureDrives terms answers existing drives).1 = .ok l) ↔
    ∀ driveId ∈ drives, stops terms answers existing driveId = false := by
  induction drives with
  | nil => exact ⟨fun _ => nofun, fun _ => ⟨[], rfl⟩⟩
  | cons driveId rest ih =>
      rw [List.forall_mem_cons, ← ih, ← ensureDrive_stops]
      rcases hone : ensureDrive terms answers existing driveId with ⟨result, log⟩
      cases result with
      | error e =>
          rw [ensureDrives_error hone]
          refine iff_of_false nofun ?_
          rintro ⟨⟨s, hs⟩, -⟩
          cases hs
      | ok s =>
          rw [ensureDrives_next hone]
          constructor
          · rintro ⟨l, hl⟩
            obtain ⟨later, hlater, -⟩ := map_ok hl
            exact ⟨⟨s, rfl⟩, later, hlater⟩
          · rintro ⟨-, later, hlater⟩
            exact ⟨s :: later, by rw [hlater]; rfl⟩

/-- **A first loop that makes nothing new leaves nothing that is not in the channel.** -/
theorem ensureDrives_quiet (h : ∀ driveId ∈ reached (stops terms answers existing) drives,
      makes terms answers existing driveId = false) (graph : Graph)
    (hid : id ∈ graph.run (ensureDrives terms answers existing drives).2) :
    id ∈ graph ∨ id ∈ existing.map Subscription.id := by
  induction drives generalizing graph with
  | nil => exact Or.inl hid
  | cons driveId rest ih =>
      have hhead : driveId ∈ reached (stops terms answers existing) (driveId :: rest) := by
        unfold reached
        split
        · exact List.mem_cons_self
        · exact List.mem_cons_self
      have hquiet : ∀ (g : Graph) (i : String),
          i ∈ g.run (ensureDrive terms answers existing driveId).2 →
            i ∈ g ∨ i ∈ existing.map Subscription.id :=
        fun g _ => ensureDrive_quiet (h driveId hhead) g
      have hstops : (∃ s, (ensureDrive terms answers existing driveId).1 = .ok s) ↔
          stops terms answers existing driveId = false := ensureDrive_stops
      rcases hone : ensureDrive terms answers existing driveId with ⟨result, log⟩
      rw [hone] at hquiet hstops
      cases result with
      | error e =>
          rw [ensureDrives_error hone] at hid
          exact hquiet graph id hid
      | ok s =>
          rw [ensureDrives_next hone, Graph.run_append] at hid
          have hgoes : stops terms answers existing driveId = false := hstops.mp ⟨s, rfl⟩
          have hrest : ∀ d ∈ reached (stops terms answers existing) rest,
              makes terms answers existing d = false := by
            intro d hd
            refine h d ?_
            unfold reached
            rw [hgoes, if_neg Bool.false_ne_true]
            exact List.mem_cons_of_mem _ hd
          rcases ih hrest _ hid with hthere | hlisted
          · exact hquiet graph id hthere
          · exact Or.inr hlisted

theorem after_delete {id' : String} (h : id' ∈ graph.after (.delete id, a)) :
    id' ∈ graph ∧ (isGone a = true → id' ≠ id) := by
  cases a with
  | failed message => exact ⟨h, nofun⟩
  | response status told expiresAt =>
      unfold Graph.after at h
      dsimp only at h
      split at h
      · rw [List.mem_filter] at h
        exact ⟨h.1, fun _ => of_decide_eq_true h.2⟩
      · rename_i hthere
        refine ⟨h, fun hgone => absurd ?_ hthere⟩
        simpa [isGone] using hgone

/-- **The second loop leaves only what is claimed, of the channel, where it ends**; and it
    makes nothing. -/
theorem deleteOrphans_listed (claimed : List String) (i : Nat) (graph : Graph)
    (hid : id ∈ graph.run (deleteOrphans answers claimed i existing).2) :
    id ∈ graph ∧ ((deleteOrphans answers claimed i existing).1 = .ok () →
      id ∈ existing.map Subscription.id → id ∈ claimed) := by
  induction existing generalizing i graph with
  | nil => exact ⟨hid, fun _ => nofun⟩
  | cons s rest ih =>
      by_cases hclaimed : s.id ∈ claimed
      · rw [deleteOrphans_claimed hclaimed] at hid ⊢
        obtain ⟨hgraph, hrest⟩ := ih (i + 1) graph hid
        refine ⟨hgraph, fun hok hmem => ?_⟩
        rcases List.mem_cons.mp hmem with rfl | hmem
        · exact hclaimed
        · exact hrest hok hmem
      · cases hdeleted : deleteSubscription (answers.delete i) with
        | error e =>
            rw [deleteOrphans_failed hclaimed hdeleted] at hid ⊢
            exact ⟨(after_delete hid).1, nofun⟩
        | ok u =>
            rw [deleteOrphans_next hclaimed hdeleted] at hid ⊢
            obtain ⟨hafter, hrest⟩ := ih (i + 1) _ hid
            obtain ⟨hgraph, hne⟩ := after_delete hafter
            refine ⟨hgraph, fun hok hmem => ?_⟩
            rcases List.mem_cons.mp hmem with rfl | hmem
            · exact absurd rfl (hne (deleteSubscription_isGone.mp hdeleted))
            · exact hrest hok hmem

theorem deleteOrphans_gone (claimed : List String) (i : Nat) :
    (deleteOrphans answers claimed i existing).1 = .ok () ↔
      ∀ k s, existing[k]? = some s → s.id ∉ claimed → isGone (answers.delete (i + k)) = true := by
  induction existing generalizing i with
  | nil => exact ⟨fun _ => nofun, fun _ => rfl⟩
  | cons s rest ih =>
      have hshift : (∀ k s', rest[k]? = some s' → s'.id ∉ claimed →
            isGone (answers.delete (i + 1 + k)) = true) ↔
          ∀ k s', (s :: rest)[k + 1]? = some s' → s'.id ∉ claimed →
            isGone (answers.delete (i + (k + 1))) = true := by
        simp only [List.getElem?_cons_succ, Nat.add_assoc, Nat.add_comm 1]
      have hsplit : (∀ k s', (s :: rest)[k]? = some s' → s'.id ∉ claimed →
            isGone (answers.delete (i + k)) = true) ↔
          (s.id ∉ claimed → isGone (answers.delete i) = true) ∧
            ∀ k s', (s :: rest)[k + 1]? = some s' → s'.id ∉ claimed →
              isGone (answers.delete (i + (k + 1))) = true := by
        constructor
        · exact fun h => ⟨h 0 s rfl, fun k => h (k + 1)⟩
        · rintro ⟨hzero, hsucc⟩ k s' hs' hfree
          cases k with
          | zero =>
              obtain rfl := Option.some.inj hs'
              exact hzero hfree
          | succ k => exact hsucc k s' hs' hfree
      rw [hsplit, ← hshift, ← ih (i + 1)]
      by_cases hclaimed : s.id ∈ claimed
      · rw [deleteOrphans_claimed hclaimed]
        exact ⟨fun h => ⟨fun hfree => absurd hclaimed hfree, h⟩, And.right⟩
      · rw [← deleteSubscription_isGone]
        cases hdeleted : deleteSubscription (answers.delete i) with
        | error e =>
            rw [deleteOrphans_failed hclaimed hdeleted]
            refine iff_of_false nofun ?_
            rintro ⟨hgone, -⟩
            cases hgone hclaimed
        | ok u =>
            rw [deleteOrphans_next hclaimed hdeleted]
            exact ⟨fun h => ⟨fun _ => rfl, h⟩, And.right⟩

end Microsoft
