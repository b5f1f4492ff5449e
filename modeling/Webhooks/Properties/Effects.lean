import Webhooks.Protocol.Contents
import Webhooks.Protocol.FanOut
import Webhooks.Protocol.Publish
import Webhooks.Receiver

/-!
# Properties — Effects

The delivery contract seen from the receivers: at-least-once delivery to a receiver that deduplicates on
successfully processed event ids runs an event's business logic to completion once.  Workers may stall
and die, requests may be lost or arrive again, answers may be lost.

* `WorldInv`, `worldInv_of_reachable`.
* **`request_genuine`**: what is sent is a published event, to a subscribed endpoint of its tenant.
* **`effect_once`**: a receiver runs an event's logic until it completes once, and never again.
* **`success_processed`**: a delivery that succeeded, and a recorded `2xx`, were processed.
* **`processed_published`**: what is processed was published, for an endpoint behind that URL.
-/

namespace Webhooks

open Lib

/-! ### The invariant -/

/-- The receiver of the endpoint has processed the event. -/
def World.Processed (W : World) (eventId endpointId : Uuid) : Prop :=
  ∃ ep ∈ W.sys.store.endpoints, ep.id = endpointId ∧ eventId ∈ (W.receivers ep.url).processedEventIds

/-- What is known of a request that was issued. -/
structure World.Genuine (o : Outside) (cfg : Config) (W : World) (p : ClaimedDelivery × WebhookRequest) : Prop where
  carried : p.1.IsCarried W.sys.store
  attempt : IsAttempt W.sys.store p.1.attemptId p.1.deliveryId p.1.attemptNumber
  request : ∃ w, ∃ t ≤ W.sys.now, p.2 = p.1.request o (cfg.workers w) t

/-- The answers for an event are those of a consumer of event ids. -/
def World.AnswersAs (o : Outside) (W : World) (url : String) (eventId : Uuid) : Prop :=
  ∃ accepted, W.answersFor url eventId = accepted.map ConformingReceiver.status ∧
    Consumer.Answered (o.shouldSucceed url) (W.receivers url).consumer eventId accepted

structure WorldInv (o : Outside) (cfg : Config) (W : World) : Prop where
  sent : ∀ p ∈ W.sent, W.Genuine o cfg p
  answers : ∀ a ∈ W.answers, a.1 ∈ W.sent
  answered : ∀ url eventId, W.AnswersAs o url eventId
  recorded : ∀ a ∈ W.sys.store.attempts, a.is2xx = true →
    ∃ d ∈ W.sys.store.deliveries, d.id = a.deliveryId ∧ W.Processed d.eventId d.endpointId
  succeeded : ∀ d ∈ W.sys.store.deliveries, d.state = .succeeded → W.Processed d.eventId d.endpointId

section

variable {o : Outside} {cfg : Config} {tenants : List Tenant} {W W' : World} {l : Label} {w : WorkerId}
  {s s' : Sys} {claimed : ClaimedDelivery} {result : AttemptOutcome} {url : String} {eventId : Uuid}

theorem World.init_inv : WorldInv o cfg (.init tenants) where
  sent := nofun
  answers := nofun
  answered _ _ := ⟨[], rfl, Consumer.answered_init⟩
  recorded := nofun
  succeeded := nofun

/-! ### What an answer tells -/

theorem mem_answersFor {n : Nat} :
    n ∈ W.answersFor url eventId ↔
      ∃ p, (p, n) ∈ W.answers ∧ p.2.url = url ∧ p.2.webhookEventId = eventId := by
  simp [World.answersFor]

/-- `2xx` is answered for an event exactly when it is processed. -/
theorem World.AnswersAs.processed_iff (h : W.AnswersAs o url eventId) :
    eventId ∈ (W.receivers url).processedEventIds ↔
      ∃ n ∈ W.answersFor url eventId, 200 ≤ n ∧ n < 300 := by
  obtain ⟨accepted, heq, ha⟩ := h
  rw [heq]
  cases ha with
  | failing hc => simp [ConformingReceiver.status, show eventId ∉ (W.receivers url).processedEventIds from hc]
  | completed m hc =>
      refine iff_of_true hc ⟨200, List.mem_map.mpr ⟨true, ?_, rfl⟩, by decide⟩
      exact List.mem_append_right _ (List.mem_replicate.mpr ⟨Nat.succ_ne_zero m, rfl⟩)

/-- No response is written back without a request. -/
theorem responseStatus_of_holding {random : Jitter} {fault : Option CompleteStatement}
    (h : step cfg s (.complete w result random fault) = some s') (hpc : s.pcs w = .holding claimed) :
    result.responseStatus = none := by
  simp only [step, hpc] at h
  split at h
  · next herr =>
      have := result.settled
      rw [herr] at this
      simpa using this
  · cases h

/-- A `2xx` that is written back was answered by the receiver of the endpoint, which has processed the
event. -/
theorem WorldInv.processed_of_success (hi : WorldInv o cfg W) {random : Jitter}
    {fault : Option CompleteStatement} (hh : W.heard (.complete w result random fault) = true)
    (hs : step cfg W.sys (.complete w result random fault) = some s')
    (hpc : W.sys.pcs w = .holding claimed ∨ W.sys.pcs w = .sent claimed)
    (hc : claimed.IsCarried W.sys.store) (hok : result.isSuccess = true) :
    W.Processed claimed.eventId claimed.endpointId := by
  obtain ⟨n, hn, h200, h300⟩ : ∃ n, result.responseStatus = some n ∧ 200 ≤ n ∧ n < 300 := by
    simpa [AttemptOutcome.isSuccess, Option.any_eq_true] using hok
  obtain hpc | hpc := hpc
  · rw [responseStatus_of_holding hs hpc] at hn
    cases hn
  · obtain ⟨request, hmem⟩ : ∃ request, ((claimed, request), n) ∈ W.answers := by
      simpa [World.heard, hpc, hn] using hh
    obtain ⟨_, _, -, hreq⟩ := (hi.sent _ (hi.answers _ hmem)).request
    obtain ⟨ep, hep, hid, hurl⟩ := hc.endpoint
    refine ⟨ep, hep, hid, ?_⟩
    rw [hurl, (hi.answered claimed.url claimed.eventId).processed_iff]
    exact ⟨n, mem_answersFor.mpr ⟨_, hmem, by rw [hreq]; rfl, by rw [hreq]; rfl⟩, h200, h300⟩

/-! ### A step of the system -/

theorem World.Processed.keep {endpointId : Uuid} (h : W.Processed eventId endpointId)
    (hc : ContentsKept W.sys.store W'.sys.store)
    (hr : ∀ url, (W.receivers url).processedEventIds ⊆ (W'.receivers url).processedEventIds) :
    W'.Processed eventId endpointId := by
  obtain ⟨ep, hep, hid, hp⟩ := h
  obtain ⟨ep', hep', heq⟩ := hc.endpoints ep hep
  unfold Endpoint.Kept at heq
  exact ⟨ep', hep', by rw [heq]; exact hid, by rw [heq]; exact hr _ hp⟩

theorem World.Genuine.keep {p : ClaimedDelivery × WebhookRequest} (h : W.Genuine o cfg p)
    (hc : ContentsKept W.sys.store W'.sys.store) (hg : Grows W.sys.store W'.sys.store)
    (hnow : W.sys.now ≤ W'.sys.now) : W'.Genuine o cfg p where
  carried := Carries.keep h.carried hc hg
  attempt := h.attempt.grow hg
  request := by
    obtain ⟨w, t, ht, heq⟩ := h.request
    exact ⟨w, t, ht.trans hnow, heq⟩

theorem step_now (h : step cfg s l = some s') : s.now ≤ s'.now := by
  cases step_move h with
  | tick _ _ now => exact now ▸ Nat.le_add_right _ _
  | api _ now => exact now.ge
  | worker _ now => exact now.ge

/-- A request that is issued carries the delivery its worker holds. -/
theorem genuine_of_issued (hr : Reachable (step cfg) (.init tenants) W.sys)
    {p : ClaimedDelivery × WebhookRequest} (hp : p ∈ World.issued o cfg W.sys l) : W.Genuine o cfg p := by
  cases l with
  | send w =>
      cases hpc : W.sys.pcs w with
      | holding claimed =>
          simp only [World.issued, hpc, List.mem_singleton] at hp
          subst hp
          have hc := contents_of_reachable hr w
          have hk := (keyInv_of_reachable hr).worker w
          rw [hpc] at hc hk
          exact ⟨hc, hk.2, w, _, le_rfl, rfl⟩
      | _ => simp [World.issued, hpc] at hp
  | _ => cases hp

/-- What a committed write-back sets succeeded has been processed. -/
theorem WorldInv.recorded_step (hi : WorldInv o cfg W) (hr : Reachable (step cfg) (.init tenants) W.sys)
    (hh : W.heard l = true) (hs : step cfg W.sys l = some s') :
    ∀ a ∈ s'.store.attempts, a.is2xx = true →
      ∃ d ∈ W.sys.store.deliveries, d.id = a.deliveryId ∧ W.Processed d.eventId d.endpointId := by
  intro a' ha' h2
  have hk := keyInv_of_reachable hr
  cases step_move hs with
  | tick _ _ _ store => exact hi.recorded a' (store ▸ ha') h2
  | api _ _ _ h => exact hi.recorded a' (h.attempts ▸ ha') h2
  | worker w _ _ h =>
      obtain ⟨a, ha, hc⟩ | ⟨c, head, -, -, -, rfl⟩ := h.attempts.mem_cases ha'
      case inr => cases h2
      cases hc with
      | keep => exact hi.recorded _ ha h2
      | expired => exact hi.recorded a ha h2
      | @closed claimed result random fault hl hpc hid =>
          subst hl
          have hok : result.isSuccess = true := h2
          have hcar : claimed.IsCarried W.sys.store := by
            have := contents_of_reachable hr w
            obtain hpc | hpc := hpc <;> rw [hpc] at this <;> exact this
          obtain ⟨-, a₀, ha₀, hid₀, hof, -⟩ := (hk.worker w).complete hpc
          obtain rfl : a₀ = a := Table.eq_of_key hk.tables.attemptIds ha₀ ha (hid₀.trans hid.symm)
          obtain ⟨d, hd, hdid, hev, hep⟩ := hcar.delivery
          refine ⟨d, hd, hdid.trans hof.symm, ?_⟩
          rw [hev, hep]
          exact hi.processed_of_success hh hs hpc hcar hok

theorem WorldInv.succeeded_step (hi : WorldInv o cfg W) (hr : Reachable (step cfg) (.init tenants) W.sys)
    (hh : W.heard l = true) (hs : step cfg W.sys l = some s') :
    ∀ d ∈ s'.store.deliveries, d.state = .succeeded → W.Processed d.eventId d.endpointId := by
  intro d' hd' hst
  have hk := keyInv_of_reachable hr
  cases step_move hs with
  | tick _ _ _ store => exact hi.succeeded d' (store ▸ hd') hst
  | api _ _ _ h => exact hi.succeeded d' (h.deliveries ▸ hd') hst
  | worker w _ _ h =>
      obtain ⟨d, hd, hc⟩ | ⟨hrow, -⟩ := h.deliveries.mem_cases hd'
      case inr =>
          rw [((hk.rows w).pending d' hrow).1] at hst
          cases hst
      cases hc with
      | keep => exact hi.succeeded _ hd hst
      | requeued => cases hst
      | marked => cases hst
      | @resolved claimed result random fault retryAt hl hpc hid =>
          subst hl
          have hok : result.isSuccess = true := by
            by_contra hno
            unfold resolution at hst
            rw [if_neg hno] at hst
            split at hst <;> cases hst
          have hcar : claimed.IsCarried W.sys.store := by
            have := contents_of_reachable hr w
            obtain hpc | hpc := hpc <;> rw [hpc] at this <;> exact this
          obtain ⟨d₀, hd₀, hdid, hev, hep⟩ := hcar.delivery
          obtain rfl : d = d₀ := Table.eq_of_key hk.tables.deliveryIds hd hd₀ (hid.trans hdid.symm)
          obtain ⟨-, hev', hep', -⟩ := Delivery.resolve_identity (resolution cfg claimed result) retryAt d
          rw [hev', hep', hev, hep]
          exact hi.processed_of_success hh hs hpc hcar hok

theorem WorldInv.sys_step (hi : WorldInv o cfg W) (hr : Reachable (step cfg) (.init tenants) W.sys)
    (hh : W.heard l = true) (hs : step cfg W.sys l = some s') :
    WorldInv o cfg { W with sys := s', sent := W.sent ++ World.issued o cfg W.sys l } := by
  have hc := step_contentsKept hs
  have hg := step_grows (leaseInv_of_reachable hr).ids hs
  constructor
  case sent =>
      intro p hp
      obtain hp | hp := List.mem_append.mp hp
      · exact (hi.sent p hp).keep hc hg (step_now hs)
      · exact (genuine_of_issued hr hp).keep hc hg (step_now hs)
  case answers => exact fun a ha => List.mem_append_left _ (hi.answers a ha)
  case answered => exact hi.answered
  case recorded =>
      intro a ha h2
      obtain ⟨d, hd, hid, hp⟩ := hi.recorded_step hr hh hs a ha h2
      obtain ⟨d', hd', hid', hev, hep, -⟩ := hg.deliveries d hd
      refine ⟨d', hd', hid'.trans hid, ?_⟩
      rw [hev, hep]
      exact hp.keep hc fun _ => List.Subset.refl _
  case succeeded =>
      exact fun d hd hst => (hi.succeeded_step hr hh hs d hd hst).keep hc fun _ => List.Subset.refl _

/-! ### A request that arrives -/

theorem processedEventIds_handler (f : Uuid → Nat → Bool) (r : ConformingReceiver) (req : WebhookRequest) :
    r.processedEventIds ⊆ (r.handler f req).2.processedEventIds := by
  dsimp only [ConformingReceiver.handler]
  split
  · exact List.Subset.refl _
  · split
    · exact List.subset_cons_self _ _
    · exact List.Subset.refl _

/-- What is answered for an event once another request is answered. -/
theorem answersFor_append {request : WebhookRequest} {n : Nat} {receivers : String → ConformingReceiver} :
    World.answersFor { W with
      receivers := receivers
      answers := W.answers ++ [((claimed, request), n)] } url eventId =
      W.answersFor url eventId ++
        if request.url = url ∧ request.webhookEventId = eventId then [n] else [] := by
  unfold World.answersFor
  rw [List.filter_append, List.map_append]
  split
  · next h => simp [h]
  · next h => simp [h]

theorem WorldInv.receive_step (hi : WorldInv o cfg W) {request : WebhookRequest}
    (hsent : (claimed, request) ∈ W.sent) :
    let handled := (W.receivers request.url).handler (o.shouldSucceed request.url) request
    WorldInv o cfg { W with
      receivers := fun url => if url = request.url then handled.2 else W.receivers url
      answers := W.answers ++ [((claimed, request), handled.1)] } := by
  intro handled
  have hsub : ∀ url, (W.receivers url).processedEventIds ⊆
      (if url = request.url then handled.2 else W.receivers url).processedEventIds := by
    intro url
    split
    · next heq => exact heq ▸ processedEventIds_handler ..
    · exact List.Subset.refl _
  constructor
  case sent => exact fun p hp => ⟨(hi.sent p hp).carried, (hi.sent p hp).attempt, (hi.sent p hp).request⟩
  case answers =>
      intro a ha
      obtain ha | ha := List.mem_append.mp ha
      · exact hi.answers a ha
      · rw [List.mem_singleton.mp ha]
        exact hsent
  case answered =>
      intro url eventId
      obtain ⟨accepted, heq, ha⟩ := hi.answered url eventId
      unfold World.AnswersAs
      rw [answersFor_append, heq]
      by_cases hurl : url = request.url
      case neg => exact ⟨accepted, by simp [Ne.symm hurl], by simpa [hurl] using ha⟩
      case pos =>
          subst hurl
          obtain ⟨hcons, hstatus⟩ := ConformingReceiver.handler_eq (o.shouldSucceed request.url)
            (W.receivers request.url) request
          have hstep := Consumer.answered_consume ha request.webhookEventId
          rw [← hcons] at hstep
          refine ⟨_, ?_, by simpa using hstep⟩
          by_cases hid : request.webhookEventId = eventId
          · simp only [hid, and_self, if_true, List.map_append, List.map_singleton]
            rw [← hid, ← hstatus]
          · simp [hid]
  case recorded =>
      intro a ha h2
      obtain ⟨d, hd, hid, hp⟩ := hi.recorded a ha h2
      exact ⟨d, hd, hid, hp.keep (.refl _) hsub⟩
  case succeeded => exact fun d hd hst => (hi.succeeded d hd hst).keep (.refl _) hsub

/-! ### Every run -/

theorem World.step_sys (h : World.step o cfg W (.sys l) = some W') :
    W.heard l = true ∧ ∃ s', Webhooks.step cfg W.sys l = some s' ∧
      W' = { W with sys := s', sent := W.sent ++ World.issued o cfg W.sys l } := by
  simp only [World.step] at h
  split at h
  case isTrue hh =>
      obtain ⟨s', hs, rfl⟩ := Option.map_eq_some_iff.mp h
      exact ⟨hh, s', hs, rfl⟩
  case isFalse => cases h

theorem World.step_receive {i : Nat} (h : World.step o cfg W (.receive i) = some W') :
    ∃ claimed request, (claimed, request) ∈ W.sent ∧ W' = { W with
      receivers := fun url => if url = request.url then
        ((W.receivers request.url).handler (o.shouldSucceed request.url) request).2 else W.receivers url
      answers := W.answers ++ [((claimed, request),
        ((W.receivers request.url).handler (o.shouldSucceed request.url) request).1)] } := by
  simp only [World.step] at h
  split at h
  case h_1 => cases h
  case h_2 claimed request hi =>
      cases h
      exact ⟨claimed, request, List.mem_of_getElem? hi, rfl⟩

/-- The system of a world runs as it does without receivers. -/
theorem World.sys_of_reachable (h : Reachable (World.step o cfg) (.init tenants) W) :
    Reachable (Webhooks.step cfg) (.init tenants) W.sys := by
  refine h.inv (I := fun W => Reachable (Webhooks.step cfg) (.init tenants) W.sys) (.refl _)
    fun W₁ l W₂ _ hi hs => ?_
  cases l with
  | sys l =>
      obtain ⟨-, s', hs', rfl⟩ := World.step_sys hs
      exact hi.tail hs'
  | receive i =>
      obtain ⟨_, _, -, rfl⟩ := World.step_receive hs
      exact hi

theorem worldInv_of_reachable (h : Reachable (World.step o cfg) (.init tenants) W) : WorldInv o cfg W := by
  refine h.inv World.init_inv fun W₁ l W₂ hr hi hs => ?_
  cases l with
  | sys l =>
      obtain ⟨hh, s', hs', rfl⟩ := World.step_sys hs
      exact hi.sys_step (World.sys_of_reachable hr) hh hs'
  | receive i =>
      obtain ⟨_, _, hsent, rfl⟩ := World.step_receive hs
      exact hi.receive_step hsent

/-- What is issued, in any run, is made of the rows of a delivery, its event, its endpoint and an attempt. -/
theorem sent_of_reachable (h : Reachable (World.step o cfg) (.init tenants) W) {request : WebhookRequest}
    (hp : (claimed, request) ∈ W.sent) :
    ∃ d ∈ W.sys.store.deliveries, ∃ e ∈ W.sys.store.events, ∃ ep ∈ W.sys.store.endpoints,
      ∃ a ∈ W.sys.store.attempts, ∃ w, ∃ t ≤ W.sys.now,
      (d.eventId = e.id ∧ d.endpointId = ep.id ∧ a.deliveryId = d.id ∧
        ep.isSubscribed e.tenantId e.type = true) ∧
      (d.id = claimed.deliveryId ∧ e.id = claimed.eventId ∧ e.payload = claimed.payload ∧
        ep.url = claimed.url ∧ a.attemptNumber = claimed.attemptNumber) ∧
      request = claimed.request o (cfg.workers w) t := by
  have hr := World.sys_of_reachable h
  obtain ⟨⟨⟨d, hd, hdid, hev, hep⟩, ⟨e, he, heid, -, hpay⟩, ep, hmem, hepid, hurl⟩, ⟨a, ha, -, hof, hnum⟩,
    w, t, ht, hreq⟩ := (worldInv_of_reachable h).sent _ hp
  refine ⟨d, hd, e, he, ep, hmem, a, ha, w, t, ht, ⟨hev.trans heid.symm, hep.trans hepid.symm,
    hof.trans hdid.symm, ?_⟩, ⟨hdid, heid, hpay, hurl, hnum⟩, hreq⟩
  -- keys are unique, so these are the rows the fan-out paired
  obtain ⟨e', he', hid', ep', hep', hidp', hs⟩ := subscribed_of_reachable hr hd
  obtain rfl : e' = e := Table.eq_of_key (publishInv_of_reachable hr).eventIds he' he
    (hid'.trans (hev.trans heid.symm))
  obtain rfl : ep' = ep := Table.eq_of_key (leaseInv_of_reachable hr).ids hep' hmem
    (hidp'.trans (hep.trans hepid.symm))
  exact hs

/-! ### The results -/

/-- What is sent, in any run, is a delivery of a published event to an endpoint of its tenant that is
subscribed to its type: under their identifiers and the number of a recorded attempt, with the payload of
the event's row as the worker writes it out, signed as it is sent, to the URL as it was registered. -/
theorem request_genuine (h : Reachable (World.step o cfg) (.init tenants) W) {request : WebhookRequest}
    (hp : (claimed, request) ∈ W.sent) :
    ∃ d ∈ W.sys.store.deliveries, ∃ e ∈ W.sys.store.events, ∃ ep ∈ W.sys.store.endpoints,
      ∃ a ∈ W.sys.store.attempts, ∃ w, ∃ t ≤ W.sys.now,
      (d.eventId = e.id ∧ d.endpointId = ep.id ∧ a.deliveryId = d.id ∧
        ep.isSubscribed e.tenantId e.type = true) ∧
      request = {
        url := ep.url
        contentType := "application/json"
        webhookId := d.id
        webhookEventId := e.id
        webhookAttempt := toString a.attemptNumber
        webhookTimestamp := toString (t / 1000)
        webhookSignature :=
          signPayload o.hmac claimed.secrets (t / 1000) (o.rawBody e.payload (cfg.workers w))
        body := o.rawBody e.payload (cfg.workers w) } := by
  obtain ⟨d, hd, e, he, ep, hep, a, ha, w, t, ht, hlinks, ⟨hdid, heid, hpay, hurl, hnum⟩, hreq⟩ :=
    sent_of_reachable h hp
  refine ⟨d, hd, e, he, ep, hep, a, ha, w, t, ht, hlinks, ?_⟩
  rw [hdid, heid, hnum, hurl, hpay]
  exact hreq

/-- A receiver runs the logic of an event until it completes, and never again: `500` for each run that
failed, then `200` for the one that completed and for everything that arrives later. -/
theorem effect_once (h : Reachable (World.step o cfg) (.init tenants) W) (url : String) (eventId : Uuid) :
    ∃ failed accepted,
      W.answersFor url eventId = List.replicate failed 500 ++ List.replicate accepted 200 ∧
      (W.receivers url).attemptsByEventId eventId = failed + min accepted 1 ∧
      (eventId ∈ (W.receivers url).processedEventIds ↔ 0 < accepted) ∧
      (∀ i < failed, o.shouldSucceed url eventId (i + 1) = false) ∧
      (0 < accepted → o.shouldSucceed url eventId (failed + 1) = true) := by
  obtain ⟨answers, heq, ha⟩ := (worldInv_of_reachable h).answered url eventId
  rw [heq]
  cases ha with
  | @failing n hc runs fails =>
      exact ⟨n, 0, by simp [ConformingReceiver.status], runs, iff_of_false hc (Nat.lt_irrefl 0), fails,
        fun h0 => absurd h0 (Nat.lt_irrefl 0)⟩
  | @completed n m hc runs fails completes =>
      exact ⟨n, m + 1, by simp [ConformingReceiver.status], by rw [min_eq_right (Nat.succ_pos m)]; exact runs,
        iff_of_true hc m.succ_pos, fails, fun _ => completes⟩

/-- A delivery that succeeded, or has an attempt with a recorded `2xx`, is of an event the endpoint's
receiver has processed. -/
theorem success_processed (h : Reachable (World.step o cfg) (.init tenants) W) {d : Delivery}
    (hd : d ∈ W.sys.store.deliveries)
    (hok : d.state = .succeeded ∨ ∃ a ∈ W.sys.store.attemptsOf d.id, a.is2xx = true) :
    ∃ ep ∈ W.sys.store.endpoints, ep.id = d.endpointId ∧
      d.eventId ∈ (W.receivers ep.url).processedEventIds := by
  have hi := worldInv_of_reachable h
  obtain hst | ⟨a, ha, h2⟩ := hok
  · exact hi.succeeded d hd hst
  · obtain ⟨ha, hof⟩ := List.mem_filter.mp ha
    obtain ⟨d', hd', hid, hp⟩ := hi.recorded a ha h2
    obtain rfl : d' = d := Table.eq_of_key (keyInv_of_reachable (World.sys_of_reachable h)).tables.deliveryIds
      hd' hd (hid.trans (of_decide_eq_true hof))
    exact hp

/-- What a receiver has processed was published, and expanded and attempted for an endpoint behind its URL
that is subscribed to it. -/
theorem processed_published (h : Reachable (World.step o cfg) (.init tenants) W)
    (hp : eventId ∈ (W.receivers url).processedEventIds) :
    ∃ e ∈ W.sys.store.events, e.id = eventId ∧ ∃ ep ∈ W.sys.store.endpoints, ep.url = url ∧
      ep.isSubscribed e.tenantId e.type = true ∧ ∃ d ∈ W.sys.store.deliveries,
        d.eventId = e.id ∧ d.endpointId = ep.id ∧ W.sys.store.attemptsOf d.id ≠ [] := by
  have hi := worldInv_of_reachable h
  obtain ⟨n, hn, -⟩ := (hi.answered url eventId).processed_iff.mp hp
  obtain ⟨p, hmem, hurl, hid⟩ := mem_answersFor.mp hn
  obtain ⟨d, hd, e, he, ep, hep, a, ha, w, t, -, ⟨hev, hepid, hof, hs⟩, ⟨-, heid, -, heurl, -⟩, hreq⟩ :=
    sent_of_reachable h (hi.answers _ hmem)
  refine ⟨e, he, ?_, ep, hep, ?_, hs, d, hd, hev, hepid, ?_⟩
  · rw [heid, ← hid, hreq]
    rfl
  · rw [heurl, ← hurl, hreq]
    rfl
  · exact List.ne_nil_of_mem (List.mem_filter.mpr ⟨ha, decide_eq_true hof⟩)

end

/-! ### Two attempts and a lost answer -/

namespace Sample

/-- Receivers that complete their second run. -/
def outside : Outside where
  stringify := id
  hmac := fun secret text => secret ++ text
  shouldSucceed := fun _ _ attemptNumber => attemptNumber = 2

/-- Worker 1 sends the event's delivery and is answered `500`; its second request arrives twice. -/
def secondRun : List WorldLabel :=
  (register :: publish 0 "k" ++ expand ++ claim 1 none 7 ++ [Label.send 1]).map .sys ++ [.receive 0] ++
    (Label.complete 1 (response 500) ⟨0, 1, Nat.one_pos⟩ none :: claim 1 none 7 ++ [Label.send 1]).map .sys ++
    [.receive 1, .receive 1, .sys (.complete 1 (response 200) ⟨0, 1, Nat.one_pos⟩ none)]

/-- The endpoint's receiver has processed the event, its delivery has succeeded. -/
def secondRunEnds (W : World) : Bool :=
  (W.receivers "u").processedEventIds = [1] && W.sent.length = 2 && W.answersFor "u" 1 = [500, 200, 200] &&
    W.sys.store.deliveries.any fun d => d.eventId = 1 && d.endpointId = 0 && d.state = .succeeded

end Sample

open Sample

theorem exists_secondRun : ∃ W, Reachable (World.step outside config) (.init [⟨100, none⟩]) W ∧
    (W.receivers "u").processedEventIds = [1] ∧ W.sent.length = 2 ∧
    W.answersFor "u" 1 = [500, 200, 200] ∧
    ∃ d ∈ W.sys.store.deliveries, d.eventId = 1 ∧ d.endpointId = 0 ∧ d.state = .succeeded := by
  obtain ⟨W, hW, hp⟩ := exists_of_run (World.step outside config) (.init [⟨100, none⟩]) secondRun
    secondRunEnds (by decide +kernel)
  refine ⟨W, .of_run hW, ?_⟩
  simpa [secondRunEnds, and_assoc] using hp

theorem request_genuine_sample : ∃ W claimed request, (claimed, request) ∈ W.sent ∧
    Reachable (World.step outside config) (.init [⟨100, none⟩]) W ∧
    ∃ e ∈ W.sys.store.events, ∃ ep ∈ W.sys.store.endpoints, ep.isSubscribed e.tenantId e.type = true ∧
      request.webhookEventId = e.id ∧ request.url = ep.url ∧ request.body = e.payload := by
  obtain ⟨W, hW, -, hlen, -⟩ := exists_secondRun
  obtain ⟨⟨claimed, request⟩, hp⟩ := List.exists_mem_of_length_pos (hlen ▸ Nat.two_pos)
  obtain ⟨d, -, e, he, ep, hep, a, -, w, t, -, ⟨-, -, -, hs⟩, rfl⟩ := request_genuine hW hp
  exact ⟨W, claimed, _, hp, hW, e, he, ep, hep, hs, rfl, rfl, rfl⟩

theorem effect_once_sample : ∃ W, Reachable (World.step outside config) (.init [⟨100, none⟩]) W ∧
    W.answersFor "u" 1 = [500, 200, 200] ∧ ∃ failed accepted,
      W.answersFor "u" 1 = List.replicate failed 500 ++ List.replicate accepted 200 ∧
      (W.receivers "u").attemptsByEventId 1 = failed + min accepted 1 := by
  obtain ⟨W, hW, -, -, hanswers, -⟩ := exists_secondRun
  obtain ⟨failed, accepted, h, hruns, -⟩ := effect_once hW "u" 1
  exact ⟨W, hW, hanswers, failed, accepted, h, hruns⟩

theorem success_processed_sample : ∃ W, Reachable (World.step outside config) (.init [⟨100, none⟩]) W ∧
    ∃ d ∈ W.sys.store.deliveries, d.state = .succeeded ∧ ∃ ep ∈ W.sys.store.endpoints,
      ep.id = d.endpointId ∧ d.eventId ∈ (W.receivers ep.url).processedEventIds := by
  obtain ⟨W, hW, -, -, -, d, hd, -, -, hst⟩ := exists_secondRun
  exact ⟨W, hW, d, hd, hst, success_processed hW hd (.inl hst)⟩

theorem processed_published_sample : ∃ W, Reachable (World.step outside config) (.init [⟨100, none⟩]) W ∧
    ∃ e ∈ W.sys.store.events, e.id = 1 ∧ ∃ ep ∈ W.sys.store.endpoints, ep.url = "u" ∧
      ep.isSubscribed e.tenantId e.type = true := by
  obtain ⟨W, hW, hproc, -⟩ := exists_secondRun
  have hp : 1 ∈ (W.receivers "u").processedEventIds := by
    rw [hproc]
    exact List.mem_singleton_self 1
  obtain ⟨e, he, hid, ep, hep, hurl, hs, -⟩ := processed_published hW hp
  exact ⟨W, hW, e, he, hid, ep, hep, hurl, hs⟩

end Webhooks
