import Webhooks.Lib.Dedup
import Webhooks.System
import Webhooks.Worker.Signing

/-!
# Receiver

The system together with the tenants' receivers.

* `ClaimedDelivery.request`: the request of `runDeliveryCycle`.
* `ConformingReceiver`: the reference receiver of the delivery contract (`conformingReceiver.ts`,
  `testsupport.go`), which deduplicates on successfully processed event ids.
* `World.step`: the system, a receiver behind every URL, and a network between them.  A request that was
  sent may be received at any later time, again, or never; an answer may reach the worker that sent the
  request, or not.
-/

namespace Webhooks

/-! ### The request -/

structure WebhookRequest where
  url : String
  contentType : String
  webhookId : Uuid
  webhookEventId : Uuid
  webhookAttempt : String
  webhookTimestamp : String
  webhookSignature : String
  body : String
  deriving DecidableEq, Repr

/-- What the requests and their receivers are made with: the HMAC of a secret and a text, the business
logic behind each URL, `shouldSucceed`, and how a payload is written out. -/
structure Outside where
  /-- `JSON.stringify` of what the driver parses a `jsonb` text to, with its numbers as doubles. -/
  stringify : String → String
  hmac : String → String → String
  shouldSucceed : String → Uuid → Nat → Bool

/-- `rawBody`, of the text of a payload; Go sends it as it comes from the column. -/
def Outside.rawBody (o : Outside) (payload : String) : Stack → String
  | .node => o.stringify payload
  | .go => payload

def ClaimedDelivery.request (o : Outside) (stack : Stack) (now : Time) (claimed : ClaimedDelivery) :
    WebhookRequest :=
  let timestamp := now / 1000
  let rawBody := o.rawBody claimed.payload stack
  { url := claimed.url
    contentType := "application/json"
    webhookId := claimed.deliveryId
    webhookEventId := claimed.eventId
    webhookAttempt := toString claimed.attemptNumber
    webhookTimestamp := toString timestamp
    webhookSignature := signPayload o.hmac claimed.secrets timestamp rawBody
    body := rawBody }

/-! ### The conforming receiver -/

structure ConformingReceiver where
  processedEventIds : List Uuid
  attemptsByEventId : Uuid → Nat

namespace ConformingReceiver

def init : ConformingReceiver := ⟨[], fun _ => 0⟩

/-- `handler`: the status it answers, and the receiver afterwards. -/
def handler (shouldSucceed : Uuid → Nat → Bool) (r : ConformingReceiver) (req : WebhookRequest) :
    Nat × ConformingReceiver :=
  let eventId := req.webhookEventId
  if eventId ∈ r.processedEventIds then (200, r)
  else
    let attemptNumber := r.attemptsByEventId eventId + 1
    let attemptsByEventId := fun id => if id = eventId then attemptNumber else r.attemptsByEventId id
    if shouldSucceed eventId attemptNumber then (200, ⟨eventId :: r.processedEventIds, attemptsByEventId⟩)
    else (500, ⟨r.processedEventIds, attemptsByEventId⟩)

/-- The receiver as a consumer of event ids. -/
def consumer (r : ConformingReceiver) : Lib.Consumer Uuid := ⟨r.processedEventIds, r.attemptsByEventId⟩

/-- The status of an answer. -/
def status (accepted : Bool) : Nat := if accepted then 200 else 500

/-- The handler consumes the event id of the request. -/
theorem handler_eq (shouldSucceed : Uuid → Nat → Bool) (r : ConformingReceiver) (req : WebhookRequest) :
    (r.handler shouldSucceed req).2.consumer = (r.consumer.consume shouldSucceed req.webhookEventId).2 ∧
      (r.handler shouldSucceed req).1 =
        status (r.consumer.consume shouldSucceed req.webhookEventId).1 := by
  have hupdate : Function.update r.attemptsByEventId req.webhookEventId
      (r.attemptsByEventId req.webhookEventId + 1) = fun id =>
        if id = req.webhookEventId then r.attemptsByEventId req.webhookEventId + 1
        else r.attemptsByEventId id := by
    funext id
    exact Function.update_apply ..
  simp only [handler, Lib.Consumer.consume, consumer, hupdate]
  by_cases hp : req.webhookEventId ∈ r.processedEventIds
  · simp [hp, status]
  · cases o : shouldSucceed req.webhookEventId (r.attemptsByEventId req.webhookEventId + 1) <;>
      simp [hp, status]

end ConformingReceiver

/-! ### The system with its receivers -/

structure World where
  sys : Sys
  /-- By URL. -/
  receivers : String → ConformingReceiver
  /-- The requests issued so far, each with the delivery whose cycle issued it. -/
  sent : List (ClaimedDelivery × WebhookRequest)
  /-- The statuses the receivers have answered, oldest first. -/
  answers : List ((ClaimedDelivery × WebhookRequest) × Nat)

inductive WorldLabel where
  | sys (l : Label)
  /-- The `i`-th request that was issued arrives at the receiver behind its URL. -/
  | receive (i : Nat)

namespace World

def init (tenants : List Tenant) : World := ⟨.init tenants, fun _ => .init, [], []⟩

/-- The request a step issues. -/
def issued (o : Outside) (cfg : Config) (s : Sys) : Label → List (ClaimedDelivery × WebhookRequest)
  | .send w =>
      match s.pcs w with
      | .holding claimed => [(claimed, claimed.request o (cfg.workers w) s.now)]
      | _ => []
  | _ => []

/-- A status is written back only as an answer to the worker's request. -/
def heard (W : World) : Label → Bool
  | .complete w result _ _ =>
      match W.sys.pcs w with
      | .sent claimed => result.responseStatus.all fun n =>
          W.answers.any fun a => a.1.1 = claimed && a.2 = n
      | _ => true
  | _ => true

def step (o : Outside) (cfg : Config) (W : World) : WorldLabel → Option World
  | .sys l =>
      if W.heard l then
        (Webhooks.step cfg W.sys l).map fun s =>
          { W with sys := s, sent := W.sent ++ issued o cfg W.sys l }
      else none
  | .receive i =>
      match W.sent[i]? with
      | none => none
      | some (claimed, request) =>
          let (status, r) := (W.receivers request.url).handler (o.shouldSucceed request.url) request
          some { W with
            receivers := fun url => if url = request.url then r else W.receivers url
            answers := W.answers ++ [((claimed, request), status)] }

/-- The statuses answered at a URL to the requests for an event, oldest first. -/
def answersFor (W : World) (url : String) (eventId : Uuid) : List Nat :=
  (W.answers.filter fun a => a.1.2.url = url && a.1.2.webhookEventId = eventId).map (·.2)

end World

end Webhooks
