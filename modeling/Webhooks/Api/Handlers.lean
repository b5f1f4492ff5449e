import Webhooks.Api.Pagination
import Webhooks.Api.Queries

/-!
# Api — Handlers

The twelve routes of the Node API, each as a function of the database an authenticated request
meets when nothing else runs in between.  `handle` is the route a request goes to.
-/

namespace Webhooks.Node

open Lib

def computeBlockedOnDeliveryId (r : Delivery) (headDeliveryId : Option Uuid) : Option Uuid :=
  if r.state = .pending && headDeliveryId ≠ some r.id then headDeliveryId else none

/-! ### Serializers -/

def serializeEndpoint (p : Platform) (e : Endpoint) : EndpointJson :=
  ⟨e.id, e.url, e.eventTypes, e.status, p.isoDate e.createdAt⟩

def serializeEndpointWithHealth (p : Platform) (d : Draws) (s : Store) (e : Endpoint) :
    EndpointHealthJson :=
  ⟨serializeEndpoint p e, (unresolvedOf s e.id).length, (oldestPendingAt s e.id).map p.isoDate,
    recentSuccessRate d s e.id⟩

def serializeEvent (p : Platform) (e : Event) : EventJson :=
  ⟨e.id, e.type, e.payload, e.status, p.isoDate e.createdAt⟩

def serializeFanout (p : Platform) (r : Delivery) : FanoutJson :=
  ⟨r.id, r.endpointId, r.state, r.attemptCount, p.isoDate r.nextAttemptAt⟩

def serializeDeliverySummary (p : Platform) (s : Store) (r : Delivery) : DeliverySummaryJson :=
  ⟨r.id, r.eventId, r.state, r.attemptCount, p.isoDate r.nextAttemptAt,
    computeBlockedOnDeliveryId r (headDeliveryId s r.endpointId)⟩

def serializeLastResponse (a : Attempt) : LastResponseJson :=
  ⟨a.responseStatus, a.responseBodyTruncated, a.durationMs, a.errorClass⟩

def serializeAttempt (p : Platform) (a : Attempt) : AttemptJson :=
  ⟨a.attemptNumber, a.sentAt.map p.isoDate, serializeLastResponse a⟩

/-! ### `routes/endpoints.ts` -/

section

variable (p : Platform) (d : Draws) (overlapMs : Nat) (tenantId : Uuid) (s : Store)

/-- `POST /endpoints`. -/
def registerEndpoint (body : Except String RegisterBody) : Store × Response :=
  match body with
  | .error message => (s, invalidRequest message)
  | .ok b =>
      if d.validation.allowed then
        param s (textParam b.url) fun url => param s (b.eventTypes.mapM textParam) fun eventTypes =>
          (Webhooks.registerEndpoint s d.now tenantId url eventTypes d.encryptedSecret,
            ⟨201, .registered ⟨s.uuids, url, eventTypes, .active, p.isoDate d.now⟩ d.signingSecret⟩)
      else (s, ⟨400, .error "url_not_allowed" (d.validation.reason.getD "URL not allowed")⟩)

/-- `GET /endpoints`. -/
def listEndpoints (limit : Double) (before : Option String) : Store × Response :=
  param s (cursorParams p before) fun cursor =>
    let (endpoints, nextCursor) := listPage p (·.createdAt) (·.id) limit cursor
      (s.endpoints.filter fun e => e.tenantId = tenantId)
    (s, ⟨200, .endpoints (endpoints.map (serializeEndpointWithHealth p d s)) nextCursor⟩)

/-- `GET /endpoints/:id`. -/
def getEndpoint (id : String) : Store × Response :=
  param s (p.uuid id) fun id =>
    match findEndpoint s id tenantId with
    | none => (s, notFound "Endpoint not found")
    | some e => (s, ⟨200, .endpointHealth (serializeEndpointWithHealth p d s e)⟩)

/-- `POST /endpoints/:id/pause`. -/
def pauseEndpoint (id : String) : Store × Response :=
  param s (p.uuid id) fun id =>
    let s' := setEndpointStatus s id tenantId .paused
    match findEndpoint s' id tenantId with
    | none => (s', notFound "Endpoint not found")
    | some e => (s', ⟨200, .endpoint (serializeEndpoint p e)⟩)

/-- `POST /endpoints/:id/resume`. -/
def resumeEndpoint (id : String) : Store × Response :=
  param s (p.uuid id) fun id =>
    let s' := setEndpointStatus s id tenantId .active
    match findEndpoint s' id tenantId with
    | none => (s', notFound "Endpoint not found")
    | some e =>
        (s', ⟨200, .resumed (serializeEndpoint p e) (unresolvedOf s' e.id).length
          ((skippedFailedDeliveries d s' e.id).map (·.id))⟩)

/-- `POST /endpoints/:id/secret/rotate`.  `Date.now()` is in milliseconds. -/
def rotateSecret (id : String) : Store × Response :=
  let overlapExpiresAt := p.date d.now + overlapMs
  param s (p.uuid id) fun id =>
    let s' := Webhooks.rotateSecret s id tenantId d.encryptedSecret (overlapExpiresAt * p.ticksPerMs)
    match findEndpoint s' id tenantId with
    | none => (s', notFound "Endpoint not found")
    | some _ => (s', ⟨200, .rotated d.signingSecret (p.toISOString overlapExpiresAt)⟩)

/-- `GET /endpoints/:id/deliveries`. -/
def listEndpointDeliveries (id : String) (limit : Double) (after : Option String) :
    Store × Response :=
  param s (p.uuid id) fun id =>
    match findEndpoint s id tenantId with
    | none => (s, notFound "Endpoint not found")
    | some _ =>
        param s ((after.bind decodeSeqCursor).mapM bigintParam) fun after =>
          let (deliveries, last) :=
            Paging.page (parseLimit limit) (selectDeliveries s id after (parseLimit limit))
          (s, ⟨200, .deliveries (deliveries.map (serializeDeliverySummary p s))
            (last.map fun r => encodeSeqCursor r.seq)⟩)

/-! ### `routes/events.ts` -/

/-- `POST /events`. -/
def publishEvent (body : Except String PublishBody) (idempotencyKey : Option String) :
    Store × Response :=
  match body with
  | .error message => (s, invalidRequest message)
  | .ok b =>
      if idempotencyKey.getD "" = "" then (s, invalidRequest "Idempotency-Key header required")
      else
        param s b.payload fun json =>
          param s (textParam (idempotencyKey.getD "")) fun key => param s (textParam b.type) fun type =>
          param s (p.jsonb json) fun payload =>
            let r : PublishRequest := ⟨tenantId, key, type, payload⟩
            -- a conflict has drawn from the two supplies as well
            let s' := { s with uuids := s.uuids + 1, eventsSeq := s.eventsSeq + 1 }
            match s.events.find? r.conflicts with
            | some e => (s', ⟨202, .accepted e.id e.status⟩)
            | none =>
                let row := r.newEvent d.now s.uuids s.eventsSeq
                ({ s' with events := s.events ++ [row] }, ⟨202, .accepted row.id row.status⟩)

/-- `GET /events`. -/
def listEvents (q : EventQuery) : Store × Response :=
  param s (q.params p) fun f => param s (cursorParams p q.before) fun cursor =>
    let (events, nextCursor) := listPage p (·.createdAt) (·.id) q.limit cursor
      (s.events.filter (f.admits tenantId s))
    (s, ⟨200, .events (events.map (serializeEvent p)) nextCursor⟩)

/-- `GET /events/:id`. -/
def getEvent (id : String) : Store × Response :=
  param s (p.uuid id) fun id =>
    match s.events.find? fun e => e.id = id && e.tenantId = tenantId with
    | none => (s, notFound "Event not found")
    | some e =>
        let deliveries := (s.deliveries.filter fun r => r.eventId = e.id).insertionSort
          fun a b => a.seq ≤ b.seq
        (s, ⟨200, .event (serializeEvent p e) (deliveries.map (serializeFanout p))⟩)

/-! ### `routes/deliveries.ts` and `routes/replays.ts` -/

def maxAttemptsInResponse : Nat := 6

/-- `GET /deliveries/:id`. -/
def getDelivery (id : String) : Store × Response :=
  param s (p.uuid id) fun id =>
    match s.deliveries.find? fun r => r.id = id && hasEndpoint s r.endpointId tenantId with
    | none => (s, notFound "Delivery not found")
    | some r =>
        let latestFirst := (orderByDesc (·.attemptNumber) (fun a => d.ties a.id)
          (s.attemptsOf r.id)).take maxAttemptsInResponse
        (s, ⟨200, .delivery (serializeDeliverySummary p s r) r.endpointId
          (latestFirst.head?.map serializeLastResponse)
          (latestFirst.reverse.map (serializeAttempt p))⟩)

/-- `POST /endpoints/:id/replays`. -/
def createReplay (id : String) (body : Except String ReplayBody) (idempotencyKey : Option String) :
    Store × Response :=
  match body with
  | .error message => (s, invalidRequest message)
  | .ok b =>
      if idempotencyKey.getD "" = "" then (s, invalidRequest "Idempotency-Key header required")
      else
        param s (p.uuid id) fun id =>
          if hasEndpoint s id tenantId then
            param s (textParam (idempotencyKey.getD "")) fun key =>
              param s ((p.timestamptz b.rangeStart).bind (·.time?)) fun rangeStart =>
                param s ((p.timestamptz b.rangeEnd).bind (·.time?)) fun rangeEnd =>
                  let r : ReplayRequest := ⟨tenantId, id, key, rangeStart, rangeEnd⟩
                  let s' := { s with uuids := s.uuids + 1 }
                  match s.replays.find? r.conflicts with
                  | some row => (s', ⟨202, .accepted row.id row.status⟩)
                  | none =>
                      let row := r.newReplay d.now s.uuids
                      ({ s' with replays := s.replays ++ [row] }, ⟨202, .accepted row.id row.status⟩)
          else (s, notFound "Endpoint not found")

/-- The route a request goes to. -/
def handle : Request → Store × Response
  | .registerEndpoint body => registerEndpoint p d tenantId s body
  | .listEndpoints limit before => listEndpoints p d tenantId s limit before
  | .getEndpoint id => getEndpoint p d tenantId s id
  | .pauseEndpoint id => pauseEndpoint p tenantId s id
  | .resumeEndpoint id => resumeEndpoint p d tenantId s id
  | .rotateSecret id => rotateSecret p d overlapMs tenantId s id
  | .listEndpointDeliveries id limit after => listEndpointDeliveries p tenantId s id limit after
  | .publishEvent body idempotencyKey => publishEvent p d tenantId s body idempotencyKey
  | .listEvents query => listEvents p tenantId s query
  | .getEvent id => getEvent p tenantId s id
  | .getDelivery id => getDelivery p d tenantId s id
  | .createReplay id body idempotencyKey => createReplay p d tenantId s id body idempotencyKey

end

end Webhooks.Node
