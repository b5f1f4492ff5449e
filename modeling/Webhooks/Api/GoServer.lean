import Webhooks.Api.GoHandlers
import Webhooks.Api.GoJson

/-!
# Api — GoServer

The other routes of the Go API, and what a request meets on the way to a route (`server.go`).  A text of
the request is a Go string, any bytes; Postgres refuses one that is not UTF-8 (`sqlText`).

* `isClean`, `matchesRoute`: the paths with an id that the router hands to a route.
* `respond`: the response to a request as it arrives.
-/

namespace Webhooks.Go

open Lib

/-- A Go string as the text of a parameter. -/
def sqlText (bs : Bytes) : Option String := (Utf8.decode? bs).map .ofList

/-- A Go string that is only parsed. -/
def lossy (bs : Bytes) : String := .ofList (Utf8.decode bs)

def parseUTCDatetime (fmt : Formats) (raw : String) : Option Int :=
  if ['Z'].isSuffixOf raw.toList then fmt.parseRFC3339 raw else none

section

variable (p : Platform) (d : Draws) (fmt : Formats) (overlapMs : Nat) (tenantId : Uuid) (s : Store)

/-! ### Endpoints -/

/-- `POST /endpoints`. -/
def registerEndpoint (body : Bytes) : Store × Response :=
  match decodeRegister body with
  | none => (s, invalidRequest "Invalid request body")
  | some req =>
      if req.url = "" then (s, invalidRequest "url is required")
      else if req.eventTypes = [] then
        (s, invalidRequest "event_types must have at least one entry")
      else if req.eventTypes.any (· = "") then
        (s, invalidRequest "event_types entries must be non-empty")
      else if d.validation.allowed then
        param s (textParam req.url) fun url => param s (req.eventTypes.mapM textParam) fun eventTypes =>
          (Webhooks.registerEndpoint s d.now tenantId url eventTypes d.encryptedSecret,
            ⟨201, .registered ⟨s.uuids, url, eventTypes, .active, p.rfc3339Nano d.now⟩
              d.signingSecret⟩)
      else (s, ⟨400, .error "url_not_allowed" (d.validation.reason.getD "")⟩)

/-- `GET /endpoints/{id}`. -/
def getEndpoint (id : String) : Store × Response :=
  param s (p.uuid id) fun id =>
    match findEndpoint s id tenantId with
    | none => (s, notFound "Endpoint not found")
    | some e => (s, ⟨200, .endpointHealth (serializeEndpointWithHealth p d s e)⟩)

/-- `POST /endpoints/{id}/pause`. -/
def pauseEndpoint (id : String) : Store × Response :=
  match updateStatus p tenantId s id .paused with
  | (s', .error response) => (s', response)
  | (s', .ok e) => (s', ⟨200, .endpoint (serializeEndpoint p e)⟩)

/-- `POST /endpoints/{id}/secret/rotate`. -/
def rotateSecret (id : String) : Store × Response :=
  let overlapExpiresAt := d.now + overlapMs * p.ticksPerMs
  param s (p.uuid id) fun id =>
    let s' := Webhooks.rotateSecret s id tenantId d.encryptedSecret overlapExpiresAt
    match findEndpoint s' id tenantId with
    | none => (s', notFound "Endpoint not found")
    | some _ => (s', ⟨200, .rotated d.signingSecret (p.rfc3339Nano overlapExpiresAt)⟩)

/-! ### Events and deliveries -/

/-- `POST /events`. -/
def publishEvent (body idempotencyKey : Bytes) : Store × Response :=
  if idempotencyKey = [] then (s, invalidRequest "Idempotency-Key header required")
  else
    match decodePublish body with
    | none => (s, invalidRequest "Invalid request body")
    | some req =>
        if req.type = "" then (s, invalidRequest "type is required")
        else if req.isObject then
          param s ((sqlText idempotencyKey).bind textParam) fun key =>
            param s (textParam req.type) fun type =>
              param s ((sqlText req.payload).bind p.jsonb) fun payload =>
                let r : PublishRequest := ⟨tenantId, key, type, payload⟩
                -- a conflict has drawn from the two supplies as well
                let s' := { s with uuids := s.uuids + 1, eventsSeq := s.eventsSeq + 1 }
                match s.events.find? r.conflicts with
                | some e => (s', ⟨202, .accepted e.id e.status⟩)
                | none =>
                    let row := r.newEvent d.now s.uuids s.eventsSeq
                    ({ s' with events := s.events ++ [row] }, ⟨202, .accepted row.id row.status⟩)
        else (s, invalidRequest "payload must be an object")

def serializeFanout (r : Delivery) : FanoutJson :=
  ⟨r.id, r.endpointId, r.state, r.attemptCount, p.rfc3339Nano r.nextAttemptAt⟩

/-- `GET /events/{id}`. -/
def getEvent (id : String) : Store × Response :=
  param s (p.uuid id) fun id =>
    match s.events.find? fun e => e.id = id && e.tenantId = tenantId with
    | none => (s, notFound "Event not found")
    | some e =>
        let deliveries := (s.deliveries.filter fun r => r.eventId = e.id).insertionSort
          fun a b => a.seq ≤ b.seq
        (s, ⟨200, .event (serializeEvent p e) (deliveries.map (serializeFanout p))⟩)

def maxAttemptsInResponse : Nat := 6

def lastResponse (a : Attempt) : LastResponseJson :=
  ⟨a.responseStatus, a.responseBodyTruncated, a.durationMs, a.errorClass⟩

def serializeAttempt (a : Attempt) : AttemptJson :=
  ⟨a.attemptNumber, a.sentAt.map p.rfc3339Nano, lastResponse a⟩

/-- `GET /deliveries/{id}`. -/
def getDelivery (id : String) : Store × Response :=
  param s (p.uuid id) fun id =>
    match s.deliveries.find? fun r => r.id = id && hasEndpoint s r.endpointId tenantId with
    | none => (s, notFound "Delivery not found")
    | some r =>
        let latestFirst := (orderByDesc (·.attemptNumber) (fun a => d.ties a.id)
          (s.attemptsOf r.id)).take maxAttemptsInResponse
        (s, ⟨200, .delivery (serializeDeliverySummary p s r) r.endpointId
          (latestFirst.head?.map lastResponse)
          (latestFirst.reverse.map (serializeAttempt p))⟩)

/-! ### Replays -/

/-- What the column holds of an instant in nanoseconds. -/
def columnTime (nanos : Int) : Time := (nanos * p.ticksPerMs / 10 ^ 6).toNat

/-- `POST /endpoints/{id}/replays`. -/
def createReplay (id body idempotencyKey : Bytes) : Store × Response :=
  if idempotencyKey = [] then (s, invalidRequest "Idempotency-Key header required")
  else
    match decodeReplay body with
    | none => (s, invalidRequest "Invalid request body")
    | some req =>
        match parseUTCDatetime fmt req.rangeStart with
        | none => (s, invalidRequest "range_start must be a UTC RFC3339 datetime")
        | some rangeStart =>
        match parseUTCDatetime fmt req.rangeEnd with
        | none => (s, invalidRequest "range_end must be a UTC RFC3339 datetime")
        | some rangeEnd =>
            if rangeEnd < rangeStart then
              (s, invalidRequest "range_end must not be before range_start")
            else
              param s ((sqlText id).bind p.uuid) fun id =>
                if hasEndpoint s id tenantId then
                  param s ((sqlText idempotencyKey).bind textParam) fun key =>
                    let r : ReplayRequest :=
                      ⟨tenantId, id, key, columnTime p rangeStart, columnTime p rangeEnd⟩
                    let s' := { s with uuids := s.uuids + 1 }
                    match s.replays.find? r.conflicts with
                    | some row => (s', ⟨202, .accepted row.id row.status⟩)
                    | none =>
                        let row := r.newReplay d.now s.uuids
                        ({ s' with replays := s.replays ++ [row] },
                          ⟨202, .accepted row.id row.status⟩)
                else (s, notFound "Endpoint not found")

/-! ### Requests -/

/-- A request, with a query value or a header as the bytes it has; one that is absent is empty. -/
abbrev HttpRequest := Webhooks.HttpRequest Bytes Bytes

/-- `net/http`'s own answer to a path that cannot be unescaped. -/
def badRequest : Response := ⟨400, .error "" "400 Bad Request"⟩

/-- `r.PathValue("id")`. -/
def pathValue (segment : Segment) (k : Bytes → Store × Response) : Store × Response :=
  match unescape segment.chars with
  | some id => k id
  | none => (s, badRequest)

/-- A route whose first statement has the id as a parameter. -/
def withId (segment : Segment) (k : String → Store × Response) : Store × Response :=
  pathValue s segment fun id => param s (sqlText id) k

/-- The values `listEvents` appends to its arguments. -/
def eventTexts (id type fromDate toDate endpointId limit before : Bytes) : Option EventQuery := do
  let id ← sqlText id
  let type ← sqlText type
  let fromDate ← sqlText fromDate
  let toDate ← sqlText toDate
  let endpointId ← sqlText endpointId
  some ⟨id, type, fromDate, toDate, endpointId, lossy limit, lossy before⟩

/-- The route's handler. -/
def serve (req : HttpRequest) : Store × Response :=
  match req.route with
  | .registerEndpoint => registerEndpoint p d tenantId s req.body
  | .listEndpoints limit before => listEndpoints p d tenantId s (lossy limit) (lossy before)
  | .getEndpoint id => withId s id (getEndpoint p d tenantId s)
  | .pauseEndpoint id => withId s id (pauseEndpoint p tenantId s)
  | .resumeEndpoint id => withId s id (resumeEndpoint p d tenantId s)
  | .rotateSecret id => withId s id (rotateSecret p d overlapMs tenantId s)
  | .listEndpointDeliveries id limit after =>
      withId s id fun id => listEndpointDeliveries p tenantId s id (lossy limit) (lossy after)
  | .publishEvent idempotencyKey => publishEvent p d tenantId s req.body idempotencyKey
  | .listEvents id type fromDate toDate endpointId limit before =>
      param s (eventTexts id type fromDate toDate endpointId limit before) (listEvents p tenantId s)
  | .getEvent id => withId s id (getEvent p tenantId s)
  | .getDelivery id => withId s id (getDelivery p d tenantId s)
  | .createReplay id idempotencyKey =>
      pathValue s id fun id => createReplay p d fmt tenantId s id req.body idempotencyKey

end

end Webhooks.Go
