import Webhooks.Api.Handlers
import Webhooks.Api.Wire

/-!
# Api — Express

What comes before the handlers of the Node API (`app.ts`), and the schemas of the three bodies: the body
is parsed for every route, the `:id` is unescaped, and an error on the way goes to the error handler.

* `expressJson`: `express.json()`.
* `registerSchema`, `publishSchema`, `replaySchema`: `safeParse`, with the message of the first issue.
* `findRoute`: where the router takes a path without an id.
* `respond`: the response to a request as it arrives.
-/

namespace Webhooks.Node

open Lib

/-! ### Bodies -/

def parsedType : Json.Value → String
  | .null => "null"
  | .bool _ => "boolean"
  | .num _ => "number"
  | .str _ => "string"
  | .arr _ => "array"
  | .obj _ => "object"

/-- The message of an `invalid_type` issue. -/
def invalidType (expected : String) : Option Json.Value → String
  | none => "Required"
  | some v => "Expected " ++ expected ++ ", received " ++ parsedType v

/-- `z.string().min(1)`. -/
def nonEmptyString : Option Json.Value → Except String String
  | some (.str []) => .error "String must contain at least 1 character(s)"
  | some (.str s) => .ok (.ofList s)
  | v => .error (invalidType "string" v)

/-- `z.array(z.string().min(1)).min(1)`. -/
def nonEmptyStrings : Option Json.Value → Except String (List String)
  | some (.arr []) => .error "Array must contain at least 1 element(s)"
  | some (.arr vs) => vs.mapM fun v => nonEmptyString (some v)
  | v => .error (invalidType "array" v)

/-- `z.object(…)`, of a shape. -/
def parseObject {α : Type} (body : Json.Value) (shape : Json.Value → Except String α) : Except String α :=
  match body with
  | .obj ms => shape (.obj ms)
  | v => .error (invalidType "object" (some v))

def registerSchema (body : Json.Value) : Except String RegisterBody :=
  parseObject body fun o => do
    let url ← nonEmptyString (o.get? "url".toList)
    let eventTypes ← nonEmptyStrings (o.get? "event_types".toList)
    .ok ⟨url, eventTypes⟩

/-- `z.record(z.unknown())`. -/
def parseRecord : Option Json.Value → Except String Unit
  | some (.obj _) => .ok ()
  | v => .error (invalidType "object" v)

/-- `payload` is the text it is sent to the database as. -/
def publishSchema (payload : Option String) (body : Json.Value) : Except String PublishBody :=
  parseObject body fun o => do
    let type ← nonEmptyString (o.get? "type".toList)
    parseRecord (o.get? "payload".toList)
    .ok ⟨type, payload⟩

/-- `z.string().datetime()`. -/
def parseDatetime (fmt : Formats) : Option Json.Value → Except String String
  | some (.str s) => if fmt.isDatetime (.ofList s) then .ok (.ofList s) else .error "Invalid datetime"
  | v => .error (invalidType "string" v)

/-- `new Date(rangeEnd) >= new Date(rangeStart)`. -/
def inOrderDates (fmt : Formats) (rangeStart rangeEnd : String) : Bool :=
  match fmt.date rangeStart, fmt.date rangeEnd with
  | some a, some b => a ≤ b
  | _, _ => false

def replaySchema (fmt : Formats) (body : Json.Value) : Except String ReplayBody :=
  parseObject body fun o => do
    let rangeStart ← parseDatetime fmt (o.get? "range_start".toList)
    let rangeEnd ← parseDatetime fmt (o.get? "range_end".toList)
    if inOrderDates fmt rangeStart rangeEnd then .ok ⟨rangeStart, rangeEnd⟩
    else .error "range_end must not be before range_start"

/-! ### Requests -/

/-- `decode_param`: `decodeURIComponent`. -/
def decodeParam (segment : Segment) : Option String :=
  ((unescape segment.chars).bind Utf8.decode?).map .ofList

/-- The payloads a body shows. -/
def payloads : Body → List String
  | .events events _ => events.map (·.payload)
  | .event event _ => [event.payload]
  | _ => []

/-- `res.json`, of a body with payloads. -/
def sendJson (p : Platform) (r : Store × Response) : Store × Response :=
  if (payloads r.2.body).all p.stringifies then r else (r.1, internalError)

/-- A request, with a query value or header as the text it has, when it has one, and `limit` as
`Number(req.query.limit)`, when that does not throw. -/
abbrev HttpRequest := Webhooks.HttpRequest (Option String) (Option Double)

section

variable (p : Platform) (d : Draws) (fmt : Formats) (overlapMs : Nat) (tenantId : Uuid) (s : Store)

/-- `GET /endpoints/:id/deliveries`, with a `limit` that throws: the endpoint is looked up before. -/
def listDeliveriesThrows (id : String) : Store × Response :=
  param s (p.uuid id) fun id =>
    match findEndpoint s id tenantId with
    | none => (s, notFound "Endpoint not found")
    | some _ => (s, internalError)

def listDeliveries (id : String) (limit : Option Double) (after : Option String) : Store × Response :=
  match limit with
  | some limit => listEndpointDeliveries p tenantId s id limit after
  | none => listDeliveriesThrows p tenantId s id

/-- The route's handler, of a body that is parsed and the payload it is sent on as. -/
def serve (body : Json.Value) (payload : Option String) :
    Route (Option String) (Option Double) → Store × Response
  | .registerEndpoint => registerEndpoint p d tenantId s (registerSchema body)
  | .listEndpoints limit before => param s limit fun limit => listEndpoints p d tenantId s limit before
  | .getEndpoint id => param s (decodeParam id) (getEndpoint p d tenantId s)
  | .pauseEndpoint id => param s (decodeParam id) (pauseEndpoint p tenantId s)
  | .resumeEndpoint id => param s (decodeParam id) (resumeEndpoint p d tenantId s)
  | .rotateSecret id => param s (decodeParam id) (rotateSecret p d overlapMs tenantId s)
  | .listEndpointDeliveries id limit after =>
      param s (decodeParam id) fun id => listDeliveries p tenantId s id limit after
  | .publishEvent idempotencyKey =>
      publishEvent p d tenantId s (publishSchema payload body) idempotencyKey
  | .listEvents id type fromDate toDate endpointId limit before =>
      param s limit fun limit =>
        sendJson p (listEvents p tenantId s ⟨id, type, fromDate, toDate, endpointId, limit, before⟩)
  | .getEvent id => param s (decodeParam id) fun id => sendJson p (getEvent p tenantId s id)
  | .getDelivery id => param s (decodeParam id) (getDelivery p d tenantId s)
  | .createReplay id idempotencyKey =>
      param s (decodeParam id) fun id =>
        createReplay p d tenantId s id (replaySchema fmt body) idempotencyKey

end

end Webhooks.Node
