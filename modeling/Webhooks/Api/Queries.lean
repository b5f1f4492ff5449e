import Mathlib.Logic.Embedding.Basic
import Webhooks.Api.Platform
import Webhooks.Api.Routes
import Webhooks.Validation.Url

/-!
# Api — Queries

What an authenticated request is and what is answered to it, and the queries behind the routes.
Both stacks send the same statements and answer with the same JSON.

* A body comes as the outcome of `safeParse`, a query value or a header as the text it has when it
  has one, and `limit` as the number it is read as.
* `Draws` is what a handler takes from outside: the clock, a new secret, the verdict on a URL, and the
  order in which Postgres returns rows that an `ORDER BY` leaves equal.
* A statement Postgres refuses throws, and the request is answered with 500 (`param`).
-/

namespace Webhooks

open Lib

/-! ### Requests and responses -/

structure Draws where
  now : Time
  /-- `generateSecret("whsec")`. -/
  signingSecret : String
  /-- `encryptSecret(signingSecret)`. -/
  encryptedSecret : String
  /-- `validateEndpointUrl(url)`. -/
  validation : UrlValidation
  ties : Uuid ↪ Nat

structure RegisterBody where
  url : String
  eventTypes : List String

structure PublishBody where
  type : String
  /-- `JSON.stringify(payload)`, when it does not throw. -/
  payload : Option String

structure ReplayBody where
  rangeStart : String
  rangeEnd : String

structure EventQuery where
  id : Option String
  type : Option String
  fromDate : Option String
  toDate : Option String
  endpointId : Option String
  limit : Double
  before : Option String

inductive Request where
  | registerEndpoint (body : Except String RegisterBody)
  | listEndpoints (limit : Double) (before : Option String)
  | getEndpoint (id : String)
  | pauseEndpoint (id : String)
  | resumeEndpoint (id : String)
  | rotateSecret (id : String)
  | listEndpointDeliveries (id : String) (limit : Double) (after : Option String)
  | publishEvent (body : Except String PublishBody) (idempotencyKey : Option String)
  | listEvents (query : EventQuery)
  | getEvent (id : String)
  | getDelivery (id : String)
  | createReplay (id : String) (body : Except String ReplayBody) (idempotencyKey : Option String)

/-- `serializeEndpoint`. -/
structure EndpointJson where
  id : Uuid
  url : String
  eventTypes : List String
  status : EndpointStatus
  createdAt : String
  deriving DecidableEq, Repr

/-- `serializeEndpointWithHealth`.  The average is exact here, Postgres rounds it. -/
structure EndpointHealthJson where
  endpoint : EndpointJson
  queueDepth : Nat
  oldestPendingAt : Option String
  recentSuccessRate : Option ℚ
  deriving DecidableEq, Repr

/-- `serializeEvent`. -/
structure EventJson where
  id : Uuid
  type : String
  payload : String
  status : ExpansionStatus
  createdAt : String
  deriving DecidableEq, Repr

/-- A delivery of `GET /events/:id`. -/
structure FanoutJson where
  id : Uuid
  endpointId : Uuid
  state : DeliveryState
  attemptCount : Nat
  nextAttemptAt : String
  deriving DecidableEq, Repr

/-- `serializeDeliverySummary`. -/
structure DeliverySummaryJson where
  id : Uuid
  eventId : Uuid
  state : DeliveryState
  attemptCount : Nat
  nextAttemptAt : String
  blockedOnDeliveryId : Option Uuid
  deriving DecidableEq, Repr

/-- The `last_response` of a delivery. -/
structure LastResponseJson where
  responseStatus : Option Nat
  responseBodyTruncated : Option Bytes
  durationMs : Option Nat
  errorClass : Option AttemptErrorClass
  deriving DecidableEq, Repr

/-- `serializeAttempt`. -/
structure AttemptJson where
  attemptNumber : Nat
  sentAt : Option String
  response : LastResponseJson
  deriving DecidableEq, Repr

inductive Body where
  | error (code message : String)
  | registered (endpoint : EndpointJson) (signingSecret : String)
  | endpoint (endpoint : EndpointJson)
  | endpointHealth (endpoint : EndpointHealthJson)
  | endpoints (endpoints : List EndpointHealthJson) (nextCursor : Option String)
  | resumed (endpoint : EndpointJson) (pendingDeliveryCount : Nat)
      (skippedFailedDeliveryIds : List Uuid)
  | rotated (signingSecret overlapExpiresAt : String)
  | deliveries (deliveries : List DeliverySummaryJson) (nextCursor : Option String)
  /-- `202` of a publish or a replay. -/
  | accepted (id : Uuid) (status : ExpansionStatus)
  | events (events : List EventJson) (nextCursor : Option String)
  | event (event : EventJson) (deliveries : List FanoutJson)
  | delivery (summary : DeliverySummaryJson) (endpointId : Uuid)
      (lastResponse : Option LastResponseJson) (attempts : List AttemptJson)
  deriving DecidableEq, Repr

structure Response where
  status : Nat
  body : Body
  deriving DecidableEq, Repr

def invalidRequest (message : String) : Response := ⟨400, .error "invalid_request" message⟩

def notFound (message : String) : Response := ⟨404, .error "not_found" message⟩

/-- What the error handler of `app.ts` answers. -/
def internalError : Response := ⟨500, .error "internal_error" "Internal error"⟩

/-- Go on with the value of a parameter, or throw when Postgres refuses it. -/
def param {α : Type} (s : Store) (v : Option α) (k : α → Store × Response) : Store × Response :=
  match v with
  | some a => k a
  | none => (s, internalError)

section

variable {α : Type} {s : Store} (k : α → Store × Response)

@[simp] theorem param_some (a : α) : param s (some a) k = k a := rfl

@[simp] theorem param_none : param s none k = (s, internalError) := rfl

end

/-! ### Queries -/

/-- In the order of `key`, rows it leaves equal in that of `ties`. -/
def inOrder {α : Type} (key ties : α → Nat) (a b : α) : Prop :=
  key a < key b ∨ key a = key b ∧ ties a ≤ ties b

instance {α : Type} (key ties : α → Nat) : DecidableRel (inOrder key ties) := fun a b => by
  unfold inOrder; exact inferInstance

instance {α : Type} (key ties : α → Nat) : Std.Total (inOrder key ties) :=
  ⟨fun a b => by simp only [inOrder]; omega⟩

instance {α : Type} (key ties : α → Nat) : IsTrans α (inOrder key ties) :=
  ⟨fun a b c hab hbc => by simp only [inOrder] at hab hbc ⊢; omega⟩

/-- `ORDER BY key`. -/
def orderBy {α : Type} (key ties : α → Nat) (rows : List α) : List α :=
  rows.insertionSort (inOrder key ties)

/-- `ORDER BY key DESC`. -/
def orderByDesc {α : Type} (key ties : α → Nat) (rows : List α) : List α :=
  rows.insertionSort fun a b => key b < key a ∨ key a = key b ∧ ties a ≤ ties b

/-- `SELECT … FROM endpoints WHERE id = $1 AND tenant_id = $2`. -/
def findEndpoint (s : Store) (id tenantId : Uuid) : Option Endpoint :=
  s.endpoints.find? fun e => e.id = id && e.tenantId = tenantId

/-- The deliveries of an endpoint. -/
def deliveriesOf (s : Store) (endpointId : Uuid) : List Delivery :=
  s.deliveries.filter fun d => d.endpointId = endpointId

/-- Those with `state IN ('pending', 'in_flight')`. -/
def unresolvedOf (s : Store) (endpointId : Uuid) : List Delivery :=
  (deliveriesOf s endpointId).filter Delivery.isUnresolved

/-- `SELECT MIN(created_at) FROM deliveries WHERE … state IN ('pending', 'in_flight')`. -/
def oldestPendingAt (s : Store) (endpointId : Uuid) : Option Time :=
  ((unresolvedOf s endpointId).map (·.createdAt)).min?

/-- The average of `state = 'succeeded'` over the last 50 terminal deliveries. -/
def recentSuccessRate (d : Draws) (s : Store) (endpointId : Uuid) : Option ℚ :=
  let recent := (orderByDesc (·.createdAt) (fun r => d.ties r.id)
    ((deliveriesOf s endpointId).filter fun r => r.state.isTerminal)).take 50
  if recent = [] then none
  else some ((recent.filter fun r => r.state = .succeeded).length / recent.length)

/-- The failed deliveries `POST /endpoints/:id/resume` discloses: those created before the oldest
unresolved one, in the order of `created_at`. -/
def skippedFailedDeliveries (d : Draws) (s : Store) (endpointId : Uuid) : List Delivery :=
  orderBy (·.createdAt) (fun r => d.ties r.id)
    ((deliveriesOf s endpointId).filter fun r => r.state = .failed &&
      (oldestPendingAt s endpointId).all fun t => r.createdAt < t)

/-- `HEAD_DELIVERY_SELECT`: the unresolved delivery of the endpoint with the lowest `seq`. -/
def headDeliveryId (s : Store) (endpointId : Uuid) : Option Uuid :=
  ((unresolvedOf s endpointId).argmin (·.seq)).map (·.id)

/-- The rows `GET /endpoints/:id/deliveries` reads, one more than it shows. -/
def selectDeliveries (s : Store) (endpointId : Uuid) (after : Option Int) (limit : Nat) :
    List Delivery :=
  (((deliveriesOf s endpointId).filter fun r => after.all fun n => n < (r.seq : Int)).insertionSort
    fun a b => a.seq ≤ b.seq).take (limit + 1)

/-- The conditions of `GET /events`. -/
structure EventFilter where
  id : Option Uuid
  type : Option String
  fromDate : Option Timestamptz
  toDate : Option Timestamptz
  endpointId : Option Uuid

/-- The conditions as parameters, or `none` when Postgres refuses one of them. -/
def EventQuery.params (p : Platform) (q : EventQuery) : Option EventFilter := do
  let id ← q.id.mapM p.uuid
  let type ← q.type.mapM textParam
  let fromDate ← q.fromDate.mapM p.timestamptz
  let toDate ← q.toDate.mapM p.timestamptz
  let endpointId ← q.endpointId.mapM p.uuid
  some ⟨id, type, fromDate, toDate, endpointId⟩

def EventFilter.admits (tenantId : Uuid) (s : Store) (f : EventFilter) (e : Event) : Bool :=
  e.tenantId = tenantId && f.id.all (e.id = ·) && f.type.all (e.type = ·) &&
    f.fromDate.all (fun t => t.compare e.createdAt ≠ .lt) &&
    f.toDate.all (fun t => t.compare e.createdAt ≠ .gt) &&
    f.endpointId.all fun endpointId =>
      s.deliveries.any fun r => r.eventId = e.id && r.endpointId = endpointId

/-- The first instant, an allowed URL, and ties in the order of the identifiers. -/
def Sample.draws : Draws where
  now := 0
  signingSecret := "whsec_0"
  encryptedSecret := "s"
  validation := ⟨true, none⟩
  ties := .refl _

end Webhooks
