import Mathlib.Data.List.Sort
import Webhooks.Lib.Table

/-!
# Store — Schema

The tables of `001_init.sql` and `002_deliveries_seq.sql`, a row type each, with the columns the
workers and the publish path read or write.  A `uuid` is a number drawn from the supply `uuids`
(`gen_random_uuid()` never repeats a value), and a `BIGSERIAL` is drawn from its sequence;
neither is given back when a transaction aborts.

Workers and database read one clock.  Instants and the durations between them are natural numbers
of ticks of that clock; several statements may run at one instant.  Where Node's worker compares
instants as `Date`s (the cutoff of a lease, the end of an overlap), the clock is taken to tick in whole
milliseconds, as a `Date` does; the bounds of a replay are cut to them (`Config.instant`).
-/

namespace Webhooks

abbrev Uuid := Nat
abbrev Time := Nat
abbrev Bytes := List UInt8

/-- `endpoints.status`. -/
inductive EndpointStatus where
  | active | paused | halted
  deriving DecidableEq, Repr

/-- `events.status` and `replays.status`. -/
inductive ExpansionStatus where
  | pendingExpansion | expanded
  deriving DecidableEq, Repr

/-- `deliveries.state`. -/
inductive DeliveryState where
  | pending | inFlight | succeeded | failed
  deriving DecidableEq, Repr

/-- `succeeded` and `failed` have no exit. -/
def DeliveryState.isTerminal : DeliveryState → Bool
  | .succeeded | .failed => true
  | .pending | .inFlight => false

/-- `attempts.error_class`: the classes of `httpClient.ts`, and the two of `delivery.ts`. -/
inductive AttemptErrorClass where
  | connectTimeout | totalTimeout | connectionRefused | dnsError | connectionReset
  | connectionError | urlNotAllowed | workerLeaseExpired
  deriving DecidableEq, Repr

structure Tenant where
  id : Uuid
  lastServedAt : Option Time
  deriving DecidableEq, Repr

structure Endpoint where
  id : Uuid
  tenantId : Uuid
  url : String
  eventTypes : List String
  status : EndpointStatus
  signingSecret : String
  secondarySecret : Option String
  secondarySecretExpiresAt : Option Time
  busy : Bool
  busySince : Option Time
  leaseId : Option Uuid
  createdAt : Time
  deriving DecidableEq, Repr

structure Event where
  id : Uuid
  tenantId : Uuid
  idempotencyKey : String
  type : String
  payload : String
  status : ExpansionStatus
  seq : Nat
  createdAt : Time
  deriving DecidableEq, Repr

structure Delivery where
  id : Uuid
  eventId : Uuid
  endpointId : Uuid
  state : DeliveryState
  attemptCount : Nat
  nextAttemptAt : Time
  createdAt : Time
  seq : Nat
  deriving DecidableEq, Repr

structure Attempt where
  id : Uuid
  deliveryId : Uuid
  attemptNumber : Nat
  sentAt : Option Time
  responseStatus : Option Nat
  responseBodyTruncated : Option Bytes
  durationMs : Option Nat
  errorClass : Option AttemptErrorClass
  deriving DecidableEq, Repr

structure Replay where
  id : Uuid
  endpointId : Uuid
  idempotencyKey : String
  rangeStart : Time
  rangeEnd : Time
  status : ExpansionStatus
  createdAt : Time
  deriving DecidableEq, Repr

/-- The committed content of the database, and the supplies behind `gen_random_uuid()` and the
two sequences. -/
structure Store where
  tenants : List Tenant
  endpoints : List Endpoint
  events : List Event
  deliveries : List Delivery
  attempts : List Attempt
  replays : List Replay
  uuids : Uuid
  eventsSeq : Nat
  deliveriesSeq : Nat
  deriving DecidableEq, Repr

/-- A database with these tenants and nothing else.  Tenants are created out of band. -/
def Store.init (tenants : List Tenant) : Store where
  tenants := tenants
  endpoints := []
  events := []
  deliveries := []
  attempts := []
  replays := []
  uuids := 0
  eventsSeq := 1
  deliveriesSeq := 1

/-- A `TEXT` parameter is accepted when its bytes are valid UTF-8 and none is NUL. -/
def acceptsText (b : Bytes) : Bool := decide b.toByteArray.IsValidUTF8 && !b.contains 0

/-- A recorded response status in `200..299`. -/
def Attempt.is2xx (a : Attempt) : Bool := a.responseStatus.any fun n => 200 ≤ n && n < 300

/-- Neither `response_status` nor `error_class` is set. -/
def Attempt.isOpen (a : Attempt) : Bool := a.responseStatus.isNone && a.errorClass.isNone

/-- The delivery still waits for an outcome. -/
def Delivery.isUnresolved (d : Delivery) : Bool := !d.state.isTerminal

/-- The attempts of a delivery, in the order they were inserted. -/
def Store.attemptsOf (s : Store) (deliveryId : Uuid) : List Attempt :=
  s.attempts.filter fun a => a.deliveryId = deliveryId

end Webhooks
