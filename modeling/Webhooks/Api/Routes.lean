import Webhooks.Config

/-!
# Api — Routes

The statements of the routes the delivery pipeline depends on: `POST /endpoints`,
`POST /endpoints/:id/pause`, `/resume` and `/secret/rotate`, `POST /events` and
`POST /endpoints/:id/replays`.  The first four are one auto-committed statement each; the last two
may send another one to read the row their `INSERT … ON CONFLICT DO NOTHING` met.
-/

namespace Webhooks

/-- `INSERT INTO endpoints (tenant_id, url, event_types, signing_secret) VALUES …`. -/
def registerEndpoint (s : Store) (now : Time) (tenantId : Uuid) (url : String)
    (eventTypes : List String) (signingSecret : String) : Store :=
  { s with
    endpoints := s.endpoints ++
      [{ id := s.uuids
         tenantId := tenantId
         url := url
         eventTypes := eventTypes
         status := .active
         signingSecret := signingSecret
         secondarySecret := none
         secondarySecretExpiresAt := none
         busy := false
         busySince := none
         leaseId := none
         createdAt := now }]
    uuids := s.uuids + 1 }

/-- `UPDATE endpoints SET status = … WHERE id = $1 AND tenant_id = $2`, of pause and resume. -/
def setEndpointStatus (s : Store) (id tenantId : Uuid) (status : EndpointStatus) : Store :=
  { s with
    endpoints := Lib.Table.update (fun e => e.id = id && e.tenantId = tenantId)
      (fun e => { e with status := status }) s.endpoints }

/-- A `POST /events` request of an authenticated tenant. -/
structure PublishRequest where
  tenantId : Uuid
  idempotencyKey : String
  type : String
  payload : String
  deriving DecidableEq, Repr

/-- The row the publish `INSERT` adds when its key is new. -/
def PublishRequest.newEvent (r : PublishRequest) (now : Time) (id : Uuid) (seq : Nat) : Event where
  id := id
  tenantId := r.tenantId
  idempotencyKey := r.idempotencyKey
  type := r.type
  payload := r.payload
  status := .pendingExpansion
  seq := seq
  createdAt := now

/-- The row has the request's (`tenant_id`, `idempotency_key`). -/
def PublishRequest.conflicts (r : PublishRequest) (e : Event) : Bool :=
  e.tenantId = r.tenantId && e.idempotencyKey = r.idempotencyKey

/-- `UPDATE endpoints SET secondary_secret = signing_secret, secondary_secret_expires_at = $1,
signing_secret = $2 WHERE id = $3 AND tenant_id = $4`.  The new secret is stored encrypted. -/
def rotateSecret (s : Store) (id tenantId : Uuid) (signingSecret : String) (overlapExpiresAt : Time) :
    Store :=
  { s with
    endpoints := Lib.Table.update (fun e => e.id = id && e.tenantId = tenantId)
      (fun e => { e with
        secondarySecret := some e.signingSecret
        secondarySecretExpiresAt := some overlapExpiresAt
        signingSecret := signingSecret }) s.endpoints }

/-- `SELECT id FROM endpoints WHERE id = $1 AND tenant_id = $2`. -/
def hasEndpoint (s : Store) (id tenantId : Uuid) : Bool :=
  s.endpoints.any fun e => e.id = id && e.tenantId = tenantId

/-- A `POST /endpoints/:id/replays` request of an authenticated tenant. -/
structure ReplayRequest where
  tenantId : Uuid
  endpointId : Uuid
  idempotencyKey : String
  rangeStart : Time
  rangeEnd : Time
  deriving DecidableEq, Repr

/-- What the handler checks before it sends a statement, on the instants as its program has them. -/
def ReplayRequest.isValid (instant : Time → Time) (r : ReplayRequest) : Bool :=
  instant r.rangeStart ≤ instant r.rangeEnd && r.idempotencyKey ≠ ""

/-- The row the replay `INSERT` adds when its key is new. -/
def ReplayRequest.newReplay (r : ReplayRequest) (now : Time) (id : Uuid) : Replay where
  id := id
  endpointId := r.endpointId
  idempotencyKey := r.idempotencyKey
  rangeStart := r.rangeStart
  rangeEnd := r.rangeEnd
  status := .pendingExpansion
  createdAt := now

/-- The row has the request's (`endpoint_id`, `idempotency_key`). -/
def ReplayRequest.conflicts (r : ReplayRequest) (row : Replay) : Bool :=
  row.endpointId = r.endpointId && row.idempotencyKey = r.idempotencyKey

end Webhooks
