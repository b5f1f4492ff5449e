import Mathlib.Data.List.Sort
import Webhooks.Config

/-!
# Worker — Claim

`claimDelivery` and `tryClaimEndpoint` (`delivery.ts`; the Go worker sends the same statements
in the same order).  Each statement is a function of the store: nothing outside
`BEGIN … COMMIT` is held over two of them, so another worker may act between any two.

* `claimCandidates`: the candidate query.
* `claimEndpoint`, `touchTenant`, `closeOrphans`, `requeueInFlight`, `fetchHead`,
  `releaseLease`, `insertAttempt`, `markInFlight`: the statements of `tryClaimEndpoint`.
* `claimStep`: the statement a claim sends next, and where it stands afterwards.  This is the
  granularity at which workers interleave.
* `tryClaimEndpoint`, `claimDelivery`: the statements run one after the other with nothing in
  between.
-/

namespace Webhooks

/-! ### Rows a claim reads -/

/-- A row of the candidate query.  `busy` is what the query saw, not what holds later. -/
structure CandidateRow where
  id : Uuid
  tenantId : Uuid
  busy : Bool
  deriving DecidableEq, Repr

/-- The head delivery with the columns of its event and its endpoint. -/
structure DeliveryRow where
  id : Uuid
  eventId : Uuid
  attemptCount : Nat
  nextAttemptAt : Time
  eventType : String
  payload : String
  url : String
  signingSecret : String
  secondarySecret : Option String
  secondarySecretExpiresAt : Option Time
  deriving DecidableEq, Repr

structure ClaimedDelivery where
  endpointId : Uuid
  tenantId : Uuid
  leaseId : Uuid
  deliveryId : Uuid
  eventId : Uuid
  eventType : String
  payload : String
  attemptNumber : Nat
  attemptId : Uuid
  url : String
  signingSecret : String
  secondarySecret : Option String
  deriving DecidableEq, Repr

/-! ### The candidate query -/

/-- Not busy, or busy since before `cutoff`. -/
def Endpoint.isFree (e : Endpoint) (cutoff : Time) : Bool :=
  !e.busy || e.busySince.any fun t => t < cutoff

/-- The deliveries of an endpoint the candidate query counts as ready. -/
def readyDeliveries (s : Store) (now : Time) (endpointId : Uuid) : List Delivery :=
  s.deliveries.filter fun d => d.endpointId = endpointId &&
    ((d.state = .pending && d.nextAttemptAt ≤ now) || d.state = .inFlight)

/-- A candidate with the two columns the query orders by. -/
structure RankedCandidate where
  row : CandidateRow
  lastServedAt : Option Time
  minSeq : Nat
  deriving DecidableEq, Repr

/-- The query's row for an endpoint, when its `WHERE` and its `JOIN` let it through. -/
def candidateOf (s : Store) (now cutoff : Time) (e : Endpoint) : Option RankedCandidate :=
  if e.status = .active && e.isFree cutoff then
    (s.tenants.find? fun t => t.id = e.tenantId).bind fun t =>
      ((readyDeliveries s now e.id).map (·.seq)).min?.map fun m =>
        ⟨⟨e.id, e.tenantId, e.busy⟩, t.lastServedAt, m⟩
  else none

/-- `ORDER BY last_served_at ASC NULLS FIRST, MIN(seq) ASC`. -/
def RankedCandidate.le (a b : RankedCandidate) : Prop :=
  let rank : Option Time → Nat := fun t => t.elim 0 (· + 1)
  rank a.lastServedAt < rank b.lastServedAt ∨
    rank a.lastServedAt = rank b.lastServedAt ∧ a.minSeq ≤ b.minSeq

instance : DecidableRel RankedCandidate.le := fun a b => by
  unfold RankedCandidate.le; exact inferInstance

/-- The candidate query.  `scan` is the order in which the executor meets the endpoints; it
decides how rows the `ORDER BY` leaves equal come out. -/
def claimCandidates (s : Store) (now cutoff : Time) (scan : List Endpoint) : List CandidateRow :=
  (((scan.filterMap (candidateOf s now cutoff)).insertionSort RankedCandidate.le).take 20).map (·.row)

/-! ### The statements of `tryClaimEndpoint` -/

/-- The `WHERE` of the claiming `UPDATE`. -/
def Endpoint.isClaimable (id : Uuid) (cutoff : Time) (e : Endpoint) : Bool :=
  e.id = id && e.status = .active && e.isFree cutoff

/-- `UPDATE endpoints SET busy = true, busy_since = now(), lease_id = gen_random_uuid() WHERE …
RETURNING lease_id`. -/
def claimEndpoint (s : Store) (now : Time) (id : Uuid) (cutoff : Time) : Option Uuid × Store :=
  if s.endpoints.any (Endpoint.isClaimable id cutoff) then
    (some s.uuids,
      { s with
        endpoints := Lib.Table.update (Endpoint.isClaimable id cutoff)
          (fun e => { e with busy := true, busySince := some now, leaseId := some s.uuids })
          s.endpoints
        uuids := s.uuids + 1 })
  else (none, s)

/-- `UPDATE tenants SET last_served_at = now() WHERE id = $1`. -/
def touchTenant (s : Store) (now : Time) (id : Uuid) : Store :=
  { s with
    tenants := Lib.Table.update (fun t => t.id = id) (fun t => { t with lastServedAt := some now })
      s.tenants }

/-- An in-flight delivery of the endpoint. -/
def Delivery.isInFlightOn (endpointId : Uuid) (d : Delivery) : Bool :=
  d.endpointId = endpointId && d.state = .inFlight

/-- `UPDATE attempts SET error_class = 'worker_lease_expired' WHERE delivery_id = (SELECT …) AND
…`.  The subquery must return at most one row: on more the statement raises an error. -/
def closeOrphans (s : Store) (endpointId : Uuid) : Option Store :=
  match s.deliveries.filter (Delivery.isInFlightOn endpointId) with
  | [] => some s
  | [d] =>
      some { s with
        attempts := Lib.Table.update
          (fun a => a.deliveryId = d.id && a.sentAt.isSome && a.isOpen)
          (fun a => { a with errorClass := some .workerLeaseExpired }) s.attempts }
  | _ :: _ :: _ => none

/-- `UPDATE deliveries SET state = 'pending' WHERE endpoint_id = $1 AND state = 'in_flight'`. -/
def requeueInFlight (s : Store) (endpointId : Uuid) : Store :=
  { s with
    deliveries := Lib.Table.update (Delivery.isInFlightOn endpointId)
      (fun d => { d with state := .pending }) s.deliveries }

/-- A pending delivery of the endpoint joined with its event and its endpoint. -/
def joinHead (s : Store) (endpointId : Uuid) (d : Delivery) : Option (Nat × DeliveryRow) :=
  if d.endpointId = endpointId && d.state = .pending then
    (s.events.find? fun e => e.id = d.eventId).bind fun e =>
      (s.endpoints.find? fun ep => ep.id = d.endpointId).map fun ep =>
        (d.seq,
          { id := d.id
            eventId := d.eventId
            attemptCount := d.attemptCount
            nextAttemptAt := d.nextAttemptAt
            eventType := e.type
            payload := e.payload
            url := ep.url
            signingSecret := ep.signingSecret
            secondarySecret := ep.secondarySecret
            secondarySecretExpiresAt := ep.secondarySecretExpiresAt })
  else none

/-- `SELECT … WHERE d.endpoint_id = $1 AND d.state = 'pending' ORDER BY d.seq LIMIT 1`. -/
def fetchHead (s : Store) (endpointId : Uuid) : Option DeliveryRow :=
  ((s.deliveries.filterMap (joinHead s endpointId)).argmin Prod.fst).map Prod.snd

/-- The columns of an endpoint no worker holds. -/
def Endpoint.released (e : Endpoint) : Endpoint :=
  { e with busy := false, busySince := none, leaseId := none }

/-- `UPDATE endpoints SET busy = false, … WHERE id = $1 AND lease_id = $2`. -/
def releaseLease (s : Store) (id leaseId : Uuid) : Store :=
  { s with
    endpoints := Lib.Table.update (fun e => e.id = id && e.leaseId = some leaseId)
      Endpoint.released s.endpoints }

/-- `INSERT INTO attempts (delivery_id, attempt_number, sent_at) VALUES ($1, $2, now())
RETURNING id`. -/
def insertAttempt (s : Store) (now : Time) (deliveryId : Uuid) (attemptNumber : Nat) :
    Uuid × Store :=
  (s.uuids,
    { s with
      attempts := s.attempts ++
        [{ id := s.uuids
           deliveryId := deliveryId
           attemptNumber := attemptNumber
           sentAt := some now
           responseStatus := none
           responseBodyTruncated := none
           durationMs := none
           errorClass := none }]
      uuids := s.uuids + 1 })

/-- `UPDATE deliveries SET state = 'in_flight', attempt_count = $2 WHERE id = $1`. -/
def markInFlight (s : Store) (deliveryId : Uuid) (attemptNumber : Nat) : Store :=
  { s with
    deliveries := Lib.Table.update (fun d => d.id = deliveryId)
      (fun d => { d with state := .inFlight, attemptCount := attemptNumber }) s.deliveries }

/-- The secrets to sign with: the current one, and the secondary one until it expires.  Fails
when a stored value does not decrypt. -/
def decryptSecrets (cfg : Config) (now : Time) (head : DeliveryRow) :
    Option (String × Option String) :=
  (cfg.decryptSecret head.signingSecret).bind fun signingSecret =>
    match head.secondarySecret, head.secondarySecretExpiresAt with
    | some secondary, some expiresAt =>
        if now < expiresAt then
          (cfg.decryptSecret secondary).map fun secondarySecret =>
            (signingSecret, some secondarySecret)
        else some (signingSecret, none)
    | _, _ => some (signingSecret, none)

/-! ### A claim, statement by statement -/

/-- A call of `tryClaimEndpoint` whose claiming `UPDATE` has returned a lease.  `claimedAt`, the
instant of that `UPDATE`, is what the endpoint's `busy_since` was set to. -/
structure Claim where
  candidate : CandidateRow
  rest : List CandidateRow
  cutoff : Time
  leaseId : Uuid
  claimedAt : Time
  deriving DecidableEq, Repr

/-- What a claim does next. -/
inductive ClaimStep where
  | touchTenant
  | closeOrphans
  | requeue
  | fetchHead
  /-- The head has been read; compare its `next_attempt_at` with the clock. -/
  | checkHead (head : Option DeliveryRow)
  | release
  | insertAttempt (head : DeliveryRow)
  | markInFlight (head : DeliveryRow) (attemptNumber : Nat) (attemptId : Uuid)
  /-- Both writes are done; decrypt the secrets and return. -/
  | finish (head : DeliveryRow) (attemptNumber : Nat) (attemptId : Uuid)
  deriving DecidableEq, Repr

/-- What a statement of a claim leads to. -/
inductive ClaimResult where
  /-- The call goes on. -/
  | next (step : ClaimStep)
  /-- `tryClaimEndpoint` returned null. -/
  | none
  /-- It returned a delivery. -/
  | claimed (claimed : ClaimedDelivery)
  /-- It threw. -/
  | threw
  deriving DecidableEq, Repr

/-- The next statement of a claim. -/
def claimStep (cfg : Config) (now : Time) (s : Store) (c : Claim) :
    ClaimStep → Store × ClaimResult
  | .touchTenant =>
      (touchTenant s now c.candidate.tenantId,
        .next (if c.candidate.busy then .closeOrphans else .fetchHead))
  | .closeOrphans =>
      match closeOrphans s c.candidate.id with
      | some s' => (s', .next .requeue)
      | none => (s, .threw)
  | .requeue => (requeueInFlight s c.candidate.id, .next .fetchHead)
  | .fetchHead => (s, .next (.checkHead (fetchHead s c.candidate.id)))
  | .checkHead none => (s, .next .release)
  | .checkHead (some head) =>
      (s, .next (if now < head.nextAttemptAt then .release else .insertAttempt head))
  | .release => (releaseLease s c.candidate.id c.leaseId, .none)
  | .insertAttempt head =>
      let attemptNumber := head.attemptCount + 1
      let (attemptId, s') := insertAttempt s now head.id attemptNumber
      (s', .next (.markInFlight head attemptNumber attemptId))
  | .markInFlight head attemptNumber attemptId =>
      (markInFlight s head.id attemptNumber, .next (.finish head attemptNumber attemptId))
  | .finish head attemptNumber attemptId =>
      match decryptSecrets cfg now head with
      | none => (s, .threw)
      | some (signingSecret, secondarySecret) =>
          (s, .claimed
            { endpointId := c.candidate.id
              tenantId := c.candidate.tenantId
              leaseId := c.leaseId
              deliveryId := head.id
              eventId := head.eventId
              eventType := head.eventType
              payload := head.payload
              attemptNumber := attemptNumber
              attemptId := attemptId
              url := head.url
              signingSecret := signingSecret
              secondarySecret := secondarySecret })

/-- The statements of a claim one after the other, from `step` on, with nothing in between. -/
def claimLoop (cfg : Config) (now : Time) (c : Claim) : Nat → Store → ClaimStep → Store × ClaimResult
  | 0, s, step => (s, .next step)
  | n + 1, s, step =>
      match claimStep cfg now s c step with
      | (s', .next step') => claimLoop cfg now c n s' step'
      | r => r

/-- `tryClaimEndpoint` run alone at one instant.  Its longest path sends eight statements after
the claiming `UPDATE`. -/
def tryClaimEndpoint (cfg : Config) (now : Time) (s : Store) (candidate : CandidateRow)
    (cutoff : Time) : Store × ClaimResult :=
  match claimEndpoint s now candidate.id cutoff with
  | (none, s') => (s', .none)
  | (some leaseId, s') =>
      claimLoop cfg now ⟨candidate, [], cutoff, leaseId, now⟩ 8 s' .touchTenant

/-- The loop over the candidates: until one yields a delivery, or throws. -/
def tryCandidates (cfg : Config) (now cutoff : Time) : Store → List CandidateRow → Store × ClaimResult
  | s, [] => (s, .none)
  | s, candidate :: rest =>
      match tryClaimEndpoint cfg now s candidate cutoff with
      | (s', .none) => tryCandidates cfg now cutoff s' rest
      | r => r

/-- `claimDelivery` run alone at one instant. -/
def claimDelivery (cfg : Config) (now : Time) (s : Store) (scan : List Endpoint) :
    Store × ClaimResult :=
  let cutoff := now - cfg.leaseDurationMs
  tryCandidates cfg now cutoff s (claimCandidates s now cutoff scan)

end Webhooks
