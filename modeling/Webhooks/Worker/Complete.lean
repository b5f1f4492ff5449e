import Webhooks.Worker.Claim

/-!
# Worker — Complete

`completeDelivery`: the fenced write-back.  One transaction reads the endpoint's `lease_id` and,
when it is still the claim's, closes the attempt, moves the delivery, halts the endpoint at the
ceiling and releases the lease.  A statement that raises rolls the transaction back.
-/

namespace Webhooks

/-- `AttemptOutcome`.  `errorClass` is null whenever a response was received, and set when none
was; `runDeliveryCycle` never reports a lease expiry itself. -/
structure AttemptOutcome where
  responseStatus : Option Nat
  responseBodyTruncated : Bytes
  durationMs : Nat
  errorClass : Option AttemptErrorClass
  settled : responseStatus.isNone = errorClass.isSome
  notExpired : errorClass ≠ some .workerLeaseExpired
  deriving DecidableEq, Repr

/-- A response arrived, with this body.  The text of a parameter is sent as UTF-8. -/
def AttemptOutcome.answered (status : Nat) (body : Bytes) (durationMs : Nat) : AttemptOutcome where
  responseStatus := some status
  responseBodyTruncated := body
  durationMs := durationMs
  errorClass := none
  settled := rfl
  notExpired := nofun

/-- `2xx` is success. -/
def AttemptOutcome.isSuccess (r : AttemptOutcome) : Bool :=
  r.responseStatus.any fun n => 200 ≤ n && n < 300

/-- What `completeDelivery` returns. -/
inductive CompleteDeliveryOutcome where
  | succeeded | retrying | halted | leaseLost
  deriving DecidableEq, Repr

/-- The statements of the transaction. -/
inductive CompleteStatement where
  | readLease | closeAttempt | resolveDelivery | haltEndpoint | releaseEndpoint | commit
  deriving DecidableEq, Repr

/-- `UPDATE attempts SET response_status = $2, … WHERE id = $1`. -/
def closeAttempt (s : Store) (attemptId : Uuid) (r : AttemptOutcome) : Store :=
  { s with
    attempts := Lib.Table.update (fun a => a.id = attemptId)
      (fun a => { a with
        responseStatus := r.responseStatus
        responseBodyTruncated := some r.responseBodyTruncated
        durationMs := some r.durationMs
        errorClass := r.errorClass }) s.attempts }

/-- `UPDATE deliveries SET state = … WHERE id = $1`. -/
def setDeliveryState (s : Store) (id : Uuid) (state : DeliveryState) : Store :=
  { s with
    deliveries := Lib.Table.update (fun d => d.id = id) (fun d => { d with state := state })
      s.deliveries }

/-- `UPDATE deliveries SET state = 'pending', next_attempt_at = now() + delay WHERE id = $1`. -/
def scheduleRetry (s : Store) (id : Uuid) (nextAttemptAt : Time) : Store :=
  { s with
    deliveries := Lib.Table.update (fun d => d.id = id)
      (fun d => { d with state := .pending, nextAttemptAt := nextAttemptAt }) s.deliveries }

/-- `UPDATE endpoints SET status = 'halted' WHERE id = $1`. -/
def haltEndpoint (s : Store) (id : Uuid) : Store :=
  { s with
    endpoints := Lib.Table.update (fun e => e.id = id) (fun e => { e with status := .halted })
      s.endpoints }

/-- `UPDATE endpoints SET busy = false, … WHERE id = $1`. -/
def releaseEndpoint (s : Store) (id : Uuid) : Store :=
  { s with
    endpoints := Lib.Table.update (fun e => e.id = id) Endpoint.released s.endpoints }

/-- The transaction's statements after the fence, on its own view of the store.  `fault` is a
statement the database refuses; a body it does not accept as `TEXT` is refused as well. -/
def completeStatements (cfg : Config) (now : Time) (s : Store) (claimed : ClaimedDelivery)
    (result : AttemptOutcome) (random : Jitter) (fault : Option CompleteStatement) :
    Option (CompleteDeliveryOutcome × Store) :=
  let send (stmt : CompleteStatement) (s : Store) : Option Store :=
    if fault = some stmt then none else some s
  if !acceptsText result.responseBodyTruncated then none else
  (send .closeAttempt (closeAttempt s claimed.attemptId result)).bind fun s =>
  (if result.isSuccess then
      (send .resolveDelivery (setDeliveryState s claimed.deliveryId .succeeded)).map fun s =>
        (CompleteDeliveryOutcome.succeeded, s)
    else if cfg.backoff.maxAttempts ≤ claimed.attemptNumber then
      (send .resolveDelivery (setDeliveryState s claimed.deliveryId .failed)).bind fun s =>
        (send .haltEndpoint (haltEndpoint s claimed.endpointId)).map fun s =>
          (CompleteDeliveryOutcome.halted, s)
    else
      let delayMs := computeBackoffDelayMs claimed.attemptNumber cfg.backoff random
      (send .resolveDelivery (scheduleRetry s claimed.deliveryId (now + delayMs))).map fun s =>
        (CompleteDeliveryOutcome.retrying, s)).bind fun (outcome, s) =>
  (send .releaseEndpoint (releaseEndpoint s claimed.endpointId)).bind fun s =>
  (send .commit s).map fun s => (outcome, s)

/-- `SELECT lease_id FROM endpoints WHERE id = $1`. -/
def currentLease (s : Store) (endpointId : Uuid) : Option Uuid :=
  (s.endpoints.find? fun e => e.id = endpointId).bind (·.leaseId)

/-- `completeDelivery`: what it returns, `none` when it throws, and the store afterwards. -/
def completeDelivery (cfg : Config) (now : Time) (s : Store) (claimed : ClaimedDelivery)
    (result : AttemptOutcome) (random : Jitter) (fault : Option CompleteStatement) :
    Option CompleteDeliveryOutcome × Store :=
  if fault = some .readLease then (none, s)
  else if currentLease s claimed.endpointId ≠ some claimed.leaseId then (some .leaseLost, s)
  else
    match completeStatements cfg now s claimed result random fault with
    | none => (none, s)
    | some (outcome, s') => (some outcome, s')

end Webhooks
