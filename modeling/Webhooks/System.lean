import Webhooks.Lib.Run
import Webhooks.Worker.Complete
import Webhooks.Worker.Expansion
import Webhooks.Api.Routes

/-!
# System

The database, its clock, any number of workers and any number of API calls, as one transition
system.  A label says who moves; `step` says what the move does.

* A worker runs one cycle of `worker.ts` at a time: an expansion, a replay expansion, or a
  delivery cycle.  `Label.step w` is the next statement of worker `w`.  A worker that is never
  picked again is stalled, for as long as it is not picked; `Label.die w` kills it, which ends
  its open transaction and leaves everything it has committed.
* `completeDelivery`'s transaction is one step (`Label.complete`).  The expansion transactions
  are taken statement by statement in `step`, and as one step each in `atomicStep`.
* `Label.publish c` is the next statement of publish call `c`, `Label.replay c` that of replay
  call `c`; an `INSERT` of theirs and its commit are two steps.

A cycle that throws is caught by the worker's loop, which goes on with the next one: the worker
is idle again and what it left behind stays.
-/

namespace Webhooks

/-! ### Where a worker stands -/

inductive Pc where
  | idle
  | dead
  /-- `claimDelivery` has computed its `cutoff`; next is the candidate query. -/
  | listing (cutoff : Time)
  /-- The loop over the candidates; next is the claiming `UPDATE` of the first one. -/
  | trying (cutoff : Time) (candidates : List CandidateRow)
  | claiming (c : Claim) (next : ClaimStep)
  /-- `claimDelivery` has returned a delivery; its request is not sent yet. -/
  | holding (claimed : ClaimedDelivery)
  /-- The request has been issued. -/
  | sent (claimed : ClaimedDelivery)
  /-- `runExpansionCycle`'s loop; next is `BEGIN` and the advisory lock of the first tenant. -/
  | expanding (tenants : List Uuid)
  /-- The lock is held; next is the `SELECT` of the tenant's oldest event. -/
  | selecting (began : Time) (tenantId : Uuid) (tenants : List Uuid)
  /-- `runReplayExpansionCycle`'s loop; next is `BEGIN` and the row lock of the first replay. -/
  | replaying (replays : List Uuid)
  /-- An open expansion transaction; next is its `INSERT`. -/
  | inserting (began : Time) (src : Expandable)
  /-- Its rows are inserted; next is the `UPDATE` of the status. -/
  | marking (src : Expandable) (rows : List Delivery)
  /-- Next is its `COMMIT`. -/
  | committing (src : Expandable) (rows : List Delivery)
  deriving DecidableEq, Repr

/-- Inside an expansion transaction, between its first statement and its end. -/
def Pc.inTransaction : Pc → Bool
  | .selecting .. | .inserting .. | .marking .. | .committing .. => true
  | _ => false

/-- Where a `POST /events` request stands. -/
inductive PublishCall where
  | idle
  | arrived (r : PublishRequest)
  /-- The `INSERT` has run, its row is not committed yet. -/
  | inserting (row : Event)
  /-- The `INSERT` returned no row; next is the `SELECT` of the existing one. -/
  | conflicted (r : PublishRequest)
  | answering (id : Uuid) (status : ExpansionStatus)
  /-- `202` has been sent. -/
  | acked (id : Uuid) (status : ExpansionStatus)
  /-- `400`. -/
  | rejected
  | failed
  deriving DecidableEq, Repr

/-- Where a `POST /endpoints/:id/replays` request stands. -/
inductive ReplayCall where
  | idle
  /-- Next is the `SELECT` of the endpoint. -/
  | arrived (r : ReplayRequest)
  /-- The endpoint is the tenant's; next is the `INSERT`. -/
  | found (r : ReplayRequest)
  /-- The `INSERT` has run, its row is not committed yet. -/
  | inserting (row : Replay)
  /-- The `INSERT` returned no row; next is the `SELECT` of the existing one. -/
  | conflicted (r : ReplayRequest)
  | answering (id : Uuid) (status : ExpansionStatus)
  /-- `202` has been sent. -/
  | acked (id : Uuid) (status : ExpansionStatus)
  /-- `400`. -/
  | rejected
  /-- `404`. -/
  | notFound
  | failed
  deriving DecidableEq, Repr

structure Sys where
  store : Store
  now : Time
  pcs : WorkerId → Pc
  calls : CallId → PublishCall
  replayCalls : CallId → ReplayCall
  /-- Event rows inserted and not committed. -/
  uncommitted : List Event
  /-- Replay rows inserted and not committed. -/
  uncommittedReplays : List Replay
  /-- Advisory locks held, by key, with the worker whose transaction holds them. -/
  advisoryLocks : List (Int × WorkerId)
  /-- Row locks on `replays`, by row, with the worker whose transaction holds them. -/
  rowLocks : List (Uuid × WorkerId)

namespace Sys

def init (tenants : List Tenant) : Sys where
  store := .init tenants
  now := 0
  pcs := fun _ => .idle
  calls := fun _ => .idle
  replayCalls := fun _ => .idle
  uncommitted := []
  uncommittedReplays := []
  advisoryLocks := []
  rowLocks := []

def setPc (s : Sys) (w : WorkerId) (pc : Pc) : Sys :=
  { s with pcs := fun w' => if w' = w then pc else s.pcs w' }

def setCall (s : Sys) (c : CallId) (call : PublishCall) : Sys :=
  { s with calls := fun c' => if c' = c then call else s.calls c' }

def setReplayCall (s : Sys) (c : CallId) (call : ReplayCall) : Sys :=
  { s with replayCalls := fun c' => if c' = c then call else s.replayCalls c' }

def withStore (s : Sys) (st : Store) : Sys := { s with store := st }

/-- The end of a worker's transaction releases its locks. -/
def unlock (s : Sys) (w : WorkerId) : Sys :=
  { s with
    advisoryLocks := s.advisoryLocks.filter fun l => l.2 ≠ w
    rowLocks := s.rowLocks.filter fun l => l.2 ≠ w }

end Sys

/-! ### Steps -/

inductive Job where
  | claim | expansion | replay
  deriving DecidableEq, Repr

inductive Label where
  | tick (ms : Nat)
  | register (tenantId : Uuid) (url : String) (eventTypes : List String) (signingSecret : String)
  | pause (id tenantId : Uuid)
  | resume (id tenantId : Uuid)
  /-- `POST /endpoints/:id/secret/rotate`, with the new secret as it is stored. -/
  | rotate (id tenantId : Uuid) (signingSecret : String)
  | request (c : CallId) (r : PublishRequest)
  | publish (c : CallId)
  /-- The API process of call `c` dies. -/
  | abort (c : CallId)
  | requestReplay (c : CallId) (r : ReplayRequest)
  | replay (c : CallId)
  /-- The API process of replay call `c` dies. -/
  | abortReplay (c : CallId)
  | start (w : WorkerId) (job : Job)
  /-- The candidate query, with the order in which it meets the endpoints. -/
  | query (w : WorkerId) (scan : List Endpoint)
  | step (w : WorkerId)
  | send (w : WorkerId)
  | complete (w : WorkerId) (result : AttemptOutcome) (random : Jitter)
      (fault : Option CompleteStatement)
  | die (w : WorkerId)

/-- Where a claim's statement leaves its worker. -/
def Pc.afterClaim (c : Claim) : ClaimResult → Pc
  | .next step => .claiming c step
  | .none => .trying c.cutoff c.rest
  | .claimed claimed => .holding claimed
  | .threw => .idle

/-- The next statement of a worker. -/
def workerStep (cfg : Config) (s : Sys) (w : WorkerId) : Option Sys :=
  match s.pcs w with
  | .idle | .dead | .listing _ | .holding _ | .sent _ => none
  | .trying _ [] => some (s.setPc w .idle)
  | .trying cutoff (c :: rest) =>
      match claimEndpoint s.store s.now c.id cutoff with
      | (none, st) => some ((s.withStore st).setPc w (.trying cutoff rest))
      | (some leaseId, st) =>
          some ((s.withStore st).setPc w
            (.claiming ⟨c, rest, cutoff, leaseId, s.now⟩ .touchTenant))
  | .claiming c next =>
      let (st, r) := claimStep cfg s.now s.store c next
      some ((s.withStore st).setPc w (.afterClaim c r))
  | .expanding [] => some (s.setPc w .idle)
  | .expanding (t :: ts) =>
      if s.advisoryLocks.any fun l => l.1 = cfg.hashtext t then
        some (s.setPc w (.expanding ts))
      else
        some ({ s with advisoryLocks := (cfg.hashtext t, w) :: s.advisoryLocks }.setPc w
          (.selecting s.now t ts))
  | .selecting began t ts =>
      match selectEvent s.store t with
      | none => some ((s.unlock w).setPc w (.expanding ts))
      | some e => some (s.setPc w (.inserting began (.event e)))
  | .replaying [] => some (s.setPc w .idle)
  | .replaying (r :: rs) =>
      match selectReplay s.store r with
      | none => some (s.setPc w (.replaying rs))
      | some row =>
          if s.rowLocks.any fun l => l.1 = r then some (s.setPc w (.replaying rs))
          else
            some ({ s with rowLocks := (r, w) :: s.rowLocks }.setPc w
              (.inserting s.now (.replay row (cfg.readRange w row))))
  | .inserting began src =>
      let (rows, st) := insertDeliveries s.store began src
      some ((s.withStore st).setPc w (.marking src rows))
  | .marking src rows => some (s.setPc w (.committing src rows))
  | .committing src rows =>
      some (((s.withStore (commitExpansion s.store src rows)).unlock w).setPc w .idle)

/-- The next statement of a publish call. -/
def publishStep (s : Sys) (c : CallId) : Option Sys :=
  match s.calls c with
  | .idle | .acked .. | .rejected | .failed => none
  | .arrived r =>
      -- an uncommitted row with the same key makes the INSERT wait
      if s.uncommitted.any r.conflicts then none
      else
        let st := { s.store with uuids := s.store.uuids + 1, eventsSeq := s.store.eventsSeq + 1 }
        if s.store.events.any r.conflicts then
          some ((s.withStore st).setCall c (.conflicted r))
        else
          let row := r.newEvent s.now s.store.uuids s.store.eventsSeq
          some ({ s with store := st, uncommitted := row :: s.uncommitted }.setCall c
            (.inserting row))
  | .inserting row =>
      some ({ s with
        store := { s.store with events := s.store.events ++ [row] }
        uncommitted := s.uncommitted.filter fun e => e.id ≠ row.id }.setCall c
          (.answering row.id row.status))
  | .conflicted r =>
      match s.store.events.find? r.conflicts with
      | none => some (s.setCall c .failed)
      | some e => some (s.setCall c (.answering e.id e.status))
  | .answering id status => some (s.setCall c (.acked id status))

/-- The next statement of a replay call. -/
def replayStep (s : Sys) (c : CallId) : Option Sys :=
  match s.replayCalls c with
  | .idle | .acked .. | .rejected | .notFound | .failed => none
  | .arrived r =>
      if hasEndpoint s.store r.endpointId r.tenantId then some (s.setReplayCall c (.found r))
      else some (s.setReplayCall c .notFound)
  | .found r =>
      -- an uncommitted row with the same key makes the INSERT wait
      if s.uncommittedReplays.any r.conflicts then none
      else
        let st := { s.store with uuids := s.store.uuids + 1 }
        if s.store.replays.any r.conflicts then
          some ((s.withStore st).setReplayCall c (.conflicted r))
        else
          let row := r.newReplay s.now s.store.uuids
          some ({ s with store := st, uncommittedReplays := row :: s.uncommittedReplays }.setReplayCall c
            (.inserting row))
  | .inserting row =>
      some ({ s with
        store := { s.store with replays := s.store.replays ++ [row] }
        uncommittedReplays := s.uncommittedReplays.filter fun r => r.id ≠ row.id }.setReplayCall c
          (.answering row.id row.status))
  | .conflicted r =>
      match s.store.replays.find? r.conflicts with
      | none => some (s.setReplayCall c .failed)
      | some row => some (s.setReplayCall c (.answering row.id row.status))
  | .answering id status => some (s.setReplayCall c (.acked id status))

/-- What a step does, or `none` when it is not enabled. -/
def step (cfg : Config) (s : Sys) : Label → Option Sys
  | .tick ms => some { s with now := s.now + ms }
  | .register tenantId url eventTypes signingSecret =>
      some (s.withStore (registerEndpoint s.store s.now tenantId url eventTypes signingSecret))
  | .pause id tenantId => some (s.withStore (setEndpointStatus s.store id tenantId .paused))
  | .resume id tenantId => some (s.withStore (setEndpointStatus s.store id tenantId .active))
  | .rotate id tenantId signingSecret =>
      some (s.withStore (rotateSecret s.store id tenantId signingSecret (s.now + cfg.overlapMs)))
  | .request c r =>
      if s.calls c = .idle then
        some (s.setCall c
          (if r.type = "" || r.idempotencyKey = "" then .rejected else .arrived r))
      else none
  | .publish c => publishStep s c
  | .abort c =>
      match s.calls c with
      | .inserting row =>
          some ({ s with uncommitted := s.uncommitted.filter fun e => e.id ≠ row.id }.setCall c
            .failed)
      | _ => some (s.setCall c .failed)
  | .requestReplay c r =>
      if s.replayCalls c = .idle then
        some (s.setReplayCall c (if r.isValid (cfg.instant (cfg.replayCalls c)) then .arrived r else .rejected))
      else none
  | .replay c => replayStep s c
  | .abortReplay c =>
      match s.replayCalls c with
      | .inserting row =>
          some ({ s with
            uncommittedReplays := s.uncommittedReplays.filter fun r => r.id ≠ row.id }.setReplayCall c
              .failed)
      | _ => some (s.setReplayCall c .failed)
  | .start w job =>
      if s.pcs w = .idle then
        some (s.setPc w
          (match job with
          | .claim => .listing (s.now - cfg.leaseDurationMs)
          | .expansion => .expanding (expansionCandidates s.store)
          | .replay => .replaying (replayCandidates s.store)))
      else none
  | .query w scan =>
      match s.pcs w with
      | .listing cutoff =>
          if scan.isPerm s.store.endpoints then
            some (s.setPc w (.trying cutoff (claimCandidates s.store s.now cutoff scan)))
          else none
      | _ => none
  | .step w => workerStep cfg s w
  | .send w =>
      match s.pcs w with
      | .holding claimed => some (s.setPc w (.sent claimed))
      | _ => none
  | .complete w result random fault =>
      match s.pcs w with
      | .holding claimed =>
          -- no request is issued when the address is not allowed
          if result.errorClass = some .urlNotAllowed then
            some ((s.withStore
              (completeDelivery cfg s.now s.store claimed result random fault).2).setPc w .idle)
          else none
      | .sent claimed =>
          some ((s.withStore
            (completeDelivery cfg s.now s.store claimed result random fault).2).setPc w .idle)
      | _ => none
  | .die w => some ((s.unlock w).setPc w .dead)

/-! ### Expansion transactions as one step -/

/-- Go on with the worker's transaction until it has ended. -/
def finishTransaction (cfg : Config) (w : WorkerId) : Nat → Sys → Option Sys
  | 0, s => some s
  | n + 1, s =>
      if (s.pcs w).inTransaction then
        (workerStep cfg s w).bind fun s' => finishTransaction cfg w n s'
      else some s

/-- As `step`, with each expansion transaction as one step.  A transaction sends at most four
more statements after the one that takes its lock. -/
def atomicStep (cfg : Config) (s : Sys) : Label → Option Sys
  | .step w => (workerStep cfg s w).bind fun s' => finishTransaction cfg w 4 s'
  | l => step cfg s l

/-! ### A small system -/

namespace Sample

/-- Leases of 10 ms, three attempts, and rotation overlaps of 100 ms. -/
def config : Config where
  leaseDurationMs := 10
  backoff := ⟨1, 2, 4, 3⟩
  overlapMs := 100
  hashtext := fun n => n
  decryptSecret := some
  ticksPerMs := 1
  workers := fun _ => .node
  replayCalls := fun _ => .node

/-- The same with a ceiling of one attempt. -/
def once : Config := { config with backoff := ⟨1, 2, 4, 1⟩ }

/-- One tenant. -/
def start : Sys := .init [⟨100, none⟩]

/-- The tenant's endpoint, as a query meets it. -/
def endpoint (lease : Option (Time × Uuid)) : Endpoint where
  id := 0
  tenantId := 100
  url := "u"
  eventTypes := ["a"]
  status := .active
  signingSecret := "s"
  secondarySecret := none
  secondarySecretExpiresAt := none
  busy := lease.isSome
  busySince := lease.map Prod.fst
  leaseId := lease.map Prod.snd
  createdAt := 0

/-- Registration of the endpoint, identifier 0. -/
def register : Label := .register 100 "u" ["a"] "s"

/-- A publish call of the tenant, up to the commit of its row. -/
def publish (c : CallId) (key : String) : List Label :=
  [.request c ⟨100, key, "a", "\x7b\x7d"⟩, .publish c, .publish c]

/-- Worker 0 expands the tenant's oldest event, statement by statement. -/
def expand : List Label := .start 0 .expansion :: List.replicate 5 (.step 0)

/-- The same with its transaction as one step. -/
def expandAtomically : List Label := [.start 0 .expansion, .step 0]

/-- Worker `w` starts a claim, queries, and takes `n` statements from its claiming `UPDATE` on. -/
def claim (w : WorkerId) (lease : Option (Time × Uuid)) (n : Nat) : List Label :=
  [.start w .claim, .query w [endpoint lease]] ++ List.replicate n (.step w)

/-- What worker 1 holds after the first claim of the endpoint's first delivery. -/
def claimed : ClaimedDelivery where
  endpointId := 0
  tenantId := 100
  leaseId := 3
  deliveryId := 2
  eventId := 1
  eventType := "a"
  payload := "\x7b\x7d"
  attemptNumber := 1
  attemptId := 4
  url := "u"
  signingSecret := "s"
  secondarySecret := none

/-- A response with this status and no body. -/
def response (status : Nat) : AttemptOutcome := .answered status [] 5

/-- Worker `w` sends its request and writes the response back. -/
def deliver (w : WorkerId) (status : Nat) : List Label :=
  [.send w, .complete w (response status) ⟨0, 1, Nat.one_pos⟩ none]

end Sample

end Webhooks
