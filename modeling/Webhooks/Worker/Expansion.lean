import Mathlib.Data.List.Sort
import Webhooks.Config

/-!
# Worker — Expansion

`runExpansionCycle` (`expansion.ts`) and `runReplayExpansionCycle` (`replayExpansion.ts`).  Both
read a list of candidates, then try them in order, one transaction each: take the lock, insert
the deliveries, mark the source row `expanded`, commit.  What the transaction inserts is
invisible to everybody else until its commit.  The identifiers and sequence values it draws are
not given back when it aborts.
-/

namespace Webhooks

/-- `SELECT tenant_id … WHERE status = 'pending_expansion' GROUP BY tenant_id ORDER BY MIN(seq)
LIMIT 20`. -/
def expansionCandidates (s : Store) : List Uuid :=
  ((((s.events.filter fun e => e.status = .pendingExpansion).insertionSort
    fun a b => a.seq ≤ b.seq).map (·.tenantId)).eraseDups).take 20

/-- `SELECT id, type … WHERE tenant_id = $1 AND status = 'pending_expansion' ORDER BY seq
LIMIT 1`. -/
def selectEvent (s : Store) (tenantId : Uuid) : Option Event :=
  (s.events.filter fun e => e.tenantId = tenantId && e.status = .pendingExpansion).argmin (·.seq)

/-- The endpoint belongs to the tenant and is subscribed to the type. -/
def Endpoint.isSubscribed (tenantId : Uuid) (type : String) (e : Endpoint) : Bool :=
  e.tenantId = tenantId && e.eventTypes.contains type

/-- `SELECT id FROM replays WHERE status = 'pending_expansion' ORDER BY created_at LIMIT 20`. -/
def replayCandidates (s : Store) : List Uuid :=
  (((s.replays.filter fun r => r.status = .pendingExpansion).insertionSort
    fun a b => a.createdAt ≤ b.createdAt).map (·.id)).take 20

/-- The pending row with this id, as `SELECT … FOR UPDATE SKIP LOCKED` re-reads it. -/
def selectReplay (s : Store) (id : Uuid) : Option Replay :=
  s.replays.find? fun r => r.id = id && r.status = .pendingExpansion

/-- `range_start` and `range_end`, as they are stored. -/
def Replay.range (r : Replay) : Time × Time := (r.rangeStart, r.rangeEnd)

/-- `range_start` and `range_end`, as worker `w` reads them and sends them back. -/
def Config.readRange (cfg : Config) (w : WorkerId) (r : Replay) : Time × Time :=
  (cfg.instant (cfg.workers w) r.rangeStart, cfg.instant (cfg.workers w) r.rangeEnd)

/-- A resolved delivery of the replay's endpoint inside the range. -/
def Replay.covers (r : Replay) (range : Time × Time) (d : Delivery) : Bool :=
  d.endpointId = r.endpointId && range.1 ≤ d.createdAt && d.createdAt ≤ range.2 &&
    d.state.isTerminal

/-- The row an expansion is about; of a replay also its range, as the worker has read it. -/
inductive Expandable where
  | event (e : Event)
  | replay (r : Replay) (range : Time × Time)
  deriving DecidableEq, Repr

/-- The (`event_id`, `endpoint_id`) pairs of the `INSERT … SELECT`, in the order it draws their
sequence values. -/
def Expandable.fanOut (s : Store) : Expandable → List (Uuid × Uuid)
  | .event e =>
      (s.endpoints.filter (Endpoint.isSubscribed e.tenantId e.type)).map fun ep => (e.id, ep.id)
  | .replay r range =>
      ((s.deliveries.filter (r.covers range)).insertionSort fun a b => a.seq ≤ b.seq).map
        fun d => (d.eventId, r.endpointId)

/-- New delivery rows for the pairs, with consecutive identifiers and sequence values; the other
columns are their defaults.  `now()` is the instant the transaction began. -/
def newDeliveries (began : Time) : List (Uuid × Uuid) → Uuid → Nat → List Delivery
  | [], _, _ => []
  | (eventId, endpointId) :: pairs, id, seq =>
      { id := id
        eventId := eventId
        endpointId := endpointId
        state := .pending
        attemptCount := 0
        nextAttemptAt := began
        createdAt := began
        seq := seq } :: newDeliveries began pairs (id + 1) (seq + 1)

/-- `INSERT INTO deliveries (event_id, endpoint_id) SELECT …`: the uncommitted rows, and the
store with what they drew. -/
def insertDeliveries (s : Store) (began : Time) (src : Expandable) : List Delivery × Store :=
  let pairs := src.fanOut s
  (newDeliveries began pairs s.uuids s.deliveriesSeq,
    { s with
      uuids := s.uuids + pairs.length
      deliveriesSeq := s.deliveriesSeq + pairs.length })

/-- `UPDATE … SET status = 'expanded' WHERE id = $1`. -/
def markExpanded (s : Store) : Expandable → Store
  | .event e =>
      { s with
        events := Lib.Table.update (fun e' => e'.id = e.id) (fun e' => { e' with status := .expanded })
          s.events }
  | .replay r _ =>
      { s with
        replays := Lib.Table.update (fun r' => r'.id = r.id)
          (fun r' => { r' with status := .expanded }) s.replays }

/-- `COMMIT`: the inserted rows and the status change become visible together. -/
def commitExpansion (s : Store) (src : Expandable) (rows : List Delivery) : Store :=
  let s' := markExpanded s src
  { s' with deliveries := s'.deliveries ++ rows }

end Webhooks
