import Webhooks.Worker.Complete
import Webhooks.Worker.Expansion

/-!
# Worker — Loop

One pass of `loop` (`worker.ts`) and of `pollLoop` (`cmd/worker/main.go`), run alone: an expansion, a
replay expansion and a delivery cycle, one after the other, with no other worker in between.

* `runExpansionCycle`, `runReplayExpansionCycle`, `runDeliveryCycle`: what each does to the store, and
  whether it did any work.
* `pass`: the three of them.  A cycle that throws is logged and counts as no work.
-/

namespace Webhooks

/-- A transaction of an expansion, which nobody else disturbs. -/
def expandSource (s : Store) (now : Time) (src : Expandable) : Store :=
  let (rows, s') := insertDeliveries s now src
  commitExpansion s' src rows

/-- The loop over the tenants: until one has an event to expand. -/
def tryTenants (now : Time) (s : Store) : List Uuid → Store × Bool
  | [] => (s, false)
  | tenantId :: rest =>
      match selectEvent s tenantId with
      | none => tryTenants now s rest
      | some e => (expandSource s now (.event e), true)

def runExpansionCycle (now : Time) (s : Store) : Store × Bool :=
  tryTenants now s (expansionCandidates s)

/-- The loop over the replays: until one is still pending. -/
def tryReplays (cfg : Config) (w : WorkerId) (now : Time) (s : Store) : List Uuid → Store × Bool
  | [] => (s, false)
  | replayId :: rest =>
      match selectReplay s replayId with
      | none => tryReplays cfg w now s rest
      | some r => (expandSource s now (.replay r (cfg.readRange w r)), true)

def runReplayExpansionCycle (cfg : Config) (w : WorkerId) (now : Time) (s : Store) : Store × Bool :=
  tryReplays cfg w now s (replayCandidates s)

/-- What the surroundings decide in a pass: when it begins and when its delivery is written back, the order
in which the candidate query meets the endpoints, the outcome of a delivery and the draw of its backoff. -/
structure Poll where
  now : Time
  doneAt : Time
  scan : List Endpoint → List Endpoint
  result : ClaimedDelivery → AttemptOutcome
  random : Jitter

def runDeliveryCycle (cfg : Config) (p : Poll) (s : Store) : Store × Bool :=
  match claimDelivery cfg p.now s (p.scan s.endpoints) with
  | (s', .claimed claimed) =>
      let (outcome, s'') := completeDelivery cfg p.doneAt s' claimed (p.result claimed) p.random none
      (s'', outcome.isSome)
  | (s', _) => (s', false)

/-- One pass of worker `w`: the store afterwards, and `didWork`. -/
def pass (cfg : Config) (w : WorkerId) (p : Poll) (s : Store) : Store × Bool :=
  let (s₁, expanded) := runExpansionCycle p.now s
  let (s₂, replayed) := runReplayExpansionCycle cfg w p.now s₁
  let (s₃, delivered) := runDeliveryCycle cfg p s₂
  (s₃, expanded || replayed || delivered)

theorem pass_store (cfg : Config) (w : WorkerId) (p : Poll) (s : Store) :
    (pass cfg w p s).1 = (runDeliveryCycle cfg p
      (runReplayExpansionCycle cfg w p.now (runExpansionCycle p.now s).1).1).1 := rfl

end Webhooks
