import Webhooks.Protocol.Order

/-!
# Properties — One in flight

At most one delivery of an endpoint is in flight, and it is the head of its queue, as long as no
claim marks a delivery after it has lost its lease.  Expansion transactions are atomic steps here.

* **`one_in_flight`**: in every state of every run with fenced `in_flight` updates.
* `two_in_flight`: a worker that sleeps past its lease between its last two statements wakes up
  and marks a delivery while another one of the endpoint is in flight.
-/

namespace Webhooks

open Lib

section

variable {cfg : Config} {s : Sys} {tenants : List Tenant}

/-- In every run in which a claim marks a delivery only while it holds its lease, no endpoint has
two deliveries in flight, and a delivery is marked only as the lowest pending one of its endpoint,
with nothing in flight there. -/
theorem one_in_flight
    (h : Reachable (restrict (Fenced ClaimStep.isMark) (atomicStep cfg)) (.init tenants) s) :
    (∀ endpointId,
      (s.store.deliveries.filter (Delivery.isInFlightOn endpointId)).length ≤ 1) ∧
    ∀ w c head n attemptId s', s.pcs w = .claiming c (.markInFlight head n attemptId) →
      restrict (Fenced ClaimStep.isMark) (atomicStep cfg) s (.step w) = some s' →
      ∃ h ∈ s.store.deliveries, h.id = head.id ∧ h.endpointId = c.candidate.id ∧
        h.state = .pending ∧
        ∀ d ∈ s.store.deliveries, d.endpointId = c.candidate.id →
          d.state ≠ .inFlight ∧ (d.state = .pending → h.seq ≤ d.seq) := by
  classical
  have hq : IgnoresExpansion (Fenced ClaimStep.isMark) := by
    intro s w hin
    simp only [Fenced]
    split
    · next hpc => rw [hpc] at hin; cases hin
    · trivial
  obtain ⟨hr, -⟩ := serial_of_atomic hq h
  have hk := keyInv_of_reachable hr.of_restrict
  have hx := exclInv_of_reachable (fun _ _ _ hl => hl.1) hr
  have hhead := headInv_of_reachable (fun _ _ _ hl => hl.1)
    (fun _ hr => ordered_of_serial (fun _ _ _ hl => hl.2) hr) hr
  refine ⟨length_inFlight_le_one hk.tables.deliveryIds hx.one, fun w c head n attemptId s' hpc hs => ?_⟩
  obtain ⟨hf, -⟩ := restrict_eq_some.mp hs
  have hh := hf.holds hpc rfl
  have hxw := hx.worker w
  rw [hpc] at hxw
  obtain ⟨hnone, h, hh', hid, he, hst⟩ := hxw hh
  refine ⟨h, hh', hid, he, hst, fun d hd hde => ⟨hnone d hd hde, fun hp => ?_⟩⟩
  exact hhead w c _ head hpc rfl hh h hh' hid d hd hde (by rw [hp]; rfl)

end

/-! ### Two events for one endpoint -/

open Sample

/-- The endpoint is registered, and two events are published and expanded. -/
def twoDeliveries : List Label :=
  register :: publish 0 "k" ++ publish 1 "l" ++ expandAtomically ++ expandAtomically

/-- The worker is about to mark a delivery `in_flight`. -/
def isMarking : Pc → Bool
  | .claiming _ (.markInFlight ..) => true
  | _ => false

theorem one_in_flight_sample : ∃ s s' c head n attemptId,
    Reachable (restrict (Fenced ClaimStep.isMark) (atomicStep config)) start s ∧
    s.pcs 1 = .claiming c (.markInFlight head n attemptId) ∧
    restrict (Fenced ClaimStep.isMark) (atomicStep config) s (.step 1) = some s' ∧
    (s.store.deliveries.filter (Delivery.isInFlightOn 0)).length ≤ 1 ∧
    ∃ h ∈ s.store.deliveries, h.id = head.id ∧ h.endpointId = c.candidate.id ∧ h.state = .pending ∧
      ∀ d ∈ s.store.deliveries, d.endpointId = c.candidate.id →
        d.state ≠ .inFlight ∧ (d.state = .pending → h.seq ≤ d.seq) := by
  obtain ⟨s, s', hs, hs', hp⟩ := exists_of_runs
    (restrict (Fenced ClaimStep.isMark) (atomicStep config)) start (twoDeliveries ++ claim 1 none 5)
    [.step 1] (fun s _ => isMarking (s.pcs 1)) (by decide)
  rw [run_singleton] at hs'
  unfold isMarking at hp
  split at hp
  · next c head n attemptId hpc =>
      obtain ⟨hone, hmark⟩ := one_in_flight (.of_run hs)
      exact ⟨s, s', c, head, n, attemptId, .of_run hs, hpc, hs', hone 0,
        hmark 1 c head n attemptId s' hpc hs'⟩
  · cases hp

/-- Worker 1 sleeps before its `in_flight` update and past its lease.  Worker 2 takes the endpoint
over and delivers the head; worker 3 has the next delivery in flight when worker 1 wakes up. -/
def sleepBeforeMark : List Label :=
  twoDeliveries ++ claim 1 none 5 ++ [.tick 11] ++ claim 2 (some (0, 5)) 9 ++ deliver 2 200 ++
    claim 3 none 6 ++ [.step 1]

/-- Two deliveries of one endpoint are in flight at once. -/
theorem two_in_flight : ∃ s, Reachable (atomicStep config) start s ∧
    ∃ d ∈ s.store.deliveries, ∃ d' ∈ s.store.deliveries, d.id ≠ d'.id ∧
      d.endpointId = d'.endpointId ∧ d.state = .inFlight ∧ d'.state = .inFlight := by
  obtain ⟨s, hs, hp⟩ := exists_of_run (atomicStep config) start sleepBeforeMark
    (fun s => decide (∃ d ∈ s.store.deliveries, ∃ d' ∈ s.store.deliveries, d.id ≠ d'.id ∧
      d.endpointId = d'.endpointId ∧ d.state = .inFlight ∧ d'.state = .inFlight)) (by decide)
  exact ⟨s, .of_run hs, of_decide_eq_true hp⟩

end Webhooks
