import Webhooks.Protocol.Keys
import Webhooks.Worker.Outbound

/-!
# Properties — Recording

Which responses the write-back can record while it holds its lease.

* `Recorded`: the attempt is closed with the outcome, and the delivery is no longer in flight.
* **`response_recorded`**: the Node worker records a response exactly when no byte of the captured
  body is NUL, the Go worker exactly when the captured bytes are UTF-8 without NUL.
* `body_not_recorded`: a body of one byte that cannot be recorded, for each of them.
-/

namespace Webhooks

open Lib

/-- The write-back commits: it closes the attempt with the outcome, and the delivery leaves
`in_flight`. -/
def Recorded (cfg : Config) (now : Time) (st : Store) (claimed : ClaimedDelivery)
    (result : AttemptOutcome) (random : Jitter) : Prop :=
  ∃ outcome st', completeDelivery cfg now st claimed result random none = (some outcome, st') ∧
    outcome ≠ .leaseLost ∧
    (∃ a ∈ st'.attempts, a.id = claimed.attemptId ∧ a.responseStatus = result.responseStatus ∧
      a.responseBodyTruncated = some result.responseBodyTruncated ∧
      a.durationMs = some result.durationMs ∧ a.errorClass = result.errorClass) ∧
    ∃ d ∈ st'.deliveries, d.id = claimed.deliveryId ∧
      (d.state = .succeeded ∨ d.state = .pending ∨ d.state = .failed)

section

variable {cfg : Config} {s : Sys} {w : WorkerId} {claimed : ClaimedDelivery} {result : AttemptOutcome}
  {random : Jitter} {tenants : List Tenant} {status cap : Nat}

theorem Delivery.resolve_state (o : CompleteDeliveryOutcome) (retryAt : Time) (d : Delivery) :
    (d.resolve o retryAt).state = .succeeded ∨ (d.resolve o retryAt).state = .pending ∨
      (d.resolve o retryAt).state = .failed := by
  cases o with
  | succeeded => exact .inl rfl
  | halted => exact .inr (.inr rfl)
  | retrying | leaseLost => exact .inr (.inl rfl)

/-- A worker that holds its lease records an outcome exactly when its body is accepted as text. -/
theorem recorded_iff (h : Reachable (step cfg) (.init tenants) s)
    (hpc : s.pcs w = .holding claimed ∨ s.pcs w = .sent claimed)
    (held : Holds s.store claimed.endpointId claimed.leaseId) :
    Recorded cfg s.now s.store claimed result random ↔
      acceptsText result.responseBodyTruncated = true := by
  have hl := leaseInv_of_reachable h
  obtain ⟨hon, hattempt⟩ := ((keyInv_of_reachable h).worker w).complete hpc
  have hlease := currentLease_of_holds hl.ids held
  constructor
  · rintro ⟨outcome, st', hc, hlost, -⟩
    rcases completeDelivery_cases cfg s.now s.store claimed result random none with
      hnone | ⟨-, hll⟩ | ⟨-, ha, -⟩
    · rw [hnone] at hc
      cases hc
    · rw [hll] at hc
      cases hc
      exact absurd rfl hlost
    · exact ha
  · intro ha
    obtain ⟨d, hd, hdid, -⟩ := hon
    obtain ⟨a, hamem, haid, -⟩ := hattempt
    refine ⟨_, _, completeDelivery_commits hlease ha, ?_, ?_, ?_⟩
    · simp only [resolution]
      split
      · nofun
      · split <;> nofun
    · exact ⟨a.close result, Table.mem_update_of_pos hamem (by simpa using haid), haid, rfl, rfl, rfl, rfl⟩
    · exact ⟨d.resolve _ _, Table.mem_update_of_pos hd (by simpa using hdid),
        (Delivery.resolve_identity ..).1.trans hdid, d.resolve_state _ _⟩

/-- For every status, body and cap, a worker that holds its lease records the outcome of the
response exactly when Postgres accepts what was captured of the body: in Node, whatever the chunks,
when the captured bytes have no NUL; in Go when they are valid UTF-8 without NUL, or the total
timeout has discarded them. -/
theorem response_recorded (h : Reachable (step cfg) (.init tenants) s) (hpc : s.pcs w = .sent claimed)
    (held : Holds s.store claimed.endpointId claimed.leaseId) (random : Jitter) (status cap : Nat) :
    (∀ respondedAt endedAt chunks, ∃ result,
      Node.sendOutboundRequest cap ((respondedAt, .response status) :: Node.bodyEvents endedAt chunks) =
        .settled result ∧ result.responseStatus = some status ∧
      (Recorded cfg s.now s.store claimed result random ↔ 0 ∉ (Node.bodyOf chunks).take cap)) ∧
    ∀ durationMs body bodyEnd,
      Recorded cfg s.now s.store claimed
        (Go.sendOutboundRequest cap durationMs (.ok (status, body, bodyEnd))) random ↔
      body.length < cap ∧ bodyEnd = .deadlineExceeded ∨
        (body.take cap).toByteArray.IsValidUTF8 ∧ 0 ∉ body.take cap := by
  constructor
  · intro respondedAt endedAt chunks
    obtain ⟨durationMs, hsettled⟩ :=
      @Node.sendOutboundRequest_response cap status respondedAt endedAt chunks
    exact ⟨_, hsettled, rfl, (recorded_iff h (.inr hpc) held).trans acceptsText_bodyText⟩
  · intro durationMs body bodyEnd
    rw [recorded_iff h (.inr hpc) held]
    by_cases hdeadline : body.length < cap ∧ bodyEnd = .deadlineExceeded
    · simp [Go.sendOutboundRequest, Go.readAll, hdeadline, AttemptOutcome.unanswered, acceptsText]
    · rw [or_iff_right hdeadline, ← acceptsText_iff]
      simp [Go.sendOutboundRequest, Go.readAll, hdeadline, AttemptOutcome.answered]

end

/-! ### Bodies of one byte -/

open Sample

/-- Worker 1 has sent its request. -/
def oneSent : List Label := register :: publish 0 "k" ++ expand ++ claim 1 none 7 ++ [.send 1]

theorem response_recorded_sample : ∃ s result, Reachable (step config) start s ∧
    s.pcs 1 = .sent claimed ∧ Holds s.store claimed.endpointId claimed.leaseId ∧
    Node.sendOutboundRequest 3 ((1, .response 200) :: Node.bodyEvents 2 [(1, [79, 75]), (1, [33, 0])]) =
      .settled result ∧ Recorded config s.now s.store claimed result ⟨0, 1, Nat.one_pos⟩ := by
  obtain ⟨s, hs, hp⟩ := exists_of_run (step config) start oneSent
    (fun s => s.pcs 1 = .sent claimed && Holds s.store claimed.endpointId claimed.leaseId) (by decide)
  simp only [Bool.and_eq_true, decide_eq_true_eq] at hp
  obtain ⟨hpc, held⟩ := hp
  obtain ⟨result, hsettled, -, hiff⟩ :=
    (response_recorded (.of_run hs) hpc held ⟨0, 1, Nat.one_pos⟩ 200 3).1 1 2 [(1, [79, 75]), (1, [33, 0])]
  exact ⟨s, result, .of_run hs, hpc, held, hsettled, hiff.mpr (by decide)⟩

/-- A body of one NUL in Node, and of the byte `0xFF` in Go: the write-back throws and changes
nothing, so the delivery stays in flight. -/
theorem body_not_recorded : ∃ s result, Reachable (step config) start s ∧
    s.pcs 1 = .sent claimed ∧ Holds s.store claimed.endpointId claimed.leaseId ∧
    Node.sendOutboundRequest 3 ((1, .response 200) :: Node.bodyEvents 2 [(1, [0])]) = .settled result ∧
    ∀ r ∈ [result, Go.sendOutboundRequest 3 2 (.ok (200, [0xFF], .eof))],
      ¬ Recorded config s.now s.store claimed r ⟨0, 1, Nat.one_pos⟩ ∧
      completeDelivery config s.now s.store claimed r ⟨0, 1, Nat.one_pos⟩ none = (none, s.store) := by
  obtain ⟨s, hs, hp⟩ := exists_of_run (step config) start oneSent
    (fun s => s.pcs 1 = .sent claimed && Holds s.store claimed.endpointId claimed.leaseId &&
      [.answered 200 [0] 2, Go.sendOutboundRequest 3 2 (.ok (200, [0xFF], .eof))].all fun r =>
        completeDelivery config s.now s.store claimed r ⟨0, 1, Nat.one_pos⟩ none = (none, s.store))
    (by decide)
  simp only [Bool.and_eq_true, decide_eq_true_eq, List.all_eq_true] at hp
  obtain ⟨⟨hpc, held⟩, hall⟩ := hp
  refine ⟨s, .answered 200 [0] 2, .of_run hs, hpc, held, by decide, fun r hr => ?_⟩
  refine ⟨?_, hall r hr⟩
  rintro ⟨outcome, st', hc, -⟩
  rw [hall r hr] at hc
  cases hc

end Webhooks
