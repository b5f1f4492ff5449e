import Webhooks.Protocol.Alone

/-!
# Properties — Recovery

Whatever workers died over, the next claim of an endpoint goes on where they stopped.

* **`recovers`**: in every state of every timely run, a claim of a free or stale endpoint returns
  its lowest unresolved delivery when that one is due.
-/

namespace Webhooks

open Lib

section

variable {cfg : Config} {d : Delivery} {e : Endpoint} {s : Sys} {tenants : List Tenant}

/-- In every state of every timely run: when an active endpoint is not busy, or busy since longer
than the lease duration, and its lowest unresolved delivery is due, `tryClaimEndpoint` on it raises
no error and returns that delivery.  Runs with atomic expansions are among these runs. -/
theorem recovers (h : Reachable (restrict (Timely cfg) (step cfg)) (.init tenants) s)
    (he : e ∈ s.store.endpoints) (hactive : e.status = .active)
    (hstale : ∀ t, e.busySince = some t → t + cfg.leaseDurationMs < s.now)
    (hdec : e.Decrypts cfg) (hd : d ∈ s.store.deliveries) (hde : d.endpointId = e.id)
    (hun : d.state.isTerminal = false)
    (hlow : ∀ d' ∈ s.store.deliveries, d'.endpointId = e.id → d'.state.isTerminal = false →
      d.seq ≤ d'.seq)
    (hdue : d.nextAttemptAt ≤ s.now) :
    ∃ st' claimed, tryClaimEndpoint cfg s.now s.store ⟨e.id, e.tenantId, e.busy⟩
        (s.now - cfg.leaseDurationMs) = (st', .claimed claimed) ∧
      claimed.deliveryId = d.id ∧ claimed.endpointId = e.id := by
  have hl := leaseInv_of_reachable h.of_restrict
  have hk := (keyInv_of_reachable h.of_restrict).tables
  have hx := exclInv_of_reachable
    (fun _ hr l _ => fenced_of_timely (fun _ _ hp => hp) hr ClaimStep.isMark l) h
  have hfree : e.isFree (s.now - cfg.leaseDurationMs) = true := by
    have hsince := (hl.columns e he).since
    rcases hb : e.busySince with _ | t
    · rw [hb] at hsince
      simp [Endpoint.isFree, show e.busy = false from hsince]
    · have := hstale t hb
      simp only [Endpoint.isFree, hb, Option.any_some, Bool.or_eq_true, decide_eq_true_eq]
      exact .inr (Nat.lt_sub_of_add_lt this)
  have hc : s.store.Coherent :=
    ⟨hl.ids, hk.deliveryIds, hk.deliverySeqs, hk.linked, hx.one, hx.free⟩
  obtain ⟨st', r, hr, ⟨-, hnot⟩ | ⟨claimed, rfl, hid, heid, -⟩⟩ := @tryClaimEndpoint_due cfg s.now
    s.store d e (s.now - cfg.leaseDurationMs) hc he hactive hfree hd ⟨⟨hde, hun⟩, hlow⟩ hdue
  · exact absurd hdec hnot
  · exact ⟨st', claimed, hr, hid, heid⟩

end

open Sample in
/-- Worker 0 dies with its request sent; its lease of 10 ms has ended at 11. -/
theorem recovers_sample : ∃ s e d st' claimed,
    Reachable (restrict (Timely config) (step config)) start s ∧ e ∈ s.store.endpoints ∧
    d ∈ s.store.deliveries ∧
    tryClaimEndpoint config s.now s.store ⟨e.id, e.tenantId, e.busy⟩
      (s.now - config.leaseDurationMs) = (st', .claimed claimed) ∧
    claimed.deliveryId = d.id ∧ claimed.endpointId = e.id := by
  obtain ⟨s, hs, hp⟩ := exists_of_run (restrict (TimelyAmong config [0]) (step config)) start
    (register :: publish 0 "k" ++ expand ++ claim 0 none 7 ++ [.send 0, .die 0, .tick 11])
    (fun s => s.now = 11 && s.store.endpoints = [endpoint (some (0, 3))] &&
      s.store.deliveries = [⟨2, 1, 0, .inFlight, 1, 0, 0, 1⟩]) (by decide +kernel)
  simp only [Bool.and_eq_true, decide_eq_true_eq] at hp
  obtain ⟨⟨hnow, he⟩, hd⟩ := hp
  have hr : Reachable (restrict (Timely config) (step config)) start s :=
    timely_of_timelyAmong (fun _ _ => rfl) (fun _ _ h => h) (fun _ _ h _ => h) (.of_run hs)
  have hmem : endpoint (some (0, 3)) ∈ s.store.endpoints := by rw [he]; exact List.mem_singleton_self _
  have hdmem : ⟨2, 1, 0, .inFlight, 1, 0, 0, 1⟩ ∈ s.store.deliveries := by
    rw [hd]; exact List.mem_singleton_self _
  have hstale : ∀ t, (endpoint (some (0, 3))).busySince = some t → t + config.leaseDurationMs < s.now := by
    rintro t ⟨⟩
    rw [hnow]
    decide
  obtain ⟨st', claimed, h⟩ := recovers hr hmem rfl hstale ⟨rfl, nofun⟩ hdmem rfl rfl
    (fun d' hd' _ _ => by rw [hd] at hd'; rw [List.mem_singleton.mp hd']) (Nat.zero_le _)
  exact ⟨s, _, _, st', claimed, hr, hmem, hdmem, h⟩

end Webhooks
