import Webhooks.Protocol.Candidates

/-!
# Properties — Polling

A poll finds work whenever there is work, as long as the candidates whose heads are not due do not
fill its list.

* `Endpoint.Claimable`: what a poll could claim.
* **`poll_finds_work`**: exactly when fewer than twenty candidates are ranked before some endpoint
  it could claim.
* `work_not_found`: twenty endpoints in backoff, with later deliveries due, hide the next one.
-/

namespace Webhooks

open Lib

/-- The endpoint is active, and not busy with its head pending and due, or busy past its lease with
its head in flight, or pending and due. -/
def Endpoint.Claimable (st : Store) (now cutoff : Time) (e : Endpoint) : Prop :=
  e.status = .active ∧ ∃ d ∈ st.deliveries, d.IsHead st e.id ∧
    ((e.busy = false ∧ d.state = .pending ∧ d.nextAttemptAt ≤ now) ∨
      (e.busy = true ∧ e.busySince.any (· < cutoff) = true ∧
        (d.state = .inFlight ∨ d.state = .pending ∧ d.nextAttemptAt ≤ now)))

instance (st : Store) (now cutoff : Time) (e : Endpoint) : Decidable (e.Claimable st now cutoff) := by
  unfold Endpoint.Claimable; exact inferInstance

/-- The keys and the references of the tables. -/
structure Store.Keyed (st : Store) : Prop where
  endpointIds : (st.endpoints.map (·.id)).Nodup
  deliveryIds : (st.deliveries.map (·.id)).Nodup
  deliverySeqs : (st.deliveries.map (·.seq)).Nodup
  deliveries : ∀ d ∈ st.deliveries, d.IsLinked st
  endpoints : ∀ e ∈ st.endpoints, ∃ t ∈ st.tenants, t.id = e.tenantId

/-- An endpoint has at most one delivery in flight, only while it is busy, and that one is its head
and due. -/
structure Store.InFlightHeads (st : Store) (now : Time) : Prop where
  one : ∀ d ∈ st.deliveries, ∀ d' ∈ st.deliveries, d.endpointId = d'.endpointId →
    d.state = .inFlight → d'.state = .inFlight → d.id = d'.id
  head : ∀ d ∈ st.deliveries, d.state = .inFlight →
    d.IsHead st d.endpointId ∧ d.nextAttemptAt ≤ now
  busy : ∀ e ∈ st.endpoints, ∀ d ∈ st.deliveries, d.endpointId = e.id → d.state = .inFlight →
    e.busy = true

section

variable {cfg : Config} {now cutoff : Time} {s : Store} {e : Endpoint} {scan : List Endpoint}

theorem coherent_of_inFlightHeads (hk : s.Keyed) (hf : s.InFlightHeads now) : s.Coherent where
  endpointIds := hk.endpointIds
  deliveryIds := hk.deliveryIds
  deliverySeqs := hk.deliverySeqs
  linked := hk.deliveries
  one := hf.one
  free e he hb d hd hde hs := by
    rw [hf.busy e he d hd hde hs] at hb
    cases hb

theorem claimable_iff_hasWork (hf : s.InFlightHeads now) (he : e ∈ s.endpoints) :
    e.Claimable s now cutoff ↔ e.HasWork s now cutoff := by
  constructor
  · rintro ⟨hactive, d, hd, hhead, ⟨hb, -, hdue⟩ | ⟨-, hstale, hs | ⟨-, hdue⟩⟩⟩
    · exact ⟨⟨hactive, by simp [Endpoint.isFree, hb]⟩, d, hd, hhead, hdue⟩
    · exact ⟨⟨hactive, by simp [Endpoint.isFree, hstale]⟩, d, hd, hhead, (hf.head d hd hs).2⟩
    · exact ⟨⟨hactive, by simp [Endpoint.isFree, hstale]⟩, d, hd, hhead, hdue⟩
  · rintro ⟨⟨hactive, hfree⟩, d, hd, hhead, hdue⟩
    refine ⟨hactive, d, hd, hhead, ?_⟩
    obtain ⟨⟨hde, hun⟩, -⟩ := hhead
    have hstate : d.state = .inFlight ∨ d.state = .pending := by
      cases hs : d.state <;> simp_all [DeliveryState.isTerminal]
    rcases hb : e.busy with _ | _
    · rcases hstate with hs | hs
      · rw [hf.busy e he d hd hde hs] at hb
        cases hb
      · exact .inl ⟨rfl, hs, hdue⟩
    · refine .inr ⟨rfl, by simpa [Endpoint.isFree, hb] using hfree, ?_⟩
      exact hstate.imp_right fun hs => ⟨hs, hdue⟩

/-- A poll returns nothing when every endpoint with work has twenty candidates ranked before it. -/
theorem claimDelivery_none_iff (hc : s.Coherent)
    (ht : ∀ e ∈ s.endpoints, ∃ t ∈ s.tenants, t.id = e.tenantId) (hscan : scan.Perm s.endpoints) :
    (claimDelivery cfg now s scan).2 = .none ↔
      ∀ e ∈ s.endpoints, e.HasWork s now (now - cfg.leaseDurationMs) →
        20 ≤ (rankedBefore s now (now - cfg.leaseDurationMs) e).length := by
  obtain ⟨st', r, tried, heq, -, hcases⟩ := @tryCandidates_cases cfg now (now - cfg.leaseDurationMs)
    _ s hc (claimCandidates_nodup hc hscan) (claimCandidates_isOf hscan)
  have hcall : claimDelivery cfg now s scan = (st', r) := heq
  rw [hcall]
  have hlisted : ∀ e ∈ s.endpoints, e.HasWork s now (now - cfg.leaseDurationMs) →
      ((rankedBefore s now (now - cfg.leaseDurationMs) e).length < 20 ↔
        ⟨e.id, e.tenantId, e.busy⟩ ∈ claimCandidates s now (now - cfg.leaseDurationMs) scan) := by
    intro e he hw
    obtain ⟨a, ha⟩ := candidateOf_isSome hw (ht e he)
    rw [← (candidateOf_eq_some ha).1]
    exact (mem_claimCandidates hc hscan he ha).symm
  rcases hcases with ⟨rfl, -, hidle⟩ | ⟨pre, c, rest, hcs, -, -, e, he, rfl, hw, hret⟩
  · refine iff_of_true rfl fun e he hw => not_lt.mp fun hlt => ?_
    exact hidle _ ((hlisted e he hw).mp hlt) e he rfl hw
  · have hne : r ≠ .none := by
      rcases hret with ⟨rfl, -⟩ | ⟨claimed, rfl, -⟩ <;> nofun
    refine iff_of_false hne fun hall => ?_
    have hmem : ⟨e.id, e.tenantId, e.busy⟩ ∈
        claimCandidates s now (now - cfg.leaseDurationMs) scan := by
      rw [hcs]
      exact List.mem_append_right _ List.mem_cons_self
    exact absurd ((hlisted e he hw).mpr hmem) (not_lt.mpr (hall e he hw))

/-- When `claimDelivery` runs alone and returns null, there is nothing to claim, if and only if
among the endpoints there are to claim is one with fewer than twenty candidates ranked before it. -/
theorem poll_finds_work (hk : s.Keyed) (hf : s.InFlightHeads now) (hscan : scan.Perm s.endpoints) :
    ((claimDelivery cfg now s scan).2 = .none →
      ∀ e ∈ s.endpoints, ¬ e.Claimable s now (now - cfg.leaseDurationMs)) ↔
    ((∃ e ∈ s.endpoints, e.Claimable s now (now - cfg.leaseDurationMs)) →
      ∃ e ∈ s.endpoints, e.Claimable s now (now - cfg.leaseDurationMs) ∧
        (rankedBefore s now (now - cfg.leaseDurationMs) e).length < 20) := by
  rw [claimDelivery_none_iff (coherent_of_inFlightHeads hk hf) hk.endpoints hscan]
  constructor
  · rintro h ⟨e, he, hcl⟩
    by_contra hno
    push Not at hno
    refine h (fun e' he' hw => ?_) e he hcl
    exact hno e' he' ((claimable_iff_hasWork hf he').mpr hw)
  · intro h hall e he hcl
    obtain ⟨e', he', hcl', hlt⟩ := h ⟨e, he, hcl⟩
    exact absurd hlt (not_lt.mpr (hall e' he' ((claimable_iff_hasWork hf he').mp hcl')))

end

/-! ### Endpoints in backoff -/

open Sample

/-- Endpoints `0, …, n - 1` in backoff, each with a head that failed once and is due at instant 5,
and a second delivery that is due; and endpoint `n` with one delivery, due, behind them. -/
def crowd (n : Nat) : Store where
  tenants := [⟨1000, none⟩]
  endpoints := (List.range (n + 1)).map fun i => { endpoint none with id := i, tenantId := 1000 }
  events :=
    [⟨100, 1000, "k", "a", "\x7b\x7d", .expanded, 1, 0⟩,
      ⟨101, 1000, "l", "a", "\x7b\x7d", .expanded, 2, 0⟩]
  deliveries :=
    (List.range n).flatMap (fun i =>
      [⟨200 + 2 * i, 100, i, .pending, 1, 5, 0, 2 * i⟩,
        ⟨201 + 2 * i, 101, i, .pending, 0, 0, 0, 2 * i + 1⟩]) ++
    [⟨200 + 2 * n, 101, n, .pending, 0, 0, 0, 2 * n⟩]
  attempts := (List.range n).map fun i =>
    ⟨300 + i, 200 + 2 * i, 1, some 0, some 500, some [], some 0, none⟩
  replays := []
  uuids := 2000
  eventsSeq := 3
  deliveriesSeq := 200

instance (st : Store) (d : Delivery) : Decidable (d.IsLinked st) := by
  unfold Delivery.IsLinked; exact inferInstance

theorem crowd_keyed (n : Nat) (h : n = 2 ∨ n = 20) : (crowd n).Keyed ∧ (crowd n).InFlightHeads 1 := by
  rcases h with rfl | rfl
  all_goals
    refine ⟨⟨by decide +kernel, by decide +kernel, by decide +kernel, by decide +kernel,
      by decide +kernel⟩, ⟨by decide +kernel, by decide +kernel, by decide +kernel⟩⟩

/-- Two endpoints in backoff do not hide the third. -/
theorem poll_finds_work_sample : ∃ s : Store,
    ∀ scan, scan.Perm s.endpoints → (claimDelivery config 1 s scan).2 ≠ .none := by
  obtain ⟨hk, hf⟩ := crowd_keyed 2 (.inl rfl)
  have hcl : ∃ e ∈ (crowd 2).endpoints, e.Claimable (crowd 2) 1 (1 - config.leaseDurationMs) ∧
      (rankedBefore (crowd 2) 1 (1 - config.leaseDurationMs) e).length < 20 := by decide +kernel
  obtain ⟨e, he, hc, hlt⟩ := hcl
  exact ⟨crowd 2, fun scan hscan hnone =>
    (poll_finds_work hk hf hscan).mpr (fun _ => ⟨e, he, hc, hlt⟩) hnone e he hc⟩

/-- Twenty do: the poll returns nothing, and the last endpoint is free with its head due. -/
theorem work_not_found : ∃ s : Store, (s.Keyed ∧ s.InFlightHeads 1) ∧
    (claimDelivery config 1 s s.endpoints).2 = .none ∧
    ∃ e ∈ s.endpoints, e.Claimable s 1 (1 - config.leaseDurationMs) :=
  ⟨crowd 20, crowd_keyed 20 (.inr rfl), by decide +kernel, by decide +kernel⟩

end Webhooks
