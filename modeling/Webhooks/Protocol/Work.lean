import Mathlib.Algebra.Order.BigOperators.Group.List
import Webhooks.Protocol.Solo

/-!
# Protocol — Work

What is left to deliver, and what a delivery cycle run alone does to it.

* `Store.work`: the attempts the unresolved deliveries of active endpoints have left.
* `Store.Due`: at an instant every delivery is due and every lease stale.
* `Idles`: what the claims that find nothing to deliver do to the rows.
* **`runDeliveryCycle_work`**: a cycle lowers the work, or idles although not everything is due.
-/

namespace Webhooks

open Lib

/-! ### Work -/

def Store.isActive (st : Store) (endpointId : Uuid) : Bool :=
  st.endpoints.any fun e => e.id = endpointId && e.status = .active

/-- Up to the ceiling, and one more for a delivery that has reached it. -/
def Delivery.attemptsLeft (cfg : Config) (st : Store) (d : Delivery) : Nat :=
  if d.state.isTerminal = false ∧ st.isActive d.endpointId = true then
    cfg.backoff.maxAttempts - d.attemptCount + 1
  else 0

def Store.work (cfg : Config) (st : Store) : Nat := (st.deliveries.map (Delivery.attemptsLeft cfg st)).sum

structure Store.Due (cfg : Config) (t : Time) (st : Store) : Prop where
  deliveries : ∀ d ∈ st.deliveries, d.nextAttemptAt ≤ t
  leases : ∀ e ∈ st.endpoints, ∀ since, e.busySince = some since → since + cfg.leaseDurationMs < t

/-- In-flight deliveries may be pending again, and leases released. -/
structure Idles (st st' : Store) : Prop where
  deliveries : ∃ g, st'.deliveries = st.deliveries.map g ∧
    ∀ d ∈ st.deliveries, g d = d ∨ d.state = .inFlight ∧ g d = { d with state := .pending }
  endpoints : ∃ f, st'.endpoints = st.endpoints.map f ∧ ∀ e ∈ st.endpoints, f e = e ∨ f e = e.released

section

variable {cfg : Config} {now cutoff t : Time} {st st' st₁ : Store} {c : Claim} {d d' : Delivery}
  {e : Endpoint} {endpointId : Uuid} {p : Poll} {r : ClaimResult}

theorem isActive_iff : st.isActive endpointId = true ↔
    ∃ e ∈ st.endpoints, e.id = endpointId ∧ e.status = .active := by
  simp [Store.isActive, List.any_eq_true]

theorem attemptsLeft_le (hid : d'.endpointId = d.endpointId)
    (hterm : d'.state.isTerminal = false → d.state.isTerminal = false)
    (hcount : d.attemptCount ≤ d'.attemptCount)
    (hactive : st'.isActive d.endpointId = true → st.isActive d.endpointId = true) :
    d'.attemptsLeft cfg st' ≤ d.attemptsLeft cfg st := by
  unfold Delivery.attemptsLeft
  rw [hid]
  split
  · next h =>
      rw [if_pos ⟨hterm h.1, hactive h.2⟩]
      exact Nat.succ_le_succ (Nat.sub_le_sub_left hcount _)
  · exact Nat.zero_le _

/-- There are finitely many rows, so everything is due some time. -/
theorem exists_due (cfg : Config) (st : Store) : ∃ t, ∀ t', t ≤ t' → st.Due cfg t' := by
  refine ⟨(st.deliveries.map (·.nextAttemptAt)).sum +
    (st.endpoints.map fun e => e.busySince.elim 0 fun since => since + cfg.leaseDurationMs + 1).sum,
    fun t' ht => ⟨fun d hd => ?_, fun e he since hs => ?_⟩⟩
  · exact (List.single_le_sum (fun _ _ => Nat.zero_le _) _ (List.mem_map_of_mem hd)).trans
      ((Nat.le_add_right _ _).trans ht)
  · have hle := List.single_le_sum (fun _ _ => Nat.zero_le _) _ (List.mem_map_of_mem
      (f := fun e : Endpoint => e.busySince.elim 0 fun since => since + cfg.leaseDurationMs + 1) he)
    rw [hs] at hle
    exact hle.trans ((Nat.le_add_left _ _).trans ht)

/-- The requeue leaves a row as it is, or makes it pending again. -/
theorem Delivery.requeued_cases (endpointId : Uuid) (d : Delivery) :
    d.requeued endpointId = d ∨
      d.state = .inFlight ∧ d.requeued endpointId = { d with state := .pending } := by
  unfold Delivery.requeued
  split
  · next hp =>
      simp only [Delivery.isInFlightOn, Bool.and_eq_true, decide_eq_true_eq] at hp
      exact .inr ⟨hp.2, rfl⟩
  · exact .inl rfl

/-- The row a claim of a free or stale endpoint takes is the endpoint's. -/
theorem isClaimable_iff {e' : Endpoint} (hn : (st.endpoints.map (·.id)).Nodup) (he : e ∈ st.endpoints)
    (hactive : e.status = .active) (hfree : e.isFree cutoff = true) (he' : e' ∈ st.endpoints) :
    Endpoint.isClaimable e.id cutoff e' = true ↔ e'.id = e.id := by
  constructor
  · exact Endpoint.id_of_isClaimable
  · intro hid
    obtain rfl : e' = e := Table.eq_of_key hn he' he hid
    simp [Endpoint.isClaimable, hactive, hfree]

/-! ### Claims that find nothing -/

theorem Idles.refl (st : Store) : Idles st st :=
  ⟨⟨id, (List.map_id _).symm, fun _ _ => .inl rfl⟩, ⟨id, (List.map_id _).symm, fun _ _ => .inl rfl⟩⟩

theorem Idles.trans (h₁ : Idles st st₁) (h₂ : Idles st₁ st') : Idles st st' where
  deliveries := by
    obtain ⟨g₁, heq₁, h₁⟩ := h₁.deliveries
    obtain ⟨g₂, heq₂, h₂⟩ := h₂.deliveries
    refine ⟨g₂ ∘ g₁, by rw [heq₂, heq₁, List.map_map], fun d hd => ?_⟩
    have hg₂ := h₂ (g₁ d) (heq₁ ▸ List.mem_map_of_mem hd)
    obtain heq | ⟨hs, heq⟩ := h₁ d hd
    · simpa only [Function.comp, heq] using hg₂
    · -- what is pending again stays so
      rw [heq] at hg₂
      refine .inr ⟨hs, ?_⟩
      simp only [Function.comp, heq]
      exact hg₂.resolve_right fun h => by cases h.1
  endpoints := by
    obtain ⟨f₁, heq₁, h₁⟩ := h₁.endpoints
    obtain ⟨f₂, heq₂, h₂⟩ := h₂.endpoints
    refine ⟨f₂ ∘ f₁, by rw [heq₂, heq₁, List.map_map], fun e he => ?_⟩
    have hf₂ := h₂ (f₁ e) (heq₁ ▸ List.mem_map_of_mem he)
    obtain heq | heq := h₁ e he
    · simpa only [Function.comp, heq] using hf₂
    · rw [heq] at hf₂
      simp only [Function.comp, heq]
      exact .inr (hf₂.elim id id)

theorem Idles.isActive (h : Idles st st') : st'.isActive endpointId = st.isActive endpointId := by
  obtain ⟨f, heq, hf⟩ := h.endpoints
  have hrow : ∀ e ∈ st.endpoints, (f e).id = e.id ∧ (f e).status = e.status := by
    intro e he
    obtain h | h := hf e he <;> rw [h] <;> exact ⟨rfl, rfl⟩
  rw [Bool.eq_iff_iff, isActive_iff, isActive_iff, heq]
  constructor
  · rintro ⟨e', he', hid, hs⟩
    obtain ⟨e, he, rfl⟩ := List.mem_map.mp he'
    exact ⟨e, he, (hrow e he).1 ▸ hid, (hrow e he).2 ▸ hs⟩
  · rintro ⟨e, he, hid, hs⟩
    exact ⟨f e, List.mem_map_of_mem he, (hrow e he).1.trans hid, (hrow e he).2.trans hs⟩

theorem Idles.work (h : Idles st st') : st'.work cfg = st.work cfg := by
  obtain ⟨g, heq, hg⟩ := h.deliveries
  unfold Store.work
  rw [heq, List.map_map]
  refine congrArg List.sum (List.map_congr_left fun d hd => ?_)
  obtain hd | ⟨hs, hd⟩ := hg d hd
  · simp only [Function.comp, hd, Delivery.attemptsLeft, h.isActive]
  · simp only [Function.comp, hd, Delivery.attemptsLeft, h.isActive, hs, DeliveryState.isTerminal]

theorem Idles.due (h : Idles st st') (hd : st.Due cfg t) : st'.Due cfg t where
  deliveries d' hd' := by
    obtain ⟨g, heq, hg⟩ := h.deliveries
    rw [heq] at hd'
    obtain ⟨d, hmem, rfl⟩ := List.mem_map.mp hd'
    obtain h | ⟨-, h⟩ := hg d hmem <;> rw [h] <;> exact hd.deliveries d hmem
  leases e' he' since hs := by
    obtain ⟨f, heq, hf⟩ := h.endpoints
    rw [heq] at he'
    obtain ⟨e, hmem, rfl⟩ := List.mem_map.mp he'
    obtain h | h := hf e hmem <;> rw [h] at hs
    · exact hd.leases e hmem since hs
    · cases hs

/-- What a claim does from its head query on: it releases the endpoint, or marks the head. -/
theorem claimLoop_fetchHead_cases {n : Nat}
    (h : claimLoop cfg now c (n + 5) st .fetchHead = (st', r)) :
    (r = .none ∧ st' = releaseLease st c.candidate.id c.leaseId) ∨
    ∃ head, fetchHead st c.candidate.id = some head ∧
      st' = markInFlight (insertAttempt st now head.id (head.attemptCount + 1)).2 head.id
        (head.attemptCount + 1) ∧
      (r = .threw ∨ ∃ claimed, r = .claimed claimed ∧ claimed.endpointId = c.candidate.id ∧
        claimed.leaseId = c.leaseId ∧ claimed.deliveryId = head.id ∧
        claimed.attemptNumber = head.attemptCount + 1) := by
  cases hf : fetchHead st c.candidate.id with
  | none =>
      simp only [claimLoop, claimStep, hf] at h
      cases h
      exact .inl ⟨rfl, rfl⟩
  | some head =>
      by_cases hdue : now < head.nextAttemptAt
      · simp only [claimLoop, claimStep, hf, hdue, if_true] at h
        cases h
        exact .inl ⟨rfl, rfl⟩
      · refine .inr ⟨head, rfl, ?_⟩
        cases hx : decryptSecrets cfg now head with
        | none =>
            simp only [claimLoop, claimStep, hf, hdue, if_false, hx] at h
            cases h
            exact ⟨rfl, .inl rfl⟩
        | some secrets =>
            simp only [claimLoop, claimStep, hf, hdue, if_false, hx] at h
            cases h
            exact ⟨rfl, .inr ⟨_, rfl, rfl, rfl, rfl, rfl⟩⟩

theorem idles_of_none (hc : st.Coherent) (he : e ∈ st.endpoints) (hactive : e.status = .active)
    (hfree : e.isFree cutoff = true)
    (h : tryClaimEndpoint cfg now st ⟨e.id, e.tenantId, e.busy⟩ cutoff = (st', .none)) : Idles st st' := by
  obtain ⟨n, st₁, heq, hdel, -, hep⟩ := @tryClaimEndpoint_fetchHead cfg now st e cutoff hc he hactive hfree
  obtain ⟨-, rfl⟩ | ⟨head, -, -, h | ⟨_, h, -⟩⟩ := claimLoop_fetchHead_cases (heq.symm.trans h)
  case inr.inl | inr.inr => cases h
  constructor
  · exact ⟨_, hdel, fun d _ => d.requeued_cases e.id⟩
  · refine ⟨_, (congrArg (Table.update _ _) hep).trans (List.map_map ..), fun e' _ => ?_⟩
    simp only [Function.comp]
    by_cases hp : Endpoint.isClaimable e.id cutoff e' = true
    · simp [hp, Endpoint.id_of_isClaimable hp, Endpoint.released]
    · simp only [hp, if_false, Bool.false_eq_true]
      split
      · exact .inr rfl
      · exact .inl rfl

/-! ### A claim that finds a delivery -/

/-- The rows after a claim of `e` and the write-back of its delivery `d`. -/
structure Delivers (cfg : Config) (st st' : Store) (e : Endpoint) (d : Delivery) (o : CompleteDeliveryOutcome)
    (retryAt : Time) : Prop where
  deliveries : st'.deliveries = st.deliveries.map fun d' =>
    if d'.id = d.id then
      { d' with state := .inFlight, attemptCount := d.attemptCount + 1 : Delivery }.resolve o retryAt
    else d'.requeued e.id
  endpoints : st'.endpoints = st.endpoints.map fun e' => if e'.id = e.id then e'.resolve o else e'
  outcome : o = .succeeded ∨ o = .halted ∨ o = .retrying ∧ d.attemptCount + 1 < cfg.backoff.maxAttempts

theorem resolution_cases (claimed : ClaimedDelivery) (result : AttemptOutcome) :
    resolution cfg claimed result = .succeeded ∨ resolution cfg claimed result = .halted ∨
      resolution cfg claimed result = .retrying ∧ claimed.attemptNumber < cfg.backoff.maxAttempts := by
  unfold resolution
  split
  · exact .inl rfl
  · split
    · exact .inr (.inl rfl)
    · next hlt => exact .inr (.inr ⟨rfl, Nat.lt_of_not_le hlt⟩)

/-- The claiming `UPDATE` and the release, on the endpoints. -/
theorem update_resolve_claimed (hn : (st.endpoints.map (·.id)).Nodup) (he : e ∈ st.endpoints)
    (hactive : e.status = .active) (hfree : e.isFree cutoff = true) (leaseId : Uuid)
    (o : CompleteDeliveryOutcome) :
    Table.update (fun e' => e'.id = e.id) (Endpoint.resolve o) (Table.update (Endpoint.isClaimable e.id cutoff)
        (fun e => { e with busy := true, busySince := some now, leaseId := some leaseId }) st.endpoints) =
      st.endpoints.map fun e' => if e'.id = e.id then e'.resolve o else e' := by
  rw [Table.update, Table.update, List.map_map]
  refine List.map_congr_left fun e' he' => ?_
  have hclaimed := isClaimable_iff hn he hactive hfree he'
  simp only [Function.comp]
  by_cases hid : e'.id = e.id
  · obtain rfl : e' = e := Table.eq_of_key hn he' he hid
    simp only [hclaimed.mpr rfl, decide_true, if_true]
    unfold Endpoint.resolve
    split <;> rfl
  · have hp : Endpoint.isClaimable e.id cutoff e' = false := Bool.eq_false_iff.mpr fun hp => hid (hclaimed.mp hp)
    simp only [hp, hid, decide_false, Bool.false_eq_true, if_false]

/-- The requeue, the head's `UPDATE` and the write-back, on the deliveries. -/
theorem update_resolve_marked (d : Delivery) (endpointId : Uuid) (n : Nat) (o : CompleteDeliveryOutcome)
    (retryAt : Time) (ds : List Delivery) :
    Table.update (fun d' => d'.id = d.id) (Delivery.resolve o retryAt) (Table.update (fun d' => d'.id = d.id)
        (fun d' => { d' with state := .inFlight, attemptCount := n }) (ds.map (Delivery.requeued endpointId))) =
      ds.map fun d' =>
        if d'.id = d.id then { d' with state := .inFlight, attemptCount := n : Delivery }.resolve o retryAt
        else d'.requeued endpointId := by
  rw [Table.update, Table.update, List.map_map, List.map_map]
  refine List.map_congr_left fun d' _ => ?_
  simp only [Function.comp, (d'.requeued_identity endpointId).1]
  by_cases hd' : d'.id = d.id
  · simp only [hd', decide_true, if_true]
    obtain h | ⟨-, h⟩ := d'.requeued_cases endpointId <;> rw [h]
  · simp only [hd', decide_false, Bool.false_eq_true, if_false, (d'.requeued_identity endpointId).1]

theorem delivers_of_claimed {doneAt : Time} {claimed : ClaimedDelivery} {result : AttemptOutcome}
    {random : Jitter} (hc : st.Coherent) (he : e ∈ st.endpoints) (hactive : e.status = .active)
    (hfree : e.isFree cutoff = true)
    (h : tryClaimEndpoint cfg now st ⟨e.id, e.tenantId, e.busy⟩ cutoff = (st₁, .claimed claimed))
    (ha : acceptsText result.responseBodyTruncated = true) :
    ∃ d ∈ st.deliveries, (d.endpointId = e.id ∧ d.state.isTerminal = false) ∧
      (completeDelivery cfg doneAt st₁ claimed result random none).1.isSome = true ∧
      ∃ o retryAt, Delivers cfg st (completeDelivery cfg doneAt st₁ claimed result random none).2 e d o
        retryAt := by
  obtain ⟨n, st₂, heq, hdel, hev, hep⟩ := @tryClaimEndpoint_fetchHead cfg now st e cutoff hc he hactive hfree
  obtain ⟨hlinked, -, -⟩ := hc.requeued hdel hev hep fun _ => rfl
  obtain ⟨h, -⟩ | ⟨head, hf, rfl, h | ⟨claimed, h, hepid, hlease, hdid, hnum⟩⟩ :=
    claimLoop_fetchHead_cases (heq.symm.trans h)
  case inl | inr.inl => cases h
  cases h
  -- the head is a delivery of the endpoint that was unresolved before the claim
  obtain ⟨d₂, hd₂, ⟨hde, hpend⟩, hof, -⟩ := fetchHead_eq_some hlinked hf
  obtain ⟨d, hd, rfl⟩ := List.mem_map.mp (hdel ▸ hd₂)
  obtain ⟨hid, -, hdep, -⟩ := d.requeued_identity e.id
  have hcount : head.attemptCount = d.attemptCount := by
    rw [hof.attemptCount]
    obtain h | ⟨-, h⟩ := d.requeued_cases e.id <;> rw [h]
  have hheadId : head.id = d.id := hof.id.trans hid
  -- the worker still has the endpoint
  have hheld : currentLease st₂ e.id = some st.uuids := by
    refine currentLease_of_holds ?_ ?_
    · have hids : st₂.endpoints.map (·.id) = st.endpoints.map (·.id) := by
        rw [hep]
        exact Table.map_update fun _ => rfl
      exact hids ▸ hc.endpointIds
    · exact ⟨{ e with busy := true, busySince := some now, leaseId := some st.uuids }, hep ▸
        Table.mem_update_of_pos he ((isClaimable_iff hc.endpointIds he hactive hfree he).mpr rfl), rfl, rfl⟩
  rw [completeDelivery_commits (by rw [hepid, hlease]; exact hheld) ha]
  refine ⟨d, hd, ⟨hdep.symm.trans hde, (Delivery.requeued_pending (hdep.symm.trans hde)).mp hpend⟩, rfl,
    resolution cfg claimed result,
    doneAt + computeBackoffDelayMs claimed.attemptNumber cfg.backoff random, ?_, ?_, ?_⟩
  · have hst : (writeBack cfg doneAt (markInFlight (insertAttempt st₂ now head.id (head.attemptCount + 1)).2
        head.id (head.attemptCount + 1)) claimed result random).deliveries =
        Table.update (fun d => d.id = claimed.deliveryId) (Delivery.resolve (resolution cfg claimed result)
          (doneAt + computeBackoffDelayMs claimed.attemptNumber cfg.backoff random))
          (Table.update (fun d => d.id = head.id)
            (fun d => { d with state := .inFlight, attemptCount := head.attemptCount + 1 })
            st₂.deliveries) := rfl
    rw [hst, hdel, hdid, hheadId, hcount]
    exact update_resolve_marked d e.id ..
  · have hst : (writeBack cfg doneAt (markInFlight (insertAttempt st₂ now head.id (head.attemptCount + 1)).2
        head.id (head.attemptCount + 1)) claimed result random).endpoints =
        Table.update (fun e => e.id = claimed.endpointId) (Endpoint.resolve (resolution cfg claimed result))
          st₂.endpoints := rfl
    rw [hst, hep, hepid]
    exact update_resolve_claimed hc.endpointIds he hactive hfree ..
  · rw [← hcount, ← hnum]
    exact resolution_cases claimed result

/-- No endpoint becomes active by it. -/
theorem Delivers.isActive {o : CompleteDeliveryOutcome} {retryAt : Time} (h : Delivers cfg st st' e d o retryAt)
    (hactive : st'.isActive endpointId = true) : st.isActive endpointId = true := by
  obtain ⟨e', he', hid, hs⟩ := isActive_iff.mp hactive
  rw [h.endpoints] at he'
  obtain ⟨e₀, he₀, rfl⟩ := List.mem_map.mp he'
  refine isActive_iff.mpr ⟨e₀, he₀, ?_⟩
  split at hid <;> rename_i hsame
  · rw [if_pos hsame] at hs
    unfold Endpoint.resolve at hid hs
    split at hs
    · cases hs
    · next ho => exact ⟨by rwa [if_neg ho] at hid, hs⟩
  · exact ⟨hid, by rwa [if_neg hsame] at hs⟩

/-- The delivery is resolved, or has an attempt less. -/
theorem attemptsLeft_resolve_lt {o : CompleteDeliveryOutcome} {retryAt : Time}
    (ho : o = .succeeded ∨ o = .halted ∨ o = .retrying ∧ d.attemptCount + 1 < cfg.backoff.maxAttempts) :
    Delivery.attemptsLeft cfg st'
        (Delivery.resolve o retryAt { d with state := .inFlight, attemptCount := d.attemptCount + 1 }) <
      cfg.backoff.maxAttempts - d.attemptCount + 1 := by
  obtain rfl | rfl | ⟨rfl, hmax⟩ := ho
  · simp [Delivery.attemptsLeft, Delivery.resolve, DeliveryState.isTerminal]
  · simp [Delivery.attemptsLeft, Delivery.resolve, DeliveryState.isTerminal]
  · refine lt_of_le_of_lt (b := cfg.backoff.maxAttempts - (d.attemptCount + 1) + 1) ?_ (by omega)
    unfold Delivery.attemptsLeft
    split
    · exact le_rfl
    · exact Nat.zero_le _

theorem Delivers.work_lt {o : CompleteDeliveryOutcome} {retryAt : Time} (h : Delivers cfg st st' e d o retryAt)
    (he : e ∈ st.endpoints) (hactive : e.status = .active) (hd : d ∈ st.deliveries)
    (hn : (st.deliveries.map (·.id)).Nodup) (hon : d.endpointId = e.id)
    (hun : d.state.isTerminal = false) : st'.work cfg < st.work cfg := by
  have hlt : Delivery.attemptsLeft cfg st' (Delivery.resolve o retryAt
      { d with state := .inFlight, attemptCount := d.attemptCount + 1 }) < d.attemptsLeft cfg st := by
    have hleft : d.attemptsLeft cfg st = cfg.backoff.maxAttempts - d.attemptCount + 1 :=
      if_pos ⟨hun, isActive_iff.mpr ⟨e, he, hon.symm, hactive⟩⟩
    rw [hleft]
    exact attemptsLeft_resolve_lt h.outcome
  unfold Store.work
  rw [h.deliveries, List.map_map]
  refine List.sum_lt_sum _ _ (fun d' hd' => ?_) ⟨d, hd, ?_⟩
  · simp only [Function.comp]
    by_cases hid : d'.id = d.id
    · obtain rfl : d' = d := Table.eq_of_key hn hd' hd hid
      rw [if_pos rfl]
      exact hlt.le
    · rw [if_neg hid]
      obtain heq | ⟨hs, heq⟩ := d'.requeued_cases e.id <;> rw [heq]
      · exact attemptsLeft_le rfl id le_rfl h.isActive
      · exact attemptsLeft_le rfl (fun _ => by rw [hs]; rfl) le_rfl h.isActive
  · simp only [Function.comp, if_true]
    exact hlt

/-! ### A delivery cycle -/

/-- The loop over the candidates idles up to the one whose claim it returns. -/
theorem tryCandidates_work : ∀ {cs : List CandidateRow} {st : Store}, st.Coherent →
    (cs.map (·.id)).Nodup → (∀ c ∈ cs, c.IsOf st cutoff) →
    ∃ st' r, tryCandidates cfg now cutoff st cs = (st', r) ∧
      (r = .none ∧ Idles st st' ∨
        ∃ st₁ e, Idles st st₁ ∧ st₁.Coherent ∧ e ∈ st₁.endpoints ∧ e.status = .active ∧
          e.isFree cutoff = true ∧
          tryClaimEndpoint cfg now st₁ ⟨e.id, e.tenantId, e.busy⟩ cutoff = (st', r) ∧
          (r = .threw ∧ ¬ e.Decrypts cfg ∨ ∃ claimed, r = .claimed claimed)) := by
  intro cs
  induction cs with
  | nil =>
      intro st _ _ _
      exact ⟨st, .none, rfl, .inl ⟨rfl, .refl st⟩⟩
  | cons c cs ih =>
      intro st hc hn hof
      obtain ⟨e, he, rfl, hactive, hfree⟩ := hof c List.mem_cons_self
      obtain ⟨hnew, hn⟩ := List.nodup_cons.mp hn
      by_cases hw : e.HasWork st now cutoff
      · obtain ⟨-, d, hd, hhead, hdue⟩ := hw
        obtain ⟨st', r, hr, hcases⟩ :=
          @tryClaimEndpoint_due cfg now st d e cutoff hc he hactive hfree hd hhead hdue
        have hcases : r = .threw ∧ ¬ e.Decrypts cfg ∨ ∃ claimed, r = .claimed claimed :=
          hcases.imp_right fun ⟨claimed, h, _⟩ => ⟨claimed, h⟩
        refine ⟨st', r, ?_, .inr ⟨st, e, .refl st, hc, he, hactive, hfree, hr, hcases⟩⟩
        obtain ⟨rfl, -⟩ | ⟨claimed, rfl⟩ := hcases <;> simp only [tryCandidates, hr]
      · obtain ⟨st₁, hr, hc₁, hbeside⟩ :=
          @tryClaimEndpoint_blocked cfg now st e cutoff hc he hactive hfree hw
        have hidle : Idles st st₁ := idles_of_none hc he hactive hfree hr
        obtain ⟨st', r, hr', hcases⟩ := ih hc₁ hn fun c hmem => by
          obtain ⟨e', he', rfl, h⟩ := hof c (List.mem_cons_of_mem _ hmem)
          have hother : e'.id ≠ e.id := fun hid => hnew (List.mem_map.mpr ⟨_, hmem, hid⟩)
          exact ⟨e', (hbeside.endpoints e' hother).mpr he', rfl, h⟩
        refine ⟨st', r, by simp only [tryCandidates, hr, hr'], ?_⟩
        obtain ⟨rfl, h⟩ | ⟨st₂, e', h, hrest⟩ := hcases
        · exact .inl ⟨rfl, hidle.trans h⟩
        · exact .inr ⟨st₂, e', hidle.trans h, hrest⟩

theorem Idles.decrypts (h : Idles st st') (hdec : ∀ e ∈ st.endpoints, e.Decrypts cfg) :
    ∀ e ∈ st'.endpoints, e.Decrypts cfg := by
  intro e' he'
  obtain ⟨f, heq, hf⟩ := h.endpoints
  rw [heq] at he'
  obtain ⟨e, he, rfl⟩ := List.mem_map.mp he'
  obtain h | h := hf e he <;> rw [h]
  · exact hdec e he
  · exact hdec e he

theorem exists_isHead (hd : d ∈ st.deliveries) (hon : d.endpointId = endpointId)
    (hun : d.state.isTerminal = false) : ∃ d₀ ∈ st.deliveries, d₀.IsHead st endpointId := by
  have hmem : d ∈ st.deliveries.filter fun d => d.endpointId = endpointId && !d.state.isTerminal :=
    List.mem_filter.mpr ⟨hd, by simp [hon, hun]⟩
  obtain ⟨d₀, hd₀⟩ : ∃ d₀, (st.deliveries.filter fun d => d.endpointId = endpointId &&
      !d.state.isTerminal).argmin (·.seq) = some d₀ :=
    Option.ne_none_iff_exists'.mp fun hnone => List.ne_nil_of_mem hmem (List.argmin_eq_none.mp hnone)
  obtain ⟨hin, hp⟩ := List.mem_filter.mp (List.argmin_mem hd₀)
  simp only [Bool.and_eq_true, decide_eq_true_eq, Bool.not_eq_true'] at hp
  refine ⟨d₀, hin, hp, fun d' hd' hon' hun' => List.le_of_mem_argmin ?_ hd₀⟩
  exact List.mem_filter.mpr ⟨hd', by simp [hon', hun']⟩

/-- There is work exactly while an active endpoint has an unresolved delivery. -/
theorem work_pos : 0 < st.work cfg ↔ ∃ e ∈ st.endpoints, e.status = .active ∧
    ∃ d ∈ st.deliveries, d.endpointId = e.id ∧ d.state.isTerminal = false := by
  have hpos : ∀ d : Delivery, 0 < d.attemptsLeft cfg st ↔
      d.state.isTerminal = false ∧ st.isActive d.endpointId = true := by
    intro d
    unfold Delivery.attemptsLeft
    split <;> simp [*]
  rw [Store.work, List.sum_pos_iff_exists_pos_nat]
  constructor
  · rintro ⟨n, hn, hlt⟩
    obtain ⟨d, hd, rfl⟩ := List.mem_map.mp hn
    obtain ⟨hun, hact⟩ := (hpos d).mp hlt
    obtain ⟨e, he, hid, hs⟩ := isActive_iff.mp hact
    exact ⟨e, he, hs, d, hd, hid.symm, hun⟩
  · rintro ⟨e, he, hs, d, hd, hon, hun⟩
    exact ⟨_, List.mem_map_of_mem hd, (hpos d).mpr ⟨hun, isActive_iff.mpr ⟨e, he, hon.symm, hs⟩⟩⟩

/-- With everything due, an active endpoint with an unresolved delivery can be claimed. -/
theorem Store.Due.hasWork (hdue : st.Due cfg now) (hsince : e.busy = e.busySince.isSome) (he : e ∈ st.endpoints)
    (hactive : e.status = .active) (hd : d ∈ st.deliveries) (hon : d.endpointId = e.id)
    (hun : d.state.isTerminal = false) : e.HasWork st now (now - cfg.leaseDurationMs) := by
  obtain ⟨d₀, hd₀, hhead⟩ := exists_isHead hd hon hun
  refine ⟨⟨hactive, ?_⟩, d₀, hd₀, hhead, hdue.deliveries d₀ hd₀⟩
  cases hs : e.busySince with
  | none =>
      rw [hs] at hsince
      simp [Endpoint.isFree, show e.busy = false from hsince]
  | some t =>
      simp only [Endpoint.isFree, hs, Option.any_some, Bool.or_eq_true, decide_eq_true_eq]
      exact .inr (Nat.lt_sub_of_add_lt (hdue.leases e he t hs))

/-- A candidate has an unresolved delivery. -/
theorem candidateOf_unresolved {a : RankedCandidate} (h : candidateOf st now cutoff e = some a) :
    ∃ d ∈ st.deliveries, d.endpointId = e.id ∧ d.state.isTerminal = false := by
  simp only [candidateOf] at h
  split at h
  · obtain ⟨t, -, h⟩ := Option.bind_eq_some_iff.mp h
    obtain ⟨m, hm, -⟩ := Option.map_eq_some_iff.mp h
    obtain ⟨d, hd, -⟩ := List.mem_map.mp (List.min?_mem hm)
    obtain ⟨hd, hready⟩ := List.mem_filter.mp hd
    simp only [Bool.and_eq_true, Bool.or_eq_true, decide_eq_true_eq] at hready
    refine ⟨d, hd, hready.1, ?_⟩
    obtain ⟨hs, -⟩ | hs := hready.2 <;> rw [hs] <;> rfl
  · cases h

/-- With everything due and work left, the candidates are some, and each can be claimed. -/
theorem candidates_of_due {scan : List Endpoint} (hdue : st.Due cfg now)
    (hsince : ∀ e ∈ st.endpoints, e.busy = e.busySince.isSome)
    (htenant : ∀ e ∈ st.endpoints, ∃ t ∈ st.tenants, t.id = e.tenantId) (hscan : scan.Perm st.endpoints)
    (hw : 0 < st.work cfg) :
    ∃ c ∈ claimCandidates st now (now - cfg.leaseDurationMs) scan,
      ¬ c.IsIdle st now (now - cfg.leaseDurationMs) := by
  obtain ⟨e, he, hactive, d, hd, hon, hun⟩ := work_pos.mp hw
  obtain ⟨a, hcand⟩ := candidateOf_isSome (hdue.hasWork (hsince e he) he hactive hd hon hun) (htenant e he)
  obtain ⟨c, hmem⟩ : ∃ c, c ∈ claimCandidates st now (now - cfg.leaseDurationMs) scan := by
    refine List.exists_mem_of_ne_nil _ fun hnil => ?_
    simp only [claimCandidates, List.map_eq_nil_iff, List.take_eq_nil_iff] at hnil
    obtain h | h := hnil
    · cases h
    · have hin := (mem_candidates hscan).mpr ⟨e, he, hcand⟩
      rw [← List.mem_insertionSort RankedCandidate.le, h] at hin
      cases hin
  obtain ⟨e', he', hsome, rfl⟩ := claimCandidates_candidate hscan hmem
  obtain ⟨b, hb⟩ := Option.isSome_iff_exists.mp hsome
  obtain ⟨d', hd', hon', hun'⟩ := candidateOf_unresolved hb
  refine ⟨_, hmem, fun hidle => hidle e' he' rfl ?_⟩
  exact hdue.hasWork (hsince e' he') he' (candidateOf_eq_some hb).2.1.1 hd' hon' hun'

/-- A delivery cycle lowers the work, or finds nothing that can be claimed. -/
theorem runDeliveryCycle_work (hc : st.Coherent)
    (hsince : ∀ e ∈ st.endpoints, e.busy = e.busySince.isSome)
    (htenant : ∀ e ∈ st.endpoints, ∃ t ∈ st.tenants, t.id = e.tenantId)
    (hdec : ∀ e ∈ st.endpoints, e.Decrypts cfg) (hscan : (p.scan st.endpoints).Perm st.endpoints)
    (ha : ∀ claimed, acceptsText (p.result claimed).responseBodyTruncated = true) :
    (runDeliveryCycle cfg p st).2 = true ∧ (runDeliveryCycle cfg p st).1.work cfg < st.work cfg ∨
    (runDeliveryCycle cfg p st).2 = false ∧ Idles st (runDeliveryCycle cfg p st).1 ∧
      (0 < st.work cfg → ¬ st.Due cfg p.now) := by
  have hn := @claimCandidates_nodup p.now (p.now - cfg.leaseDurationMs) st _ hc hscan
  have hof := @claimCandidates_isOf p.now (p.now - cfg.leaseDurationMs) st _ hscan
  obtain ⟨st', r, hr, hcases⟩ := @tryCandidates_work cfg p.now _ _ _ hc hn hof
  have hclaim : claimDelivery cfg p.now st (p.scan st.endpoints) = (st', r) := hr
  obtain ⟨rfl, hidle⟩ | ⟨st₁, e, hidle, hc₁, he, hactive, hfree, hone, hcases⟩ := hcases
  · refine .inr ?_
    rw [runDeliveryCycle_other hclaim fun _ h => by cases h]
    refine ⟨rfl, hidle, fun hw hdue => ?_⟩
    obtain ⟨c, hmem, hbusy⟩ := candidates_of_due hdue hsince htenant hscan hw
    obtain ⟨_, _, _, heq, -, ⟨-, -, hall⟩ | ⟨_, _, _, -, -, -, _, -, -, -, ⟨h, -⟩ | ⟨_, h, -⟩⟩⟩ :=
      @tryCandidates_cases cfg p.now _ _ _ hc hn hof
    · exact hbusy (hall c hmem)
    all_goals
      rw [hr] at heq
      cases heq
      cases h
  · obtain ⟨-, hnot⟩ | ⟨claimed, rfl⟩ := hcases
    · exact absurd (hidle.decrypts hdec e he) hnot
    · rw [runDeliveryCycle_claimed hclaim]
      obtain ⟨d, hd, ⟨hon, hun⟩, hsome, o, retryAt, hdel⟩ :=
        @delivers_of_claimed cfg _ _ _ _ _ p.doneAt _ (p.result claimed) p.random hc₁ he hactive hfree hone
          (ha claimed)
      refine .inl ⟨hsome, ?_⟩
      rw [← hidle.work]
      exact hdel.work_lt he hactive hd hc₁.deliveryIds hon hun

/-! ### An expansion -/

theorem tryTenants_cases : ∀ {tenantIds : List Uuid}, (∃ t ∈ tenantIds, ∃ e, selectEvent st t = some e ∧
    tryTenants now st tenantIds = (expandSource st now (.event e), true)) ∨
    tryTenants now st tenantIds = (st, false) ∧ ∀ t ∈ tenantIds, selectEvent st t = none := by
  intro tenantIds
  induction tenantIds with
  | nil => exact .inr ⟨rfl, fun _ h => by cases h⟩
  | cons t rest ih =>
      cases he : selectEvent st t with
      | some e => exact .inl ⟨t, List.mem_cons_self, e, he, by simp only [tryTenants, he]⟩
      | none =>
          simp only [tryTenants, he]
          obtain ⟨t', ht', h⟩ | ⟨h, hnone⟩ := ih
          · exact .inl ⟨t', List.mem_cons_of_mem _ ht', h⟩
          · refine .inr ⟨h, fun t' ht' => ?_⟩
            obtain rfl | ht' := List.mem_cons.mp ht'
            · exact he
            · exact hnone t' ht'

/-- An expansion cycle expands an event, unless none is pending. -/
theorem runExpansionCycle_cases : (∃ e ∈ st.events, e.status = .pendingExpansion ∧
    runExpansionCycle now st = (expandSource st now (.event e), true)) ∨
    runExpansionCycle now st = (st, false) ∧ ∀ e ∈ st.events, e.status = .expanded := by
  obtain ⟨t, -, e, he, h⟩ | ⟨h, hnone⟩ :=
    @tryTenants_cases now st (expansionCandidates st)
  · obtain ⟨hmem, hp⟩ := List.mem_filter.mp (List.argmin_mem he)
    simp only [Bool.and_eq_true, decide_eq_true_eq] at hp
    exact .inl ⟨e, hmem, hp.2, h⟩
  · refine .inr ⟨h, fun e he => ?_⟩
    cases hs : e.status with
    | expanded => rfl
    | pendingExpansion =>
        -- its tenant, or one before it, is a candidate
        obtain ⟨t, ht⟩ : ∃ t, t ∈ expansionCandidates st := by
          refine List.exists_mem_of_ne_nil _ fun hnil => ?_
          obtain h | h := List.take_eq_nil_iff.mp hnil
          · cases h
          · have hin : e.tenantId ∈ ((((st.events.filter fun e => e.status = .pendingExpansion).insertionSort
                fun a b => a.seq ≤ b.seq).map (·.tenantId)).eraseDups) :=
              List.mem_eraseDups.mpr (List.mem_map_of_mem ((List.mem_insertionSort _).mpr
                (List.mem_filter.mpr ⟨he, by simp [hs]⟩)))
            rw [h] at hin
            cases hin
        obtain ⟨e', he', rfl⟩ := List.mem_map.mp (List.mem_eraseDups.mp (List.mem_of_mem_take ht))
        obtain ⟨hmem, hp⟩ := List.mem_filter.mp ((List.mem_insertionSort _).mp he')
        have hnil := List.argmin_eq_none.mp (hnone _ ht)
        exact absurd (List.mem_filter.mpr ⟨hmem, by simpa using hp⟩) (hnil ▸ List.not_mem_nil)

theorem tryReplays_cases : ∀ {replayIds : List Uuid}, (∃ i ∈ replayIds, ∃ r, selectReplay st i = some r ∧
    tryReplays cfg w now st replayIds =
      (expandSource st now (.replay r (cfg.readRange w r)), true)) ∨
    tryReplays cfg w now st replayIds = (st, false) ∧ ∀ i ∈ replayIds, selectReplay st i = none := by
  intro replayIds
  induction replayIds with
  | nil => exact .inr ⟨rfl, fun _ h => by cases h⟩
  | cons i rest ih =>
      cases hr : selectReplay st i with
      | some r => exact .inl ⟨i, List.mem_cons_self, r, hr, by simp only [tryReplays, hr]⟩
      | none =>
          simp only [tryReplays, hr]
          obtain ⟨i', hi', h⟩ | ⟨h, hnone⟩ := ih
          · exact .inl ⟨i', List.mem_cons_of_mem _ hi', h⟩
          · refine .inr ⟨h, fun i' hi' => ?_⟩
            obtain rfl | hi' := List.mem_cons.mp hi'
            · exact hr
            · exact hnone i' hi'

/-- A replay expansion cycle expands a replay, unless none is pending. -/
theorem runReplayExpansionCycle_cases : (∃ r ∈ st.replays, r.status = .pendingExpansion ∧
    runReplayExpansionCycle cfg w now st =
      (expandSource st now (.replay r (cfg.readRange w r)), true)) ∨
    runReplayExpansionCycle cfg w now st = (st, false) ∧ ∀ r ∈ st.replays, r.status = .expanded := by
  obtain ⟨i, -, r, hr, h⟩ | ⟨h, hnone⟩ := @tryReplays_cases cfg now st w (replayCandidates st)
  · have hp := List.find?_some hr
    simp only [Bool.and_eq_true, decide_eq_true_eq] at hp
    exact .inl ⟨r, List.mem_of_find?_eq_some hr, hp.2, h⟩
  · refine .inr ⟨h, fun r hr => ?_⟩
    cases hs : r.status with
    | expanded => rfl
    | pendingExpansion =>
        obtain ⟨i, hi⟩ : ∃ i, i ∈ replayCandidates st := by
          refine List.exists_mem_of_ne_nil _ fun hnil => ?_
          obtain h | h := List.take_eq_nil_iff.mp hnil
          · cases h
          · have hin : r.id ∈ ((st.replays.filter fun r => r.status = .pendingExpansion).insertionSort
                fun a b => a.createdAt ≤ b.createdAt).map (·.id) :=
              List.mem_map_of_mem ((List.mem_insertionSort _).mpr (List.mem_filter.mpr ⟨hr, by simp [hs]⟩))
            rw [h] at hin
            cases hin
        obtain ⟨r', hr', rfl⟩ := List.mem_map.mp (List.mem_of_mem_take hi)
        obtain ⟨hmem, hp⟩ := List.mem_filter.mp ((List.mem_insertionSort _).mp hr')
        have hno := List.find?_eq_none.mp (hnone _ hi) r' hmem
        exact absurd (by simpa using hp : r'.status = .pendingExpansion) (by simpa using hno)

/-- The events and replays that wait for their expansion. -/
def Store.waiting (st : Store) : Nat :=
  st.events.countP (fun e => e.status = .pendingExpansion) +
    st.replays.countP fun r => r.status = .pendingExpansion

theorem expandSource_waiting_event {ev : Event} (he : ev ∈ st.events) (hs : ev.status = .pendingExpansion) :
    (expandSource st now (.event ev)).waiting < st.waiting := by
  refine Nat.add_lt_add_right ?_ _
  exact Table.countP_update_lt (f := fun e' : Event => { e' with status := .expanded }) (fun _ => rfl) he
    (decide_eq_true rfl) (decide_eq_true hs)

theorem expandSource_waiting_replay {row : Replay} (hr : row ∈ st.replays) (hs : row.status = .pendingExpansion) :
    (expandSource st now (.replay row range)).waiting < st.waiting := by
  refine Nat.add_lt_add_left ?_ _
  exact Table.countP_update_lt (f := fun r' : Replay => { r' with status := .expanded }) (fun _ => rfl) hr
    (decide_eq_true rfl) (decide_eq_true hs)

end

end Webhooks
