import Webhooks.Protocol.Exclusion

/-!
# Protocol — Alone

A claim run alone: nothing happens between its statements.

* `Endpoint.HasWork`: the endpoint is active, free or stale, and its lowest unresolved delivery is
  due.
* `tryClaimEndpoint_fetchHead`: how a claim of a free or stale endpoint comes to its head query.
* **`tryClaimEndpoint_due`**, **`tryClaimEndpoint_blocked`**: with work it returns the lowest
  unresolved delivery, unless a secret does not decrypt; without it returns nothing, and leaves the
  other endpoints as they are.
* **`tryCandidates_cases`**: the loop stops at the first candidate with work.
* `claimDelivery_steps`: `claimDelivery` run alone is a run of the worker's own steps.
-/

namespace Webhooks

open Lib

/-! ### Work -/

/-- The delivery is the lowest unresolved one of the endpoint. -/
def Delivery.IsHead (st : Store) (endpointId : Uuid) (d : Delivery) : Prop :=
  (d.endpointId = endpointId ∧ d.state.isTerminal = false) ∧
    ∀ d' ∈ st.deliveries, d'.endpointId = endpointId → d'.state.isTerminal = false → d.seq ≤ d'.seq

instance (st : Store) (endpointId : Uuid) (d : Delivery) : Decidable (d.IsHead st endpointId) := by
  unfold Delivery.IsHead; exact inferInstance

/-- A claim at `now` can deliver something of the endpoint. -/
def Endpoint.HasWork (st : Store) (now cutoff : Time) (e : Endpoint) : Prop :=
  (e.status = .active ∧ e.isFree cutoff = true) ∧
    ∃ d ∈ st.deliveries, d.IsHead st e.id ∧ d.nextAttemptAt ≤ now

instance (st : Store) (now cutoff : Time) (e : Endpoint) : Decidable (e.HasWork st now cutoff) := by
  unfold Endpoint.HasWork; exact inferInstance

/-- What the keys of the tables and the claims keep of the rows a claim reads. -/
structure Store.Coherent (st : Store) : Prop where
  endpointIds : (st.endpoints.map (·.id)).Nodup
  deliveryIds : (st.deliveries.map (·.id)).Nodup
  deliverySeqs : (st.deliveries.map (·.seq)).Nodup
  linked : ∀ d ∈ st.deliveries, d.IsLinked st
  one : ∀ d ∈ st.deliveries, ∀ d' ∈ st.deliveries, d.endpointId = d'.endpointId →
    d.state = .inFlight → d'.state = .inFlight → d.id = d'.id
  free : ∀ e ∈ st.endpoints, e.busy = false → NoneInFlight st e.id

/-- Everything of the other endpoints is as it was. -/
structure SameBeside (id : Uuid) (st st' : Store) : Prop where
  endpoints : ∀ e : Endpoint, e.id ≠ id → (e ∈ st'.endpoints ↔ e ∈ st.endpoints)
  deliveries : ∀ d : Delivery, d.endpointId ≠ id → (d ∈ st'.deliveries ↔ d ∈ st.deliveries)

/-- The stored secrets of the endpoint decrypt. -/
def Endpoint.Decrypts (cfg : Config) (e : Endpoint) : Prop :=
  (cfg.decryptSecret e.signingSecret).isSome = true ∧
    ∀ secret, e.secondarySecret = some secret → (cfg.decryptSecret secret).isSome = true

section

variable {cfg : Config} {now : Time} {st : Store} {c : Claim} {d : Delivery} {e : Endpoint}
  {endpointId : Uuid} {head : DeliveryRow} {s : Sys} {tenants : List Tenant}

/-! ### From the head query on -/

/-- The secrets of the head are those of its endpoint. -/
theorem fetchHead_secrets (h : fetchHead st endpointId = some head) :
    ∃ e ∈ st.endpoints, e.id = endpointId ∧ head.signingSecret = e.signingSecret ∧
      head.secondarySecret = e.secondarySecret ∧
      head.secondarySecretExpiresAt = e.secondarySecretExpiresAt := by
  obtain ⟨⟨n, row⟩, hm, rfl⟩ := Option.map_eq_some_iff.mp h
  obtain ⟨d, -, hj⟩ := List.mem_filterMap.mp (List.argmin_mem hm)
  simp only [joinHead] at hj
  split at hj
  · next hc =>
      obtain ⟨ev, -, hj⟩ := Option.bind_eq_some_iff.mp hj
      obtain ⟨e, he, hj⟩ := Option.map_eq_some_iff.mp hj
      cases hj
      simp only [Bool.and_eq_true, decide_eq_true_eq] at hc
      refine ⟨e, List.mem_of_find?_eq_some he, ?_, rfl, rfl, rfl⟩
      rw [← hc.1]
      simpa using List.find?_some he
  · cases hj

theorem decryptSecrets_isSome (h : e.Decrypts cfg) (hs : head.signingSecret = e.signingSecret)
    (hs' : head.secondarySecret = e.secondarySecret) :
    ∃ secrets, decryptSecrets cfg now head = some secrets := by
  obtain ⟨x, hx⟩ := Option.isSome_iff_exists.mp h.1
  simp only [decryptSecrets, hs, hx, Option.bind_some]
  rcases hsec : head.secondarySecret with _ | secret
  · exact ⟨_, rfl⟩
  rcases head.secondarySecretExpiresAt with _ | expiresAt
  · exact ⟨_, rfl⟩
  -- only a secondary secret that has not expired is opened
  by_cases hexp : now < expiresAt
  · obtain ⟨y, hy⟩ := Option.isSome_iff_exists.mp (h.2 secret (by rw [← hs', hsec]))
    exact ⟨(x, some y), by simp [hexp, hy]⟩
  · exact ⟨(x, none), by simp [hexp]⟩

/-- With the lowest pending delivery due, a claim that has come to the head query returns it,
unless a secret of its endpoint does not decrypt. -/
theorem claimLoop_due (n : Nat) (hl : ∀ d ∈ st.deliveries, d.IsLinked st)
    (hseq : (st.deliveries.map (·.seq)).Nodup) (hd : d ∈ st.deliveries)
    (he : d.endpointId = c.candidate.id) (hs : d.state = .pending)
    (hmin : ∀ d' ∈ st.deliveries, d'.endpointId = c.candidate.id → d'.state = .pending → d.seq ≤ d'.seq)
    (hdue : d.nextAttemptAt ≤ now) :
    ∃ st' r, claimLoop cfg now c (n + 5) st .fetchHead = (st', r) ∧
      ((r = .threw ∧ ∃ e ∈ st.endpoints, e.id = c.candidate.id ∧ ¬ e.Decrypts cfg) ∨
        ∃ claimed, r = .claimed claimed ∧ claimed.deliveryId = d.id ∧
          claimed.endpointId = c.candidate.id ∧ claimed.tenantId = c.candidate.tenantId) := by
  rcases hf : fetchHead st c.candidate.id with _ | head
  · exact absurd hs (fetchHead_eq_none hl hf d hd he)
  obtain ⟨d', hd', ⟨he', hs'⟩, hof, hmin'⟩ := fetchHead_eq_some hl hf
  obtain rfl : d' = d :=
    Table.eq_of_key hseq hd' hd (le_antisymm (hmin' d hd he hs) (hmin d' hd' he' hs'))
  have hdue' : ¬ now < head.nextAttemptAt := by
    rw [hof.nextAttemptAt]
    exact not_lt.mpr hdue
  obtain ⟨e, hmem, hid, hsig, hsec, -⟩ := fetchHead_secrets hf
  -- the head query, the check, the two writes and the return
  rcases hx : decryptSecrets cfg now head with _ | ⟨x, y⟩
  · simp only [claimLoop, claimStep, hf, hdue', if_false, hx]
    refine ⟨_, _, rfl, .inl ⟨rfl, e, hmem, hid, fun hdec => ?_⟩⟩
    obtain ⟨secrets, hsome⟩ : ∃ secrets, decryptSecrets cfg now head = some secrets :=
      decryptSecrets_isSome hdec hsig hsec
    rw [hx] at hsome
    cases hsome
  · simp only [claimLoop, claimStep, hf, hdue', if_false, hx]
    exact ⟨_, _, rfl, .inr ⟨_, rfl, hof.id, rfl, rfl⟩⟩

/-- With nothing pending, or the lowest pending delivery not due, it releases the endpoint and
returns nothing. -/
theorem claimLoop_blocked (n : Nat) (hl : ∀ d ∈ st.deliveries, d.IsLinked st)
    (h : ∀ d ∈ st.deliveries, d.endpointId = c.candidate.id → d.state = .pending →
      (∀ d' ∈ st.deliveries, d'.endpointId = c.candidate.id → d'.state = .pending → d.seq ≤ d'.seq) →
      now < d.nextAttemptAt) :
    claimLoop cfg now c (n + 5) st .fetchHead =
      (releaseLease st c.candidate.id c.leaseId, .none) := by
  rcases hf : fetchHead st c.candidate.id with _ | head
  · simp only [claimLoop, claimStep, hf]
  · obtain ⟨d, hd, ⟨he, hs⟩, hof, hmin⟩ := fetchHead_eq_some hl hf
    have hlt : now < head.nextAttemptAt := by
      rw [hof.nextAttemptAt]
      exact h d hd he hs hmin
    simp only [claimLoop, claimStep, hf, hlt, if_true]

/-! ### From the claiming update to the head query -/

theorem claimLoop_next {st' : Store} {next next' : ClaimStep} (n : Nat)
    (h : claimStep cfg now st c next = (st', .next next')) :
    claimLoop cfg now c (n + 1) st next = claimLoop cfg now c n st' next' := by
  simp only [claimLoop, h]

/-- A claim of an endpoint seen busy closes the orphan and requeues it on its way to the head
query. -/
theorem claimLoop_reclaim {st' : Store} (n : Nat) (hb : c.candidate.busy = true)
    (h : closeOrphans (touchTenant st now c.candidate.tenantId) c.candidate.id = some st') :
    claimLoop cfg now c (n + 3) st .touchTenant =
      claimLoop cfg now c n (requeueInFlight st' c.candidate.id) .fetchHead := by
  have h₁ : claimStep cfg now st c .touchTenant =
      (touchTenant st now c.candidate.tenantId, .next .closeOrphans) := by simp [claimStep, hb]
  have h₂ : claimStep cfg now (touchTenant st now c.candidate.tenantId) c .closeOrphans =
      (st', .next .requeue) := by simp [claimStep, h]
  rw [claimLoop_next (n + 2) h₁, claimLoop_next (n + 1) h₂]
  exact claimLoop_next n rfl

/-- The claiming `UPDATE` takes an active endpoint that is free or stale. -/
theorem claimEndpoint_isSome {cutoff : Time} (he : e ∈ st.endpoints) (hactive : e.status = .active)
    (hfree : e.isFree cutoff = true) :
    claimEndpoint st now e.id cutoff =
      (some st.uuids, { st with
        endpoints := Table.update (Endpoint.isClaimable e.id cutoff)
          (fun e => { e with busy := true, busySince := some now, leaseId := some st.uuids })
          st.endpoints
        uuids := st.uuids + 1 }) := by
  have hany : st.endpoints.any (Endpoint.isClaimable e.id cutoff) = true :=
    List.any_eq_true.mpr ⟨e, he, by simp [Endpoint.isClaimable, hactive, hfree]⟩
  simp [claimEndpoint, hany]

/-- A delivery row after the requeue. -/
def Delivery.requeued (endpointId : Uuid) (d : Delivery) : Delivery :=
  if d.isInFlightOn endpointId then { d with state := .pending } else d

theorem Delivery.requeued_identity (endpointId : Uuid) (d : Delivery) :
    (d.requeued endpointId).id = d.id ∧ (d.requeued endpointId).eventId = d.eventId ∧
      (d.requeued endpointId).endpointId = d.endpointId ∧ (d.requeued endpointId).seq = d.seq ∧
      (d.requeued endpointId).nextAttemptAt = d.nextAttemptAt := by
  simp only [Delivery.requeued]
  split <;> exact ⟨rfl, rfl, rfl, rfl, rfl⟩

/-- After the requeue the unresolved deliveries of the endpoint are the pending ones. -/
theorem Delivery.requeued_pending (h : d.endpointId = endpointId) :
    (d.requeued endpointId).state = .pending ↔ d.state.isTerminal = false := by
  cases hs : d.state <;>
    simp [Delivery.requeued, Delivery.isInFlightOn, h, hs, DeliveryState.isTerminal]

/-- An endpoint row after the claiming `UPDATE` decrypts as the one before. -/
theorem decrypts_of_claim {cutoff : Time} (hn : (st.endpoints.map (·.id)).Nodup)
    (he : e ∈ st.endpoints) (hdec : e.Decrypts cfg) {e' : Endpoint} (hid : e'.id = e.id)
    (he' : e' ∈ Table.update (Endpoint.isClaimable e.id cutoff)
      (fun e => { e with busy := true, busySince := some now, leaseId := some st.uuids })
      st.endpoints) : e'.Decrypts cfg := by
  rcases Table.mem_update_cases he' with ⟨he', -⟩ | ⟨e₁, he₁, hp, rfl⟩
  · obtain rfl : e' = e := Table.eq_of_key hn he' he hid
    exact hdec
  · obtain rfl : e₁ = e := Table.eq_of_key hn he₁ he hid
    exact hdec

/-! ### A claim of a free or stale endpoint -/

/-- Such a claim comes to its head query with the endpoint's unresolved deliveries all pending. -/
theorem tryClaimEndpoint_fetchHead {cutoff : Time} (hc : st.Coherent) (he : e ∈ st.endpoints)
    (hactive : e.status = .active) (hfree : e.isFree cutoff = true) :
    ∃ n st₁, tryClaimEndpoint cfg now st ⟨e.id, e.tenantId, e.busy⟩ cutoff =
        claimLoop cfg now ⟨⟨e.id, e.tenantId, e.busy⟩, [], cutoff, st.uuids, now⟩ (n + 5) st₁
          .fetchHead ∧
      st₁.deliveries = st.deliveries.map (Delivery.requeued e.id) ∧ st₁.events = st.events ∧
      st₁.endpoints = Table.update (Endpoint.isClaimable e.id cutoff)
        (fun e => { e with busy := true, busySince := some now, leaseId := some st.uuids })
        st.endpoints := by
  simp only [tryClaimEndpoint, claimEndpoint_isSome he hactive hfree]
  cases hbusy : e.busy with
  | false =>
      refine ⟨2, _, rfl, ?_, rfl, rfl⟩
      -- nothing is in flight, so there is nothing to requeue
      refine ((List.map_congr_left fun d hd => ?_).trans (List.map_id _)).symm
      have : d.isInFlightOn e.id = false := by
        simpa [Delivery.isInFlightOn] using hc.free e he hbusy d hd
      simp [Delivery.requeued, this]
  | true =>
      obtain ⟨st₃, h₃⟩ : ∃ st₃, closeOrphans (touchTenant { st with
          endpoints := Table.update (Endpoint.isClaimable e.id cutoff)
            (fun e => { e with busy := true, busySince := some now, leaseId := some st.uuids })
            st.endpoints
          uuids := st.uuids + 1 } now e.tenantId) e.id = some st₃ :=
        closeOrphans_isSome hc.deliveryIds hc.one
      obtain ⟨hep, hdel, -, -, hev⟩ := closeOrphans_endpoints h₃
      refine ⟨0, _, claimLoop_reclaim 5 rfl h₃, ?_, hev, hep⟩
      show Table.update _ _ st₃.deliveries = _
      rw [hdel]
      rfl

/-- The rows of the requeued store are linked, with the same sequence values. -/
theorem Store.Coherent.requeued {st₁ : Store} {p : Endpoint → Bool} {f : Endpoint → Endpoint}
    (hc : st.Coherent) (hdel : st₁.deliveries = st.deliveries.map (Delivery.requeued endpointId))
    (hev : st₁.events = st.events) (hep : st₁.endpoints = Table.update p f st.endpoints)
    (hf : ∀ e, (f e).id = e.id) :
    (∀ d ∈ st₁.deliveries, d.IsLinked st₁) ∧ (st₁.deliveries.map (·.id)).Nodup ∧
      (st₁.deliveries.map (·.seq)).Nodup := by
  refine ⟨fun d' hd' => ?_, ?_, ?_⟩
  · rw [hdel] at hd'
    obtain ⟨d, hd, rfl⟩ := List.mem_map.mp hd'
    obtain ⟨-, hevent, hendpoint, -⟩ := d.requeued_identity endpointId
    obtain ⟨⟨ev, hmem, hid⟩, ep, hmem', hid'⟩ := hc.linked d hd
    refine ⟨⟨ev, hev ▸ hmem, hid.trans hevent.symm⟩, _, hep ▸ Table.mem_update_of_mem hmem', ?_⟩
    rw [hendpoint, ← hid']
    split
    · exact hf ep
    · rfl
  · rw [hdel, List.map_map]
    refine (List.map_congr_left fun d _ => ?_) ▸ hc.deliveryIds
    exact (d.requeued_identity endpointId).1.symm
  · rw [hdel, List.map_map]
    refine (List.map_congr_left fun d _ => ?_) ▸ hc.deliverySeqs
    exact (d.requeued_identity endpointId).2.2.2.1.symm

/-- With its head due, the claim returns the head, unless a secret does not decrypt. -/
theorem tryClaimEndpoint_due {cutoff : Time} (hc : st.Coherent) (he : e ∈ st.endpoints)
    (hactive : e.status = .active) (hfree : e.isFree cutoff = true) (hd : d ∈ st.deliveries)
    (hhead : d.IsHead st e.id) (hdue : d.nextAttemptAt ≤ now) :
    ∃ st' r, tryClaimEndpoint cfg now st ⟨e.id, e.tenantId, e.busy⟩ cutoff = (st', r) ∧
      ((r = .threw ∧ ¬ e.Decrypts cfg) ∨
        ∃ claimed, r = .claimed claimed ∧ claimed.deliveryId = d.id ∧ claimed.endpointId = e.id ∧
          claimed.tenantId = e.tenantId) := by
  obtain ⟨n, st₁, heq, hdel, hev, hep⟩ :=
    @tryClaimEndpoint_fetchHead cfg now st e cutoff hc he hactive hfree
  obtain ⟨hlinked, -, hseqs⟩ := hc.requeued hdel hev hep fun _ => rfl
  obtain ⟨⟨hde, hun⟩, hlow⟩ := hhead
  obtain ⟨hid, -, heid, hseq, hnext⟩ := d.requeued_identity e.id
  have hmem : d.requeued e.id ∈ st₁.deliveries := by
    rw [hdel]
    exact List.mem_map_of_mem hd
  obtain ⟨st', r, hr, hcases⟩ := @claimLoop_due cfg now st₁
    ⟨⟨e.id, e.tenantId, e.busy⟩, [], cutoff, st.uuids, now⟩ (d.requeued e.id) n hlinked hseqs hmem
    (heid.trans hde) ((Delivery.requeued_pending hde).mpr hun) (fun d' hd' he' hs => by
      rw [hdel] at hd'
      obtain ⟨d₀, hd₀, rfl⟩ := List.mem_map.mp hd'
      obtain ⟨-, -, hee, hsq, -⟩ := d₀.requeued_identity e.id
      rw [hee] at he'
      rw [hseq, hsq]
      exact hlow d₀ hd₀ he' ((Delivery.requeued_pending he').mp hs)) (hnext.trans_le hdue)
  refine ⟨st', r, heq.trans hr, ?_⟩
  rcases hcases with ⟨rfl, e', he', hid', hdec⟩ | ⟨claimed, rfl, hdid, heid', htid⟩
  · refine .inl ⟨rfl, fun hdec' => hdec ?_⟩
    exact decrypts_of_claim hc.endpointIds he hdec' hid' (hep ▸ he')
  · exact .inr ⟨claimed, rfl, hdid.trans hid, heid', htid⟩

/-- Without work, it returns nothing and leaves everything of the other endpoints as it was. -/
theorem tryClaimEndpoint_blocked {cutoff : Time} (hc : st.Coherent) (he : e ∈ st.endpoints)
    (hactive : e.status = .active) (hfree : e.isFree cutoff = true)
    (hno : ¬ e.HasWork st now cutoff) :
    ∃ st', tryClaimEndpoint cfg now st ⟨e.id, e.tenantId, e.busy⟩ cutoff = (st', .none) ∧
      st'.Coherent ∧ SameBeside e.id st st' := by
  obtain ⟨n, st₁, heq, hdel, hev, hep⟩ :=
    @tryClaimEndpoint_fetchHead cfg now st e cutoff hc he hactive hfree
  obtain ⟨hlinked, hids, hseqs⟩ := hc.requeued hdel hev hep fun _ => rfl
  have hback : ∀ d' ∈ st₁.deliveries, ∃ d ∈ st.deliveries, d.requeued e.id = d' := by
    intro d' hd'
    rw [hdel] at hd'
    exact List.mem_map.mp hd'
  have hblocked := @claimLoop_blocked cfg now st₁
    ⟨⟨e.id, e.tenantId, e.busy⟩, [], cutoff, st.uuids, now⟩ n hlinked (fun d' hd' he' hs hmin => by
      -- the lowest pending delivery of the requeued store is the head, and the head is not due
      obtain ⟨d, hd, rfl⟩ := hback d' hd'
      obtain ⟨-, -, hee, hsq, hnext⟩ := d.requeued_identity e.id
      rw [hee] at he'
      rw [hnext]
      refine not_le.mp fun hdue => hno ⟨⟨hactive, hfree⟩, d, hd, ⟨⟨he', ?_⟩, fun d₀ hd₀ he₀ hs₀ => ?_⟩, hdue⟩
      · exact (Delivery.requeued_pending he').mp hs
      · obtain ⟨-, -, hee₀, hsq₀, -⟩ := d₀.requeued_identity e.id
        rw [← hsq, ← hsq₀]
        exact hmin _ (hdel ▸ List.mem_map_of_mem hd₀) (hee₀.trans he₀)
          ((Delivery.requeued_pending he₀).mpr hs₀))
  obtain ⟨p, hp, f, hf, hend⟩ : ∃ p, (∀ e', p e' = true → e'.id = e.id) ∧
      ∃ f : Endpoint → Endpoint, (∀ e', (f e').id = e'.id) ∧
        (releaseLease st₁ e.id st.uuids).endpoints = Table.update p Endpoint.released
          (Table.update (Endpoint.isClaimable e.id cutoff) f st.endpoints) := by
    refine ⟨fun e' => e'.id = e.id && e'.leaseId = some st.uuids, fun e' h => ?_, _, ?_,
      congrArg (Table.update _ _) hep⟩
    · simp only [Bool.and_eq_true, decide_eq_true_eq] at h
      exact h.1
    · exact fun _ => rfl
  have hclaim : ∀ e', Endpoint.isClaimable e.id cutoff e' = true → e'.id = e.id := by
    intro e' h
    simp only [Endpoint.isClaimable, Bool.and_eq_true, decide_eq_true_eq] at h
    exact h.1.1
  have hrel : ∀ e' : Endpoint, e'.released.id = e'.id := fun _ => rfl
  have hbeside : SameBeside e.id st (releaseLease st₁ e.id st.uuids) := by
    refine ⟨fun e' hne => ?_, fun d hne => ?_⟩
    · rw [hend, Table.mem_update_iff_of_ne Endpoint.id hne hp hrel]
      exact Table.mem_update_iff_of_ne Endpoint.id hne hclaim hf
    · show d ∈ st₁.deliveries ↔ _
      rw [hdel]
      refine Table.mem_update_iff_of_ne Delivery.endpointId hne (fun d' h => ?_) fun _ => rfl
      simp only [Delivery.isInFlightOn, Bool.and_eq_true, decide_eq_true_eq] at h
      exact h.1
  have hnone : NoneInFlight (releaseLease st₁ e.id st.uuids) e.id := by
    intro d' hd' he' hs
    obtain ⟨d, hd, rfl⟩ := hback d' hd'
    rw [(d.requeued_identity e.id).2.2.1] at he'
    cases hsd : d.state <;> simp [Delivery.requeued, Delivery.isInFlightOn, he', hsd] at hs
  have hids' : (releaseLease st₁ e.id st.uuids).endpoints.map (·.id) = st.endpoints.map (·.id) := by
    rw [hend]
    exact (Table.map_update hrel).trans (Table.map_update hf)
  refine ⟨_, heq.trans hblocked, ⟨hids' ▸ hc.endpointIds, hids, hseqs, fun d hd => ?_, ?_, ?_⟩, hbeside⟩
  · obtain ⟨hev', ep, hmem, hid⟩ := hlinked d hd
    exact ⟨hev', _, Table.mem_update_of_mem hmem, (by split <;> rfl : _ = ep.id).trans hid⟩
  · intro d₁ hd₁ d₂ hd₂ heid hs₁ hs₂
    by_cases hde : d₁.endpointId = e.id
    · exact absurd hs₁ (hnone d₁ hd₁ hde)
    · exact hc.one d₁ ((hbeside.deliveries d₁ hde).mp hd₁) d₂
        ((hbeside.deliveries d₂ (heid ▸ hde)).mp hd₂) heid hs₁ hs₂
  · intro e' he' hb
    by_cases hid : e'.id = e.id
    · rw [hid]
      exact hnone
    · intro d hd hde
      exact hc.free e' ((hbeside.endpoints e' hid).mp he') hb d
        ((hbeside.deliveries d (hde ▸ hid)).mp hd) hde

/-! ### The loop over the candidates -/

theorem SameBeside.hasWork {cutoff : Time} {st' : Store} (h : SameBeside endpointId st st')
    (hne : e.id ≠ endpointId) : e.HasWork st' now cutoff ↔ e.HasWork st now cutoff := by
  have hrow : ∀ d : Delivery, d.endpointId = e.id → (d ∈ st'.deliveries ↔ d ∈ st.deliveries) :=
    fun d hd => h.deliveries d (hd ▸ hne)
  have hhead : ∀ d : Delivery, d.IsHead st' e.id ↔ d.IsHead st e.id := by
    intro d
    refine and_congr_right fun _ => ?_
    exact ⟨fun hlow d' hd' he' => hlow d' ((hrow d' he').mpr hd') he',
      fun hlow d' hd' he' => hlow d' ((hrow d' he').mp hd') he'⟩
  refine and_congr_right fun _ => ⟨?_, ?_⟩
  · rintro ⟨d, hd, hd', hdue⟩
    exact ⟨d, (hrow d hd'.1.1).mp hd, (hhead d).mp hd', hdue⟩
  · rintro ⟨d, hd, hd', hdue⟩
    exact ⟨d, (hrow d hd'.1.1).mpr hd, (hhead d).mpr hd', hdue⟩

/-- After its first statement a claim writes no tenant. -/
theorem claimLoop_tenants (n : Nat) : ∀ {st : Store} {next : ClaimStep}, next ≠ .touchTenant →
    (claimLoop cfg now c n st next).1.tenants = st.tenants := by
  induction n with
  | zero => intro st next _; rfl
  | succ n ih =>
      intro st next hne
      have hkeep : (claimStep cfg now st c next).1.tenants = st.tenants ∧
          (claimStep cfg now st c next).2 ≠ .next .touchTenant := by
        cases next with
        | touchTenant => exact absurd rfl hne
        | closeOrphans =>
            simp only [claimStep]
            cases ho : closeOrphans st c.candidate.id with
            | none => exact ⟨rfl, by simp⟩
            | some st' =>
                refine ⟨?_, by simp⟩
                simp only [closeOrphans] at ho
                split at ho <;> cases ho <;> rfl
        | checkHead head =>
            cases head with
            | none => exact ⟨rfl, fun h => by cases h⟩
            | some head =>
                refine ⟨rfl, ?_⟩
                simp only [claimStep]
                split <;> simp
        | finish head =>
            simp only [claimStep]
            cases decryptSecrets cfg now head <;> exact ⟨rfl, by simp⟩
        | requeue | fetchHead | release | insertAttempt | markInFlight => exact ⟨rfl, fun h => by cases h⟩
      rcases hs : claimStep cfg now st c next with ⟨st', next' | _ | _ | _⟩
      · rw [hs] at hkeep
        simp only [claimLoop, hs]
        exact (ih fun h => hkeep.2 (by rw [h])).trans hkeep.1
      all_goals
        rw [hs] at hkeep
        simp only [claimLoop, hs]
        exact hkeep.1

/-- A claim whose claiming `UPDATE` succeeds writes its tenant's `last_served_at`, whatever it
returns. -/
theorem tryClaimEndpoint_tenants {cutoff : Time} (he : e ∈ st.endpoints) (hactive : e.status = .active)
    (hfree : e.isFree cutoff = true) :
    (tryClaimEndpoint cfg now st ⟨e.id, e.tenantId, e.busy⟩ cutoff).1.tenants =
      (touchTenant st now e.tenantId).tenants := by
  simp only [tryClaimEndpoint, claimEndpoint_isSome he hactive hfree]
  refine (congrArg (Store.tenants ∘ Prod.fst) (claimLoop_next 7 rfl)).trans ?_
  refine claimLoop_tenants 7 ?_
  cases e.busy <;> nofun

/-- The candidate's endpoint has no work. -/
def CandidateRow.IsIdle (st : Store) (now cutoff : Time) (c : CandidateRow) : Prop :=
  ∀ e ∈ st.endpoints, e.id = c.id → ¬ e.HasWork st now cutoff

/-- The candidate is a row of the store that the query lets through. -/
def CandidateRow.IsOf (st : Store) (cutoff : Time) (c : CandidateRow) : Prop :=
  ∃ e ∈ st.endpoints, c = ⟨e.id, e.tenantId, e.busy⟩ ∧ e.status = .active ∧ e.isFree cutoff = true

/-- `UPDATE tenants SET last_served_at = now()` for the tenants of some candidates. -/
def touchTenants (now : Time) (cs : List CandidateRow) (tenants : List Tenant) : List Tenant :=
  Table.update (fun t => cs.any fun c => c.tenantId = t.id)
    (fun t => { t with lastServedAt := some now }) tenants

theorem touchTenants_cons {tenants : List Tenant} (c : CandidateRow) (cs : List CandidateRow) :
    touchTenants now cs (Table.update (fun t => t.id = c.tenantId)
      (fun t => { t with lastServedAt := some now }) tenants) = touchTenants now (c :: cs) tenants := by
  simp only [touchTenants, Table.update, List.map_map]
  refine List.map_congr_left fun t _ => ?_
  by_cases ht : t.id = c.tenantId
  · simp [ht]
  · simp [ht, Ne.symm ht]

/-- The loop tries the candidates until the first with work.  That one yields a delivery, or throws
when a secret does not decrypt.  Every tenant whose endpoint was tried is touched. -/
theorem tryCandidates_cases {cutoff : Time} : ∀ {cs : List CandidateRow} {st : Store}, st.Coherent →
    (cs.map (·.id)).Nodup → (∀ c ∈ cs, c.IsOf st cutoff) →
    ∃ st' r tried, tryCandidates cfg now cutoff st cs = (st', r) ∧
      st'.tenants = touchTenants now tried st.tenants ∧
      ((r = .none ∧ tried = cs ∧ ∀ c ∈ cs, c.IsIdle st now cutoff) ∨
        ∃ pre c rest, cs = pre ++ c :: rest ∧ tried = pre ++ [c] ∧
          (∀ c ∈ pre, c.IsIdle st now cutoff) ∧
          ∃ e ∈ st.endpoints, c = ⟨e.id, e.tenantId, e.busy⟩ ∧ e.HasWork st now cutoff ∧
            ((r = .threw ∧ ¬ e.Decrypts cfg) ∨ ∃ claimed, r = .claimed claimed ∧
              claimed.endpointId = e.id ∧ claimed.tenantId = e.tenantId)) := by
  intro cs
  induction cs with
  | nil =>
      intro st _ _ _
      exact ⟨st, .none, [], rfl, (Table.update_eq_self fun _ _ => rfl).symm, .inl ⟨rfl, rfl, nofun⟩⟩
  | cons c cs ih =>
      intro st hc hn hof
      obtain ⟨e, he, rfl, hactive, hfree⟩ := hof c List.mem_cons_self
      obtain ⟨hnew, hn⟩ := List.nodup_cons.mp hn
      have htouch := @tryClaimEndpoint_tenants cfg now st e cutoff he hactive hfree
      by_cases hw : e.HasWork st now cutoff
      · obtain ⟨-, d, hd, hhead, hdue⟩ := hw
        obtain ⟨st', r, hr, hcases⟩ :=
          @tryClaimEndpoint_due cfg now st d e cutoff hc he hactive hfree hd hhead hdue
        have hne : r ≠ .none := by
          rcases hcases with ⟨rfl, -⟩ | ⟨claimed, rfl, -⟩ <;> nofun
        refine ⟨st', r, [⟨e.id, e.tenantId, e.busy⟩], ?_, ?_, .inr ⟨[], _, cs, rfl, rfl, nofun, e, he,
          rfl, ⟨⟨hactive, hfree⟩, d, hd, hhead, hdue⟩, ?_⟩⟩
        · cases r with
          | none => exact absurd rfl hne
          | next | claimed | threw => simp only [tryCandidates, hr]
        · rw [hr] at htouch
          refine htouch.trans (Eq.trans ?_ (touchTenants_cons ⟨e.id, e.tenantId, e.busy⟩ []))
          exact (Table.update_eq_self fun _ _ => rfl).symm
        · rcases hcases with h | ⟨claimed, hr, -, hid, htid⟩
          · exact .inl h
          · exact .inr ⟨claimed, hr, hid, htid⟩
      · obtain ⟨st₁, hr, hc₁, hbeside⟩ :=
          @tryClaimEndpoint_blocked cfg now st e cutoff hc he hactive hfree hw
        have hother : ∀ c ∈ cs, c.id ≠ e.id :=
          fun c hmem hid => hnew (List.mem_map.mpr ⟨c, hmem, hid⟩)
        have hidle : ∀ c ∈ cs, c.IsIdle st₁ now cutoff → c.IsIdle st now cutoff := by
          intro c hmem hi e' he' hid hw'
          have hne : e'.id ≠ e.id := hid ▸ hother c hmem
          exact hi e' ((hbeside.endpoints e' hne).mpr he') hid ((hbeside.hasWork hne).mpr hw')
        have hself : ∀ e' ∈ st.endpoints, e'.id = e.id → ¬ e'.HasWork st now cutoff := by
          intro e' he' hid
          rw [Table.eq_of_key hc.endpointIds he' he hid]
          exact hw
        obtain ⟨st', r, tried, hr', htenants, hcases⟩ := ih hc₁ hn fun c hmem => by
          obtain ⟨e', he', rfl, h⟩ := hof c (List.mem_cons_of_mem _ hmem)
          exact ⟨e', (hbeside.endpoints e' (hother _ hmem)).mpr he', rfl, h⟩
        refine ⟨st', r, ⟨e.id, e.tenantId, e.busy⟩ :: tried, ?_, ?_, ?_⟩
        · simp only [tryCandidates, hr]
          exact hr'
        · rw [hr] at htouch
          rw [htenants, htouch]
          exact touchTenants_cons ⟨e.id, e.tenantId, e.busy⟩ tried
        · rcases hcases with ⟨rfl, rfl, hall⟩ | ⟨pre, c, rest, rfl, rfl, hpre, e', he', rfl, hw', hret⟩
          · refine .inl ⟨rfl, rfl, fun c hmem => ?_⟩
            rcases List.mem_cons.mp hmem with rfl | hmem
            · exact hself
            · exact hidle c hmem (hall c hmem)
          · have hne : e'.id ≠ e.id :=
              hother ⟨e'.id, e'.tenantId, e'.busy⟩ (List.mem_append_right _ List.mem_cons_self)
            refine .inr ⟨_ :: pre, _, rest, rfl, rfl, fun c hmem => ?_, e',
              (hbeside.endpoints e' hne).mp he', rfl, (hbeside.hasWork hne).mp hw', hret⟩
            rcases List.mem_cons.mp hmem with rfl | hmem
            · exact hself
            · exact hidle c (List.mem_append_left _ hmem) (hpre c hmem)

/-! ### The worker's own steps -/

theorem Sys.setPc_self {w : WorkerId} {pc : Pc} (h : s.pcs w = pc) : s.setPc w pc = s := by
  have hpcs : (fun w' => if w' = w then pc else s.pcs w') = s.pcs := by
    funext w'
    split
    · next hw => rw [hw, h]
    · rfl
  simp only [Sys.setPc, hpcs]

theorem Sys.setPc_setPc {w : WorkerId} {pc pc' : Pc} : (s.setPc w pc).setPc w pc' = s.setPc w pc' := by
  simp only [Sys.setPc]
  congr 1
  funext w'
  split <;> rfl

/-- Only the clock makes claims older. -/
theorem timely_of_worker {l : Label} {s' : Sys} (hl : l.worker.isSome = true)
    (h : step cfg s l = some s') : Reachable (restrict (Timely cfg) (step cfg)) s s' := by
  refine .one (restrict_eq_some.mpr ⟨?_, h⟩)
  cases l with
  | tick ms => cases hl
  | _ => trivial

theorem timely_of_step (w : WorkerId) {s' : Sys} (h : step cfg s (.step w) = some s') :
    Reachable (restrict (Timely cfg) (step cfg)) s s' :=
  timely_of_worker rfl h

/-- The statements of a claim one after the other are steps of its worker. -/
theorem claimLoop_steps {w : WorkerId} {st' : Store} {r : ClaimResult} (n : Nat) :
    ∀ {s : Sys} {next : ClaimStep}, s.pcs w = .claiming c next →
      claimLoop cfg s.now c n s.store next = (st', r) →
      Reachable (restrict (Timely cfg) (step cfg)) s ((s.withStore st').setPc w (.afterClaim c r)) := by
  induction n with
  | zero =>
      intro s next hpc h
      cases h
      exact (Sys.setPc_self (s := s) hpc).symm ▸ .refl s
  | succ n ih =>
      intro s next hpc h
      have hstep := @step_claiming cfg s w c next hpc
      rcases hc : claimStep cfg s.now s.store c next with ⟨st₁, r₁⟩
      rw [hc] at hstep
      simp only [claimLoop, hc] at h
      cases r₁ with
      | next next' =>
          have hr := ih (s := (s.withStore st₁).setPc w (.claiming c next')) (Sys.setPc_pcs_self _) h
          refine (timely_of_step w hstep).trans ?_
          rw [← Sys.setPc_setPc (s := s.withStore st')]
          exact hr
      | none | claimed | threw =>
          cases h
          exact timely_of_step w hstep

/-- What a claim does depends on its own candidate only. -/
theorem claimLoop_rest (rest : List CandidateRow) (n : Nat) : ∀ (st : Store) (next : ClaimStep),
    claimLoop cfg now { c with rest := rest } n st next = claimLoop cfg now c n st next := by
  induction n with
  | zero => intro st next; rfl
  | succ n ih =>
      intro st next
      have hstep : claimStep cfg now st { c with rest := rest } next = claimStep cfg now st c next := by
        cases next with
        | checkHead head => cases head <;> rfl
        | _ => rfl
      simp only [claimLoop, hstep, ih]

/-- An upper bound on the statements a claim still sends. -/
def ClaimStep.remaining : ClaimStep → Nat
  | .touchTenant => 8
  | .closeOrphans => 7
  | .requeue => 6
  | .fetchHead => 5
  | .checkHead _ => 4
  | .insertAttempt _ => 3
  | .markInFlight .. => 2
  | .release | .finish .. => 1

theorem claimStep_remaining {st' : Store} {next next' : ClaimStep}
    (h : claimStep cfg now st c next = (st', .next next')) : next'.remaining < next.remaining := by
  cases next with
  | touchTenant =>
      cases h
      split <;> decide
  | closeOrphans =>
      simp only [claimStep] at h
      split at h <;> cases h
      decide
  | checkHead head =>
      cases head with
      | none => cases h; decide
      | some head =>
          cases h
          split <;> simp only [ClaimStep.remaining] <;> decide
  | finish head =>
      simp only [claimStep] at h
      split at h <;> cases h
  | requeue | fetchHead | insertAttempt | markInFlight => cases h; simp [ClaimStep.remaining]
  | release => cases h

theorem claimLoop_ends (n : Nat) : ∀ {st : Store} {next : ClaimStep}, next.remaining ≤ n →
    ∀ step, (claimLoop cfg now c n st next).2 ≠ .next step := by
  induction n with
  | zero =>
      intro st next hle
      cases next <;> simp [ClaimStep.remaining] at hle
  | succ n ih =>
      intro st next hle
      rcases hs : claimStep cfg now st c next with ⟨st', next' | _ | _ | _⟩
      · simp only [claimLoop, hs]
        exact ih (Nat.le_of_lt_succ ((claimStep_remaining hs).trans_le hle))
      all_goals
        simp only [claimLoop, hs]
        nofun

/-- The eight statements are enough: a claim comes to an end. -/
theorem tryClaimEndpoint_ends {cutoff : Time} {candidate : CandidateRow} (step : ClaimStep) :
    (tryClaimEndpoint cfg now st candidate cutoff).2 ≠ .next step := by
  simp only [tryClaimEndpoint]
  split
  · nofun
  · exact claimLoop_ends 8 (le_refl _) step

/-- `tryClaimEndpoint` run alone is a run of the worker that tries the candidate. -/
theorem tryClaimEndpoint_steps {w : WorkerId} {cutoff : Time} {candidate : CandidateRow}
    {rest : List CandidateRow} {st' : Store} {r : ClaimResult}
    (hpc : s.pcs w = .trying cutoff (candidate :: rest))
    (h : tryClaimEndpoint cfg s.now s.store candidate cutoff = (st', r)) :
    Reachable (restrict (Timely cfg) (step cfg)) s ((s.withStore st').setPc w
      (.afterClaim ⟨candidate, rest, cutoff, s.store.uuids, s.now⟩ r)) := by
  rcases hc : claimEndpoint s.store s.now candidate.id cutoff with ⟨_ | leaseId, st₁⟩
  · simp only [tryClaimEndpoint, hc] at h
    cases h
    refine timely_of_step w ?_
    simp only [step, workerStep, hpc, hc]
    rfl
  · simp only [tryClaimEndpoint, hc] at h
    have hstep : step cfg s (.step w) = some ((s.withStore st₁).setPc w
        (.claiming ⟨candidate, rest, cutoff, leaseId, s.now⟩ .touchTenant)) := by
      simp only [step, workerStep, hpc, hc]
    obtain ⟨rfl, -, -⟩ := claimEndpoint_some hc
    rw [← claimLoop_rest rest] at h
    refine (timely_of_step w hstep).trans ?_
    rw [← Sys.setPc_setPc (s := s.withStore st')]
    exact claimLoop_steps 8 (s := (s.withStore st₁).setPc w _) (Sys.setPc_pcs_self _) h

/-- Where a call of `claimDelivery` leaves its worker. -/
def Pc.afterCall : ClaimResult → Pc
  | .claimed claimed => .holding claimed
  | _ => .idle

theorem tryCandidates_steps {w : WorkerId} {cutoff : Time} : ∀ {cs : List CandidateRow} {s : Sys}
    {st' : Store} {r : ClaimResult}, s.pcs w = .trying cutoff cs →
    tryCandidates cfg s.now cutoff s.store cs = (st', r) →
    Reachable (restrict (Timely cfg) (step cfg)) s ((s.withStore st').setPc w (.afterCall r)) := by
  intro cs
  induction cs with
  | nil =>
      intro s st' r hpc h
      cases h
      refine timely_of_step w ?_
      simp only [step, workerStep, hpc]
      rfl
  | cons c cs ih =>
      intro s st' r hpc h
      rcases hc : tryClaimEndpoint cfg s.now s.store c cutoff with ⟨st₁, r₁⟩
      have hr := tryClaimEndpoint_steps hpc hc
      simp only [tryCandidates, hc] at h
      cases r₁ with
      | none =>
          refine hr.trans ?_
          rw [← Sys.setPc_setPc (s := s.withStore st')]
          exact ih (s := (s.withStore st₁).setPc w (.trying cutoff cs)) (Sys.setPc_pcs_self _) h
      | claimed claimed | threw =>
          cases h
          exact hr
      | next step => exact absurd (congrArg Prod.snd hc) (tryClaimEndpoint_ends step)

/-- `claimDelivery` run alone is a run of the worker that starts it. -/
theorem claimDelivery_steps {w : WorkerId} {scan : List Endpoint} {st' : Store} {r : ClaimResult}
    (hpc : s.pcs w = .idle) (hscan : scan.isPerm s.store.endpoints = true)
    (h : claimDelivery cfg s.now s.store scan = (st', r)) :
    Reachable (restrict (Timely cfg) (step cfg)) s ((s.withStore st').setPc w (.afterCall r)) := by
  have hstart : step cfg s (.start w .claim) =
      some (s.setPc w (.listing (s.now - cfg.leaseDurationMs))) := by
    simp only [step, hpc, if_true]
  have hquery : step cfg (s.setPc w (.listing (s.now - cfg.leaseDurationMs))) (.query w scan) =
      some (s.setPc w (.trying (s.now - cfg.leaseDurationMs)
        (claimCandidates s.store s.now (s.now - cfg.leaseDurationMs) scan))) := by
    simp only [step, Sys.setPc_pcs_self, Sys.setPc_setPc]
    exact if_pos hscan
  refine ((timely_of_worker rfl hstart).trans (timely_of_worker rfl hquery)).trans ?_
  rw [← Sys.setPc_setPc (s := s.withStore st')]
  exact tryCandidates_steps (s := s.setPc w _) (Sys.setPc_pcs_self _) h

end

end Webhooks
