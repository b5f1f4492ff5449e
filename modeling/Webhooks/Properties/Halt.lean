import Webhooks.Protocol.Attempts

/-!
# Properties — Halt

The write-back that makes a delivery failed halts its endpoint, and the endpoint stays shut until it
is resumed.

* `Endpoint.IsShut`: not active, and nobody's; `WorkerMove.shut`: no worker touches such a row.
* **`halt_holds`**: in every timely run from the failing step to the next resume, no claim of the
  endpoint succeeds, and its deliveries and their attempts stay as they are.
-/

namespace Webhooks

open Lib

/-- The endpoint takes no claims, and no worker has it. -/
structure Endpoint.IsShut (e : Endpoint) : Prop where
  status : e.status ≠ .active
  busy : e.busy = false
  leaseId : e.leaseId = none

/-- A timely step that is not a resume of this endpoint. -/
def BeforeResume (cfg : Config) (id tenantId : Uuid) (s : Sys) (l : Label) : Prop :=
  Timely cfg s l ∧ match l with
    | .resume id' tenantId' => ¬ (id' = id ∧ tenantId' = tenantId)
    | _ => True

noncomputable instance (cfg : Config) (id tenantId : Uuid) : DecidableRel (BeforeResume cfg id tenantId) :=
  fun _ _ => Classical.propDecidable _

section

variable {cfg : Config} {now : Time} {s s' s₁ s₂ : Sys} {st st' : Store} {w : WorkerId} {pc pc' : Pc}
  {l : Label} {d d' d₁ : Delivery} {e : Endpoint} {tenants : List Tenant}

/-! ### The failing step -/

/-- A delivery is failed by a write-back that halts its endpoint and releases it. -/
theorem step_failed (hl : LeaseInv cfg s) (hk : KeyInv s) (h : step cfg s l = some s₁)
    (hd : d ∈ s.store.deliveries) (hs : d.state ≠ .failed) (hd₁ : d₁ ∈ s₁.store.deliveries)
    (hid : d₁.id = d.id) (hf : d₁.state = .failed) :
    ∃ e ∈ s₁.store.endpoints, e.id = d.endpointId ∧ e.status = .halted ∧ e.busy = false ∧
      e.busySince = none ∧ e.leaseId = none := by
  have hk₁ := (hk.step hl.ids h).tables
  obtain ⟨d', hd', hmove⟩ := step_delivery_of_mem hl hk h hd
  obtain rfl : d' = d₁ := Table.eq_of_key hk₁.deliveryIds hd' hd₁ (hmove.id_eq.trans hid.symm)
  generalize s₁.store.attemptsOf d'.id = as at hmove
  cases hmove with
  | keep | expire | insert => exact absurd hf hs
  | requeue | mark => cases hf
  | @resolve w claimed result random fault retryAt hlab hpc endpoint _ held =>
      have hhalted : resolution cfg claimed result = .halted := by
        revert hf
        cases resolution cfg claimed result <;> simp [Delivery.resolve]
      subst hlab
      have hst : s₁.store = (completeDelivery cfg s.now s.store claimed result random fault).2 := by
        rcases hpc with hpc | hpc <;> simp only [step, hpc] at h
        · split at h <;> cases h
          rfl
        · cases h
          rfl
      rcases completeDelivery_cases cfg s.now s.store claimed result random fault with hc | ⟨-, hc⟩ |
          ⟨-, -, hc⟩ <;> rw [hc] at hst
      case inr.inr =>
          obtain ⟨e, he, heid, -⟩ := held
          rw [hst]
          refine ⟨e.resolve .halted, ?_, heid.trans endpoint.symm, rfl, rfl, rfl, rfl⟩
          simp only [writeBack, hhalted]
          exact Table.mem_update_of_pos he (by simpa using heid)
      all_goals
        -- nothing was written
        rw [hst] at hd₁
        have := Table.eq_of_key hk.tables.deliveryIds hd₁ hd hid
        rw [this] at hf
        exact absurd hf hs

/-! ### A shut endpoint -/

/-- A worker leaves the row of a shut endpoint as it is. -/
theorem WorkerMove.shut (h : WorkerMove cfg now st w pc l st' pc')
    (hn : (st.endpoints.map (·.id)).Nodup) (he : e ∈ st.endpoints) (hs : e.IsShut) :
    e ∈ st'.endpoints := by
  cases h with
  | claim hc =>
      obtain ⟨-, -, rfl⟩ := claimEndpoint_some hc
      exact Table.mem_update_of_neg he (by simp [Endpoint.isClaimable, hs.status])
  | close hc =>
      rw [(closeOrphans_endpoints hc).1]
      exact he
  | release => exact Table.mem_update_of_neg he (by simp [hs.leaseId])
  | @complete _ claimed result random fault =>
      rcases completeDelivery_cases cfg now st claimed result random fault with hc | ⟨-, hc⟩ |
          ⟨hlease, -, hc⟩ <;> rw [hc]
      · exact he
      · exact he
      · refine Table.mem_update_of_neg he (decide_eq_false fun hid => ?_)
        obtain ⟨e', he', hid', hl'⟩ := holds_of_currentLease hlease
        obtain rfl : e = e' := Table.eq_of_key hn he he' (hid.trans hid'.symm)
        rw [hs.leaseId] at hl'
        cases hl'
  | commit =>
      rw [commitExpansion_endpoints]
      exact he
  | _ => exact he

/-- The statements of the idempotent routes write no endpoint. -/
theorem step_call_endpoints (h : step cfg s l = some s')
    (hl : (∃ c r, l = .request c r) ∨ (∃ c, l = .publish c) ∨ (∃ c, l = .abort c) ∨
      (∃ c r, l = .requestReplay c r) ∨ (∃ c, l = .replay c) ∨ ∃ c, l = .abortReplay c) :
    s'.store.endpoints = s.store.endpoints := by
  rcases hl with ⟨c, r, rfl⟩ | ⟨c, rfl⟩ | ⟨c, rfl⟩ | ⟨c, r, rfl⟩ | ⟨c, rfl⟩ | ⟨c, rfl⟩ <;>
    simp only [step, publishStep, replayStep] at h <;> repeat' split at h
  all_goals
    cases h
    try rfl

/-- Before it is resumed, a shut endpoint stays shut. -/
theorem step_shut (hl : LeaseInv cfg s) (h : step cfg s l = some s') (he : e ∈ s.store.endpoints)
    (hs : e.IsShut) (hb : BeforeResume cfg e.id e.tenantId s l) :
    ∃ e' ∈ s'.store.endpoints, (e'.id = e.id ∧ e'.tenantId = e.tenantId) ∧ e'.IsShut := by
  have hsame : e ∈ s'.store.endpoints →
      ∃ e' ∈ s'.store.endpoints, (e'.id = e.id ∧ e'.tenantId = e.tenantId) ∧ e'.IsShut :=
    fun he => ⟨e, he, ⟨rfl, rfl⟩, hs⟩
  cases l with
  | tick => cases h; exact hsame he
  | register => cases h; exact hsame (List.mem_append_left _ he)
  | pause id tenantId =>
      cases h
      refine ⟨_, Table.mem_update_of_mem he, ?_⟩
      split
      · exact ⟨⟨rfl, rfl⟩, nofun, hs.busy, hs.leaseId⟩
      · exact ⟨⟨rfl, rfl⟩, hs⟩
  | resume id tenantId =>
      cases h
      refine hsame (Table.mem_update_of_neg he ?_)
      simp only [Bool.and_eq_false_iff, decide_eq_false_iff_not]
      exact (not_and_or.mp hb.2).imp (fun hne heq => hne heq.symm) fun hne heq => hne heq.symm
  | rotate id tenantId signingSecret =>
      cases h
      refine ⟨_, Table.mem_update_of_mem he, ?_⟩
      split
      · exact ⟨⟨rfl, rfl⟩, hs.status, hs.busy, hs.leaseId⟩
      · exact ⟨⟨rfl, rfl⟩, hs⟩
  | request | publish | abort | requestReplay | replay | abortReplay =>
      refine hsame ?_
      rw [step_call_endpoints h (by simp)]
      exact he
  | start | query | step | send | complete | die =>
      cases step_move h with
      | tick _ hlab => cases hlab
      | api hlab => cases hlab
      | worker w _ _ hw => exact hsame (hw.shut hl.ids he hs)

/-- No delivery of a shut endpoint moves. -/
theorem DeliveryMove.eq_of_shut {as : List Attempt} (h : DeliveryMove cfg s l d d' as)
    (hn : (s.store.endpoints.map (·.id)).Nodup) (hheld : ClaimsHold s) (he : e ∈ s.store.endpoints)
    (hs : e.IsShut) (hd : d.endpointId = e.id) : d' = d ∧ as = s.store.attemptsOf d.id := by
  rcases h.mover hheld with heq | ⟨w, leaseId, -, -, e', he', hid', hlease⟩
  · exact heq
  · obtain rfl : e = e' := Table.eq_of_key hn he he' (hd.symm.trans hid'.symm)
    rw [hs.leaseId] at hlease
    cases hlease

/-- A shut endpoint cannot be claimed. -/
theorem claimEndpoint_of_shut (hn : (st.endpoints.map (·.id)).Nodup) (he : e ∈ st.endpoints)
    (hs : e.IsShut) (now cutoff : Time) : claimEndpoint st now e.id cutoff = (none, st) := by
  have hnone : ∀ e' ∈ st.endpoints, e'.isClaimable e.id cutoff = false := by
    intro e' he'
    by_cases hid : e'.id = e.id
    · obtain rfl : e' = e := Table.eq_of_key hn he' he hid
      simp [Endpoint.isClaimable, hs.status]
    · simp [Endpoint.isClaimable, hid]
  simp only [claimEndpoint, List.any_eq_true]
  rw [if_neg]
  rintro ⟨e', he', hc⟩
  rw [hnone e' he'] at hc
  cases hc

/-! ### Until the resume -/

/-- The endpoint is shut, and its deliveries and their attempts are those of `s₁`; newer ones have
no attempts. -/
structure Shut (s₁ s : Sys) (id tenantId : Uuid) : Prop where
  row : ∃ e ∈ s.store.endpoints, (e.id = id ∧ e.tenantId = tenantId) ∧ e.IsShut
  kept : ∀ d ∈ s₁.store.deliveries, d.endpointId = id →
    d ∈ s.store.deliveries ∧ s.store.attemptsOf d.id = s₁.store.attemptsOf d.id
  rest : ∀ d ∈ s.store.deliveries, d.endpointId = id →
    d ∈ s₁.store.deliveries ∨ s.store.attemptsOf d.id = []

theorem Shut.step {id tenantId : Uuid} (hl : LeaseInv cfg s) (hk : KeyInv s) (hheld : ClaimsHold s)
    (hi : Shut s₁ s id tenantId) (hb : BeforeResume cfg id tenantId s l)
    (h : step cfg s l = some s') : Shut s₁ s' id tenantId := by
  obtain ⟨e, he, ⟨rfl, rfl⟩, hs⟩ := hi.row
  refine ⟨step_shut hl h he hs hb, fun d hd hde => ?_, fun d' hd' hde => ?_⟩
  · obtain ⟨hmem, has⟩ := hi.kept d hd hde
    obtain ⟨d', hd', hmove⟩ := step_delivery_of_mem hl hk h hmem
    obtain ⟨rfl, has'⟩ := hmove.eq_of_shut hl.ids hheld he hs hde
    exact ⟨hd', has'.trans has⟩
  · rcases step_delivery hl hk h hd' with ⟨d, hd, hmove⟩ | ⟨-, -, has⟩
    · obtain ⟨rfl, has'⟩ :=
        hmove.eq_of_shut hl.ids hheld he hs (hmove.endpointId_eq.symm.trans hde)
      rcases hi.rest d' hd hde with hold | hnone
      · exact .inl hold
      · exact .inr (has'.trans hnone)
    · exact .inr has

/-- In every timely run: the step that makes a delivery failed halts its endpoint and releases its
lease.  From then until the endpoint is resumed no claiming `UPDATE` on it succeeds, whenever the
candidates were read, its deliveries keep their rows, and no attempt is inserted for any of them. -/
theorem halt_holds (h : Reachable (restrict (Timely cfg) (step cfg)) (.init tenants) s)
    (hs : restrict (Timely cfg) (step cfg) s l = some s₁) (hd : d ∈ s.store.deliveries)
    (hnf : d.state ≠ .failed) (hd₁ : d₁ ∈ s₁.store.deliveries) (hid : d₁.id = d.id)
    (hf : d₁.state = .failed) :
    ∃ e ∈ s₁.store.endpoints, (e.id = d.endpointId ∧ e.status = .halted ∧ e.busy = false ∧
      e.busySince = none ∧ e.leaseId = none) ∧
    ∀ s₂, Reachable (restrict (BeforeResume cfg e.id e.tenantId) (step cfg)) s₁ s₂ →
      (∀ now cutoff, (claimEndpoint s₂.store now e.id cutoff).1 = none) ∧
      (∀ d' ∈ s₁.store.deliveries, d'.endpointId = e.id → d' ∈ s₂.store.deliveries) ∧
      ∀ d' ∈ s₂.store.deliveries, d'.endpointId = e.id →
        ∀ a ∈ s₂.store.attemptsOf d'.id, a ∈ s₁.store.attempts := by
  have hr₁ := h.tail hs
  obtain ⟨e, he, heid, hst, hbusy, hsince, hlease⟩ :=
    step_failed (leaseInv_of_reachable h.of_restrict) (keyInv_of_reachable h.of_restrict)
      (restrict_eq_some.mp hs).2 hd hnf hd₁ hid hf
  refine ⟨e, he, ⟨heid, hst, hbusy, hsince, hlease⟩, fun s₂ hr => ?_⟩
  have htimely : ∀ s', Reachable (restrict (BeforeResume cfg e.id e.tenantId) (step cfg)) s₁ s' →
      Reachable (restrict (Timely cfg) (step cfg)) (.init tenants) s' :=
    fun s' hr => hr₁.trans (hr.weaken fun _ _ _ _ hl _ => hl.1)
  have hshut : Shut s₁ s₂ e.id e.tenantId := by
    refine hr.inv (I := fun s' => Shut s₁ s' e.id e.tenantId)
      ⟨⟨e, he, ⟨rfl, rfl⟩, by rw [hst]; nofun, hbusy, hlease⟩, fun d hd _ => ⟨hd, rfl⟩,
        fun d hd _ => .inl hd⟩ fun s' l' s'' hr' hi hs' => ?_
    obtain ⟨hl', hs'⟩ := restrict_eq_some.mp hs'
    have ht := htimely s' hr'
    exact hi.step (leaseInv_of_reachable ht.of_restrict) (keyInv_of_reachable ht.of_restrict)
      (claimsHold_of_timely (fun _ _ hp => hp) ht) hl' hs'
  refine ⟨fun now cutoff => ?_, fun d' hd' hde => (hshut.kept d' hd' hde).1, fun d' hd' hde a ha => ?_⟩
  · obtain ⟨e₂, he₂, ⟨hid₂, -⟩, hs₂⟩ := hshut.row
    rw [← hid₂, claimEndpoint_of_shut (leaseInv_of_reachable (htimely s₂ hr).of_restrict).ids he₂ hs₂]
  · rcases hshut.rest d' hd' hde with hold | hnone
    · rw [(hshut.kept d' hold hde).2] at ha
      exact (mem_attemptsOf.mp ha).1
    · rw [hnone] at ha
      cases ha

end

/-! ### One failed attempt -/

open Sample

/-- Worker 2 has read its candidates before worker 1 claims the endpoint and fails its delivery. -/
def failWithCandidates : List Label :=
  register :: publish 0 "k" ++ expand ++ [.start 2 .claim, .query 2 [endpoint none]] ++
    claim 1 none 7 ++ [.send 1]

theorem halt_holds_sample : ∃ s s₁ e, Reachable (restrict (Timely once) (step once)) start s ∧
    restrict (Timely once) (step once) s (.complete 1 (response 500) ⟨0, 1, Nat.one_pos⟩ none) =
      some s₁ ∧
    s₁.pcs 2 = .trying 0 [⟨0, 100, false⟩] ∧ e ∈ s₁.store.endpoints ∧ e.id = 0 ∧ e.status = .halted ∧
    ∀ s₂, Reachable (restrict (BeforeResume once e.id e.tenantId) (step once)) s₁ s₂ →
      ∀ now cutoff, (claimEndpoint s₂.store now e.id cutoff).1 = none := by
  obtain ⟨s, s₁, hs, hs₁, hp⟩ := exists_of_runs (restrict (TimelyAmong once [0, 1, 2]) (step once))
    start failWithCandidates [.complete 1 (response 500) ⟨0, 1, Nat.one_pos⟩ none]
    (fun s s₁ => s₁.pcs 2 = .trying 0 [⟨0, 100, false⟩] &&
      s.store.deliveries = [⟨2, 1, 0, .inFlight, 1, 0, 0, 1⟩] &&
      s₁.store.deliveries = [⟨2, 1, 0, .failed, 1, 0, 0, 1⟩]) (by decide)
  simp only [Bool.and_eq_true, decide_eq_true_eq] at hp
  obtain ⟨⟨hpc, hd⟩, hd₁⟩ := hp
  rw [run_singleton] at hs₁
  have hr : Reachable (restrict (Timely once) (step once)) start s :=
    timely_of_timelyAmong (fun _ _ => rfl) (fun _ _ h => h) (fun _ _ h _ => h) (.of_run hs)
  have hstep : restrict (Timely once) (step once) s
      (.complete 1 (response 500) ⟨0, 1, Nat.one_pos⟩ none) = some s₁ :=
    restrict_eq_some.mpr ⟨trivial, (restrict_eq_some.mp hs₁).2⟩
  have hmem : ⟨2, 1, 0, .inFlight, 1, 0, 0, 1⟩ ∈ s.store.deliveries := by
    rw [hd]; exact List.mem_singleton_self _
  have hmem₁ : ⟨2, 1, 0, .failed, 1, 0, 0, 1⟩ ∈ s₁.store.deliveries := by
    rw [hd₁]; exact List.mem_singleton_self _
  obtain ⟨e, he, ⟨hid, hst, -⟩, hrun⟩ := halt_holds hr hstep hmem (by decide) hmem₁ rfl rfl
  exact ⟨s, s₁, e, hr, hstep, hpc, he, hid, hst, fun s₂ hr₂ => (hrun s₂ hr₂).1⟩

end Webhooks
