import Webhooks.Protocol.Keys

/-!
# Protocol — Exclusion

At most one delivery of an endpoint is in flight, in every run whose `in_flight` updates are
fenced.

* `ExclInv`: nothing is in flight on an endpoint that is not busy, never two deliveries are in
  flight on one endpoint, and a claim that holds its lease knows what is in flight there.
* `Delivery.Change.quiet`: while a claim holds its lease nobody else starts or resolves a delivery
  of its endpoint.
* **`exclInv_of_reachable`**.
* **`terminal_of_reachable`**: a terminal delivery keeps its row and the list of its attempts, when
  the statements that start an attempt are fenced.
-/

namespace Webhooks

open Lib

/-! ### The invariant -/

def NoneInFlight (st : Store) (endpointId : Uuid) : Prop :=
  ∀ d ∈ st.deliveries, d.endpointId = endpointId → d.state ≠ .inFlight

def OnlyInFlight (st : Store) (endpointId id : Uuid) : Prop :=
  ∀ d ∈ st.deliveries, d.endpointId = endpointId → d.state = .inFlight → d.id = id

/-- The delivery is there, and in such a state. -/
def InState (st : Store) (p : DeliveryState → Prop) (endpointId id : Uuid) : Prop :=
  ∃ d ∈ st.deliveries, d.id = id ∧ d.endpointId = endpointId ∧ p d.state

def IsPending (st : Store) (endpointId id : Uuid) : Prop := InState st (· = .pending) endpointId id

def IsUnresolved (st : Store) (endpointId id : Uuid) : Prop :=
  InState st (·.isTerminal = false) endpointId id

/-- What a claim that holds its lease knows before its next statement. -/
def ClaimStep.ExclFacts (st : Store) (c : Claim) : ClaimStep → Prop
  | .touchTenant => c.candidate.busy = false → NoneInFlight st c.candidate.id
  | .closeOrphans | .requeue => True
  | .fetchHead | .checkHead none | .release => NoneInFlight st c.candidate.id
  | .checkHead (some head) | .insertAttempt head | .markInFlight head _ _ =>
      NoneInFlight st c.candidate.id ∧ IsPending st c.candidate.id head.id
  | .finish head _ _ =>
      OnlyInFlight st c.candidate.id head.id ∧ IsUnresolved st c.candidate.id head.id

/-- What a worker that holds its lease knows. -/
def Pc.ExclFacts (st : Store) : Pc → Prop
  | .claiming c next => Holds st c.candidate.id c.leaseId → next.ExclFacts st c
  | .holding claimed | .sent claimed => Holds st claimed.endpointId claimed.leaseId →
      OnlyInFlight st claimed.endpointId claimed.deliveryId ∧
        IsUnresolved st claimed.endpointId claimed.deliveryId
  | _ => True

theorem InState.eq_of_mem {st : Store} {p : DeliveryState → Prop} {endpointId id : Uuid} {d : Delivery}
    (h : InState st p endpointId id) (hn : (st.deliveries.map (·.id)).Nodup)
    (hd : d ∈ st.deliveries) (hid : d.id = id) : d.endpointId = endpointId ∧ p d.state := by
  obtain ⟨d', hd', hid', he, hp⟩ := h
  obtain rfl : d = d' := Table.eq_of_key hn hd hd' (hid.trans hid'.symm)
  exact ⟨he, hp⟩

theorem Pc.ExclFacts.complete {st : Store} {pc : Pc} {claimed : ClaimedDelivery}
    (h : pc.ExclFacts st) (hpc : pc = .holding claimed ∨ pc = .sent claimed)
    (held : Holds st claimed.endpointId claimed.leaseId) :
    OnlyInFlight st claimed.endpointId claimed.deliveryId ∧
      IsUnresolved st claimed.endpointId claimed.deliveryId := by
  obtain rfl | rfl := hpc <;> exact h held

structure ExclInv (s : Sys) : Prop where
  free : ∀ e ∈ s.store.endpoints, e.busy = false → NoneInFlight s.store e.id
  one : ∀ d ∈ s.store.deliveries, ∀ d' ∈ s.store.deliveries, d.endpointId = d'.endpointId →
    d.state = .inFlight → d'.state = .inFlight → d.id = d'.id
  worker : ∀ w, (s.pcs w).ExclFacts s.store

/-- The `in_flight` update. -/
def ClaimStep.isMark : ClaimStep → Bool
  | .markInFlight .. => true
  | _ => false

/-- A worker that marks a delivery holds its lease. -/
def MarkFenced (st : Store) (w : WorkerId) (pc : Pc) (l : Label) : Prop :=
  ∀ c head n attemptId, l = .step w → pc = .claiming c (.markInFlight head n attemptId) →
    Holds st c.candidate.id c.leaseId

section

variable {cfg : Config} {now : Time} {st st' : Store} {w : WorkerId} {pc pc' : Pc} {l : Label}
  {d d' : Delivery} {endpointId leaseId leaseId' id : Uuid}

/-! ### Steps of somebody else -/

theorem OnEndpoint.endpointId_eq (hn : (st.deliveries.map (·.id)).Nodup)
    (h : OnEndpoint st id endpointId) (hd : d ∈ st.deliveries) (hid : d.id = id) :
    d.endpointId = endpointId := by
  obtain ⟨d', hd', hid', he⟩ := h
  obtain rfl : d = d' := Table.eq_of_key hn hd hd' (hid.trans hid'.symm)
  exact he

/-- While somebody else holds a lease on the endpoint, a worker's step leaves a delivery of the
endpoint as it is, or requeues it. -/
theorem Delivery.Change.quiet (h : d.Change cfg st w pc l d') (ht : TablesKeyed st)
    (hn : (st.endpoints.map (·.id)).Nodup) (hk : pc.KeyFacts st) (hm : MarkFenced st w pc l)
    (hd : d ∈ st.deliveries) (hh : Holds st d.endpointId leaseId)
    (hne : ∀ id, pc.lease ≠ some (id, leaseId)) :
    d' = d ∨ d.state = .inFlight ∧ d' = { d with state := .pending } ∧
      ∃ c, l = .step w ∧ pc = .claiming c .requeue ∧ c.candidate.id = d.endpointId := by
  cases h with
  | keep => exact .inl rfl
  | @requeued c hl hpc he state => exact .inr ⟨state, rfl, c, hl, hpc, he.symm⟩
  | @marked c head n attemptId hl hpc hid =>
      have hh' := hm c head n attemptId hl hpc
      subst hpc
      rw [← hk.1.endpointId_eq ht.deliveryIds hd hid] at hh'
      rw [hh.unique hn hh'] at hne
      exact absurd rfl (hne _)
  | @resolved claimed result random fault retryAt hl hpc hid held =>
      have he : d.endpointId = claimed.endpointId := by
        exact (hk.complete hpc).1.endpointId_eq ht.deliveryIds hd hid
      rw [← he] at held
      rw [hh.unique hn held] at hne
      obtain rfl | rfl := hpc <;> exact absurd rfl (hne _)

/-- A delivery in flight afterwards was in flight before, or the step marked it. -/
theorem DeliveriesChange.inFlight (h : DeliveriesChange cfg w pc l st st') (hr : RowsFresh st pc.rows)
    (hd' : d' ∈ st'.deliveries) (hs : d'.state = .inFlight) :
    d' ∈ st.deliveries ∨ ∃ c head n attemptId, l = .step w ∧
      pc = .claiming c (.markInFlight head n attemptId) ∧ d'.id = head.id ∧ d'.attemptCount = n ∧
      ∃ d ∈ st.deliveries, d.id = d'.id ∧ d.endpointId = d'.endpointId := by
  obtain ⟨d, hd, hc⟩ | ⟨hd', -⟩ := h.mem_cases hd'
  · cases hc with
    | keep => exact .inl hd
    | requeued => cases hs
    | marked hl hpc hid => exact .inr ⟨_, _, _, _, hl, hpc, hid, rfl, d, hd, rfl, rfl⟩
    | resolved retryAt hl hpc hid held =>
        unfold Delivery.resolve at hs
        split at hs <;> cases hs
  · rw [(hr.pending d' hd').1] at hs
    cases hs

/-- The deliveries of the endpoint are as they were, but for some in-flight ones put back to
pending and some new pending ones. -/
structure Quiet (st st' : Store) (endpointId : Uuid) : Prop where
  back : ∀ d' ∈ st'.deliveries, d'.endpointId = endpointId → d' ∈ st.deliveries ∨ d'.state = .pending
  forth : ∀ d ∈ st.deliveries, d.endpointId = endpointId →
    d ∈ st'.deliveries ∨ d.state = .inFlight ∧ { d with state := .pending } ∈ st'.deliveries

theorem Quiet.of_eq (h : st'.deliveries = st.deliveries) : Quiet st st' endpointId :=
  ⟨fun _ hd _ => .inl (h ▸ hd), fun _ hd _ => .inl (h ▸ hd)⟩

theorem DeliveriesChange.quiet (h : DeliveriesChange cfg w pc l st st') (ht : TablesKeyed st)
    (hn : (st.endpoints.map (·.id)).Nodup) (hk : pc.KeyFacts st) (hr : RowsFresh st pc.rows)
    (hm : MarkFenced st w pc l) (hh : Holds st endpointId leaseId)
    (hne : ∀ id, pc.lease ≠ some (id, leaseId)) : Quiet st st' endpointId where
  back d' hd' he := by
    obtain ⟨d, hd, hc⟩ | ⟨hd', -⟩ := h.mem_cases hd'
    · rw [hc.endpointId_eq] at he
      subst he
      obtain rfl | ⟨-, rfl, -⟩ := hc.quiet ht hn hk hm hd hh hne
      · exact .inl hd
      · exact .inr rfl
    · exact .inr (hr.pending d' hd').1
  forth d hd he := by
    obtain ⟨d', hd', hc⟩ := h.mem hd
    subst he
    obtain rfl | ⟨hs, rfl, -⟩ := hc.quiet ht hn hk hm hd hh hne
    · exact .inl hd'
    · exact .inr ⟨hs, hd'⟩

theorem NoneInFlight.quiet (h : NoneInFlight st endpointId) (hq : Quiet st st' endpointId) :
    NoneInFlight st' endpointId := by
  intro d' hd' he hs
  obtain hd | hp := hq.back d' hd' he
  · exact h d' hd he hs
  · rw [hp] at hs
    cases hs

theorem OnlyInFlight.quiet (h : OnlyInFlight st endpointId id) (hq : Quiet st st' endpointId) :
    OnlyInFlight st' endpointId id := by
  intro d' hd' he hs
  obtain hd | hp := hq.back d' hd' he
  · exact h d' hd he hs
  · rw [hp] at hs
    cases hs

theorem IsPending.quiet (h : IsPending st endpointId id) (hq : Quiet st st' endpointId) :
    IsPending st' endpointId id := by
  obtain ⟨d, hd, hid, he, hs⟩ := h
  obtain hd' | ⟨hs', -⟩ := hq.forth d hd he
  · exact ⟨d, hd', hid, he, hs⟩
  · rw [hs] at hs'
    cases hs'

theorem IsUnresolved.quiet (h : IsUnresolved st endpointId id) (hq : Quiet st st' endpointId) :
    IsUnresolved st' endpointId id := by
  obtain ⟨d, hd, hid, he, hs⟩ := h
  obtain hd' | ⟨-, hd'⟩ := hq.forth d hd he
  · exact ⟨d, hd', hid, he, hs⟩
  · exact ⟨_, hd', hid, he, rfl⟩

theorem ClaimStep.ExclFacts.quiet {c : Claim} {next : ClaimStep} (h : next.ExclFacts st c)
    (hq : Quiet st st' c.candidate.id) : next.ExclFacts st' c := by
  unfold ClaimStep.ExclFacts at h ⊢
  split
  case h_1 => exact fun hb => (h hb).quiet hq
  case h_2 | h_3 => trivial
  case h_4 | h_5 | h_6 => exact h.quiet hq
  case h_7 | h_8 | h_9 => exact ⟨h.1.quiet hq, h.2.quiet hq⟩
  case h_10 => exact ⟨h.1.quiet hq, h.2.quiet hq⟩

/-- What a worker knows stands while its endpoint is quiet and its lease was held before. -/
theorem Pc.ExclFacts.quiet (h : pc.ExclFacts st)
    (hq : ∀ endpointId leaseId, pc.lease = some (endpointId, leaseId) → Holds st' endpointId leaseId →
      Holds st endpointId leaseId ∧ Quiet st st' endpointId) : pc.ExclFacts st' := by
  cases pc with
  | claiming c next =>
      intro hh
      obtain ⟨hh, hq⟩ := hq _ _ rfl hh
      exact (h hh).quiet hq
  | holding claimed | sent claimed =>
      intro hh
      obtain ⟨hh, hq⟩ := hq _ _ rfl hh
      exact ⟨(h hh).1.quiet hq, (h hh).2.quiet hq⟩
  | _ => trivial

/-! ### The worker's own steps -/

theorem requeueInFlight_none : NoneInFlight (requeueInFlight st endpointId) endpointId := by
  intro d hd he hs
  obtain ⟨hd, hp⟩ | ⟨d, -, -, rfl⟩ := Table.mem_update_cases hd
  · simp [Delivery.isInFlightOn, he, hs] at hp
  · cases hs

/-- A claim leads from a candidate seen free to an endpoint with nothing in flight. -/
theorem claimEndpoint_noneInFlight {cutoff : Time} {c : CandidateRow}
    (h : claimEndpoint st now c.id cutoff = (some leaseId, st'))
    (hfree : ∀ e ∈ st.endpoints, e.busy = false → NoneInFlight st e.id) (hf : FlagsFresh st cutoff [c])
    (hb : c.busy = false) : NoneInFlight st' c.id := by
  obtain ⟨-, ha, rfl⟩ := claimEndpoint_some h
  obtain ⟨e, he, hp⟩ := List.any_eq_true.mp ha
  simp only [Endpoint.isClaimable, Endpoint.isFree, Bool.and_eq_true, decide_eq_true_eq,
    Bool.or_eq_true, Bool.not_eq_true', Option.any_eq_true] at hp
  obtain ⟨⟨hid, -⟩, hbusy | ⟨t, hs, hlt⟩⟩ := hp
  · rw [← hid]
    exact hfree e he hbusy
  · exact absurd hlt (not_lt.mpr (hf c (List.mem_singleton_self _) hb e he hid t hs))

theorem markInFlight_only {head : DeliveryRow} {n : Nat} (h : NoneInFlight st endpointId)
    (hp : IsPending st endpointId head.id) :
    OnlyInFlight (markInFlight st head.id n) endpointId head.id ∧
      IsUnresolved (markInFlight st head.id n) endpointId head.id := by
  constructor
  · intro d hd he hs
    obtain ⟨hd, -⟩ | ⟨d, -, hid, rfl⟩ := Table.mem_update_cases hd
    · exact absurd hs (h d hd he)
    · exact of_decide_eq_true hid
  · obtain ⟨d, hd, hid, he, -⟩ := hp
    exact ⟨_, Table.mem_update_of_pos hd (decide_eq_true hid), hid, he, rfl⟩

/-- A worker's step keeps what it knows. -/
theorem WorkerMove.exclFacts (h : WorkerMove cfg now st w pc l st' pc')
    (hl : ∀ d ∈ st.deliveries, d.IsLinked st) (hlf : pc.LeaseFacts cfg now st)
    (hfree : ∀ e ∈ st.endpoints, e.busy = false → NoneInFlight st e.id) (hx : pc.ExclFacts st) :
    pc'.ExclFacts st' := by
  cases h with
  | outside _ _ _ hpc' =>
      cases pc' with
      | claiming | holding | sent => cases hpc'
      | _ => trivial
  | claim hc =>
      exact fun _ hb => claimEndpoint_noneInFlight hc hfree
        (fun c hc => hlf.2 c (List.mem_singleton.mp hc ▸ List.mem_cons_self)) hb
  | touchBusy | close => exact fun _ => trivial
  | touchFree hb => exact fun hh => hx hh hb
  | requeue => exact fun _ => requeueInFlight_none
  | @fetch c =>
      intro hh
      cases hf : fetchHead st c.candidate.id with
      | none => exact hx hh
      | some head =>
          obtain ⟨d, hd, ⟨he, hs⟩, hof, -⟩ := fetchHead_eq_some hl hf
          exact ⟨hx hh, d, hd, hof.id.symm, he, hs⟩
  | checkNone => exact hx
  | checkLater => exact fun hh => (hx hh).1
  | checkDue | insert => exact hx
  | mark => exact fun hh => markInFlight_only (hx hh).1 (hx hh).2
  | finish endpointId leaseId deliveryId =>
      show Holds _ _ _ → _
      rw [endpointId, leaseId, deliveryId]
      exact hx
  | send => exact hx
  | _ => trivial

/-- Where a step releases an endpoint, nothing is in flight there afterwards. -/
theorem WorkerMove.released (h : WorkerMove cfg now st w pc l st' pc')
    (hn : (st.endpoints.map (·.id)).Nodup) (hx : pc.ExclFacts st)
    {e e' : Endpoint} (he : e ∈ st.endpoints) (he' : e' ∈ st'.endpoints)
    (hid : e'.id = e.id) (hb : e.busy = true) (hb' : e'.busy = false) :
    NoneInFlight st' e.id := by
  have hsame : st'.endpoints = st.endpoints → NoneInFlight st' e.id := by
    intro heq
    obtain rfl : e' = e := Table.eq_of_key hn (heq ▸ he') he hid
    rw [hb] at hb'
    cases hb'
  cases h with
  | claim hc =>
      obtain ⟨-, -, rfl⟩ := claimEndpoint_some hc
      obtain ⟨he', -⟩ | ⟨e₁, -, -, rfl⟩ := Table.mem_update_cases he'
      · obtain rfl : e' = e := Table.eq_of_key hn he' he hid
        rw [hb] at hb'
        cases hb'
      · cases hb'
  | close hc => exact hsame (closeOrphans_endpoints hc).1
  | @release c =>
      obtain ⟨he', -⟩ | ⟨e₁, he₁, hp, rfl⟩ := Table.mem_update_cases he'
      · obtain rfl : e' = e := Table.eq_of_key hn he' he hid
        rw [hb] at hb'
        cases hb'
      · obtain ⟨hid₁, hl⟩ : e₁.id = c.candidate.id ∧ e₁.leaseId = some c.leaseId := by simpa using hp
        rw [← hid, show e₁.released.id = e₁.id from rfl, hid₁]
        exact hx ⟨e₁, he₁, hid₁, hl⟩
  | @complete _ claimed result random fault hpc =>
      obtain hc | ⟨-, hc⟩ | ⟨hl, -, hc⟩ := completeDelivery_cases cfg now st claimed result random fault
      · exact hsame (by rw [hc])
      · exact hsame (by rw [hc])
      · rw [hc] at he' ⊢
        have hh := holds_of_currentLease hl
        have honly := (hx.complete hpc hh).1
        obtain ⟨he', -⟩ | ⟨e₁, he₁, hp, rfl⟩ := Table.mem_update_cases he'
        · obtain rfl : e' = e := Table.eq_of_key hn he' he hid
          rw [hb] at hb'
          cases hb'
        · rw [(Endpoint.resolve_identity _ e₁).1] at hid
          rw [← hid, of_decide_eq_true hp]
          intro d hd hde hs
          obtain ⟨hd, hne⟩ | ⟨d, -, -, rfl⟩ := Table.mem_update_cases hd
          · exact of_decide_eq_false hne (honly d hd hde hs)
          · unfold Delivery.resolve at hs
            split at hs <;> cases hs
  | commit => exact hsame (commitExpansion_endpoints ..)
  | _ => exact hsame rfl

theorem ExclInv.init (tenants : List Tenant) : ExclInv (.init tenants) where
  free := nofun
  one := nofun
  worker _ := trivial

theorem ExclInv.step {s s' : Sys} (hl : LeaseInv cfg s) (hk : KeyInv s)
    (hf : Fenced ClaimStep.isMark s l) (hi : ExclInv s) (h : step cfg s l = some s') : ExclInv s' := by
  cases step_move h with
  | tick ms _ _ store pcs => exact ⟨store ▸ hi.free, store ▸ hi.one, by rw [store, pcs]; exact hi.worker⟩
  | api _ _ pcs h =>
      have hch : EndpointsChange s.now .idle s.store s'.store := h.endpoints
      refine ⟨fun e' he' hb d hd hde hs => ?_, by rw [h.deliveries]; exact hi.one, fun w => ?_⟩
      · rw [h.deliveries] at hd
        obtain ⟨ep, hep, hid⟩ := (hk.tables.linked d hd).2
        obtain ⟨g, new, heq, hg, hnew, -⟩ := hch
        obtain ⟨e, he, rfl⟩ | he' := Table.mem_rewrite_cases heq he'
        · obtain ⟨⟨hide, -⟩, hc⟩ := hg e he
          cases hc with
          | keep busy => exact hi.free e he (busy ▸ hb) d hd (hide ▸ hde) hs
          | claimed hpc => cases hpc
          | released hpc => cases hpc
        · exact absurd ((hid.trans hde) ▸ (hl.columns ep hep).id_lt) (not_lt.mpr (hnew e' he').le)
      · rw [pcs]
        refine (hi.worker w).quiet fun endpointId leaseId hlease hh => ⟨?_, .of_eq h.deliveries⟩
        exact hh.before hch ((hl.worker w).lease_lt hlease)
  | worker w _ pcs h =>
      have hch := h.endpoints hl.ids
      have hm : MarkFenced s.store w (s.pcs w) l := by
        rintro c head n attemptId rfl hpc
        exact hf.holds hpc rfl
      -- a delivery the step marks is on the endpoint of the claim
      have hmark : ∀ {c head n attemptId}, s.pcs w = .claiming c (.markInFlight head n attemptId) →
          ∀ {d}, d ∈ s.store.deliveries → d.id = head.id → d.endpointId = c.candidate.id := by
        intro c head n attemptId hpc d hd hid
        have hkw := hk.worker w
        rw [hpc] at hkw
        exact hkw.1.endpointId_eq hk.tables.deliveryIds hd hid
      refine ⟨fun e' he' hb d hd' hde hs => ?_, fun d hd d' hd' he hs hs' => ?_, fun w' => ?_⟩
      · have hd := h.deliveries.inFlight (hk.rows w) hd' hs
        have hold : ∃ d₀ ∈ s.store.deliveries, d₀.endpointId = d.endpointId := by
          obtain hd | ⟨-, -, -, -, -, -, -, -, d₀, hd₀, -, he⟩ := hd
          · exact ⟨d, hd, rfl⟩
          · exact ⟨d₀, hd₀, he⟩
        obtain ⟨d₀, hd₀, hde₀⟩ := hold
        obtain ⟨e, he, hide⟩ := (hk.tables.linked d₀ hd₀).2
        have hid : e'.id = e.id := by rw [← hde, ← hde₀, hide]
        cases hbe : e.busy with
        | true =>
            exact h.released hl.ids (hi.worker w) he he' hid hbe hb d hd' (hde.trans hid) hs
        | false =>
            obtain hd | ⟨c, head, n, attemptId, rfl, hpc, hidd, -, d₁, hd₁, hid₁, hde₁⟩ := hd
            · exact hi.free e he hbe d hd (hde.trans hid) hs
            · obtain ⟨e₁, he₁, hide₁, hlease⟩ := hf.holds hpc rfl
              have : e₁ = e := Table.eq_of_key hl.ids he₁ he <| by
                rw [hide₁, ← hmark hpc hd₁ (hid₁.trans hidd), hde₁, hde, hid]
              have hcol := (hl.columns e he).lease
              rw [hbe, ← this, hlease] at hcol
              cases hcol
      · -- the one the step marks is the only one in flight on its endpoint
        have hnone : ∀ {c head n attemptId}, l = .step w →
            s.pcs w = .claiming c (.markInFlight head n attemptId) →
            NoneInFlight s.store c.candidate.id := by
          rintro c head n attemptId rfl hpc
          have hx := hi.worker w
          rw [hpc] at hx
          exact (hx (hf.holds hpc rfl)).1
        obtain hd | ⟨c, head, n, attemptId, hlab, hpc, hid, -, d₁, hd₁, hid₁, hde₁⟩ :=
          h.deliveries.inFlight (hk.rows w) hd hs <;>
        obtain hd' | ⟨c', head', n', attemptId', hlab', hpc', hid', -, d₁', hd₁', hid₁', hde₁'⟩ :=
          h.deliveries.inFlight (hk.rows w) hd' hs'
        · exact hi.one d hd d' hd' he hs hs'
        · refine absurd hs (hnone hlab' hpc' d hd ?_)
          rw [he, ← hde₁', hmark hpc' hd₁' (hid₁'.trans hid')]
        · refine absurd hs' (hnone hlab hpc d' hd' ?_)
          rw [← he, ← hde₁, hmark hpc hd₁ (hid₁.trans hid)]
        · rw [hpc] at hpc'
          cases hpc'
          rw [hid, hid']
      · by_cases hw : w' = w
        · rw [hw]
          exact h.exclFacts hk.tables.linked (hl.worker w) hi.free (hi.worker w)
        · rw [pcs w' hw]
          refine (hi.worker w').quiet fun endpointId leaseId hlease hh => ?_
          have hh := hh.before hch ((hl.worker w').lease_lt hlease)
          refine ⟨hh, h.deliveries.quiet hk.tables hl.ids (hk.worker w) (hk.rows w) hm hh ?_⟩
          exact fun id hid => hw (hl.distinct _ _ _ _ _ hlease hid)

/-- With the ones in flight told apart by their endpoints, an endpoint has at most one. -/
theorem length_inFlight_le_one (hn : (st.deliveries.map (·.id)).Nodup)
    (h : ∀ d ∈ st.deliveries, ∀ d' ∈ st.deliveries, d.endpointId = d'.endpointId →
      d.state = .inFlight → d'.state = .inFlight → d.id = d'.id) (endpointId : Uuid) :
    (st.deliveries.filter (Delivery.isInFlightOn endpointId)).length ≤ 1 := by
  refine Table.length_filter_le_one hn fun d hd d' hd' hp hp' => ?_
  simp only [Delivery.isInFlightOn, Bool.and_eq_true, decide_eq_true_eq] at hp hp'
  exact h d hd d' hd' (hp.1.trans hp'.1.symm) hp.2 hp'.2

/-- With at most one delivery in flight the one-row subquery is well defined. -/
theorem closeOrphans_isSome (hn : (st.deliveries.map (·.id)).Nodup)
    (h : ∀ d ∈ st.deliveries, ∀ d' ∈ st.deliveries, d.endpointId = d'.endpointId →
      d.state = .inFlight → d'.state = .inFlight → d.id = d'.id) :
    ∃ st', closeOrphans st endpointId = some st' := by
  have hle := length_inFlight_le_one hn h endpointId
  rcases hf : st.deliveries.filter (Delivery.isInFlightOn endpointId) with _ | ⟨d, _ | ⟨d', l⟩⟩
  · exact ⟨st, by simp only [closeOrphans, hf]⟩
  · exact ⟨_, by simp only [closeOrphans, hf]; rfl⟩
  · rw [hf] at hle
    exact absurd hle (by simp)

variable {p : Sys → Label → Prop} [DecidableRel p] {tenants : List Tenant} {s : Sys}

/-- With fenced `in_flight` updates, at most one delivery of an endpoint is in flight in every
reachable state. -/
theorem exclInv_of_reachable
    (hp : ∀ s₁, Reachable (restrict p (step cfg)) (.init tenants) s₁ → ∀ l, p s₁ l →
      Fenced ClaimStep.isMark s₁ l)
    (h : Reachable (restrict p (step cfg)) (.init tenants) s) : ExclInv s :=
  h.inv (.init tenants) fun s₁ l s₂ hr hi hs => by
    obtain ⟨hl, hs⟩ := restrict_eq_some.mp hs
    exact hi.step (leaseInv_of_reachable hr.of_restrict) (keyInv_of_reachable hr.of_restrict)
      (hp s₁ hr l hl) hs

end

/-! ### Terminal deliveries -/

/-- The two statements that start an attempt. -/
def ClaimStep.startsAttempt : ClaimStep → Bool
  | .insertAttempt _ | .markInFlight .. => true
  | _ => false

theorem startsAttempt_of_isMark (next : ClaimStep) (h : next.isMark = true) :
    next.startsAttempt = true := by
  cases next with
  | markInFlight => rfl
  | _ => cases h

section

variable {cfg : Config} {s s' : Sys} {l : Label} {tenants : List Tenant} {d : Delivery}
  {p : Sys → Label → Prop} [DecidableRel p]

/-- A step leaves a terminal delivery as it is. -/
theorem step_terminal (hk : KeyInv s) (hx : ExclInv s)
    (hf : Fenced ClaimStep.startsAttempt s l) (h : step cfg s l = some s')
    (hd : d ∈ s.store.deliveries) (ht : d.state.isTerminal = true) :
    d ∈ s'.store.deliveries := by
  cases step_move h with
  | tick _ _ _ store => rw [store]; exact hd
  | api _ _ _ h => rw [h.deliveries]; exact hd
  | worker w _ _ h =>
      obtain ⟨d', hd', hc⟩ := h.deliveries.mem hd
      cases hc with
      | keep => exact hd'
      | requeued _ _ _ state => rw [state] at ht; cases ht
      | marked hl hpc hid =>
          subst hl
          have hxw := hx.worker w
          rw [hpc] at hxw
          obtain ⟨-, hp⟩ := (hxw (hf.holds hpc rfl)).2.eq_of_mem hk.tables.deliveryIds hd hid
          rw [hp] at ht
          cases ht
      | resolved _ _ hpc hid held =>
          have hu := ((hx.worker w).complete hpc held).2
          rw [(hu.eq_of_mem hk.tables.deliveryIds hd hid).2] at ht
          cases ht

/-- A step inserts no attempt for a terminal delivery. -/
theorem step_terminal_attempts (hk : KeyInv s) (hx : ExclInv s)
    (hf : Fenced ClaimStep.startsAttempt s l) (h : step cfg s l = some s')
    (hd : d ∈ s.store.deliveries) (ht : d.state.isTerminal = true) :
    (s'.store.attemptsOf d.id).map (·.id) = (s.store.attemptsOf d.id).map (·.id) := by
  cases step_move h with
  | tick _ _ _ store => rw [store]
  | api _ _ _ h => unfold Store.attemptsOf; rw [h.attempts]
  | worker w _ _ h =>
      obtain ⟨g, new, heq, hg, hnew⟩ := h.attempts.attemptsOf d.id
      obtain rfl | ⟨c, head, rfl, hpc, hid, -⟩ := hnew
      · rw [heq, List.append_nil, List.map_map]
        exact List.map_congr_left fun a ha => (hg a ha).id_eq
      · -- the claim holds its lease, so its head is pending
        have hxw := hx.worker w
        rw [hpc] at hxw
        obtain ⟨-, hp⟩ := (hxw (hf.holds hpc rfl)).2.eq_of_mem hk.tables.deliveryIds hd hid.symm
        rw [hp] at ht
        cases ht

/-- Runs of such steps leave it as it is, and insert no attempt for it. -/
theorem terminal_of_reachable
    (hp : ∀ s₁, Reachable (restrict p (step cfg)) (.init tenants) s₁ → ∀ l, p s₁ l →
      Fenced ClaimStep.startsAttempt s₁ l)
    (h : Reachable (restrict p (step cfg)) (.init tenants) s) (hd : d ∈ s.store.deliveries)
    (ht : d.state.isTerminal = true) (h' : Reachable (restrict p (step cfg)) s s') :
    d ∈ s'.store.deliveries ∧
      (s'.store.attemptsOf d.id).map (·.id) = (s.store.attemptsOf d.id).map (·.id) := by
  refine h'.inv (I := fun s₁ => d ∈ s₁.store.deliveries ∧
    (s₁.store.attemptsOf d.id).map (·.id) = (s.store.attemptsOf d.id).map (·.id)) ⟨hd, rfl⟩ ?_
  rintro s₁ l s₂ hr ⟨hd₁, ha₁⟩ hs
  obtain ⟨hl, hs⟩ := restrict_eq_some.mp hs
  have hr₁ := h.trans hr
  have hf := hp s₁ hr₁ l hl
  have hk := keyInv_of_reachable hr₁.of_restrict
  have hx := exclInv_of_reachable
    (fun s hr l hl => (hp s hr l hl).mono startsAttempt_of_isMark) hr₁
  exact ⟨step_terminal hk hx hf hs hd₁ ht, (step_terminal_attempts hk hx hf hs hd₁ ht).trans ha₁⟩

end

end Webhooks
