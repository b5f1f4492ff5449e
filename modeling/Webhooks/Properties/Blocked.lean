import Webhooks.Api.GoHandlers
import Webhooks.Api.Handlers
import Webhooks.Protocol.Alone
import Webhooks.Properties.OneInFlight
import Webhooks.Properties.PublicationOrder

/-!
# Properties — Blocked

What `blocked_on_delivery_id` says of a pending delivery, and what the workers then do.  The read side
takes the lowest `seq` among `pending` and `in_flight`; a claim takes the lowest `pending` one, after a
requeue that it leaves out when it has seen the endpoint free.

* `SameQueue`: the same deliveries, the same ones unresolved; a claim keeps them.
* `Takes`: a claim on the endpoint that succeeds from a state, with nobody else moving.
* `takes_head`: it takes what the read side calls the head.
* **`blocked_agrees`**: in every timely run, with atomic expansions.
-/

namespace Webhooks

open Lib

/-! ### The queue of an endpoint -/

/-- Two rows of one delivery, both resolved or both not. -/
def Delivery.SameEntry (d d' : Delivery) : Prop :=
  d'.id = d.id ∧ d'.endpointId = d.endpointId ∧ d'.seq = d.seq ∧
    d'.state.isTerminal = d.state.isTerminal

/-- The same deliveries, with the same ones unresolved. -/
structure SameQueue (st st' : Store) : Prop where
  forth : ∀ d ∈ st.deliveries, ∃ d' ∈ st'.deliveries, d.SameEntry d'
  back : ∀ d' ∈ st'.deliveries, ∃ d ∈ st.deliveries, d.SameEntry d'

/-- The delivery is there, and the lowest unresolved one of the endpoint. -/
def HeadOf (st : Store) (endpointId id : Uuid) : Prop :=
  ∃ d ∈ st.deliveries, d.id = id ∧ d.IsHead st endpointId

section

variable {cfg : Config} {now : Time} {st st' st₁ : Store} {w : WorkerId} {pc pc' : Pc} {l : Label}
  {d d' : Delivery} {endpointId id id' : Uuid}

theorem Delivery.SameEntry.symm (h : d.SameEntry d') : d'.SameEntry d :=
  ⟨h.1.symm, h.2.1.symm, h.2.2.1.symm, h.2.2.2.symm⟩

theorem Delivery.SameEntry.trans {d'' : Delivery} (h : d.SameEntry d') (h' : d'.SameEntry d'') :
    d.SameEntry d'' :=
  ⟨h'.1.trans h.1, h'.2.1.trans h.2.1, h'.2.2.1.trans h.2.2.1, h'.2.2.2.trans h.2.2.2⟩

theorem SameQueue.refl (st : Store) : SameQueue st st :=
  ⟨fun d hd => ⟨d, hd, rfl, rfl, rfl, rfl⟩, fun d hd => ⟨d, hd, rfl, rfl, rfl, rfl⟩⟩

theorem SameQueue.symm (h : SameQueue st st') : SameQueue st' st where
  forth d' hd' := by
    obtain ⟨d, hd, hs⟩ := h.back d' hd'
    exact ⟨d, hd, hs.symm⟩
  back d hd := by
    obtain ⟨d', hd', hs⟩ := h.forth d hd
    exact ⟨d', hd', hs.symm⟩

theorem SameQueue.trans (h₁ : SameQueue st st₁) (h₂ : SameQueue st₁ st') : SameQueue st st' where
  forth d hd := by
    obtain ⟨d₁, hd₁, hs₁⟩ := h₁.forth d hd
    obtain ⟨d', hd', hs'⟩ := h₂.forth d₁ hd₁
    exact ⟨d', hd', hs₁.trans hs'⟩
  back d' hd' := by
    obtain ⟨d₁, hd₁, hs'⟩ := h₂.back d' hd'
    obtain ⟨d, hd, hs₁⟩ := h₁.back d₁ hd₁
    exact ⟨d, hd, hs₁.trans hs'⟩

/-- Its head is the head. -/
theorem SameQueue.headOf (h : SameQueue st st') (hh : HeadOf st endpointId id) :
    HeadOf st' endpointId id := by
  obtain ⟨d, hd, hid, ⟨he, hs⟩, hlow⟩ := hh
  obtain ⟨d', hd', hid', he', hseq, hs'⟩ := h.forth d hd
  refine ⟨d', hd', hid'.trans hid, ⟨he'.trans he, hs'.trans hs⟩, fun d₂' hd₂' he₂ hs₂ => ?_⟩
  obtain ⟨d₂, hd₂, -, he₂', hseq₂, hs₂'⟩ := h.back d₂' hd₂'
  rw [hseq, hseq₂]
  exact hlow d₂ hd₂ (he₂'.symm.trans he₂) (hs₂'.symm.trans hs₂)

theorem HeadOf.unique (hn : (st.deliveries.map (·.seq)).Nodup) (h : HeadOf st endpointId id)
    (h' : HeadOf st endpointId id') : id = id' := by
  obtain ⟨d, hd, rfl, hin, hlow⟩ := h
  obtain ⟨d', hd', rfl, hin', hlow'⟩ := h'
  have hle := hlow d' hd' hin'.1 hin'.2
  have hge := hlow' d hd hin.1 hin.2
  rw [Table.eq_of_key hn hd hd' (le_antisymm hle hge)]

theorem mem_unresolvedOf :
    d ∈ unresolvedOf st endpointId ↔
      d ∈ st.deliveries ∧ d.endpointId = endpointId ∧ d.state.isTerminal = false := by
  simp only [unresolvedOf, deliveriesOf, List.mem_filter, decide_eq_true_eq, and_assoc]
  cases hs : d.state <;> simp [Delivery.isUnresolved, DeliveryState.isTerminal, hs]

/-- The read side computes the head. -/
theorem headDeliveryId_eq_some (h : headDeliveryId st endpointId = some id) :
    HeadOf st endpointId id := by
  obtain ⟨d, hd, rfl⟩ := Option.map_eq_some_iff.mp h
  obtain ⟨hmem, hin⟩ := mem_unresolvedOf.mp (List.argmin_mem hd)
  exact ⟨d, hmem, rfl, hin, fun d' hd' he hs =>
    List.le_of_mem_argmin (mem_unresolvedOf.mpr ⟨hd', he, hs⟩) hd⟩

theorem headDeliveryId_isSome (hd : d ∈ st.deliveries) (hs : d.state.isTerminal = false) :
    (headDeliveryId st d.endpointId).isSome = true := by
  rw [headDeliveryId, Option.isSome_map, ← Option.ne_none_iff_isSome, ne_eq, List.argmin_eq_none]
  exact List.ne_nil_of_mem (mem_unresolvedOf.mpr ⟨hd, rfl, hs⟩)

/-! ### A claim and nothing else -/

/-- Not yet in `claimDelivery`, or in it before it has returned. -/
def Pc.isClaiming : Pc → Bool
  | .idle | .listing _ | .trying .. | .claiming .. => true
  | _ => false

/-- The clock, or the worker in `claimDelivery`. -/
def Label.isClaimOf (w : WorkerId) : Label → Prop
  | .tick _ => True
  | .start w' .claim | .query w' _ | .step w' => w' = w
  | _ => False

/-- The delivery a claim is about to return, or has returned, with its endpoint. -/
def Pc.taking : Pc → Option (Uuid × Uuid)
  | .claiming c (.finish head _ _) => some (c.candidate.id, head.id)
  | .holding claimed => some (claimed.endpointId, claimed.deliveryId)
  | _ => none

/-- What is taken was marked just before. -/
theorem WorkerMove.taking (h : WorkerMove cfg now st w pc l st' pc')
    (ht : pc'.taking = some (endpointId, id)) :
    pc.taking = some (endpointId, id) ∨ ∃ c head n attemptId,
      pc = .claiming c (.markInFlight head n attemptId) ∧ c.candidate.id = endpointId ∧ head.id = id := by
  cases h with
  | outside _ _ _ hout => cases pc' <;> cases hout <;> cases ht
  | mark =>
      cases ht
      exact .inr ⟨_, _, _, _, rfl, rfl, rfl⟩
  | finish hendpoint _ hdelivery =>
      refine .inl ?_
      rw [← ht, Pc.taking, Pc.taking, hendpoint, hdelivery]
  | _ => cases ht

theorem Delivery.Change.sameEntry (h : d.Change cfg st w pc l d') (hn : (st.deliveries.map (·.id)).Nodup)
    (hd : d ∈ st.deliveries) (hl : l.isClaimOf w)
    (hmark : ∀ c head n attemptId, pc = .claiming c (.markInFlight head n attemptId) →
      IsPending st c.candidate.id head.id) : d.SameEntry d' := by
  cases h with
  | keep => exact ⟨rfl, rfl, rfl, rfl⟩
  | requeued _ _ _ state => exact ⟨rfl, rfl, rfl, by rw [state]; rfl⟩
  | marked _ hpc hid =>
      obtain ⟨-, hs⟩ := (hmark _ _ _ _ hpc).eq_of_mem hn hd hid
      exact ⟨rfl, rfl, rfl, by rw [hs]; rfl⟩
  | resolved _ hl' =>
      subst hl'
      exact hl.elim

/-- A claim leaves the queue as it is. -/
theorem WorkerMove.sameQueue (h : WorkerMove cfg now st w pc l st' pc') (hk : TablesKeyed st)
    (hpc : pc.isClaiming = true) (hl : l.isClaimOf w)
    (hmark : ∀ c head n attemptId, pc = .claiming c (.markInFlight head n attemptId) →
      IsPending st c.candidate.id head.id) : SameQueue st st' := by
  have hd : DeliveriesChange cfg w pc l st st' := h.deliveries
  refine ⟨fun d hmem => ?_, fun d' hmem' => ?_⟩
  · obtain ⟨d', hmem', hc⟩ := hd.mem hmem
    exact ⟨d', hmem', hc.sameEntry hk.deliveryIds hmem hl hmark⟩
  · obtain ⟨d, hmem, hc⟩ | ⟨-, -, src, rows, rfl⟩ := hd.mem_cases hmem'
    · exact ⟨d, hmem, hc.sameEntry hk.deliveryIds hmem hl hmark⟩
    · cases hpc

end

section

variable {cfg : Config} {s s₁ s' : Sys} {w : WorkerId} {l : Label} {tenants : List Tenant}
  {endpointId id : Uuid}

/-- Where a worker stands that does nothing but claim. -/
def Pc.ClaimsOnly (pc : Pc) : Prop := pc.isClaiming = true ∨ ∃ claimed, pc = .holding claimed

theorem Pc.ClaimsOnly.not_inTransaction {pc : Pc} (h : pc.ClaimsOnly) : pc.inTransaction = false := by
  rcases h with h | ⟨claimed, rfl⟩
  · cases pc <;> first | rfl | cases h
  · rfl

theorem Pc.afterClaim_claimsOnly (c : Claim) (r : ClaimResult) : (Pc.afterClaim c r).ClaimsOnly := by
  cases r with
  | claimed claimed => exact .inr ⟨claimed, rfl⟩
  | _ => exact .inl rfl

theorem step_claimsOnly (hl : l.isClaimOf w) (hpc : (s.pcs w).ClaimsOnly) (h : step cfg s l = some s') :
    (s'.pcs w).ClaimsOnly := by
  cases l with
  | tick =>
      cases h
      exact hpc
  | start w' job =>
      cases job with
      | claim =>
          obtain rfl : w' = w := hl
          simp only [step] at h
          split at h <;> cases h
          rw [Sys.setPc_pcs_self]
          exact .inl rfl
      | _ => cases hl
  | query w' scan =>
      obtain rfl : w' = w := hl
      simp only [step] at h
      repeat' split at h
      all_goals cases h
      rw [Sys.setPc_pcs_self]
      exact .inl rfl
  | step w' =>
      obtain rfl : w' = w := hl
      rcases hpc with hpc | ⟨claimed, hpc⟩
      · cases heq : s.pcs w' with
        | trying cutoff cs =>
            cases cs with
            | nil =>
                simp only [step, workerStep, heq] at h
                cases h
                rw [Sys.setPc_pcs_self]
                exact .inl rfl
            | cons c rest =>
                simp only [step, workerStep, heq] at h
                split at h <;> cases h <;> rw [Sys.setPc_pcs_self] <;> exact .inl rfl
        | claiming c next =>
            simp only [step, workerStep, heq] at h
            cases h
            rw [Sys.setPc_pcs_self]
            exact Pc.afterClaim_claimsOnly c _
        | idle | listing =>
            simp only [step, workerStep, heq] at h
            cases h
        | _ => rw [heq] at hpc; cases hpc
      · simp only [step, workerStep, hpc] at h
        cases h
  | _ => cases hl

/-- A claim's step is no part of an expansion transaction. -/
theorem step_of_claim (hl : l.isClaimOf w) (hpc : (s.pcs w).ClaimsOnly)
    (h : atomicStep cfg s l = some s') : step cfg s l = some s' := by
  cases l with
  | step w' =>
      obtain rfl : w' = w := hl
      obtain ⟨t, ht, hf⟩ := Option.bind_eq_some_iff.mp h
      have hin := (step_claimsOnly (l := .step w') rfl hpc ht).not_inTransaction
      rw [finishTransaction, hin] at hf
      exact ht.trans hf
  | _ => exact h

/-- The steps of a claim by one worker, and of the clock, with no claim older than its lease. -/
def ClaimSteps (cfg : Config) (w : WorkerId) (s : Sys) (l : Label) : Prop :=
  Timely cfg s l ∧ l.isClaimOf w

noncomputable instance (cfg : Config) (w : WorkerId) : DecidableRel (ClaimSteps cfg w) := fun _ _ =>
  Classical.propDecidable _

/-- A claim on the endpoint succeeds from this state, with nobody else moving, and takes the delivery. -/
def Takes (cfg : Config) (s : Sys) (endpointId id : Uuid) : Prop :=
  ∃ w s' claimed, (s.pcs w).isClaiming = true ∧
    Reachable (restrict (ClaimSteps cfg w) (atomicStep cfg)) s s' ∧ s'.pcs w = .holding claimed ∧
    claimed.endpointId = endpointId ∧ claimed.deliveryId = id

/-- No live worker is inside a claim of the endpoint. -/
def NoClaimOn (s : Sys) (endpointId : Uuid) : Prop :=
  ∀ w c next, s.pcs w = .claiming c next → c.candidate.id ≠ endpointId

theorem ignoresExpansion_timely : IgnoresExpansion (Timely cfg) := fun _ _ _ => trivial

/-- What is known of a claim since a state in which there was none on the endpoint. -/
structure ClaimInv (s s' : Sys) (w : WorkerId) (endpointId : Uuid) : Prop where
  queue : SameQueue s.store s'.store
  claims : (s'.pcs w).ClaimsOnly
  taking : ∀ id, (s'.pcs w).taking = some (endpointId, id) → HeadOf s'.store endpointId id

theorem Label.isClaimOf_cases (hl : l.isClaimOf w) : (∃ ms, l = .tick ms) ∨ l.worker = some w := by
  cases l with
  | tick ms => exact .inl ⟨ms, rfl⟩
  | start w' job =>
      cases job with
      | claim => exact .inr (congrArg some hl)
      | _ => cases hl
  | query | step => exact .inr (congrArg some hl)
  | _ => cases hl

/-- A worker that has its delivery claims no more. -/
theorem step_holding {claimed : ClaimedDelivery} (hl : l.isClaimOf w) (hpc : s.pcs w = .holding claimed)
    (h : step cfg s l = some s') : s'.store = s.store ∧ s'.pcs = s.pcs := by
  cases l with
  | tick =>
      cases h
      exact ⟨rfl, rfl⟩
  | start w' job =>
      cases job with
      | claim =>
          obtain rfl : w' = w := hl
          simp only [step, hpc] at h
          cases h
      | _ => cases hl
  | query w' | step w' =>
      obtain rfl : w' = w := hl
      simp only [step, workerStep, hpc] at h
      cases h
  | _ => cases hl

theorem step_claiming_move (hl : l.isClaimOf w) (h : step cfg s l = some s') :
    (s'.store = s.store ∧ s'.pcs = s.pcs) ∨
      WorkerMove cfg s.now s.store w (s.pcs w) l s'.store (s'.pcs w) := by
  rcases Label.isClaimOf_cases hl with ⟨ms, rfl⟩ | hw
  · cases h
    exact .inl ⟨rfl, rfl⟩
  cases step_move h with
  | tick _ _ _ store pcs => exact .inl ⟨store, pcs⟩
  | api hnone => rw [hnone] at hw; cases hw
  | worker w' _ _ hm =>
      obtain rfl : w' = w := Option.some.inj (hm.worker_eq.symm.trans hw)
      exact .inr hm

/-- In a timely run, what a claim is about to mark is the head, and pending. -/
theorem head_of_mark (hr : Reachable (restrict (Timely cfg) (atomicStep cfg)) (.init tenants) s)
    {c : Claim} {head : DeliveryRow} {n : Nat} {attemptId : Uuid}
    (hpc : s.pcs w = .claiming c (.markInFlight head n attemptId)) :
    IsPending s.store c.candidate.id head.id ∧ HeadOf s.store c.candidate.id head.id := by
  classical
  obtain ⟨hser, -⟩ := serial_of_atomic ignoresExpansion_timely hr
  have ht : ∀ s l, Timely cfg s l ∧ Serial s l → Timely cfg s l := fun _ _ h => h.1
  have hfenced : ∀ s₁, Reachable (restrict (fun s l => Timely cfg s l ∧ Serial s l) (step cfg))
      (.init tenants) s₁ → ∀ l, Timely cfg s₁ l ∧ Serial s₁ l → Fenced ClaimStep.isMark s₁ l :=
    fun _ hr l _ => fenced_of_timely ht hr ClaimStep.isMark l
  have hholds := holds_of_timely ht hser hpc
  have hx := (exclInv_of_reachable hfenced hser).worker w
  rw [hpc] at hx
  obtain ⟨-, d, hd, hid, he, hs⟩ := hx hholds
  refine ⟨⟨d, hd, hid, he, hs⟩, d, hd, hid, ⟨he, by rw [hs]; rfl⟩, ?_⟩
  exact headInv_of_reachable hfenced (fun _ hr => ordered_of_serial (fun _ _ _ hl => hl.2) hr) hser
    w c _ head hpc rfl hholds d hd hid

theorem keyed_of_atomic (hr : Reachable (restrict (Timely cfg) (atomicStep cfg)) (.init tenants) s) :
    TablesKeyed s.store := by
  classical
  exact (keyInv_of_reachable (serial_of_atomic ignoresExpansion_timely hr).1.of_restrict).tables

theorem ClaimInv.next (hr : Reachable (restrict (Timely cfg) (atomicStep cfg)) (.init tenants) s₁)
    (hi : ClaimInv s s₁ w endpointId) (hl : l.isClaimOf w) (h : step cfg s₁ l = some s') :
    ClaimInv s s' w endpointId := by
  have hclaims := step_claimsOnly hl hi.claims h
  have hsame : s'.store = s₁.store ∧ s'.pcs = s₁.pcs → ClaimInv s s' w endpointId := by
    rintro ⟨hstore, hpcs⟩
    refine ⟨by rw [hstore]; exact hi.queue, hclaims, fun id hid => ?_⟩
    rw [hstore]
    exact hi.taking id (by rw [← hpcs]; exact hid)
  rcases hi.claims with hpc | ⟨claimed, hpc⟩
  · rcases step_claiming_move hl h with hstay | hm
    · exact hsame hstay
    have hq := hm.sameQueue (keyed_of_atomic hr) hpc hl fun _ _ _ _ hpc => (head_of_mark hr hpc).1
    refine ⟨hi.queue.trans hq, hclaims, fun id hid => hq.headOf ?_⟩
    rcases hm.taking hid with ht | ⟨c, head, n, attemptId, hpc, rfl, rfl⟩
    · exact hi.taking id ht
    · exact (head_of_mark hr hpc).2
  · exact hsame (step_holding hl hpc h)

/-- What a claim takes is what the read side calls the head. -/
theorem takes_head (hr : Reachable (restrict (Timely cfg) (atomicStep cfg)) (.init tenants) s)
    (hout : NoClaimOn s endpointId) (h : Takes cfg s endpointId id) : HeadOf s.store endpointId id := by
  obtain ⟨w, s', claimed, hpc, hrun, hholding, rfl, rfl⟩ := h
  have hi : ClaimInv s s' w claimed.endpointId := by
    refine (hrun.inv (I := fun s' => Reachable (restrict (Timely cfg) (atomicStep cfg)) (.init tenants) s' ∧
      ClaimInv s s' w claimed.endpointId) ⟨hr, .refl _, .inl hpc, fun id hid => ?_⟩ ?_).2
    · -- there is no claim on the endpoint to begin with
      cases heq : s.pcs w with
      | claiming c next =>
          rw [heq] at hid
          cases next with
          | finish =>
              simp only [Pc.taking, Option.some.injEq, Prod.mk.injEq] at hid
              exact absurd hid.1 (hout w c _ heq)
          | _ => cases hid
      | holding => rw [heq] at hpc; cases hpc
      | _ => rw [heq] at hid; cases hid
    · rintro t l t' - ⟨hr, hi⟩ hs
      obtain ⟨⟨htimely, hl⟩, hs⟩ := restrict_eq_some.mp hs
      exact ⟨hr.tail (restrict_eq_some.mpr ⟨htimely, hs⟩),
        hi.next hr hl (step_of_claim hl hi.claims hs)⟩
  exact hi.queue.symm.headOf (hi.taking _ (by rw [hholding]; rfl))

/-! ### The attempts of a blocked delivery -/

/-- The rest of an expansion transaction starts no attempt. -/
theorem finishTransaction_attempts {n : Nat} (h : finishTransaction cfg w n s = some s') :
    s'.store.attempts = s.store.attempts := by
  induction n generalizing s with
  | zero => cases h; rfl
  | succ n ih =>
      unfold finishTransaction at h
      split at h
      · next hin =>
          obtain ⟨t, ht, h⟩ := Option.bind_eq_some_iff.mp h
          rw [ih h]
          cases hpc : s.pcs w with
          | selecting =>
              simp only [workerStep, hpc] at ht
              split at ht <;> cases ht <;> rfl
          | inserting | marking =>
              simp only [workerStep, hpc] at ht
              cases ht
              rfl
          | committing src =>
              simp only [workerStep, hpc] at ht
              cases ht
              cases src <;> rfl
          | _ => rw [hpc] at hin; cases hin
      · cases h; rfl

/-- A new attempt is the head's of a claim. -/
theorem atomicStep_newAttempt (h : atomicStep cfg s l = some s') {a : Attempt}
    (ha : a ∈ s'.store.attempts) (hnew : ∀ a' ∈ s.store.attempts, a'.id ≠ a.id) :
    ∃ w c head, s.pcs w = .claiming c (.insertAttempt head) ∧ a.deliveryId = head.id := by
  have hstep : ∃ t, step cfg s l = some t ∧ a ∈ t.store.attempts := by
    cases l with
    | step w =>
        obtain ⟨t, ht, hf⟩ := Option.bind_eq_some_iff.mp h
        rw [finishTransaction_attempts hf] at ha
        exact ⟨t, ht, ha⟩
    | _ => exact ⟨s', h, ha⟩
  obtain ⟨t, ht, ha⟩ := hstep
  obtain ⟨w, c, head, hpc, hid, -⟩ := step_newAttempt ht ha hnew
  exact ⟨w, c, head, hpc, hid⟩

/-- A delivery starts an attempt only when those before it on its endpoint are resolved. -/
theorem attempted_in_order (hr : Reachable (restrict (Timely cfg) (atomicStep cfg)) (.init tenants) s)
    {d h : Delivery} (hd : d ∈ s.store.deliveries) (hh : h ∈ s.store.deliveries)
    (he : h.endpointId = d.endpointId) (hlt : h.seq < d.seq)
    (hr₁ : Reachable (restrict (Timely cfg) (atomicStep cfg)) s s₁) (hs : atomicStep cfg s₁ l = some s')
    {a : Attempt} (ha : a ∈ s'.store.attempts) (hnew : ∀ a' ∈ s₁.store.attempts, a'.id ≠ a.id)
    (hof : a.deliveryId = d.id) :
    ∃ h' ∈ s₁.store.deliveries, h'.id = h.id ∧ h'.state.isTerminal = true := by
  classical
  have ht : ∀ s l, Timely cfg s l ∧ Serial s l → Timely cfg s l := fun _ _ h => h.1
  obtain ⟨hser, hquiet⟩ := serial_of_atomic ignoresExpansion_timely hr
  obtain ⟨hser₁, -⟩ := serial_of_quiescent ignoresExpansion_timely hquiet hr₁
  have hr' := hser.trans hser₁
  have hgrows := grows_of_reachable hser.of_restrict hser₁.of_restrict
  obtain ⟨d₁, hd₁, hdid, -, hde, hdseq⟩ := hgrows.deliveries d hd
  obtain ⟨h₁, hh₁, hhid, -, hhe, hhseq⟩ := hgrows.deliveries h hh
  obtain ⟨w, c, head, hpc, hhead⟩ := atomicStep_newAttempt hs ha hnew
  have hid : d₁.id = head.id := hdid.trans (hof.symm.trans hhead)
  have hlow : Lowest s₁.store c.candidate.id head.id :=
    headInv_of_reachable (fun _ hr l _ => fenced_of_timely ht hr ClaimStep.isMark l)
      (fun _ hr => ordered_of_serial (fun _ _ _ hl => hl.2) hr) hr' w c _ head hpc rfl
      (holds_of_timely ht hr' hpc)
  have hk := keyInv_of_reachable hr'.of_restrict
  have hon := hk.worker w
  rw [hpc] at hon
  have hend : d₁.endpointId = c.candidate.id := hon.endpointId_eq hk.tables.deliveryIds hd₁ hid
  refine ⟨h₁, hh₁, hhid, ?_⟩
  by_contra hterm
  have hle := hlow d₁ hd₁ hid h₁ hh₁ (hhe.trans (he.trans (hde.symm.trans hend))) (by simpa using hterm)
  rw [hdseq, hhseq] at hle
  exact absurd hlt (not_lt.mpr hle)

end

/-! ### What the read side reports -/

section

variable {cfg : Config} {s : Sys} {tenants : List Tenant} {d : Delivery}

/-- The two stacks compute the same. -/
theorem computeBlocked_eq (r : Delivery) (head : Option Uuid) :
    Go.computeBlockedOnDeliveryID r head = Node.computeBlockedOnDeliveryId r head := by
  by_cases hs : r.state = .pending <;> by_cases hh : head = some r.id <;>
    simp [Go.computeBlockedOnDeliveryID, Node.computeBlockedOnDeliveryId, hs, hh]

theorem blocked_eq_none_iff (hs : d.state = .pending) {head : Option Uuid} (hh : head.isSome = true) :
    Node.computeBlockedOnDeliveryId d head = none ↔ head = some d.id := by
  obtain ⟨id, rfl⟩ := Option.isSome_iff_exists.mp hh
  by_cases hid : id = d.id <;> simp [Node.computeBlockedOnDeliveryId, hs, hid]

theorem blocked_eq_some {head : Option Uuid} {id : Uuid}
    (h : Node.computeBlockedOnDeliveryId d head = some id) : head = some id ∧ id ≠ d.id := by
  simp only [Node.computeBlockedOnDeliveryId, Bool.and_eq_true, decide_eq_true_eq] at h
  split at h
  · next hc =>
      refine ⟨h, fun hid => hc.2 ?_⟩
      rw [h, hid]
  · cases h

/-- **Blocked agrees with the claim**, in every timely run with atomic expansions, for every pending
delivery of an endpoint that nobody is claiming: with nothing reported a claim that succeeds takes this
delivery; with one reported, that one is an unresolved delivery before it, a claim takes that one, and
this one starts no attempt until that one has been resolved. -/
theorem blocked_agrees (p : Platform)
    (hr : Reachable (restrict (Timely cfg) (atomicStep cfg)) (.init tenants) s)
    (hd : d ∈ s.store.deliveries) (hs : d.state = .pending) (hout : NoClaimOn s d.endpointId) :
    (Go.serializeDeliverySummary p s.store d).blockedOnDeliveryId =
        (Node.serializeDeliverySummary p s.store d).blockedOnDeliveryId ∧
    ((Node.serializeDeliverySummary p s.store d).blockedOnDeliveryId = none →
      ∀ id, Takes cfg s d.endpointId id → id = d.id) ∧
    ∀ id, (Node.serializeDeliverySummary p s.store d).blockedOnDeliveryId = some id →
      (∃ h ∈ s.store.deliveries, h.id = id ∧ h.endpointId = d.endpointId ∧
        h.state.isTerminal = false ∧ h.seq < d.seq) ∧
      (∀ id', Takes cfg s d.endpointId id' → id' = id ∧ id' ≠ d.id) ∧
      ∀ s₁ l s₂ a, Reachable (restrict (Timely cfg) (atomicStep cfg)) s s₁ →
        restrict (Timely cfg) (atomicStep cfg) s₁ l = some s₂ → a ∈ s₂.store.attempts →
        (∀ a' ∈ s₁.store.attempts, a'.id ≠ a.id) → a.deliveryId = d.id →
          ∃ h ∈ s₁.store.deliveries, h.id = id ∧ h.state.isTerminal = true := by
  have hseqs := (keyed_of_atomic hr).deliverySeqs
  have hun : d.state.isTerminal = false := by rw [hs]; rfl
  refine ⟨computeBlocked_eq d _, fun hnone id ht => ?_, fun id hid => ?_⟩
  · have hhead := headDeliveryId_eq_some
      ((blocked_eq_none_iff hs (headDeliveryId_isSome hd hun)).mp hnone)
    exact (takes_head hr hout ht).unique hseqs hhead
  · obtain ⟨heq, hne⟩ := blocked_eq_some hid
    have hhead := headDeliveryId_eq_some heq
    obtain ⟨h, hh, rfl, ⟨he, hst⟩, hlow⟩ := hhead
    have hlt : h.seq < d.seq := by
      refine lt_of_le_of_ne (hlow d hd rfl hun) fun heq => hne ?_
      rw [Table.eq_of_key hseqs hh hd heq]
    refine ⟨⟨h, hh, rfl, he, hst, hlt⟩, fun id' ht => ?_, fun s₁ l s₂ a hr₁ hs₁ ha hnew hof => ?_⟩
    · have hid' := (takes_head hr hout ht).unique hseqs (headDeliveryId_eq_some heq)
      exact ⟨hid', hid' ▸ hne⟩
    · exact attempted_in_order hr hd hh he hlt hr₁ (restrict_eq_some.mp hs₁).2 ha hnew hof

end

/-! ### Two events for one endpoint -/

section

variable {cfg : Config} {s s' : Sys} {w : WorkerId} {labels : List Label}

theorem finishTransaction_pcs_of_ne {n : Nat} {w' : WorkerId} (hw : w' ≠ w)
    (h : finishTransaction cfg w n s = some s') : s'.pcs w' = s.pcs w' := by
  induction n generalizing s with
  | zero => cases h; rfl
  | succ n ih =>
      unfold finishTransaction at h
      split at h
      · obtain ⟨t, ht, h⟩ := Option.bind_eq_some_iff.mp h
        rw [ih h, workerStep_pcs_of_ne ht hw]
      · cases h; rfl

/-- A worker that is never picked stays where it is. -/
theorem pcs_of_run (hl : ∀ l ∈ labels, l.worker ≠ some w) (h : run (atomicStep cfg) s labels = some s') :
    s'.pcs w = s.pcs w := by
  induction labels generalizing s with
  | nil => cases h; rfl
  | cons l labels ih =>
      rw [run_cons] at h
      obtain ⟨t, ht, h⟩ := Option.bind_eq_some_iff.mp h
      rw [ih (fun l hl' => hl l (List.mem_cons_of_mem _ hl')) h]
      have hne := hl l List.mem_cons_self
      have hstep : ∀ t, step cfg s l = some t → t.pcs w = s.pcs w := by
        intro t ht
        cases step_move ht with
        | tick _ _ _ _ pcs | api _ _ pcs => rw [pcs]
        | worker w' _ pcs hm => exact pcs w fun hww => hne (hww ▸ hm.worker_eq)
      cases l with
      | step w' =>
          obtain ⟨t', ht', hf⟩ := Option.bind_eq_some_iff.mp ht
          have hw : w ≠ w' := fun hww => hne (congrArg some hww.symm)
          rw [finishTransaction_pcs_of_ne hw hf, workerStep_pcs_of_ne ht' hw]
      | _ => exact hstep t ht

end

open Sample

/-- The worker holds the first delivery of the endpoint. -/
def holdsFirst : Pc → Bool
  | .holding claimed => claimed.endpointId = 0 && claimed.deliveryId = 3
  | _ => false

def isTick : Label → Bool
  | .tick _ => true
  | _ => false

theorem blocked_agrees_sample : ∃ s d id,
    Reachable (restrict (Timely config) (atomicStep config)) start s ∧ d ∈ s.store.deliveries ∧
    d.state = .pending ∧ (Node.serializeDeliverySummary platform s.store d).blockedOnDeliveryId = some id ∧
    Takes config s d.endpointId id ∧ (∃ h ∈ s.store.deliveries, h.id = id ∧
      h.endpointId = d.endpointId ∧ h.state.isTerminal = false ∧ h.seq < d.seq) := by
  obtain ⟨s, s', hs, hs', hp⟩ := exists_of_runs (atomicStep config) start twoDeliveries (claim 1 none 7)
    (fun s s' => (s.store.deliveries.any fun d => d.id = 4 && d.state = .pending && d.endpointId = 0 &&
        (Node.serializeDeliverySummary platform s.store d).blockedOnDeliveryId = some 3) &&
      s.pcs 0 = .idle && s.pcs 1 = .idle && holdsFirst (s'.pcs 1)) (by decide)
  simp only [Bool.and_eq_true, List.any_eq_true, decide_eq_true_eq] at hp
  obtain ⟨⟨⟨⟨d, hd, ⟨⟨hid, hpending⟩, hendpoint⟩, hblocked⟩, hidle₀⟩, hidle₁⟩, hholding⟩ := hp
  have htimely : run (restrict (Timely config) (atomicStep config)) start twoDeliveries = some s := by
    rw [run_restrict fun l hl t => ?_]
    · exact hs
    · have hnoTick : twoDeliveries.all (fun l => !isTick l) = true := by decide
      have hl := List.all_eq_true.mp hnoTick l hl
      cases l with
      | tick => cases hl
      | _ => trivial
  have hclaim : run (restrict (ClaimSteps config 1) (atomicStep config)) s (claim 1 none 7) = some s' := by
    rw [run_restrict fun l hl t => ?_]
    · exact hs'
    · simp only [claim, List.mem_append, List.mem_cons, List.not_mem_nil, or_false,
        List.mem_replicate] at hl
      rcases hl with (rfl | rfl) | ⟨-, rfl⟩ <;> exact ⟨trivial, rfl⟩
  have hidle : ∀ w, s.pcs w = .idle := by
    intro w
    by_cases hw : w = 0
    · rw [hw]
      exact hidle₀
    · refine pcs_of_run (fun l hl heq => hw ?_) hs
      have hfirst : twoDeliveries.all (fun l => l.worker.all (· = 0)) = true := by decide
      have hl := List.all_eq_true.mp hfirst l hl
      rw [heq] at hl
      simpa using hl
  have htakes : Takes config s d.endpointId 3 := by
    rw [hendpoint]
    unfold holdsFirst at hholding
    split at hholding
    · next claimed hpc =>
        simp only [Bool.and_eq_true, decide_eq_true_eq] at hholding
        exact ⟨1, s', claimed, by rw [hidle₁]; rfl, .of_run hclaim, hpc, hholding⟩
    · cases hholding
  obtain ⟨-, -, h⟩ := blocked_agrees platform (.of_run htimely) hd hpending
    fun w c next hpc => by rw [hidle w] at hpc; cases hpc
  exact ⟨s, d, 3, .of_run htimely, hd, hpending, hblocked, htakes, (h 3 hblocked).1⟩

end Webhooks
