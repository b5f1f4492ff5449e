import Webhooks.Protocol.Moves

/-!
# Protocol — Rows

What one worker's step does to the rows of each table.  No statement deletes a row: a step
rewrites the rows of a table one by one and may insert new ones behind them.

* `completeDelivery_cases`: the write-back changes nothing, or makes all its changes.
* `Endpoint.Change`, `Delivery.Change`, `Attempt.Change`: how a step of a worker may rewrite one
  row, and where the worker stands when it does.
* `WorkerMove.endpoints`, `WorkerMove.deliveries`, `WorkerMove.attempts`: every step rewrites the
  rows of the table in one of these ways.
-/

namespace Webhooks

open Lib

/-! ### The lease column -/

/-- The endpoint's `lease_id` is `leaseId`. -/
def Holds (st : Store) (endpointId leaseId : Uuid) : Prop :=
  ∃ e ∈ st.endpoints, e.id = endpointId ∧ e.leaseId = some leaseId

instance (st : Store) (endpointId leaseId : Uuid) : Decidable (Holds st endpointId leaseId) :=
  inferInstanceAs (Decidable (∃ e ∈ st.endpoints, e.id = endpointId ∧ e.leaseId = some leaseId))

theorem holds_of_currentLease {st : Store} {endpointId leaseId : Uuid}
    (h : currentLease st endpointId = some leaseId) : Holds st endpointId leaseId := by
  obtain ⟨e, he, hl⟩ := Option.bind_eq_some_iff.mp h
  exact ⟨e, List.mem_of_find?_eq_some he, by simpa using List.find?_some he, hl⟩

theorem currentLease_of_holds {st : Store} {endpointId leaseId : Uuid}
    (hn : (st.endpoints.map (·.id)).Nodup) (h : Holds st endpointId leaseId) :
    currentLease st endpointId = some leaseId := by
  obtain ⟨e, he, rfl, hl⟩ := h
  unfold currentLease
  cases hf : st.endpoints.find? fun e' => e'.id = e.id with
  | none => exact absurd (List.find?_eq_none.mp hf e he) (by simp)
  | some e' =>
      have : e' = e := Table.eq_of_key hn (List.mem_of_find?_eq_some hf) he
        (by simpa using List.find?_some hf)
      rw [this]
      exact hl

/-! ### The write-back -/

/-- What the write-back does with the delivery when it commits. -/
def resolution (cfg : Config) (claimed : ClaimedDelivery) (result : AttemptOutcome) :
    CompleteDeliveryOutcome :=
  if result.isSuccess then .succeeded
  else if cfg.backoff.maxAttempts ≤ claimed.attemptNumber then .halted
  else .retrying

/-- The delivery row afterwards. -/
def Delivery.resolve (o : CompleteDeliveryOutcome) (retryAt : Time) (d : Delivery) : Delivery :=
  match o with
  | .succeeded => { d with state := .succeeded }
  | .halted => { d with state := .failed }
  | .retrying | .leaseLost => { d with state := .pending, nextAttemptAt := retryAt }

/-- The endpoint row afterwards. -/
def Endpoint.resolve (o : CompleteDeliveryOutcome) (e : Endpoint) : Endpoint :=
  if o = .halted then { e with status := .halted }.released else e.released

/-- The attempt row afterwards. -/
def Attempt.close (r : AttemptOutcome) (a : Attempt) : Attempt :=
  { a with
    responseStatus := r.responseStatus
    responseBodyTruncated := some r.responseBodyTruncated
    durationMs := some r.durationMs
    errorClass := r.errorClass }

/-- The store after a committed write-back. -/
def writeBack (cfg : Config) (now : Time) (st : Store) (claimed : ClaimedDelivery)
    (result : AttemptOutcome) (random : Jitter) : Store :=
  let o := resolution cfg claimed result
  let retryAt := now + computeBackoffDelayMs claimed.attemptNumber cfg.backoff random
  { st with
    attempts := Table.update (fun a => a.id = claimed.attemptId) (Attempt.close result) st.attempts
    deliveries := Table.update (fun d => d.id = claimed.deliveryId) (Delivery.resolve o retryAt)
      st.deliveries
    endpoints := Table.update (fun e => e.id = claimed.endpointId) (Endpoint.resolve o) st.endpoints }

section

variable {cfg : Config} {now : Time} {st st' : Store} {claimed : ClaimedDelivery}
  {result : AttemptOutcome} {random : Jitter} {fault : Option CompleteStatement}
  {o : CompleteDeliveryOutcome}

theorem releaseEndpoint_haltEndpoint (id : Uuid) :
    (releaseEndpoint (haltEndpoint st id) id) =
      { st with
        endpoints := Table.update (fun e => e.id = id)
          (fun e => { e with status := .halted }.released) st.endpoints } := by
  simp only [releaseEndpoint, haltEndpoint, Table.update, List.map_map]
  congr 1
  refine List.map_congr_left fun e _ => ?_
  by_cases h : e.id = id <;> simp [h]

theorem completeStatements_eq_some
    (h : completeStatements cfg now st claimed result random fault = some (o, st')) :
    o = resolution cfg claimed result ∧ st' = writeBack cfg now st claimed result random ∧
      acceptsText result.responseBodyTruncated = true := by
  unfold completeStatements at h
  by_cases ha : acceptsText result.responseBodyTruncated = true
  case neg => simp [ha] at h
  -- each statement that is not refused goes on
  have hsend : ∀ {stmt : CompleteStatement} {s s' : Store},
      (if fault = some stmt then none else some s) = some s' ↔ fault ≠ some stmt ∧ s = s' := by
    intro stmt s s'
    split <;> simp_all
  simp only [ha, Bool.not_true, Bool.false_eq_true, if_false, Option.bind_eq_some_iff, hsend] at h
  obtain ⟨_, ⟨-, rfl⟩, ⟨o', s'⟩, hr, _, ⟨-, rfl⟩, hc⟩ := h
  obtain ⟨_, h, ⟨⟩⟩ := Option.map_eq_some_iff.mp hc
  obtain ⟨-, rfl⟩ := hsend.mp h
  unfold writeBack resolution
  split at hr
  case isTrue hs =>
      obtain ⟨_, h, ⟨⟩⟩ := Option.map_eq_some_iff.mp hr
      obtain ⟨-, rfl⟩ := hsend.mp h
      rw [if_pos hs]
      exact ⟨rfl, rfl, ha⟩
  case isFalse hs =>
      rw [if_neg hs]
      split at hr
      case isTrue hm =>
          obtain ⟨_, h, hr⟩ := Option.bind_eq_some_iff.mp hr
          obtain ⟨-, rfl⟩ := hsend.mp h
          obtain ⟨_, h, ⟨⟩⟩ := Option.map_eq_some_iff.mp hr
          obtain ⟨-, rfl⟩ := hsend.mp h
          rw [if_pos hm, releaseEndpoint_haltEndpoint]
          exact ⟨rfl, rfl, ha⟩
      case isFalse hm =>
          obtain ⟨_, h, ⟨⟩⟩ := Option.map_eq_some_iff.mp hr
          obtain ⟨-, rfl⟩ := hsend.mp h
          rw [if_neg hm]
          exact ⟨rfl, rfl, ha⟩

/-- The write-back throws or finds its lease lost and changes nothing, or it holds the lease and
makes all its changes. -/
theorem completeDelivery_cases (cfg : Config) (now : Time) (st : Store) (claimed : ClaimedDelivery)
    (result : AttemptOutcome) (random : Jitter) (fault : Option CompleteStatement) :
    (completeDelivery cfg now st claimed result random fault = (none, st)) ∨
    (currentLease st claimed.endpointId ≠ some claimed.leaseId ∧
      completeDelivery cfg now st claimed result random fault = (some .leaseLost, st)) ∨
    (currentLease st claimed.endpointId = some claimed.leaseId ∧
      acceptsText result.responseBodyTruncated = true ∧
      completeDelivery cfg now st claimed result random fault =
        (some (resolution cfg claimed result), writeBack cfg now st claimed result random)) := by
  unfold completeDelivery
  split
  · exact .inl rfl
  split
  case isTrue h => exact .inr (.inl ⟨h, rfl⟩)
  case isFalse h =>
      split
      case h_1 => exact .inl rfl
      case h_2 o st' hs =>
          obtain ⟨rfl, rfl, ha⟩ := completeStatements_eq_some hs
          exact .inr (.inr ⟨not_not.mp h, ha, rfl⟩)

/-- The write-back commits when it holds the lease, the body is accepted and nothing is refused. -/
theorem completeDelivery_commits (hl : currentLease st claimed.endpointId = some claimed.leaseId)
    (ha : acceptsText result.responseBodyTruncated = true) :
    completeDelivery cfg now st claimed result random none =
      (some (resolution cfg claimed result), writeBack cfg now st claimed result random) := by
  have hsome : ∃ r, completeStatements cfg now st claimed result random none = some r := by
    unfold completeStatements
    simp only [ha, Bool.not_true, Bool.false_eq_true, if_false, reduceCtorEq, Option.bind_some,
      Option.map_some]
    split
    · exact ⟨_, rfl⟩
    · split <;> exact ⟨_, rfl⟩
  obtain ⟨⟨o, st'⟩, hs⟩ := hsome
  obtain ⟨rfl, rfl, -⟩ := completeStatements_eq_some hs
  simp [completeDelivery, hl, hs]

end

/-! ### Endpoint rows -/

/-- How a step of a worker at `pc`, from `st` to `st'`, may rewrite an endpoint row. -/
inductive Endpoint.Change (now : Time) (pc : Pc) (st st' : Store) (e e' : Endpoint) : Prop
  | keep (busy : e'.busy = e.busy) (busySince : e'.busySince = e.busySince)
      (leaseId : e'.leaseId = e.leaseId)
  | claimed {cutoff : Time} (hpc : pc.cutoff = some cutoff) (free : e.isFree cutoff = true)
      (supply : st.uuids < st'.uuids) (busy : e'.busy = true) (busySince : e'.busySince = some now)
      (leaseId : e'.leaseId = some st.uuids)
  | released {leaseId : Uuid} (hpc : pc.lease = some (e.id, leaseId)) (held : e.leaseId = some leaseId)
      (busy : e'.busy = false) (busySince : e'.busySince = none) (none : e'.leaseId = none)

/-- A new endpoint row: its identifier is fresh and nobody holds it. -/
structure Endpoint.IsNew (st st' : Store) (e : Endpoint) : Prop where
  le : st.uuids ≤ e.id
  lt : e.id < st'.uuids
  busy : e.busy = false
  busySince : e.busySince = none
  leaseId : e.leaseId = none

/-- The endpoints are rewritten row by row, with new endpoints behind. -/
def EndpointsChange (now : Time) (pc : Pc) (st st' : Store) : Prop :=
  ∃ g new, st'.endpoints = st.endpoints.map g ++ new ∧
    (∀ e ∈ st.endpoints,
      ((g e).id = e.id ∧ (g e).tenantId = e.tenantId ∧ (g e).eventTypes = e.eventTypes) ∧
      Endpoint.Change now pc st st' e (g e)) ∧
    (∀ e ∈ new, Endpoint.IsNew st st' e) ∧ (new.map (·.id)).Nodup

section

variable {cfg : Config} {now : Time} {st st' : Store} {w : WorkerId} {pc pc' : Pc} {l : Label}

theorem EndpointsChange.of_eq (h : st'.endpoints = st.endpoints) : EndpointsChange now pc st st' :=
  ⟨id, [], by simp [h], fun _ _ => ⟨⟨rfl, rfl, rfl⟩, .keep rfl rfl rfl⟩, nofun, .nil⟩

/-- An `UPDATE endpoints`. -/
theorem EndpointsChange.of_update {p : Endpoint → Bool} {f : Endpoint → Endpoint}
    (heq : st'.endpoints = Table.update p f st.endpoints)
    (hf : ∀ e, (f e).id = e.id ∧ (f e).tenantId = e.tenantId ∧ (f e).eventTypes = e.eventTypes)
    (h : ∀ e ∈ st.endpoints, p e = true → Endpoint.Change now pc st st' e (f e)) :
    EndpointsChange now pc st st' := by
  refine ⟨_, [], heq.trans (List.append_nil _).symm, fun e he => ?_, nofun, .nil⟩
  cases hp : p e with
  | true => exact ⟨hf e, h e he hp⟩
  | false => exact ⟨⟨rfl, rfl, rfl⟩, .keep rfl rfl rfl⟩

theorem Endpoint.id_of_isClaimable {id cutoff : Nat} {e : Endpoint} (h : e.isClaimable id cutoff = true) :
    e.id = id := by
  simp only [Endpoint.isClaimable, Bool.and_eq_true, decide_eq_true_eq] at h
  exact h.1.1

theorem claimEndpoint_some {id cutoff : Nat} {leaseId : Uuid}
    (h : claimEndpoint st now id cutoff = (some leaseId, st')) :
    leaseId = st.uuids ∧ st.endpoints.any (Endpoint.isClaimable id cutoff) = true ∧
      st' = { st with
        endpoints := Table.update (Endpoint.isClaimable id cutoff)
          (fun e => { e with busy := true, busySince := some now, leaseId := some st.uuids })
          st.endpoints
        uuids := st.uuids + 1 } := by
  unfold claimEndpoint at h
  split at h
  · next ha => cases h; exact ⟨rfl, ha, rfl⟩
  · cases h

theorem Endpoint.resolve_columns (o : CompleteDeliveryOutcome) (e : Endpoint) :
    (e.resolve o).busy = false ∧ (e.resolve o).busySince = none ∧ (e.resolve o).leaseId = none := by
  unfold Endpoint.resolve
  split <;> exact ⟨rfl, rfl, rfl⟩

theorem Endpoint.resolve_identity (o : CompleteDeliveryOutcome) (e : Endpoint) :
    (e.resolve o).id = e.id ∧ (e.resolve o).tenantId = e.tenantId ∧
      (e.resolve o).eventTypes = e.eventTypes := by
  unfold Endpoint.resolve
  split <;> exact ⟨rfl, rfl, rfl⟩

theorem closeOrphans_endpoints {id : Uuid} (h : closeOrphans st id = some st') :
    st'.endpoints = st.endpoints ∧ st'.deliveries = st.deliveries ∧ st'.uuids = st.uuids ∧
      st'.deliveriesSeq = st.deliveriesSeq ∧ st'.events = st.events := by
  unfold closeOrphans at h
  split at h <;> cases h <;> exact ⟨rfl, rfl, rfl, rfl, rfl⟩

theorem commitExpansion_endpoints (src : Expandable) (rows : List Delivery) :
    (commitExpansion st src rows).endpoints = st.endpoints := by
  cases src <;> rfl

/-- Every worker's step rewrites the endpoints row by row. -/
theorem WorkerMove.endpoints (hn : (st.endpoints.map (·.id)).Nodup)
    (h : WorkerMove cfg now st w pc l st' pc') :
    EndpointsChange now pc st st' := by
  cases h with
  | claim hc =>
      obtain ⟨rfl, -, rfl⟩ := claimEndpoint_some hc
      refine .of_update rfl (fun e => ⟨rfl, rfl, rfl⟩) fun e he hp => ?_
      simp only [Endpoint.isClaimable, Bool.and_eq_true] at hp
      exact .claimed rfl hp.2 (Nat.lt_succ_self _) rfl rfl rfl
  | close hc => exact .of_eq (closeOrphans_endpoints hc).1
  | @release c =>
      refine .of_update rfl (fun e => ⟨rfl, rfl, rfl⟩) fun e he hp => ?_
      obtain ⟨hid, hl⟩ : e.id = c.candidate.id ∧ e.leaseId = some c.leaseId := by simpa using hp
      exact .released (by rw [hid]; rfl) hl rfl rfl rfl
  | @complete _ claimed result random fault hpc =>
      obtain hc | ⟨-, hc⟩ | ⟨hl, -, hc⟩ :=
        completeDelivery_cases cfg now st claimed result random fault <;> rw [hc]
      · exact .of_eq rfl
      · exact .of_eq rfl
      · refine .of_update rfl (Endpoint.resolve_identity _) fun e he hp => ?_
        obtain ⟨e', he', hid', hl'⟩ := holds_of_currentLease hl
        have hid : e.id = claimed.endpointId := by simpa using hp
        obtain rfl : e = e' := Table.eq_of_key hn he he' (hid.trans hid'.symm)
        obtain ⟨h₁, h₂, h₃⟩ := Endpoint.resolve_columns (resolution cfg claimed result) e
        refine .released ?_ hl' h₁ h₂ h₃
        obtain rfl | rfl := hpc <;> rw [hid] <;> rfl
  | commit => exact .of_eq (commitExpansion_endpoints ..)
  | _ => exact .of_eq rfl

theorem ApiMove.endpoints (h : ApiMove now st st') : EndpointsChange now pc st st' := by
  cases h with
  | register tenantId url eventTypes signingSecret =>
      refine ⟨id, _, congrArg (· ++ _) (List.map_id _).symm,
        fun _ _ => ⟨⟨rfl, rfl, rfl⟩, .keep rfl rfl rfl⟩, fun e he => ?_, List.nodup_singleton _⟩
      rw [List.mem_singleton.mp he]
      exact ⟨le_rfl, Nat.lt_succ_self _, rfl, rfl, rfl⟩
  | status | rotate =>
      exact .of_update rfl (fun e => ⟨rfl, rfl, rfl⟩) fun e _ _ => .keep rfl rfl rfl
  | other tenants endpoints => exact .of_eq endpoints

end

/-! ### Delivery rows -/

/-- How the step `l` of worker `w` at `pc` may rewrite a delivery row. -/
inductive Delivery.Change (cfg : Config) (st : Store) (w : WorkerId) (pc : Pc) (l : Label)
    (d : Delivery) : Delivery → Prop
  | keep : Delivery.Change cfg st w pc l d d
  | requeued {c} (hl : l = .step w) (hpc : pc = .claiming c .requeue)
      (hd : d.endpointId = c.candidate.id) (state : d.state = .inFlight) :
      Delivery.Change cfg st w pc l d { d with state := .pending }
  | marked {c head n attemptId} (hl : l = .step w)
      (hpc : pc = .claiming c (.markInFlight head n attemptId)) (hd : d.id = head.id) :
      Delivery.Change cfg st w pc l d { d with state := .inFlight, attemptCount := n }
  | resolved {claimed result random fault} (retryAt) (hl : l = .complete w result random fault)
      (hpc : pc = .holding claimed ∨ pc = .sent claimed) (hd : d.id = claimed.deliveryId)
      (held : Holds st claimed.endpointId claimed.leaseId) :
      Delivery.Change cfg st w pc l d (d.resolve (resolution cfg claimed result) retryAt)

/-- The deliveries are rewritten row by row, with the rows of a committed expansion behind. -/
def DeliveriesChange (cfg : Config) (w : WorkerId) (pc : Pc) (l : Label) (st st' : Store) : Prop :=
  ∃ g new, st'.deliveries = st.deliveries.map g ++ new ∧
    (∀ d ∈ st.deliveries, Delivery.Change cfg st w pc l d (g d)) ∧
    (new = [] ∨ ∃ src, l = .step w ∧ pc = .committing src new)

section

variable {cfg : Config} {now : Time} {st st' : Store} {w : WorkerId} {pc pc' : Pc} {l : Label}
  {d d' : Delivery} {a a' : Attempt}

theorem Delivery.resolve_identity (o : CompleteDeliveryOutcome) (t : Time) (d : Delivery) :
    (d.resolve o t).id = d.id ∧ (d.resolve o t).eventId = d.eventId ∧
      (d.resolve o t).endpointId = d.endpointId ∧ (d.resolve o t).seq = d.seq ∧
      (d.resolve o t).attemptCount = d.attemptCount := by
  cases o <;> exact ⟨rfl, rfl, rfl, rfl, rfl⟩

theorem Delivery.Change.id_eq (h : d.Change cfg st w pc l d') : d'.id = d.id := by
  cases h with
  | resolved => exact (Delivery.resolve_identity ..).1
  | _ => rfl

theorem Delivery.Change.eventId_eq (h : d.Change cfg st w pc l d') : d'.eventId = d.eventId := by
  cases h with
  | resolved => exact (Delivery.resolve_identity ..).2.1
  | _ => rfl

theorem Delivery.Change.endpointId_eq (h : d.Change cfg st w pc l d') : d'.endpointId = d.endpointId := by
  cases h with
  | resolved => exact (Delivery.resolve_identity ..).2.2.1
  | _ => rfl

theorem Delivery.Change.seq_eq (h : d.Change cfg st w pc l d') : d'.seq = d.seq := by
  cases h with
  | resolved => exact (Delivery.resolve_identity ..).2.2.2.1
  | _ => rfl

theorem DeliveriesChange.of_eq (h : st'.deliveries = st.deliveries) :
    DeliveriesChange cfg w pc l st st' :=
  ⟨id, [], by simp [h], fun _ _ => .keep, .inl rfl⟩

/-- An `UPDATE deliveries`. -/
theorem DeliveriesChange.of_update {p : Delivery → Bool} {f : Delivery → Delivery}
    (heq : st'.deliveries = Table.update p f st.deliveries)
    (h : ∀ d ∈ st.deliveries, p d = true → Delivery.Change cfg st w pc l d (f d)) :
    DeliveriesChange cfg w pc l st st' := by
  refine ⟨_, [], heq.trans (List.append_nil _).symm, fun d hd => ?_, .inl rfl⟩
  cases hp : p d with
  | true => exact h d hd hp
  | false => exact .keep

/-- Every worker's step rewrites the deliveries row by row. -/
theorem WorkerMove.deliveries (h : WorkerMove cfg now st w pc l st' pc') :
    DeliveriesChange cfg w pc l st st' := by
  cases h with
  | claim hc =>
      obtain ⟨-, -, rfl⟩ := claimEndpoint_some hc
      exact .of_eq rfl
  | close hc => exact .of_eq (closeOrphans_endpoints hc).2.1
  | @requeue c =>
      refine .of_update rfl fun d hd hp => ?_
      obtain ⟨he, hs⟩ : d.endpointId = c.candidate.id ∧ d.state = .inFlight := by
        simpa [Delivery.isInFlightOn] using hp
      exact .requeued rfl rfl he hs
  | mark => exact .of_update rfl fun d hd hp => .marked rfl rfl (by simpa using hp)
  | @complete _ claimed result random fault hpc =>
      obtain hc | ⟨-, hc⟩ | ⟨hl, -, hc⟩ :=
        completeDelivery_cases cfg now st claimed result random fault <;> rw [hc]
      · exact .of_eq rfl
      · exact .of_eq rfl
      · exact .of_update rfl fun d hd hp => .resolved _ rfl hpc (by simpa using hp) (holds_of_currentLease hl)
  | @commit src rows =>
      exact ⟨id, rows, by cases src <;> simp [commitExpansion, markExpanded], fun _ _ => .keep,
        .inr ⟨src, rfl, rfl⟩⟩
  | _ => exact .of_eq rfl

theorem ApiMove.deliveries (h : ApiMove now st st') : st'.deliveries = st.deliveries := by
  cases h with
  | other tenants endpoints deliveries => exact deliveries
  | _ => rfl

/-! ### Attempt rows -/

/-- How the step `l` of worker `w` at `pc` may rewrite an attempt row. -/
inductive Attempt.Change (st : Store) (w : WorkerId) (pc : Pc) (l : Label) (a : Attempt) :
    Attempt → Prop
  | keep : Attempt.Change st w pc l a a
  | expired {c d} (hl : l = .step w) (hpc : pc = .claiming c .closeOrphans) (hd : d ∈ st.deliveries)
      (endpoint : d.endpointId = c.candidate.id) (state : d.state = .inFlight)
      (delivery : a.deliveryId = d.id) (isOpen : a.isOpen = true) :
      Attempt.Change st w pc l a { a with errorClass := some .workerLeaseExpired }
  | closed {claimed result random fault} (hl : l = .complete w result random fault)
      (hpc : pc = .holding claimed ∨ pc = .sent claimed) (ha : a.id = claimed.attemptId)
      (held : Holds st claimed.endpointId claimed.leaseId) :
      Attempt.Change st w pc l a (a.close result)

/-- The row a claim inserts for its head. -/
def DeliveryRow.newAttempt (head : DeliveryRow) (now : Time) (id : Uuid) : Attempt :=
  ⟨id, head.id, head.attemptCount + 1, some now, none, none, none, none⟩

/-- The attempts are rewritten row by row, with a new one behind when the worker inserts one. -/
def AttemptsChange (now : Time) (w : WorkerId) (pc : Pc) (l : Label) (st st' : Store) : Prop :=
  ∃ g new, st'.attempts = st.attempts.map g ++ new ∧
    (∀ a ∈ st.attempts, Attempt.Change st w pc l a (g a)) ∧
    (new = [] ∨ ∃ c head, l = .step w ∧ pc = .claiming c (.insertAttempt head) ∧
      st.uuids < st'.uuids ∧ new = [head.newAttempt now st.uuids])

theorem Attempt.Change.id_eq (h : a.Change st w pc l a') : a'.id = a.id := by
  cases h <;> rfl

theorem Attempt.Change.deliveryId_eq (h : a.Change st w pc l a') : a'.deliveryId = a.deliveryId := by
  cases h <;> rfl

theorem Attempt.Change.attemptNumber_eq (h : a.Change st w pc l a') :
    a'.attemptNumber = a.attemptNumber := by
  cases h <;> rfl

theorem Attempt.Change.sentAt_eq (h : a.Change st w pc l a') : a'.sentAt = a.sentAt := by
  cases h <;> rfl

theorem AttemptsChange.of_eq (h : st'.attempts = st.attempts) : AttemptsChange now w pc l st st' :=
  ⟨id, [], by simp [h], fun _ _ => .keep, .inl rfl⟩

/-- An `UPDATE attempts`. -/
theorem AttemptsChange.of_update {p : Attempt → Bool} {f : Attempt → Attempt}
    (heq : st'.attempts = Table.update p f st.attempts)
    (h : ∀ a ∈ st.attempts, p a = true → Attempt.Change st w pc l a (f a)) :
    AttemptsChange now w pc l st st' := by
  refine ⟨_, [], heq.trans (List.append_nil _).symm, fun a ha => ?_, .inl rfl⟩
  cases hp : p a with
  | true => exact h a ha hp
  | false => exact .keep

/-- Every worker's step rewrites the attempts row by row. -/
theorem WorkerMove.attempts (h : WorkerMove cfg now st w pc l st' pc') :
    AttemptsChange now w pc l st st' := by
  cases h with
  | claim hc =>
      obtain ⟨-, -, rfl⟩ := claimEndpoint_some hc
      exact .of_eq rfl
  | @close c _ hc =>
      unfold closeOrphans at hc
      split at hc <;> cases hc
      · exact .of_eq rfl
      · next d hf =>
          have hd : d ∈ st.deliveries ∧ d.endpointId = c.candidate.id ∧ d.state = .inFlight := by
            have := List.mem_filter.mp (hf ▸ List.mem_singleton_self d)
            simpa [Delivery.isInFlightOn] using this
          refine .of_update rfl fun a _ hp => ?_
          simp only [Bool.and_eq_true, decide_eq_true_eq] at hp
          exact .expired rfl rfl hd.1 hd.2.1 hd.2.2 hp.1.1 hp.2
  | @insert c head => exact ⟨id, _, congrArg (· ++ _) (List.map_id _).symm, fun _ _ => .keep,
      .inr ⟨c, head, rfl, rfl, Nat.lt_succ_self _, rfl⟩⟩
  | @complete _ claimed result random fault hpc =>
      obtain hc | ⟨-, hc⟩ | ⟨hl, -, hc⟩ :=
        completeDelivery_cases cfg now st claimed result random fault <;> rw [hc]
      · exact .of_eq rfl
      · exact .of_eq rfl
      · exact .of_update rfl fun a ha hp => .closed rfl hpc (by simpa using hp) (holds_of_currentLease hl)
  | @commit src rows => cases src <;> exact .of_eq rfl
  | _ => exact .of_eq rfl

theorem ApiMove.attempts (h : ApiMove now st st') : st'.attempts = st.attempts := by
  cases h with
  | other tenants endpoints deliveries attempts => exact attempts
  | _ => rfl

/-! ### Supplies -/

theorem WorkerMove.uuids_le (h : WorkerMove cfg now st w pc l st' pc') : st.uuids ≤ st'.uuids := by
  cases h with
  | claim hc =>
      obtain ⟨-, -, rfl⟩ := claimEndpoint_some hc
      exact Nat.le_succ _
  | close hc => exact (closeOrphans_endpoints hc).2.2.1.ge
  | insert => exact Nat.le_succ _
  | @complete _ claimed result random fault =>
      obtain hc | ⟨-, hc⟩ | ⟨-, -, hc⟩ := completeDelivery_cases cfg now st claimed result random fault
      · rw [hc]
      · rw [hc]
      · rw [hc]
        exact le_rfl
  | insertRows => exact Nat.le_add_right _ _
  | @commit src rows => cases src <;> exact le_rfl
  | _ => exact le_rfl

theorem ApiMove.uuids_le (h : ApiMove now st st') : st.uuids ≤ st'.uuids := by
  cases h with
  | register => exact Nat.le_succ _
  | status | rotate => exact le_rfl
  | other tenants endpoints deliveries attempts events uuids => exact uuids

theorem WorkerMove.deliveriesSeq_le (h : WorkerMove cfg now st w pc l st' pc') :
    st.deliveriesSeq ≤ st'.deliveriesSeq := by
  cases h with
  | claim hc =>
      obtain ⟨-, -, rfl⟩ := claimEndpoint_some hc
      exact le_rfl
  | close hc => exact (closeOrphans_endpoints hc).2.2.2.1.ge
  | @complete _ claimed result random fault =>
      obtain hc | ⟨-, hc⟩ | ⟨-, -, hc⟩ := completeDelivery_cases cfg now st claimed result random fault
      · rw [hc]
      · rw [hc]
      · rw [hc]
        exact le_rfl
  | insertRows => exact Nat.le_add_right _ _
  | @commit src rows => cases src <;> exact le_rfl
  | _ => exact le_rfl

theorem WorkerMove.eventsSeq_eq (h : WorkerMove cfg now st w pc l st' pc') :
    st'.eventsSeq = st.eventsSeq := by
  cases h with
  | claim hc =>
      obtain ⟨-, -, rfl⟩ := claimEndpoint_some hc
      rfl
  | close hc =>
      simp only [closeOrphans] at hc
      split at hc <;> cases hc <;> rfl
  | @complete _ claimed result random fault =>
      obtain hc | ⟨-, hc⟩ | ⟨-, -, hc⟩ :=
        completeDelivery_cases cfg now st claimed result random fault <;> rw [hc]
      rfl
  | @commit src rows => cases src <;> rfl
  | _ => rfl

theorem ApiMove.deliveriesSeq_eq (h : ApiMove now st st') : st'.deliveriesSeq = st.deliveriesSeq := by
  cases h with
  | other _ _ _ _ _ _ deliveriesSeq => exact deliveriesSeq
  | _ => rfl

end

end Webhooks
