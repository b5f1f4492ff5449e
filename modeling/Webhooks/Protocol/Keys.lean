import Webhooks.Protocol.Lease

/-!
# Protocol — Keys

The keys of the tables, in every run: identifiers and sequence values are distinct, also those
of rows that are not committed yet; every reference leads to a row; no row is ever deleted.

* `Grows`: the rows of one store are rows of a later one, under the same keys.
* `KeyInv`, **`keyInv_of_reachable`**.
* `fetchHead_eq_some`, `fetchHead_eq_none`: what the head query finds, given that references
  lead to rows.
-/

namespace Webhooks

open Lib

/-! ### Rows are never deleted -/

/-- Rows stay, with the columns that identify them. -/
structure Grows (st st' : Store) : Prop where
  events : ∀ e ∈ st.events, ∃ e' ∈ st'.events,
    e'.id = e.id ∧ e'.tenantId = e.tenantId ∧ e'.type = e.type ∧ e'.seq = e.seq
  endpoints : ∀ e ∈ st.endpoints, ∃ e' ∈ st'.endpoints,
    e'.id = e.id ∧ e'.tenantId = e.tenantId ∧ e'.eventTypes = e.eventTypes
  deliveries : ∀ d ∈ st.deliveries, ∃ d' ∈ st'.deliveries,
    d'.id = d.id ∧ d'.eventId = d.eventId ∧ d'.endpointId = d.endpointId ∧ d'.seq = d.seq
  attempts : ∀ a ∈ st.attempts, ∃ a' ∈ st'.attempts,
    a'.id = a.id ∧ a'.deliveryId = a.deliveryId ∧ a'.attemptNumber = a.attemptNumber

section

variable {cfg : Config} {now : Time} {st st' st₁ : Store} {w : WorkerId} {pc pc' : Pc} {l : Label}

theorem Grows.refl (st : Store) : Grows st st :=
  ⟨fun e he => ⟨e, he, rfl, rfl, rfl, rfl⟩, fun e he => ⟨e, he, rfl, rfl, rfl⟩,
    fun d hd => ⟨d, hd, rfl, rfl, rfl, rfl⟩, fun a ha => ⟨a, ha, rfl, rfl, rfl⟩⟩

theorem Grows.trans (h₁ : Grows st st₁) (h₂ : Grows st₁ st') : Grows st st' where
  events e he := by
    obtain ⟨e₁, he₁, i₁, t₁, y₁, q₁⟩ := h₁.events e he
    obtain ⟨e₂, he₂, i₂, t₂, y₂, q₂⟩ := h₂.events e₁ he₁
    exact ⟨e₂, he₂, i₂.trans i₁, t₂.trans t₁, y₂.trans y₁, q₂.trans q₁⟩
  endpoints e he := by
    obtain ⟨e₁, he₁, i₁, t₁, y₁⟩ := h₁.endpoints e he
    obtain ⟨e₂, he₂, i₂, t₂, y₂⟩ := h₂.endpoints e₁ he₁
    exact ⟨e₂, he₂, i₂.trans i₁, t₂.trans t₁, y₂.trans y₁⟩
  deliveries d hd := by
    obtain ⟨d₁, hd₁, i₁, v₁, e₁, q₁⟩ := h₁.deliveries d hd
    obtain ⟨d₂, hd₂, i₂, v₂, e₂, q₂⟩ := h₂.deliveries d₁ hd₁
    exact ⟨d₂, hd₂, i₂.trans i₁, v₂.trans v₁, e₂.trans e₁, q₂.trans q₁⟩
  attempts a ha := by
    obtain ⟨a₁, ha₁, i₁, d₁, n₁⟩ := h₁.attempts a ha
    obtain ⟨a₂, ha₂, i₂, d₂, n₂⟩ := h₂.attempts a₁ ha₁
    exact ⟨a₂, ha₂, i₂.trans i₁, d₂.trans d₁, n₂.trans n₁⟩

/-- An expansion sets `status`, and nothing that identifies an event. -/
theorem markExpanded_events (src : Expandable) :
    ∀ e ∈ st.events, ∃ e' ∈ (markExpanded st src).events,
      e'.id = e.id ∧ e'.tenantId = e.tenantId ∧ e'.type = e.type ∧ e'.seq = e.seq := by
  intro e he
  cases src with
  | replay r => exact ⟨e, he, rfl, rfl, rfl, rfl⟩
  | event e₀ =>
      refine ⟨_, Table.mem_update_of_mem he, ?_⟩
      split <;> exact ⟨rfl, rfl, rfl, rfl⟩

/-- The commit of an expansion is the one move of a worker on the events. -/
theorem WorkerMove.events (h : WorkerMove cfg now st w pc l st' pc') :
    st'.events = st.events ∨ ∃ src rows, l = .step w ∧ pc = .committing src rows ∧
      st'.events = (markExpanded st src).events := by
  cases h with
  | claim hc =>
      obtain ⟨-, -, rfl⟩ := claimEndpoint_some hc
      exact .inl rfl
  | close hc => exact .inl (closeOrphans_endpoints hc).2.2.2.2
  | @complete _ claimed result random fault =>
      obtain hc | ⟨-, hc⟩ | ⟨-, -, hc⟩ := completeDelivery_cases cfg now st claimed result random fault
      <;> rw [hc] <;> exact .inl rfl
  | commit => exact .inr ⟨_, _, rfl, rfl, rfl⟩
  | _ => exact .inl rfl

/-- Endpoints keep their tenant and their subscription. -/
theorem EndpointsChange.grows (h : EndpointsChange now pc st st') :
    ∀ e ∈ st.endpoints, ∃ e' ∈ st'.endpoints,
      e'.id = e.id ∧ e'.tenantId = e.tenantId ∧ e'.eventTypes = e.eventTypes := by
  obtain ⟨g, new, heq, hg, -, -⟩ := h
  exact fun e he => ⟨g e, Table.mem_of_rewrite heq he, (hg e he).1⟩

/-- No delivery goes: each is changed as its row allows. -/
theorem DeliveriesChange.mem (h : DeliveriesChange cfg w pc l st st') {d : Delivery}
    (hd : d ∈ st.deliveries) : ∃ d' ∈ st'.deliveries, d.Change cfg st w pc l d' := by
  obtain ⟨g, new, heq, hg, -⟩ := h
  exact ⟨g d, Table.mem_of_rewrite heq hd, hg d hd⟩

/-- A delivery row afterwards is a rewritten row, or a row the expansion inserted. -/
theorem DeliveriesChange.mem_cases (h : DeliveriesChange cfg w pc l st st') {d' : Delivery}
    (hd' : d' ∈ st'.deliveries) :
    (∃ d ∈ st.deliveries, d.Change cfg st w pc l d') ∨
      (d' ∈ pc.rows ∧ l = .step w ∧ ∃ src rows, pc = .committing src rows) := by
  obtain ⟨g, new, heq, hg, hnew⟩ := h
  obtain ⟨d, hd, rfl⟩ | hd' := Table.mem_rewrite_cases heq hd'
  · exact .inl ⟨d, hd, hg d hd⟩
  · obtain rfl | ⟨src, hl, rfl⟩ := hnew
    · cases hd'
    · exact .inr ⟨hd', hl, _, _, rfl⟩

/-- Nor does an attempt. -/
theorem AttemptsChange.mem (h : AttemptsChange now w pc l st st') {a : Attempt}
    (ha : a ∈ st.attempts) : ∃ a' ∈ st'.attempts, a.Change st w pc l a' := by
  obtain ⟨g, new, heq, hg, -⟩ := h
  exact ⟨g a, Table.mem_of_rewrite heq ha, hg a ha⟩

/-- An attempt row afterwards is a rewritten row, or the row the claim inserted. -/
theorem AttemptsChange.mem_cases (h : AttemptsChange now w pc l st st') {a' : Attempt}
    (ha' : a' ∈ st'.attempts) :
    (∃ a ∈ st.attempts, a.Change st w pc l a') ∨ ∃ c head, l = .step w ∧
      pc = .claiming c (.insertAttempt head) ∧ st.uuids < st'.uuids ∧ a' = head.newAttempt now st.uuids := by
  obtain ⟨g, new, heq, hg, hnew⟩ := h
  obtain ⟨a, ha, rfl⟩ | ha' := Table.mem_rewrite_cases heq ha'
  · exact .inl ⟨a, ha, hg a ha⟩
  · obtain rfl | ⟨c, head, hl, hpc, hu, rfl⟩ := hnew
    · cases ha'
    · exact .inr ⟨c, head, hl, hpc, hu, List.mem_singleton.mp ha'⟩

/-- The attempts of one delivery are rewritten row by row, with the row the claim inserts for it
behind. -/
theorem AttemptsChange.attemptsOf (h : AttemptsChange now w pc l st st') (id : Uuid) :
    ∃ g new, st'.attemptsOf id = (st.attemptsOf id).map g ++ new ∧
      (∀ a ∈ st.attemptsOf id, a.Change st w pc l (g a)) ∧
      (new = [] ∨ ∃ c head, l = .step w ∧ pc = .claiming c (.insertAttempt head) ∧ head.id = id ∧
        new = [head.newAttempt now st.uuids]) := by
  obtain ⟨g, new, heq, hg, hnew⟩ := h
  have hmap : (st.attempts.map g).filter (fun a => a.deliveryId = id) =
      (st.attempts.filter fun a => a.deliveryId = id).map g := by
    rw [List.filter_map]
    refine congrArg _ (List.filter_congr fun a ha => ?_)
    simp only [Function.comp, (hg a ha).deliveryId_eq]
  refine ⟨g, new.filter fun a => a.deliveryId = id, ?_, fun a ha => hg a (List.mem_of_mem_filter ha), ?_⟩
  · unfold Store.attemptsOf
    rw [heq, List.filter_append, hmap]
  · obtain rfl | ⟨c, head, hl, hpc, -, rfl⟩ := hnew
    · exact .inl rfl
    · by_cases hid : head.id = id
      · exact .inr ⟨c, head, hl, hpc, hid, by simp [DeliveryRow.newAttempt, hid]⟩
      · exact .inl (by simp [DeliveryRow.newAttempt, hid])

/-- The tables, together. -/
theorem WorkerMove.grows (hn : (st.endpoints.map (·.id)).Nodup)
    (h : WorkerMove cfg now st w pc l st' pc') : Grows st st' where
  events := by
    obtain he | ⟨src, rows, -, -, he⟩ := h.events <;> rw [he]
    · exact (Grows.refl st).events
    · exact markExpanded_events src
  endpoints := (h.endpoints hn).grows
  deliveries d hd := by
    obtain ⟨d', hd', hc⟩ := h.deliveries.mem hd
    exact ⟨d', hd', hc.id_eq, hc.eventId_eq, hc.endpointId_eq, hc.seq_eq⟩
  attempts a ha := by
    obtain ⟨a', ha', hc⟩ := h.attempts.mem ha
    exact ⟨a', ha', hc.id_eq, hc.deliveryId_eq, hc.attemptNumber_eq⟩

theorem ApiMove.grows (h : ApiMove now st st') : Grows st st' where
  events := by
    cases h with
    | other _ _ _ _ events =>
        obtain ⟨es, he⟩ := events
        rw [he]
        exact fun e h => ⟨e, List.mem_append_left _ h, rfl, rfl, rfl, rfl⟩
    | _ => exact (Grows.refl st).events
  endpoints := (h.endpoints : EndpointsChange now .idle st st').grows
  deliveries := by rw [h.deliveries]; exact (Grows.refl st).deliveries
  attempts := by rw [h.attempts]; exact (Grows.refl st).attempts

theorem step_grows {s s' : Sys} (hn : (s.store.endpoints.map (·.id)).Nodup)
    (h : step cfg s l = some s') : Grows s.store s'.store := by
  cases step_move h with
  | tick ms _ _ store => rw [store]; exact .refl _
  | api _ _ _ h => exact h.grows
  | worker w _ _ h => exact h.grows hn

end

/-! ### The rows of an expansion -/

section

variable {st st' : Store} {began : Time} {pairs : List (Uuid × Uuid)} {id : Uuid} {seq : Nat}
  {r : Delivery}

/-- The rows of one insert have consecutive identifiers and `seq`, in the order of the pairs. -/
theorem newDeliveries_ids :
    (newDeliveries began pairs id seq).map (·.id) = List.range' id pairs.length := by
  induction pairs generalizing id seq with
  | nil => rfl
  | cons p pairs ih => simp only [newDeliveries, List.map_cons, ih, List.length_cons, List.range'_succ]

theorem newDeliveries_seqs :
    (newDeliveries began pairs id seq).map (·.seq) = List.range' seq pairs.length := by
  induction pairs generalizing id seq with
  | nil => rfl
  | cons p pairs ih => simp only [newDeliveries, List.map_cons, ih, List.length_cons, List.range'_succ]

theorem newDeliveries_pairs :
    (newDeliveries began pairs id seq).map (fun r => (r.eventId, r.endpointId)) = pairs := by
  induction pairs generalizing id seq with
  | nil => rfl
  | cons p pairs ih => simp only [newDeliveries, List.map_cons, ih]

/-- They are pending, and not yet attempted. -/
theorem newDeliveries_fresh (h : r ∈ newDeliveries began pairs id seq) :
    r.state = .pending ∧ r.attemptCount = 0 := by
  induction pairs generalizing id seq with
  | nil => cases h
  | cons p pairs ih =>
      obtain rfl | h := List.mem_cons.mp h
      · exact ⟨rfl, rfl⟩
      · exact ih h

/-- Their numbers lie beyond those drawn before. -/
theorem newDeliveries_range (h : r ∈ newDeliveries began pairs id seq) :
    (id ≤ r.id ∧ r.id < id + pairs.length) ∧ seq ≤ r.seq ∧ r.seq < seq + pairs.length :=
  ⟨List.mem_range'_1.mp (newDeliveries_ids ▸ List.mem_map_of_mem h),
    List.mem_range'_1.mp (newDeliveries_seqs ▸ List.mem_map_of_mem h)⟩

theorem newDeliveries_mem (h : r ∈ newDeliveries began pairs id seq) :
    (r.eventId, r.endpointId) ∈ pairs := by
  have := List.mem_map_of_mem (f := fun r : Delivery => (r.eventId, r.endpointId)) h
  rwa [newDeliveries_pairs] at this

/-- The fan-out pairs an event with endpoints of its tenant, and a replay the event of each of
its deliveries with its endpoint. -/
theorem fanOut_mem {src : Expandable} {eventId endpointId : Uuid}
    (h : (eventId, endpointId) ∈ src.fanOut st) :
    (∃ e, src = .event e ∧ eventId = e.id ∧ ∃ ep ∈ st.endpoints, ep.id = endpointId ∧
      ep.isSubscribed e.tenantId e.type = true) ∨
    ∃ r, (∃ range, src = .replay r range) ∧
      ∃ d ∈ st.deliveries, d.eventId = eventId ∧ d.endpointId = endpointId := by
  cases src with
  | event e =>
      obtain ⟨ep, hep, heq⟩ := List.mem_map.mp h
      cases heq
      obtain ⟨hep, hs⟩ := List.mem_filter.mp hep
      exact .inl ⟨e, rfl, rfl, ep, hep, rfl, hs⟩
  | replay r range =>
      obtain ⟨d, hd, heq⟩ := List.mem_map.mp h
      cases heq
      obtain ⟨hd, hc⟩ := List.mem_filter.mp ((List.mem_insertionSort _).mp hd)
      have hc : d.endpointId = r.endpointId := by
        simp only [Replay.covers, Bool.and_eq_true, decide_eq_true_eq] at hc
        exact hc.1.1.1
      exact .inr ⟨r, ⟨range, rfl⟩, d, hd, rfl, hc⟩

end

/-! ### The invariant -/

/-- The references of a delivery row lead to rows. -/
def Delivery.IsLinked (st : Store) (d : Delivery) : Prop :=
  (∃ e ∈ st.events, e.id = d.eventId) ∧ ∃ ep ∈ st.endpoints, ep.id = d.endpointId

/-- Rows that are not committed yet, beside the committed ones. -/
structure RowsFresh (st : Store) (rows : List Delivery) : Prop where
  ids : (rows.map (·.id)).Nodup
  seqs : (rows.map (·.seq)).Nodup
  lt : ∀ r ∈ rows, r.id < st.uuids ∧ r.seq < st.deliveriesSeq
  new : ∀ r ∈ rows, ∀ d ∈ st.deliveries, d.id ≠ r.id ∧ d.seq ≠ r.seq
  linked : ∀ r ∈ rows, r.IsLinked st
  pending : ∀ r ∈ rows, r.state = .pending ∧ r.attemptCount = 0

/-- There is a delivery of the endpoint with this identifier. -/
def OnEndpoint (st : Store) (id endpointId : Uuid) : Prop :=
  ∃ d ∈ st.deliveries, d.id = id ∧ d.endpointId = endpointId

/-- There is an attempt of the delivery with this identifier and number. -/
def IsAttempt (st : Store) (id deliveryId : Uuid) (n : Nat) : Prop :=
  ∃ a ∈ st.attempts, a.id = id ∧ a.deliveryId = deliveryId ∧ a.attemptNumber = n

/-- The rows a worker refers to are there. -/
def Pc.KeyFacts (st : Store) : Pc → Prop
  | .claiming c (.checkHead (some head)) | .claiming c (.insertAttempt head) =>
      OnEndpoint st head.id c.candidate.id
  | .claiming c (.markInFlight head n attemptId) | .claiming c (.finish head n attemptId) =>
      OnEndpoint st head.id c.candidate.id ∧ IsAttempt st attemptId head.id n
  | .holding claimed | .sent claimed =>
      OnEndpoint st claimed.deliveryId claimed.endpointId ∧
        IsAttempt st claimed.attemptId claimed.deliveryId claimed.attemptNumber
  | .inserting _ (.event e) => ∃ e' ∈ st.events, e'.id = e.id
  | _ => True

/-- What a write-back names is there: the delivery on its endpoint, and the attempt. -/
theorem Pc.KeyFacts.complete {st : Store} {pc : Pc} {claimed : ClaimedDelivery}
    (h : pc.KeyFacts st) (hpc : pc = .holding claimed ∨ pc = .sent claimed) :
    OnEndpoint st claimed.deliveryId claimed.endpointId ∧
      IsAttempt st claimed.attemptId claimed.deliveryId claimed.attemptNumber := by
  obtain rfl | rfl := hpc <;> exact h

/-- The committed tables. -/
structure TablesKeyed (st : Store) : Prop where
  deliveryIds : (st.deliveries.map (·.id)).Nodup
  deliverySeqs : (st.deliveries.map (·.seq)).Nodup
  deliveryLt : ∀ d ∈ st.deliveries, d.id < st.uuids ∧ d.seq < st.deliveriesSeq
  linked : ∀ d ∈ st.deliveries, d.IsLinked st
  attemptIds : (st.attempts.map (·.id)).Nodup
  attemptLt : ∀ a ∈ st.attempts, a.id < st.uuids
  attemptOf : ∀ a ∈ st.attempts, ∃ d ∈ st.deliveries, d.id = a.deliveryId

/-- The tables are keyed, and what the workers hold refers to rows of theirs. -/
structure KeyInv (s : Sys) : Prop where
  tables : TablesKeyed s.store
  rows : ∀ w, RowsFresh s.store (s.pcs w).rows
  apart : ∀ w w', w ≠ w' → ∀ r ∈ (s.pcs w).rows, ∀ r' ∈ (s.pcs w').rows, r.id ≠ r'.id ∧ r.seq ≠ r'.seq
  worker : ∀ w, (s.pcs w).KeyFacts s.store

/-! ### The head query -/

section

variable {st : Store} {endpointId : Uuid} {d : Delivery} {n : Nat} {head : DeliveryRow}

/-- The columns of the head that come from its delivery row. -/
structure DeliveryRow.IsOf (head : DeliveryRow) (d : Delivery) : Prop where
  id : head.id = d.id
  attemptCount : head.attemptCount = d.attemptCount
  nextAttemptAt : head.nextAttemptAt = d.nextAttemptAt

/-- The head is a pending delivery of the endpoint. -/
theorem joinHead_eq_some (h : joinHead st endpointId d = some (n, head)) :
    (d.endpointId = endpointId ∧ d.state = .pending) ∧ n = d.seq ∧ head.IsOf d := by
  unfold joinHead at h
  split at h
  case isFalse => cases h
  case isTrue hc =>
      obtain ⟨e, -, h⟩ := Option.bind_eq_some_iff.mp h
      obtain ⟨ep, -, h⟩ := Option.map_eq_some_iff.mp h
      cases h
      exact ⟨by simpa using hc, rfl, rfl, rfl, rfl⟩

/-- No pending delivery is lost in the join with its event. -/
theorem joinHead_isSome (hl : d.IsLinked st) (he : d.endpointId = endpointId)
    (hs : d.state = .pending) : ∃ head, joinHead st endpointId d = some (d.seq, head) := by
  obtain ⟨⟨e, hmem, hid⟩, ep, hmem', hid'⟩ := hl
  obtain ⟨e', he'⟩ : ∃ e', st.events.find? (fun e => e.id = d.eventId) = some e' :=
    Option.isSome_iff_exists.mp (List.find?_isSome.mpr ⟨e, hmem, decide_eq_true hid⟩)
  obtain ⟨ep', hep'⟩ : ∃ ep', st.endpoints.find? (fun ep => ep.id = d.endpointId) = some ep' :=
    Option.isSome_iff_exists.mp (List.find?_isSome.mpr ⟨ep, hmem', decide_eq_true hid'⟩)
  unfold joinHead
  rw [if_pos (by simp [he, hs]), he', hep']
  exact ⟨_, rfl⟩

/-- The head query returns the pending delivery of the endpoint with the lowest sequence value. -/
theorem fetchHead_eq_some (hl : ∀ d ∈ st.deliveries, d.IsLinked st)
    (h : fetchHead st endpointId = some head) :
    ∃ d ∈ st.deliveries, (d.endpointId = endpointId ∧ d.state = .pending) ∧ head.IsOf d ∧
      ∀ d' ∈ st.deliveries, d'.endpointId = endpointId → d'.state = .pending → d.seq ≤ d'.seq := by
  obtain ⟨⟨n, row⟩, hm, rfl⟩ := Option.map_eq_some_iff.mp h
  obtain ⟨d, hd, hj⟩ := List.mem_filterMap.mp (List.argmin_mem hm)
  obtain ⟨hc, rfl, hof⟩ := joinHead_eq_some hj
  refine ⟨d, hd, hc, hof, fun d' hd' he hs => ?_⟩
  obtain ⟨row', hj'⟩ := joinHead_isSome (hl d' hd') he hs
  have hmem : (d'.seq, row') ∈ st.deliveries.filterMap (joinHead st endpointId) :=
    List.mem_filterMap.mpr ⟨d', hd', hj'⟩
  have hle := List.le_of_mem_argmin hmem hm
  exact hle

/-- It returns nothing when nothing is pending. -/
theorem fetchHead_eq_none (hl : ∀ d ∈ st.deliveries, d.IsLinked st)
    (h : fetchHead st endpointId = none) :
    ∀ d ∈ st.deliveries, d.endpointId = endpointId → d.state ≠ .pending := by
  intro d hd he hs
  obtain ⟨row, hj⟩ := joinHead_isSome (hl d hd) he hs
  have hnil := List.argmin_eq_none.mp (Option.map_eq_none_iff.mp h)
  exact List.ne_nil_of_mem (List.mem_filterMap.mpr ⟨d, hd, hj⟩) hnil

end

/-! ### Every reachable state -/

section

variable {cfg : Config} {now : Time} {st st' : Store} {w : WorkerId} {pc pc' : Pc} {l : Label}
  {d : Delivery} {rows : List Delivery} {endpointId : Uuid}

theorem Delivery.IsLinked.grow (h : d.IsLinked st) (hg : Grows st st') : d.IsLinked st' := by
  obtain ⟨⟨e, he, hid⟩, ep, hep, hid'⟩ := h
  obtain ⟨e', he', hide, -⟩ := hg.events e he
  obtain ⟨ep', hep', hidep, -⟩ := hg.endpoints ep hep
  exact ⟨⟨e', he', hide.trans hid⟩, ep', hep', hidep.trans hid'⟩

theorem OnEndpoint.grow {id : Uuid} (h : OnEndpoint st id endpointId) (hg : Grows st st') :
    OnEndpoint st' id endpointId := by
  obtain ⟨d, hd, hid, he⟩ := h
  obtain ⟨d', hd', hid', -, he', -⟩ := hg.deliveries d hd
  exact ⟨d', hd', hid'.trans hid, he'.trans he⟩

theorem IsAttempt.grow {id deliveryId : Uuid} {n : Nat} (h : IsAttempt st id deliveryId n)
    (hg : Grows st st') : IsAttempt st' id deliveryId n := by
  obtain ⟨a, ha, hid, hd, hn⟩ := h
  obtain ⟨a', ha', hid', hd', hn'⟩ := hg.attempts a ha
  exact ⟨a', ha', hid'.trans hid, hd'.trans hd, hn'.trans hn⟩

/-- What a worker holds stays in the tables as they grow. -/
theorem Pc.KeyFacts.grow (h : pc.KeyFacts st) (hg : Grows st st') : pc.KeyFacts st' := by
  unfold Pc.KeyFacts at h ⊢
  split
  case h_1 | h_2 => exact h.grow hg
  case h_3 | h_4 | h_5 | h_6 => exact ⟨h.1.grow hg, h.2.grow hg⟩
  case h_7 =>
      obtain ⟨e, he, hid⟩ := h
      obtain ⟨e', he', hid', -⟩ := hg.events e he
      exact ⟨e', he', hid'.trans hid⟩
  case h_8 => trivial

/-- A worker's step keeps the rows it refers to. -/
theorem WorkerMove.keyFacts (h : WorkerMove cfg now st w pc l st' pc')
    (hl : ∀ d ∈ st.deliveries, d.IsLinked st) (hg : Grows st st') (hk : pc.KeyFacts st) :
    pc'.KeyFacts st' := by
  cases h with
  | @outside _ pc' _ _ _ _ hpc' src =>
      cases pc' with
      | inserting began e =>
          cases e with
          | event e => exact ⟨e, src _ _ rfl, rfl⟩
          | replay => trivial
      | listing | trying | claiming | holding | sent | marking | committing => cases hpc'
      | _ => trivial
  | @fetch c =>
      cases hf : fetchHead st c.candidate.id with
      | none => trivial
      | some head =>
          obtain ⟨d, hd, ⟨he, -⟩, hof, -⟩ := fetchHead_eq_some hl hf
          exact ⟨d, hd, hof.id.symm, he⟩
  | checkDue => exact hk
  | @insert c head =>
      exact ⟨OnEndpoint.grow hk hg,
        ⟨st.uuids, head.id, head.attemptCount + 1, some now, none, none, none, none⟩,
        List.mem_append_right _ (List.mem_singleton_self _), rfl, rfl, rfl⟩
  | mark => exact ⟨hk.1.grow hg, hk.2.grow hg⟩
  | finish endpointId leaseId deliveryId attemptNumber hattempt =>
      show OnEndpoint _ _ _ ∧ IsAttempt _ _ _ _
      rw [endpointId, deliveryId, attemptNumber, hattempt]
      exact hk
  | send => exact hk
  | _ => trivial

/-- The rows a worker has not committed afterwards: none, the ones it had, or the ones it just
inserted. -/
theorem WorkerMove.rows_cases (h : WorkerMove cfg now st w pc l st' pc') :
    pc'.rows = [] ∨ (pc'.rows = pc.rows ∧ st' = st) ∨
      ∃ began src, pc = .inserting began src ∧ st' = (insertDeliveries st began src).2 ∧
        pc'.rows = (insertDeliveries st began src).1 := by
  cases h with
  | outside _ _ _ hpc' => exact .inl (Pc.rows_of_isOutside hpc')
  | insertRows => exact .inr (.inr ⟨_, _, rfl, rfl, rfl⟩)
  | setExpanded => exact .inr (.inl ⟨rfl, rfl⟩)
  | _ => exact .inl rfl

/-- The rows of an `INSERT … SELECT` are beside everything that is there. -/
theorem insertDeliveries_fresh {began : Time} {src : Expandable} (ht : TablesKeyed st)
    (hk : (Pc.inserting began src).KeyFacts st) :
    RowsFresh (insertDeliveries st began src).2 (insertDeliveries st began src).1 where
  ids := newDeliveries_ids ▸ List.nodup_range'
  seqs := newDeliveries_seqs ▸ List.nodup_range'
  lt r hr := by
    obtain ⟨⟨-, hid⟩, -, hseq⟩ := newDeliveries_range hr
    exact ⟨hid, hseq⟩
  new r hr d hd := by
    obtain ⟨⟨hid, -⟩, hseq, -⟩ := newDeliveries_range hr
    obtain ⟨hlt, hlt'⟩ := ht.deliveryLt d hd
    exact ⟨(hlt.trans_le hid).ne, (hlt'.trans_le hseq).ne⟩
  linked r hr := by
    obtain ⟨e, rfl, heq, ep, hep, hid, -⟩ | ⟨-, -, d, hd, hid, he⟩ :=
      fanOut_mem (newDeliveries_mem hr)
    · obtain ⟨e', he', hid'⟩ := hk
      exact ⟨⟨e', he', hid'.trans heq.symm⟩, ep, hep, hid⟩
    · obtain ⟨⟨e', he', hide⟩, ep, hep, hidep⟩ := ht.linked d hd
      exact ⟨⟨e', he', hide.trans hid⟩, ep, hep, hidep.trans he⟩
  pending r hr := newDeliveries_fresh hr

/-- A step of somebody else keeps uncommitted rows beside the committed ones. -/
theorem RowsFresh.change (h : RowsFresh st rows) (hc : DeliveriesChange cfg w pc l st st')
    (hg : Grows st st') (hu : st.uuids ≤ st'.uuids) (hs : st.deliveriesSeq ≤ st'.deliveriesSeq)
    (hap : ∀ r ∈ rows, ∀ r' ∈ pc.rows, r.id ≠ r'.id ∧ r.seq ≠ r'.seq) : RowsFresh st' rows where
  ids := h.ids
  seqs := h.seqs
  lt r hr := ⟨(h.lt r hr).1.trans_le hu, (h.lt r hr).2.trans_le hs⟩
  new r hr d' hd' := by
    obtain ⟨d, hd, hch⟩ | ⟨hd', -⟩ := hc.mem_cases hd'
    · rw [hch.id_eq, hch.seq_eq]
      exact h.new r hr d hd
    · exact ⟨(hap r hr d' hd').1.symm, (hap r hr d' hd').2.symm⟩
  linked r hr := (h.linked r hr).grow hg
  pending := h.pending

/-- Identifiers stay distinct: rows change in place, and new ones are fresh. -/
theorem TablesKeyed.change (h : TablesKeyed st) (hrows : RowsFresh st pc.rows)
    (hd : DeliveriesChange cfg w pc l st st')
    (ha : AttemptsChange now w pc l st st') (hk : pc.KeyFacts st)
    (hg : Grows st st') (hu : st.uuids ≤ st'.uuids) (hs : st.deliveriesSeq ≤ st'.deliveriesSeq) :
    TablesKeyed st' := by
  have hlt : ∀ d' ∈ st'.deliveries, d'.id < st'.uuids ∧ d'.seq < st'.deliveriesSeq := by
    intro d' hd'
    obtain ⟨d, hd, hch⟩ | ⟨hd', -⟩ := hd.mem_cases hd'
    · rw [hch.id_eq, hch.seq_eq]
      exact ⟨(h.deliveryLt d hd).1.trans_le hu, (h.deliveryLt d hd).2.trans_le hs⟩
    · exact ⟨(hrows.lt d' hd').1.trans_le hu, (hrows.lt d' hd').2.trans_le hs⟩
  have hlinked : ∀ d' ∈ st'.deliveries, d'.IsLinked st' := by
    intro d' hd'
    obtain ⟨d, hd, hch⟩ | ⟨hd', -⟩ := hd.mem_cases hd'
    · unfold Delivery.IsLinked
      rw [hch.eventId_eq, hch.endpointId_eq]
      exact (h.linked d hd).grow hg
    · exact (hrows.linked d' hd').grow hg
  have halt : ∀ a' ∈ st'.attempts, a'.id < st'.uuids := by
    intro a' ha'
    obtain ⟨a, ha, hch⟩ | ⟨c, head, -, -, hlt, rfl⟩ := ha.mem_cases ha'
    · rw [hch.id_eq]
      exact (h.attemptLt a ha).trans_le hu
    · exact hlt
  have hof : ∀ a' ∈ st'.attempts, ∃ d ∈ st'.deliveries, d.id = a'.deliveryId := by
    intro a' ha'
    obtain ⟨a, ha, hch⟩ | ⟨c, head, -, rfl, -, rfl⟩ := ha.mem_cases ha'
    · obtain ⟨d, hd, hid⟩ := h.attemptOf a ha
      obtain ⟨d', hd', hid', -⟩ := hg.deliveries d hd
      exact ⟨d', hd', by rw [hid', hid, hch.deliveryId_eq]⟩
    · obtain ⟨d, hd, hid, -⟩ := OnEndpoint.grow hk hg
      exact ⟨d, hd, hid⟩
  obtain ⟨g, new, heq, hgd, hnd⟩ := hd
  obtain ⟨f, added, heqa, hfa, hna⟩ := ha
  have hids : (st.deliveries.map g).map (·.id) = st.deliveries.map (·.id) := by
    rw [List.map_map]
    exact List.map_congr_left fun d hd => (hgd d hd).id_eq
  have hseqs : (st.deliveries.map g).map (·.seq) = st.deliveries.map (·.seq) := by
    rw [List.map_map]
    exact List.map_congr_left fun d hd => (hgd d hd).seq_eq
  have haids : (st.attempts.map f).map (·.id) = st.attempts.map (·.id) := by
    rw [List.map_map]
    exact List.map_congr_left fun a ha => (hfa a ha).id_eq
  refine ⟨?_, ?_, hlt, hlinked, ?_, halt, hof⟩
  · rw [heq]
    obtain rfl | ⟨src, -, rfl⟩ := hnd
    · rw [List.append_nil, hids]
      exact h.deliveryIds
    · refine Table.nodup_append (hids ▸ h.deliveryIds) hrows.ids fun a ha b hb => ?_
      obtain ⟨d, hd, rfl⟩ := List.mem_map.mp ha
      rw [(hgd d hd).id_eq]
      exact (hrows.new b hb d hd).1
  · rw [heq]
    obtain rfl | ⟨src, -, rfl⟩ := hnd
    · rw [List.append_nil, hseqs]
      exact h.deliverySeqs
    · refine Table.nodup_append (hseqs ▸ h.deliverySeqs) hrows.seqs fun a ha b hb => ?_
      obtain ⟨d, hd, rfl⟩ := List.mem_map.mp ha
      rw [(hgd d hd).seq_eq]
      exact (hrows.new b hb d hd).2
  · rw [heqa]
    obtain rfl | ⟨c, head, -, -, -, rfl⟩ := hna
    · rw [List.append_nil, haids]
      exact h.attemptIds
    · refine Table.nodup_insert (haids ▸ h.attemptIds) fun b hb => ?_
      obtain ⟨a, ha, rfl⟩ := List.mem_map.mp hb
      rw [(hfa a ha).id_eq]
      exact (h.attemptLt a ha).ne

theorem WorkerMove.tablesKeyed (h : WorkerMove cfg now st w pc l st' pc') (ht : TablesKeyed st)
    (hrows : RowsFresh st pc.rows) (hk : pc.KeyFacts st) (hg : Grows st st') : TablesKeyed st' :=
  ht.change hrows h.deliveries h.attempts hk hg h.uuids_le h.deliveriesSeq_le

/-- A worker's step keeps the rows it has not committed apart from everything else. -/
theorem WorkerMove.rowsFresh (h : WorkerMove cfg now st w pc l st' pc') (ht : TablesKeyed st)
    (hrows : RowsFresh st pc.rows) (hk : pc.KeyFacts st) : RowsFresh st' pc'.rows := by
  obtain hr | ⟨hr, rfl⟩ | ⟨began, src, rfl, rfl, hr⟩ := h.rows_cases <;> rw [hr]
  · exact ⟨.nil, .nil, nofun, nofun, nofun, nofun⟩
  · exact hrows
  · exact insertDeliveries_fresh ht hk

/-- The rows two workers are about to insert have different numbers. -/
theorem WorkerMove.rows_apart (h : WorkerMove cfg now st w pc l st' pc') {others : List Delivery}
    (ho : RowsFresh st others)
    (hap : ∀ r ∈ pc.rows, ∀ r' ∈ others, r.id ≠ r'.id ∧ r.seq ≠ r'.seq) :
    ∀ r ∈ pc'.rows, ∀ r' ∈ others, r.id ≠ r'.id ∧ r.seq ≠ r'.seq := by
  obtain hr | ⟨hr, -⟩ | ⟨began, src, -, -, hr⟩ := h.rows_cases <;> rw [hr]
  · nofun
  · exact hap
  · intro r hr r' hr'
    obtain ⟨⟨hid, -⟩, hseq, -⟩ := newDeliveries_range hr
    obtain ⟨hlt, hlt'⟩ := ho.lt r' hr'
    exact ⟨(hlt.trans_le hid).ne', (hlt'.trans_le hseq).ne'⟩

theorem KeyInv.init (tenants : List Tenant) : KeyInv (.init tenants) where
  tables := ⟨.nil, .nil, nofun, nofun, .nil, nofun, nofun⟩
  rows _ := ⟨.nil, .nil, nofun, nofun, nofun, nofun⟩
  apart := nofun
  worker _ := trivial

theorem ApiMove.tablesKeyed (h : ApiMove now st st') (ht : TablesKeyed st) : TablesKeyed st' where
  deliveryIds := by rw [h.deliveries]; exact ht.deliveryIds
  deliverySeqs := by rw [h.deliveries]; exact ht.deliverySeqs
  deliveryLt d hd := by
    rw [h.deliveries] at hd
    rw [h.deliveriesSeq_eq]
    exact ⟨(ht.deliveryLt d hd).1.trans_le h.uuids_le, (ht.deliveryLt d hd).2⟩
  linked d hd := (ht.linked d (h.deliveries ▸ hd)).grow h.grows
  attemptIds := by rw [h.attempts]; exact ht.attemptIds
  attemptLt a ha := (ht.attemptLt a (h.attempts ▸ ha)).trans_le h.uuids_le
  attemptOf a ha := by
    rw [h.deliveries]
    exact ht.attemptOf a (h.attempts ▸ ha)

/-- The step lemma: of each move, what it does to the rows and to what the worker holds. -/
theorem KeyInv.step {s s' : Sys} (hn : (s.store.endpoints.map (·.id)).Nodup) (hi : KeyInv s)
    (h : step cfg s l = some s') : KeyInv s' := by
  cases step_move h with
  | tick ms _ _ store pcs =>
      constructor
      · rw [store]; exact hi.tables
      · rw [store, pcs]; exact hi.rows
      · rw [pcs]; exact hi.apart
      · rw [store, pcs]; exact hi.worker
  | api _ _ pcs h =>
      have hd : DeliveriesChange cfg 0 .idle l s.store s'.store := .of_eq h.deliveries
      refine ⟨h.tablesKeyed hi.tables, fun w => ?_, by rw [pcs]; exact hi.apart, fun w => ?_⟩
      · rw [pcs]
        exact (hi.rows w).change hd h.grows h.uuids_le h.deliveriesSeq_eq.ge nofun
      · rw [pcs]
        exact (hi.worker w).grow h.grows
  | worker w _ pcs h =>
      have hg := h.grows hn
      refine ⟨h.tablesKeyed hi.tables (hi.rows w) (hi.worker w) hg, fun w' => ?_, ?_, fun w' => ?_⟩
      · by_cases hw : w' = w
        · rw [hw]
          exact h.rowsFresh hi.tables (hi.rows w) (hi.worker w)
        · rw [pcs w' hw]
          exact (hi.rows w').change h.deliveries hg h.uuids_le h.deliveriesSeq_le (hi.apart w' w hw)
      · intro w₁ w₂ hne r hr r' hr'
        by_cases hw₁ : w₁ = w
        · subst hw₁
          rw [pcs w₂ hne.symm] at hr'
          exact h.rows_apart (hi.rows w₂) (hi.apart w₁ w₂ hne) r hr r' hr'
        · rw [pcs w₁ hw₁] at hr
          by_cases hw₂ : w₂ = w
          · subst hw₂
            obtain ⟨hid, hseq⟩ := h.rows_apart (hi.rows w₁) (hi.apart w₂ w₁ hne.symm) r' hr' r hr
            exact ⟨hid.symm, hseq.symm⟩
          · rw [pcs w₂ hw₂] at hr'
            exact hi.apart w₁ w₂ hne r hr r' hr'
      · by_cases hw : w' = w
        · rw [hw]
          exact h.keyFacts hi.tables.linked hg (hi.worker w)
        · rw [pcs w' hw]
          exact (hi.worker w').grow hg

/-- Rows of a reachable state stay, under their keys. -/
theorem grows_of_reachable {tenants : List Tenant} {s s' : Sys}
    (hr : Reachable (step cfg) (.init tenants) s) (h : Reachable (step cfg) s s') :
    Grows s.store s'.store :=
  h.inv (I := fun s' => Grows s.store s'.store) (.refl _) fun _ _ _ hr' hi hs =>
    hi.trans (step_grows (leaseInv_of_reachable (hr.trans hr')).ids hs)

/-- The keys are in order in every reachable state. -/
theorem keyInv_of_reachable {tenants : List Tenant} {s : Sys}
    (h : Reachable (step cfg) (.init tenants) s) : KeyInv s :=
  h.inv (.init tenants) fun _ _ _ hr hi hs => hi.step (leaseInv_of_reachable hr).ids hs

end

end Webhooks
