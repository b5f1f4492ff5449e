import Webhooks.Api.Handlers
import Webhooks.Protocol.Tenancy

/-!
# Properties — Isolation

What a request of one tenant reads and writes, on any route of the Node API and with any path id,
query, headers and body.

* `Store.only`: the store without the rows of other tenants.  `WritesOnly`: every row that is new
  or changed is the tenant's.
* `handle_writes`, by one lemma a route.
* `handle_only`: the response is the same on both stores, when events and deliveries are keyed
  and each delivery stays within one tenant.
* **`tenant_isolation`**: so it is in every reachable state.
-/

namespace Webhooks

open Lib Node

/-- What is left without the endpoints, events, deliveries, attempts and replays of other
tenants. -/
def Store.only (s : Store) (tenantId : Uuid) : Store :=
  { s with
    endpoints := s.endpoints.filter fun e => e.tenantId = tenantId
    events := s.events.filter fun e => e.tenantId = tenantId
    deliveries := s.deliveries.filter fun r => hasEndpoint s r.endpointId tenantId
    attempts := s.attempts.filter fun a =>
      s.deliveries.any fun r => r.id = a.deliveryId && hasEndpoint s r.endpointId tenantId
    replays := s.replays.filter fun r => hasEndpoint s r.endpointId tenantId }

/-- Every row that is new or changed belongs to the tenant. -/
structure WritesOnly (tenantId : Uuid) (s s' : Store) : Prop where
  tenants : s'.tenants = s.tenants
  endpoints : s'.endpoints.filter (fun e => e.tenantId ≠ tenantId) =
    s.endpoints.filter fun e => e.tenantId ≠ tenantId
  events : s'.events.filter (fun e => e.tenantId ≠ tenantId) =
    s.events.filter fun e => e.tenantId ≠ tenantId
  deliveries : s'.deliveries = s.deliveries
  attempts : s'.attempts = s.attempts
  replays : ∃ new, s'.replays = s.replays ++ new ∧
    ∀ r ∈ new, ∃ e ∈ s.endpoints, e.id = r.endpointId ∧ e.tenantId = tenantId

section

variable {cfg : Config} {tenants : List Tenant} {s : Store} {tenantId id : Uuid} {p : Platform}
  {d : Draws} {e : Endpoint} {r : Delivery} {overlapMs : Nat}

/-! ### What a route writes -/

theorem WritesOnly.refl (s : Store) : WritesOnly tenantId s s :=
  ⟨rfl, rfl, rfl, rfl, rfl, [], (List.append_nil _).symm, nofun⟩

/-- A refused value writes nothing. -/
theorem WritesOnly.param {α : Type} {v : Option α} {k : α → Store × Response}
    (h : ∀ a, WritesOnly tenantId s (k a).1) : WritesOnly tenantId s (param s v k).1 := by
  cases v with
  | none => exact .refl s
  | some a => exact h a

/-- Numbers are drawn for everybody. -/
theorem WritesOnly.supplies (uuids eventsSeq : Nat) :
    WritesOnly tenantId s { s with uuids := uuids, eventsSeq := eventsSeq } :=
  ⟨rfl, rfl, rfl, rfl, rfl, [], (List.append_nil _).symm, nofun⟩

/-- An `UPDATE endpoints … WHERE id = $1 AND tenant_id = $2`. -/
theorem WritesOnly.update {f : Endpoint → Endpoint} (hf : ∀ e, (f e).tenantId = e.tenantId) :
    WritesOnly tenantId s { s with
      endpoints := Table.update (fun e => e.id = id && e.tenantId = tenantId) f s.endpoints } := by
  refine ⟨rfl, ?_, rfl, rfl, rfl, [], (List.append_nil _).symm, nofun⟩
  rw [Table.filter_update fun e => by rw [hf]]
  refine Table.update_eq_self fun e he => ?_
  have hne : e.tenantId ≠ tenantId := by simpa using (List.mem_filter.mp he).2
  simp [hne]

theorem registerEndpoint_writes (body : Except String RegisterBody) :
    WritesOnly tenantId s (Node.registerEndpoint p d tenantId s body).1 := by
  cases body with
  | error message => exact .refl s
  | ok b =>
      simp only [Node.registerEndpoint]
      split
      · refine .param fun url => .param fun eventTypes => ?_
        refine ⟨rfl, ?_, rfl, rfl, rfl, [], (List.append_nil _).symm, nofun⟩
        simp [Webhooks.registerEndpoint, List.filter_append]
      · exact .refl s

theorem publishEvent_writes (body : Except String PublishBody) (key : Option String) :
    WritesOnly tenantId s (publishEvent p d tenantId s body key).1 := by
  cases body with
  | error message => exact .refl s
  | ok b =>
      simp only [publishEvent]
      split
      · exact .refl s
      · refine .param fun json => .param fun key => .param fun type => .param fun payload => ?_
        split
        · exact .supplies _ _
        · refine ⟨rfl, rfl, ?_, rfl, rfl, [], (List.append_nil _).symm, nofun⟩
          simp [List.filter_append, PublishRequest.newEvent]

/-- The batch is an insert of the tenant's, on an endpoint it has been looked up by. -/
theorem createReplay_writes (id : String) (body : Except String ReplayBody) (key : Option String) :
    WritesOnly tenantId s (createReplay p d tenantId s id body key).1 := by
  cases body with
  | error message => exact .refl s
  | ok b =>
      simp only [createReplay]
      split
      · exact .refl s
      · refine .param fun id => ?_
        split
        · next howned =>
            have hmem : ∃ e ∈ s.endpoints, e.id = id ∧ e.tenantId = tenantId := by
              simpa [hasEndpoint] using howned
            refine .param fun key => .param fun rangeStart => .param fun rangeEnd => ?_
            split
            · exact .supplies _ _
            · refine ⟨rfl, rfl, rfl, rfl, rfl, [_], rfl, fun r hr => ?_⟩
              rw [List.mem_singleton.mp hr]
              exact hmem
        · exact .refl s

/-- A request creates and changes rows of its tenant only. -/
theorem handle_writes (req : Request) :
    WritesOnly tenantId s (handle p d overlapMs tenantId s req).1 := by
  cases req with
  | registerEndpoint body => exact registerEndpoint_writes body
  | listEndpoints => exact .param fun _ => .refl s
  | getEndpoint | getEvent | getDelivery =>
      refine .param fun id => ?_
      split <;> exact .refl s
  | pauseEndpoint | resumeEndpoint | rotateSecret =>
      refine .param fun id => ?_
      simp only
      split <;> exact .update fun _ => rfl
  | listEndpointDeliveries =>
      refine .param fun id => ?_
      split
      · exact .refl s
      · exact .param fun _ => .refl s
  | publishEvent body key => exact publishEvent_writes body key
  | listEvents => exact .param fun _ => .param fun _ => .refl s
  | createReplay id body key => exact createReplay_writes id body key

/-! ### What a route reads -/

/-- The lookup names the tenant. -/
theorem findEndpoint_only : findEndpoint (s.only tenantId) id tenantId = findEndpoint s id tenantId :=
  Table.find?_filter_of_imp fun e _ h => by simpa using (Bool.and_eq_true_iff.mp h).2

theorem hasEndpoint_only : hasEndpoint (s.only tenantId) id tenantId = hasEndpoint s id tenantId :=
  Table.any_filter_of_imp fun e _ h => by simpa using (Bool.and_eq_true_iff.mp h).2

/-- An endpoint that is found is there, under its identifier. -/
theorem hasEndpoint_of_find (h : findEndpoint s id tenantId = some e) :
    e.id = id ∧ hasEndpoint s id tenantId = true := by
  have hp := List.find?_some h
  refine ⟨by simpa using (Bool.and_eq_true_iff.mp hp).1, ?_⟩
  exact List.any_eq_true.mpr ⟨e, List.mem_of_find?_eq_some h, hp⟩

theorem hasEndpoint_of_mem (he : e ∈ s.endpoints) (ht : e.tenantId = tenantId) :
    hasEndpoint s e.id tenantId = true :=
  List.any_eq_true.mpr ⟨e, he, by simp [ht]⟩

/-- The tenant's endpoints keep their deliveries. -/
theorem deliveriesOf_only (h : hasEndpoint s id tenantId = true) :
    deliveriesOf (s.only tenantId) id = deliveriesOf s id := by
  refine Table.filter_filter_of_imp fun r _ hr => ?_
  rw [of_decide_eq_true hr]
  exact h

/-- An update of endpoints that keeps who they belong to can be done before or after the other
tenants' rows are removed. -/
theorem only_update {q : Endpoint → Bool} {f : Endpoint → Endpoint}
    (hf : ∀ e, (f e).id = e.id ∧ (f e).tenantId = e.tenantId) :
    ({ s with endpoints := Table.update q f s.endpoints } : Store).only tenantId =
      { s.only tenantId with endpoints := Table.update q f (s.only tenantId).endpoints } := by
  have hhas : ∀ id, hasEndpoint { s with endpoints := Table.update q f s.endpoints } id tenantId =
      hasEndpoint s id tenantId := by
    intro id
    simp only [hasEndpoint, Table.update, List.any_map]
    congr 1
    funext e
    simp only [Function.comp]
    split <;> simp [hf]
  simp only [Store.only, hhas]
  rw [Table.filter_update fun e => by rw [(hf e).2]]

section

variable {s' : Store}

/-- The health of an endpoint depends on its deliveries only. -/
theorem serializeEndpointWithHealth_congr (h : deliveriesOf s' e.id = deliveriesOf s e.id) :
    serializeEndpointWithHealth p d s' e = serializeEndpointWithHealth p d s e := by
  simp only [serializeEndpointWithHealth, unresolvedOf, oldestPendingAt, recentSuccessRate, h]

/-- What a resume skips is read from the endpoint's own deliveries. -/
theorem skippedFailedDeliveries_congr (h : deliveriesOf s' id = deliveriesOf s id) :
    skippedFailedDeliveries d s' id = skippedFailedDeliveries d s id := by
  simp only [skippedFailedDeliveries, unresolvedOf, oldestPendingAt, h]

/-- A delivery is blocked by others of its endpoint only. -/
theorem serializeDeliverySummary_congr (h : deliveriesOf s' r.endpointId = deliveriesOf s r.endpointId) :
    serializeDeliverySummary p s' r = serializeDeliverySummary p s r := by
  simp only [serializeDeliverySummary, headDeliveryId, unresolvedOf, h]

/-- A value is refused or not whatever the store holds. -/
theorem param_congr {α : Type} {v : Option α} {k k' : α → Store × Response}
    (h : ∀ a, (k' a).2 = (k a).2) : (param s' v k').2 = (param s v k).2 := by
  cases v with
  | none => rfl
  | some a => exact h a

end

/-! ### The response -/

/-- A registration answers with what it inserted. -/
theorem registerEndpoint_only (body : Except String RegisterBody) :
    (Node.registerEndpoint p d tenantId (s.only tenantId) body).2 =
      (Node.registerEndpoint p d tenantId s body).2 := by
  cases body with
  | error message => rfl
  | ok b =>
      simp only [Node.registerEndpoint]
      split
      · exact param_congr fun url => param_congr fun eventTypes => rfl
      · rfl

/-- The condition on the tenant is in the query. -/
theorem listEndpoints_only (limit : Double) (before : Option String) :
    (listEndpoints p d tenantId (s.only tenantId) limit before).2 =
      (listEndpoints p d tenantId s limit before).2 := by
  refine param_congr fun cursor => ?_
  have hrows : (s.only tenantId).endpoints.filter (fun e => e.tenantId = tenantId) =
      s.endpoints.filter fun e => e.tenantId = tenantId :=
    Table.filter_filter_of_imp fun _ _ h => h
  simp only [hrows, Response.mk.injEq, Body.endpoints.injEq, true_and, and_true]
  refine List.map_congr_left fun e he => serializeEndpointWithHealth_congr (deliveriesOf_only ?_)
  obtain ⟨hmem, ht⟩ := List.mem_filter.mp (mem_listPage he)
  exact hasEndpoint_of_mem hmem (of_decide_eq_true ht)

theorem getEndpoint_only (id : String) :
    (getEndpoint p d tenantId (s.only tenantId) id).2 = (getEndpoint p d tenantId s id).2 := by
  refine param_congr fun id => ?_
  simp only [findEndpoint_only]
  cases hf : findEndpoint s id tenantId with
  | none => rfl
  | some e =>
      obtain ⟨hid, hhas⟩ := hasEndpoint_of_find hf
      have hdeliveries := deliveriesOf_only (hid ▸ hhas : hasEndpoint s e.id tenantId = true)
      simp only [serializeEndpointWithHealth_congr hdeliveries]

/-- An update of other columns leaves the lookup its rows. -/
theorem findEndpoint_update {q : Endpoint → Bool} {f : Endpoint → Endpoint}
    (hf : ∀ e, (f e).id = e.id ∧ (f e).tenantId = e.tenantId) :
    findEndpoint { s.only tenantId with endpoints := Table.update q f (s.only tenantId).endpoints } id
      tenantId = findEndpoint { s with endpoints := Table.update q f s.endpoints } id tenantId := by
  rw [← only_update hf, findEndpoint_only]

theorem findEndpoint_setEndpointStatus (status : EndpointStatus) :
    findEndpoint (setEndpointStatus (s.only tenantId) id tenantId status) id tenantId =
      findEndpoint (setEndpointStatus s id tenantId status) id tenantId :=
  findEndpoint_update fun _ => ⟨rfl, rfl⟩

theorem pauseEndpoint_only (id : String) :
    (pauseEndpoint p tenantId (s.only tenantId) id).2 = (pauseEndpoint p tenantId s id).2 := by
  refine param_congr fun id => ?_
  simp only [findEndpoint_setEndpointStatus]
  split <;> rfl

/-- What it discloses are deliveries of an endpoint it has found. -/
theorem resumeEndpoint_only (id : String) :
    (resumeEndpoint p d tenantId (s.only tenantId) id).2 = (resumeEndpoint p d tenantId s id).2 := by
  refine param_congr fun id => ?_
  simp only [findEndpoint_setEndpointStatus]
  cases hf : findEndpoint (setEndpointStatus s id tenantId .active) id tenantId with
  | none => rfl
  | some e =>
      obtain ⟨hid, hhas⟩ := hasEndpoint_of_find hf
      have hdeliveries : deliveriesOf (setEndpointStatus (s.only tenantId) id tenantId .active) e.id =
          deliveriesOf (setEndpointStatus s id tenantId .active) e.id := by
        have hcomm : (setEndpointStatus s id tenantId .active).only tenantId =
            setEndpointStatus (s.only tenantId) id tenantId .active :=
          only_update fun _ => ⟨rfl, rfl⟩
        rw [← hcomm]
        exact deliveriesOf_only (hid ▸ hhas)
      simp only [unresolvedOf, hdeliveries, skippedFailedDeliveries_congr hdeliveries]

theorem rotateSecret_only (id : String) :
    (Node.rotateSecret p d overlapMs tenantId (s.only tenantId) id).2 =
      (Node.rotateSecret p d overlapMs tenantId s id).2 := by
  refine param_congr fun id => ?_
  have hfind : ∀ signingSecret overlapExpiresAt,
      findEndpoint (Webhooks.rotateSecret (s.only tenantId) id tenantId signingSecret overlapExpiresAt)
        id tenantId =
      findEndpoint (Webhooks.rotateSecret s id tenantId signingSecret overlapExpiresAt) id tenantId :=
    fun _ _ => findEndpoint_update fun _ => ⟨rfl, rfl⟩
  simp only [hfind]
  split <;> rfl

theorem listEndpointDeliveries_only (id : String) (limit : Double) (after : Option String) :
    (listEndpointDeliveries p tenantId (s.only tenantId) id limit after).2 =
      (listEndpointDeliveries p tenantId s id limit after).2 := by
  refine param_congr fun id => ?_
  simp only [findEndpoint_only]
  cases hf : findEndpoint s id tenantId with
  | none => rfl
  | some e =>
      have hdeliveries := deliveriesOf_only (hasEndpoint_of_find hf).2
      refine param_congr fun after => ?_
      simp only [selectDeliveries, hdeliveries, Response.mk.injEq, Body.deliveries.injEq, true_and,
        and_true]
      refine List.map_congr_left fun r hr => serializeDeliverySummary_congr ?_
      have hmem := List.mem_of_mem_take (Paging.mem_page hr)
      have hof : r.endpointId = id :=
        of_decide_eq_true (List.mem_filter.mp (List.mem_filter.mp
          ((List.mem_insertionSort _).mp hmem)).1).2
      rw [hof]
      exact hdeliveries

/-- An earlier event under the key is the tenant's. -/
theorem publishEvent_only (body : Except String PublishBody) (key : Option String) :
    (publishEvent p d tenantId (s.only tenantId) body key).2 =
      (publishEvent p d tenantId s body key).2 := by
  cases body with
  | error message => rfl
  | ok b =>
      simp only [publishEvent]
      split
      · rfl
      · refine param_congr fun json => param_congr fun key => param_congr fun type =>
          param_congr fun payload => ?_
        have hfind : (s.only tenantId).events.find?
            (PublishRequest.conflicts ⟨tenantId, key, type, payload⟩) =
              s.events.find? (PublishRequest.conflicts ⟨tenantId, key, type, payload⟩) :=
          Table.find?_filter_of_imp fun e _ h => (Bool.and_eq_true_iff.mp h).1
        simp only [hfind]
        split <;> rfl

/-- An earlier batch under the key is that of an endpoint of the tenant. -/
theorem createReplay_only (id : String) (body : Except String ReplayBody) (key : Option String) :
    (createReplay p d tenantId (s.only tenantId) id body key).2 =
      (createReplay p d tenantId s id body key).2 := by
  cases body with
  | error message => rfl
  | ok b =>
      simp only [createReplay]
      split
      · rfl
      · refine param_congr fun id => ?_
        rw [hasEndpoint_only]
        split
        · next hhas =>
            refine param_congr fun key => param_congr fun rangeStart => param_congr fun rangeEnd => ?_
            have hfind : (s.only tenantId).replays.find?
                (ReplayRequest.conflicts ⟨tenantId, id, key, rangeStart, rangeEnd⟩) =
                  s.replays.find? (ReplayRequest.conflicts ⟨tenantId, id, key, rangeStart, rangeEnd⟩) := by
              refine Table.find?_filter_of_imp fun row _ h => ?_
              have hof : row.endpointId = id := of_decide_eq_true (Bool.and_eq_true_iff.mp h).1
              rw [hof]
              exact hhas
            simp only [hfind]
            split <;> rfl
        · rfl

/-! ### Routes that go from events to deliveries -/

/-- A delivery of a tenant's event goes to an endpoint of the tenant. -/
theorem hasEndpoint_of_event (hd : ∀ r ∈ s.deliveries, r.SharesTenant s)
    (hn : (s.events.map (·.id)).Nodup) {ev : Event} (hev : ev ∈ s.events) (ht : ev.tenantId = tenantId)
    (hr : r ∈ s.deliveries) (hid : r.eventId = ev.id) : hasEndpoint s r.endpointId tenantId = true := by
  obtain ⟨ev', hev', hid', ep, hep, hepid, htep⟩ := hd r hr
  have heq : ev' = ev := Table.eq_of_key hn hev' hev (hid'.trans hid)
  have hof : hasEndpoint s ep.id tenantId = true := hasEndpoint_of_mem hep (by rw [htep, heq, ht])
  rwa [hepid] at hof

/-- The deliveries of the tenant's event, which `endpoint_id` asks for, are the tenant's. -/
theorem admits_only (hd : ∀ r ∈ s.deliveries, r.SharesTenant s) (hn : (s.events.map (·.id)).Nodup)
    {ev : Event} (hev : ev ∈ s.events) (ht : ev.tenantId = tenantId) (f : EventFilter) :
    f.admits tenantId (s.only tenantId) ev = f.admits tenantId s ev := by
  have hany : ∀ endpointId : Uuid,
      (s.only tenantId).deliveries.any (fun r => r.eventId = ev.id && r.endpointId = endpointId) =
        s.deliveries.any fun r => r.eventId = ev.id && r.endpointId = endpointId := by
    intro endpointId
    refine Table.any_filter_of_imp fun r hr h => ?_
    exact hasEndpoint_of_event hd hn hev ht hr (of_decide_eq_true (Bool.and_eq_true_iff.mp h).1)
  simp only [EventFilter.admits, hany]

theorem listEvents_only (hd : ∀ r ∈ s.deliveries, r.SharesTenant s) (hn : (s.events.map (·.id)).Nodup)
    (q : EventQuery) : (listEvents p tenantId (s.only tenantId) q).2 = (listEvents p tenantId s q).2 := by
  refine param_congr fun f => param_congr fun cursor => ?_
  have htenant : ∀ {st : Store} {ev : Event}, f.admits tenantId st ev = true → ev.tenantId = tenantId := by
    intro st ev h
    simp only [EventFilter.admits, Bool.and_eq_true, decide_eq_true_eq] at h
    exact h.1.1.1.1.1
  have hrows : (s.only tenantId).events.filter (f.admits tenantId (s.only tenantId)) =
      s.events.filter (f.admits tenantId s) := by
    have hown : (s.only tenantId).events.filter (f.admits tenantId (s.only tenantId)) =
        s.events.filter (f.admits tenantId (s.only tenantId)) :=
      Table.filter_filter_of_imp fun ev _ h => decide_eq_true (htenant h)
    rw [hown]
    refine List.filter_congr fun ev hev => ?_
    by_cases ht : ev.tenantId = tenantId
    · exact admits_only hd hn hev ht f
    · rw [Bool.eq_iff_iff]
      exact ⟨fun h => absurd (htenant h) ht, fun h => absurd (htenant h) ht⟩
  simp only [hrows]

/-- So are those the event is shown with. -/
theorem getEvent_only (hd : ∀ r ∈ s.deliveries, r.SharesTenant s) (hn : (s.events.map (·.id)).Nodup)
    (id : String) : (getEvent p tenantId (s.only tenantId) id).2 = (getEvent p tenantId s id).2 := by
  refine param_congr fun id => ?_
  have hfind : (s.only tenantId).events.find? (fun e => e.id = id && e.tenantId = tenantId) =
      s.events.find? fun e => e.id = id && e.tenantId = tenantId :=
    Table.find?_filter_of_imp fun e _ h => (Bool.and_eq_true_iff.mp h).2
  simp only [hfind]
  cases hf : s.events.find? fun e => e.id = id && e.tenantId = tenantId with
  | none => rfl
  | some ev =>
      have hp := List.find?_some hf
      have ht : ev.tenantId = tenantId := of_decide_eq_true (Bool.and_eq_true_iff.mp hp).2
      have hrows : (s.only tenantId).deliveries.filter (fun r => r.eventId = ev.id) =
          s.deliveries.filter fun r => r.eventId = ev.id :=
        Table.filter_filter_of_imp fun r hr h =>
          hasEndpoint_of_event hd hn (List.mem_of_find?_eq_some hf) ht hr (of_decide_eq_true h)
      simp only [hrows]

/-- The join on the endpoint names the tenant. -/
theorem getDelivery_only (id : String) :
    (getDelivery p d tenantId (s.only tenantId) id).2 = (getDelivery p d tenantId s id).2 := by
  refine param_congr fun id => ?_
  have hfind : (s.only tenantId).deliveries.find?
      (fun r => r.id = id && hasEndpoint (s.only tenantId) r.endpointId tenantId) =
        s.deliveries.find? fun r => r.id = id && hasEndpoint s r.endpointId tenantId := by
    simp only [hasEndpoint_only]
    exact Table.find?_filter_of_imp fun r _ h => (Bool.and_eq_true_iff.mp h).2
  simp only [hfind]
  cases hf : s.deliveries.find? fun r => r.id = id && hasEndpoint s r.endpointId tenantId with
  | none => rfl
  | some r =>
      have hp := List.find?_some hf
      have hhas : hasEndpoint s r.endpointId tenantId = true := (Bool.and_eq_true_iff.mp hp).2
      have hattempts : (s.only tenantId).attemptsOf r.id = s.attemptsOf r.id := by
        refine Table.filter_filter_of_imp fun a _ h => ?_
        have hof : a.deliveryId = r.id := of_decide_eq_true h
        exact List.any_eq_true.mpr ⟨r, List.mem_of_find?_eq_some hf, by simp [hof, hhas]⟩
      simp only [hattempts, serializeDeliverySummary_congr (deliveriesOf_only hhas)]

/-- The response does not depend on the rows of other tenants. -/
theorem handle_only (hd : ∀ r ∈ s.deliveries, r.SharesTenant s) (hn : (s.events.map (·.id)).Nodup)
    (req : Request) : (handle p d overlapMs tenantId (s.only tenantId) req).2 =
      (handle p d overlapMs tenantId s req).2 := by
  cases req with
  | registerEndpoint body => exact registerEndpoint_only body
  | listEndpoints limit before => exact listEndpoints_only limit before
  | getEndpoint id => exact getEndpoint_only id
  | pauseEndpoint id => exact pauseEndpoint_only id
  | resumeEndpoint id => exact resumeEndpoint_only id
  | rotateSecret id => exact rotateSecret_only id
  | listEndpointDeliveries id limit after => exact listEndpointDeliveries_only id limit after
  | publishEvent body key => exact publishEvent_only body key
  | listEvents query => exact listEvents_only hd hn query
  | getEvent id => exact getEvent_only hd hn id
  | getDelivery id => exact getDelivery_only id
  | createReplay id body key => exact createReplay_only id body key

/-- **Tenant isolation.**  In every reachable state and for every request of a tenant: it creates
and changes rows of the tenant only, its response is the one it gets when the rows of other
tenants are removed, and every delivery has its event and its endpoint with one tenant. -/
theorem tenant_isolation {s : Sys} (h : Reachable (step cfg) (.init tenants) s) (tenantId : Uuid)
    (p : Platform) (d : Draws) (req : Request) :
    WritesOnly tenantId s.store (handle p d cfg.overlapMs tenantId s.store req).1 ∧
      (handle p d cfg.overlapMs tenantId s.store req).2 =
        (handle p d cfg.overlapMs tenantId (s.store.only tenantId) req).2 ∧
      ∀ r ∈ s.store.deliveries, ∃ e ∈ s.store.events, ∃ ep ∈ s.store.endpoints,
        e.id = r.eventId ∧ ep.id = r.endpointId ∧ ep.tenantId = e.tenantId := by
  have hd : ∀ r ∈ s.store.deliveries, r.SharesTenant s.store := fun r hr => sharesTenant_of_reachable h hr
  refine ⟨handle_writes req, (handle_only hd (publishInv_of_reachable h).eventIds req).symm, fun r hr => ?_⟩
  obtain ⟨e, he, hid, ep, hep, hepid, ht⟩ := hd r hr
  exact ⟨e, he, ep, hep, hid, hepid, ht⟩

end

open Sample in
/-- Two tenants have an event and a delivery each; the first one lists its events. -/
theorem tenant_isolation_sample : ∃ s, Reachable (step config) (.init [⟨100, none⟩, ⟨200, none⟩]) s ∧
    s.store.events.length = 2 ∧ s.store.deliveries.length = 2 ∧
    (handle platform Sample.draws config.overlapMs 100 (s.store.only 100)
      (.listEvents ⟨none, none, none, none, none, .nan, none⟩)).2 =
        ⟨200, .events [⟨2, "a", "\x7b\x7d", .expanded, "1970-01-01T00:00:00.000Z"⟩] none⟩ := by
  obtain ⟨s, hs, hp⟩ := exists_of_run (step config) (.init [⟨100, none⟩, ⟨200, none⟩])
    ([register, .register 200 "v" ["a"] "t"] ++ publish 0 "k" ++
      [.request 1 ⟨200, "k", "a", "\x7b\x7d"⟩, .publish 1, .publish 1] ++ expand ++ expand)
    (fun s => s.store.events.length = 2 && s.store.deliveries.length = 2 &&
      (handle platform Sample.draws config.overlapMs 100 s.store
        (.listEvents ⟨none, none, none, none, none, .nan, none⟩)).2 =
          ⟨200, .events [⟨2, "a", "\x7b\x7d", .expanded, "1970-01-01T00:00:00.000Z"⟩] none⟩)
    (by decide +kernel)
  simp only [Bool.and_eq_true, decide_eq_true_eq] at hp
  obtain ⟨⟨hevents, hdeliveries⟩, hresponse⟩ := hp
  have hiso := tenant_isolation (.of_run hs) 100 platform Sample.draws
    (.listEvents ⟨none, none, none, none, none, .nan, none⟩)
  exact ⟨s, .of_run hs, hevents, hdeliveries, hiso.2.1.symm.trans hresponse⟩

end Webhooks
