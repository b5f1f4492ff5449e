import Webhooks.Api.GoQueries

/-!
# Api — GoHandlers

Routes of the Go API, as functions of the database an authenticated request meets when nothing
else runs in between.  A query value that is absent is empty.

* `listEvents`, `listEndpoints`, `listEndpointDeliveries`.
* **`eventsQuery_selects`**: the statement `listEvents` puts together selects the rows its filter
  admits.
* `deliveriesQuery_selects`: that of `listEndpointDeliveries`, the deliveries behind its cursor.
-/

namespace Webhooks.Go

open Lib
open Node (newestFirst isBefore)

structure EventQuery where
  id : String
  type : String
  fromDate : String
  toDate : String
  endpointId : String
  limit : String
  before : String

def computeBlockedOnDeliveryID (r : Delivery) (headDeliveryId : Option Uuid) : Option Uuid :=
  if r.state ≠ .pending then none
  else if headDeliveryId = some r.id then none
  else headDeliveryId

section

variable (p : Platform) (d : Draws) (tenantId : Uuid) (s : Store)

/-! ### Serializers -/

def serializeEndpoint (e : Endpoint) : EndpointJson :=
  ⟨e.id, e.url, e.eventTypes, e.status, p.rfc3339Nano e.createdAt⟩

def serializeEndpointWithHealth (e : Endpoint) : EndpointHealthJson :=
  ⟨serializeEndpoint p e, (unresolvedOf s e.id).length, (oldestPendingAt s e.id).map p.rfc3339Nano,
    recentSuccessRate d s e.id⟩

def serializeEvent (e : Event) : EventJson :=
  ⟨e.id, e.type, e.payload, e.status, p.rfc3339Nano e.createdAt⟩

def serializeDeliverySummary (r : Delivery) : DeliverySummaryJson :=
  ⟨r.id, r.eventId, r.state, r.attemptCount, p.rfc3339Nano r.nextAttemptAt,
    computeBlockedOnDeliveryID r (headDeliveryId s r.endpointId)⟩

/-! ### Lists -/

/-- `e.tenant_id = $1`, as every query of the tenant's rows begins. -/
def tenantRows {α : Type} (tenantOf : α → Uuid) : Select α :=
  ⟨[.id tenantId], [fun args => match placeholder args 1 with
    | some (.id id) => some fun a => tenantOf a = id
    | _ => none]⟩

/-- The statement of `listEvents`, up to its cursor. -/
def eventsQuery (q : EventQuery) : Select Event :=
  let query := tenantRows tenantId (·.tenantId)
  let query := query.whereText q.id (ofText p.uuid fun id e => e.id = id)
  let query := query.whereText q.type (ofText textParam fun type e => e.type = type)
  let query := query.whereText q.fromDate (ofText p.timestamptz fun t e => t.compare e.createdAt ≠ .lt)
  let query := query.whereText q.toDate (ofText p.timestamptz fun t e => t.compare e.createdAt ≠ .gt)
  query.whereText q.endpointId (ofText p.uuid fun endpointId e =>
    s.deliveries.any fun r => r.eventId = e.id && r.endpointId = endpointId)

/-- The cursor of a query value. -/
def cursorOf (before : String) : Option Cursor := (nonEmpty before).bind decodeCursor

/-- `next_cursor`, of the last row of a page. -/
def nextCursor {α : Type} (createdAt : α → Time) (id : α → Uuid) (last : Option α) : Option String :=
  last.map fun a => encodeCursor ⟨p.rfc3339Nano (createdAt a), p.uuidText (id a)⟩

/-- `GET /events`. -/
def listEvents (q : EventQuery) : Store × Response :=
  let limit := parseLimit q.limit
  let query := (eventsQuery p tenantId s q).whereCursor (cursorOf q.before)
    (createdBefore p (·.createdAt) (·.id))
  param s (query.run (newestFirst (·.createdAt) (·.id)) limit s.events) fun rows =>
    let (events, last) := Paging.page limit rows
    (s, ⟨200, .events (events.map (serializeEvent p)) (nextCursor p (·.createdAt) (·.id) last)⟩)

/-- `GET /endpoints`. -/
def listEndpoints (limit before : String) : Store × Response :=
  let limit := parseLimit limit
  let query := (tenantRows tenantId Endpoint.tenantId).whereCursor (cursorOf before)
    (createdBefore p (·.createdAt) (·.id))
  param s (query.run (newestFirst (·.createdAt) (·.id)) limit s.endpoints) fun rows =>
    let (endpoints, last) := Paging.page limit rows
    (s, ⟨200, .endpoints (endpoints.map (serializeEndpointWithHealth p d s))
      (nextCursor p (·.createdAt) (·.id) last)⟩)

/-- `d.seq > $n`. -/
def seqAfter (n : Nat) : Condition Delivery := fun args =>
  (numberArg args n).map fun seq r => seq < (r.seq : Int)

/-- The statement of `listEndpointDeliveries`. -/
def deliveriesQuery (id : String) (after : Option Int) : Select Delivery :=
  let query := (⟨[], []⟩ : Select Delivery).whereArg (.text id)
    (ofText p.uuid fun id r => r.endpointId = id)
  match after with
  | none => query
  | some seq => query.whereArg (.number seq) seqAfter

/-- `GET /endpoints/{id}/deliveries`. -/
def listEndpointDeliveries (id limit after : String) : Store × Response :=
  param s (p.uuid id) fun endpointId =>
    match findEndpoint s endpointId tenantId with
    | none => (s, notFound "Endpoint not found")
    | some _ =>
        let limit := parseLimit limit
        let query := deliveriesQuery p id ((nonEmpty after).bind decodeSeqCursor)
        param s (query.run (fun a b => a.seq ≤ b.seq) limit s.deliveries) fun rows =>
          let (deliveries, last) := Paging.page limit rows
          (s, ⟨200, .deliveries (deliveries.map (serializeDeliverySummary p s))
            (last.map fun r => encodeSeqCursor r.seq)⟩)

/-! ### Endpoints -/

/-- `updateStatus`: the row it returns, or the response `fail` writes. -/
def updateStatus (id : String) (newStatus : EndpointStatus) : Store × Except Response Endpoint :=
  match p.uuid id with
  | none => (s, .error internalError)
  | some id =>
      let s' := setEndpointStatus s id tenantId newStatus
      match findEndpoint s' id tenantId with
      | none => (s', .error (notFound "Endpoint not found"))
      | some e => (s', .ok e)

/-- `POST /endpoints/{id}/resume`. -/
def resumeEndpoint (id : String) : Store × Response :=
  match updateStatus p tenantId s id .active with
  | (s', .error response) => (s', response)
  | (s', .ok e) =>
      (s', ⟨200, .resumed (serializeEndpoint p e) (unresolvedOf s' e.id).length
        ((skippedFailedDeliveries d s' e.id).map (·.id))⟩)

end

/-- The conditions as parameters, or `none` when Postgres refuses one of them. -/
def EventQuery.params (p : Platform) (q : EventQuery) : Option EventFilter := do
  let id ← (nonEmpty q.id).mapM p.uuid
  let type ← (nonEmpty q.type).mapM textParam
  let fromDate ← (nonEmpty q.fromDate).mapM p.timestamptz
  let toDate ← (nonEmpty q.toDate).mapM p.timestamptz
  let endpointId ← (nonEmpty q.endpointId).mapM p.uuid
  some ⟨id, type, fromDate, toDate, endpointId⟩

section

variable {p : Platform} {tenantId : Uuid} {s : Store}

theorem decodeCursor_empty : decodeCursor "" = none := by decide

theorem cursorOf_of_decode {before : String} {c : Cursor} (h : decodeCursor before = some c) :
    cursorOf before = some c := by
  have hne : before ≠ "" := by
    rintro rfl
    rw [decodeCursor_empty] at h
    cases h
  rw [cursorOf, nonEmpty, if_neg hne, Option.bind_some, h]

theorem tenantRows_selects {α : Type} (tenantOf : α → Uuid) :
    (tenantRows tenantId tenantOf).Selects (some fun a => tenantOf a = tenantId) := by
  intro more
  simp [tenantRows, placeholder]

/-- The statement of `listEvents` selects the rows its filter admits. -/
theorem eventsQuery_selects (q : EventQuery) :
    (eventsQuery p tenantId s q).Selects ((q.params p).map fun f => f.admits tenantId s) := by
  have h : (tenantRows tenantId Event.tenantId).Selects _ := tenantRows_selects Event.tenantId
  have hid := h.whereText q.id p.uuid fun id e => e.id = id
  have htype := hid.whereText q.type textParam fun type e => e.type = type
  have hfrom := htype.whereText q.fromDate p.timestamptz fun t e => t.compare e.createdAt ≠ .lt
  have hto := hfrom.whereText q.toDate p.timestamptz fun t e => t.compare e.createdAt ≠ .gt
  have hendpoint := hto.whereText q.endpointId p.uuid fun endpointId e =>
    s.deliveries.any fun r => r.eventId = e.id && r.endpointId = endpointId
  intro more
  refine (hendpoint more).trans ?_
  simp only [EventQuery.params, Option.bind_eq_bind, Option.bind_some]
  cases (nonEmpty q.id).mapM p.uuid with
  | none => rfl
  | some id =>
  cases (nonEmpty q.type).mapM textParam with
  | none => rfl
  | some type =>
  cases (nonEmpty q.fromDate).mapM p.timestamptz with
  | none => rfl
  | some fromDate =>
  cases (nonEmpty q.toDate).mapM p.timestamptz with
  | none => rfl
  | some toDate => cases (nonEmpty q.endpointId).mapM p.uuid <;> rfl

/-- The statement of `listEndpointDeliveries` selects the deliveries behind the cursor. -/
theorem deliveriesQuery_selects {id : String} {endpointId : Uuid} (hid : p.uuid id = some endpointId)
    (after : Option Int) : (deliveriesQuery p id after).Selects
      (some fun r => r.endpointId = endpointId && after.all fun seq => seq < (r.seq : Int)) := by
  have hendpoint : ((⟨[], []⟩ : Select Delivery).whereArg (.text id)
      (ofText p.uuid fun id r => r.endpointId = id)).Selects (some fun r => r.endpointId = endpointId) := by
    have hnone : (⟨[], []⟩ : Select Delivery).Selects (some fun _ => true) := fun more => rfl
    refine fun more => (hnone.whereArg (b := some fun r => r.endpointId = endpointId) ?_ more).trans rfl
    intro args more
    simp [ofText, hid]
  cases after with
  | none => exact fun more => (hendpoint more).trans (by simp)
  | some seq =>
      refine fun more => (hendpoint.whereArg (b := some fun r => seq < (r.seq : Int)) ?_ more).trans rfl
      intro args more
      simp [seqAfter, numberArg_append]

end

end Webhooks.Go
