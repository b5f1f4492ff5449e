import Webhooks.Api.GoHandlers
import Webhooks.Lib.GrowingPages
import Webhooks.Properties.Walks
import Webhooks.Protocol.Keys

/-!
# Properties — GrowingWalks

The list routes of the Go API read from the first page to the last, while rows are added and deliveries
change state between the requests.

The cursor of `GET /events` and `GET /endpoints` has `created_at` in full, and that of
`GET /endpoints/{id}/deliveries` is a `seq`, so what a cursor lets through is what comes after its row.

* `RowsKept`: what the requests of a walk have in common; `rowsKept_of_reachable`: a run of the system
  keeps the rows.
* `ExactWalk`: a walk that ends, in order, without a row twice, with every row of the first table.
* **`growing_walks_exact`**: every walk is.
-/

namespace Webhooks

open Lib Lib.Paging

/-! ### What stays -/

/-- The rows of one store are rows of a later one, with the columns a list is filtered and ordered by. -/
structure RowsKept (s s' : Store) : Prop where
  events : ∀ e ∈ s.events, ∃ e' ∈ s'.events,
    e'.id = e.id ∧ e'.tenantId = e.tenantId ∧ e'.type = e.type ∧ e'.createdAt = e.createdAt
  endpoints : ∀ e ∈ s.endpoints, ∃ e' ∈ s'.endpoints,
    e'.id = e.id ∧ e'.tenantId = e.tenantId ∧ e'.createdAt = e.createdAt
  deliveries : ∀ r ∈ s.deliveries, ∃ r' ∈ s'.deliveries,
    r'.id = r.id ∧ r'.eventId = r.eventId ∧ r'.endpointId = r.endpointId ∧ r'.seq = r.seq

section

variable {cfg : Config} {now : Time} {st st' : Store} {w : WorkerId} {pc pc' : Pc} {l : Label}

theorem RowsKept.refl (s : Store) : RowsKept s s :=
  ⟨fun e he => ⟨e, he, rfl, rfl, rfl, rfl⟩, fun e he => ⟨e, he, rfl, rfl, rfl⟩,
    fun r hr => ⟨r, hr, rfl, rfl, rfl, rfl⟩⟩

theorem RowsKept.trans {s₁ s₂ s₃ : Store} (h₁ : RowsKept s₁ s₂) (h₂ : RowsKept s₂ s₃) :
    RowsKept s₁ s₃ where
  events e he := by
    obtain ⟨e₁, he₁, i₁, t₁, y₁, c₁⟩ := h₁.events e he
    obtain ⟨e₂, he₂, i₂, t₂, y₂, c₂⟩ := h₂.events e₁ he₁
    exact ⟨e₂, he₂, i₂.trans i₁, t₂.trans t₁, y₂.trans y₁, c₂.trans c₁⟩
  endpoints e he := by
    obtain ⟨e₁, he₁, i₁, t₁, c₁⟩ := h₁.endpoints e he
    obtain ⟨e₂, he₂, i₂, t₂, c₂⟩ := h₂.endpoints e₁ he₁
    exact ⟨e₂, he₂, i₂.trans i₁, t₂.trans t₁, c₂.trans c₁⟩
  deliveries r hr := by
    obtain ⟨r₁, hr₁, i₁, v₁, e₁, q₁⟩ := h₁.deliveries r hr
    obtain ⟨r₂, hr₂, i₂, v₂, e₂, q₂⟩ := h₂.deliveries r₁ hr₁
    exact ⟨r₂, hr₂, i₂.trans i₁, v₂.trans v₁, e₂.trans e₁, q₂.trans q₁⟩

/-- An `UPDATE endpoints`. -/
theorem endpoints_kept_of_update {p : Endpoint → Bool} {f : Endpoint → Endpoint}
    (hf : ∀ e, (f e).id = e.id ∧ (f e).tenantId = e.tenantId ∧ (f e).createdAt = e.createdAt) :
    ∀ e ∈ st.endpoints, ∃ e' ∈ Table.update p f st.endpoints,
      e'.id = e.id ∧ e'.tenantId = e.tenantId ∧ e'.createdAt = e.createdAt := by
  intro e he
  refine ⟨_, Table.mem_update_of_mem he, ?_⟩
  split
  · exact hf e
  · exact ⟨rfl, rfl, rfl⟩

theorem WorkerMove.endpoints_kept (h : WorkerMove cfg now st w pc l st' pc') :
    ∀ e ∈ st.endpoints, ∃ e' ∈ st'.endpoints,
      e'.id = e.id ∧ e'.tenantId = e.tenantId ∧ e'.createdAt = e.createdAt := by
  cases h with
  | claim hc =>
      obtain ⟨-, -, rfl⟩ := claimEndpoint_some hc
      exact endpoints_kept_of_update fun _ => ⟨rfl, rfl, rfl⟩
  | close hc =>
      rw [(closeOrphans_endpoints hc).1]
      exact (RowsKept.refl st).endpoints
  | release => exact endpoints_kept_of_update fun _ => ⟨rfl, rfl, rfl⟩
  | @complete _ claimed result random fault =>
      obtain hc | ⟨-, hc⟩ | ⟨-, -, hc⟩ := completeDelivery_cases cfg now st claimed result random fault
      <;> rw [hc]
      · exact (RowsKept.refl st).endpoints
      · exact (RowsKept.refl st).endpoints
      · refine endpoints_kept_of_update fun e => ?_
        unfold Endpoint.resolve
        split <;> exact ⟨rfl, rfl, rfl⟩
  | commit =>
      rw [commitExpansion_endpoints]
      exact (RowsKept.refl st).endpoints
  | _ => exact (RowsKept.refl st).endpoints

theorem WorkerMove.rowsKept (h : WorkerMove cfg now st w pc l st' pc') : RowsKept st st' where
  events := by
    obtain he | ⟨src, rows, -, -, he⟩ := h.events <;> rw [he]
    · exact (RowsKept.refl st).events
    · intro e hmem
      cases src with
      | replay r => exact ⟨e, hmem, rfl, rfl, rfl, rfl⟩
      | event e₀ =>
          refine ⟨_, Table.mem_update_of_mem hmem, ?_⟩
          split <;> exact ⟨rfl, rfl, rfl, rfl⟩
  endpoints := h.endpoints_kept
  deliveries r hr := by
    obtain ⟨r', hr', hc⟩ := h.deliveries.mem hr
    exact ⟨r', hr', hc.id_eq, hc.eventId_eq, hc.endpointId_eq, hc.seq_eq⟩

theorem ApiMove.rowsKept (h : ApiMove now st st') : RowsKept st st' where
  events := by
    cases h with
    | other _ _ _ _ events =>
        obtain ⟨es, he⟩ := events
        rw [he]
        exact fun e h => ⟨e, List.mem_append_left _ h, rfl, rfl, rfl, rfl⟩
    | _ => exact (RowsKept.refl st).events
  endpoints := by
    cases h with
    | register => exact fun e he => ⟨e, List.mem_append_left _ he, rfl, rfl, rfl⟩
    | status | rotate => exact endpoints_kept_of_update fun _ => ⟨rfl, rfl, rfl⟩
    | other _ endpoints =>
        rw [endpoints]
        exact (RowsKept.refl st).endpoints
  deliveries := by rw [h.deliveries]; exact (RowsKept.refl st).deliveries

theorem step_rowsKept {s s' : Sys} (h : step cfg s l = some s') : RowsKept s.store s'.store := by
  cases step_move h with
  | tick ms _ _ store => rw [store]; exact .refl _
  | api _ _ _ h => exact h.rowsKept
  | worker w _ _ h => exact h.rowsKept

/-- Whatever the system does between two requests, the rows stay. -/
theorem rowsKept_of_reachable {s s' : Sys} (h : Reachable (step cfg) s s') :
    RowsKept s.store s'.store :=
  h.inv (I := fun s' => RowsKept s.store s'.store) (.refl _) fun _ _ _ _ hi hs =>
    hi.trans (step_rowsKept hs)

end

/-- The database at the requests of a walk: rows are added and stay, and all there ever are is in a final
one.  Identifiers and `seq` are unique, and a `seq` is a positive `bigint`. -/
structure History (tables : Nat → Store) (final : Store) : Prop where
  kept : ∀ i, RowsKept (tables i) (tables (i + 1))
  within : ∀ i, RowsKept (tables i) final
  events : ∀ i, ((tables i).events.map (·.id)).Nodup
  endpoints : ∀ i, ((tables i).endpoints.map (·.id)).Nodup
  seqs : ∀ i, ((tables i).deliveries.map (·.seq)).Nodup
  bigint : ∀ i, ∀ r ∈ (tables i).deliveries, 0 < r.seq ∧ r.seq < 2 ^ 63
  finalEvents : (final.events.map (·.id)).Nodup
  finalEndpoints : (final.endpoints.map (·.id)).Nodup
  finalDeliveries : (final.deliveries.map (·.id)).Nodup

/-! ### The pages -/

/-- A walk over tables that begins at the first of them: it ends, with the rows as they were when their
page was read, in order, none twice, among them every row of the first table. -/
def ExactWalk {α β : Type} (fetch : Nat → Option String → Option (List β × Option String))
    (table : Nat → List α) (serialize : Nat → α → β) (id : α → Uuid) (before : α → α → Prop) : Prop :=
  ∃ (n : Nat) (rows : List (Nat × α)),
    walkFrom fetch n 0 none = some (rows.map fun r => serialize r.1 r.2) ∧
    (rows.Pairwise fun a b => before a.2 b.2) ∧ (rows.map fun r => id r.2).Nodup ∧
    (∀ r ∈ rows, r.2 ∈ table r.1) ∧ ∀ a ∈ table 0, ∃ r ∈ rows, id r.2 = id a

/-- Strictly newest first, on `(created_at, id)`. -/
def newer (a b : Nat × Nat) : Prop := b.1 < a.1 ∨ b.1 = a.1 ∧ b.2 < a.2

instance : DecidableRel newer := fun a b => by unfold newer; exact inferInstance

/-- Postgres reads back what a cursor says of a row, to the tick. -/
def Platform.ReadsBackExactly (p : Platform) (createdAt : Time) (id : Uuid) : Prop :=
  p.rfc3339Nano createdAt ≠ "" ∧ p.uuidText id ≠ "" ∧
    p.timestamptz (p.rfc3339Nano createdAt) = some (.at (createdAt : Int)) ∧
    p.uuid (p.uuidText id) = some id

instance (p : Platform) (createdAt : Time) (id : Uuid) : Decidable (p.ReadsBackExactly createdAt id) :=
  inferInstanceAs (Decidable (_ ∧ _ ∧ _ ∧ _))

namespace Go

section

variable (p : Platform) (d : Nat → Draws) (tenantId : Uuid) (tables : Nat → Store)

/-- The page of `GET /events` at a cursor, asked for at a moment. -/
def eventsAt (q : EventQuery) (i : Nat) (before : Option String) :
    Option (List EventJson × Option String) :=
  match (listEvents p tenantId (tables i) { q with before := before.getD "" }).2.body with
  | .events events nextCursor => some (events, nextCursor)
  | _ => none

/-- The page of `GET /endpoints`. -/
def endpointsAt (limit : String) (i : Nat) (before : Option String) :
    Option (List EndpointHealthJson × Option String) :=
  match (listEndpoints p (d i) tenantId (tables i) limit (before.getD "")).2.body with
  | .endpoints endpoints nextCursor => some (endpoints, nextCursor)
  | _ => none

/-- The page of `GET /endpoints/{id}/deliveries`. -/
def deliveriesAt (id limit : String) (i : Nat) (after : Option String) :
    Option (List DeliverySummaryJson × Option String) :=
  match (listEndpointDeliveries p tenantId (tables i) id limit (after.getD "")).2.body with
  | .deliveries deliveries nextCursor => some (deliveries, nextCursor)
  | _ => none

end

section

variable {α : Type} {p : Platform} {createdAt id : α → Nat} {rows : List α}

/-- The cursor of a row is read as the row. -/
theorem cursorParams_of_readsBack {a : α} (h : p.ReadsBackExactly (createdAt a) (id a)) :
    (cursorOf (encodeCursor ⟨p.rfc3339Nano (createdAt a), p.uuidText (id a)⟩)).mapM (cursorParams p) =
      some (some (.at (createdAt a : Int), id a)) := by
  obtain ⟨hcreatedAt, hid, htime, huuid⟩ := h
  rw [cursorOf_of_decode (decodeCursor_encodeCursor hcreatedAt hid)]
  simp [cursorParams, htime, huuid]

/-- The rows of the routes that list newest first, in order. -/
def inOrder (createdAt id : α → Nat) (rows : List α) : List α :=
  rows.insertionSort (Node.newestFirst createdAt id)

/-- What a request selects, as a page of the rows in order that its cursor lets through. -/
theorem page_run {q : Select α} {f : α → Bool} (hq : q.Selects (some f))
    (hn : (rows.map id).Nodup) (limit : Nat) (cursor : Option Cursor) :
    ((q.whereCursor cursor (createdBefore p createdAt id)).run (Node.newestFirst createdAt id) limit
      rows).map (page limit) = (cursor.mapM (cursorParams p)).map fun c =>
        page limit ((inOrder createdAt id (rows.filter f)).filter fun a =>
          c.all fun c => Node.isBefore c (createdAt a) (id a)) := by
  have hsub : (rows.filter f).Sublist rows := List.filter_sublist
  have huntied : Ranking.Untied (Node.newestFirst createdAt id) (rows.filter f) :=
    Node.untied_newestFirst ((hsub.map id).nodup hn)
  rw [(hq.whereCursor cursor).run_eq]
  cases cursor.mapM (cursorParams p) with
  | none => rfl
  | some c =>
      simp only [Option.bind_some, Option.map_some, page_take, inOrder,
        ← Ranking.insertionSort_filter huntied, List.filter_filter]
      simp only [Bool.and_comm]

/-- The page of a newest-first route, as rows. -/
def pageAt (p : Platform) (createdAt id : α → Nat) (limit : Nat) (q : Select α) (rows : List α)
    (before : Option String) : Option (List α × Option String) :=
  (((q.whereCursor (cursorOf (before.getD "")) (createdBefore p createdAt id)).run
    (Node.newestFirst createdAt id) limit rows).map (page limit)).map fun r =>
      (r.1, nextCursor p createdAt id r.2)

end

section

variable {α : Type} {p : Platform} {createdAt id : α → Nat} {rows : Nat → List α}
  {f : Nat → α → Bool} {q : Nat → Select α} {bound : List (Nat × Nat)} {limit : Nat}

theorem mem_inOrder {rows : List α} {a : α} : a ∈ inOrder createdAt id rows ↔ a ∈ rows :=
  List.mem_insertionSort _

/-- Tables that only gain rows. -/
theorem growing_inOrder (hn : ∀ i, ((rows i).map id).Nodup)
    (hkept : ∀ i, ∀ a ∈ rows i, f i a = true →
      ∃ b ∈ rows (i + 1), f (i + 1) b = true ∧ createdAt b = createdAt a ∧ id b = id a)
    (hbound : ∀ i, ∀ a ∈ rows i, (createdAt a, id a) ∈ bound) :
    Growing newer (fun a => (createdAt a, id a)) bound
      fun i => inOrder createdAt id ((rows i).filter (f i)) := by
  refine ⟨?_, ?_, fun i => ?_, fun i a ha => ?_, fun i a ha => ?_⟩
  · intro a b c hab hbc
    simp only [newer] at hab hbc ⊢
    omega
  · intro a ha
    simp only [newer] at ha
    omega
  · have hsub : ((rows i).filter (f i)).Sublist (rows i) := List.filter_sublist
    have huntied : Ranking.Untied (Node.newestFirst createdAt id) ((rows i).filter (f i)) :=
      Node.untied_newestFirst ((hsub.map id).nodup (hn i))
    refine (Ranking.pairwise_before huntied).imp fun {a b} hab => ?_
    simp only [Ranking.Before, Node.newestFirst] at hab
    simp only [newer]
    omega
  · obtain ⟨har, hfa⟩ := List.mem_filter.mp (mem_inOrder.mp ha)
    obtain ⟨b, hb, hfb, hc, hi⟩ := hkept i a har hfa
    exact ⟨b, mem_inOrder.mpr (List.mem_filter.mpr ⟨hb, hfb⟩), by rw [hc, hi]⟩
  · exact hbound i a (List.mem_of_mem_filter (mem_inOrder.mp ha))

/-- The requests of a newest-first route answer with what comes after their cursor. -/
theorem answers_pageAt (hq : ∀ i, (q i).Selects (some (f i))) (hn : ∀ i, ((rows i).map id).Nodup)
    (hread : ∀ i, ∀ a ∈ rows i, p.ReadsBackExactly (createdAt a) (id a)) :
    Answers newer (fun a => (createdAt a, id a))
      (fun k => encodeCursor ⟨p.rfc3339Nano k.1, p.uuidText k.2⟩) limit
      (fun i => inOrder createdAt id ((rows i).filter (f i)))
      fun i before => pageAt p createdAt id limit (q i) (rows i) before := by
  constructor
  · have hnone : (cursorOf ((none : Option String).getD "")).mapM (cursorParams p) = some none := rfl
    rw [pageAt, page_run (hq 0) (hn 0), hnone]
    simp [nextCursor]
  · intro i a ha j
    have har := List.mem_of_mem_filter (mem_inOrder.mp ha)
    have hparams := cursorParams_of_readsBack (hread i a har)
    rw [pageAt, page_run (hq j) (hn j), Option.getD_some, hparams]
    have hlets : ∀ b, Node.isBefore (.at (createdAt a : Int), id a) (createdAt b) (id b) =
        decide (newer (createdAt a, id a) (createdAt b, id b)) := by
      intro b
      rw [Bool.eq_iff_iff, decide_eq_true_eq]
      exact Node.isBefore_at_iff
    simp [nextCursor, hlets]

/-- Rows in strict order, whose keys belong to rows with distinct identifiers, have distinct
identifiers. -/
theorem nodup_of_sorted {β : Type} {before : Nat × Nat → Nat × Nat → Prop} (key : β → Nat × Nat)
    {out : List β} (hirrefl : ∀ k, ¬ before k k) (hsorted : out.Pairwise fun a b => before (key a) (key b))
    (hmem : ∀ b ∈ out, key b ∈ bound) (hids : (bound.map Prod.snd).Nodup) :
    (out.map fun b => (key b).2).Nodup := by
  refine List.pairwise_map.mpr (hsorted.imp_of_mem fun {a b} ha hb hab heq => ?_)
  rw [List.inj_on_of_nodup_map hids (hmem a ha) (hmem b hb) heq] at hab
  exact hirrefl _ hab

/-- A walk over a newest-first route. -/
theorem exact_pageAt {β : Type} {serialize : Nat → α → β} (hlimit : 0 < limit)
    (hq : ∀ i, (q i).Selects (some (f i))) (hn : ∀ i, ((rows i).map id).Nodup)
    (hread : ∀ i, ∀ a ∈ rows i, p.ReadsBackExactly (createdAt a) (id a))
    (hkept : ∀ i, ∀ a ∈ rows i, f i a = true →
      ∃ b ∈ rows (i + 1), f (i + 1) b = true ∧ createdAt b = createdAt a ∧ id b = id a)
    (bound : List (Nat × Nat)) (hbound : ∀ i, ∀ a ∈ rows i, (createdAt a, id a) ∈ bound)
    (hids : (bound.map Prod.snd).Nodup) :
    ExactWalk (fun i before => (pageAt p createdAt id limit (q i) (rows i) before).map fun r =>
        (r.1.map (serialize i), r.2))
      (fun i => inOrder createdAt id ((rows i).filter (f i))) serialize id
      fun a b => newer (createdAt a, id a) (createdAt b, id b) := by
  have hgrowing := growing_inOrder hn hkept hbound
  obtain ⟨n, out, hwalk, hsorted, hout, hall⟩ :=
    hgrowing.exists_walk_map (answers_pageAt hq hn hread) hlimit serialize
  refine ⟨n, out, hwalk, hsorted, ?_, hout, fun a ha => ?_⟩
  · exact nodup_of_sorted (fun b : Nat × α => (createdAt b.2, id b.2)) hgrowing.irrefl hsorted
      (fun b hb => hgrowing.bounded b.1 b.2 (hout b hb)) hids
  · obtain ⟨b, hb, hkey⟩ := hall a ha
    exact ⟨b, hb, congrArg Prod.snd hkey⟩

end

section

variable {p : Platform} {d : Nat → Draws} {tenantId : Uuid} {tables : Nat → Store} {final : Store}

theorem eventsAt_eq {q : EventQuery} : eventsAt p tenantId tables q = fun i before =>
    (pageAt p (·.createdAt) (·.id) (parseLimit q.limit) (eventsQuery p tenantId (tables i) q)
      (tables i).events before).map fun r => (r.1.map (serializeEvent p), r.2) := by
  funext i before
  have hquery : ∀ before, eventsQuery p tenantId (tables i) { q with before } =
      eventsQuery p tenantId (tables i) q := fun _ => rfl
  simp only [eventsAt, listEvents, pageAt, param, hquery]
  cases ((eventsQuery p tenantId (tables i) q).whereCursor (cursorOf (before.getD ""))
    (createdBefore p (·.createdAt) (·.id))).run (Node.newestFirst (·.createdAt) (·.id))
    (parseLimit q.limit) (tables i).events <;> rfl

theorem endpointsAt_eq {limit : String} : endpointsAt p d tenantId tables limit = fun i before =>
    (pageAt p (·.createdAt) (·.id) (parseLimit limit) (tenantRows tenantId Endpoint.tenantId)
      (tables i).endpoints before).map fun r =>
        (r.1.map (serializeEndpointWithHealth p (d i) (tables i)), r.2) := by
  funext i before
  simp only [endpointsAt, listEndpoints, pageAt, param]
  cases ((tenantRows tenantId Endpoint.tenantId).whereCursor (cursorOf (before.getD ""))
    (createdBefore p (·.createdAt) (·.id))).run (Node.newestFirst (·.createdAt) (·.id))
    (parseLimit limit) (tables i).endpoints <;> rfl

theorem exact_events {q : EventQuery} {f : EventFilter} (h : History tables final)
    (hf : q.params p = some f)
    (hread : ∀ i, ∀ e ∈ (tables i).events, p.ReadsBackExactly e.createdAt e.id) :
    ExactWalk (eventsAt p tenantId tables q) (fun i => matchingEvents tenantId (tables i) f)
      (fun _ => serializeEvent p) (·.id)
      fun a b => newer (a.createdAt, a.id) (b.createdAt, b.id) := by
  rw [eventsAt_eq]
  have hselects : ∀ i, (eventsQuery p tenantId (tables i) q).Selects
      (some (f.admits tenantId (tables i))) := by
    intro i
    have hparams : (eventsQuery p tenantId (tables i) q).Selects _ := eventsQuery_selects q
    rwa [hf, Option.map_some] at hparams
  refine exact_pageAt (parseLimit_pos q.limit) hselects h.events hread ?_
    (final.events.map fun e => (e.createdAt, e.id)) ?_ ?_
  · intro i e he hadmits
    obtain ⟨e', he', hid, htenant, htype, hcreated⟩ := (h.kept i).events e he
    refine ⟨e', he', ?_, hcreated, hid⟩
    simp only [EventFilter.admits, Bool.and_eq_true] at hadmits ⊢
    rw [hid, htenant, htype, hcreated]
    refine ⟨hadmits.1, ?_⟩
    cases hendpoint : f.endpointId with
    | none => rfl
    | some endpointId =>
        -- the delivery the filter asks for is still there
        have hany := hadmits.2
        rw [hendpoint, Option.all_some, List.any_eq_true] at hany
        obtain ⟨r, hr, hon⟩ := hany
        obtain ⟨r', hr', -, hevent, hon', -⟩ := (h.kept i).deliveries r hr
        rw [Option.all_some, List.any_eq_true]
        exact ⟨r', hr', by rw [hevent, hon']; exact hon⟩
  · intro i e he
    obtain ⟨e', he', hid, -, -, hcreated⟩ := (h.within i).events e he
    exact List.mem_map.mpr ⟨e', he', by rw [hid, hcreated]⟩
  · rw [List.map_map]
    exact h.finalEvents

theorem exact_endpoints {limit : String} (h : History tables final)
    (hread : ∀ i, ∀ e ∈ (tables i).endpoints, p.ReadsBackExactly e.createdAt e.id) :
    ExactWalk (endpointsAt p d tenantId tables limit) (fun i => tenantEndpoints tenantId (tables i))
      (fun i => serializeEndpointWithHealth p (d i) (tables i)) (·.id)
      fun a b => newer (a.createdAt, a.id) (b.createdAt, b.id) := by
  rw [endpointsAt_eq]
  refine exact_pageAt (parseLimit_pos limit) (fun _ => tenantRows_selects Endpoint.tenantId) h.endpoints
    hread ?_ (final.endpoints.map fun e => (e.createdAt, e.id)) ?_ ?_
  · intro i e he htenant
    obtain ⟨e', he', hid, htenant', hcreated⟩ := (h.kept i).endpoints e he
    exact ⟨e', he', by rw [htenant']; exact htenant, hcreated, hid⟩
  · intro i e he
    obtain ⟨e', he', hid, -, hcreated⟩ := (h.within i).endpoints e he
    exact List.mem_map.mpr ⟨e', he', by rw [hid, hcreated]⟩
  · rw [List.map_map]
    exact h.finalEndpoints

theorem decodeSeqCursor_empty : decodeSeqCursor "" = none := by decide

theorem cursorOf_encodeSeq {seq : Nat} (hpos : 0 < seq) (h : seq < 2 ^ 63) :
    (nonEmpty (encodeSeqCursor seq)).bind decodeSeqCursor = some (seq : Int) := by
  have hdecode := decodeSeqCursor_encodeSeqCursor hpos h
  have hne : encodeSeqCursor seq ≠ "" := by
    intro hempty
    rw [hempty, decodeSeqCursor_empty] at hdecode
    cases hdecode
  rw [nonEmpty, if_neg hne, Option.bind_some, hdecode]

/-- The page of `GET /endpoints/{id}/deliveries`, as rows. -/
def pageAfter (limit : Nat) (queue : List Delivery) (after : Option String) :
    List Delivery × Option String :=
  let (shown, last) := page limit (queue.filter fun r =>
    ((nonEmpty (after.getD "")).bind decodeSeqCursor).all fun seq => seq < (r.seq : Int))
  (shown, last.map fun r => encodeSeqCursor r.seq)

theorem deliveriesAt_eq {id limit : String} {endpointId : Uuid} (hid : p.uuid id = some endpointId)
    (hfind : ∀ i, (findEndpoint (tables i) endpointId tenantId).isSome)
    (hseqs : ∀ i, ((tables i).deliveries.map (·.seq)).Nodup) :
    deliveriesAt p tenantId tables id limit = fun i after =>
      (some (pageAfter (parseLimit limit) (queue (tables i) endpointId) after)).map fun r =>
        (r.1.map (serializeDeliverySummary p (tables i)), r.2) := by
  funext i after
  obtain ⟨e, he⟩ := Option.isSome_iff_exists.mp (hfind i)
  have huntied := untied_deliveriesOf endpointId (hseqs i)
  have hrows : ∀ after : Option Int, ((tables i).deliveries.filter fun r =>
      r.endpointId = endpointId && after.all fun seq => seq < (r.seq : Int)).insertionSort
        (fun a b => a.seq ≤ b.seq) =
      (queue (tables i) endpointId).filter fun r => after.all fun seq => seq < (r.seq : Int) := by
    intro after
    rw [queue, ← Ranking.insertionSort_filter huntied, deliveriesOf, List.filter_filter]
    simp only [Bool.and_comm]
  simp only [deliveriesAt, listEndpointDeliveries, param, hid, he, pageAfter,
    (deliveriesQuery_selects hid _).run_eq, Option.map_some, page_take, hrows]

/-- The requests for deliveries answer with what comes after their cursor. -/
theorem answers_pageAfter {limit : Nat} {table : Nat → List Delivery}
    (hrange : ∀ i, ∀ r ∈ table i, 0 < r.seq ∧ r.seq < 2 ^ 63) :
    Answers (fun a b : Nat × Nat => a.1 < b.1) (fun r : Delivery => (r.seq, r.id))
      (fun k => encodeSeqCursor k.1) limit table fun i after => some (pageAfter limit (table i) after) := by
  constructor
  · have hnone : (nonEmpty ((none : Option String).getD "")).bind decodeSeqCursor = none := rfl
    simp only [pageAfter, hnone]
    simp
  · intro i r hr j
    obtain ⟨hpos, hlt⟩ := hrange i r hr
    simp [pageAfter, cursorOf_encodeSeq hpos hlt]

theorem exact_deliveries {id limit : String} {endpointId : Uuid} {e : Endpoint}
    (h : History tables final) (hid : p.uuid id = some endpointId)
    (he : findEndpoint (tables 0) endpointId tenantId = some e) :
    ExactWalk (deliveriesAt p tenantId tables id limit) (fun i => queue (tables i) endpointId)
      (fun i => serializeDeliverySummary p (tables i)) (·.id) fun a b => a.seq < b.seq := by
  have hfind : ∀ i, (findEndpoint (tables i) endpointId tenantId).isSome := by
    intro i
    induction i with
    | zero => rw [he]; rfl
    | succ i ih =>
        simp only [findEndpoint, List.find?_isSome, Bool.and_eq_true, decide_eq_true_eq] at ih ⊢
        obtain ⟨e, he, hid, htenant⟩ := ih
        obtain ⟨e', he', hid', htenant', -⟩ := (h.kept i).endpoints e he
        exact ⟨e', he', hid'.trans hid, htenant'.trans htenant⟩
  have hmem : ∀ i r, r ∈ queue (tables i) endpointId ↔
      r ∈ (tables i).deliveries ∧ r.endpointId = endpointId := by
    intro i r
    rw [queue, List.mem_insertionSort, deliveriesOf, List.mem_filter, decide_eq_true_eq]
  have hgrowing : Growing (fun a b : Nat × Nat => a.1 < b.1) (fun r : Delivery => (r.seq, r.id))
      (final.deliveries.map fun r => (r.seq, r.id)) fun i => queue (tables i) endpointId := by
    refine ⟨fun hab hbc => hab.trans hbc, fun a => Nat.lt_irrefl a.1,
      fun i => queue_pairwise endpointId (h.seqs i), fun i r hr => ?_, fun i r hr => ?_⟩
    · obtain ⟨hr, hon⟩ := (hmem i r).mp hr
      obtain ⟨r', hr', hid, -, hon', hseq⟩ := (h.kept i).deliveries r hr
      exact ⟨r', (hmem (i + 1) r').mpr ⟨hr', hon'.trans hon⟩, by rw [hid, hseq]⟩
    · obtain ⟨r', hr', hid, -, -, hseq⟩ := (h.within i).deliveries r ((hmem i r).mp hr).1
      exact List.mem_map.mpr ⟨r', hr', by rw [hid, hseq]⟩
  rw [deliveriesAt_eq hid hfind h.seqs]
  obtain ⟨n, out, hwalk, hsorted, hout, hall⟩ := hgrowing.exists_walk_map
    (answers_pageAfter fun i r hr => h.bigint i r ((hmem i r).mp hr).1) (parseLimit_pos limit)
    fun i => serializeDeliverySummary p (tables i)
  refine ⟨n, out, hwalk, hsorted, ?_, hout, fun a ha => ?_⟩
  · refine @nodup_of_sorted _ _ (fun a b => a.1 < b.1) (fun b : Nat × Delivery => (b.2.seq, b.2.id)) _
      hgrowing.irrefl hsorted (fun b hb => hgrowing.bounded b.1 b.2 (hout b hb)) ?_
    rw [List.map_map]
    exact h.finalDeliveries
  · obtain ⟨b, hb, hkey⟩ := hall a ha
    exact ⟨b, hb, congrArg Prod.snd hkey⟩

/-- **What a walk returns** over tables that keep their rows and stay within a final one, whatever else
changes between its requests: it ends, in order, without a row twice, and with every row that matched
when it began. -/
theorem growing_walks_exact (h : History tables final)
    (hread : ∀ i, ∀ e ∈ (tables i).events, p.ReadsBackExactly e.createdAt e.id)
    (hread' : ∀ i, ∀ e ∈ (tables i).endpoints, p.ReadsBackExactly e.createdAt e.id) :
    (∀ q f, q.params p = some f →
      ExactWalk (eventsAt p tenantId tables q) (fun i => matchingEvents tenantId (tables i) f)
        (fun _ => serializeEvent p) (·.id)
        fun a b => newer (a.createdAt, a.id) (b.createdAt, b.id)) ∧
    (∀ limit, ExactWalk (endpointsAt p d tenantId tables limit)
        (fun i => tenantEndpoints tenantId (tables i))
        (fun i => serializeEndpointWithHealth p (d i) (tables i)) (·.id)
        fun a b => newer (a.createdAt, a.id) (b.createdAt, b.id)) ∧
    ∀ id limit endpointId e, p.uuid id = some endpointId →
      findEndpoint (tables 0) endpointId tenantId = some e →
        ExactWalk (deliveriesAt p tenantId tables id limit) (fun i => queue (tables i) endpointId)
          (fun i => serializeDeliverySummary p (tables i)) (·.id) fun a b => a.seq < b.seq :=
  ⟨fun _ _ hf => exact_events h hf hread, fun _ => exact_endpoints h hread',
    fun _ _ _ _ hid he => exact_deliveries h hid he⟩

end

end Go

namespace Sample

/-- The clock counts microseconds, and Postgres reads the first ten of them. -/
def microPlatform : Platform :=
  { platform with
    timestamptz := fun text => ((List.range 10).find? fun t => platform.rfc3339Nano t = text).map (.at ·) }

/-- Two events and a delivery of the older one. -/
def firstPage : Store where
  tenants := [⟨100, none⟩]
  endpoints := [⟨0, 100, "u", ["t"], .active, "s", none, none, false, none, none, 1⟩]
  events := [eventAt 1 2, eventAt 2 3]
  deliveries := [⟨5, 1, 0, .pending, 0, 3, 3, 1⟩]
  attempts := []
  replays := []
  uuids := 6
  eventsSeq := 3
  deliveriesSeq := 2

/-- Later there is an event between the two, another endpoint, and the delivery has failed once. -/
def laterPages : Store :=
  { firstPage with
    endpoints := ⟨6, 100, "v", ["t"], .active, "s", none, none, false, none, none, 4⟩ :: firstPage.endpoints
    events := [eventAt 1 2, eventAt 7 2, eventAt 2 3]
    deliveries := [⟨5, 1, 0, .pending, 1, 9, 3, 1⟩, ⟨8, 7, 0, .pending, 0, 4, 4, 2⟩]
    uuids := 9 }

def pages : Nat → Store
  | 0 => firstPage
  | _ + 1 => laterPages

/-- No condition, and pages of one row. -/
def goQuery : Go.EventQuery := ⟨"", "", "", "", "", "1", ""⟩

theorem forall_pages {P : Store → Prop} (first : P firstPage) (later : P laterPages) : ∀ i, P (pages i)
  | 0 => first
  | _ + 1 => later

theorem firstPage_kept : RowsKept firstPage laterPages := ⟨by decide, by decide, by decide⟩

theorem history_pages : History pages laterPages where
  kept
    | 0 => firstPage_kept
    | _ + 1 => RowsKept.refl laterPages
  within := forall_pages (P := fun s => RowsKept s laterPages) firstPage_kept (.refl laterPages)
  events := forall_pages (P := fun s => (s.events.map (·.id)).Nodup) (by decide) (by decide)
  endpoints := forall_pages (P := fun s => (s.endpoints.map (·.id)).Nodup) (by decide) (by decide)
  seqs := forall_pages (P := fun s => (s.deliveries.map (·.seq)).Nodup) (by decide) (by decide)
  bigint := forall_pages (P := fun s => ∀ r ∈ s.deliveries, 0 < r.seq ∧ r.seq < 2 ^ 63)
    (by decide) (by decide)
  finalEvents := by decide
  finalEndpoints := by decide
  finalDeliveries := by decide

end Sample

open Sample

theorem growing_walks_exact_sample :
    ExactWalk (Go.eventsAt microPlatform 100 pages goQuery)
      (fun i => matchingEvents 100 (pages i) ⟨none, none, none, none, none⟩)
      (fun _ => Go.serializeEvent microPlatform) (·.id)
      (fun a b => newer (a.createdAt, a.id) (b.createdAt, b.id)) ∧
    ExactWalk (Go.endpointsAt microPlatform (fun _ => Sample.draws) 100 pages "x")
      (fun i => tenantEndpoints 100 (pages i))
      (fun i => Go.serializeEndpointWithHealth microPlatform Sample.draws (pages i)) (·.id)
      (fun a b => newer (a.createdAt, a.id) (b.createdAt, b.id)) ∧
    ExactWalk (Go.deliveriesAt microPlatform 100 pages "00000000-0000-0000-0000-000000000000" "1")
      (fun i => queue (pages i) 0) (fun i => Go.serializeDeliverySummary microPlatform (pages i)) (·.id)
      fun a b => a.seq < b.seq := by
  obtain ⟨hevents, hendpoints, hdeliveries⟩ := @Go.growing_walks_exact microPlatform
    (fun _ => Sample.draws) 100 pages laterPages history_pages
    (forall_pages (P := fun s => ∀ e ∈ s.events, microPlatform.ReadsBackExactly e.createdAt e.id)
      (by decide +kernel) (by decide +kernel))
    (forall_pages (P := fun s => ∀ e ∈ s.endpoints, microPlatform.ReadsBackExactly e.createdAt e.id)
      (by decide +kernel) (by decide +kernel))
  exact ⟨hevents goQuery ⟨none, none, none, none, none⟩ rfl, hendpoints "x",
    hdeliveries "00000000-0000-0000-0000-000000000000" "1" 0 _ (by decide +kernel) rfl⟩

end Webhooks
