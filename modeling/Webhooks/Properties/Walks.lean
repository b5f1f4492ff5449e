import Webhooks.Api.Handlers

/-!
# Properties — Walks

The list routes of the Node API read from the first page to the last.

The cursor of `GET /events` and `GET /endpoints` is `created_at` and `id` of the last row of a page, and
`created_at` has come through a `Date`: it is cut to the millisecond.  Rows of that millisecond that
come after it are not before the cursor, and no later page has them.  A `limit` between 0 and 1 is
floored to 0 and asks for empty pages.

* `SeparatedAtBoundaries`: no such row follows a page.
* **`walks_complete`**: a walk returns every matching row once, in order, exactly then; a walk over
  the deliveries of an endpoint, whose cursor is a `seq`, whenever its pages have rows.
* `event_lost`: two events of one millisecond.
-/

namespace Webhooks

open Lib Lib.Paging Node

/-- A request for the first page and those its cursors lead to return the rows, and come to an end. -/
def Returns {β : Type} (fetch : Option String → Option (List β × Option String)) (rows : List β) :
    Prop :=
  ∃ n, walk fetch n none = some rows

/-- At a page boundary the next row is before the last one with its `created_at` cut to the
millisecond. -/
def SeparatedAtBoundaries {α : Type} (p : Platform) (createdAt id : α → Nat) (limit : Nat)
    (rows : List α) : Prop :=
  ∀ i a b, limit ∣ i + 1 → rows[i]? = some a → rows[i + 1]? = some b →
    createdAt b < p.date (createdAt a) * p.ticksPerMs ∨
      createdAt b = p.date (createdAt a) * p.ticksPerMs ∧ id b < id a

instance {α : Type} (p : Platform) (createdAt id : α → Nat) (limit : Nat) (rows : List α) :
    Decidable (SeparatedAtBoundaries p createdAt id limit rows) :=
  decidable_of_iff (∀ i < rows.length, limit ∣ i + 1 → ∀ a ∈ rows[i]?, ∀ b ∈ rows[i + 1]?,
      createdAt b < p.date (createdAt a) * p.ticksPerMs ∨
        createdAt b = p.date (createdAt a) * p.ticksPerMs ∧ id b < id a)
    ⟨fun h i a b hdvd ha hb => h i (List.getElem?_eq_some_iff.mp ha).1 hdvd a ha b hb,
      fun h i _ hdvd a ha b hb => h i a b hdvd ha hb⟩

/-- What `(created_at, id) < ($1, $2)` lets through, for the cursor of a row. -/
def lets {α : Type} (p : Platform) (createdAt id : α → Nat) (a b : α) : Bool :=
  isBefore (.at (p.date (createdAt a) * p.ticksPerMs : Nat), id a) (createdAt b) (id b)

section

variable (p : Platform) (d : Option String → Draws) (overlapMs : Nat) (tenantId : Uuid) (s : Store)

/-- The page of `GET /events` at a cursor. -/
def eventsAt (q : EventQuery) (before : Option String) : Option (List EventJson × Option String) :=
  match (handle p (d before) overlapMs tenantId s (.listEvents { q with before })).2.body with
  | .events events nextCursor => some (events, nextCursor)
  | _ => none

/-- The page of `GET /endpoints` at a cursor, without the health of the endpoints. -/
def endpointsAt (limit : Double) (before : Option String) :
    Option (List EndpointJson × Option String) :=
  match (handle p (d before) overlapMs tenantId s (.listEndpoints limit before)).2.body with
  | .endpoints endpoints nextCursor => some (endpoints.map (·.endpoint), nextCursor)
  | _ => none

/-- The page of `GET /endpoints/:id/deliveries` at a cursor. -/
def deliveriesAt (id : String) (limit : Double) (after : Option String) :
    Option (List DeliverySummaryJson × Option String) :=
  match (handle p (d after) overlapMs tenantId s (.listEndpointDeliveries id limit after)).2.body with
  | .deliveries deliveries nextCursor => some (deliveries, nextCursor)
  | _ => none

/-- The events that match, newest first. -/
def matchingEvents (f : EventFilter) : List Event :=
  (s.events.filter (f.admits tenantId s)).insertionSort (newestFirst (·.createdAt) (·.id))

/-- The endpoints of the tenant, newest first. -/
def tenantEndpoints : List Endpoint :=
  (s.endpoints.filter fun e => e.tenantId = tenantId).insertionSort (newestFirst (·.createdAt) (·.id))

/-- The deliveries of an endpoint, by `seq`. -/
def queue (endpointId : Uuid) : List Delivery :=
  (deliveriesOf s endpointId).insertionSort fun a b => a.seq ≤ b.seq

end

section

variable {α : Type} {p : Platform} {createdAt id : α → Nat} {rows : List α} {limit : Double}

theorem continues_lets_iff {n : Nat} :
    Continues (lets p createdAt id) n rows ↔ SeparatedAtBoundaries p createdAt id n rows := by
  simp only [Continues, SeparatedAtBoundaries, lets, isBefore_at_iff]

theorem cursorParams_none : cursorParams p none = some none := rfl

theorem cursorParams_encode {a : α} (h : p.ReadsBack (createdAt a) (id a)) :
    cursorParams p (some (encodeCursor ⟨p.isoDate (createdAt a), p.uuidText (id a)⟩)) =
      some (some (.at (p.date (createdAt a) * p.ticksPerMs : Nat), id a)) := by
  simp only [cursorParams, Option.bind_some, decodeCursor_encodeCursor, h.1, h.2, Option.map_some]

/-- A page is a page of the rows in order that the cursor lets through. -/
theorem listPage_eq {cursor : Option (Timestamptz × Uuid)}
    (hn : Ranking.Untied (newestFirst createdAt id) rows) :
    listPage p createdAt id limit cursor rows =
      ((page (parseLimit limit) ((rows.insertionSort (newestFirst createdAt id)).filter fun a =>
          cursor.all fun c => isBefore c (createdAt a) (id a))).1,
        (page (parseLimit limit) ((rows.insertionSort (newestFirst createdAt id)).filter fun a =>
          cursor.all fun c => isBefore c (createdAt a) (id a))).2.map fun a =>
            encodeCursor ⟨p.isoDate (createdAt a), p.uuidText (id a)⟩) := by
  simp only [listPage, selectPage, page_take, Ranking.insertionSort_filter hn]

/-- The pages of the routes that list newest first. -/
theorem pages_listPage (limit : Double) (hn : (rows.map id).Nodup)
    (hread : ∀ a ∈ rows, p.ReadsBack (createdAt a) (id a)) :
    Pages (fun before => (cursorParams p before).map fun cursor =>
        listPage p createdAt id limit cursor rows)
      (fun a => encodeCursor ⟨p.isoDate (createdAt a), p.uuidText (id a)⟩) (lets p createdAt id)
      (parseLimit limit) (rows.insertionSort (newestFirst createdAt id)) := by
  have huntied : Ranking.Untied (newestFirst createdAt id) rows := untied_newestFirst hn
  have hsorted := Ranking.pairwise_before huntied
  have hbefore : ∀ {a b}, Ranking.Before (newestFirst createdAt id) a b →
      createdAt b < createdAt a ∨ createdAt b = createdAt a ∧ id b < id a := by
    intro a b h
    simp only [Ranking.Before, newestFirst] at h
    omega
  -- the instant of a cursor is not after its row
  have hcut : ∀ a, p.date (createdAt a) * p.ticksPerMs ≤ createdAt a := fun a => Nat.div_mul_le_self _ _
  refine ⟨?_, fun a ha => ?_, fun a _ => ?_, hsorted.imp fun {a b} hab => ?_,
    hsorted.imp fun {b c} hbc a _ hab => ?_⟩
  · rw [cursorParams_none, Option.map_some, listPage_eq huntied]
    simp
  · rw [cursorParams_encode (hread a ((List.mem_insertionSort _).mp ha)), Option.map_some,
      listPage_eq huntied]
    rfl
  · rw [← Bool.not_eq_true, lets, isBefore_at_iff]
    have := hcut a
    omega
  · rw [← Bool.not_eq_true, lets, isBefore_at_iff]
    have := hcut b
    have := hbefore hab
    omega
  · rw [lets, isBefore_at_iff] at hab ⊢
    have := hbefore hbc
    omega

end

section

variable {p : Platform} {d : Option String → Draws} {overlapMs : Nat} {tenantId : Uuid} {s : Store}

theorem untied_deliveriesOf (endpointId : Uuid) (hn : (s.deliveries.map (·.seq)).Nodup) :
    Ranking.Untied (fun a b : Delivery => a.seq ≤ b.seq) (deliveriesOf s endpointId) :=
  (List.pairwise_map.mp ((List.filter_sublist.map _).nodup hn)).imp fun hne h =>
    hne (le_antisymm h.1 h.2)

theorem queue_pairwise (endpointId : Uuid) (hn : (s.deliveries.map (·.seq)).Nodup) :
    (queue s endpointId).Pairwise fun a b => a.seq < b.seq :=
  (Ranking.pairwise_before (untied_deliveriesOf endpointId hn)).imp fun hab => not_le.mp hab

/-- The pages of `GET /endpoints/:id/deliveries`. -/
theorem pages_selectDeliveries (endpointId : Uuid) (hn : (s.deliveries.map (·.seq)).Nodup)
    (hexact : ∀ r ∈ s.deliveries, r.seq < 2 ^ 53) (n : Nat) :
    Pages (fun after => ((after.bind decodeSeqCursor).mapM bigintParam).map fun after =>
        ((page n (selectDeliveries s endpointId after n)).1,
          (page n (selectDeliveries s endpointId after n)).2.map fun r => encodeSeqCursor r.seq))
      (fun r => encodeSeqCursor r.seq) (fun a b => a.seq < b.seq) n (queue s endpointId) := by
  have huntied := untied_deliveriesOf endpointId hn
  have hsorted := queue_pairwise endpointId hn
  refine ⟨?_, fun a ha => ?_, fun a _ => by simp, hsorted.imp fun hab => ?_, hsorted.imp fun hbc a _ hab => ?_⟩
  · simp [queue, selectDeliveries, page_take]
  · have hmem : a ∈ s.deliveries := List.mem_of_mem_filter ((List.mem_insertionSort _).mp ha)
    have hcursor : ((some (encodeSeqCursor a.seq)).bind decodeSeqCursor).mapM bigintParam =
        some (some (a.seq : Int)) := by
      rw [Option.bind_some, decodeSeqCursor_encodeSeqCursor (hexact a hmem)]
      simp [bigintParam_natCast (hexact a hmem)]
    rw [hcursor, Option.map_some]
    simp only [selectDeliveries, page_take, Ranking.insertionSort_filter huntied, queue,
      Option.all_some, Nat.cast_lt]
  · simpa using Nat.le_of_lt hab
  · simp only [decide_eq_true_eq] at hab ⊢
    exact hab.trans hbc

theorem eventsAt_eq {q : EventQuery} {f : EventFilter} (hf : q.params p = some f) :
    eventsAt p d overlapMs tenantId s q = fun before =>
      ((cursorParams p before).map fun cursor => listPage p (·.createdAt) (·.id) q.limit cursor
        (s.events.filter (f.admits tenantId s))).map fun r => (r.1.map (serializeEvent p), r.2) := by
  funext before
  have hf' : EventQuery.params p { q with before } = some f := hf
  simp only [eventsAt, handle, listEvents, param, hf']
  cases cursorParams p before <;> rfl

theorem endpointsAt_eq {limit : Double} :
    endpointsAt p d overlapMs tenantId s limit = fun before =>
      ((cursorParams p before).map fun cursor => listPage p (·.createdAt) (·.id) limit cursor
        (s.endpoints.filter fun e => e.tenantId = tenantId)).map fun r =>
          (r.1.map (serializeEndpoint p), r.2) := by
  funext before
  simp only [endpointsAt, handle, listEndpoints, param]
  cases cursorParams p before with
  | none => rfl
  | some cursor => simp [serializeEndpointWithHealth]

theorem deliveriesAt_eq {limit : Double} {id : String} {e : Endpoint} {endpointId : Uuid}
    (hid : p.uuid id = some endpointId) (he : findEndpoint s endpointId tenantId = some e) :
    deliveriesAt p d overlapMs tenantId s id limit = fun after =>
      (((after.bind decodeSeqCursor).mapM bigintParam).map fun after =>
        ((page (parseLimit limit) (selectDeliveries s endpointId after (parseLimit limit))).1,
          (page (parseLimit limit) (selectDeliveries s endpointId after (parseLimit limit))).2.map
            fun r => encodeSeqCursor r.seq)).map fun r =>
        (r.1.map (serializeDeliverySummary p s), r.2) := by
  funext after
  simp only [deliveriesAt, handle, listEndpointDeliveries, param, hid, he]
  cases (after.bind decodeSeqCursor).mapM bigintParam <;> rfl

theorem returns_events_iff {q : EventQuery} {f : EventFilter} (hevents : (s.events.map (·.id)).Nodup)
    (hread : ∀ e ∈ s.events, p.ReadsBack e.createdAt e.id) (hf : q.params p = some f) :
    Returns (eventsAt p d overlapMs tenantId s q)
        ((matchingEvents tenantId s f).map (serializeEvent p)) ↔
      (parseLimit q.limit = 0 → matchingEvents tenantId s f = []) ∧
        SeparatedAtBoundaries p (·.createdAt) (·.id) (parseLimit q.limit)
          (matchingEvents tenantId s f) := by
  have hsub : (s.events.filter (f.admits tenantId s)).Sublist s.events := List.filter_sublist
  have hpages := pages_listPage q.limit ((hsub.map _).nodup hevents)
    fun e he => hread e (hsub.subset he)
  rw [Returns, eventsAt_eq hf, ← continues_lets_iff]
  exact hpages.walk_map_iff (serializeEvent p)

theorem returns_endpoints_iff {limit : Double} (hendpoints : (s.endpoints.map (·.id)).Nodup)
    (hread : ∀ e ∈ s.endpoints, p.ReadsBack e.createdAt e.id) :
    Returns (endpointsAt p d overlapMs tenantId s limit)
        ((tenantEndpoints tenantId s).map (serializeEndpoint p)) ↔
      (parseLimit limit = 0 → tenantEndpoints tenantId s = []) ∧
        SeparatedAtBoundaries p (·.createdAt) (·.id) (parseLimit limit)
          (tenantEndpoints tenantId s) := by
  have hsub : (s.endpoints.filter fun e => e.tenantId = tenantId).Sublist s.endpoints :=
    List.filter_sublist
  have hpages := pages_listPage limit ((hsub.map _).nodup hendpoints)
    fun e he => hread e (hsub.subset he)
  rw [Returns, endpointsAt_eq, ← continues_lets_iff]
  exact hpages.walk_map_iff (serializeEndpoint p)

theorem returns_deliveries_iff {limit : Double} {id : String} {e : Endpoint} {endpointId : Uuid}
    (hseqs : (s.deliveries.map (·.seq)).Nodup) (hexact : ∀ r ∈ s.deliveries, r.seq < 2 ^ 53)
    (hid : p.uuid id = some endpointId) (he : findEndpoint s endpointId tenantId = some e) :
    Returns (deliveriesAt p d overlapMs tenantId s id limit)
        ((queue s endpointId).map (serializeDeliverySummary p s)) ↔
      (parseLimit limit = 0 → queue s endpointId = []) := by
  have hpages := pages_selectDeliveries endpointId hseqs hexact (parseLimit limit)
  rw [Returns, deliveriesAt_eq hid he, hpages.walk_map_iff (serializeDeliverySummary p s)]
  refine and_iff_left fun i a b _ ha hb => decide_eq_true ?_
  obtain ⟨hi, rfl⟩ := List.getElem?_eq_some_iff.mp ha
  obtain ⟨hi', rfl⟩ := List.getElem?_eq_some_iff.mp hb
  exact List.pairwise_iff_getElem.mp (queue_pairwise endpointId hseqs) i (i + 1) hi hi' (Nat.lt_succ_self i)

/-- **What the list routes return** when their cursors are followed to the end: every matching row
once, in order, exactly when pages have rows and no page ends inside a millisecond whose other rows
would be next. -/
theorem walks_complete (hevents : (s.events.map (·.id)).Nodup)
    (hendpoints : (s.endpoints.map (·.id)).Nodup) (hseqs : (s.deliveries.map (·.seq)).Nodup)
    (hexact : ∀ r ∈ s.deliveries, r.seq < 2 ^ 53)
    (hread : ∀ e ∈ s.events, p.ReadsBack e.createdAt e.id)
    (hread' : ∀ e ∈ s.endpoints, p.ReadsBack e.createdAt e.id) :
    (∀ q f, q.params p = some f →
      (Returns (eventsAt p d overlapMs tenantId s q)
          ((matchingEvents tenantId s f).map (serializeEvent p)) ↔
        (parseLimit q.limit = 0 → matchingEvents tenantId s f = []) ∧
          SeparatedAtBoundaries p (·.createdAt) (·.id) (parseLimit q.limit)
            (matchingEvents tenantId s f))) ∧
    (∀ limit, Returns (endpointsAt p d overlapMs tenantId s limit)
          ((tenantEndpoints tenantId s).map (serializeEndpoint p)) ↔
        (parseLimit limit = 0 → tenantEndpoints tenantId s = []) ∧
          SeparatedAtBoundaries p (·.createdAt) (·.id) (parseLimit limit)
            (tenantEndpoints tenantId s)) ∧
    ∀ id endpointId e limit, p.uuid id = some endpointId →
      findEndpoint s endpointId tenantId = some e →
        (Returns (deliveriesAt p d overlapMs tenantId s id limit)
            ((queue s endpointId).map (serializeDeliverySummary p s)) ↔
          (parseLimit limit = 0 → queue s endpointId = [])) :=
  ⟨fun _ _ hf => returns_events_iff hevents hread hf, fun _ => returns_endpoints_iff hendpoints hread',
    fun _ _ _ _ hid he => returns_deliveries_iff hseqs hexact hid he⟩

end

namespace Sample

/-- An event of tenant 100. -/
def eventAt (id : Uuid) (createdAt : Time) : Event :=
  ⟨id, 100, "key", "t", "p", .expanded, id, createdAt⟩

/-- Two events in one millisecond and two in the next, the clock in microseconds; an endpoint with a
delivery of the first one. -/
def recent : Store where
  tenants := [⟨100, none⟩]
  endpoints := [⟨0, 100, "u", ["t"], .active, "s", none, none, false, none, none, 1000⟩]
  events := [eventAt 1 1200, eventAt 2 1700, eventAt 3 2500, eventAt 4 2700]
  deliveries := [⟨5, 1, 0, .pending, 0, 3000, 3000, 1⟩]
  attempts := []
  replays := []
  uuids := 6
  eventsSeq := 5
  deliveriesSeq := 2

/-- No condition, and pages of so many rows. -/
def query (limit : Double) : EventQuery := ⟨none, none, none, none, none, limit, none⟩

def noFilter : EventFilter := ⟨none, none, none, none, none⟩

end Sample

open Sample

/-- Pages of two events end with a millisecond. -/
theorem walks_complete_sample :
    Returns (eventsAt platform (fun _ => Sample.draws) 100 100 recent (query (.finite 2)))
        ([eventAt 4 2700, eventAt 3 2500, eventAt 2 1700, eventAt 1 1200].map (serializeEvent platform)) ∧
      Returns (endpointsAt platform (fun _ => Sample.draws) 100 100 recent .nan)
        (recent.endpoints.map (serializeEndpoint platform)) ∧
      Returns (deliveriesAt platform (fun _ => Sample.draws) 100 100 recent
          "00000000-0000-0000-0000-000000000000" (.finite 1))
        (recent.deliveries.map (serializeDeliverySummary platform recent)) := by
  obtain ⟨hevents, hendpoints, hdeliveries⟩ := walks_complete (p := platform)
    (d := fun _ => Sample.draws) (s := recent)
    (by decide) (by decide) (by decide) (by decide) (by decide +kernel) (by decide +kernel)
  exact ⟨(hevents (query (.finite 2)) noFilter rfl).mpr (by decide +kernel),
    (hendpoints .nan).mpr (by decide +kernel),
    (hdeliveries "00000000-0000-0000-0000-000000000000" 0 _ (.finite 1) (by decide +kernel) rfl).mpr
      (by decide +kernel)⟩

/-- Of two events in one millisecond on two pages the second is on no page. -/
theorem event_lost :
    ¬ Returns (eventsAt platform (fun _ => Sample.draws) 100 100 recent (query (.finite 1)))
      ((matchingEvents 100 recent noFilter).map (serializeEvent platform)) := by
  rw [returns_events_iff (by decide) (by decide +kernel) rfl]
  rintro ⟨-, hseparated⟩
  exact absurd hseparated (by decide +kernel)

end Webhooks
