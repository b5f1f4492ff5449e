import Webhooks.Api.Express
import Webhooks.Api.GoServer
import Webhooks.Lib.ToNumber

/-!
# Api — Search

`GET /events` in both stacks from the request on, with a head that both HTTP servers take (Node's takes
16 KiB): the key in the `Authorization` header (`auth/middleware`), the values of the query string, and
the handler.

* `Content`: what the database holds, with the keys of the tables that are read.
* `Node.getEvents`, `Go.getEvents`: the response.
* `Selection`: what a request selects, as an abstract query; `Node.selection`, `Go.selection`.
* **`Node.getEvents_page`**, **`Go.getEvents_page`**: the page either stack answers is that of its
  selection.
-/

namespace Webhooks

open Lib
open Node (newestFirst isBefore)

/-! ### Requests -/

/-- A visible character; `&` and `#` end a value. -/
def inValue (c : Char) : Bool := '!' ≤ c && c ≤ '~' && c ≠ '&' && c ≠ '#'

/-- The text of a parameter in a query string. -/
structure RawValue where
  text : List Char
  visible : text.all inValue = true

/-- A query string that has each parameter at most once. -/
structure RawQuery where
  limit : Option RawValue
  before : Option RawValue
  id : Option RawValue
  type : Option RawValue
  endpointId : Option RawValue
  fromDate : Option RawValue
  toDate : Option RawValue

/-- A `+` in a query string. -/
def plusToSpace (c : Char) : Char := if c = '+' then ' ' else c

/-! ### Tenants -/

/-- The tables `GET /events` reads, with the column `tenants.api_key_hash`. -/
structure Content where
  store : Store
  apiKeyHash : Uuid → String
  tenantIds : (store.tenants.map (·.id)).Nodup
  apiKeyHashes : (store.tenants.map fun t => apiKeyHash t.id).Nodup
  endpointIds : (store.endpoints.map (·.id)).Nodup
  eventIds : (store.events.map (·.id)).Nodup
  idempotencyKeys : (store.events.map fun e => (e.tenantId, e.idempotencyKey)).Nodup
  deliveryIds : (store.deliveries.map (·.id)).Nodup
  endpointTenants : ∀ e ∈ store.endpoints, e.tenantId ∈ store.tenants.map (·.id)
  eventTenants : ∀ e ∈ store.events, e.tenantId ∈ store.tenants.map (·.id)
  deliveryEvents : ∀ r ∈ store.deliveries, r.eventId ∈ store.events.map (·.id)
  deliveryEndpoints : ∀ r ∈ store.deliveries, r.endpointId ∈ store.endpoints.map (·.id)

/-- `SELECT id FROM tenants WHERE api_key_hash = $1`. -/
def Content.tenantOf (db : Content) (apiKeyHash : String) : Option Uuid :=
  (db.store.tenants.find? fun t => db.apiKeyHash t.id = apiKeyHash).map (·.id)

def unauthorized (message : String) : Response := ⟨401, .error "unauthorized" message⟩

/-- The tenant of the key in the header, when there is one, or the response. -/
def authenticate (hashApiKey : Bytes → String) (db : Content) (key : Option Bytes) :
    Except Response Uuid :=
  match key with
  | none => .error (unauthorized "Missing or malformed Authorization header")
  | some key =>
      match db.tenantOf (hashApiKey key) with
      | none => .error (unauthorized "Invalid API key")
      | some id => .ok id

namespace Node

/-- `[scheme, token]`, of the header as Node has it: a character for a byte. -/
def bearerKey (header : Bytes) : Option Bytes :=
  match (Utf8.latin1 header).splitOn ' ' with
  | scheme :: token :: _ =>
      if scheme ≠ "Bearer".toList || token = [] then none else some (Utf8.encode token)
  | _ => none

def requireTenant (hashApiKey : Bytes → String) (db : Content) (header : Bytes) :
    Except Response Uuid :=
  authenticate hashApiKey db (bearerKey header)

/-- `Number(req.query.limit)`. -/
def queryLimit (limit : Option String) : Double :=
  match limit with
  | none => .nan
  | some text => ToNumber.toNumber text.toList

/-- `req.query`.  Express' parser makes a string of the text of a parameter, or leaves it out. -/
def eventQuery (queryParser : RawValue → Option String) (q : RawQuery) : EventQuery where
  id := q.id.bind queryParser
  type := q.type.bind queryParser
  fromDate := q.fromDate.bind queryParser
  toDate := q.toDate.bind queryParser
  endpointId := q.endpointId.bind queryParser
  limit := queryLimit (q.limit.bind queryParser)
  before := q.before.bind queryParser

/-- `GET /events`, before `res.json` writes the body. -/
def getEvents (p : Platform) (hashApiKey : Bytes → String) (queryParser : RawValue → Option String)
    (db : Content) (header : Bytes) (query : RawQuery) : Response :=
  match requireTenant hashApiKey db header with
  | .error response => response
  | .ok tenantId => (listEvents p tenantId db.store (eventQuery queryParser query)).2

end Node

namespace Go

/-- `strings.Cut(header, " ")`. -/
def bearerKey (header : Bytes) : Option Bytes :=
  match header.span (· ≠ 0x20) with
  | (scheme, _ :: token) =>
      if scheme ≠ Utf8.encode "Bearer".toList || token = [] then none else some token
  | (_, []) => none

def requireTenant (hashApiKey : Bytes → String) (db : Content) (header : Bytes) :
    Except Response Uuid :=
  authenticate hashApiKey db (bearerKey header)

/-- `r.URL.Query().Get(name)`; a parameter that cannot be parsed is left out. -/
def queryValue (raw : Option RawValue) : Bytes :=
  match raw with
  | none => []
  | some raw => if ';' ∈ raw.text then [] else (unescape (raw.text.map plusToSpace)).getD []

/-- The texts of a request, when Postgres takes those it is sent. -/
def eventQuery (q : RawQuery) : Option EventQuery :=
  eventTexts (queryValue q.id) (queryValue q.type) (queryValue q.fromDate) (queryValue q.toDate)
    (queryValue q.endpointId) (queryValue q.limit) (queryValue q.before)

/-- `GET /events`. -/
def getEvents (p : Platform) (hashApiKey : Bytes → String) (db : Content) (header : Bytes)
    (query : RawQuery) : Response :=
  match requireTenant hashApiKey db header with
  | .error response => response
  | .ok tenantId => (param db.store (eventQuery query) (listEvents p tenantId db.store)).2

end Go

/-! ### Selections -/

/-- A page of a tenant's events: which ones, and how many at most. -/
structure Selection where
  filter : EventFilter
  cursor : Option (Timestamptz × Uuid)
  limit : Nat

/-- The event is one of those that are paged through; an empty page shows none. -/
def Selection.shows (sel : Selection) (tenantId : Uuid) (s : Store) (e : Event) : Bool :=
  0 < sel.limit && sel.filter.admits tenantId s e &&
    sel.cursor.all fun c => isBefore c e.createdAt e.id

/-- The ids on the page, and whether it is the last. -/
def Selection.page (sel : Selection) (tenantId : Uuid) (s : Store) : List Uuid × Bool :=
  let (events, last) := Paging.page sel.limit
    ((s.events.filter (sel.shows tenantId s)).insertionSort (newestFirst (·.createdAt) (·.id)))
  (events.map (·.id), last.isNone)

/-- What a response of 200 says of its events, and whether its `next_cursor` is null. -/
def Response.page? : Response → Option (List Uuid × Bool)
  | ⟨200, .events events nextCursor⟩ => some (events.map (·.id), nextCursor.isNone)
  | _ => none

/-- What a request selects, or `none` when Postgres refuses a value. -/
def Node.selection (p : Platform) (queryParser : RawValue → Option String) (query : RawQuery) :
    Option Selection :=
  let q := eventQuery queryParser query
  (q.params p).bind fun filter => (cursorParams p q.before).map fun cursor =>
    ⟨filter, cursor, parseLimit q.limit⟩

/-- What a request selects, or `none` when Postgres refuses a value. -/
def Go.selection (p : Platform) (query : RawQuery) : Option Selection :=
  (eventQuery query).bind fun q => (q.params p).bind fun filter =>
    ((cursorOf q.before).mapM (cursorParams p)).map fun cursor => ⟨filter, cursor, parseLimit q.limit⟩

section

variable {hashApiKey : Bytes → String} {db : Content} {key : Option Bytes} {tenantId : Uuid}
  {s : Store}

theorem Content.tenantOf_eq_some_iff {apiKeyHash : String} : db.tenantOf apiKeyHash = some tenantId ↔
    tenantId ∈ db.store.tenants.map (·.id) ∧ db.apiKeyHash tenantId = apiKeyHash := by
  rw [tenantOf, Option.map_eq_some_iff]
  constructor
  · rintro ⟨t, ht, rfl⟩
    exact ⟨List.mem_map_of_mem (List.mem_of_find?_eq_some ht), by simpa using List.find?_some ht⟩
  · rintro ⟨hmem, hhash⟩
    obtain ⟨t, ht, rfl⟩ := List.mem_map.mp hmem
    refine ⟨t, ?_, rfl⟩
    obtain ⟨u, hu⟩ : ∃ u, db.store.tenants.find? (fun t => db.apiKeyHash t.id = apiKeyHash) = some u :=
      Option.isSome_iff_exists.mp (List.find?_isSome.mpr ⟨t, ht, by simpa using hhash⟩)
    have hhash' : db.apiKeyHash u.id = db.apiKeyHash t.id := by
      rw [hhash]
      simpa using List.find?_some hu
    rw [hu, Table.eq_of_key db.apiKeyHashes (List.mem_of_find?_eq_some hu) ht hhash']

theorem authenticate_eq_ok_iff : authenticate hashApiKey db key = .ok tenantId ↔
    ∃ h, key.map hashApiKey = some h ∧ db.tenantOf h = some tenantId := by
  unfold authenticate
  cases key with
  | none => simp
  | some key =>
      simp only [Option.map_some, Option.some.injEq, exists_eq_left']
      cases db.tenantOf (hashApiKey key) <;> simp

theorem status_of_authenticate_error {response : Response}
    (h : authenticate hashApiKey db key = .error response) : response.status = 401 := by
  unfold authenticate at h
  split at h
  · cases h
    rfl
  · split at h
    · cases h
      rfl
    · cases h

theorem status_param_ne {α : Type} {v : Option α} {k : α → Store × Response}
    (h : ∀ a, (k a).2.status ≠ 401) : (param s v k).2.status ≠ 401 := by
  cases v with
  | none => simp [internalError]
  | some a => exact h a

/-- The page of a selection, from the rows its conditions let through. -/
theorem Selection.page_eq (sel : Selection) : sel.page tenantId s =
    ((Paging.page sel.limit ((s.events.filter fun e => sel.filter.admits tenantId s e &&
      sel.cursor.all fun c => isBefore c e.createdAt e.id).insertionSort
        (newestFirst (·.createdAt) (·.id)))).1.map (·.id),
     (Paging.page sel.limit ((s.events.filter fun e => sel.filter.admits tenantId s e &&
      sel.cursor.all fun c => isBefore c e.createdAt e.id).insertionSort
        (newestFirst (·.createdAt) (·.id)))).2.isNone) := by
  rcases Nat.eq_zero_or_pos sel.limit with hzero | hpos
  · simp only [page, hzero, Paging.page_zero]
  · have hshows : sel.shows tenantId s = fun e => sel.filter.admits tenantId s e &&
        sel.cursor.all fun c => isBefore c e.createdAt e.id := by
      funext e
      simp only [shows, hpos, decide_true, Bool.true_and]
    simp only [page, hshows]

end

namespace Node

section

variable {p : Platform} {hashApiKey : Bytes → String} {queryParser : RawValue → Option String}
  {db : Content} {header : Bytes} {query : RawQuery} {tenantId : Uuid}

theorem getEvents_of_ok (h : requireTenant hashApiKey db header = .ok tenantId) :
    getEvents p hashApiKey queryParser db header query =
      (listEvents p tenantId db.store (eventQuery queryParser query)).2 := by
  rw [getEvents, h]

theorem status_getEvents_iff : (getEvents p hashApiKey queryParser db header query).status = 401 ↔
    ∀ tenantId, requireTenant hashApiKey db header ≠ .ok tenantId := by
  unfold getEvents
  cases h : requireTenant hashApiKey db header with
  | error response => exact iff_of_true (status_of_authenticate_error h) nofun
  | ok tenantId =>
      refine iff_of_false (status_param_ne fun f => status_param_ne fun cursor => ?_) fun h => h _ rfl
      simp

/-- The page of `GET /events` is that of its selection. -/
theorem getEvents_page (h : requireTenant hashApiKey db header = .ok tenantId) :
    (getEvents p hashApiKey queryParser db header query).page? =
      (selection p queryParser query).map fun sel => sel.page tenantId db.store := by
  rw [getEvents_of_ok h, listEvents, selection]
  cases (eventQuery queryParser query).params p with
  | none => rfl
  | some filter =>
  cases cursorParams p (eventQuery queryParser query).before with
  | none => rfl
  | some cursor =>
      simp only [param_some, Option.bind_some, Option.map_some, Selection.page_eq, Response.page?,
        listPage, selectPage, Paging.page_take, List.filter_filter, List.map_map, Option.isNone_map]
      simp only [Bool.and_comm]
      rfl

end

end Node

namespace Go

section

variable {p : Platform} {hashApiKey : Bytes → String} {db : Content} {header : Bytes} {query : RawQuery}
  {tenantId : Uuid}

theorem getEvents_of_ok (h : requireTenant hashApiKey db header = .ok tenantId) :
    getEvents p hashApiKey db header query =
      (param db.store (eventQuery query) (listEvents p tenantId db.store)).2 := by
  rw [getEvents, h]

theorem status_getEvents_iff : (getEvents p hashApiKey db header query).status = 401 ↔
    ∀ tenantId, requireTenant hashApiKey db header ≠ .ok tenantId := by
  unfold getEvents
  cases h : requireTenant hashApiKey db header with
  | error response => exact iff_of_true (status_of_authenticate_error h) nofun
  | ok tenantId =>
      refine iff_of_false (status_param_ne fun q => status_param_ne fun rows => ?_) fun h => h _ rfl
      simp

/-- The page of `GET /events` is that of its selection. -/
theorem getEvents_page (h : requireTenant hashApiKey db header = .ok tenantId) :
    (getEvents p hashApiKey db header query).page? =
      (selection p query).map fun sel => sel.page tenantId db.store := by
  rw [getEvents_of_ok h, selection]
  cases eventQuery query with
  | none => rfl
  | some q =>
  have hrun : ((eventsQuery p tenantId db.store q).whereCursor (cursorOf q.before)
      (createdBefore p (·.createdAt) (·.id))).Selects _ := (eventsQuery_selects q).whereCursor _
  simp only [param_some, listEvents, hrun.run_eq, Option.bind_some]
  cases q.params p with
  | none => rfl
  | some filter =>
  cases (cursorOf q.before).mapM (cursorParams p) with
  | none => rfl
  | some cursor =>
      simp only [param_some, Option.bind_some, Option.map_some, Selection.page_eq, Response.page?,
        nextCursor, Paging.page_take, List.map_map, Option.isNone_map]
      rfl

end

end Go

end Webhooks
