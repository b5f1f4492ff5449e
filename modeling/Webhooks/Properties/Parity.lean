import Webhooks.Properties.Readings
import Webhooks.Properties.Selections

/-!
# Properties — Parity

`GET /events` of one request in the two stacks, over every database content.

* `Alike`: both authenticate one tenant, or both answer 401; pages answered with 200 are the same.
* `RawQuery.Indistinct`: what the stacks read differently in a query cannot show.
* **`RawQuery.Usual.alike`**: conditions that are not empty, a whole `limit` and a cursor of either
  stack are answered alike.
* **`limit_alike_iff`**: a request with a `limit` only is answered alike exactly when its text is one of
  `LimitText`.
* **`answers_alike_iff`**: a request is answered alike over every content exactly when its header holds one
  key at most, and with a key its query is read alike, or differently where it cannot show.
* `answers_differ`: a fractional `limit`, an empty `type`, and a header of three words.
-/

namespace Webhooks

open Lib
open Node (newestFirst)

/-- How the two answers to a request agree. -/
structure Alike (p : Platform) (hashApiKey : Bytes → String) (queryParser : RawValue → Option String)
    (db : Content) (header : Bytes) (query : RawQuery) : Prop where
  tenant : (∃ tenantId, Node.requireTenant hashApiKey db header = .ok tenantId ∧
      Go.requireTenant hashApiKey db header = .ok tenantId) ∨
    (Node.getEvents p hashApiKey queryParser db header query).status = 401 ∧
      (Go.getEvents p hashApiKey db header query).status = 401
  page : ∀ a b, (Node.getEvents p hashApiKey queryParser db header query).page? = some a →
    (Go.getEvents p hashApiKey db header query).page? = some b → a = b

/-- What is read differently cannot show: Postgres refuses a value of one stack, neither can show an event,
or the conditions let the same through and the limits cut nothing off it. -/
def RawQuery.Indistinct (p : Platform) (queryParser : RawValue → Option String) (q : RawQuery) : Prop :=
  ∀ a b, Node.selection p queryParser q = some a → Go.selection p q = some b → a.Same b

/-! ### Other contents -/

/-- A hash for each tenant, and this one for that tenant. -/
def hashFor (apiKeyHash : String) (tenantId id : Uuid) : String :=
  .ofList (apiKeyHash.toList ++ List.replicate (if id = tenantId then 0 else id + 1) '0')

theorem hashFor_self {apiKeyHash : String} {tenantId : Uuid} :
    hashFor apiKeyHash tenantId tenantId = apiKeyHash := by
  rw [hashFor, if_pos rfl, List.replicate_zero, List.append_nil, String.ofList_toList]

theorem hashFor_injective (apiKeyHash : String) (tenantId : Uuid) :
    Function.Injective (hashFor apiKeyHash tenantId) := by
  intro u v h
  have hlen := congrArg List.length (congrArg String.toList h)
  simp only [hashFor, String.toList_ofList, List.length_append, List.length_replicate] at hlen
  by_cases hu : u = tenantId
  · by_cases hv : v = tenantId
    · exact hu.trans hv.symm
    · rw [if_pos hu, if_neg hv] at hlen
      omega
  · by_cases hv : v = tenantId
    · rw [if_neg hu, if_pos hv] at hlen
      omega
    · rw [if_neg hu, if_neg hv] at hlen
      exact Nat.succ_injective (Nat.add_left_cancel hlen)

namespace Content

/-- The same rows, with the key of a tenant. -/
def withKey (db : Content) (apiKeyHash : String) (tenantId : Uuid) : Content :=
  { db with
    apiKeyHash := hashFor apiKeyHash tenantId
    apiKeyHashes := by
      have h := db.tenantIds.map (hashFor_injective apiKeyHash tenantId)
      rwa [List.map_map] at h }

/-- A tenant and its key. -/
def ofKey (apiKeyHash : String) : Content where
  store := .init [⟨0, none⟩]
  apiKeyHash _ := apiKeyHash
  tenantIds := by simp [Store.init]
  apiKeyHashes := by simp [Store.init]
  endpointIds := .nil
  eventIds := .nil
  idempotencyKeys := .nil
  deliveryIds := .nil
  endpointTenants := nofun
  eventTenants := nofun
  deliveryEvents := nofun
  deliveryEndpoints := nofun

section

variable {db : Content} {apiKeyHash : String} {tenantId : Uuid}

theorem tenantOf_withKey (h : tenantId ∈ db.store.tenants.map (·.id)) :
    (db.withKey apiKeyHash tenantId).tenantOf apiKeyHash = some tenantId :=
  tenantOf_eq_some_iff.mpr ⟨h, hashFor_self⟩

theorem tenantOf_ofKey {h : String} : (ofKey apiKeyHash).tenantOf h = some tenantId ↔
    tenantId = 0 ∧ apiKeyHash = h := by
  rw [tenantOf_eq_some_iff]
  simp [ofKey, Store.init]

end

end Content

/-! ### Requests -/

section

variable {p : Platform} {hashApiKey : Bytes → String} {queryParser : RawValue → Option String}
  {db : Content} {header : Bytes} {query : RawQuery}

/-- The first half of `Alike`. -/
theorem same_tenant_iff : ((∃ tenantId, Node.requireTenant hashApiKey db header = .ok tenantId ∧
      Go.requireTenant hashApiKey db header = .ok tenantId) ∨
    (Node.getEvents p hashApiKey queryParser db header query).status = 401 ∧
      (Go.getEvents p hashApiKey db header query).status = 401) ↔
    ∀ tenantId, Node.requireTenant hashApiKey db header = .ok tenantId ↔
      Go.requireTenant hashApiKey db header = .ok tenantId := by
  rw [Node.status_getEvents_iff, Go.status_getEvents_iff]
  constructor
  · rintro (⟨tenantId, hnode, hgo⟩ | ⟨hnode, hgo⟩) u
    · rw [hnode, hgo]
    · exact iff_of_false (hnode u) (hgo u)
  · intro h
    cases hnode : Node.requireTenant hashApiKey db header with
    | ok tenantId => exact .inl ⟨tenantId, rfl, (h tenantId).mp hnode⟩
    | error response =>
        refine .inr ⟨nofun, fun u hgo => ?_⟩
        rw [(h u).mpr hgo] at hnode
        cases hnode

/-- Every content has the same tenant for both stacks exactly when they look for the same hash. -/
theorem sameKey_iff : SameKey hashApiKey header ↔ ∀ (db : Content) (tenantId : Uuid),
    Node.requireTenant hashApiKey db header = .ok tenantId ↔
      Go.requireTenant hashApiKey db header = .ok tenantId := by
  simp only [Node.requireTenant, Go.requireTenant, authenticate_eq_ok_iff]
  constructor
  · intro h db tenantId
    rw [h]
  · intro h
    refine Option.ext fun k => ?_
    have hk := h (.ofKey k) 0
    simpa only [Content.tenantOf_ofKey, true_and, exists_eq_right'] using hk

theorem page?_of_error {response : Response}
    (h : Node.requireTenant hashApiKey db header = .error response) :
    (Node.getEvents p hashApiKey queryParser db header query).page? = none := by
  have hstatus := status_of_authenticate_error h
  rw [Node.getEvents, h]
  simp only [Response.page?]
  split
  · cases hstatus
  · rfl

/-- One key and selections that cannot be told apart are enough. -/
theorem alike_of_indistinct (hone : OneKey hashApiKey header)
    (h : NoKey header ∨ query.Indistinct p queryParser) :
    Alike p hashApiKey queryParser db header query := by
  have hkey := sameKey_iff_oneKey.mpr hone
  refine ⟨same_tenant_iff.mpr (sameKey_iff.mp hkey db), fun a b ha hb => ?_⟩
  cases hnode : Node.requireTenant hashApiKey db header with
  | error response =>
      rw [page?_of_error hnode] at ha
      cases ha
  | ok tenantId =>
      have hgo := (sameKey_iff.mp hkey _ _).mp hnode
      rw [Node.getEvents_page hnode, Option.map_eq_some_iff] at ha
      rw [Go.getEvents_page hgo, Option.map_eq_some_iff] at hb
      obtain ⟨sel, hsel, rfl⟩ := ha
      obtain ⟨sel', hsel', rfl⟩ := hb
      rcases h with hnone | hsame
      · rw [Node.requireTenant, (noKey_iff hone).mp hnone] at hnode
        cases hnode
      · refine Selection.same_iff.mp (hsame sel sel' hsel hsel') db tenantId ?_
        obtain ⟨_, -, htenant⟩ := authenticate_eq_ok_iff.mp hgo
        exact (Content.tenantOf_eq_some_iff.mp htenant).1

/-- A query that is read alike is selected alike. -/
theorem RawQuery.ReadAlike.indistinct (h : query.ReadAlike queryParser) : query.Indistinct p queryParser := by
  intro a b ha hb
  rw [h.selection_eq, hb] at ha
  cases ha
  exact .inr ⟨rfl, rfl, rfl, .inl rfl⟩

/-- A usual request is answered alike. -/
theorem RawQuery.Usual.alike (h : query.Usual) (hparser : ReadsValues queryParser) {key : List Char}
    (hne : key ≠ []) (hascii : ∀ c ∈ key, c.toNat < 128) (hspace : ' ' ∉ key)
    (hashApiKey : Bytes → String) (db : Content) :
    Alike p hashApiKey queryParser db (Utf8.encode ("Bearer ".toList ++ key)) query :=
  alike_of_indistinct (oneKey_ascii hne hascii hspace) (.inr (h.readAlike hparser).indistinct)

end

/-! ### Every request -/

section

variable {p : Platform} {hashApiKey : Bytes → String} {queryParser : RawValue → Option String}
  {header : Bytes} {query : RawQuery}

theorem oneKey_of_alike (h : ∀ db, Alike p hashApiKey queryParser db header query) :
    OneKey hashApiKey header :=
  sameKey_iff_oneKey.mp (sameKey_iff.mpr fun db => same_tenant_iff.mp (h db).tenant)

/-- With a key, what is read differently does not show. -/
theorem indistinct_of_alike (h : ∀ db, Alike p hashApiKey queryParser db header query)
    (hsome : ¬ NoKey header) : query.Indistinct p queryParser := by
  intro a b ha hb
  have hone := oneKey_of_alike h
  rw [noKey_iff hone] at hsome
  obtain ⟨key, hkey⟩ := Option.ne_none_iff_exists'.mp hsome
  refine Selection.same_iff.mpr fun db tenantId htenant => ?_
  -- a content in which the key is that of the tenant
  have hnode : Node.requireTenant hashApiKey (db.withKey (hashApiKey key) tenantId) header =
      .ok tenantId :=
    authenticate_eq_ok_iff.mpr ⟨_, by rw [hkey, Option.map_some], Content.tenantOf_withKey htenant⟩
  have hgo := (sameKey_iff.mp (sameKey_iff_oneKey.mpr hone) _ _).mp hnode
  refine (h (db.withKey (hashApiKey key) tenantId)).page _ _ ?_ ?_
  · rw [Node.getEvents_page hnode, ha, Option.map_some]
    rfl
  · rw [Go.getEvents_page hgo, hb, Option.map_some]
    rfl

/-- A request with a key and a `limit` only is answered alike exactly when both make the same of it. -/
theorem limit_alike_iff (hone : OneKey hashApiKey header) (hsome : ¬ NoKey header)
    {value : Option RawValue} {text : String} (h : Reads queryParser value text) :
    (∀ db, Alike p hashApiKey queryParser db header ⟨value, none, none, none, none, none, none⟩) ↔
      LimitText text := by
  constructor
  · intro halike
    rw [← h.parseLimit_iff]
    have hgo : Go.selection p ⟨value, none, none, none, none, none, none⟩ =
        some ⟨⟨none, none, none, none, none⟩, none, Go.parseLimit (Go.lossy (Go.queryValue value))⟩ := by
      have hempty : Go.sqlText (Go.queryValue none) = some "" := by decide +kernel
      simp only [Go.selection, Go.eventQuery, Go.eventTexts, hempty, Option.bind_eq_bind, Option.bind_some]
      rfl
    have hwindow : ∀ limit, (⟨⟨none, none, none, none, none⟩, none, limit⟩ : Selection).window =
        Set.univ := fun _ => Set.eq_univ_of_forall fun _ => rfl
    exact (indistinct_of_alike halike hsome _ _ rfl hgo).limit_eq (hwindow _) (hwindow _)
      (Go.parseLimit_pos _).ne'
  · intro hlimit db
    refine alike_of_indistinct hone (.inr (RawQuery.ReadAlike.indistinct ⟨?_, ?_, ?_⟩))
    · intro value hvalue
      obtain rfl : value = none := by simpa using hvalue
      exact ⟨⟨"", reads_none⟩, fun h => by cases h⟩
    · exact ⟨text, h, hlimit⟩
    · exact ⟨"", reads_none, cursorText_empty⟩

end

/-- A request is answered alike over every content exactly when its header holds one key at most, and
where it holds one, the texts of its query are read alike, or differently where it cannot show. -/
theorem answers_alike_iff (p : Platform) (hashApiKey : Bytes → String)
    (queryParser : RawValue → Option String) (header : Bytes) (query : RawQuery) :
    (∀ db, Alike p hashApiKey queryParser db header query) ↔ OneKey hashApiKey header ∧
      (NoKey header ∨ query.ReadAlike queryParser ∨ query.Indistinct p queryParser) := by
  constructor
  · exact fun h =>
      ⟨oneKey_of_alike h, or_iff_not_imp_left.mpr fun hsome => .inr (indistinct_of_alike h hsome)⟩
  · rintro ⟨hone, hnone | hread | hsame⟩ db
    · exact alike_of_indistinct hone (.inl hnone)
    · exact alike_of_indistinct hone (.inr hread.indistinct)
    · exact alike_of_indistinct hone (.inr hsame)

namespace Sample

/-- The third event of a tenant whose key is `k`, after two others. -/
def threeEvents : Content where
  store := { Store.init [⟨100, none⟩] with
    events := [⟨1, 100, "1", "t", "{}", .expanded, 1, 1000⟩,
      ⟨2, 100, "2", "t", "{}", .expanded, 2, 2000⟩, ⟨3, 100, "3", "t", "{}", .expanded, 3, 3000⟩] }
  apiKeyHash _ := "k"
  tenantIds := by decide
  apiKeyHashes := by decide
  endpointIds := .nil
  eventIds := by decide
  idempotencyKeys := by decide
  deliveryIds := .nil
  endpointTenants := nofun
  eventTenants := by decide
  deliveryEvents := nofun
  deliveryEndpoints := nofun

def hashApiKey (key : Bytes) : String := .ofList (Utf8.latin1 key)

def queryParser (raw : RawValue) : Option String :=
  ((unescape (raw.text.map plusToSpace)).bind Utf8.decode?).map .ofList

def bearer (key : String) : Bytes := Utf8.encode ("Bearer ".toList ++ key.toList)

/-- No parameter at all. -/
def everything : RawQuery := ⟨none, none, none, none, none, none, none⟩

end Sample

open Sample

/-- Of three events `limit=2.5` gets two from Node and all of them from Go, `type=` none from Node and
all of them from Go; and the second word of three in a header is the key for Node only. -/
theorem answers_differ :
    ¬ Alike platform hashApiKey queryParser threeEvents (bearer "k")
        { everything with limit := some ⟨"2.5".toList, rfl⟩ } ∧
      ¬ Alike platform hashApiKey queryParser threeEvents (bearer "k")
        { everything with type := some ⟨[], rfl⟩ } ∧
      ¬ Alike platform hashApiKey queryParser threeEvents (bearer "k x") everything := by
  refine ⟨fun h => ?_, fun h => ?_, fun h => ?_⟩
  · have heq := h.page ([3, 2], false) ([3, 2, 1], true) (by decide +kernel) (by decide +kernel)
    cases heq
  · have heq := h.page ([], true) ([3, 2, 1], true) (by decide +kernel) (by decide +kernel)
    cases heq
  · have hgo : (Go.getEvents platform hashApiKey threeEvents (bearer "k x") everything).status = 401 := by
      decide +kernel
    rcases h.tenant with ⟨tenantId, _, hok⟩ | ⟨hnode, _⟩
    · exact Go.status_getEvents_iff.mp hgo tenantId hok
    · exact absurd hnode (by decide +kernel)

end Webhooks
