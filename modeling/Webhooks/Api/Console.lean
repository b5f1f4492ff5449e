import Webhooks.Api.Search
import Webhooks.Lib.FormUrlencoded

/-!
# Api — Console

How the console asks for a page of events (`frontend/src/api/client.ts`), and what the backends take the
request for.

* `Console.eventSearchQuery`, `Console.listEvents`: the query string, and the request's target.
* `Go.parseQuery`, `Go.serveEvents`: `GET /events` from the target on.
* `RawQuery.ofTarget`: the values in a target, still escaped.
* `Console.EventSearchParams.query`: what is asked for.
* **`Go.getValue_parseQuery_serialize`**, **`RawValue.find?_serialize`**: each value that was set is found.
-/

namespace Webhooks

open Lib

namespace Console

/-- `URLSearchParams`. -/
abbrev Params := List (List Char × List Char)

/-- `q.set(name, value)`. -/
def Params.set (name value : List Char) : Params → Params
  | [] => [(name, value)]
  | p :: ps =>
      if p.1 = name then (name, value) :: ps.filter (·.1 ≠ name) else p :: set name value ps

/-- `q.get(name)`. -/
def Params.value? (q : Params) (name : String) : Option (List Char) :=
  (q.find? fun p => p.1 = name.toList).map (·.2)

/-- A text that counts in a condition. -/
def truthy : Option String → Option String
  | some "" => none
  | value => value

/-- `if (value) q.set(name, value)`. -/
def Params.setTruthy (name : String) (value : Option String) (q : Params) : Params :=
  match truthy value with
  | some value => q.set name.toList value.toList
  | none => q

structure CursorPageParams where
  limit : Option Nat
  cursor : Option String

structure EventSearchParams extends CursorPageParams where
  id : Option String
  type : Option String
  endpointId : Option String
  fromDate : Option String
  toDate : Option String

def pageQueryParams (params : CursorPageParams) (cursorParam : String) : Params :=
  let q : Params :=
    match params.limit with
    | some limit => Params.set "limit".toList (Nat.toDigits 10 limit) []
    | none => []
  q.setTruthy cursorParam params.cursor

def toQueryString (q : Params) : List Char :=
  let qs := FormUrlencoded.serialize q
  if qs = [] then [] else '?' :: qs

def eventSearchParams (params : EventSearchParams) : Params :=
  pageQueryParams params.toCursorPageParams "before"
    |>.setTruthy "id" params.id
    |>.setTruthy "type" params.type
    |>.setTruthy "endpoint_id" params.endpointId
    |>.setTruthy "from" params.fromDate
    |>.setTruthy "to" params.toDate

def eventSearchQuery (params : EventSearchParams) : List Char := toQueryString (eventSearchParams params)

/-- The target of `listEvents`. -/
def listEvents (params : EventSearchParams) : List Char := "/events".toList ++ eventSearchQuery params

/-- The `Authorization` header. -/
def authorization (apiKey : List Char) : Bytes := Utf8.encode ("Bearer ".toList ++ apiKey)

/-- What is asked for. -/
def EventSearchParams.query (params : EventSearchParams) : EventQuery where
  id := truthy params.id
  type := truthy params.type
  fromDate := truthy params.fromDate
  toDate := truthy params.toDate
  endpointId := truthy params.endpointId
  limit := (params.limit.map fun n => Double.finite n).getD .nan
  before := truthy params.cursor

end Console

/-! ### What the backends read -/

/-- The query string of a target. -/
def queryString (target : List Char) : List Char := (FormUrlencoded.cut '?' target).2

namespace Go

/-- `url.QueryUnescape`. -/
def queryUnescape (text : List Char) : Option Bytes := unescape (text.map plusToSpace)

/-- `url.ParseQuery`; a setting with an error is left out. -/
def parseQuery (query : List Char) : List (Bytes × Bytes) :=
  (query.splitOn '&').filterMap fun setting =>
    if ';' ∈ setting || setting = [] then none
    else
      let (name, value) := FormUrlencoded.cut '=' setting
      (queryUnescape name).bind fun name => (queryUnescape value).map fun value => (name, value)

/-- `values.Get(name)`. -/
def getValue (values : List (Bytes × Bytes)) (name : String) : Bytes :=
  ((values.find? fun kv => kv.1 = Utf8.encode name.toList).map (·.2)).getD []

/-- The texts of a request, when Postgres takes those it is sent. -/
def requestQuery (target : List Char) : Option EventQuery :=
  let values := parseQuery (queryString target)
  eventTexts (getValue values "id") (getValue values "type") (getValue values "from") (getValue values "to")
    (getValue values "endpoint_id") (getValue values "limit") (getValue values "before")

/-- `GET /events`, with its target. -/
def serveEvents (p : Platform) (hashApiKey : Bytes → String) (db : Content) (header : Bytes)
    (target : List Char) : Response :=
  match requireTenant hashApiKey db header with
  | .error response => response
  | .ok tenantId => (param db.store (requestQuery target) (listEvents p tenantId db.store)).2

end Go

theorem inValue_of_isEscaped {c : Char} (h : FormUrlencoded.isEscaped c = true) : inValue c = true := by
  have hc : c.toNat < 128 := FormUrlencoded.toNat_of_isEscaped h
  have hall : ∀ n < 128, FormUrlencoded.isEscaped (Char.ofNat n) = true → inValue (Char.ofNat n) = true := by
    decide
  rw [← Char.ofNat_toNat c] at h ⊢
  exact hall _ hc h

def RawValue.of? (text : List Char) : Option RawValue :=
  if h : text.all inValue = true then some ⟨text, h⟩ else none

/-- The value that stands for a text. -/
def RawValue.form (text : List Char) : RawValue where
  text := FormUrlencoded.escape text
  visible := List.all_eq_true.mpr fun _ hc => inValue_of_isEscaped (FormUrlencoded.isEscaped_of_mem_escape hc)

/-- The value a query string has for a name. -/
def RawValue.find? (query : List Char) (name : String) : Option RawValue :=
  ((FormUrlencoded.pairs query).find? fun kv => kv.1 = name.toList).bind fun kv => RawValue.of? kv.2

/-- The parameters of a target. -/
def RawQuery.ofTarget (target : List Char) : RawQuery :=
  let value := RawValue.find? (queryString target)
  ⟨value "limit", value "before", value "id", value "type", value "endpoint_id", value "from", value "to"⟩

section

variable {text name value : List Char} {ps : Console.Params}

theorem hexValue_plusToSpace (c : Char) : Json.hexValue (plusToSpace c) = Json.hexValue c := by
  unfold plusToSpace
  split_ifs with h
  · rw [h]
    rfl
  · rfl

theorem unescape_cons {c : Char} (h : c ≠ '%') :
    unescape (c :: text) = (unescape text).map (Utf8.encode [c] ++ ·) := by
  rw [unescape.eq_def]
  split <;> simp_all

/-- Both unescape in the same way. -/
theorem unescape_plusToSpace (text : List Char) :
    unescape (text.map plusToSpace) = FormUrlencoded.decode? text := by
  fun_induction FormUrlencoded.decode? text with
  | case1 => rfl
  | case2 a b rest ih =>
      show unescape ('%' :: plusToSpace a :: plusToSpace b :: rest.map plusToSpace) = _
      rw [unescape, hexValue_plusToSpace, hexValue_plusToSpace, ih]
  | case3 rest h =>
      show unescape ('%' :: rest.map plusToSpace) = none
      match rest with
      | [] | [_] => rfl
      | a :: b :: rest => exact absurd rfl (h a b rest)
  | case4 rest ih =>
      show unescape (' ' :: rest.map plusToSpace) = _
      rw [unescape_cons (by decide), ih]
      rfl
  | case5 c rest _ hpercent hplus ih =>
      have hc : plusToSpace c = c := if_neg hplus
      rw [List.map_cons, hc, unescape_cons hpercent, ih]

theorem queryUnescape_escape : Go.queryUnescape (FormUrlencoded.escape text) = some (Utf8.encode text) := by
  rw [Go.queryUnescape, unescape_plusToSpace, FormUrlencoded.decode?_escape]

/-! ### A serialized query string -/

theorem semicolon_not_mem_setting {p : List Char × List Char} : ';' ∉ FormUrlencoded.setting p := by
  intro h
  rcases List.mem_append.mp h with h | h
  · exact FormUrlencoded.not_mem_escape rfl h
  · rcases List.mem_cons.mp h with h | h
    · exact absurd h (by decide)
    · exact FormUrlencoded.not_mem_escape rfl h

/-- `url.ParseQuery` finds every setting. -/
theorem Go.parseQuery_serialize :
    Go.parseQuery (FormUrlencoded.serialize ps) = ps.map fun p => (Utf8.encode p.1, Utf8.encode p.2) := by
  rcases eq_or_ne ps [] with rfl | hps
  · rfl
  · rw [Go.parseQuery, FormUrlencoded.splitOn_serialize hps, List.filterMap_map, ← List.filterMap_eq_map]
    refine List.filterMap_congr fun p _ => ?_
    have hne : FormUrlencoded.setting p ≠ [] := by simp [FormUrlencoded.setting]
    simp only [Function.comp_apply, semicolon_not_mem_setting, hne, decide_false, Bool.or_false,
      Bool.false_eq_true, if_false, FormUrlencoded.cut_setting, queryUnescape_escape, Option.bind_some,
      Option.map_some]

theorem encode_inj {s t : List Char} : Utf8.encode s = Utf8.encode t ↔ s = t :=
  ⟨fun h => by rw [← Utf8.decode_encode s, h, Utf8.decode_encode], congrArg _⟩

/-- `values.Get` finds what was set. -/
theorem Go.getValue_serialize (name : String) :
    Go.getValue (Go.parseQuery (FormUrlencoded.serialize ps)) name =
      ((ps.value? name).map Utf8.encode).getD [] := by
  rw [Go.getValue, Go.parseQuery_serialize, List.find?_map, Console.Params.value?, Option.map_map,
    Option.map_map]
  simp only [Function.comp_def, encode_inj]

theorem RawValue.of?_escape : RawValue.of? (FormUrlencoded.escape text) = some (.form text) :=
  dif_pos (RawValue.form text).visible

/-- A value under a plain name is found. -/
theorem RawValue.find?_serialize (name : String) (h : name.toList.all FormUrlencoded.isPlain = true) :
    RawValue.find? (FormUrlencoded.serialize ps) name = (ps.value? name).map .form := by
  have hname : ∀ t, FormUrlencoded.escape t = name.toList ↔ t = name.toList := fun t => by
    conv_lhs => rw [← FormUrlencoded.escape_eq_self h]
    exact FormUrlencoded.escape_injective.eq_iff
  rw [RawValue.find?, FormUrlencoded.pairs_serialize, List.find?_map, Console.Params.value?]
  simp only [Function.comp_def, hname]
  cases ps.find? fun p => decide (p.1 = name.toList) with
  | none => rfl
  | some p => exact RawValue.of?_escape

/-! ### What the console sets -/

namespace Console

theorem Params.find?_set {q : Params} (n : List Char) :
    (q.set name value).find? (fun p => p.1 = n) =
      if name = n then some (name, value) else q.find? fun p => p.1 = n := by
  induction q with
  | nil => by_cases h : name = n <;> simp [Params.set, h]
  | cons p q ih =>
      unfold Params.set
      split_ifs with hp h h
      · simp [h]
      · -- the settings that go have another name
        have hother : (q.filter (·.1 ≠ name)).find? (fun p => p.1 = n) = q.find? fun p => p.1 = n := by
          rw [List.find?_filter]
          congr 1
          funext x
          by_cases hx : x.1 = n
          · simp [hx, Ne.symm h]
          · simp [hx]
        rw [List.find?_cons_of_neg (by simpa using h), List.find?_cons_of_neg (by simpa [hp] using h), hother]
      · rw [List.find?_cons_of_neg (by simpa using fun heq => hp (heq.trans h.symm)), ih, if_pos h]
      · rw [List.find?_cons, List.find?_cons, ih, if_neg h]

theorem Params.value?_set {q : Params} {n : String} :
    (q.set name value).value? n = if name = n.toList then some value else q.value? n := by
  rw [Params.value?, Params.find?_set]
  split_ifs <;> rfl

theorem Params.value?_setTruthy {q : Params} {name n : String} {value : Option String} :
    (q.setTruthy name value).value? n =
      if name = n then ((truthy value).map String.toList).or (q.value? n) else q.value? n := by
  unfold Params.setTruthy
  cases truthy value with
  | none => simp
  | some value => simp [Params.value?_set, String.toList_inj]

theorem value?_pageQueryParams {params : CursorPageParams} {cursorParam n : String} :
    (pageQueryParams params cursorParam).value? n =
      if cursorParam = n then ((truthy params.cursor).map String.toList).or
        (if "limit" = n then params.limit.map (Nat.toDigits 10) else none)
      else if "limit" = n then params.limit.map (Nat.toDigits 10) else none := by
  have hlimit : ∀ limit : Nat, (Params.set "limit".toList (Nat.toDigits 10 limit) []).value? n =
      if "limit" = n then some (Nat.toDigits 10 limit) else none := fun limit => by
    rw [Params.value?_set]
    simp only [String.toList_inj]
    rfl
  rw [pageQueryParams, Params.value?_setTruthy]
  cases params.limit with
  | none => simp [Params.value?]
  | some limit => simp only [hlimit, Option.map_some]

/-- The settings of a search. -/
theorem value?_eventSearchParams (params : EventSearchParams) :
    let q := eventSearchParams params
    q.value? "limit" = params.limit.map (Nat.toDigits 10) ∧
      q.value? "before" = (truthy params.cursor).map String.toList ∧
      q.value? "id" = (truthy params.id).map String.toList ∧
      q.value? "type" = (truthy params.type).map String.toList ∧
      q.value? "endpoint_id" = (truthy params.endpointId).map String.toList ∧
      q.value? "from" = (truthy params.fromDate).map String.toList ∧
      q.value? "to" = (truthy params.toDate).map String.toList := by
  simp [eventSearchParams, Params.value?_setTruthy, value?_pageQueryParams]

theorem queryString_listEvents (params : EventSearchParams) :
    queryString (listEvents params) = FormUrlencoded.serialize (eventSearchParams params) := by
  unfold queryString listEvents eventSearchQuery toQueryString
  generalize FormUrlencoded.serialize (eventSearchParams params) = qs
  by_cases h : qs = []
  · rw [h]
    rfl
  · simp only [if_neg h]
    rw [FormUrlencoded.cut_append (by decide)]

/-- The parameters of a search. -/
theorem ofTarget_listEvents (params : EventSearchParams) :
    let value name := ((eventSearchParams params).value? name).map RawValue.form
    RawQuery.ofTarget (listEvents params) = ⟨value "limit", value "before", value "id", value "type",
      value "endpoint_id", value "from", value "to"⟩ := by
  simp only [RawQuery.ofTarget, queryString_listEvents]
  rw [RawValue.find?_serialize "limit" (by decide), RawValue.find?_serialize "before" (by decide),
    RawValue.find?_serialize "id" (by decide), RawValue.find?_serialize "type" (by decide),
    RawValue.find?_serialize "endpoint_id" (by decide), RawValue.find?_serialize "from" (by decide),
    RawValue.find?_serialize "to" (by decide)]

end Console

end

end Webhooks
