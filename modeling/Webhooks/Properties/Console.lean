import Webhooks.Api.Console
import Webhooks.Properties.Parity

/-!
# Properties — Console

The console may be switched from one backend to the other at any time.

* **`console_search`**: whatever it searches for, either backend answers with the page of exactly that.
-/

namespace Webhooks

open Lib

/-- Express' parser reads what `URLSearchParams` writes. -/
def ReadsForm (queryParser : RawValue → Option String) : Prop :=
  ∀ text, queryParser (.form text) = some (.ofList text)

/-- A cursor of either backend, or none. -/
def IsCursor (cursor : String) : Prop :=
  cursor = "" ∨ ∃ createdAt id, createdAt ≠ "" ∧ id ≠ "" ∧
    (cursor = Node.encodeCursor ⟨createdAt, id⟩ ∨ cursor = Go.encodeCursor ⟨createdAt, id⟩)

namespace Console

/-- The page that is asked for, or `none` when Postgres refuses a value. -/
def EventSearchParams.selection (p : Platform) (params : EventSearchParams) : Option Selection :=
  (params.query.params p).bind fun filter => (Node.cursorParams p params.query.before).map fun cursor =>
    ⟨filter, cursor, Node.parseLimit params.query.limit⟩

end Console

open Console

section

variable {p : Platform} {hashApiKey : Bytes → String} {queryParser : RawValue → Option String} {db : Content}
  {params : EventSearchParams} {tenantId : Uuid} {value : Option String}

theorem sqlText_truthy :
    Go.sqlText ((((truthy value).map String.toList).map Utf8.encode).getD []) =
      some ((truthy value).getD "") := by
  cases truthy value with
  | none => decide +kernel
  | some text =>
      show Go.sqlText (Utf8.encode text.toList) = _
      rw [sqlText_encode, String.ofList_toList]
      rfl

theorem lossy_truthy :
    Go.lossy ((((truthy value).map String.toList).map Utf8.encode).getD []) = (truthy value).getD "" := by
  cases truthy value with
  | none => decide +kernel
  | some text =>
      show Go.lossy (Utf8.encode text.toList) = _
      rw [lossy_encode, String.ofList_toList]
      rfl

theorem nonEmpty_truthy : Go.nonEmpty ((truthy value).getD "") = truthy value := by
  unfold truthy
  split
  · rfl
  · next hne =>
      cases value with
      | none => rfl
      | some text => exact if_neg fun h => hne (congrArg some h)

/-- What the Go backend reads of a search. -/
theorem requestQuery_listEvents (params : EventSearchParams) :
    Go.requestQuery (Console.listEvents params) = some
      ⟨(truthy params.id).getD "", (truthy params.type).getD "", (truthy params.fromDate).getD "",
        (truthy params.toDate).getD "", (truthy params.endpointId).getD "",
        Go.lossy (((params.limit.map (Nat.toDigits 10)).map Utf8.encode).getD []),
        (truthy params.cursor).getD ""⟩ := by
  obtain ⟨hlimit, hbefore, hid, htype, hendpoint, hfrom, hto⟩ := value?_eventSearchParams params
  simp only [Go.requestQuery, queryString_listEvents, Go.getValue_serialize, hlimit, hbefore, hid, htype,
    hendpoint, hfrom, hto, Go.eventTexts, sqlText_truthy, lossy_truthy, Option.bind_eq_bind, Option.bind_some]

theorem queryValue_form {text : Option (List Char)} :
    Go.queryValue (text.map RawValue.form) = (text.map Utf8.encode).getD [] := by
  cases text with
  | none => rfl
  | some text =>
      have hsemicolon : ';' ∉ (RawValue.form text).text := FormUrlencoded.not_mem_escape rfl
      have hbytes : unescape ((RawValue.form text).text.map plusToSpace) = some (Utf8.encode text) :=
        queryUnescape_escape
      rw [Option.map_some, Go.queryValue, if_neg hsemicolon, hbytes]
      rfl

/-- `net/url` reads the target as its parts. -/
theorem requestQuery_eq (params : EventSearchParams) :
    Go.requestQuery (Console.listEvents params) =
      Go.eventQuery (RawQuery.ofTarget (Console.listEvents params)) := by
  simp only [Go.requestQuery, Go.eventQuery, ofTarget_listEvents, queryString_listEvents,
    Go.getValue_serialize, queryValue_form]

theorem bind_form (hparser : ReadsForm queryParser) {text : Option (List Char)} :
    (text.map RawValue.form).bind queryParser = text.map String.ofList := by
  cases text with
  | none => rfl
  | some text => exact hparser text

theorem queryLimit_form {limit : Option Nat} (hlimit : ∀ n, limit = some n → n < 2 ^ 53) :
    Node.queryLimit ((limit.map (Nat.toDigits 10)).map String.ofList) =
      (limit.map fun n => Double.finite n).getD .nan := by
  cases limit with
  | none => rfl
  | some n =>
      show ToNumber.toNumber (String.ofList (Nat.toDigits 10 n)).toList = _
      rw [String.toList_ofList, ToNumber.toNumber_toDigits (hlimit n rfl)]
      rfl

/-- What the Node backend reads of a search. -/
theorem eventQuery_listEvents (hparser : ReadsForm queryParser)
    (hlimit : ∀ n, params.limit = some n → n < 2 ^ 53) :
    Node.eventQuery queryParser (RawQuery.ofTarget (Console.listEvents params)) = params.query := by
  have htext : ∀ value : Option String, (value.map String.toList).map String.ofList = value := fun value => by
    cases value with
    | none => rfl
    | some value => simp
  obtain ⟨hl, hbefore, hid, htype, hendpoint, hfrom, hto⟩ := value?_eventSearchParams params
  simp only [Node.eventQuery, ofTarget_listEvents, bind_form hparser, hl, hbefore, hid, htype, hendpoint, hfrom,
    hto, htext, queryLimit_form hlimit, EventSearchParams.query]

theorem parseLimit_listEvents {limit : Option Nat} (hlimit : ∀ n, limit = some n → n < 2 ^ 53) :
    Go.parseLimit (Go.lossy (((limit.map (Nat.toDigits 10)).map Utf8.encode).getD [])) =
      Node.parseLimit ((limit.map fun n => Double.finite n).getD .nan) := by
  cases limit with
  | none => decide +kernel
  | some n =>
      show Go.parseLimit (Go.lossy (Utf8.encode (Nat.toDigits 10 n))) = Node.parseLimit (.finite n)
      rw [lossy_encode, Go.parseLimit, Go.atoi_toDigits ((hlimit n rfl).trans (by decide))]
      simp only [Node.parseLimit, Nat.cast_nonpos, Int.floor_natCast]

theorem cursorParams_listEvents (hcursor : ∀ cursor, value = some cursor → IsCursor cursor) :
    (Go.cursorOf ((truthy value).getD "")).mapM (Go.cursorParams p) = Node.cursorParams p (truthy value) := by
  unfold truthy
  split
  · rfl
  · next hne =>
      cases value with
      | none => rfl
      | some cursor =>
          obtain rfl | ⟨createdAt, id, hcreatedAt, hid, heq⟩ := hcursor cursor rfl
          · exact absurd rfl hne
          · obtain ⟨hnode, hgo⟩ := decodeCursor_exchange hcreatedAt hid heq
            show (Go.cursorOf cursor).mapM (Go.cursorParams p) = _
            rw [Go.cursorOf_of_decode hgo, Node.cursorParams, Option.bind_some, hnode]
            simp only [Option.mapM_some, Go.cursorParams]
            cases p.timestamptz createdAt with
            | none => rfl
            | some t => cases p.uuid id <;> rfl

/-- Both select what is asked for. -/
theorem selections_listEvents (hparser : ReadsForm queryParser)
    (hlimit : ∀ n, params.limit = some n → n < 2 ^ 53)
    (hcursor : ∀ cursor, params.cursor = some cursor → IsCursor cursor) :
    Node.selection p queryParser (RawQuery.ofTarget (Console.listEvents params)) = params.selection p ∧
      Go.selection p (RawQuery.ofTarget (Console.listEvents params)) = params.selection p := by
  constructor
  · simp only [Node.selection, eventQuery_listEvents hparser hlimit]
    rfl
  · simp only [Go.selection, ← requestQuery_eq, requestQuery_listEvents, Option.bind_some, Go.EventQuery.params,
      nonEmpty_truthy, parseLimit_listEvents hlimit, cursorParams_listEvents hcursor,
      EventSearchParams.selection, EventQuery.params, EventSearchParams.query]

/-- Whatever the console searches for, in any characters, either backend reads it as it is and answers with
the page of exactly that. -/
theorem console_search {key : List Char} (hne : key ≠ []) (hascii : ∀ c ∈ key, c.toNat < 128)
    (hspace : ' ' ∉ key) (htenant : db.tenantOf (hashApiKey (Utf8.encode key)) = some tenantId)
    (hparser : ReadsForm queryParser) (hlimit : ∀ n, params.limit = some n → n < 2 ^ 53)
    (hcursor : ∀ cursor, params.cursor = some cursor → IsCursor cursor) :
    (Node.getEvents p hashApiKey queryParser db (authorization key)
      (.ofTarget (Console.listEvents params))).page? =
        (params.selection p).map (fun sel => sel.page tenantId db.store) ∧
    (Go.serveEvents p hashApiKey db (authorization key) (Console.listEvents params)).page? =
        (params.selection p).map (fun sel => sel.page tenantId db.store) := by
  obtain ⟨hnode, hgo⟩ := bearerKey_ascii hne hascii hspace
  obtain ⟨hnode', hgo'⟩ := selections_listEvents (p := p) hparser hlimit hcursor
  have hok : authenticate hashApiKey db (some (Utf8.encode key)) = .ok tenantId :=
    authenticate_eq_ok_iff.mpr ⟨_, rfl, htenant⟩
  constructor
  · have htenant : Node.requireTenant hashApiKey db (authorization key) = .ok tenantId := by
      rw [authorization, Node.requireTenant, hnode, hok]
    rw [Node.getEvents_page htenant, hnode']
  · have htenant : Go.requireTenant hashApiKey db (authorization key) = .ok tenantId := by
      rw [authorization, Go.requireTenant, hgo, hok]
    have hserve : Go.serveEvents p hashApiKey db (authorization key) (Console.listEvents params) =
        Go.getEvents p hashApiKey db (authorization key) (.ofTarget (Console.listEvents params)) := by
      rw [Go.serveEvents, htenant, Go.getEvents_of_ok htenant, requestQuery_eq]
    rw [hserve, Go.getEvents_page htenant, hgo']

end

open Sample

theorem readsForm_queryParser : ReadsForm queryParser := fun text => by
  have hbytes : unescape ((RawValue.form text).text.map plusToSpace) = some (Utf8.encode text) :=
    queryUnescape_escape
  rw [queryParser, hbytes, Option.bind_some, Utf8.decode?_eq_some_iff.mpr rfl,
    Option.map_some]

/-- A search for two events of a type. -/
def twoOfType (type : String) : EventSearchParams where
  limit := some 2
  cursor := none
  id := none
  type := some type
  endpointId := none
  fromDate := none
  toDate := none

theorem console_search_sample :
    (Node.getEvents platform hashApiKey queryParser threeEvents (authorization ['k'])
      (.ofTarget (Console.listEvents (twoOfType "t")))).page? = some ([3, 2], false) ∧
    (Go.serveEvents platform hashApiKey threeEvents (authorization ['k'])
      (Console.listEvents (twoOfType "t"))).page? = some ([3, 2], false) := by
  have hpage : ((twoOfType "t").selection platform).map (fun sel => sel.page 100 threeEvents.store) =
      some ([3, 2], false) := by decide +kernel
  rw [← hpage]
  have hlimit : ∀ n, (twoOfType "t").limit = some n → n < 2 ^ 53 := fun n hn => by
    obtain rfl : 2 = n := Option.some.inj hn
    omega
  have hascii : ∀ c ∈ ['k'], c.toNat < 128 := fun c hc => by
    rw [List.mem_singleton.mp hc]
    decide
  exact console_search (by decide) hascii (by decide) (by decide +kernel) readsForm_queryParser hlimit
    fun cursor hc => by cases hc

end Webhooks
