import Webhooks.Api.Search

/-!
# Properties — Readings

What the two stacks make of the texts of a `GET /events`: the `Authorization` header, and the values of
the query string.

* `OneKey`: what follows the scheme is a word of ASCII, or the keys of both have one hash all the same.
* `LimitText`: a `limit` that is a whole number, or of which Node makes its default.
* `RawQuery.ReadAlike`: either stack reads the same in every parameter.
* **`sameKey_iff_oneKey`**, **`parseLimit_eq_iff`**: these are exact.
* **`RawQuery.ReadAlike.selection_eq`**: what is read alike is selected alike.
* **`RawQuery.Usual.readAlike`**: conditions that are not empty, whole limits and cursors of either
  stack are.
-/

namespace Webhooks

open Lib

/-! ### The header -/

/-- Both stacks look for the same hash, or for none. -/
def SameKey (hashApiKey : Bytes → String) (header : Bytes) : Prop :=
  (Node.bearerKey header).map hashApiKey = (Go.bearerKey header).map hashApiKey

/-- What stands before the key in a header. -/
def bearerScheme : Bytes := Utf8.encode "Bearer ".toList

/-- The bytes before the first space. -/
def firstWord (bs : Bytes) : Bytes := bs.takeWhile (· ≠ 0x20)

/-- Behind the scheme is ASCII without a space; or a key for either stack, two keys with one hash. -/
def OneKey (hashApiKey : Bytes → String) (header : Bytes) : Prop :=
  ∀ rest, header = bearerScheme ++ rest → (∀ b ∈ rest, b ≠ 0x20 ∧ b < 0x80) ∨
    firstWord rest ≠ [] ∧ Utf8.encode (Utf8.latin1 (firstWord rest)) ≠ rest ∧
      hashApiKey (Utf8.encode (Utf8.latin1 (firstWord rest))) = hashApiKey rest

/-- Nothing stands behind the scheme, or the scheme is another. -/
def NoKey (header : Bytes) : Prop := ∀ rest, header = bearerScheme ++ rest → rest = []

section

variable {hashApiKey : Bytes → String} {header rest bs : Bytes}

theorem splitOn_eq_takeWhile {α : Type} [DecidableEq α] (a : α) (xs : List α) :
    ∃ words, xs.splitOn a = xs.takeWhile (· ≠ a) :: words := by
  by_cases ha : a ∈ xs
  · obtain ⟨before, after, rfl, hbefore⟩ := List.eq_append_cons_of_mem ha
    have hne : ∀ b ∈ before, decide (b ≠ a) = true := fun b hb =>
      decide_eq_true fun h => hbefore (h ▸ hb)
    have hword : (before ++ a :: after).takeWhile (· ≠ a) = before := by
      rw [List.takeWhile_append_of_pos hne, List.takeWhile_cons_of_neg (by simp), List.append_nil]
    rw [List.splitOn_append_cons_self_of_not_mem hbefore, hword]
    exact ⟨_, rfl⟩
  · have hword : xs.takeWhile (· ≠ a) = xs :=
      List.takeWhile_eq_self_iff.mpr fun b hb => decide_eq_true fun h => ha (h ▸ hb)
    rw [List.splitOn_eq_singleton ha, hword]
    exact ⟨[], rfl⟩

theorem latin1_firstWord (bs : Bytes) :
    (Utf8.latin1 bs).takeWhile (· ≠ ' ') = Utf8.latin1 (firstWord bs) := by
  rw [Utf8.latin1, List.takeWhile_map, firstWord, Utf8.latin1]
  congr 2
  funext b
  have hspace : Char.ofNat b.toNat = ' ' ↔ b = 0x20 := by
    constructor
    · intro h
      refine UInt8.toNat_inj.mp ?_
      rw [← Utf8.toNat_latin1, h]
      rfl
    · rintro rfl
      rfl
  simp only [Function.comp_apply, ne_eq, hspace]

theorem firstWord_eq_self (h : ∀ b ∈ bs, b ≠ 0x20) : firstWord bs = bs :=
  List.takeWhile_eq_self_iff.mpr fun b hb => decide_eq_true (h b hb)

/-- What Node takes for the key. -/
theorem Node.bearerKey_scheme (rest : Bytes) : Node.bearerKey (bearerScheme ++ rest) =
    if firstWord rest = [] then none else some (Utf8.encode (Utf8.latin1 (firstWord rest))) := by
  obtain ⟨words, hwords⟩ := splitOn_eq_takeWhile ' ' (Utf8.latin1 rest)
  have hsplit : (Utf8.latin1 (bearerScheme ++ rest)).splitOn ' ' =
      "Bearer".toList :: Utf8.latin1 (firstWord rest) :: words := by
    have hscheme : Utf8.latin1 bearerScheme = "Bearer".toList ++ [' '] := by decide +kernel
    rw [Utf8.latin1, List.map_append]
    show (Utf8.latin1 bearerScheme ++ Utf8.latin1 rest).splitOn ' ' = _
    rw [hscheme, List.append_assoc, List.singleton_append,
      List.splitOn_append_cons_self_of_not_mem (by decide), hwords, latin1_firstWord]
  have hnil : Utf8.latin1 (firstWord rest) = [] ↔ firstWord rest = [] := List.map_eq_nil_iff
  rw [Node.bearerKey, hsplit]
  simp only [ne_eq, not_true_eq_false, decide_false, Bool.false_or, hnil, decide_eq_true_eq]

/-- What Go takes for the key. -/
theorem Go.bearerKey_scheme (rest : Bytes) :
    Go.bearerKey (bearerScheme ++ rest) = if rest = [] then none else some rest := by
  have hspan : (bearerScheme ++ rest).span (· ≠ 0x20) = (Utf8.encode "Bearer".toList, 0x20 :: rest) := by
    rw [List.span_eq_takeWhile_dropWhile]
    rfl
  rw [Go.bearerKey, hspan]
  simp

/-- A header in which Node finds a key has the scheme. -/
theorem Node.scheme_of_bearerKey {key : Bytes} (h : Node.bearerKey header = some key) :
    ∃ rest, header = bearerScheme ++ rest := by
  unfold Node.bearerKey at h
  split at h
  · next scheme token words hsplit =>
      split_ifs at h with hscheme
      simp only [Bool.or_eq_true, decide_eq_true_eq, not_or, not_not] at hscheme
      have hjoin : Utf8.latin1 header = Utf8.latin1 bearerScheme ++ [' '].intercalate (token :: words) := by
        have hjoin := @List.intercalate_splitOn _ (Utf8.latin1 header) _ _ ' '
        rw [← hjoin, hsplit, hscheme.1]
        rfl
      obtain ⟨scheme', rest, rfl, hscheme', -⟩ := List.map_eq_append_iff.mp hjoin
      exact ⟨rest, by rw [Utf8.latin1_injective hscheme']⟩
  · cases h

/-- A header in which Go finds a key has the scheme. -/
theorem Go.scheme_of_bearerKey {key : Bytes} (h : Go.bearerKey header = some key) :
    ∃ rest, header = bearerScheme ++ rest := by
  unfold Go.bearerKey at h
  split at h
  · next scheme space token hspan =>
      split_ifs at h with hscheme
      simp only [Bool.or_eq_true, decide_eq_true_eq, not_or, not_not] at hscheme
      rw [List.span_eq_takeWhile_dropWhile, Prod.mk.injEq] at hspan
      have hspace : space = 0x20 := by
        have hhead := List.head?_dropWhile_not (· ≠ 0x20) header
        rw [hspan.2] at hhead
        simpa using hhead
      refine ⟨token, ?_⟩
      rw [← List.takeWhile_append_dropWhile (p := (· ≠ 0x20)) (l := header), hspan.1, hspan.2, hscheme.1,
        hspace]
      rfl
  · cases h

/-- What is encoded as itself behind the scheme has no space, and is ASCII. -/
theorem plain_of_encode_eq (h : Utf8.encode (Utf8.latin1 (firstWord rest)) = rest) :
    ∀ b ∈ rest, b ≠ 0x20 ∧ b < 0x80 := by
  have hspace : 0x20 ∉ rest := by
    intro hmem
    rw [← h, Utf8.encode] at hmem
    obtain ⟨c, hc, hmem⟩ := List.mem_flatMap.mp hmem
    obtain ⟨b, hb, rfl⟩ := List.mem_map.mp hc
    -- the space would be a byte of the word
    have heq := Utf8.toNat_of_mem_utf8EncodeChar (by decide) hmem
    rw [Utf8.toNat_latin1] at heq
    have hne : b ≠ 0x20 := by
      have hword := List.mem_takeWhile_imp hb
      simpa using hword
    exact hne (UInt8.toNat_inj.mp heq)
  have hword : firstWord rest = rest := firstWord_eq_self fun b hb h => hspace (h ▸ hb)
  rw [hword, Utf8.encode_latin1_eq_iff] at h
  exact fun b hb => ⟨fun heq => hspace (heq ▸ hb), h b hb⟩

/-- Both look for the same hash exactly when what follows the scheme is one key. -/
theorem sameKey_iff_oneKey : SameKey hashApiKey header ↔ OneKey hashApiKey header := by
  constructor
  · rintro h rest rfl
    rw [SameKey, Node.bearerKey_scheme, Go.bearerKey_scheme] at h
    by_cases hrest : rest = []
    · exact .inl (by simp [hrest])
    by_cases hword : firstWord rest = []
    · rw [if_pos hword, if_neg hrest] at h
      cases h
    rw [if_neg hword, if_neg hrest] at h
    by_cases heq : Utf8.encode (Utf8.latin1 (firstWord rest)) = rest
    · exact .inl (plain_of_encode_eq heq)
    · exact .inr ⟨hword, heq, Option.some.inj h⟩
  · intro h
    by_cases hscheme : ∃ rest, header = bearerScheme ++ rest
    · obtain ⟨rest, rfl⟩ := hscheme
      rw [SameKey, Node.bearerKey_scheme, Go.bearerKey_scheme]
      rcases h rest rfl with hplain | ⟨hword, -, hhash⟩
      · have hword : firstWord rest = rest := firstWord_eq_self fun b hb => (hplain b hb).1
        rw [hword, Utf8.encode_latin1_eq_iff.mpr fun b hb => (hplain b hb).2]
      · have hrest : rest ≠ [] := fun h => hword (by rw [h]; rfl)
        rw [if_neg hword, if_neg hrest, Option.map_some, Option.map_some, hhash]
    · have hnode : Node.bearerKey header = none :=
        Option.eq_none_iff_forall_ne_some.mpr fun _ h => hscheme (Node.scheme_of_bearerKey h)
      have hgo : Go.bearerKey header = none :=
        Option.eq_none_iff_forall_ne_some.mpr fun _ h => hscheme (Go.scheme_of_bearerKey h)
      rw [SameKey, hnode, hgo]

/-- With one key at most, there is none for Node exactly when nothing follows the scheme. -/
theorem noKey_iff (h : OneKey hashApiKey header) : NoKey header ↔ Node.bearerKey header = none := by
  constructor
  · intro hnone
    refine Option.eq_none_iff_forall_ne_some.mpr fun key hkey => ?_
    obtain ⟨rest, rfl⟩ := Node.scheme_of_bearerKey hkey
    rw [hnone rest rfl, Node.bearerKey_scheme] at hkey
    cases hkey
  · rintro hnone rest rfl
    have hsame := sameKey_iff_oneKey.mpr h
    rw [SameKey, hnone, Go.bearerKey_scheme] at hsame
    by_contra hrest
    rw [if_neg hrest] at hsame
    cases hsame

end

/-! ### Limits -/

/-- A limit that `strconv.Atoi` takes, or of which `Number` makes nothing positive but perhaps 20 and a
fraction. -/
def LimitText (text : String) : Prop :=
  (Go.atoi text).isSome ∨ ∀ q, ToNumber.toNumber text.toList = .finite q → q ≤ 0 ∨ ⌊q⌋ = 20

section

variable {text : String}

theorem Node.parseLimit_eq_default_iff {n : Double} :
    Node.parseLimit n = 20 ↔ ∀ q, n = .finite q → q ≤ 0 ∨ ⌊q⌋ = 20 := by
  cases n with
  | nan => exact iff_of_true rfl fun q h => by cases h
  | infinite negative => exact iff_of_true rfl fun q h => by cases h
  | finite q =>
      simp only [Node.parseLimit, Double.finite.injEq, forall_eq']
      split
      · next hq => exact iff_of_true rfl (.inl hq)
      · next hq =>
          rw [or_iff_right hq]
          omega

/-- A number that `strconv.Atoi` takes is the same limit for both. -/
theorem parseLimit_of_atoi {i : Int} (h : Go.atoi text = some i) :
    Node.parseLimit (ToNumber.toNumber text.toList) = Go.parseLimit text := by
  rw [Go.toNumber_of_atoi h, Go.parseLimit, h]
  by_cases hi : i ≤ 0
  · have hcast : (i : ℚ) ≤ 0 := Int.cast_nonpos.mpr hi
    simp only [if_pos hi]
    exact Node.parseLimit_eq_default_iff.mpr fun q hq => .inl (Double.ofRat_nonpos hcast hq)
  obtain ⟨n, rfl⟩ := Int.eq_ofNat_of_zero_le (not_le.mp hi).le
  simp only [if_neg hi, Int.toNat_natCast, Int.cast_natCast]
  by_cases hn : n < 2 ^ 53
  · have hpos : ¬ ((n : ℚ) ≤ 0) := not_le.mpr (by exact_mod_cast not_le.mp hi)
    rw [Double.ofRat_natCast hn]
    simp only [Node.parseLimit, if_neg hpos, Int.floor_natCast, Int.toNat_natCast]
  · -- beyond 100 for both
    have hlt : n < 2 ^ 63 := by exact_mod_cast Go.lt_of_atoi h
    obtain ⟨v, hv, hle⟩ := Double.exists_ofRat_natCast (not_lt.mp hn) hlt
    have hpos : ¬ (v ≤ 0) := not_le.mpr (lt_of_lt_of_le (by positivity) hle)
    have hfloor : 2 ^ 53 ≤ ⌊v⌋ := Int.le_floor.mpr (by exact_mod_cast hle)
    rw [hv]
    simp only [Node.parseLimit, if_neg hpos]
    omega

/-- Both make the same limit of such a text, and of no other. -/
theorem parseLimit_eq_iff :
    Node.parseLimit (ToNumber.toNumber text.toList) = Go.parseLimit text ↔ LimitText text := by
  cases h : Go.atoi text with
  | some i => exact iff_of_true (parseLimit_of_atoi h) (.inl (by rw [h]; rfl))
  | none =>
      have hdefault : Go.parseLimit text = 20 := by rw [Go.parseLimit, h]
      rw [hdefault, Node.parseLimit_eq_default_iff, LimitText, h]
      exact (or_iff_right (by simp)).symm

end

/-! ### The query -/

/-- Either stack reads this text in a parameter, in one that is absent the empty text. -/
def Reads (queryParser : RawValue → Option String) (value : Option RawValue) (text : String) : Prop :=
  (value.bind queryParser).getD "" = text ∧ Go.queryValue value = Utf8.encode text.toList

/-- Both decode the same cursor, or none. -/
def CursorText (text : String) : Prop :=
  (Node.decodeCursor text).map (fun c => (c.createdAt, c.id)) =
    (Go.decodeCursor text).map fun c => (c.createdAt, c.id)

/-- The texts of the parameters are the same for both, those of the conditions not empty, and of `limit`
and `before` both make the same. -/
structure RawQuery.ReadAlike (queryParser : RawValue → Option String) (q : RawQuery) : Prop where
  filters : ∀ value ∈ [q.id, q.type, q.fromDate, q.toDate, q.endpointId],
    (∃ text, Reads queryParser value text) ∧ value.bind queryParser ≠ some ""
  limit : ∃ text, Reads queryParser q.limit text ∧ LimitText text
  before : ∃ text, Reads queryParser q.before text ∧ CursorText text

section

variable {p : Platform} {queryParser : RawValue → Option String} {text : String} {value : Option RawValue}
  {query : RawQuery}

theorem sqlText_encode {text : List Char} : Go.sqlText (Utf8.encode text) = some (.ofList text) := by
  rw [Go.sqlText, Utf8.decode?_eq_some_iff.mpr rfl, Option.map_some]

theorem lossy_encode {text : List Char} : Go.lossy (Utf8.encode text) = .ofList text := by
  rw [Go.lossy, Utf8.decode_encode]

theorem reads_none : Reads queryParser none "" := ⟨rfl, rfl⟩

theorem cursorText_empty : CursorText "" := by
  rw [CursorText]
  decide +kernel

namespace Reads

theorem sqlText (h : Reads queryParser value text) : Go.sqlText (Go.queryValue value) = some text := by
  rw [h.2, sqlText_encode, String.ofList_toList]

theorem lossy (h : Reads queryParser value text) : Go.lossy (Go.queryValue value) = text := by
  rw [h.2, lossy_encode, String.ofList_toList]

/-- A condition that is not empty is the same for both. -/
theorem nonEmpty (h : Reads queryParser value text) (hne : value.bind queryParser ≠ some "") :
    Go.nonEmpty text = value.bind queryParser := by
  obtain ⟨rfl, -⟩ := h
  cases hvalue : value.bind queryParser with
  | none => rfl
  | some text => exact if_neg fun h : text = "" => hne (by rw [hvalue, h])

/-- An absent `limit` is as good as an empty one. -/
theorem nodeLimit (h : Reads queryParser value text) :
    Node.parseLimit (Node.queryLimit (value.bind queryParser)) =
      Node.parseLimit (ToNumber.toNumber text.toList) := by
  obtain ⟨rfl, -⟩ := h
  cases value.bind queryParser with
  | none => decide +kernel
  | some text => rfl

theorem parseLimit_iff (h : Reads queryParser value text) :
    Node.parseLimit (Node.queryLimit (value.bind queryParser)) =
      Go.parseLimit (Go.lossy (Go.queryValue value)) ↔ LimitText text := by
  rw [h.lossy, h.nodeLimit, parseLimit_eq_iff]

theorem cursorParams (h : Reads queryParser value text) (hcursor : CursorText text) :
    Node.cursorParams p (value.bind queryParser) =
      (Go.cursorOf (Go.lossy (Go.queryValue value))).mapM (Go.cursorParams p) := by
  have hnode : (value.bind queryParser).bind Node.decodeCursor = Node.decodeCursor text := by
    obtain ⟨rfl, -⟩ := h
    cases value.bind queryParser with
    | none => decide +kernel
    | some text => rfl
  have hgo : Go.cursorOf text = Go.decodeCursor text := by
    rw [Go.cursorOf, Go.nonEmpty]
    split
    · next hempty =>
        rw [hempty]
        decide +kernel
    · rfl
  rw [h.lossy, hgo, Node.cursorParams, hnode]
  rw [CursorText] at hcursor
  cases hdecode : Node.decodeCursor text with
  | none =>
      rw [hdecode, Option.map_none, eq_comm, Option.map_eq_none_iff] at hcursor
      rw [hcursor]
      rfl
  | some c =>
      rw [hdecode, Option.map_some, eq_comm, Option.map_eq_some_iff] at hcursor
      obtain ⟨c', hdecode', hc⟩ := hcursor
      rw [Prod.mk.injEq] at hc
      rw [hdecode']
      simp only [Option.mapM_some, Go.cursorParams, hc.1, hc.2]
      cases p.timestamptz c.createdAt with
      | none => rfl
      | some t => cases p.uuid c.id <;> rfl

end Reads

/-- A query that is read alike selects the same in both stacks. -/
theorem RawQuery.ReadAlike.selection_eq (h : query.ReadAlike queryParser) :
    Node.selection p queryParser query = Go.selection p query := by
  obtain ⟨⟨id, hid⟩, hid'⟩ := h.filters query.id (by simp)
  obtain ⟨⟨type, htype⟩, htype'⟩ := h.filters query.type (by simp)
  obtain ⟨⟨fromDate, hfrom⟩, hfrom'⟩ := h.filters query.fromDate (by simp)
  obtain ⟨⟨toDate, hto⟩, hto'⟩ := h.filters query.toDate (by simp)
  obtain ⟨⟨endpointId, hendpoint⟩, hendpoint'⟩ := h.filters query.endpointId (by simp)
  obtain ⟨limit, hlimit, hlimit'⟩ := h.limit
  obtain ⟨before, hbefore, hbefore'⟩ := h.before
  have hquery : Go.eventQuery query = some ⟨id, type, fromDate, toDate, endpointId,
      Go.lossy (Go.queryValue query.limit), Go.lossy (Go.queryValue query.before)⟩ := by
    simp only [Go.eventQuery, Go.eventTexts, hid.sqlText, htype.sqlText, hfrom.sqlText, hto.sqlText,
      hendpoint.sqlText, Option.bind_eq_bind, Option.bind_some]
  simp only [Node.selection, Go.selection, hquery, Option.bind_some, Node.eventQuery,
    hlimit.parseLimit_iff.mpr hlimit', hbefore.cursorParams hbefore', EventQuery.params, Go.EventQuery.params,
    hid.nonEmpty hid', htype.nonEmpty htype', hfrom.nonEmpty hfrom', hto.nonEmpty hto',
    hendpoint.nonEmpty hendpoint']

end

/-! ### Usual queries -/

/-- The value stands for the text, and has no `;`, at which Go stops, and no `]`, which may end a
name. -/
structure RawValue.Denotes (raw : RawValue) (text : List Char) : Prop where
  bytes : unescape (raw.text.map plusToSpace) = some (Utf8.encode text)
  semicolon : ';' ∉ raw.text
  bracket : ']' ∉ text

/-- Express' parser reads such a value as the text. -/
def ReadsValues (queryParser : RawValue → Option String) : Prop :=
  ∀ raw text, RawValue.Denotes raw text → queryParser raw = some (.ofList text)

/-- Conditions that are not empty, whole numbers for `limit`, and cursors of either stack. -/
structure RawQuery.Usual (q : RawQuery) : Prop where
  filters : ∀ value ∈ [q.id, q.type, q.fromDate, q.toDate, q.endpointId], ∀ raw, value = some raw →
    ∃ text, text ≠ [] ∧ raw.Denotes text
  limit : ∀ raw, q.limit = some raw → ∃ n < 2 ^ 53, raw.Denotes (Nat.toDigits 10 n)
  before : ∀ raw, q.before = some raw → ∃ createdAt id, createdAt ≠ "" ∧ id ≠ "" ∧
    (raw.Denotes (Node.encodeCursor ⟨createdAt, id⟩).toList ∨
      raw.Denotes (Go.encodeCursor ⟨createdAt, id⟩).toList)

section

variable {queryParser : RawValue → Option String} {raw : RawValue} {text : List Char}
  {value : Option RawValue} {query : RawQuery}

/-- Either stack reads what is denoted. -/
theorem RawValue.Denotes.reads (h : raw.Denotes text) (hparser : ReadsValues queryParser) :
    Reads queryParser (some raw) (.ofList text) := by
  refine ⟨by rw [Option.bind_some, hparser _ _ h]; rfl, ?_⟩
  rw [Go.queryValue, if_neg h.semicolon, h.bytes, Option.getD_some, String.toList_ofList]

/-- Either stack reads the cursors of both. -/
theorem decodeCursor_exchange {createdAt id cursor : String} (hcreatedAt : createdAt ≠ "") (hid : id ≠ "")
    (h : cursor = Node.encodeCursor ⟨createdAt, id⟩ ∨ cursor = Go.encodeCursor ⟨createdAt, id⟩) :
    Node.decodeCursor cursor = some ⟨createdAt, id⟩ ∧ Go.decodeCursor cursor = some ⟨createdAt, id⟩ := by
  have hne : ∀ s : String, s ≠ "" → s.toList ≠ [] := fun s hs h => hs (String.toList_eq_nil_iff.mp h)
  obtain ⟨text, hcursor, hparse⟩ : ∃ text, cursor = Node.base64url text ∧ Json.parse text =
      some (.obj [("createdAt".toList, .str createdAt.toList), ("id".toList, .str id.toList)]) := by
    rcases h with rfl | rfl
    · exact ⟨_, rfl, Node.parse_stringify _⟩
    · exact ⟨_, rfl, Go.parse_marshal _⟩
  constructor
  · rw [hcursor, Node.decodeCursor_of_parse ((Node.parseCursor_base64url text).trans hparse),
      String.ofList_toList, String.ofList_toList]
  · have hgo := Go.decodeCursor_of_parse hparse (hne _ hcreatedAt) (hne _ hid)
    rw [String.ofList_toList, String.ofList_toList] at hgo
    rw [hcursor]
    exact hgo

theorem cursorText_of_cursor {createdAt id : String} (hcreatedAt : createdAt ≠ "") (hid : id ≠ "")
    {cursor : String}
    (h : cursor = Node.encodeCursor ⟨createdAt, id⟩ ∨ cursor = Go.encodeCursor ⟨createdAt, id⟩) :
    CursorText cursor := by
  obtain ⟨hnode, hgo⟩ := decodeCursor_exchange hcreatedAt hid h
  rw [CursorText, hnode, hgo]
  rfl

/-- A usual query is read alike. -/
theorem RawQuery.Usual.readAlike (h : query.Usual) (hparser : ReadsValues queryParser) :
    query.ReadAlike queryParser where
  filters value hvalue := by
    cases value with
    | none => exact ⟨⟨"", reads_none⟩, fun h => by cases h⟩
    | some raw =>
        obtain ⟨text, hne, hraw⟩ := h.filters _ hvalue raw rfl
        refine ⟨⟨_, hraw.reads hparser⟩, fun hempty => hne ?_⟩
        rw [Option.bind_some, hparser _ _ hraw, Option.some.injEq] at hempty
        simpa using congrArg String.toList hempty
  limit := by
    cases hlimit : query.limit with
    | none => exact ⟨"", reads_none, parseLimit_eq_iff.mp (by decide +kernel)⟩
    | some raw =>
        obtain ⟨n, hn, hraw⟩ := h.limit raw hlimit
        refine ⟨_, hraw.reads hparser, .inl ?_⟩
        rw [Go.atoi_toDigits (hn.trans (by decide))]
        rfl
  before := by
    cases hbefore : query.before with
    | none => exact ⟨"", reads_none, cursorText_empty⟩
    | some raw =>
        obtain ⟨createdAt, id, hcreatedAt, hid, hraw⟩ := h.before raw hbefore
        obtain ⟨cursor, hdenotes, hcursor⟩ : ∃ cursor : String, raw.Denotes cursor.toList ∧
            (cursor = Node.encodeCursor ⟨createdAt, id⟩ ∨ cursor = Go.encodeCursor ⟨createdAt, id⟩) :=
          hraw.elim (fun h => ⟨_, h, .inl rfl⟩) fun h => ⟨_, h, .inr rfl⟩
        have hreads := hdenotes.reads hparser
        rw [String.ofList_toList] at hreads
        exact ⟨cursor, hreads, cursorText_of_cursor hcreatedAt hid hcursor⟩

/-- A key is the second word of the header for both stacks. -/
theorem bearerKey_ascii {key : List Char} (hne : key ≠ []) (hascii : ∀ c ∈ key, c.toNat < 128)
    (hspace : ' ' ∉ key) :
    Node.bearerKey (Utf8.encode ("Bearer ".toList ++ key)) = some (Utf8.encode key) ∧
      Go.bearerKey (Utf8.encode ("Bearer ".toList ++ key)) = some (Utf8.encode key) := by
  have hheader : Utf8.encode ("Bearer ".toList ++ key) = bearerScheme ++ Utf8.encode key :=
    List.flatMap_append
  have hne' : Utf8.encode key ≠ [] := by
    intro hnil
    have hdecode := Utf8.decode_encode key
    rw [hnil] at hdecode
    exact hne hdecode.symm
  have hplain : ∀ b ∈ Utf8.encode key, b ≠ 0x20 := by
    rintro _ hb rfl
    obtain ⟨c, hc, hb⟩ := List.mem_flatMap.mp hb
    have heq : c = ' ' :=
      Char.ext (UInt32.toNat_inj.mp (Utf8.toNat_of_mem_utf8EncodeChar (by decide) hb))
    exact hspace (heq ▸ hc)
  have hword : firstWord (Utf8.encode key) = Utf8.encode key := firstWord_eq_self hplain
  rw [hheader, Node.bearerKey_scheme, Go.bearerKey_scheme, hword, if_neg hne', if_neg hne',
    Utf8.latin1_encode hascii]
  exact ⟨rfl, rfl⟩

theorem oneKey_ascii {hashApiKey : Bytes → String} {key : List Char} (hne : key ≠ [])
    (hascii : ∀ c ∈ key, c.toNat < 128) (hspace : ' ' ∉ key) :
    OneKey hashApiKey (Utf8.encode ("Bearer ".toList ++ key)) := by
  obtain ⟨hnode, hgo⟩ := bearerKey_ascii hne hascii hspace
  rw [← sameKey_iff_oneKey, SameKey, hnode, hgo]

end

end Webhooks
