import Webhooks.Lib.Base64
import Webhooks.Lib.Json
import Webhooks.Lib.Paging
import Webhooks.Lib.Ranking
import Webhooks.Lib.Utf8
import Webhooks.Api.Platform

/-!
# Api — Pagination

`lib/pagination.ts`: the two cursors of the Node API, as the base64url text of a JSON object, and
`parseLimit`; with them what every list route ends with, the slicing of the `limit + 1` rows it
asks for (`Paging.page`).

* `parseLimit`, `listPage`: a page of the routes that list newest first.
* **`decodeCursor_encodeCursor`**, **`decodeSeqCursor_encodeSeqCursor`**: a cursor is read back,
  a `seq` below 2^53 exactly.
-/

namespace Webhooks.Node

open Lib

/-- `Cursor`. -/
structure Cursor where
  createdAt : String
  id : String
  deriving DecidableEq, Repr

/-- `Buffer.from(text, "utf8").toString("base64url")`. -/
def base64url (text : List Char) : String := .ofList (Base64.encodeUrl (Utf8.encode text))

/-- `JSON.parse(Buffer.from(raw, "base64url").toString("utf8"))`. -/
def parseCursor (raw : String) : Option Json.Value :=
  Json.parse (Utf8.decode (Base64.decode raw.toList))

/-- `JSON.stringify(cursor)`. -/
def Cursor.stringify (c : Cursor) : List Char :=
  '{' :: (Json.quote "createdAt".toList ++ ':' :: (Json.quote c.createdAt.toList ++ ',' ::
    (Json.quote "id".toList ++ ':' :: (Json.quote c.id.toList ++ ['}']))))

def encodeCursor (c : Cursor) : String := base64url c.stringify

/-- A text that is not the JSON of an object with two strings is no cursor. -/
def decodeCursor (raw : String) : Option Cursor :=
  (parseCursor raw).bind fun parsed =>
    match parsed.get? "createdAt".toList, parsed.get? "id".toList with
    | some (.str createdAt), some (.str id) => some ⟨.ofList createdAt, .ofList id⟩
    | _, _ => none

/-- `parseLimit`, of `Number(raw)`. -/
def parseLimit (n : Double) : Nat :=
  match n with
  | .finite q => if q ≤ 0 then 20 else min ⌊q⌋.toNat 100
  | .nan | .infinite _ => 20

/-- `encodeSeqCursor({ seq: Number(seq) })`. -/
def encodeSeqCursor (seq : Nat) : String :=
  base64url ('{' :: (Json.quote "seq".toList ++ ':' ::
    (Nat.toDigits 10 (Double.shortest seq) ++ ['}'])))

/-- The number of a cursor on `seq`. -/
def decodeSeqCursor (raw : String) : Option Double :=
  (parseCursor raw).bind fun parsed =>
    match parsed.get? "seq".toList with
    | some (.num q) => some (Double.ofRat q)
    | _ => none

/-- `ORDER BY created_at DESC, id DESC`. -/
def newestFirst {α : Type} (createdAt id : α → Nat) (a b : α) : Prop :=
  createdAt b < createdAt a ∨ createdAt b = createdAt a ∧ id b ≤ id a

instance {α : Type} (createdAt id : α → Nat) : DecidableRel (newestFirst createdAt id) := fun a b => by
  unfold newestFirst; exact inferInstance

instance {α : Type} (createdAt id : α → Nat) : Std.Total (newestFirst createdAt id) :=
  ⟨fun a b => by simp only [newestFirst]; omega⟩

instance {α : Type} (createdAt id : α → Nat) : IsTrans α (newestFirst createdAt id) :=
  ⟨fun a b c hab hbc => by simp only [newestFirst] at hab hbc ⊢; omega⟩

/-- `(created_at, id) < ($1, $2)`. -/
def isBefore (cursor : Timestamptz × Uuid) (createdAt : Time) (id : Uuid) : Bool :=
  match cursor.1.compare createdAt with
  | .lt => true
  | .eq => id < cursor.2
  | .gt => false

/-- The rows a list route reads, one more than it shows. -/
def selectPage {α : Type} (createdAt id : α → Nat) (cursor : Option (Timestamptz × Uuid)) (limit : Nat)
    (rows : List α) : List α :=
  ((rows.filter fun a => cursor.all fun c => isBefore c (createdAt a) (id a)).insertionSort
    (newestFirst createdAt id)).take (limit + 1)

/-- The cursor as the parameters of the query, or `none` when Postgres refuses one of them. -/
def cursorParams (p : Platform) (before : Option String) : Option (Option (Timestamptz × Uuid)) :=
  match before.bind decodeCursor with
  | none => some none
  | some cursor =>
      (p.timestamptz cursor.createdAt).bind fun t => (p.uuid cursor.id).map fun id => some (t, id)

/-- The rows of a page and its `next_cursor`, from the rows the other conditions let through. -/
def listPage {α : Type} (p : Platform) (createdAt id : α → Nat) (limit : Double)
    (cursor : Option (Timestamptz × Uuid)) (rows : List α) : List α × Option String :=
  let (shown, last) :=
    Paging.page (parseLimit limit) (selectPage createdAt id cursor (parseLimit limit) rows)
  (shown, last.map fun a => encodeCursor ⟨p.isoDate (createdAt a), p.uuidText (id a)⟩)

section

variable {α : Type} {p : Platform} {createdAt id : α → Nat} {rows : List α} {a : α}

theorem mem_listPage {limit : Double} {cursor : Option (Timestamptz × Uuid)}
    (h : a ∈ (listPage p createdAt id limit cursor rows).1) : a ∈ rows :=
  List.mem_of_mem_filter ((List.mem_insertionSort _).mp (List.mem_of_mem_take (Paging.mem_page h)))

theorem isBefore_at_iff {n u createdAt id : Nat} :
    isBefore (.at (n : Int), u) createdAt id = true ↔ createdAt < n ∨ createdAt = n ∧ id < u := by
  simp only [isBefore, Timestamptz.compare, compare, compareOfLessAndEq, Nat.cast_lt, Nat.cast_inj]
  by_cases hlt : createdAt < n
  · simp [hlt]
  · by_cases heq : createdAt = n <;> simp [hlt, heq]

/-- Rows with distinct identifiers are not tied. -/
theorem untied_newestFirst (h : (rows.map id).Nodup) :
    Ranking.Untied (newestFirst createdAt id) rows := by
  refine (List.pairwise_map.mp h).imp fun hne ⟨hab, hba⟩ => hne ?_
  simp only [newestFirst] at hab hba
  omega

theorem parseCursor_base64url (text : List Char) : parseCursor (base64url text) = Json.parse text := by
  simp only [parseCursor, base64url, String.toList_ofList, Base64.decode_encodeUrl, Utf8.decode_encode]

theorem parse_stringify (c : Cursor) : Json.parse c.stringify =
    some (.obj [("createdAt".toList, .str c.createdAt.toList), ("id".toList, .str c.id.toList)]) := by
  refine Json.parse_obj fun n hn => ?_
  obtain ⟨m, rfl⟩ : ∃ m, n = m + 3 := ⟨n - 3, by simp at hn; omega⟩
  exact Json.members_cons (Json.value_quote _ _ _) (Json.members_last (Json.value_quote _ _ _))

theorem decodeCursor_of_parse {raw : String} {createdAt id : List Char}
    (h : parseCursor raw = some (.obj [("createdAt".toList, .str createdAt), ("id".toList, .str id)])) :
    decodeCursor raw = some ⟨.ofList createdAt, .ofList id⟩ := by
  have hne : "id".toList ≠ "createdAt".toList := by decide
  have hcreatedAt : (Json.Value.obj [("createdAt".toList, .str createdAt),
      ("id".toList, .str id)]).get? "createdAt".toList = some (.str createdAt) :=
    Json.get?_cons_last hne
  have hid := Json.get?_last "id".toList (.str id) [("createdAt".toList, .str createdAt)]
  rw [List.singleton_append] at hid
  rw [decodeCursor, h, Option.bind_some, hcreatedAt, hid]

/-- A cursor is read back. -/
theorem decodeCursor_encodeCursor (c : Cursor) : decodeCursor (encodeCursor c) = some c := by
  have hparse := (parseCursor_base64url c.stringify).trans (parse_stringify c)
  rw [encodeCursor, decodeCursor_of_parse hparse, String.ofList_toList, String.ofList_toList]

/-- A cursor on a `seq` that is a double is read back. -/
theorem decodeSeqCursor_encodeSeqCursor {seq : Nat} (h : seq < 2 ^ 53) :
    decodeSeqCursor (encodeSeqCursor seq) = some (.finite seq) := by
  have hparse : Json.parse ('{' :: (Json.quote "seq".toList ++ ':' ::
      (Nat.toDigits 10 seq ++ ['}']))) = some (.obj [("seq".toList, .num seq)]) := by
    refine Json.parse_obj fun n hn => ?_
    obtain ⟨m, rfl⟩ : ∃ m, n = m + 2 := ⟨n - 2, by simp at hn; omega⟩
    exact Json.members_last (Json.value_toDigits _ _)
  have hseq := Json.get?_last "seq".toList (.num seq) []
  rw [List.nil_append] at hseq
  rw [decodeSeqCursor, encodeSeqCursor, Double.shortest_eq h, parseCursor_base64url, hparse,
    Option.bind_some, hseq]
  simp only [Double.ofRat_natCast h]

end

end Webhooks.Node
