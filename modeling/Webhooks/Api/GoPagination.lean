import Mathlib.Data.List.ReduceOption
import Webhooks.Lib.Base64
import Webhooks.Lib.Json
import Webhooks.Lib.ToNumber
import Webhooks.Lib.Utf8
import Webhooks.Api.Platform

/-!
# Api — GoPagination

`internal/pagination`: the two cursors of the Go API and `ParseLimit`.

* `runes`: a text as `encoding/json` takes its bytes, each character with those it stands for.
* `escape`, `stringField`, `int64Field`: what `encoding/json` writes for a string, and what it reads
  into a field.
* **`decodeCursor_encodeCursor`**, **`decodeSeqCursor_encodeSeqCursor`**: a cursor is read back.
* **`toNumber_of_atoi`**: what `strconv.Atoi` takes is the same number to a scripting language.
-/

namespace Webhooks.Go

open Lib

/-! ### `encoding/json` -/

/-- The characters after the first `skip` bytes; a byte that begins none is U+FFFD. -/
def runesFrom : Nat → Bytes → List (Char × Bytes)
  | _, [] => []
  | skip + 1, _ :: rest => runesFrom skip rest
  | 0, b :: rest =>
      match Utf8.char? (b :: rest) with
      | some c => (c, (b :: rest).take c.utf8Size) :: runesFrom (c.utf8Size - 1) rest
      | none => ('\uFFFD', [b]) :: runesFrom 0 rest

def runes (body : Bytes) : List (Char × Bytes) := runesFrom 0 body

def text (body : Bytes) : List Char := (runes body).map (·.1)

/-- The text of a character in a string; what would be markup in a page is escaped too. -/
def escape (c : Char) : List Char :=
  if c = '<' || c = '>' || c = '&' || c.toNat = 0x2028 || c.toNat = 0x2029 then
    ['\\', 'u', Json.hexDigit (c.toNat / 4096), Json.hexDigit (c.toNat / 256 % 16),
      Json.hexDigit (c.toNat / 16 % 16), Json.hexDigit (c.toNat % 16)]
  else Json.escape c

def quote (s : List Char) : List Char := '"' :: s.flatMap escape ++ ['"']

/-- The letter a character is folded to, where that is an ASCII one. -/
def foldRune (c : Char) : Char :=
  if c = 'ſ' then 'S' else if c.toNat = 0x212A then 'K' else c.toUpper

/-- The member goes into the field: names are compared without case. -/
def isField {α : Type} (name : List Char) (m : List Char × α) : Bool :=
  m.1.map foldRune = name.map foldRune

/-- The members of an object; `null` sets no field. -/
def fields (text : List Char) : Option (List (List Char × Json.Value)) :=
  match Json.parse text with
  | some (.obj ms) => some ms
  | some .null => some []
  | _ => none

/-- What a `string` field is set to, of a value that it takes. -/
def stringOf? : Json.Value → Option (Option (List Char))
  | .str s => some (some s)
  | .null => some none
  | _ => none

/-- A `string` field.  The last value counts, and `null` is none. -/
def stringField (name : String) (ms : List (List Char × Json.Value)) : Option String :=
  (((ms.filter (isField name.toList)).map (·.2)).mapM stringOf?).map fun vs =>
    .ofList (vs.reduceOption.getLast?.getD [])

/-- The literal of an integer. -/
def integer? : List Char → Option Int
  | '-' :: ds => if ds.all Char.isDigit then some (-(Json.decimal ds : Int)) else none
  | ds => if ds.all Char.isDigit then some (Json.decimal ds : Int) else none

def isInt64 (n : Int) : Bool := -2 ^ 63 ≤ n && n < 2 ^ 63

/-- What an `int64` field is set to, of the text of a value that it takes. -/
def int64Of? (raw : List Char) : Option (Option Int) :=
  if raw = "null".toList then some none
  else (integer? raw).bind fun n => if isInt64 n then some (some n) else none

/-- An `int64` field. -/
def int64Field (name : String) (ms : List (List Char × List Char)) : Option Int :=
  (((ms.filter (isField name.toList)).map (·.2)).mapM int64Of?).map fun vs =>
    vs.reduceOption.getLast?.getD 0

/-! ### Cursors -/

/-- `Cursor`. -/
structure Cursor where
  createdAt : String
  id : String
  deriving DecidableEq, Repr

/-- `base64.RawURLEncoding.EncodeToString`. -/
def rawURLEncoding (text : List Char) : String := .ofList (Base64.encodeUrl (Utf8.encode text))

/-- The text that is encoded. -/
def decodeString (raw : String) : Option (List Char) :=
  (Base64.decodeUrl raw.toList).map text

/-- `json.Marshal(c)`. -/
def Cursor.marshal (c : Cursor) : List Char :=
  '{' :: (Json.quote "createdAt".toList ++ ':' :: (quote c.createdAt.toList ++ ',' ::
    (Json.quote "id".toList ++ ':' :: (quote c.id.toList ++ ['}']))))

def encodeCursor (c : Cursor) : String := rawURLEncoding c.marshal

def decodeCursor (raw : String) : Option Cursor := do
  let ms ← (decodeString raw).bind fields
  let createdAt ← stringField "createdAt" ms
  let id ← stringField "id" ms
  if createdAt = "" || id = "" then none else some ⟨createdAt, id⟩

/-- `EncodeSeqCursor(SeqCursor{Seq: seq})`. -/
def encodeSeqCursor (seq : Nat) : String :=
  rawURLEncoding ('{' :: (Json.quote "seq".toList ++ ':' :: (Nat.toDigits 10 seq ++ ['}'])))

/-- The members of the text of a `SeqCursor`. -/
def rawFields (text : List Char) : Option (List (List Char × List Char)) :=
  match Json.parse text with
  | some .null => some []
  | _ => Json.rawObject text

def decodeSeqCursor (raw : String) : Option Int := do
  let ms ← (decodeString raw).bind rawFields
  let seq ← int64Field "seq" ms
  if seq ≤ 0 then none else some seq

/-! ### Limits -/

/-- `strconv.Atoi`. -/
def atoi (raw : String) : Option Int :=
  let n? := match raw.toList with
    | '+' :: ds => natural? ds
    | '-' :: ds => (natural? ds).map (- ·)
    | ds => natural? ds
  n?.bind fun n => if isInt64 n then some n else none
where
  natural? (ds : List Char) : Option Int :=
    if ds ≠ [] && ds.all Char.isDigit then some (Json.decimal ds : Int) else none

/-- `ParseLimit(raw, 20, 100)`. -/
def parseLimit (raw : String) : Nat :=
  match atoi raw with
  | some n => if n ≤ 0 then 20 else min n.toNat 100
  | none => 20

section

variable {rest : List Char}

theorem parseLimit_pos (raw : String) : 0 < parseLimit raw := by
  unfold parseLimit
  split
  · split <;> omega
  · decide

theorem units_hexEscape {c : Char} (h : c.toNat < 65536) :
    Json.units (['\\', 'u', Json.hexDigit (c.toNat / 4096), Json.hexDigit (c.toNat / 256 % 16),
      Json.hexDigit (c.toNat / 16 % 16), Json.hexDigit (c.toNat % 16)] ++ rest) =
        (Json.units rest).map (Json.cons c.toNat) := by
  have hhex : Json.hex4 (Json.hexDigit (c.toNat / 4096)) (Json.hexDigit (c.toNat / 256 % 16))
      (Json.hexDigit (c.toNat / 16 % 16)) (Json.hexDigit (c.toNat % 16)) = some c.toNat := by
    simp only [Json.hex4, Json.hexValue_hexDigit _ (show c.toNat / 4096 < 16 by omega),
      Json.hexValue_hexDigit _ (show c.toNat / 256 % 16 < 16 by omega),
      Json.hexValue_hexDigit _ (show c.toNat / 16 % 16 < 16 by omega),
      Json.hexValue_hexDigit _ (show c.toNat % 16 < 16 by omega), Option.bind_some, Option.map_some]
    congr 1
    omega
  have hslash : '\\' ≠ '"' := by decide
  rw [Json.units.eq_def]
  simp only [List.cons_append, List.nil_append, if_neg hslash, if_true, hhex, Option.bind_some]

/-- What is escaped is read back. -/
theorem units_escape (c : Char) (rest : List Char) :
    Json.units (escape c ++ rest) = (Json.units rest).map (Json.cons c.toNat) := by
  unfold escape
  split
  · next h =>
      refine units_hexEscape ?_
      simp only [Bool.or_eq_true, decide_eq_true_eq] at h
      rcases h with (((rfl | rfl) | rfl) | h) | h
      · decide
      · decide
      · decide
      · omega
      · omega
  · exact Json.units_escape c rest

theorem value_quote (n : Nat) (s rest : List Char) :
    Json.value (n + 1) (quote s ++ rest) = some (.str s, rest) :=
  Json.value_flatMap units_escape n s rest

theorem parse_marshal (c : Cursor) : Json.parse c.marshal =
    some (.obj [("createdAt".toList, .str c.createdAt.toList), ("id".toList, .str c.id.toList)]) := by
  refine Json.parse_obj fun n hn => ?_
  obtain ⟨m, rfl⟩ : ∃ m, n = m + 3 := ⟨n - 3, by simp at hn; omega⟩
  exact Json.members_cons (value_quote _ _ _) (Json.members_last (value_quote _ _ _))

theorem runesFrom_append (xs rest : Bytes) : runesFrom xs.length (xs ++ rest) = runesFrom 0 rest := by
  induction xs with
  | nil => rfl
  | cons x xs ih => exact ih

/-- The text of a text's own bytes. -/
theorem text_encode (cs : List Char) : text (Utf8.encode cs) = cs := by
  induction cs with
  | nil => rfl
  | cons c cs ih =>
      obtain ⟨b, bs, henc, hlen, hchar⟩ := Utf8.encode_cons c cs
      rw [henc, text, runes, runesFrom, hchar]
      show c :: (runesFrom (c.utf8Size - 1) (bs ++ Utf8.encode cs)).map (·.1) = c :: cs
      rw [← hlen, runesFrom_append]
      exact congrArg _ ih

theorem decodeString_rawURLEncoding (text : List Char) :
    decodeString (rawURLEncoding text) = some text := by
  simp only [decodeString, rawURLEncoding, String.toList_ofList, Base64.decodeUrl_encodeUrl,
    Option.map_some, text_encode]

theorem decodeCursor_of_parse {text createdAt id : List Char}
    (h : Json.parse text = some (.obj [("createdAt".toList, .str createdAt), ("id".toList, .str id)]))
    (hcreatedAt : createdAt ≠ []) (hid : id ≠ []) :
    decodeCursor (rawURLEncoding text) = some ⟨.ofList createdAt, .ofList id⟩ := by
  have hcreatedAt' : stringField "createdAt" [("createdAt".toList, .str createdAt),
      ("id".toList, .str id)] = some (.ofList createdAt) := by
    simp [stringField, isField, foldRune, stringOf?]
  have hid' : stringField "id" [("createdAt".toList, .str createdAt),
      ("id".toList, .str id)] = some (.ofList id) := by
    simp [stringField, isField, foldRune, stringOf?]
  rw [decodeCursor, decodeString_rawURLEncoding, Option.bind_some, fields, h]
  simp only [Option.bind_eq_bind, Option.bind_some, hcreatedAt', hid']
  simp [hcreatedAt, hid]

/-- A cursor that says something is read back. -/
theorem decodeCursor_encodeCursor {c : Cursor} (hcreatedAt : c.createdAt ≠ "") (hid : c.id ≠ "") :
    decodeCursor (encodeCursor c) = some c := by
  have hne : ∀ s : String, s ≠ "" → s.toList ≠ [] := fun s hs h => hs (String.toList_eq_nil_iff.mp h)
  rw [encodeCursor, decodeCursor_of_parse (parse_marshal c) (hne _ hcreatedAt) (hne _ hid),
    String.ofList_toList, String.ofList_toList]

theorem rawFields_seq (seq : Nat) : rawFields ('{' :: (Json.quote "seq".toList ++ ':' ::
    (Nat.toDigits 10 seq ++ ['}']))) = some [("seq".toList, Nat.toDigits 10 seq)] := by
  have hparse : Json.parse ('{' :: (Json.quote "seq".toList ++ ':' ::
      (Nat.toDigits 10 seq ++ ['}']))) = some (.obj [("seq".toList, .num seq)]) := by
    refine Json.parse_obj fun n hn => ?_
    obtain ⟨m, rfl⟩ : ∃ m, n = m + 2 := ⟨n - 2, by simp at hn; omega⟩
    exact Json.members_last (Json.value_toDigits _ _)
  have hskip : Json.skip (Nat.toDigits 10 seq ++ ['}']) = Nat.toDigits 10 seq ++ ['}'] := by
    obtain ⟨d, ds, hd⟩ := List.exists_cons_of_ne_nil (Nat.toDigits_ne_nil (n := seq) (b := 10))
    rw [hd, List.cons_append]
    exact Json.skip_digit
      (Nat.isDigit_of_mem_toDigits (b := 10) (n := seq) (by decide) (by decide) (hd ▸ List.mem_cons_self)) _
  rw [rawFields, hparse]
  show Json.rawObject _ = _
  rw [Json.rawObject, hparse]
  exact Json.rawMembers_last hskip (Json.value_toDigits _ _)

theorem int64Of?_toDigits {n : Nat} (h : n < 2 ^ 63) :
    int64Of? (Nat.toDigits 10 n) = some (some (n : Int)) := by
  obtain ⟨d, ds, hd⟩ := List.exists_cons_of_ne_nil (Nat.toDigits_ne_nil (n := n) (b := 10))
  have hall : ∀ c ∈ d :: ds, c.isDigit = true := fun c hc =>
    Nat.isDigit_of_mem_toDigits (b := 10) (n := n) (by decide) (by decide) (hd ▸ hc)
  have hdecimal : Json.decimal (d :: ds) = n := by
    rw [← hd, Json.decimal, Nat.ofDigitChars_ten_toDigits]
  have hnull : d :: ds ≠ "null".toList := by
    intro heq
    have hn := hall d List.mem_cons_self
    rw [(List.cons.inj heq).1] at hn
    cases hn
  have hinteger : integer? (d :: ds) = some (n : Int) := by
    rw [integer?, if_pos (List.all_eq_true.mpr hall), hdecimal]
    intro ds' heq
    have hn := hall d List.mem_cons_self
    rw [(List.cons.inj heq).1] at hn
    cases hn
  have hrange : isInt64 (n : Int) = true := by
    rw [isInt64, Bool.and_eq_true, decide_eq_true_eq, decide_eq_true_eq]
    omega
  rw [hd, int64Of?, if_neg hnull, hinteger, Option.bind_some, if_pos hrange]

/-- A cursor on a `seq` is read back. -/
theorem decodeSeqCursor_encodeSeqCursor {seq : Nat} (hpos : 0 < seq) (h : seq < 2 ^ 63) :
    decodeSeqCursor (encodeSeqCursor seq) = some (seq : Int) := by
  have hseq : int64Field "seq" [("seq".toList, Nat.toDigits 10 seq)] = some (seq : Int) := by
    have hfield : isField "seq".toList ("seq".toList, Nat.toDigits 10 seq) = true := rfl
    simp only [int64Field, List.filter_cons_of_pos hfield, List.filter_nil, List.map_cons, List.map_nil,
      List.mapM_cons, int64Of?_toDigits h, List.mapM_nil]
    rfl
  rw [decodeSeqCursor, encodeSeqCursor, decodeString_rawURLEncoding, Option.bind_some, rawFields_seq]
  simp only [Option.bind_eq_bind, Option.bind_some, hseq]
  simp [hpos.ne']

/-- The digits of a number are read back. -/
theorem atoi_toDigits {n : Nat} (h : n < 2 ^ 63) : atoi (.ofList (Nat.toDigits 10 n)) = some (n : Int) := by
  have hdigits : ∀ c ∈ Nat.toDigits 10 n, c.isDigit = true := fun c hc =>
    Nat.isDigit_of_mem_toDigits (b := 10) (n := n) (by decide) (by decide) hc
  have hnatural : atoi.natural? (Nat.toDigits 10 n) = some (n : Int) := by
    have hall : (Nat.toDigits 10 n ≠ [] && (Nat.toDigits 10 n).all Char.isDigit) = true :=
      Bool.and_eq_true_iff.mpr ⟨decide_eq_true Nat.toDigits_ne_nil, List.all_eq_true.mpr hdigits⟩
    rw [atoi.natural?, if_pos hall, Json.decimal, Nat.ofDigitChars_ten_toDigits]
  have hrange : isInt64 (n : Int) = true := by
    rw [isInt64, Bool.and_eq_true, decide_eq_true_eq, decide_eq_true_eq]
    omega
  rw [atoi, String.toList_ofList]
  split
  · next ds heq => exact absurd (hdigits '+' (heq ▸ List.mem_cons_self)) (by decide)
  · next ds heq => exact absurd (hdigits '-' (heq ▸ List.mem_cons_self)) (by decide)
  · rw [hnatural, Option.bind_some, if_pos hrange]

theorem natural?_eq_some {ds : List Char} {i : Int} (h : atoi.natural? ds = some i) :
    ds ≠ [] ∧ (∀ c ∈ ds, c.isDigit = true) ∧ i = Json.decimal ds := by
  unfold atoi.natural? at h
  split_ifs at h with hds
  simp only [Bool.and_eq_true, decide_eq_true_eq, List.all_eq_true] at hds
  exact ⟨hds.1, hds.2, (Option.some.inj h).symm⟩

/-- What `strconv.Atoi` takes is the double nearest to the same number for `Number`. -/
theorem toNumber_of_atoi {raw : String} {i : Int} (h : atoi raw = some i) :
    ToNumber.toNumber raw.toList = .ofRat i := by
  obtain ⟨n, hn, h⟩ := Option.bind_eq_some_iff.mp h
  obtain rfl : n = i := by
    split_ifs at h
    exact Option.some.inj h
  split at hn
  · next ds hds =>
      obtain ⟨hne, hdigits, rfl⟩ := natural?_eq_some hn
      rw [hds, (ToNumber.toNumber_signed hne hdigits).2]
      rfl
  · next ds hds =>
      obtain ⟨m, hm, rfl⟩ := Option.map_eq_some_iff.mp hn
      obtain ⟨hne, hdigits, rfl⟩ := natural?_eq_some hm
      rw [hds, (ToNumber.toNumber_signed hne hdigits).1]
      push_cast
      rfl
  · obtain ⟨hne, hdigits, rfl⟩ := natural?_eq_some hn
    rw [ToNumber.toNumber_digits hne hdigits]
    rfl

theorem lt_of_atoi {raw : String} {i : Int} (h : atoi raw = some i) : i < 2 ^ 63 := by
  obtain ⟨n, -, h⟩ := Option.bind_eq_some_iff.mp h
  split_ifs at h with hrange
  rw [isInt64, Bool.and_eq_true, decide_eq_true_eq, decide_eq_true_eq] at hrange
  rw [← Option.some.inj h]
  exact hrange.2

end

end Webhooks.Go
