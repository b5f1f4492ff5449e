import Webhooks.Lib.Double
import Webhooks.Api.GoPagination
import Webhooks.Api.Wire

/-!
# Api — GoJson

What `json.NewDecoder(r.Body).Decode` makes of the three bodies: it reads the first value of the body and
leaves the rest, and a value that does not fit a field is an error.

* `decodeFields`: the members of the object.
* `rawField`: a `json.RawMessage` field, the bytes of a member as they were sent.
* `decodeRegister`, `decodePublish`, `decodeReplay`.
-/

namespace Webhooks.Go

open Lib

def maxNestingDepth : Nat := 10000

/-- The first value of the body. -/
def firstValue (body : Bytes) : Option Json.Value :=
  (Json.value (2 * (text body).length + 2) (text body)).bind fun v =>
    if maxNestingDepth < v.1.depth then none else some v.1

/-- The members of the object that goes into a struct; `null` sets no field. -/
def decodeFields (body : Bytes) : Option (List (List Char × Json.Value)) :=
  (firstValue body).bind fun v =>
    match v with
    | .obj ms => some ms
    | .null => some []
    | _ => none

/-- The elements that go into a `[]string` field with these elements; `null` leaves one as it is. -/
def stringsOf? (old : List String) (vs : List Json.Value) : Option (List String) :=
  vs.zipIdx.mapM fun v =>
    (stringOf? v.1).map fun new => (new.map String.ofList).getD (old[v.2]?.getD "")

/-- A `[]string` field, of the values it is given one after the other. -/
def stringsFrom : List String → List Json.Value → Option (List String)
  | old, [] => some old
  | _, .null :: rest => stringsFrom [] rest
  | old, .arr vs :: rest => (stringsOf? old vs).bind fun new => stringsFrom new rest
  | _, _ :: _ => none

def stringsField (name : String) (ms : List (List Char × Json.Value)) : Option (List String) :=
  stringsFrom [] ((ms.filter (isField name.toList)).map (·.2))

/-- The members of an object up to its closing brace: each name, with how much of the text is left where
the value begins and where it ends. -/
def memberSpans : Nat → List Char → Option (List (List Char × (Nat × Nat)))
  | 0, _ => none
  | n + 1, cs =>
      match Json.skip cs with
      | '"' :: rest =>
          (Json.characters rest).bind fun k =>
            match Json.skip k.2 with
            | ':' :: rest =>
                (Json.value n rest).bind fun v =>
                  let span := ((Json.skip rest).length, v.2.length)
                  match Json.skip v.2 with
                  | ',' :: rest => (memberSpans n rest).map ((k.1, span) :: ·)
                  | '}' :: _ => some [(k.1, span)]
                  | _ => none
            | _ => none
      | _ => none

/-- A `json.RawMessage` field; it is empty when no member sets it. -/
def rawField (name : String) (body : Bytes) : Bytes :=
  let rs := runes body
  match Json.skip (text body) with
  | '{' :: rest =>
      match (((memberSpans (2 * rs.length + 2) rest).getD []).filter (isField name.toList)).getLast? with
      | some (_, start, stop) => ((rs.drop (rs.length - start)).take (start - stop)).flatMap (·.2)
      | none => []
  | _ => []

/-- `registerRequest`. -/
structure RegisterRequest where
  url : String
  eventTypes : List String

def decodeRegister (body : Bytes) : Option RegisterRequest := do
  let ms ← decodeFields body
  let url ← stringField "url" ms
  let eventTypes ← stringsField "event_types" ms
  some ⟨url, eventTypes⟩

/-- `publishRequest`. -/
structure PublishFields where
  type : String
  payload : Bytes
  /-- What `json.Unmarshal(req.Payload, …)` decodes, when the member is there. -/
  decoded : Option Json.Value

def decodePublish (body : Bytes) : Option PublishFields := do
  let ms ← decodeFields body
  let type ← stringField "type" ms
  some ⟨type, rawField "payload" body,
    ((ms.filter (isField "payload".toList)).map (·.2)).getLast?⟩

/-- The payload decodes, each number into a `float64`, and to a map. -/
def PublishFields.isObject (req : PublishFields) : Bool :=
  match req.decoded with
  | some (.obj ms) => (Json.Value.obj ms).numbers.all fun q =>
      match Double.ofRat q with
      | .finite _ => true
      | .nan | .infinite _ => false
  | _ => false

/-- `replayRequest`. -/
structure ReplayFields where
  rangeStart : String
  rangeEnd : String

def decodeReplay (body : Bytes) : Option ReplayFields := do
  let ms ← decodeFields body
  let rangeStart ← stringField "range_start" ms
  let rangeEnd ← stringField "range_end" ms
  some ⟨rangeStart, rangeEnd⟩

end Webhooks.Go
