import Webhooks.Lib.Json
import Webhooks.Lib.Utf8
import Webhooks.Api.Queries

/-!
# Api — Wire

A request of an authenticated tenant as it arrives: the segment of the path that is the `:id` is still
escaped, and the body is bytes.

* `Segment`: what may stand between two slashes of a path, the empty text included.
* `Route`, `HttpRequest`: over what a stack takes a query value or a header (`τ`) and `limit` (`ν`) for.
* `unescape`: the bytes of a segment.
* `Formats`: the formats of other components that a body goes through.
-/

namespace Webhooks

open Lib

/-- The characters a path is written in; every other one is sent as escaped bytes. -/
def isPathChar (c : Char) : Bool :=
  c = '!' || '$' ≤ c && c ≤ ';' && c ≠ '/' || c = '=' || '@' ≤ c && c ≤ '[' || c = ']' || c = '_' ||
    'a' ≤ c && c ≤ 'z' || c = '~'

structure Segment where
  chars : List Char
  encoded : chars.all isPathChar = true

/-- The twelve routes.  One that reads no query values has no query. -/
inductive Route (τ ν : Type) where
  | registerEndpoint
  | listEndpoints (limit : ν) (before : τ)
  | getEndpoint (id : Segment)
  | pauseEndpoint (id : Segment)
  | resumeEndpoint (id : Segment)
  | rotateSecret (id : Segment)
  | listEndpointDeliveries (id : Segment) (limit : ν) (after : τ)
  | publishEvent (idempotencyKey : τ)
  | listEvents (id type fromDate toDate endpointId : τ) (limit : ν) (before : τ)
  | getEvent (id : Segment)
  | getDelivery (id : Segment)
  | createReplay (id : Segment) (idempotencyKey : τ)

structure HttpRequest (τ ν : Type) where
  /-- The `Content-Type` is `application/json`, in UTF-8. -/
  isJson : Bool
  body : Bytes
  route : Route τ ν

section

variable {τ ν : Type}

/-- The segment of the `:id`, and whether the path ends with it. -/
def Route.segment : Route τ ν → Option (Segment × Bool)
  | .getEndpoint id | .getEvent id | .getDelivery id => some (id, true)
  | .pauseEndpoint id | .resumeEndpoint id | .rotateSecret id | .listEndpointDeliveries id _ _
  | .createReplay id _ => some (id, false)
  | .registerEndpoint | .listEndpoints .. | .publishEvent _ | .listEvents .. => none

end

/-- The bytes a segment stands for; every `%` needs two hexadecimal digits. -/
def unescape : List Char → Option Bytes
  | [] => some []
  | '%' :: a :: b :: rest =>
      (Json.hexValue a).bind fun a => (Json.hexValue b).bind fun b =>
        (unescape rest).map (.ofNat (a * 16 + b) :: ·)
  | '%' :: _ => none
  | c :: rest => (unescape rest).map (Utf8.encode [c] ++ ·)

structure Formats where
  /-- `z.string().datetime()`. -/
  isDatetime : String → Bool
  /-- `new Date(text)`, in milliseconds; `none` is `NaN`. -/
  date : String → Option Int
  /-- `JSON.stringify` of the `payload` in a body of this text; it throws on one that is nested too deeply
  for the stack. -/
  stringifyPayload : List Char → Option String
  /-- `time.Parse(time.RFC3339, text)`, in nanoseconds. -/
  parseRFC3339 : String → Option Int

end Webhooks
