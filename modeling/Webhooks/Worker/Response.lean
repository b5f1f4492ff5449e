import Webhooks.Worker.Callbacks

/-!
# Worker — Response

A response of a receiver, as it is to the HTTP client of either stack: what `sendOutboundRequest` is
called back with in Node, and what `client.Do` and the body's reader hand over in Go.

* `OutboundResponse`: the status, the headers a client acts on, the bytes of the body and its `Ending`.
* `Node.responseCallbacks`, `Go.receive`: the response in chunks.
-/

namespace Webhooks

/-- How the body of a response ends. -/
inductive Ending where
  | complete
  /-- The connection is closed before the end of the body. -/
  | closed
  /-- The connection is reset. -/
  | reset
  /-- Nothing more arrives until the total timeout. -/
  | stalled
  deriving DecidableEq, Repr

/-- A response that is not an interim one, with a head and a framing that both HTTP parsers take (Node's
takes 16 KiB of headers). -/
structure OutboundResponse where
  status : Nat
  /-- `Connection: Upgrade`, with an `Upgrade`. -/
  upgrade : Bool
  /-- `Content-Encoding: gzip`. -/
  gzip : Bool
  /-- A `Location` that `URL.Parse` refuses. -/
  badLocation : Bool
  /-- The bytes that arrive. -/
  body : Bytes
  ending : Ending

namespace OutboundResponse

/-- The connection is no longer one of HTTP. -/
def switches (r : OutboundResponse) : Bool := r.status = 101 && r.upgrade

/-- `redirectBehavior`. -/
def isRedirect (r : OutboundResponse) : Bool := r.status ∈ [301, 302, 303, 307, 308]

end OutboundResponse

namespace Node

/-- How the end of a body is called back.  A reset is an error of the socket, which the request reports
before the response is told of it. -/
def ending : Ending → Callback
  | .complete => .ended
  | .closed => .responseError
  | .reset => .requestError (some "ECONNRESET")
  | .stalled => .totalTimer

/-- The chunks of a body, each with its time. -/
def dataCallbacks (chunks : List (Nat × Bytes)) : List (Nat × Callback) :=
  chunks.map fun c => (c.1, .data c.2)

/-- The callbacks of a response over a connection of its own.  Nobody listens for `upgrade`: the socket is
destroyed, with neither `response` nor `error`. -/
def responseCallbacks (connectedAt respondedAt endedAt : Nat) (r : OutboundResponse)
    (chunks : List (Nat × Bytes)) : List (Nat × Callback) :=
  (connectedAt, .connect) ::
    if r.switches then [(endedAt, .totalTimer)]
    else (respondedAt, .response r.status) :: (dataCallbacks chunks ++ [(endedAt, ending r.ending)])

end Node

namespace Go

/-- How the reader of a body is told of its end. -/
def bodyEnd : Ending → BodyEnd
  | .complete => .eof
  | .closed | .reset => .otherError
  | .stalled => .deadlineExceeded

/-- `resp.Body`.  The transport has asked for gzip, so it reads such a body decompressed. -/
def respBody (gunzip : Bytes → BodyEnd → Bytes × BodyEnd) (r : OutboundResponse) : Bytes × BodyEnd :=
  if r.gzip && !r.switches then gunzip r.body (bodyEnd r.ending) else (r.body, bodyEnd r.ending)

/-- `SendOutboundRequest`, over what the reads of `resp.Body` return, when it returns. -/
def receive (gunzip : Bytes → BodyEnd → Bytes × BodyEnd) (maxResponseBodyBytes durationMs : Nat)
    (r : OutboundResponse) (chunks : List Bytes) : Option OutboundRequestResult :=
  -- `client.Do` parses the `Location` before it asks `CheckRedirect`
  if r.isRedirect && r.badLocation then some (.failed durationMs .connectionError)
  -- the context does not end the reads of a connection that is handed over
  else if r.switches && (readLoop (respBody gunzip r).2 maxResponseBodyBytes chunks).2 then none
  else some (readResponse maxResponseBodyBytes durationMs r.status chunks (respBody gunzip r).2)

end Go

end Webhooks
