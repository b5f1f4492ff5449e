import Webhooks.Worker.Outbound

/-!
# Worker — Callbacks

The request of an attempt, callback by callback (`httpClient.ts`) and read by read
(`httpclient.go`), with the captured bytes as they are before they are made text.

* `Call`: the variables the callbacks of Node's `sendOutboundRequest` share, and `Call.on`, what
  each callback does to them.
* `Go.readLoop`: the limited read of a body that arrives in chunks.
* `Call.run_outbound`: the callbacks refine `Outbound`, where a settled promise is one value.
* `Go.readLoop_eq_readAll`: only the bytes count, not the reads they come in.
-/

namespace Webhooks

/-- `OutboundRequestResult`, its body as the bytes captured. -/
structure OutboundRequestResult where
  responseStatus : Option Nat
  captured : Bytes
  durationMs : Nat
  errorClass : Option NetworkErrorClass
  deriving DecidableEq, Repr

def OutboundRequestResult.failed (durationMs : Nat) (errorClass : NetworkErrorClass) :
    OutboundRequestResult :=
  ⟨none, [], durationMs, some errorClass⟩

def OutboundRequestResult.answered (status : Nat) (captured : Bytes) (durationMs : Nat) :
    OutboundRequestResult :=
  ⟨some status, captured, durationMs, none⟩

namespace Node

/-- By `err.code`, where the error has one. -/
def classifyError (code : Option String) : NetworkErrorClass :=
  if code = some "ECONNREFUSED" then .connectionRefused
  else if code = some "ENOTFOUND" then .dnsError
  else if code = some "ECONNRESET" then .connectionReset
  else .connectionError

/-- A callback of `sendOutboundRequest`. -/
inductive Callback where
  /-- The socket's `connect`, over TLS its `secureConnect`. -/
  | connect
  | response (statusCode : Nat)
  | data (chunk : Bytes)
  | ended
  | responseError
  | requestError (code : Option String)
  | connectTimer
  | totalTimer
  deriving DecidableEq, Repr

/-- The variables of one call.  `resolved` lists what `resolve` has been called with, and `response`
is the status of `res` with `received`, once there is a response. -/
structure Call where
  settled : Bool
  resolved : List OutboundRequestResult
  connectTimer : Bool
  totalTimer : Bool
  response : Option (Nat × Bytes)
  deriving DecidableEq, Repr

/-- Both timers are set. -/
def Call.start : Call where
  settled := false
  resolved := []
  connectTimer := true
  totalTimer := true
  response := none

def Call.finish (c : Call) (result : OutboundRequestResult) : Call :=
  if c.settled then c
  else
    { c with
      settled := true, connectTimer := false, totalTimer := false
      resolved := c.resolved ++ [result] }

/-- One callback, `durationMs` after the start.  A timer that has been cleared does not fire, `response`
is listened to once, and before it nobody listens to the response. -/
def Call.on (maxResponseBodyBytes : Nat) (c : Call) (durationMs : Nat) : Callback → Call
  | .connect => { c with connectTimer := false }
  | .connectTimer =>
      if c.connectTimer then
        { c with connectTimer := false }.finish (.failed durationMs .connectTimeout)
      else c
  | .totalTimer =>
      if c.totalTimer then
        { c with totalTimer := false }.finish (.failed durationMs .totalTimeout)
      else c
  | .requestError code => c.finish (.failed durationMs (classifyError code))
  | .response statusCode =>
      match c.response with
      | none => { c with response := some (statusCode, []) }
      | some _ => c
  | .data chunk =>
      match c.response with
      | none => c
      | some (statusCode, received) =>
          if c.settled then c
          else if maxResponseBodyBytes < received.length + chunk.length then
            { c with
              response := some (statusCode, (received ++ chunk).take maxResponseBodyBytes) }.finish
              (.answered statusCode ((received ++ chunk).take maxResponseBodyBytes) durationMs)
          else { c with response := some (statusCode, received ++ chunk) }
  | .ended | .responseError =>
      match c.response with
      | none => c
      | some (statusCode, received) => c.finish (.answered statusCode received durationMs)

/-- Callbacks in their order, each with its time. -/
def Call.onAll (maxResponseBodyBytes : Nat) (c : Call) (callbacks : List (Nat × Callback)) : Call :=
  callbacks.foldl (fun c cb => c.on maxResponseBodyBytes cb.1 cb.2) c

/-- All callbacks of one call. -/
def Call.run (maxResponseBodyBytes : Nat) (callbacks : List (Nat × Callback)) : Call :=
  Call.start.onAll maxResponseBodyBytes callbacks

end Node

namespace Go

/-- `io.ReadAll(io.LimitReader(body, limit))`, over what the reads of the body return: the bytes
read, and whether the deadline has ended it.  A read takes no more than is left of the limit, and
nothing is read once it is used up. -/
def readLoop (bodyEnd : BodyEnd) : Nat → List Bytes → Bytes × Bool
  | 0, _ => ([], false)
  | _ + 1, [] => ([], bodyEnd = .deadlineExceeded)
  | limit + 1, chunk :: chunks =>
      let (read, deadline) := readLoop bodyEnd (limit + 1 - chunk.length) chunks
      (chunk.take (limit + 1) ++ read, deadline)

/-- The rest of `SendOutboundRequest`, once `client.Do` has returned a response. -/
def readResponse (maxResponseBodyBytes durationMs status : Nat) (chunks : List Bytes)
    (bodyEnd : BodyEnd) : OutboundRequestResult :=
  let (body, deadline) := readLoop bodyEnd maxResponseBodyBytes chunks
  if deadline then .failed durationMs .totalTimeout else .answered status body durationMs

/-- Only the bytes count, not the reads they come in. -/
theorem readLoop_eq_readAll (limit : Nat) (chunks : List Bytes) (bodyEnd : BodyEnd) :
    readLoop bodyEnd limit chunks = readAll limit chunks.flatten bodyEnd := by
  induction chunks generalizing limit with
  | nil => cases limit <;> simp [readLoop, readAll]
  | cons chunk chunks ih =>
      cases limit with
      | zero => simp [readLoop, readAll]
      | succ limit =>
          simp only [readLoop, ih, readAll, List.flatten_cons, List.length_append, List.take_append,
            Prod.mk.injEq, true_and]
          congr 1
          rw [decide_eq_decide]
          omega

end Go

/-- The outcome of a result, its body as the text that is stored. -/
inductive OutboundRequestResult.HasOutcome (text : Bytes → Bytes) :
    OutboundRequestResult → AttemptOutcome → Prop where
  | failed (durationMs : Nat) (errorClass : NetworkErrorClass) :
      HasOutcome text (.failed durationMs errorClass) (.unanswered durationMs errorClass)
  | answered (status : Nat) (captured : Bytes) (durationMs : Nat) :
      HasOutcome text (.answered status captured durationMs)
        (.answered status (text captured) durationMs)

/-- A string of Go is its bytes. -/
theorem Go.readResponse_hasOutcome (max durationMs status : Nat) (chunks : List Bytes)
    (bodyEnd : BodyEnd) :
    (readResponse max durationMs status chunks bodyEnd).HasOutcome id
      (sendOutboundRequest max durationMs (.ok (status, chunks.flatten, bodyEnd))) := by
  simp only [readResponse, sendOutboundRequest, readLoop_eq_readAll]
  split
  · exact .failed durationMs .totalTimeout
  · exact .answered status _ durationMs

namespace Node

section

variable {max durationMs : Nat} {c : Call} {p : Outbound} {result : OutboundRequestResult}

theorem Call.onAll_append (before after : List (Nat × Callback)) :
    c.onAll max (before ++ after) = (c.onAll max before).onAll max after :=
  List.foldl_append

@[simp] theorem Call.onAll_cons (cb : Callback) (callbacks : List (Nat × Callback)) :
    c.onAll max ((durationMs, cb) :: callbacks) = (c.on max durationMs cb).onAll max callbacks :=
  rfl

@[simp] theorem Call.onAll_nil : c.onAll max [] = c := rfl

/-! ### The promise behind the variables -/

/-- The states a call can be in, each with the promise it implements.  Until it has settled the
total timer is set, and afterwards neither is. -/
inductive Call.Implements : Call → Outbound → Prop where
  | waiting (connectTimer : Bool) : Implements ⟨false, [], connectTimer, true, none⟩ .waiting
  | receiving (connectTimer : Bool) (status : Nat) (received : Bytes) :
      Implements ⟨false, [], connectTimer, true, some (status, received)⟩ (.receiving status received)
  | settled (response : Option (Nat × Bytes)) {result : OutboundRequestResult}
      {outcome : AttemptOutcome} (h : result.HasOutcome bodyText outcome) :
      Implements ⟨true, [result], false, false, response⟩ (.settled outcome)

/-- What a callback is to the promise: the connection is none of its business, nor is a timer that
does not fire. -/
def Call.event (c : Call) : Callback → Option OutboundEvent
  | .connect => none
  | .connectTimer => if c.connectTimer then some (.failed .connectTimeout) else none
  | .totalTimer => if c.totalTimer then some (.failed .totalTimeout) else none
  | .requestError code => some (.failed (classifyError code))
  | .response statusCode => some (.response statusCode)
  | .data chunk => some (.data chunk)
  | .ended | .responseError => some .ended

theorem Call.on_implements (h : c.Implements p) (cb : Callback) :
    (c.on max durationMs cb).Implements
      (match c.event cb with
        | none => p
        | some e => p.on max durationMs e) := by
  cases h with
  | waiting connectTimer =>
      cases cb with
      | connect => exact .waiting false
      | connectTimer =>
          cases connectTimer with
          | true => exact .settled none (.failed durationMs .connectTimeout)
          | false => exact .waiting false
      | totalTimer => exact .settled none (.failed durationMs .totalTimeout)
      | requestError code => exact .settled none (.failed durationMs (classifyError code))
      | response statusCode => exact .receiving connectTimer statusCode []
      | data chunk | ended | responseError => exact .waiting connectTimer
  | receiving connectTimer status received =>
      cases cb with
      | connect => exact .receiving false status received
      | connectTimer =>
          cases connectTimer with
          | true => exact .settled (some (status, received)) (.failed durationMs .connectTimeout)
          | false => exact .receiving false status received
      | totalTimer => exact .settled (some (status, received)) (.failed durationMs .totalTimeout)
      | requestError code =>
          exact .settled (some (status, received)) (.failed durationMs (classifyError code))
      | response statusCode => exact .receiving connectTimer status received
      | data chunk =>
          simp only [on, event, Outbound.on, Bool.false_eq_true, if_false]
          split
          · exact .settled _ (.answered status _ durationMs)
          · exact .receiving connectTimer status (received ++ chunk)
      | ended | responseError =>
          exact .settled (some (status, received)) (.answered status received durationMs)
  | settled response h =>
      cases cb with
      | connect | connectTimer | totalTimer => exact .settled response h
      | requestError code => exact .settled response h
      | response statusCode | data chunk | ended | responseError =>
          cases response <;> exact .settled _ h

/-- What the callbacks of an order are to the promise. -/
def Call.events (max : Nat) : Call → List (Nat × Callback) → List (Nat × OutboundEvent)
  | _, [] => []
  | c, (durationMs, cb) :: callbacks =>
      ((c.event cb).map (durationMs, ·)).toList ++ events max (c.on max durationMs cb) callbacks

theorem Call.onAll_implements (h : c.Implements p) (callbacks : List (Nat × Callback)) :
    (c.onAll max callbacks).Implements (p.run max (c.events max callbacks)) := by
  induction callbacks generalizing c p with
  | nil => exact h
  | cons x callbacks ih =>
      obtain ⟨durationMs, cb⟩ := x
      have himplements : (c.on max durationMs cb).Implements _ := c.on_implements h cb
      have hstep := ih himplements
      rw [onAll_cons, events]
      cases he : c.event cb with
      | none => simpa [he] using hstep
      | some e => simpa [he, Outbound.run] using hstep

/-- The callbacks of a call, in any order, settle the promise as their events do. -/
theorem Call.run_implements (callbacks : List (Nat × Callback)) :
    (Call.run max callbacks).Implements
      (sendOutboundRequest max (Call.start.events max callbacks)) :=
  Call.onAll_implements (.waiting true) callbacks

/-! ### After it has settled -/

/-- Resolved with `result`, and both timers cleared. -/
def Call.Settled (c : Call) (result : OutboundRequestResult) : Prop :=
  ∃ response, c = ⟨true, [result], false, false, response⟩

theorem Call.Settled.on (h : c.Settled result) (cb : Callback) :
    (c.on max durationMs cb).Settled result := by
  obtain ⟨response, rfl⟩ := h
  cases cb with
  | connect | connectTimer | totalTimer | requestError => exact ⟨response, rfl⟩
  | response | data | ended | responseError => cases response <;> exact ⟨_, rfl⟩

/-- No callback that fires later changes it. -/
theorem Call.Settled.onAll (h : c.Settled result) (callbacks : List (Nat × Callback)) :
    (c.onAll max callbacks).Settled result := by
  induction callbacks generalizing c with
  | nil => exact h
  | cons x callbacks ih => exact ih (h.on x.2)

end

end Node

end Webhooks
