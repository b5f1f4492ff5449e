import Webhooks.Lib.Utf8
import Webhooks.Worker.Complete

/-!
# Worker — Outbound

What becomes of an issued request (`httpClient.ts`, `httpclient.go`), from the first event on its
connection to the outcome that is written back.

* `Node.sendOutboundRequest`: the events settle the promise; the first one that does wins.
* `Go.sendOutboundRequest`: the response is read to its end, to the body cap, or to an error.
-/

namespace Webhooks

/-- `NetworkErrorClass`. -/
inductive NetworkErrorClass where
  | connectTimeout | totalTimeout | connectionRefused | dnsError | connectionReset | connectionError
  deriving DecidableEq, Repr

def NetworkErrorClass.toAttempt : NetworkErrorClass → AttemptErrorClass
  | .connectTimeout => .connectTimeout
  | .totalTimeout => .totalTimeout
  | .connectionRefused => .connectionRefused
  | .dnsError => .dnsError
  | .connectionReset => .connectionReset
  | .connectionError => .connectionError

/-- No response arrived. -/
def AttemptOutcome.unanswered (durationMs : Nat) (errorClass : NetworkErrorClass) : AttemptOutcome where
  responseStatus := none
  responseBodyTruncated := []
  durationMs := durationMs
  errorClass := some errorClass.toAttempt
  settled := rfl
  notExpired := by cases errorClass <;> decide

namespace Node

/-- An event of `sendOutboundRequest`'s request, response or timers. -/
inductive OutboundEvent where
  /-- A timer fires, or the request emits `error`. -/
  | failed (errorClass : NetworkErrorClass)
  | response (statusCode : Nat)
  | data (chunk : Bytes)
  /-- The response emits `end` or `error`. -/
  | ended
  deriving DecidableEq, Repr

/-- How far the promise is. -/
inductive Outbound where
  | waiting
  | receiving (statusCode : Nat) (received : Bytes)
  | settled (result : AttemptOutcome)
  deriving DecidableEq, Repr

/-- `received.toString("utf8")`, as the bytes `pg` sends for it. -/
def bodyText (received : Bytes) : Bytes := Lib.Utf8.encode (Lib.Utf8.decode received)

/-- One event, `durationMs` after the start. -/
def Outbound.on (maxResponseBodyBytes : Nat) (p : Outbound) (durationMs : Nat) :
    OutboundEvent → Outbound
  | .failed errorClass =>
      match p with
      | .settled _ => p
      | _ => .settled (.unanswered durationMs errorClass)
  | .response statusCode =>
      match p with
      | .waiting => .receiving statusCode []
      | _ => p
  | .data chunk =>
      match p with
      | .receiving statusCode received =>
          if maxResponseBodyBytes < received.length + chunk.length then
            .settled (.answered statusCode
              (bodyText ((received ++ chunk).take maxResponseBodyBytes)) durationMs)
          else .receiving statusCode (received ++ chunk)
      | _ => p
  | .ended =>
      match p with
      | .receiving statusCode received =>
          .settled (.answered statusCode (bodyText received) durationMs)
      | _ => p

/-- One event after the other, each with its time. -/
def Outbound.run (maxResponseBodyBytes : Nat) : Outbound → List (Nat × OutboundEvent) → Outbound
  | p, [] => p
  | p, (durationMs, e) :: events => (p.on maxResponseBodyBytes durationMs e).run maxResponseBodyBytes events

/-- `sendOutboundRequest`, over the events of its request. -/
def sendOutboundRequest (maxResponseBodyBytes : Nat) (events : List (Nat × OutboundEvent)) : Outbound :=
  Outbound.waiting.run maxResponseBodyBytes events

end Node

namespace Go

/-- How the stream of a response body ends. -/
inductive BodyEnd where
  | eof
  /-- The total timeout. -/
  | deadlineExceeded
  | otherError
  deriving DecidableEq, Repr

/-- `io.ReadAll(io.LimitReader(body, limit))`: what is read, and whether the deadline was.  At the
limit the reader reports the end without looking at the stream again. -/
def readAll (limit : Nat) (body : Bytes) (bodyEnd : BodyEnd) : Bytes × Bool :=
  (body.take limit, body.length < limit && bodyEnd = .deadlineExceeded)

/-- `SendOutboundRequest`: what `client.Do` returned, and the body that could be read. -/
def sendOutboundRequest (maxResponseBodyBytes : Nat) (durationMs : Nat) :
    Except NetworkErrorClass (Nat × Bytes × BodyEnd) → AttemptOutcome
  | .error errorClass => .unanswered durationMs errorClass
  | .ok (statusCode, body, bodyEnd) =>
      let (read, deadline) := readAll maxResponseBodyBytes body bodyEnd
      if deadline then .unanswered durationMs .totalTimeout
      else .answered statusCode read durationMs

end Go

section

variable {cap status : Nat}

/-! ### How a body arrives does not matter -/

namespace Node

/-- The chunks of a body and its end, each with its time. -/
def bodyEvents (endedAt : Nat) : List (Nat × Bytes) → List (Nat × OutboundEvent)
  | [] => [(endedAt, .ended)]
  | (t, chunk) :: chunks => (t, .data chunk) :: bodyEvents endedAt chunks

/-- The bytes of the chunks. -/
def bodyOf (chunks : List (Nat × Bytes)) : Bytes := (chunks.map Prod.snd).flatten

theorem Outbound.run_settled (result : AttemptOutcome) (events : List (Nat × OutboundEvent)) :
    (Outbound.settled result).run cap events = .settled result := by
  induction events with
  | nil => rfl
  | cons e events ih =>
      obtain ⟨t, e⟩ := e
      cases e <;> exact ih

/-- From what is received so far, chunks and the end settle the promise with the first `cap` bytes
of it all. -/
theorem Outbound.run_receiving (endedAt : Nat) (chunks : List (Nat × Bytes)) (received : Bytes)
    (hr : received.length ≤ cap) :
    ∃ durationMs, (Outbound.receiving status received).run cap (bodyEvents endedAt chunks) =
      .settled (.answered status (bodyText ((received ++ bodyOf chunks).take cap)) durationMs) := by
  induction chunks generalizing received with
  | nil =>
      refine ⟨endedAt, ?_⟩
      simp [bodyEvents, bodyOf, Outbound.run, Outbound.on, List.take_of_length_le hr]
  | cons c chunks ih =>
      obtain ⟨t, chunk⟩ := c
      simp only [bodyEvents, Outbound.run, Outbound.on]
      by_cases hcap : cap < received.length + chunk.length
      · rw [if_pos hcap, run_settled]
        refine ⟨t, ?_⟩
        have hlen : cap ≤ (received ++ chunk).length := by
          rw [List.length_append]
          exact hcap.le
        have hbody : received ++ bodyOf ((t, chunk) :: chunks) = received ++ chunk ++ bodyOf chunks := by
          simp [bodyOf]
        rw [hbody, List.take_append_of_le_length hlen]
      · rw [if_neg hcap]
        obtain ⟨durationMs, h⟩ := ih (received ++ chunk)
          (by rw [List.length_append]; exact Nat.le_of_not_lt hcap)
        refine ⟨durationMs, h.trans ?_⟩
        simp [bodyOf]

/-- Whatever its chunks, a response settles the promise with the first `cap` bytes of its body. -/
theorem sendOutboundRequest_response (respondedAt endedAt : Nat) (chunks : List (Nat × Bytes)) :
    ∃ durationMs, sendOutboundRequest cap
      ((respondedAt, .response status) :: bodyEvents endedAt chunks) =
      .settled (.answered status (bodyText ((bodyOf chunks).take cap)) durationMs) :=
  Outbound.run_receiving endedAt chunks [] (Nat.zero_le _)

end Node

/-! ### What Postgres accepts of it -/

/-- Decoded text is valid UTF-8, so only a NUL is refused. -/
theorem acceptsText_bodyText {b : Bytes} : acceptsText (Node.bodyText b) = true ↔ 0 ∉ b := by
  simp [acceptsText, Node.bodyText, Lib.Utf8.isValidUTF8_encode, Lib.Utf8.zero_mem_encode,
    Lib.Utf8.nul_mem_decode]

/-- Raw bytes have to be valid by themselves. -/
theorem acceptsText_iff {b : Bytes} :
    acceptsText b = true ↔ b.toByteArray.IsValidUTF8 ∧ 0 ∉ b := by
  simp [acceptsText]

end

end Webhooks
