import Webhooks.Worker.Response

/-!
# Properties — Settlement

What the outcome of a request is, over every order of its callbacks and every way its body arrives.

* `Terminal`: the callbacks that settle the promise, given those before them.
* `Call.run_eq`: up to the first of them, the variables are what the order says.
* **`settles_once`**: the first terminal callback settles the promise, with one of status and error
  class, and nothing after it does.
* `SameOutcome`: the two stacks read the same response alike, whatever the chunks.
* **`same_outcome_iff`**: they do unless the body fits and the connection is reset, or it has exactly as
  many bytes as are kept and then stalls, or one client acts on a header that the other leaves alone.
* `stalled_at_the_cap`: the second of these.
-/

namespace Webhooks

namespace Node

/-! ### The order of the callbacks -/

def Callback.chunk : Callback → Bytes
  | .data chunk => chunk
  | _ => []

/-- The response in an order: its status, and the chunks received since. -/
def received : List (Nat × Callback) → Option (Nat × Bytes)
  | [] => none
  | (_, .response status) :: callbacks =>
      some (status, (callbacks.map fun cb => cb.2.chunk).flatten)
  | _ :: callbacks => received callbacks

/-- The connection has been established. -/
def Established (before : List (Nat × Callback)) : Prop := ∃ cb ∈ before, cb.2 = .connect

instance (before : List (Nat × Callback)) : Decidable (Established before) :=
  inferInstanceAs (Decidable (∃ cb ∈ before, cb.2 = .connect))

/-- The callback settles the promise, when no callback before it has. -/
def Terminal (max : Nat) (before : List (Nat × Callback)) : Callback → Prop
  | .connect | .response _ => False
  | .data chunk =>
      ∃ status bytes, received before = some (status, bytes) ∧ max < bytes.length + chunk.length
  | .ended | .responseError => (received before).isSome
  | .requestError _ | .totalTimer => True
  | .connectTimer => ¬ Established before

/-- The callbacks of a call that opens its connection: without it there is no response. -/
def Opened (callbacks : List (Nat × Callback)) : Prop :=
  ∀ before after, callbacks = before ++ after → (received before).isSome → Established before

section

variable {max t : Nat} {cb : Callback} {before after callbacks : List (Nat × Callback)}

theorem received_append : received (before ++ [(t, cb)]) =
    match received before with
    | some (status, bytes) => some (status, bytes ++ cb.chunk)
    | none => match cb with
      | .response status => some (status, [])
      | _ => none := by
  induction before with
  | nil => cases cb <;> rfl
  | cons x before ih =>
      obtain ⟨t', cb'⟩ := x
      cases cb' <;> simp_all [received]

theorem established_append : Established (before ++ [(t, cb)]) ↔ Established before ∨ cb = .connect := by
  simp [Established, or_and_right, exists_or]

/-- No callback of the order settles the promise. -/
def Unsettled (max : Nat) (callbacks : List (Nat × Callback)) : Prop :=
  ∀ before cb after, callbacks = before ++ cb :: after → ¬ Terminal max before cb.2

theorem Unsettled.append :
    Unsettled max (before ++ [(t, cb)]) ↔ Unsettled max before ∧ ¬ Terminal max before cb := by
  constructor
  · intro h
    refine ⟨fun b x after hb => h b x (after ++ [(t, cb)]) ?_, h before (t, cb) [] rfl⟩
    rw [hb, List.append_assoc, List.cons_append]
  · rintro ⟨hbefore, hcb⟩ b x after h
    rcases List.eq_nil_or_concat after with rfl | ⟨after, y, rfl⟩
    · obtain ⟨rfl, hx⟩ := List.append_inj' h rfl
      rw [← (List.cons.inj hx).1]
      exact hcb
    · refine hbefore b x after ?_
      rw [List.concat_eq_append, ← List.cons_append, ← List.append_assoc] at h
      exact (List.append_inj' h rfl).1

/-- What is received before the promise settles fits. -/
theorem Unsettled.length_le (h : Unsettled max callbacks) {status : Nat} {bytes : Bytes}
    (hr : received callbacks = some (status, bytes)) : bytes.length ≤ max := by
  induction callbacks using List.reverseRecOn generalizing bytes with
  | nil => cases hr
  | append_singleton before x ih =>
      obtain ⟨t, cb⟩ := x
      obtain ⟨hbefore, hcb⟩ := Unsettled.append.1 h
      rw [received_append] at hr
      cases hb : received before with
      | none =>
          rw [hb] at hr
          cases cb <;> cases hr
          exact Nat.zero_le max
      | some r =>
          obtain ⟨status', bytes'⟩ := r
          rw [hb] at hr
          cases hr
          have hle := ih hbefore hb
          cases cb with
          | data chunk =>
              refine le_of_not_gt fun hlt => hcb ⟨status, bytes', hb, ?_⟩
              rwa [List.length_append] at hlt
          | _ => simpa [Callback.chunk] using hle

/-- Up to the first terminal callback, the variables are what the order says. -/
theorem Call.run_eq (h : Unsettled max callbacks) :
    Call.run max callbacks =
      ⟨false, [], !decide (Established callbacks), true, received callbacks⟩ := by
  induction callbacks using List.reverseRecOn with
  | nil => rfl
  | append_singleton before x ih =>
      obtain ⟨t, cb⟩ := x
      obtain ⟨hbefore, hcb⟩ := Unsettled.append.1 h
      rw [Call.run, onAll_append, ← Call.run, ih hbefore, received_append]
      simp only [onAll_cons, onAll_nil, established_append]
      cases cb with
      | connect => cases hr : received before <;> simp [Call.on, Callback.chunk]
      | connectTimer =>
          have hest : Established before := not_not.1 hcb
          cases hr : received before <;> simp [Call.on, Callback.chunk, hest]
      | totalTimer | requestError => exact absurd trivial hcb
      | response => cases hr : received before <;> simp [Call.on, Callback.chunk]
      | data chunk =>
          cases hr : received before with
          | none => simp [Call.on]
          | some r =>
              have hfits : ¬ max < r.2.length + chunk.length := fun hlt => hcb ⟨_, _, hr, hlt⟩
              simp [Call.on, Callback.chunk, hfits]
      | ended | responseError =>
          have hr : received before = none := Option.not_isSome_iff_eq_none.1 hcb
          simp [Call.on, hr]

/-- What is true of a result, given the callback that it is the result of and those before. -/
structure Consistent (max : Nat) (before : List (Nat × Callback)) (t : Nat) (cb : Callback)
    (result : OutboundRequestResult) : Prop where
  durationMs : result.durationMs = t
  one : result.responseStatus.isSome ↔ result.errorClass = none
  status : ∀ status, result.responseStatus = some status →
    ∃ bytes, received before = some (status, bytes)
  connectTimeout : result.errorClass = some .connectTimeout → ¬ Established before
  captured : result.captured <+: (received (before ++ [(t, cb)])).elim [] Prod.snd
  length_le : result.captured.length ≤ max

theorem Consistent.failed {errorClass : NetworkErrorClass}
    (h : errorClass = .connectTimeout → ¬ Established before) :
    Consistent max before t cb (.failed t errorClass) where
  durationMs := rfl
  one := by simp [OutboundRequestResult.failed]
  status := nofun
  connectTimeout := fun he => h (Option.some.inj he)
  captured := List.nil_prefix
  length_le := Nat.zero_le max

theorem Consistent.answered {status : Nat} {bytes captured : Bytes}
    (hr : received before = some (status, bytes)) (hc : captured <+: bytes ++ cb.chunk)
    (hlen : captured.length ≤ max) : Consistent max before t cb (.answered status captured t) where
  durationMs := rfl
  one := by simp [OutboundRequestResult.answered]
  status := by
    rintro _ ⟨⟩
    exact ⟨bytes, hr⟩
  connectTimeout := nofun
  captured := by
    rw [received_append, hr]
    exact hc
  length_le := hlen

theorem classifyError_ne_connectTimeout (code : Option String) :
    classifyError code ≠ .connectTimeout := by
  unfold classifyError
  split_ifs <;> nofun

/-- The first terminal callback settles the promise. -/
theorem Call.on_terminal (h : Unsettled max before) (hcb : Terminal max before cb) :
    ∃ result, ((Call.run max before).on max t cb).Settled result ∧ Consistent max before t cb result := by
  rw [Call.run_eq h]
  cases cb with
  | connect | response => exact hcb.elim
  | connectTimer =>
      refine ⟨.failed t .connectTimeout, ⟨received before, ?_⟩, .failed fun _ => hcb⟩
      have hest : ¬ Established before := hcb
      simp [Call.on, Call.finish, hest]
  | totalTimer => exact ⟨_, ⟨received before, rfl⟩, .failed fun h => by cases h⟩
  | requestError code =>
      exact ⟨_, ⟨received before, rfl⟩, .failed fun he => absurd he (classifyError_ne_connectTimeout code)⟩
  | data chunk =>
      obtain ⟨status, bytes, hr, hlt⟩ := hcb
      refine ⟨.answered status ((bytes ++ chunk).take max) t,
        ⟨some (status, (bytes ++ chunk).take max), ?_⟩,
        .answered hr (List.take_prefix _ _) (List.length_take_le _ _)⟩
      simp [Call.on, Call.finish, hr, hlt]
  | ended | responseError =>
      obtain ⟨⟨status, bytes⟩, hr⟩ := Option.isSome_iff_exists.1 hcb
      refine ⟨.answered status bytes t, ⟨some (status, bytes), ?_⟩,
        .answered hr (List.prefix_append _ _) (h.length_le hr)⟩
      simp [Call.on, Call.finish, hr]

/-- An order without a terminal callback, or the first of them. -/
theorem unsettled_or_terminal (max : Nat) (callbacks : List (Nat × Callback)) :
    Unsettled max callbacks ∨ ∃ before cb after, callbacks = before ++ cb :: after ∧
      Unsettled max before ∧ Terminal max before cb.2 := by
  induction callbacks using List.reverseRecOn with
  | nil => exact .inl fun b x a h => by simp at h
  | append_singleton before x ih =>
      rcases ih with h | ⟨b, cb, after, rfl, h⟩
      · by_cases hx : Terminal max before x.2
        · exact .inr ⟨before, x, [], rfl, h, hx⟩
        · exact .inl (Unsettled.append.2 ⟨h, hx⟩)
      · exact .inr ⟨b, cb, after ++ [x], by simp, h⟩

/-- For every order of the callbacks: while none of them is terminal the promise is pending, and the
first that is settles it, with a consistent result, whatever fires later.  A call that opens its
connection, as all of a worker do, has no response either when it reports a connect timeout. -/
theorem settles_once (max : Nat) (callbacks : List (Nat × Callback)) :
    (Unsettled max callbacks ∧ (Call.run max callbacks).resolved = []) ∨
    ∃ before t cb after result, callbacks = before ++ (t, cb) :: after ∧ Unsettled max before ∧
      Terminal max before cb ∧
      (∀ later, (Call.run max (before ++ (t, cb) :: later)).resolved = [result]) ∧
      Consistent max before t cb result ∧
      (Opened callbacks → result.errorClass = some .connectTimeout → received before = none) := by
  rcases unsettled_or_terminal max callbacks with h | ⟨before, ⟨t, cb⟩, after, heq, h, hcb⟩
  · refine .inl ⟨h, ?_⟩
    rw [Call.run_eq h]
  · obtain ⟨result, hsettled, hcons⟩ := Call.on_terminal (t := t) h hcb
    refine .inr ⟨before, t, cb, after, result, heq, h, hcb, fun later => ?_, hcons, fun ho he => ?_⟩
    · obtain ⟨response, hrun⟩ : Call.Settled (Call.onAll max _ later) result := hsettled.onAll later
      rw [Call.run, Call.onAll_append, ← Call.run, Call.onAll_cons, hrun]
    · exact Option.not_isSome_iff_eq_none.1 fun hr => hcons.connectTimeout he (ho before _ heq hr)

end

end Node

/-! ### The judgement of a response -/

/-- What a result says, its duration aside. -/
def OutboundRequestResult.judgement (result : OutboundRequestResult) :
    Option Nat × Option NetworkErrorClass × Bytes :=
  (result.responseStatus, result.errorClass, result.captured)

/-- Both stacks judge the response the same, whatever the chunks its body comes in, and with a status
they keep the first bytes of the body. -/
def SameOutcome (gunzip : Bytes → Go.BodyEnd → Bytes × Go.BodyEnd) (max : Nat) (r : OutboundResponse) :
    Prop :=
  ∃ judgement : Option Nat × Option NetworkErrorClass × Bytes,
    (∀ connectedAt respondedAt endedAt chunks, Node.bodyOf chunks = r.body →
      (Node.Call.run max (Node.responseCallbacks connectedAt respondedAt endedAt r chunks)).resolved.map
        (·.judgement) = [judgement]) ∧
    (∀ durationMs chunks, chunks.flatten = (Go.respBody gunzip r).1 →
      (Go.receive gunzip max durationMs r chunks).map (·.judgement) = some judgement) ∧
    (judgement.1.isSome → judgement.2.2 = r.body.take max)

/-- Go reads a text for the body, of which it keeps what Node keeps: it waits for the deadline only where
Node does, and else the first bytes are the same. -/
def ReadAlike (max : Nat) (r : OutboundResponse) (text : Bytes × Go.BodyEnd) : Prop :=
  if text.2 = .deadlineExceeded ∧ text.1.length < max then r.ending = .stalled ∧ r.body.length ≤ max
  else (r.ending = .reset ∨ r.ending = .stalled → max < r.body.length) ∧
    text.1.take max = r.body.take max

section

variable {gunzip : Bytes → Go.BodyEnd → Bytes × Go.BodyEnd} {max status durationMs : Nat}
  {r : OutboundResponse}

/-- From what is received so far: the chunks settle the promise, or all of them fit. -/
theorem Node.Call.onAll_data (chunks : List (Nat × Bytes)) (bytes : Bytes) (hfits : bytes.length ≤ max) :
    let c : Call := ⟨false, [], false, true, some (status, bytes)⟩
    if max < bytes.length + (bodyOf chunks).length then
      ∃ t, (c.onAll max (dataCallbacks chunks)).Settled
        (.answered status ((bytes ++ bodyOf chunks).take max) t)
    else
      c.onAll max (dataCallbacks chunks) =
        ⟨false, [], false, true, some (status, bytes ++ bodyOf chunks)⟩ := by
  induction chunks generalizing bytes with
  | nil =>
      simp [bodyOf, dataCallbacks, Nat.not_lt.2 hfits]
  | cons c chunks ih =>
      obtain ⟨t, chunk⟩ := c
      have hbody : bodyOf ((t, chunk) :: chunks) = chunk ++ bodyOf chunks := rfl
      simp only [hbody, dataCallbacks, List.map_cons, onAll_cons, on, Bool.false_eq_true, if_false]
      rw [← List.append_assoc, List.length_append, ← Nat.add_assoc, ← List.length_append]
      by_cases hlt : max < (bytes ++ chunk).length
      · rw [if_pos (Nat.lt_add_right _ hlt), if_pos hlt, List.take_append_of_le_length hlt.le]
        exact ⟨t, Settled.onAll ⟨_, rfl⟩ _⟩
      · rw [if_neg hlt]
        exact ih (bytes ++ chunk) (Nat.le_of_not_lt hlt)

/-- What Node makes of a response. -/
def Node.judgementOf (max : Nat) (r : OutboundResponse) :
    Option Nat × Option NetworkErrorClass × Bytes :=
  if r.switches then (none, some .totalTimeout, [])
  else if max < r.body.length then (some r.status, none, r.body.take max)
  else
    match r.ending with
    | .complete | .closed => (some r.status, none, r.body)
    | .reset => (none, some .connectionReset, [])
    | .stalled => (none, some .totalTimeout, [])

theorem Node.judgement_response (connectedAt respondedAt endedAt : Nat) (chunks : List (Nat × Bytes))
    (hbody : bodyOf chunks = r.body) :
    (Call.run max (responseCallbacks connectedAt respondedAt endedAt r chunks)).resolved.map
      (·.judgement) = [judgementOf max r] := by
  rw [Call.run, responseCallbacks, judgementOf]
  cases hswitches : r.switches with
  | true => rfl
  | false =>
  simp only [Bool.false_eq_true, if_false]
  have hdata := @Call.onAll_data max r.status chunks [] (Nat.zero_le max)
  simp only [List.length_nil, Nat.zero_add, List.nil_append, hbody] at hdata
  rw [Call.onAll_cons, Call.onAll_cons, Call.onAll_append]
  split at hdata
  case isTrue hlt =>
    obtain ⟨t, hsettled⟩ := hdata
    obtain ⟨response, hrun⟩ : Call.Settled (Call.onAll max _ _) _ :=
      hsettled.onAll [(endedAt, ending r.ending)]
    rw [if_pos hlt]
    exact congrArg (fun c : Call => c.resolved.map (·.judgement)) hrun
  case isFalse hfits =>
    rw [if_neg hfits]
    refine (congrArg (fun c : Call => (c.onAll max _).resolved.map (·.judgement)) hdata).trans ?_
    cases r.ending <;> rfl

/-- What Go makes of a response. -/
def Go.judgementOf (gunzip : Bytes → BodyEnd → Bytes × BodyEnd) (max : Nat) (r : OutboundResponse) :
    Option (Option Nat × Option NetworkErrorClass × Bytes) :=
  let (text, bodyEnd) := respBody gunzip r
  if r.isRedirect && r.badLocation then some (none, some .connectionError, [])
  else if bodyEnd = .deadlineExceeded ∧ text.length < max then
    if r.switches then none else some (none, some .totalTimeout, [])
  else some (some r.status, none, text.take max)

theorem Go.judgement_receive (chunks : List Bytes) (hchunks : chunks.flatten = (respBody gunzip r).1) :
    (receive gunzip max durationMs r chunks).map (·.judgement) = judgementOf gunzip max r := by
  simp only [receive, readResponse, judgementOf, readLoop_eq_readAll, readAll, hchunks, Bool.and_eq_true,
    decide_eq_true_eq, and_comm (a := (respBody gunzip r).1.length < max)]
  split
  · rfl
  split
  · next h => rw [if_pos h.2, if_pos h.1]; rfl
  · next h =>
      split
      · next hdeadline => rw [if_neg fun hs => h ⟨hs, hdeadline⟩]; rfl
      · rfl

/-- The stacks agree on a response when what they make of it is the same. -/
theorem sameOutcome_iff_judgementOf :
    SameOutcome gunzip max r ↔ Go.judgementOf gunzip max r = some (Node.judgementOf max r) := by
  constructor
  · rintro ⟨judgement, hnode, hgo, -⟩
    have hn := hnode 0 0 0 [(0, r.body)] (by simp [Node.bodyOf])
    have hg := hgo 0 [(Go.respBody gunzip r).1] (by simp)
    rw [Node.judgement_response _ _ _ _ (by simp [Node.bodyOf]), List.cons.injEq] at hn
    rw [Go.judgement_receive _ (by simp)] at hg
    rw [hg, hn.1]
  · intro h
    refine ⟨Node.judgementOf max r, Node.judgement_response, fun durationMs chunks hchunks => ?_, ?_⟩
    · rw [Go.judgement_receive chunks hchunks, h]
    · rw [Node.judgementOf]
      cases r.switches with
      | true => exact fun h => by cases h
      | false =>
      by_cases hfits : max < r.body.length
      · rw [if_pos hfits]
        exact fun _ => rfl
      · have htake := List.take_of_length_le (Nat.le_of_not_lt hfits)
        rw [if_neg hfits]
        cases r.ending with
        | complete | closed => exact fun _ => htake.symm
        | reset | stalled => exact fun h => by cases h

/-- Node never tells of a switch, and Go never of a timeout. -/
theorem switches_judgementOf_ne (h : r.switches = true) :
    Go.judgementOf gunzip max r ≠ some (Node.judgementOf max r) := by
  rw [Go.judgementOf, Node.judgementOf, if_pos h, if_pos h]
  dsimp only
  split
  · nofun
  split <;> nofun

/-- Node never reports such an error once there is a response. -/
theorem badLocation_judgementOf_ne (hswitches : r.switches = false)
    (h : r.isRedirect = true ∧ r.badLocation = true) :
    Go.judgementOf gunzip max r ≠ some (Node.judgementOf max r) := by
  rw [← Bool.and_eq_true] at h
  simp only [Go.judgementOf, Node.judgementOf, if_pos h, hswitches, Bool.false_eq_true, if_false]
  split
  · nofun
  · cases r.ending <;> nofun

/-- A response over HTTP to its end, with a `Location` that is a URL where Go looks at it. -/
theorem judgementOf_eq_iff (hswitches : r.switches = false)
    (hlocation : ¬ (r.isRedirect = true ∧ r.badLocation = true)) :
    Go.judgementOf gunzip max r = some (Node.judgementOf max r) ↔
      ReadAlike max r (Go.respBody gunzip r) := by
  rw [← Bool.and_eq_true] at hlocation
  simp only [Go.judgementOf, Node.judgementOf, ReadAlike, if_neg hlocation, hswitches, Bool.false_eq_true,
    if_false]
  obtain ⟨text, bodyEnd⟩ := Go.respBody gunzip r
  dsimp only
  by_cases hstalls : bodyEnd = .deadlineExceeded ∧ text.length < max
  · rw [if_pos hstalls, if_pos hstalls]
    by_cases hfits : max < r.body.length
    · rw [if_pos hfits]
      exact iff_of_false nofun fun h => absurd h.2 (Nat.not_le_of_lt hfits)
    · rw [if_neg hfits]
      cases r.ending <;> simp [Nat.le_of_not_lt hfits]
  · rw [if_neg hstalls, if_neg hstalls]
    by_cases hfits : max < r.body.length
    · rw [if_pos hfits]
      simp [hfits]
    · rw [if_neg hfits]
      have htake := List.take_of_length_le (Nat.le_of_not_lt hfits)
      cases r.ending <;> simp [hfits, htake]

/-- The body as it is. -/
theorem readAlike_body_iff : ReadAlike max r (r.body, Go.bodyEnd r.ending) ↔
    ¬ (r.ending = .reset ∧ r.body.length ≤ max) ∧ ¬ (r.ending = .stalled ∧ r.body.length = max) := by
  unfold ReadAlike
  cases r.ending with
  | complete | closed => simp [Go.bodyEnd]
  | reset => simp [Go.bodyEnd]
  | stalled =>
      simp only [Go.bodyEnd, true_and]
      split
      · next h => exact iff_of_true (Nat.le_of_lt h) ⟨nofun, h.ne⟩
      · next h =>
          simp only [or_true, true_imp_iff, and_true, reduceCtorEq, false_and, not_false_eq_true, true_and]
          omega

/-- For every cap and response, the stacks agree on it unless it switches the protocol, Go cannot parse the
`Location` of a redirect, or the body fits: with a reset, or with a stall right at the cap, or decompressed
to something else. -/
theorem same_outcome_iff (gunzip : Bytes → Go.BodyEnd → Bytes × Go.BodyEnd) (max : Nat)
    (r : OutboundResponse) :
    SameOutcome gunzip max r ↔
      r.switches = false ∧ ¬ (r.isRedirect = true ∧ r.badLocation = true) ∧
        if r.gzip then ReadAlike max r (gunzip r.body (Go.bodyEnd r.ending))
        else ¬ (r.ending = .reset ∧ r.body.length ≤ max) ∧
          ¬ (r.ending = .stalled ∧ r.body.length = max) := by
  rw [sameOutcome_iff_judgementOf]
  cases hswitches : r.switches with
  | true => exact iff_of_false (switches_judgementOf_ne hswitches) fun h => by cases h.1
  | false =>
  by_cases hlocation : r.isRedirect = true ∧ r.badLocation = true
  · exact iff_of_false (badLocation_judgementOf_ne hswitches hlocation) fun h => h.2.1 hlocation
  rw [judgementOf_eq_iff hswitches hlocation, Go.respBody, hswitches, Bool.not_false, Bool.and_true,
    and_iff_right rfl, and_iff_right hlocation]
  cases r.gzip with
  | true => rfl
  | false => exact readAlike_body_iff

end

/-- Three bytes of a body arrive, three are kept, and then the receiver stalls: Go delivers, Node does
not. -/
theorem stalled_at_the_cap :
    let r : OutboundResponse := ⟨200, false, false, false, [79, 75, 33], .stalled⟩
    (Node.Call.run 3 (Node.responseCallbacks 1 2 10000 r [(3, [79, 75, 33])])).resolved =
        [.failed 10000 .totalTimeout] ∧
      Go.receive Prod.mk 3 3 r [[79, 75, 33]] = some (.answered 200 [79, 75, 33] 3) ∧
      ¬ SameOutcome Prod.mk 3 r := by
  refine ⟨by decide, by decide, ?_⟩
  rintro ⟨judgement, hnode, hgo, -⟩
  have hn := hnode 1 2 10000 [(3, [79, 75, 33])] rfl
  have hg := hgo 3 [[79, 75, 33]] rfl
  have hn' : (none, some NetworkErrorClass.totalTimeout, []) = judgement := (List.cons.inj hn).1
  have hg' : (some 200, none, [79, 75, 33]) = judgement := Option.some_inj.mp hg
  rw [← hg'] at hn'
  cases hn'

end Webhooks
