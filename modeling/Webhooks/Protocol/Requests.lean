import Webhooks.Lib.Upsert
import Webhooks.Protocol.Publish

/-!
# Protocol — Requests

The two idempotent requests, `POST /events` and `POST /endpoints/:id/replays`, are the calls of
`Lib.Upsert`: an event is found by its tenant and key, a replay by its endpoint and key.

* `publishView`, **`step_publishView`**: what a step is to the publish calls.
* **`publishRequests_of_run`**: the library's invariant in every run.
* `replayView`, **`step_replayView`**, **`replayRequests_of_run`**: the same for replay calls.
-/

namespace Webhooks

open Lib

/-! ### Publish requests -/

def publishSpec : Upsert.Spec PublishRequest Event (Uuid × String) Uuid where
  requestKey r := (r.tenantId, r.idempotencyKey)
  key e := (e.tenantId, e.idempotencyKey)
  id e := e.id
  Made r e := (e.tenantId = r.tenantId ∧ e.idempotencyKey = r.idempotencyKey) ∧ e.type = r.type ∧
    e.payload = r.payload
  key_of_made h := by rw [h.1.1, h.1.2]

theorem PublishRequest.conflicts_iff {r : PublishRequest} {e : Event} :
    r.conflicts e = true ↔ publishSpec.key e = publishSpec.requestKey r := by
  simp only [PublishRequest.conflicts, Bool.and_eq_true, decide_eq_true_eq]
  exact Prod.mk_inj.symm

/-- Where the call stands, for the library. -/
def PublishCall.view : PublishCall → Upsert.Call PublishRequest Event Uuid
  | .idle => .idle
  | .arrived r => .arrived r
  | .inserting row => .inserting row
  | .conflicted r => .conflicted r
  | .answering id _ | .acked id _ => .answered id
  | .rejected | .failed => .failed

/-- The publish path after the labels `ls`. -/
def publishView (ls : List Label) (s : Sys) : Upsert.State CallId PublishRequest Event Uuid where
  rows := s.store.events
  uncommitted := s.uncommitted
  drawn id := id < s.store.uuids
  calls c := (s.calls c).view
  requested c r := Label.request c r ∈ ls

section

variable {cfg : Config} {s s' : Sys} {l : Label} {ls : List Label} {tenants : List Tenant}

theorem requested_append (hl : ∀ c r, l ≠ .request c r) :
    (publishView (ls ++ [l]) s').requested = (publishView ls s).requested := by
  funext c r
  simp only [publishView, List.mem_append, List.mem_singleton, eq_iff_iff]
  exact or_iff_left fun h => hl c r h.symm

theorem view_moves {c : CallId} (call : PublishCall) {s₁ : Sys} (h : s₁.calls = s.calls) :
    Upsert.Moves c call.view (publishView ls s) (publishView (ls ++ [l]) (s₁.setCall c call)) where
  call := congrArg PublishCall.view (Sys.setCall_calls_self ..)
  others c' hc := by
    refine congrArg PublishCall.view ((Sys.setCall_calls_of_ne hc _).trans ?_)
    rw [h]

/-- A step that leaves the calls alone writes at most the status of events. -/
theorem step_publishView_quiet (hl : ∀ c r, l ≠ .request c r) (src : Option Event)
    (hev : s'.store.events = expandEvents src s.store.events) (hun : s'.uncommitted = s.uncommitted)
    (hcalls : ∀ c, (s'.calls c).view = (s.calls c).view) :
    Upsert.Step publishSpec (publishView ls s) (publishView (ls ++ [l]) s') := by
  cases src with
  | none =>
      exact .write id (fun _ => rfl) (fun _ => rfl) (fun _ _ h => h)
        (hev.trans (List.map_id _).symm) hun (funext hcalls) (requested_append hl)
  | some e =>
      refine .write (fun e' => if e'.id = e.id then { e' with status := .expanded } else e')
        (fun e' => ?_) (fun e' => ?_) (fun r e' hm => ?_) (hev.trans ?_) hun (funext hcalls)
        (requested_append hl)
      · split <;> rfl
      · split <;> rfl
      · split
        · exact hm
        · exact hm
      · simp only [expandEvents, Table.update, decide_eq_true_eq]
        rfl

/-- A call's statement, for the library. -/
theorem publishStep_view {c : CallId} (h : publishStep s c = some s') :
    Upsert.Step publishSpec (publishView ls s) (publishView (ls ++ [.publish c]) s') := by
  have hreq : ∀ c' r, Label.publish c ≠ .request c' r := nofun
  simp only [publishStep] at h
  split at h
  case h_1 | h_2 | h_3 | h_4 => cases h
  case h_5 r hc =>
      split at h
      · cases h
      next hun =>
      split at h
      next hev =>
        cases h
        obtain ⟨e, he, hconf⟩ := List.any_eq_true.mp hev
        exact .conflict c r e (congrArg PublishCall.view hc) he (PublishRequest.conflicts_iff.mp hconf)
          ⟨rfl, rfl⟩ (view_moves (.conflicted r) rfl) (requested_append hreq)
      · next hev =>
          cases h
          -- neither a committed row nor an uncommitted one has the key
          have hnew : ∀ e ∈ s.allEvents, ¬ r.conflicts e = true := by
            intro e he hconf
            rcases List.mem_append.mp he with he | he
            · exact hev (List.any_eq_true.mpr ⟨e, he, hconf⟩)
            · exact hun (List.any_eq_true.mpr ⟨e, he, hconf⟩)
          refine .insert c r (r.newEvent s.now s.store.uuids s.store.eventsSeq)
            (congrArg PublishCall.view hc) ⟨⟨rfl, rfl⟩, rfl, rfl⟩ (fun e he hkey => ?_)
            (lt_irrefl _) (Nat.lt_succ_self _) rfl rfl (view_moves (.inserting _) rfl) (requested_append hreq)
          exact hnew e he (PublishRequest.conflicts_iff.mpr hkey)
  case h_6 row hc =>
      cases h
      exact .commit c row (congrArg PublishCall.view hc) rfl rfl (view_moves (.answering ..) rfl)
        (requested_append hreq)
  case h_7 r hc =>
      split at h <;> cases h
      case h_1 => exact .fail c ⟨rfl, rfl⟩ (view_moves .failed rfl) (requested_append hreq)
      case h_2 e he =>
          exact .select c r e (congrArg PublishCall.view hc) (List.mem_of_find?_eq_some he)
            (PublishRequest.conflicts_iff.mp (List.find?_some he)) ⟨rfl, rfl⟩ (view_moves (.answering ..) rfl)
            (requested_append hreq)
  case h_8 id status hc =>
      cases h
      refine step_publishView_quiet hreq none rfl rfl fun c' => ?_
      by_cases hcc : c' = c
      · rw [hcc, Sys.setCall_calls_self, hc]
        rfl
      · rw [Sys.setCall_calls_of_ne hcc]

/-- Every step is one of the library's. -/
theorem step_publishView (h : step cfg s l = some s') :
    Upsert.Step publishSpec (publishView ls s) (publishView (ls ++ [l]) s') := by
  cases l with
  | request c r =>
      simp only [step] at h
      split at h <;> cases h
      next hc =>
      refine .request c r _ (congrArg PublishCall.view hc) ⟨rfl, rfl⟩ (view_moves _ rfl) ?_
        fun c' r' => ?_
      · split
        · exact .inr rfl
        · exact .inl rfl
      · simp only [publishView, List.mem_append, List.mem_singleton, Label.request.injEq]
  | publish c => exact publishStep_view h
  | abort c =>
      simp only [step] at h
      split at h <;> cases h
      · next row hc =>
          exact .abort c row (congrArg PublishCall.view hc) rfl rfl (view_moves .failed rfl)
            (requested_append (by simp))
      · exact .fail c ⟨rfl, rfl⟩ (view_moves .failed rfl) (requested_append (by simp))
  | tick | register | pause | resume | rotate =>
      cases h
      exact step_publishView_quiet (by simp) none rfl rfl fun _ => rfl
  | requestReplay | replay | abortReplay =>
      simp only [step, replayStep] at h
      repeat' split at h
      all_goals
        cases h
        try exact step_publishView_quiet (by simp) none rfl rfl fun _ => rfl
  | start w | query w | step w | send w | complete w | die w =>
      obtain ⟨hcalls, hun⟩ := step_calls rfl h
      have hview : ∀ c, (s'.calls c).view = (s.calls c).view := fun c => by rw [hcalls]
      cases step_move h with
      | tick _ hl => cases hl
      | api hl => cases hl
      | worker w' _ _ h =>
          rcases h.events with hev | ⟨src, rows, -, -, hev⟩
          · exact step_publishView_quiet (by simp) none hev hun hview
          · cases src with
            | event e => exact step_publishView_quiet (by simp) (some e) hev hun hview
            | replay r => exact step_publishView_quiet (by simp) none hev hun hview

theorem publishRequests_of_run (h : run (step cfg) (.init tenants) ls = some s) :
    Upsert.Inv publishSpec (publishView ls s) :=
  run_inv (I := fun ls s => Upsert.Inv publishSpec (publishView ls s))
    (.init rfl rfl (fun _ => rfl) fun _ _ => List.not_mem_nil)
    (fun _ _ _ _ _ hi hs => hi.step (fun _ hid => hid.trans_le (step_uuids_le hs))
      (step_publishView hs)) h

end

/-! ### Replay requests -/

def replaySpec : Upsert.Spec ReplayRequest Replay (Uuid × String) Uuid where
  requestKey r := (r.endpointId, r.idempotencyKey)
  key row := (row.endpointId, row.idempotencyKey)
  id row := row.id
  Made r row := (row.endpointId = r.endpointId ∧ row.idempotencyKey = r.idempotencyKey) ∧
    row.rangeStart = r.rangeStart ∧ row.rangeEnd = r.rangeEnd
  key_of_made h := by rw [h.1.1, h.1.2]

theorem ReplayRequest.conflicts_iff {r : ReplayRequest} {row : Replay} :
    r.conflicts row = true ↔ replaySpec.key row = replaySpec.requestKey r := by
  simp only [ReplayRequest.conflicts, Bool.and_eq_true, decide_eq_true_eq]
  exact Prod.mk_inj.symm

/-- The call has an answer. -/
def ReplayCall.answer : ReplayCall → Option Uuid
  | .answering id _ | .acked id _ => some id
  | _ => none

/-- Where the call stands, for the library.  The endpoint's `SELECT` is not of its concern. -/
def ReplayCall.view : ReplayCall → Upsert.Call ReplayRequest Replay Uuid
  | .idle => .idle
  | .arrived r | .found r => .arrived r
  | .inserting row => .inserting row
  | .conflicted r => .conflicted r
  | .answering id _ | .acked id _ => .answered id
  | .rejected | .notFound | .failed => .failed

/-- The replay requests after the labels `ls`. -/
def replayView (ls : List Label) (s : Sys) : Upsert.State CallId ReplayRequest Replay Uuid where
  rows := s.store.replays
  uncommitted := s.uncommittedReplays
  drawn id := id < s.store.uuids
  calls c := (s.replayCalls c).view
  requested c r := Label.requestReplay c r ∈ ls

/-- The rows `l` with the replay's row, if it is among them, expanded. -/
def expandReplays : Option Replay → List Replay → List Replay
  | none, l => l
  | some r, l => Table.update (fun r' => r'.id = r.id) (fun r' => { r' with status := .expanded }) l

section

variable {cfg : Config} {s s' : Sys} {l : Label} {ls : List Label} {w : WorkerId}
  {tenants : List Tenant} {now : Time} {st st' : Store} {pc pc' : Pc}

theorem Sys.setReplayCall_calls_self (c : CallId) (call : ReplayCall) :
    (s.setReplayCall c call).replayCalls c = call := if_pos rfl

theorem Sys.setReplayCall_calls_of_ne {c c' : CallId} (h : c' ≠ c) (call : ReplayCall) :
    (s.setReplayCall c call).replayCalls c' = s.replayCalls c' := if_neg h

/-- A worker writes the replays only when it commits one. -/
theorem WorkerMove.replays (h : WorkerMove cfg now st w pc l st' pc') :
    st'.replays = st.replays ∨ ∃ r range rows, l = .step w ∧
      pc = .committing (.replay r range) rows ∧ st'.replays = expandReplays (some r) st.replays := by
  cases h with
  | claim hc =>
      obtain ⟨-, -, rfl⟩ := claimEndpoint_some hc
      exact .inl rfl
  | close hc =>
      simp only [closeOrphans] at hc
      split at hc <;> cases hc <;> exact .inl rfl
  | @complete _ claimed result random fault =>
      obtain hc | ⟨-, hc⟩ | ⟨-, -, hc⟩ := completeDelivery_cases cfg now st claimed result random fault
      <;> rw [hc] <;> exact .inl rfl
  | @commit src rows =>
      cases src with
      | event e => exact .inl rfl
      | replay r range => exact .inr ⟨r, range, rows, rfl, rfl, rfl⟩
  | _ => exact .inl rfl

/-- A worker's step leaves the replay calls alone. -/
theorem step_replayCalls (hl : l.worker = some w) (h : step cfg s l = some s') :
    s'.replayCalls = s.replayCalls ∧ s'.uncommittedReplays = s.uncommittedReplays := by
  cases l with
  | step w =>
      simp only [step, workerStep] at h
      repeat' split at h
      all_goals
        cases h
        try exact ⟨rfl, rfl⟩
  | start | query | send | complete =>
      simp only [step] at h
      repeat' split at h
      all_goals
        cases h
        try exact ⟨rfl, rfl⟩
  | die => cases h; exact ⟨rfl, rfl⟩
  | _ => cases hl

theorem requestedReplay_append (hl : ∀ c r, l ≠ .requestReplay c r) :
    (replayView (ls ++ [l]) s').requested = (replayView ls s).requested := by
  funext c r
  simp only [replayView, List.mem_append, List.mem_singleton, eq_iff_iff]
  exact or_iff_left fun h => hl c r h.symm

theorem replayView_moves {c : CallId} (call : ReplayCall) {s₁ : Sys}
    (h : s₁.replayCalls = s.replayCalls) :
    Upsert.Moves c call.view (replayView ls s) (replayView (ls ++ [l]) (s₁.setReplayCall c call)) where
  call := congrArg ReplayCall.view (Sys.setReplayCall_calls_self ..)
  others c' hc := by
    refine congrArg ReplayCall.view ((Sys.setReplayCall_calls_of_ne hc _).trans ?_)
    rw [h]

/-- A step that leaves the calls alone writes at most the status of replays. -/
theorem step_replayView_quiet (hl : ∀ c r, l ≠ .requestReplay c r) (src : Option Replay)
    (hrows : s'.store.replays = expandReplays src s.store.replays)
    (hun : s'.uncommittedReplays = s.uncommittedReplays)
    (hcalls : ∀ c, (s'.replayCalls c).view = (s.replayCalls c).view) :
    Upsert.Step replaySpec (replayView ls s) (replayView (ls ++ [l]) s') := by
  cases src with
  | none =>
      exact .write id (fun _ => rfl) (fun _ => rfl) (fun _ _ h => h)
        (hrows.trans (List.map_id _).symm) hun (funext hcalls) (requestedReplay_append hl)
  | some r =>
      refine .write (fun r' => if r'.id = r.id then { r' with status := .expanded } else r')
        (fun r' => ?_) (fun r' => ?_) (fun q r' hm => ?_) (hrows.trans ?_) hun (funext hcalls)
        (requestedReplay_append hl)
      · split <;> rfl
      · split <;> rfl
      · split
        · exact hm
        · exact hm
      · simp only [expandReplays, Table.update, decide_eq_true_eq]
        rfl

/-- A call whose place is the same for the library. -/
theorem replayView_of_call {c : CallId} {call : ReplayCall} (h : call.view = (s.replayCalls c).view)
    (c' : CallId) : ((s.setReplayCall c call).replayCalls c').view = (s.replayCalls c').view := by
  by_cases hc : c' = c
  · rw [hc, Sys.setReplayCall_calls_self, h]
  · rw [Sys.setReplayCall_calls_of_ne hc]

/-- A call's statement, for the library. -/
theorem replayStep_view {c : CallId} (h : replayStep s c = some s') :
    Upsert.Step replaySpec (replayView ls s) (replayView (ls ++ [.replay c]) s') := by
  have hreq : ∀ c' r, Label.replay c ≠ .requestReplay c' r := nofun
  simp only [replayStep] at h
  split at h
  case h_1 | h_2 | h_3 | h_4 | h_5 => cases h
  case h_6 r hc =>
      split at h <;> cases h
      · exact step_replayView_quiet hreq none rfl rfl (replayView_of_call (by rw [hc]; rfl))
      · exact .fail c ⟨rfl, rfl⟩ (replayView_moves .notFound rfl) (requestedReplay_append hreq)
  case h_7 r hc =>
      split at h
      · cases h
      next hun =>
      split at h
      · next hrow =>
          cases h
          obtain ⟨row, hrow, hconf⟩ := List.any_eq_true.mp hrow
          exact .conflict c r row (congrArg ReplayCall.view hc) hrow
            (ReplayRequest.conflicts_iff.mp hconf) ⟨rfl, rfl⟩ (replayView_moves (.conflicted r) rfl)
            (requestedReplay_append hreq)
      · next hrow =>
          cases h
          refine .insert c r (r.newReplay s.now s.store.uuids) (congrArg ReplayCall.view hc)
            ⟨⟨rfl, rfl⟩, rfl, rfl⟩ (fun row hmem hkey => ?_) (lt_irrefl _) (Nat.lt_succ_self _) rfl rfl
            (replayView_moves (.inserting _) rfl) (requestedReplay_append hreq)
          -- neither a committed row nor an uncommitted one has the key
          have hconf : r.conflicts row = true := ReplayRequest.conflicts_iff.mpr hkey
          rcases List.mem_append.mp hmem with hmem | hmem
          · exact hrow (List.any_eq_true.mpr ⟨row, hmem, hconf⟩)
          · exact hun (List.any_eq_true.mpr ⟨row, hmem, hconf⟩)
  case h_8 row hc =>
      cases h
      exact .commit c row (congrArg ReplayCall.view hc) rfl rfl (replayView_moves (.answering ..) rfl)
        (requestedReplay_append hreq)
  case h_9 r hc =>
      split at h <;> cases h
      case h_1 => exact .fail c ⟨rfl, rfl⟩ (replayView_moves .failed rfl) (requestedReplay_append hreq)
      case h_2 row hrow =>
          exact .select c r row (congrArg ReplayCall.view hc) (List.mem_of_find?_eq_some hrow)
            (ReplayRequest.conflicts_iff.mp (List.find?_some hrow)) ⟨rfl, rfl⟩
            (replayView_moves (.answering ..) rfl) (requestedReplay_append hreq)
  case h_10 id status hc =>
      cases h
      exact step_replayView_quiet hreq none rfl rfl (replayView_of_call (by rw [hc]; rfl))

/-- Every step is one of the library's. -/
theorem step_replayView (h : step cfg s l = some s') :
    Upsert.Step replaySpec (replayView ls s) (replayView (ls ++ [l]) s') := by
  cases l with
  | requestReplay c r =>
      simp only [step] at h
      split at h <;> cases h
      next hc =>
      refine .request c r _ (congrArg ReplayCall.view hc) ⟨rfl, rfl⟩ (replayView_moves _ rfl) ?_
        fun c' r' => ?_
      · split
        · exact .inl rfl
        · exact .inr rfl
      · simp only [replayView, List.mem_append, List.mem_singleton, Label.requestReplay.injEq]
  | replay c => exact replayStep_view h
  | abortReplay c =>
      simp only [step] at h
      split at h <;> cases h
      · next row hc =>
          exact .abort c row (congrArg ReplayCall.view hc) rfl rfl (replayView_moves .failed rfl)
            (requestedReplay_append (by simp))
      · exact .fail c ⟨rfl, rfl⟩ (replayView_moves .failed rfl) (requestedReplay_append (by simp))
  | tick | register | pause | resume | rotate =>
      cases h
      exact step_replayView_quiet (by simp) none rfl rfl fun _ => rfl
  | request | publish | abort =>
      simp only [step, publishStep] at h
      repeat' split at h
      all_goals
        cases h
        try exact step_replayView_quiet (by simp) none rfl rfl fun _ => rfl
  | start w | query w | step w | send w | complete w | die w =>
      obtain ⟨hcalls, hun⟩ := step_replayCalls rfl h
      have hview : ∀ c, (s'.replayCalls c).view = (s.replayCalls c).view := fun c => by rw [hcalls]
      cases step_move h with
      | tick _ hl => cases hl
      | api hl => cases hl
      | worker w' _ _ h =>
          rcases h.replays with hrows | ⟨r, -, -, -, -, hrows⟩
          · exact step_replayView_quiet (by simp) none hrows hun hview
          · exact step_replayView_quiet (by simp) (some r) hrows hun hview

theorem replayRequests_of_run (h : run (step cfg) (.init tenants) ls = some s) :
    Upsert.Inv replaySpec (replayView ls s) :=
  run_inv (I := fun ls s => Upsert.Inv replaySpec (replayView ls s))
    (.init rfl rfl (fun _ => rfl) fun _ _ => List.not_mem_nil)
    (fun _ _ _ _ _ hi hs => hi.step (fun _ hid => hid.trans_le (step_uuids_le hs))
      (step_replayView hs)) h

end

end Webhooks
