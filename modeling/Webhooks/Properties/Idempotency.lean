import Webhooks.Protocol.Requests
import Webhooks.Properties.ExactlyOnce

/-!
# Properties — Publish idempotency

Any number of publish calls, of any tenants and with any keys and bodies, take their statements in
any order, with expansions between them.

* **`publish_idempotent`**: requests are answered alike exactly when they have one tenant and one
  key; the event of a key is that of one of its requests for good, and is delivered once to each
  endpoint that was subscribed when it was expanded, however often the key is repeated.
-/

namespace Webhooks

open Lib

/-- The endpoints the event's deliveries are for, one for each delivery. -/
def Store.reached (st : Store) (eventId : Uuid) : List Uuid :=
  (st.deliveries.filter fun d => d.eventId = eventId).map (·.endpointId)

/-- One delivery of the event for each endpoint of its tenant that was subscribed to its type in
`st₀`, and none for any other. -/
structure FannedOut (st₀ st : Store) (e : Event) : Prop where
  once : (st.reached e.id).Nodup
  endpoints : ∀ id, id ∈ st.reached e.id ↔
    ∃ ep ∈ st₀.endpoints, ep.id = id ∧ ep.tenantId = e.tenantId ∧ e.type ∈ ep.eventTypes

/-- The events are one row under two statuses. -/
def Event.SameBody (e e' : Event) : Prop :=
  e'.id = e.id ∧ e'.tenantId = e.tenantId ∧ e'.idempotencyKey = e.idempotencyKey ∧
    e'.type = e.type ∧ e'.payload = e.payload

section

variable {cfg : Config} {s s' : Sys} {l : Label} {ls ls' : List Label} {tenants : List Tenant}
  {st st₀ : Store} {e e' : Event} {rows : List Delivery} {id : Uuid}

theorem Event.SameBody.trans {e'' : Event} (h : e.SameBody e') (h' : e'.SameBody e'') :
    e.SameBody e'' := by
  obtain ⟨h₁, h₂, h₃, h₄, h₅⟩ := h
  obtain ⟨h₁', h₂', h₃', h₄', h₅'⟩ := h'
  exact ⟨h₁'.trans h₁, h₂'.trans h₂, h₃'.trans h₃, h₄'.trans h₄, h₅'.trans h₅⟩

/-! ### Events -/

/-- No step changes more of an event than its status. -/
theorem step_sameBody (h : step cfg s l = some s') (he : e ∈ s.store.events) :
    ∃ e' ∈ s'.store.events, e.SameBody e' := by
  have hrfl : e.SameBody e := ⟨rfl, rfl, rfl, rfl, rfl⟩
  cases step_publish h with
  | quiet src events =>
      rw [events]
      cases src with
      | none => exact ⟨e, he, hrfl⟩
      | some e₀ =>
          refine ⟨_, Table.mem_update_of_mem he, ?_⟩
          split
          · exact ⟨rfl, rfl, rfl, rfl, rfl⟩
          · exact hrfl
  | call _ _ events | insert _ _ _ events | abort _ _ _ _ events =>
      rw [events]
      exact ⟨e, he, hrfl⟩
  | commit _ _ _ _ events =>
      rw [events]
      exact ⟨e, List.mem_append_left _ he, hrfl⟩

theorem sameBody_of_reachable (h : Reachable (step cfg) s s') (he : e ∈ s.store.events) :
    ∃ e' ∈ s'.store.events, e.SameBody e' := by
  refine h.inv (I := fun s' => ∃ e' ∈ s'.store.events, e.SameBody e')
    ⟨e, he, rfl, rfl, rfl, rfl, rfl⟩ fun s₁ l s₂ _ hi hs => ?_
  obtain ⟨e₁, he₁, hb⟩ := hi
  obtain ⟨e₂, he₂, hb'⟩ := step_sameBody hs he₁
  exact ⟨e₂, he₂, hb.trans hb'⟩

/-! ### Deliveries -/

theorem reached_append (ds : List Delivery) (h : st.deliveries = st₀.deliveries ++ ds) :
    st.reached id = st₀.reached id ++ (ds.filter fun d => d.eventId = id).map (·.endpointId) := by
  simp only [Store.reached, h, List.filter_append, List.map_append]

/-- Where no delivery is added, every event reaches what it did. -/
theorem step_reached (h : step cfg s l = some s')
    (hids : s'.store.deliveries.map (·.id) = s.store.deliveries.map (·.id)) (id : Uuid) :
    s'.store.reached id = s.store.reached id := by
  cases step_move h with
  | tick _ _ _ store => simp only [Store.reached, store]
  | api _ _ _ h => simp only [Store.reached, h.deliveries]
  | worker w _ _ h =>
      obtain ⟨g, new, heq, hg, -⟩ := h.deliveries
      have hnew : new = [] := by
        have := congrArg List.length hids
        simp only [heq, List.length_map, List.length_append] at this
        exact List.length_eq_zero_iff.mp (by omega)
      simp only [Store.reached, heq, hnew, List.append_nil]
      refine Table.map_filter_map (fun d hd => ?_) fun d hd => (hg d hd).endpointId_eq
      rw [(hg d hd).eventId_eq]

/-- An expanded event is fanned out over the endpoints there were when its `INSERT … SELECT`
ran. -/
theorem fannedOut_of_reachable (h : Reachable (restrict NoReplay (step cfg)) (.init tenants) s) :
    ∀ e ∈ s.store.events, e.status = .expanded →
      ∃ s₀ w began e₀, Reachable (restrict NoReplay (step cfg)) (.init tenants) s₀ ∧
        Reachable (restrict NoReplay (step cfg)) s₀ s ∧ s₀.pcs w = .inserting began (.event e₀) ∧
        e₀.id = e.id ∧ FannedOut s₀.store s.store e := by
  have hp : ∀ s l, NoReplay s l → NoReplay s l := fun _ _ h => h
  refine h.inv (I := fun s => ∀ e ∈ s.store.events, e.status = .expanded →
    ∃ s₀ w began e₀, Reachable (restrict NoReplay (step cfg)) (.init tenants) s₀ ∧
      Reachable (restrict NoReplay (step cfg)) s₀ s ∧ s₀.pcs w = .inserting began (.event e₀) ∧
      e₀.id = e.id ∧ FannedOut s₀.store s.store e) (fun _ he => by cases he)
    fun s₁ l s₂ hr hi hs e he hst => ?_
  have hstep := (restrict_eq_some.mp hs).2
  have hx := expandInv_of_reachable hp hr
  have hpub := publishInv_of_reachable hr.of_restrict
  have hids := (publishInv_of_reachable (hr.tail hs).of_restrict).eventIds
  -- an event expanded before keeps its deliveries
  have hold : ∀ e₁ ∈ s₁.store.events, e₁.id = e.id → e₁.status = .expanded →
      s₂.store.reached e.id = s₁.store.reached e.id →
      ∃ s₀ w began e₀, Reachable (restrict NoReplay (step cfg)) (.init tenants) s₀ ∧
        Reachable (restrict NoReplay (step cfg)) s₀ s₂ ∧
        s₀.pcs w = .inserting began (.event e₀) ∧ e₀.id = e.id ∧ FannedOut s₀.store s₂.store e := by
    intro e₁ he₁ hid hst₁ hreached
    obtain ⟨s₀, w, began, e₀, hr₀, hr₁, hpc, hid₀, hfan⟩ := hi e₁ he₁ hst₁
    obtain ⟨e', he', hid', ht, -, hty, -⟩ := step_sameBody hstep he₁
    obtain rfl : e' = e := Table.eq_of_key hids he' he (hid'.trans hid)
    refine ⟨s₀, w, began, e₀, hr₀, hr₁.tail hs, hpc, hid₀.trans hid, ⟨?_, fun id => ?_⟩⟩
    · rw [hreached, ← hid]
      exact hfan.once
    · rw [hreached, ← hid, hfan.endpoints id, ht, hty]
  rcases step_expands hx hpub hstep with hnone | ⟨w, e₁, rows, -, hpc, hexp⟩
  · obtain ⟨e₁, he₁, hid, hst₁⟩ := hnone.events e he hst
    exact hold e₁ he₁ hid hst₁ (step_reached hstep hnone.deliveries _)
  · obtain ⟨s₀, began, hr₀, hr₁, hpc₀, hrows⟩ :=
      inserted_of_reachable hr w (.event e₁) rows (by rw [hpc]; rfl)
    have hfan : IsFanOut s₀.store e₁ rows :=
      hrows ▸ insertDeliveries_isFanOut (leaseInv_of_reachable hr₀.of_restrict).ids began e₁
    have hreached : s₂.store.reached e.id = s₁.store.reached e.id ++
        (rows.filter fun d => d.eventId = e.id).map (·.endpointId) :=
      reached_append rows hexp.deliveries
    by_cases hid : e.id = e₁.id
    · -- a pending event had no delivery
      obtain ⟨e', he', hid', ht, -, hty, -⟩ := step_sameBody hstep hexp.pending.1
      obtain rfl : e' = e := Table.eq_of_key hids he' he (hid'.trans hid.symm)
      have hnone : s₁.store.reached e'.id = [] := by
        refine List.map_eq_nil_iff.mpr (List.filter_eq_nil_iff.mpr fun d hd hev => ?_)
        obtain ⟨e₂, he₂, hid₂, hst₂, -⟩ := hx.delivered d hd
        obtain rfl : e₂ = e₁ := Table.eq_of_key hpub.eventIds he₂ hexp.pending.1
          ((hid₂.trans (of_decide_eq_true hev)).trans hid)
        rw [hexp.pending.2] at hst₂
        cases hst₂
      have hall : rows.filter (fun d => d.eventId = e'.id) = rows :=
        List.filter_eq_self.mpr fun r hr => decide_eq_true ((hfan.fresh r hr).1.trans hid.symm)
      rw [hnone, hall, List.nil_append] at hreached
      refine ⟨s₀, w, began, e₁, hr₀, hr₁.tail hs, hpc₀, hid.symm, ⟨?_, fun id => ?_⟩⟩
      · rw [hreached]
        exact hfan.once
      · rw [hreached, hfan.endpoints id, ht, hty]
    · have hnone : rows.filter (fun d => d.eventId = e.id) = [] :=
        List.filter_eq_nil_iff.mpr fun r hr hev =>
          hid ((of_decide_eq_true hev).symm.trans (hfan.fresh r hr).1)
      rw [hnone, List.map_nil, List.append_nil] at hreached
      rw [hexp.events] at he
      obtain ⟨e₂, he₂, heq⟩ := List.mem_map.mp he
      split at heq
      · next h₂ => exact absurd (by rw [← heq]; exact h₂) hid
      · exact hold e₂ he₂ (by rw [heq]) (by rw [heq]; exact hst) hreached

/-! ### Every run -/

theorem PublishCall.view_of_answer {call : PublishCall} (h : call.answer = some id) :
    call.view = .answered id := by
  cases call <;> cases h <;> rfl

/-- A call that met a conflict is answered by its next statement. -/
theorem publish_answers (h : run (step cfg) (.init tenants) ls = some s) {c : CallId}
    {r : PublishRequest} (hc : s.calls c = .conflicted r) :
    ∃ s' id, step cfg s (.publish c) = some s' ∧ (s'.calls c).answer = some id := by
  obtain ⟨e, he, hkey⟩ := (publishRequests_of_run h).row_of_conflict (congrArg PublishCall.view hc)
  have hconf : r.conflicts e = true := PublishRequest.conflicts_iff.mpr hkey
  simp only [step, publishStep, hc]
  cases hf : s.store.events.find? r.conflicts with
  | none => exact absurd hconf (by simpa using List.find?_eq_none.mp hf e he)
  | some e' =>
      refine ⟨_, e'.id, rfl, ?_⟩
      rw [Sys.setCall_calls_self]
      rfl

/-- For every run, and every state `s'` it comes to after `s`.

* A request answered in `s` and one answered in `s'` have one answer exactly when they are one
  tenant's and have one key.
* The answer is, from then on, the identifier of the one event with the request's tenant and key.
* An event is as one of the requests with its key made it, and stays so.
* A call whose `INSERT` met a conflict finds the event it met.
* An expanded event has one delivery for each endpoint that was subscribed when its
  `INSERT … SELECT` ran, and no other. -/
theorem publish_idempotent (h : run (restrict NoReplay (step cfg)) (.init tenants) ls = some s)
    (h' : run (restrict NoReplay (step cfg)) s ls' = some s') :
    (∀ c r id c' r' id', Label.request c r ∈ ls → (s.calls c).answer = some id →
      Label.request c' r' ∈ ls ++ ls' → (s'.calls c').answer = some id' →
      (id = id' ↔ r.tenantId = r'.tenantId ∧ r.idempotencyKey = r'.idempotencyKey)) ∧
    (∀ c r id, Label.request c r ∈ ls → (s.calls c).answer = some id →
      ∃ e ∈ s'.store.events, e.id = id ∧ r.conflicts e = true ∧
        ∀ e' ∈ s'.store.events, r.conflicts e' = true → e' = e) ∧
    (∀ e ∈ s.store.events,
      (∃ c r, Label.request c r ∈ ls ∧ r.conflicts e = true ∧ e.type = r.type ∧
        e.payload = r.payload) ∧ ∃ e' ∈ s'.store.events, e.SameBody e') ∧
    (∀ c r, s.calls c = .conflicted r →
      ∃ s₁ id, step cfg s (.publish c) = some s₁ ∧ (s₁.calls c).answer = some id) ∧
    (∀ e ∈ s.store.events, e.status = .expanded →
      ∃ s₀ w began e₀, Reachable (restrict NoReplay (step cfg)) (.init tenants) s₀ ∧
        Reachable (restrict NoReplay (step cfg)) s₀ s ∧ s₀.pcs w = .inserting began (.event e₀) ∧
        e₀.id = e.id ∧ FannedOut s₀.store s.store e) := by
  have hrun : run (step cfg) (.init tenants) ls = some s := run_of_restrict h
  have hi := publishRequests_of_run hrun
  have hi' : Upsert.Inv publishSpec (publishView (ls ++ ls') s') := by
    have hruns : run (step cfg) (.init tenants) (ls ++ ls') = some s' := by
      rw [run_append, hrun]
      exact run_of_restrict h'
    exact publishRequests_of_run hruns
  have hkept : Upsert.Kept publishSpec (publishView ls s) (publishView (ls ++ ls') s') := by
    intro e he
    obtain ⟨e', he', hid, ht, hkey, -⟩ := sameBody_of_reachable (.of_run (run_of_restrict h')) he
    exact ⟨e', he', hid, congrArg₂ Prod.mk ht hkey⟩
  refine ⟨?_, ?_, fun e he => ⟨?_, ?_⟩, fun c r hc => publish_answers hrun hc,
    fannedOut_of_reachable (.of_run h)⟩
  · intro c r id c' r' id' hr ha hr' ha'
    exact (hi.answer_iff hi' hkept hr (PublishCall.view_of_answer ha) hr'
      (PublishCall.view_of_answer ha')).trans Prod.mk_inj
  · intro c r id hr ha
    obtain ⟨e, he, hid, hkey, hone⟩ := hi.row_of_answer hi' hkept hr (PublishCall.view_of_answer ha)
    exact ⟨e, he, hid, PublishRequest.conflicts_iff.mpr hkey, fun e' he' hconf =>
      hone e' he' (PublishRequest.conflicts_iff.mp hconf)⟩
  · obtain ⟨c, r, hr, hm⟩ := hi.made e (List.mem_append_left _ he)
    exact ⟨c, r, hr, PublishRequest.conflicts_iff.mpr (publishSpec.key_of_made hm), hm.2⟩
  · exact sameBody_of_reachable (.of_run (run_of_restrict h')) he

end

/-! ### A key repeated after its expansion -/

open Sample

/-- The second call repeats the key with another payload, after the expansion of the first. -/
theorem publish_idempotent_sample : ∃ s s',
    run (restrict NoReplay (step config)) start (register :: publish 0 "k" ++ expand) = some s ∧
    run (restrict NoReplay (step config)) s [.request 1 ⟨100, "k", "a", "other"⟩, .publish 1,
      .publish 1] = some s' ∧ (s.calls 0).answer = some 1 ∧ (s'.calls 1).answer = some 1 ∧
    ∃ e ∈ s.store.events, e.id = 1 ∧ e.status = .expanded ∧ s.store.reached 1 = [0] := by
  obtain ⟨s, s', hs, hs', hp⟩ := exists_of_runs (restrict NoReplay (step config)) start
    (register :: publish 0 "k" ++ expand) [.request 1 ⟨100, "k", "a", "other"⟩, .publish 1, .publish 1]
    (fun s s' => (s.calls 0).answer = some 1 && (s'.calls 1).answer.isSome &&
      (s.store.events.any fun e => e.id = 1 && e.status = .expanded) && s.store.reached 1 = [0])
    (by decide)
  simp only [Bool.and_eq_true, decide_eq_true_eq, List.any_eq_true] at hp
  obtain ⟨⟨⟨h₀, h₁⟩, e, he, hid, hst⟩, hreached⟩ := hp
  obtain ⟨id, h₁⟩ := Option.isSome_iff_exists.mp h₁
  have hsame := (publish_idempotent hs hs').1 0 ⟨100, "k", "a", "\x7b\x7d"⟩ 1 1
    ⟨100, "k", "a", "other"⟩ id (by simp [publish, register, expand]) h₀ (by simp) h₁
  obtain rfl : 1 = id := hsame.mpr ⟨rfl, rfl⟩
  exact ⟨s, s', hs, hs', h₀, h₁, e, he, hid, hst, hreached⟩

end Webhooks
