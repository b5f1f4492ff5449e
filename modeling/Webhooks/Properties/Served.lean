import Webhooks.Properties.Drain
import Webhooks.Properties.ExactlyOnce

/-!
# Properties — Served

What is published is delivered to whoever was subscribed before, in every run, replays and deaths of workers
included.

* `ServedInv`, `servedInv_of_reachable`: an open transaction carries the delivery of every endpoint that was
  there before its event.
* **`subscriber_served`**: an expanded event has a delivery for every endpoint registered before it.
* **`acked_resolved`**: an acknowledged event is in the end resolved for every such endpoint that is active.
-/

namespace Webhooks

open Lib

/-- An endpoint is served with the events it is subscribed to, as far as their identifiers are `new`. -/
structure ServedInv (new : Uuid → Prop) (ep : Endpoint) (s : Sys) : Prop where
  endpoint : ∃ ep' ∈ s.store.endpoints, ep'.id = ep.id ∧ ep'.tenantId = ep.tenantId ∧
    ep'.eventTypes = ep.eventTypes
  source : ∀ w e, (s.pcs w).source = some e →
    ∃ e' ∈ s.store.events, e'.id = e.id ∧ e'.tenantId = e.tenantId ∧ e'.type = e.type
  rows : ∀ w e rows, (s.pcs w).expansion = some (.event e, rows) → new e.id →
    ep.isSubscribed e.tenantId e.type = true → ∃ r ∈ rows, r.eventId = e.id ∧ r.endpointId = ep.id
  events : ∀ e ∈ s.store.events, e.status = .expanded → new e.id →
    ep.isSubscribed e.tenantId e.type = true →
    ∃ d ∈ s.store.deliveries, d.eventId = e.id ∧ d.endpointId = ep.id

section

variable {cfg : Config} {s s' s₀ : Sys} {l : Label} {w : WorkerId} {pc pc' : Pc} {tenants : List Tenant}
  {now : Time} {st st' : Store} {e : Event} {ep : Endpoint} {new : Uuid → Prop}

/-! ### The event of a transaction -/

theorem WorkerMove.source_cases (h : WorkerMove cfg now st w pc l st' pc') (hs : pc'.source = some e) :
    pc.source = some e ∨ e ∈ st.events := by
  cases h with
  | @outside _ pc' _ _ _ _ hout src =>
      cases pc' with
      | inserting began x =>
          cases x with
          | event e' =>
              cases hs
              exact .inr (src _ _ rfl)
          | replay => cases hs
      | marking | committing => cases hout
      | _ => cases hs
  | @insertRows began src =>
      cases src with
      | event => exact .inl hs
      | replay => cases hs
  | @setExpanded src rows =>
      cases src with
      | event => exact .inl hs
      | replay => cases hs
  | _ => cases hs

/-- The event is a row of the store, with the tenant and the type it was read with. -/
theorem source_of_reachable (h : Reachable (step cfg) (.init tenants) s) :
    ∀ w e, (s.pcs w).source = some e →
      ∃ e' ∈ s.store.events, e'.id = e.id ∧ e'.tenantId = e.tenantId ∧ e'.type = e.type := by
  refine h.inv (I := fun s => ∀ w e, (s.pcs w).source = some e → ∃ e' ∈ s.store.events,
    e'.id = e.id ∧ e'.tenantId = e.tenantId ∧ e'.type = e.type) (fun _ _ h => by cases h)
    fun s₁ l s₂ hr hi hs w e he => ?_
  have hg := step_grows (leaseInv_of_reachable hr).ids hs
  have hkeep : (∃ e' ∈ s₁.store.events, e'.id = e.id ∧ e'.tenantId = e.tenantId ∧ e'.type = e.type) →
      ∃ e' ∈ s₂.store.events, e'.id = e.id ∧ e'.tenantId = e.tenantId ∧ e'.type = e.type := by
    rintro ⟨e', he', hid, ht, hy⟩
    obtain ⟨e₂, he₂, hid₂, ht₂, hy₂, -⟩ := hg.events e' he'
    exact ⟨e₂, he₂, hid₂.trans hid, ht₂.trans ht, hy₂.trans hy⟩
  cases step_move hs with
  | tick _ _ _ _ pcs | api _ _ pcs => exact hkeep (hi w e (by rw [← pcs]; exact he))
  | worker w' _ pcs h =>
      by_cases hw : w = w'
      · subst hw
        obtain hold | hmem := h.source_cases he
        · exact hkeep (hi w e hold)
        · exact hkeep ⟨e, hmem, rfl, rfl, rfl⟩
      · exact hkeep (hi w e (by rw [← pcs w hw]; exact he))

/-! ### The rows of a transaction -/

/-- The `INSERT … SELECT` of an event meets every endpoint that is subscribed to it. -/
theorem insertDeliveries_serves {began : Time}
    (hep : ∃ ep' ∈ st.endpoints, ep'.id = ep.id ∧ ep'.tenantId = ep.tenantId ∧ ep'.eventTypes = ep.eventTypes)
    (hsub : ep.isSubscribed e.tenantId e.type = true) :
    ∃ r ∈ (insertDeliveries st began (.event e)).1, r.eventId = e.id ∧ r.endpointId = ep.id := by
  obtain ⟨ep', hmem, hid, ht, hy⟩ := hep
  have hpair : (e.id, ep.id) ∈ Expandable.fanOut st (.event e) := by
    refine List.mem_map.mpr ⟨ep', List.mem_filter.mpr ⟨hmem, ?_⟩, by rw [hid]⟩
    unfold Endpoint.isSubscribed at hsub ⊢
    rw [ht, hy]
    exact hsub
  have hrows : (insertDeliveries st began (.event e)).1.map (fun r => (r.eventId, r.endpointId)) =
      Expandable.fanOut st (.event e) := newDeliveries_pairs
  rw [← hrows] at hpair
  obtain ⟨r, hr, heq⟩ := List.mem_map.mp hpair
  exact ⟨r, hr, congrArg Prod.fst heq, congrArg Prod.snd heq⟩

/-! ### A step -/

theorem ServedInv.rows_step (hi : ServedInv new ep s) (h : Webhooks.step cfg s l = some s')
    {rows : List Delivery} (hx : (s'.pcs w).expansion = some (.event e, rows)) (hnew : new e.id)
    (hsub : ep.isSubscribed e.tenantId e.type = true) : ∃ r ∈ rows, r.eventId = e.id ∧ r.endpointId = ep.id := by
  cases step_move h with
  | tick _ _ _ _ pcs | api _ _ pcs => exact hi.rows w e rows (by rw [← pcs]; exact hx) hnew hsub
  | worker w' _ pcs h =>
      by_cases hw : w = w'
      · subst hw
        obtain hold | ⟨began, -, rfl⟩ := h.expansion_cases hx
        · exact hi.rows w e rows hold hnew hsub
        · exact insertDeliveries_serves hi.endpoint hsub
      · exact hi.rows w e rows (by rw [← pcs w hw]; exact hx) hnew hsub

/-- An event that is expanded after a step was so before, or its transaction has just been committed. -/
theorem ServedInv.events_step (hi : ServedInv new ep s) (hp : PublishInv s)
    (h : Webhooks.step cfg s l = some s') (he : e ∈ s'.store.events) (hexp : e.status = .expanded)
    (hnew : new e.id) (hsub : ep.isSubscribed e.tenantId e.type = true) :
    ∃ d, (d ∈ s.store.deliveries ∨ d ∈ s'.store.deliveries) ∧ d.eventId = e.id ∧ d.endpointId = ep.id := by
  have hold : e ∈ s.store.events → ∃ d, (d ∈ s.store.deliveries ∨ d ∈ s'.store.deliveries) ∧
      d.eventId = e.id ∧ d.endpointId = ep.id := fun he => by
    obtain ⟨d, hd, heq⟩ := hi.events e he hexp hnew hsub
    exact ⟨d, .inl hd, heq⟩
  cases step_publish h with
  | quiet src events _ _ _ commit =>
      rw [events] at he
      cases src with
      | none => exact hold he
      | some e₁ =>
          obtain ⟨he, hne⟩ | ⟨e₀, he₀, hid, rfl⟩ := Table.mem_update_cases he
          · exact hold he
          · -- the transaction of this event commits, and its rows with it
            obtain ⟨w, rows, rfl, hpc⟩ := commit e₁ rfl
            have hid : e₀.id = e₁.id := of_decide_eq_true hid
            obtain ⟨e₂, he₂, hid₂, ht₂, hy₂⟩ := hi.source w e₁ (by rw [hpc]; rfl)
            obtain rfl : e₂ = e₀ := Table.eq_of_key hp.eventIds he₂ he₀ (hid₂.trans hid.symm)
            obtain ⟨r, hr, hev, hend⟩ := hi.rows w e₁ rows (by rw [hpc]; rfl) (hid ▸ hnew)
              (by rw [← ht₂, ← hy₂]; exact hsub)
            refine ⟨r, .inr ?_, hev.trans hid.symm, hend⟩
            rw [(commit_step hpc h).1]
            exact List.mem_append_right _ hr
  | call _ _ events | insert _ _ _ events | abort _ _ _ _ events =>
      rw [events] at he
      exact hold he
  | commit c row _ before events =>
      -- the row a publish commits is pending
      rw [events] at he
      obtain he | he := List.mem_append.mp he
      · exact hold he
      · rw [List.mem_singleton.mp he, hp.pending row (hp.inserting c row before)] at hexp
        cases hexp

theorem ServedInv.step (hi : ServedInv new ep s) (hp : PublishInv s)
    (hsource : ∀ w e, (s'.pcs w).source = some e → ∃ e' ∈ s'.store.events, e'.id = e.id ∧
      e'.tenantId = e.tenantId ∧ e'.type = e.type)
    (hn : (s.store.endpoints.map (·.id)).Nodup) (h : Webhooks.step cfg s l = some s') :
    ServedInv new ep s' := by
  have hg := step_grows hn h
  refine ⟨?_, hsource, fun w e rows hx => hi.rows_step h hx, fun e he hexp hnew hsub => ?_⟩
  · obtain ⟨ep', hmem, hid, ht, hy⟩ := hi.endpoint
    obtain ⟨ep₂, hmem₂, hid₂, ht₂, hy₂⟩ := hg.endpoints ep' hmem
    exact ⟨ep₂, hmem₂, hid₂.trans hid, ht₂.trans ht, hy₂.trans hy⟩
  · obtain ⟨d, hd | hd, hev, hend⟩ := hi.events_step hp h he hexp hnew hsub
    · obtain ⟨d', hd', -, hev', hend', -⟩ := hg.deliveries d hd
      exact ⟨d', hd', hev'.trans hev, hend'.trans hend⟩
    · exact ⟨d, hd, hev, hend⟩

/-- From the state on in which the endpoint is there, it is served with whatever is published later. -/
theorem servedInv_of_reachable (h : Reachable (step cfg) (.init tenants) s₀) (hep : ep ∈ s₀.store.endpoints)
    (hr : Reachable (step cfg) s₀ s) : ServedInv (fun id => ∀ e ∈ s₀.store.events, e.id ≠ id) ep s := by
  have hstart : ServedInv (fun id => ∀ e ∈ s₀.store.events, e.id ≠ id) ep s₀ := by
    refine ⟨⟨ep, hep, rfl, rfl, rfl⟩, source_of_reachable h, fun w e rows hx hnew _ => ?_,
      fun e he _ hnew _ => absurd rfl (hnew e he)⟩
    have hsrc : (s₀.pcs w).source = some e := by
      cases hpc : s₀.pcs w with
      | marking | committing =>
          rw [hpc] at hx
          cases hx
          rfl
      | _ =>
          rw [hpc] at hx
          cases hx
    obtain ⟨e', he', hid, -⟩ := source_of_reachable h w e hsrc
    exact absurd hid (hnew e' he')
  have hinv := hr.inv (I := fun s => Reachable (step cfg) (.init tenants) s ∧
    ServedInv (fun id => ∀ e ∈ s₀.store.events, e.id ≠ id) ep s) ⟨h, hstart⟩
    fun s₁ l s₂ _ hi hs => ⟨hi.1.tail hs, hi.2.step (publishInv_of_reachable hi.1)
      (source_of_reachable (hi.1.tail hs)) (leaseInv_of_reachable hi.1).ids hs⟩
  exact hinv.2

/-! ### Every run -/

/-- In every run, with replays and whoever dies where: once an event is expanded, every endpoint of its tenant
that is subscribed to its type and was registered before the event was committed has a delivery of it. -/
theorem subscriber_served (h : Reachable (step cfg) (.init tenants) s₀) (hep : ep ∈ s₀.store.endpoints)
    (hr : Reachable (step cfg) s₀ s) (he : e ∈ s.store.events) (hnew : ∀ e₀ ∈ s₀.store.events, e₀.id ≠ e.id)
    (hsub : ep.isSubscribed e.tenantId e.type = true) (hexp : e.status = .expanded) :
    ∃ d ∈ s.store.deliveries, d.eventId = e.id ∧ d.endpointId = ep.id :=
  (servedInv_of_reachable h hep hr).events e he hexp hnew hsub

variable {polls : Nat → Poll} {c : CallId} {id : Uuid}

/-- Whatever happened between, and whichever workers died over it: once an event published after the
registration of a subscribed endpoint is acknowledged, one worker that goes on polling brings the store to where
the endpoint has a delivery of the event, and a resolved one unless the endpoint is not active. -/
theorem acked_resolved (h₀ : Reachable (restrict (Timely cfg) (step cfg)) (.init tenants) s₀)
    (hep : ep ∈ s₀.store.endpoints) (h : Reachable (restrict (Timely cfg) (step cfg)) s₀ s)
    (hack : (s.calls c).answer = some id) (hnew : ∀ e₀ ∈ s₀.store.events, e₀.id ≠ id)
    (hsub : ∀ e ∈ s.store.events, e.id = id → ep.isSubscribed e.tenantId e.type = true)
    (hpcs : ∀ w', s.pcs w' = .idle ∨ s.pcs w' = .dead) (hpc : s.pcs w = .idle)
    (htenant : ∀ e ∈ s.store.endpoints, ∃ t ∈ s.store.tenants, t.id = e.tenantId)
    (hdec : ∀ e ∈ s.store.endpoints, e.Decrypts cfg) (hp : Polling polls) (hnow : s.now ≤ (polls 0).now) :
    ∃ n, ∀ m, n ≤ m → ∃ d ∈ (s.loop cfg w polls m).store.deliveries, d.eventId = id ∧ d.endpointId = ep.id ∧
      ∀ ep' ∈ (s.loop cfg w polls m).store.endpoints, ep'.id = ep.id → ep'.status = .active →
        d.state.isTerminal = true := by
  have hr := h₀.trans h
  have ht : Tended cfg tenants w s := ⟨hr, isQuiet_of_reachable hr.of_restrict hpcs, hpc, htenant, hdec⟩
  obtain ⟨n, hn⟩ := drained_of_tended ht hp hnow
  refine ⟨n, fun m hm => ?_⟩
  obtain ⟨hdrained, -⟩ := hn m hm
  obtain ⟨e, he, hid⟩ := (publishInv_of_reachable hr.of_restrict).known c id hack
  have hloop := (ht.loop hp hnow m).of_restrict
  -- the acknowledged row is still there, and the loop has expanded it
  obtain ⟨e', he', hid', hte, hty, -⟩ := (grows_of_reachable hr.of_restrict hloop).events e he
  obtain ⟨d, hd, hev, hend⟩ :=
    (servedInv_of_reachable h₀.of_restrict hep (h.of_restrict.trans hloop)).events e' he'
    (hdrained.events e' he') (by rw [hid', hid]; exact hnew) (by rw [hte, hty]; exact hsub e he hid)
  refine ⟨d, hd, hev.trans (hid'.trans hid), hend, fun ep' hep' hepid hactive => ?_⟩
  exact hdrained.deliveries ep' hep' hactive d hd (hend.trans hepid.symm)

end

open Sample

/-- The endpoint is registered; its first event is published, acknowledged and expanded, and worker 0 dies over
the delivery. -/
theorem exists_diedOver : ∃ s₀ s, Reachable (restrict (Timely config) (step config)) start s₀ ∧
    Reachable (restrict (Timely config) (step config)) s₀ s ∧
    (s₀.store.endpoints = [endpoint none] ∧ s₀.store.events = []) ∧
    (∃ e ∈ s.store.events, e.id = 1 ∧ e.status = .expanded) ∧
    (s.calls 0).answer = some 1 ∧
    (∀ e ∈ s.store.events, (endpoint none).isSubscribed e.tenantId e.type = true) ∧
    (∀ w, s.pcs w = .idle ∨ s.pcs w = .dead) ∧ s.pcs 1 = .idle ∧
    s.store.endpoints = [endpoint (some (0, 3))] ∧ (∃ t ∈ s.store.tenants, t.id = 100) ∧ s.now = 0 := by
  obtain ⟨s₀, s, hs₀, hs, hp⟩ := exists_of_runs (restrict (TimelyAmong config [0]) (step config)) start
    [register] (publish 0 "k" ++ expand ++ claim 0 none 7 ++ [.die 0])
    (fun s₀ s => s₀.store.endpoints = [endpoint none] && s₀.store.events = [] &&
      (s.store.events.any fun e => e.id = 1 && e.status = .expanded) && (s.calls 0).answer = some 1 &&
      (s.store.events.all fun e => (endpoint none).isSubscribed e.tenantId e.type) && s.pcs 0 = .dead &&
      s.store.endpoints = [endpoint (some (0, 3))] && (s.store.tenants.any fun t => t.id = 100) && s.now = 0)
    (by decide)
  simp only [Bool.and_eq_true, decide_eq_true_eq, List.any_eq_true, List.all_eq_true] at hp
  obtain ⟨⟨⟨⟨⟨⟨⟨⟨hep, hev⟩, hexp⟩, hack⟩, hsub⟩, hdead⟩, hend⟩, ht⟩, hnow⟩ := hp
  have hidle₀ : ∀ w, w ≠ 0 → s₀.pcs w = .idle := fun w hw =>
    pcs_of_timelyAmong (fun _ _ h => h) (.of_run hs₀) (by simpa using hw)
  have hidle : ∀ w, w ≠ 0 → s.pcs w = .idle := fun w hw =>
    (pcs_of_timelyAmong (fun _ _ h => h) (.of_run hs) (by simpa using hw)).trans (hidle₀ w hw)
  refine ⟨s₀, s, timely_of_timelyAmong (fun _ _ => rfl) (fun _ _ h => h) (fun _ _ h _ => h) (.of_run hs₀),
    timely_of_timelyAmong (fun w hw => hidle₀ w (by simpa using hw)) (fun _ _ h => h) (fun _ _ h _ => h)
      (.of_run hs), ⟨hep, hev⟩, hexp, hack, hsub, fun w => ?_, hidle 1 (by decide), hend, ht, hnow⟩
  by_cases hw : w = 0
  · exact .inr (hw ▸ hdead)
  · exact .inl (hidle w hw)

theorem subscriber_served_sample : ∃ s₀ s ep e, Reachable (step config) start s₀ ∧
    Reachable (step config) s₀ s ∧ ep ∈ s₀.store.endpoints ∧ e ∈ s.store.events ∧
    ∃ d ∈ s.store.deliveries, d.eventId = e.id ∧ d.endpointId = ep.id := by
  obtain ⟨s₀, s, hs₀, hs, ⟨hep, hev⟩, ⟨e, he, -, hexp⟩, -, hsub, -⟩ := exists_diedOver
  have hmem : endpoint none ∈ s₀.store.endpoints := by rw [hep]; exact List.mem_singleton_self _
  exact ⟨s₀, s, endpoint none, e, hs₀.of_restrict, hs.of_restrict, hmem, he,
    subscriber_served hs₀.of_restrict hmem hs.of_restrict he (by rw [hev]; nofun) (hsub e he) hexp⟩

theorem acked_resolved_sample : ∃ s : Sys, (s.calls 0).answer = some 1 ∧
    ∃ n, ∀ m, n ≤ m → ∃ d ∈ (s.loop config 1 (pollsOf 200) m).store.deliveries, d.eventId = 1 ∧
      d.endpointId = (endpoint none).id ∧
      ∀ ep' ∈ (s.loop config 1 (pollsOf 200) m).store.endpoints, ep'.id = (endpoint none).id →
        ep'.status = .active → d.state.isTerminal = true := by
  obtain ⟨s₀, s, hs₀, hs, ⟨hep, hev⟩, -, hack, hsub, hpcs, hpc, hend, ⟨t, ht, htid⟩, hnow⟩ := exists_diedOver
  have hmem : endpoint none ∈ s₀.store.endpoints := by rw [hep]; exact List.mem_singleton_self _
  refine ⟨s, hack, acked_resolved hs₀ hmem hs hack (by rw [hev]; nofun) (fun e he _ => hsub e he) hpcs
    hpc (fun e he => ?_) (fun e he => ?_) (polling_pollsOf 200) (by rw [hnow]; exact Nat.zero_le _)⟩
  · rw [hend] at he
    rw [List.mem_singleton.mp he]
    exact ⟨t, ht, htid⟩
  · rw [hend] at he
    rw [List.mem_singleton.mp he]
    exact ⟨rfl, nofun⟩

end Webhooks
