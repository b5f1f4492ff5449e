import Webhooks.Protocol.Expansion

/-!
# Properties — Exactly-once expansion

Every event is expanded once, into one delivery for each endpoint of its tenant that is subscribed
to its type when the transaction's `INSERT … SELECT` runs.  Statements of several expansions, of
the API and of the clock interleave, and a worker may die between any two of its statements.

* `IsFanOut`: the rows an expansion is to insert; `insertDeliveries_isFanOut`.
* **`expanded_exactly_once`**: in every run without replay expansions.
* `late_endpoint`: an endpoint registered between the `INSERT` and its `COMMIT` gets nothing.
-/

namespace Webhooks

open Lib

/-- One pending row without attempts for each endpoint of the event's tenant that is subscribed to
its type, whatever its status, and none for any other. -/
structure IsFanOut (st : Store) (e : Event) (rows : List Delivery) : Prop where
  fresh : ∀ r ∈ rows, r.eventId = e.id ∧ r.state = .pending ∧ r.attemptCount = 0
  once : (rows.map (·.endpointId)).Nodup
  endpoints : ∀ id, id ∈ rows.map (·.endpointId) ↔
    ∃ ep ∈ st.endpoints, ep.id = id ∧ ep.tenantId = e.tenantId ∧ e.type ∈ ep.eventTypes

/-- The step adds no delivery and expands no event. -/
structure ExpandsNothing (s s' : Sys) : Prop where
  deliveries : s'.store.deliveries.map (·.id) = s.store.deliveries.map (·.id)
  events : ∀ e' ∈ s'.store.events, e'.status = .expanded →
    ∃ e ∈ s.store.events, e.id = e'.id ∧ e.status = .expanded

/-- The step commits `rows` together with the new status of a pending event, and nothing else. -/
structure Expands (s s' : Sys) (e : Event) (rows : List Delivery) : Prop where
  pending : e ∈ s.store.events ∧ e.status = .pendingExpansion
  deliveries : s'.store.deliveries = s.store.deliveries ++ rows
  events : s'.store.events =
    s.store.events.map fun e' => if e'.id = e.id then { e' with status := .expanded } else e'

section

variable {cfg : Config} {s s' : Sys} {l : Label} {w : WorkerId} {tenants : List Tenant} {st : Store}
  {e : Event} {rows : List Delivery}

theorem insertDeliveries_isFanOut (hn : (st.endpoints.map (·.id)).Nodup) (began : Time) (e : Event) :
    IsFanOut st e (insertDeliveries st began (.event e)).1 := by
  have hends : (insertDeliveries st began (.event e)).1.map (·.endpointId) =
      (st.endpoints.filter (Endpoint.isSubscribed e.tenantId e.type)).map (·.id) := by
    have hpairs : (insertDeliveries st began (.event e)).1.map (fun r => (r.eventId, r.endpointId)) =
        Expandable.fanOut st (.event e) := newDeliveries_pairs
    replace hpairs := congrArg (List.map Prod.snd) hpairs
    rw [List.map_map] at hpairs
    refine hpairs.trans ?_
    simp only [Expandable.fanOut, List.map_map]
    rfl
  refine ⟨fun r hr => ?_, ?_, fun id => ?_⟩
  · obtain ⟨hst, hcount⟩ := newDeliveries_fresh hr
    exact ⟨(insertDeliveries_ofTenant hr).1, hst, hcount⟩
  · rw [hends]
    exact (List.filter_sublist.map _).nodup hn
  · rw [hends]
    simp only [List.mem_map, List.mem_filter, Endpoint.isSubscribed, Bool.and_eq_true,
      decide_eq_true_eq, List.contains_iff_mem]
    constructor
    · rintro ⟨ep, ⟨hep, ht, hty⟩, hid⟩
      exact ⟨ep, hep, hid, ht, hty⟩
    · rintro ⟨ep, hep, hid, ht, hty⟩
      exact ⟨ep, ⟨hep, ht, hty⟩, hid⟩

/-! ### Where uncommitted rows come from -/

/-- The rows an open transaction is about to commit. -/
def Pc.expansion : Pc → Option (Expandable × List Delivery)
  | .marking src rows | .committing src rows => some (src, rows)
  | _ => none

theorem WorkerMove.expansion_cases {now : Time} {st' : Store} {pc pc' : Pc} {src : Expandable}
    (h : WorkerMove cfg now st w pc l st' pc') (hpc' : pc'.expansion = some (src, rows)) :
    pc.expansion = some (src, rows) ∨
      ∃ began, pc = .inserting began src ∧ rows = (insertDeliveries st began src).1 := by
  cases h with
  | outside _ _ _ hout =>
      cases pc' with
      | marking | committing => cases hout
      | _ => cases hpc'
  | insertRows =>
      cases hpc'
      exact .inr ⟨_, rfl, rfl⟩
  | setExpanded => exact .inl hpc'
  | _ => cases hpc'

variable {p : Sys → Label → Prop} [DecidableRel p]

/-- The rows of an open transaction are what its `INSERT … SELECT` found when it ran. -/
theorem inserted_of_reachable (h : Reachable (restrict p (step cfg)) (.init tenants) s) :
    ∀ w src rows, (s.pcs w).expansion = some (src, rows) →
      ∃ s₀ began, Reachable (restrict p (step cfg)) (.init tenants) s₀ ∧
        Reachable (restrict p (step cfg)) s₀ s ∧ s₀.pcs w = .inserting began src ∧
        rows = (insertDeliveries s₀.store began src).1 := by
  refine h.inv (I := fun s => ∀ w src rows, (s.pcs w).expansion = some (src, rows) →
    ∃ s₀ began, Reachable (restrict p (step cfg)) (.init tenants) s₀ ∧
      Reachable (restrict p (step cfg)) s₀ s ∧ s₀.pcs w = .inserting began src ∧
      rows = (insertDeliveries s₀.store began src).1) (fun _ _ _ h => by cases h)
    fun s₁ l s₂ hr hi hs w src rows hw => ?_
  have hold : (s₁.pcs w).expansion = some (src, rows) →
      ∃ s₀ began, Reachable (restrict p (step cfg)) (.init tenants) s₀ ∧
        Reachable (restrict p (step cfg)) s₀ s₂ ∧ s₀.pcs w = .inserting began src ∧
        rows = (insertDeliveries s₀.store began src).1 := by
    intro hw
    obtain ⟨s₀, began, hr₀, hr₁, hpc, hrows⟩ := hi w src rows hw
    exact ⟨s₀, began, hr₀, hr₁.tail hs, hpc, hrows⟩
  cases step_move (restrict_eq_some.mp hs).2 with
  | tick _ _ _ _ pcs | api _ _ pcs => exact hold (by rw [← pcs]; exact hw)
  | worker w' _ pcs h =>
      by_cases hww : w = w'
      · subst hww
        rcases h.expansion_cases hw with hw | ⟨began, hpc, hrows⟩
        · exact hold hw
        · exact ⟨s₁, began, hr, .one hs, hpc, hrows⟩
      · exact hold (by rw [← pcs w hww]; exact hw)

/-! ### One step -/

theorem ExpandsNothing.of_eq (hd : s'.store.deliveries.map (·.id) = s.store.deliveries.map (·.id))
    (he : s'.store.events = s.store.events) : ExpandsNothing s s' :=
  ⟨hd, fun e' he' hs => ⟨e', he ▸ he', rfl, hs⟩⟩

/-- A step commits an event's expansion, or expands nothing. -/
theorem step_expands (hi : ExpandInv cfg s) (hp : PublishInv s) (h : step cfg s l = some s') :
    ExpandsNothing s s' ∨ ∃ w e rows, l = .step w ∧ s.pcs w = .committing (.event e) rows ∧
      Expands s s' e rows := by
  by_cases hc : ∃ w src rows, l = .step w ∧ s.pcs w = .committing src rows
  · obtain ⟨w, src, rows, rfl, hpc⟩ := hc
    cases src with
    | replay r =>
        have := hi.noReplay w
        rw [hpc] at this
        cases this
    | event e =>
        have hst := (commit_step hpc h).1
        refine .inr ⟨w, e, rows, rfl, hpc, hi.source w e (by rw [hpc]; rfl), ?_, ?_⟩ <;> rw [hst]
        · rfl
        · simp only [commitExpansion, markExpanded, Table.update, decide_eq_true_eq]
  · left
    have hids : s'.store.deliveries.map (·.id) = s.store.deliveries.map (·.id) := by
      cases step_move h with
      | tick _ _ _ store => rw [store]
      | api _ _ _ h => rw [h.deliveries]
      | worker w _ _ h =>
          obtain ⟨g, new, heq, hg, hnew⟩ := h.deliveries
          rcases hnew with rfl | ⟨src, hl, hpc⟩
          · rw [heq, List.append_nil, List.map_map]
            exact List.map_congr_left fun d hd => (hg d hd).id_eq
          · exact absurd ⟨w, src, new, hl, hpc⟩ hc
    cases step_publish h with
    | quiet src events _ _ _ commit =>
        cases src with
        | none => exact .of_eq hids events
        | some e =>
            obtain ⟨w, rows, hl, hpc⟩ := commit e rfl
            exact absurd ⟨w, _, rows, hl, hpc⟩ hc
    | call _ _ events | insert _ _ _ events | abort _ _ _ _ events => exact .of_eq hids events
    | commit c row _ before events =>
        -- the row a publish commits is pending
        refine ⟨hids, fun e' he' hs => ?_⟩
        rw [events] at he'
        rcases List.mem_append.mp he' with he' | he'
        · exact ⟨e', he', rfl, hs⟩
        · rw [List.mem_singleton.mp he', hp.pending row (hp.inserting c row before)] at hs
          cases hs

/-! ### Every run -/

/-- In every run without replay expansions, whoever dies where.

* A step either adds no delivery and expands no event, or is the `COMMIT` of one pending event
  together with its rows; these are the event's fan-out over the endpoints there were when the
  transaction's `INSERT … SELECT` ran.  The death of a worker changes no table.
* Deliveries belong to expanded events.  An expanded event stays expanded and gets no more
  deliveries.
* Of two events of a tenant, the one committed before the other was inserted has the deliveries
  with the smaller `seq`, on whatever endpoint. -/
theorem expanded_exactly_once (h : Reachable (restrict NoReplay (step cfg)) (.init tenants) s) :
    (∀ l s', restrict NoReplay (step cfg) s l = some s' → ExpandsNothing s s' ∨
      ∃ w e rows, l = .step w ∧ Expands s s' e rows ∧
        ∃ s₀ began, Reachable (restrict NoReplay (step cfg)) (.init tenants) s₀ ∧
          Reachable (restrict NoReplay (step cfg)) s₀ s ∧ s₀.pcs w = .inserting began (.event e) ∧
          rows = (insertDeliveries s₀.store began (.event e)).1 ∧ IsFanOut s₀.store e rows) ∧
    (∀ w s', step cfg s (.die w) = some s' → s'.store = s.store) ∧
    (∀ d ∈ s.store.deliveries, IsExpanded s.store d.eventId) ∧
    ∀ s', Reachable (restrict NoReplay (step cfg)) s s' →
      (∀ id, IsExpanded s.store id → IsExpanded s'.store id ∧
        ∀ d' ∈ s'.store.deliveries, d'.eventId = id → ∃ d ∈ s.store.deliveries, d.id = d'.id) ∧
      ∀ e₁ ∈ s.store.events, ∀ e₂ ∈ s'.store.events, (∀ e ∈ s.allEvents, e.id ≠ e₂.id) →
        e₁.tenantId = e₂.tenantId → ∀ d₁ ∈ s'.store.deliveries, ∀ d₂ ∈ s'.store.deliveries,
        d₁.eventId = e₁.id → d₂.eventId = e₂.id → d₁.seq < d₂.seq := by
  have hp : ∀ s l, NoReplay s l → NoReplay s l := fun _ _ h => h
  have hi := expandInv_of_reachable hp h
  refine ⟨fun l s' hs => ?_, fun w s' hs => by cases hs; rfl, fun d hd => ?_, fun s' hr => ⟨?_, ?_⟩⟩
  · rcases step_expands hi (publishInv_of_reachable h.of_restrict) (restrict_eq_some.mp hs).2 with
      hnone | ⟨w, e, rows, hl, hpc, hexp⟩
    · exact .inl hnone
    · obtain ⟨s₀, began, hr₀, hr₁, hpc₀, hrows⟩ :=
        inserted_of_reachable h w (.event e) rows (by rw [hpc]; rfl)
      refine .inr ⟨w, e, rows, hl, hexp, s₀, began, hr₀, hr₁, hpc₀, hrows, ?_⟩
      rw [hrows]
      exact insertDeliveries_isFanOut (leaseInv_of_reachable hr₀.of_restrict).ids began e
  · obtain ⟨e, he, hid, hs, -⟩ := hi.delivered d hd
    exact ⟨e, he, hid, hs⟩
  · intro id hexp
    obtain ⟨hexp', hold⟩ := expanded_of_reachable hp h hexp hr
    refine ⟨hexp', fun d' hd' hev => ?_⟩
    obtain ⟨d, hd, hid, -⟩ := hold d' hd' hev
    exact ⟨d, hd, hid⟩
  · intro e₁ he₁ e₂ he₂ hnew ht d₁ hd₁ d₂ hd₂ hev₁ hev₂
    have hids := (publishInv_of_reachable (h.trans hr).of_restrict).eventIds
    have horder := expandedInOrder_of_reachable hp h he₁ hnew hr fun e he hid => by
      rw [ht, Table.eq_of_key hids he he₂ hid]
    exact (horder.deliveries d₂ hd₂ hev₂).2 d₁ hd₁ hev₁

end

/-! ### A registration inside the transaction -/

open Sample

/-- Worker 0's expansion up to its `INSERT`, a second endpoint, and the `UPDATE` of the status. -/
def registerBeforeCommit : List Label :=
  register :: publish 0 "k" ++ [.start 0 .expansion, .step 0, .step 0, .step 0, register, .step 0]

theorem expanded_exactly_once_sample : ∃ s s', Reachable (restrict NoReplay (step config)) start s ∧
    restrict NoReplay (step config) s (.step 0) = some s' ∧ ¬ ExpandsNothing s s' ∧
    ∃ w e rows, Expands s s' e rows ∧ rows.length = 1 ∧
      ∃ s₀ : Sys, ∃ began, s₀.pcs w = .inserting began (.event e) ∧ IsFanOut s₀.store e rows := by
  obtain ⟨s, s', hs, hs', hp⟩ := exists_of_runs (restrict NoReplay (step config)) start
    registerBeforeCommit [.step 0]
    (fun s s' => s'.store.deliveries.length = 1 && s.store.deliveries.length = 0) (by decide)
  simp only [Bool.and_eq_true, decide_eq_true_eq] at hp
  rw [run_singleton] at hs'
  have hnot : ¬ ExpandsNothing s s' := by
    intro hnone
    have := congrArg List.length hnone.deliveries
    rw [List.length_map, List.length_map, hp.1, hp.2] at this
    cases this
  rcases (expanded_exactly_once (.of_run hs)).1 _ _ hs' with
    hnone | ⟨w, e, rows, -, hexp, s₀, began, -, -, hpc, -, hfan⟩
  · exact absurd hnone hnot
  · refine ⟨s, s', .of_run hs, hs', hnot, w, e, rows, hexp, ?_, s₀, began, hpc, hfan⟩
    have := congrArg List.length hexp.deliveries
    rw [List.length_append, hp.1, hp.2, Nat.zero_add] at this
    exact this.symm

/-- The second endpoint is there and subscribed when the expansion commits, and gets nothing. -/
theorem late_endpoint : ∃ s s' e ep, Reachable (restrict NoReplay (step config)) start s ∧
    step config s (.step 0) = some s' ∧
    (e ∈ s.store.events ∧ e.status = .pendingExpansion) ∧ IsExpanded s'.store e.id ∧
    (ep ∈ s.store.endpoints ∧ ep.tenantId = e.tenantId ∧ e.type ∈ ep.eventTypes) ∧
    ∀ d ∈ s'.store.deliveries, d.eventId = e.id → d.endpointId ≠ ep.id := by
  obtain ⟨s, s', hs, hs', hp⟩ := exists_of_runs (restrict NoReplay (step config)) start
    registerBeforeCommit [.step 0] (fun s s' => s.store.events.any fun e =>
      e.status = .pendingExpansion && (s'.store.events.any fun e' => e'.id = e.id &&
        e'.status = .expanded) && s.store.endpoints.any fun ep => ep.tenantId = e.tenantId &&
        ep.eventTypes.contains e.type && s'.store.deliveries.all fun d =>
          d.eventId ≠ e.id || d.endpointId ≠ ep.id) (by decide)
  simp only [Bool.and_eq_true, Bool.or_eq_true, decide_eq_true_eq, List.any_eq_true,
    List.all_eq_true, List.contains_iff_mem] at hp
  obtain ⟨e, he, ⟨hpend, e', he', hid, hexp⟩, ep, hep, ⟨ht, hty⟩, hnone⟩ := hp
  rw [run_singleton] at hs'
  exact ⟨s, s', e, ep, .of_run hs, (restrict_eq_some.mp hs').2, ⟨he, hpend⟩, ⟨e', he', hid, hexp⟩,
    ⟨hep, ht, hty⟩, fun d hd hev => (hnone d hd).resolve_left fun h => h hev⟩

end Webhooks
