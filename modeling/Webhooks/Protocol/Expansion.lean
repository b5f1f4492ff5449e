import Webhooks.Protocol.Order
import Webhooks.Protocol.Publish

/-!
# Protocol — Expansion

Event expansion in every run without replay expansions, statement by statement: the event is
selected without a row lock, so everything rests on the tenant's advisory lock.

* `LockMove`, **`step_locks`**: how a step changes the advisory locks, and where it leaves the
  worker that holds one.
* `ExpandInv`, **`expandInv_of_reachable`**: one transaction at a time for a tenant, or for tenants
  whose keys collide; its event is pending until it commits; a committed delivery belongs to an
  expanded event of its endpoint's tenant.
* `ordered_of_noReplay`: what a transaction has inserted comes after every committed delivery of
  its endpoint.
* **`expandedInOrder_of_reachable`**: an event committed before another of its tenant was inserted
  is expanded first, and its deliveries have the smaller sequence values.
-/

namespace Webhooks

open Lib

/-- Nobody starts `runReplayExpansionCycle`. -/
def NoReplay (_ : Sys) : Label → Prop
  | .start _ .replay => False
  | _ => True

instance : DecidableRel NoReplay := fun _ l => by
  unfold NoReplay
  split <;> exact inferInstance

/-! ### Where a worker's transaction stands -/

/-- The event of an open transaction. -/
def Pc.source : Pc → Option Event
  | .inserting _ (.event e) | .marking (.event e) _ | .committing (.event e) _ => some e
  | _ => none

/-- The tenant whose lock an open transaction holds. -/
def Pc.tenant : Pc → Option Uuid
  | .selecting _ t _ => some t
  | pc => pc.source.map (·.tenantId)

/-- Inside `runReplayExpansionCycle`. -/
def Pc.isReplaying : Pc → Bool
  | .replaying _ | .inserting _ (.replay ..) | .marking (.replay ..) _ | .committing (.replay ..) _ =>
      true
  | _ => false

theorem Pc.tenant_of_source {pc : Pc} {e : Event} (h : pc.source = some e) :
    pc.tenant = some e.tenantId := by
  cases pc with
  | selecting => cases h
  | _ => simp [Pc.tenant, h]

/-- Without replays, uncommitted rows belong to an event. -/
theorem Pc.source_of_rows {pc : Pc} (hn : pc.isReplaying = false) {r : Delivery} (h : r ∈ pc.rows) :
    ∃ e, pc.source = some e := by
  cases pc with
  | marking src | committing src =>
      cases src with
      | event e => exact ⟨e, rfl⟩
      | replay => cases hn
  | _ => cases h

/-! ### Locks -/

/-- What a step does to the advisory locks. -/
inductive LockMove (cfg : Config) (s : Sys) (s' : Sys) : Prop
  | keep (locks : s'.advisoryLocks = s.advisoryLocks)
      (tenant : ∀ w, (s'.pcs w).tenant = (s.pcs w).tenant)
      (source : ∀ w, (s'.pcs w).source = (s.pcs w).source)
  | lock (w : WorkerId) (t : Uuid) (free : ∀ k ∈ s.advisoryLocks, k.1 ≠ cfg.hashtext t)
      (locks : s'.advisoryLocks = (cfg.hashtext t, w) :: s.advisoryLocks)
      (others : ∀ w', w' ≠ w → s'.pcs w' = s.pcs w') (tenant : (s'.pcs w).tenant = some t)
      (source : (s'.pcs w).source = none)
  | select (w : WorkerId) (t : Uuid) (e : Event) (store : s'.store = s.store)
      (locks : s'.advisoryLocks = s.advisoryLocks)
      (others : ∀ w', w' ≠ w → s'.pcs w' = s.pcs w') (before : (s.pcs w).tenant = some t)
      (selected : selectEvent s.store t = some e) (source : (s'.pcs w).source = some e)
      (rows : (s'.pcs w).rows = [])
  | release (w : WorkerId) (locks : s'.advisoryLocks = s.advisoryLocks.filter fun k => k.2 ≠ w)
      (others : ∀ w', w' ≠ w → s'.pcs w' = s.pcs w') (tenant : (s'.pcs w).tenant = none)
      (source : (s'.pcs w).source = none)

section

variable {cfg : Config} {s s' s₁ : Sys} {l : Label} {w : WorkerId} {tenants : List Tenant}
  {e e₁ e₂ : Event} {st : Store}

/-- A worker's step outside the statements that take or release a lock. -/
theorem LockMove.of_setPc {t : Sys} {pc' : Pc} (locks : t.advisoryLocks = s.advisoryLocks)
    (pcs : t.pcs = s.pcs) (htenant : pc'.tenant = (s.pcs w).tenant)
    (hsource : pc'.source = (s.pcs w).source) : LockMove cfg s (t.setPc w pc') := by
  refine .keep locks (fun w' => ?_) fun w' => ?_ <;>
  · by_cases hw : w' = w
    · rw [hw, Sys.setPc_pcs_self]
      assumption
    · rw [Sys.setPc_pcs_of_ne hw, pcs]

theorem Pc.afterClaim_outside (c : Claim) (r : ClaimResult) :
    (Pc.afterClaim c r).tenant = none ∧ (Pc.afterClaim c r).source = none ∧
      (Pc.afterClaim c r).isReplaying = false := by
  cases r <;> exact ⟨rfl, rfl, rfl⟩

theorem selectEvent_eq_some {t : Uuid} (h : selectEvent st t = some e) :
    (e ∈ st.events ∧ e.tenantId = t ∧ e.status = .pendingExpansion) ∧
      ∀ e' ∈ st.events, e'.tenantId = t → e'.status = .pendingExpansion → e.seq ≤ e'.seq := by
  obtain ⟨he, hp⟩ := List.mem_filter.mp (List.argmin_mem h)
  refine ⟨⟨he, by simpa using hp⟩, fun e' he' ht hs => ?_⟩
  have hmem : e' ∈ st.events.filter fun e => e.tenantId = t && e.status = .pendingExpansion :=
    List.mem_filter.mpr ⟨he', by simp [ht, hs]⟩
  exact List.le_of_mem_argmin hmem h

/-- The statements of a worker outside replay expansions. -/
theorem workerStep_locks (hn : (s.pcs w).isReplaying = false) (h : workerStep cfg s w = some s') :
    LockMove cfg s s' := by
  cases hpc : s.pcs w with
  | idle | dead | listing | holding | sent => simp only [workerStep, hpc] at h; cases h
  | trying cutoff cs =>
      cases cs with
      | nil =>
          simp only [workerStep, hpc] at h
          cases h
          exact .of_setPc rfl rfl (by rw [hpc]; rfl) (by rw [hpc]; rfl)
      | cons c rest =>
          simp only [workerStep, hpc] at h
          split at h <;> cases h <;>
            exact .of_setPc rfl rfl (by rw [hpc]; rfl) (by rw [hpc]; rfl)
  | claiming c next =>
      simp only [workerStep, hpc] at h
      cases h
      obtain ⟨ht, hs, -⟩ := Pc.afterClaim_outside c (claimStep cfg s.now s.store c next).2
      exact .of_setPc rfl rfl (by rw [hpc, ht]; rfl) (by rw [hpc, hs]; rfl)
  | expanding ts =>
      cases ts with
      | nil =>
          simp only [workerStep, hpc] at h
          cases h
          exact .of_setPc rfl rfl (by rw [hpc]; rfl) (by rw [hpc]; rfl)
      | cons t ts =>
          simp only [workerStep, hpc] at h
          split at h
          · cases h
            exact .of_setPc rfl rfl (by rw [hpc]; rfl) (by rw [hpc]; rfl)
          · next hfree =>
              cases h
              refine .lock w t (fun k hk heq => hfree ?_) rfl (fun w' hw => Sys.setPc_pcs_of_ne hw _)
                (by rw [Sys.setPc_pcs_self]; rfl) (by rw [Sys.setPc_pcs_self]; rfl)
              exact List.any_eq_true.mpr ⟨k, hk, by simpa using heq⟩
  | selecting began t ts =>
      simp only [workerStep, hpc] at h
      split at h
      · cases h
        exact .release w rfl (fun w' hw => Sys.setPc_pcs_of_ne (s := s.unlock w) hw _)
          (by rw [Sys.setPc_pcs_self]; rfl) (by rw [Sys.setPc_pcs_self]; rfl)
      · next e he =>
          cases h
          exact .select w t e rfl rfl (fun w' hw => Sys.setPc_pcs_of_ne hw _) (by rw [hpc]; rfl) he
            (by rw [Sys.setPc_pcs_self]; rfl) (by rw [Sys.setPc_pcs_self]; rfl)
  | replaying => rw [hpc] at hn; cases hn
  | inserting began src | marking src rows =>
      simp only [workerStep, hpc] at h
      cases h
      refine .of_setPc rfl rfl ?_ ?_ <;>
      · rw [hpc]
        cases src <;> rfl
  | committing src rows =>
      simp only [workerStep, hpc] at h
      cases h
      exact .release w rfl (fun w' hw => Sys.setPc_pcs_of_ne (s := s.unlock w) hw _)
        (by rw [Sys.setPc_pcs_self]; rfl) (by rw [Sys.setPc_pcs_self]; rfl)

/-- A step of the API or the clock moves no worker and no lock. -/
theorem step_api_locks (hl : l.worker = none) (h : step cfg s l = some s') :
    s'.advisoryLocks = s.advisoryLocks ∧ s'.pcs = s.pcs := by
  cases l with
  | tick | register | pause | resume | rotate => cases h; exact ⟨rfl, rfl⟩
  | request | publish | abort | requestReplay | replay | abortReplay =>
      simp only [step, publishStep, replayStep] at h
      repeat' split at h
      all_goals
        cases h
        try exact ⟨rfl, rfl⟩
  | _ => cases hl

/-- How a step outside replay expansions changes the locks. -/
theorem step_locks (hn : ∀ w, (s.pcs w).isReplaying = false) (hl : NoReplay s l)
    (h : step cfg s l = some s') : LockMove cfg s s' := by
  cases l with
  | start w job =>
      simp only [step] at h
      split at h <;> cases h
      next hpc =>
          cases job with
          | replay => cases hl
          | claim | expansion => exact .of_setPc rfl rfl (by rw [hpc]; rfl) (by rw [hpc]; rfl)
  | query w | send w | complete w =>
      simp only [step] at h
      repeat' split at h
      all_goals
        cases h
        try
          next hpc _ => exact .of_setPc rfl rfl (by rw [hpc]; rfl) (by rw [hpc]; rfl)
        try
          next hpc => exact .of_setPc rfl rfl (by rw [hpc]; rfl) (by rw [hpc]; rfl)
  | step w => exact workerStep_locks (hn w) h
  | die w =>
      cases h
      exact .release w rfl (fun w' hw => Sys.setPc_pcs_of_ne (s := s.unlock w) hw _)
        (by rw [Sys.setPc_pcs_self]; rfl) (by rw [Sys.setPc_pcs_self]; rfl)
  | _ =>
      obtain ⟨hlocks, hpcs⟩ := step_api_locks rfl h
      exact .keep hlocks (fun w => by rw [hpcs]) fun w => by rw [hpcs]

theorem Sys.setPc_isReplaying {t : Sys} {pc' : Pc} (hn : ∀ w, (s.pcs w).isReplaying = false)
    (pcs : t.pcs = s.pcs) (h : pc'.isReplaying = false) (w' : WorkerId) :
    ((t.setPc w pc').pcs w').isReplaying = false := by
  by_cases hw : w' = w
  · rw [hw, Sys.setPc_pcs_self]
    exact h
  · rw [Sys.setPc_pcs_of_ne hw, pcs]
    exact hn w'

theorem workerStep_isReplaying (hn : ∀ w, (s.pcs w).isReplaying = false)
    (h : workerStep cfg s w = some s') : ∀ w, (s'.pcs w).isReplaying = false := by
  have hw := hn w
  cases hpc : s.pcs w with
  | replaying => rw [hpc] at hw; cases hw
  | claiming c next =>
      simp only [workerStep, hpc] at h
      cases h
      exact Sys.setPc_isReplaying hn rfl
        (Pc.afterClaim_outside c (claimStep cfg s.now s.store c next).2).2.2
  | inserting began src | marking src rows =>
      simp only [workerStep, hpc] at h
      cases h
      refine Sys.setPc_isReplaying hn rfl ?_
      rw [hpc] at hw
      cases src with
      | event => rfl
      | replay => cases hw
  | trying cutoff cs | expanding cs =>
      cases cs <;> simp only [workerStep, hpc] at h
      all_goals
        try split at h
        all_goals
          cases h
          exact Sys.setPc_isReplaying hn rfl rfl
  | _ =>
      simp only [workerStep, hpc] at h
      try split at h
      all_goals
        cases h
        try exact Sys.setPc_isReplaying hn rfl rfl

/-- Nobody gets inside a replay expansion. -/
theorem step_isReplaying (hn : ∀ w, (s.pcs w).isReplaying = false) (hl : NoReplay s l)
    (h : step cfg s l = some s') : ∀ w, (s'.pcs w).isReplaying = false := by
  cases l with
  | start w job =>
      simp only [step] at h
      split at h <;> cases h
      cases job with
      | replay => cases hl
      | claim | expansion => exact Sys.setPc_isReplaying hn rfl rfl
  | query w | send w | complete w =>
      simp only [step] at h
      repeat' split at h
      all_goals
        cases h
        try exact Sys.setPc_isReplaying hn rfl rfl
  | step w => exact workerStep_isReplaying hn h
  | die w => cases h; exact Sys.setPc_isReplaying hn rfl rfl
  | _ =>
      obtain ⟨-, hpcs⟩ := step_api_locks rfl h
      rw [hpcs]
      exact hn

/-! ### The invariant -/

/-- The endpoint of the delivery is one of the tenant's. -/
def Delivery.IsOfTenant (st : Store) (t : Uuid) (d : Delivery) : Prop :=
  ∃ ep ∈ st.endpoints, ep.id = d.endpointId ∧ ep.tenantId = t

structure ExpandInv (cfg : Config) (s : Sys) : Prop where
  keys : (s.advisoryLocks.map Prod.fst).Nodup
  held : ∀ w t, (s.pcs w).tenant = some t → (cfg.hashtext t, w) ∈ s.advisoryLocks
  source : ∀ w e, (s.pcs w).source = some e → e ∈ s.store.events ∧ e.status = .pendingExpansion
  rows : ∀ w e, (s.pcs w).source = some e → ∀ r ∈ (s.pcs w).rows,
    r.eventId = e.id ∧ r.IsOfTenant s.store e.tenantId
  delivered : ∀ d ∈ s.store.deliveries, ∃ e ∈ s.store.events,
    e.id = d.eventId ∧ e.status = .expanded ∧ d.IsOfTenant s.store e.tenantId
  noReplay : ∀ w, (s.pcs w).isReplaying = false

/-- Tenants with one key have one worker inside their transactions. -/
theorem ExpandInv.worker_eq (hi : ExpandInv cfg s) {w' : WorkerId} {t t' : Uuid}
    (h : (s.pcs w).tenant = some t) (h' : (s.pcs w').tenant = some t')
    (heq : cfg.hashtext t = cfg.hashtext t') : w = w' :=
  congrArg Prod.snd (Table.eq_of_key hi.keys (hi.held w t h) (hi.held w' t' h') heq)

theorem Delivery.IsOfTenant.grow {st' : Store} {t : Uuid} {d d' : Delivery} (h : d.IsOfTenant st t)
    (hg : Grows st st') (he : d'.endpointId = d.endpointId) : d'.IsOfTenant st' t := by
  obtain ⟨ep, hep, hid, ht⟩ := h
  obtain ⟨ep', hep', hid', ht', -⟩ := hg.endpoints ep hep
  exact ⟨ep', hep', hid'.trans (hid.trans he.symm), ht'.trans ht⟩

/-- An expansion's `COMMIT`. -/
theorem commit_step {src : Expandable} {rows : List Delivery} (hpc : s.pcs w = .committing src rows)
    (h : step cfg s (.step w) = some s') :
    s'.store = commitExpansion s.store src rows ∧ s'.pcs w = .idle := by
  simp only [step, workerStep, hpc] at h
  cases h
  exact ⟨rfl, Sys.setPc_pcs_self _⟩

theorem mem_expandEvents_of_mem {src : Option Event} {es : List Event} (he : e ∈ es) :
    ∃ e' ∈ expandEvents src es, (e'.id = e.id ∧ e'.tenantId = e.tenantId) ∧
      (e.status = .expanded → e'.status = .expanded) := by
  cases src with
  | none => exact ⟨e, he, ⟨rfl, rfl⟩, fun h => h⟩
  | some e₀ =>
      refine ⟨_, Table.mem_update_of_mem he, ?_⟩
      split
      · exact ⟨⟨rfl, rfl⟩, fun _ => rfl⟩
      · exact ⟨⟨rfl, rfl⟩, fun h => h⟩

/-- Expanded is for good. -/
theorem step_expanded (h : step cfg s l = some s') (he : e ∈ s.store.events)
    (hs : e.status = .expanded) :
    ∃ e' ∈ s'.store.events, e'.id = e.id ∧ e'.tenantId = e.tenantId ∧ e'.status = .expanded := by
  cases step_publish h with
  | quiet src events =>
      rw [events]
      obtain ⟨e', he', ⟨hid, ht⟩, hst⟩ := mem_expandEvents_of_mem he
      exact ⟨e', he', hid, ht, hst hs⟩
  | call _ _ events | insert _ _ _ events | abort _ _ _ _ events =>
      rw [events]
      exact ⟨e, he, rfl, rfl, hs⟩
  | commit _ _ _ _ events =>
      rw [events]
      exact ⟨e, List.mem_append_left _ he, rfl, rfl, hs⟩

/-- An event row stays as it is, unless the step commits its expansion. -/
theorem step_event_kept (h : step cfg s l = some s') (he : e ∈ s.store.events) :
    e ∈ s'.store.events ∨ ∃ w e₀ rows, l = .step w ∧ s.pcs w = .committing (.event e₀) rows ∧
      e₀.id = e.id := by
  cases step_publish h with
  | quiet src events _ _ _ commit =>
      rw [events]
      cases src with
      | none => exact .inl he
      | some e₀ =>
          by_cases hid : e₀.id = e.id
          · obtain ⟨w, rows, hl, hpc⟩ := commit e₀ rfl
            exact .inr ⟨w, e₀, rows, hl, hpc, hid⟩
          · exact .inl (Table.mem_update_of_neg he (by simpa using fun h => hid h.symm))
  | call _ _ events | insert _ _ _ events | abort _ _ _ _ events =>
      rw [events]
      exact .inl he
  | commit _ _ _ _ events =>
      rw [events]
      exact .inl (List.mem_append_left _ he)

/-- The event of a transaction was its event before, or has just been selected. -/
theorem LockMove.source_cases (h : LockMove cfg s s') (he : (s'.pcs w).source = some e) :
    (s.pcs w).source = some e ∨
      ∃ t, s'.store = s.store ∧ selectEvent s.store t = some e ∧ (s.pcs w).tenant = some t ∧
        (s'.pcs w).rows = [] := by
  cases h with
  | keep _ _ source => exact .inl (by rw [← source]; exact he)
  | lock w' t _ _ others _ source =>
      by_cases hw : w = w'
      · rw [hw, source] at he
        cases he
      · exact .inl (by rw [← others w hw]; exact he)
  | select w' t e' store _ others before selected source rows =>
      by_cases hw : w = w'
      · rw [hw, source] at he
        cases he
        exact .inr ⟨t, store, selected, by rw [hw]; exact before, by rw [hw]; exact rows⟩
      · exact .inl (by rw [← others w hw]; exact he)
  | release w' _ others _ source =>
      by_cases hw : w = w'
      · rw [hw, source] at he
        cases he
      · exact .inl (by rw [← others w hw]; exact he)

/-! #### Locks -/

theorem LockMove.keys (h : LockMove cfg s s') (hi : ExpandInv cfg s) :
    (s'.advisoryLocks.map Prod.fst).Nodup := by
  cases h with
  | keep locks | select _ _ _ _ locks => rw [locks]; exact hi.keys
  | lock w t free locks =>
      rw [locks, List.map_cons, List.nodup_cons]
      refine ⟨fun hm => ?_, hi.keys⟩
      obtain ⟨k, hk, heq⟩ := List.mem_map.mp hm
      exact free k hk heq
  | release w locks =>
      rw [locks]
      exact (List.filter_sublist.map _).nodup hi.keys

theorem LockMove.held (h : LockMove cfg s s') (hi : ExpandInv cfg s) :
    ∀ w t, (s'.pcs w).tenant = some t → (cfg.hashtext t, w) ∈ s'.advisoryLocks := by
  intro w t ht
  cases h with
  | keep locks tenant =>
      rw [locks]
      exact hi.held w t (by rw [← tenant]; exact ht)
  | lock w' t' _ locks others tenant =>
      rw [locks]
      by_cases hw : w = w'
      · rw [hw, tenant] at ht
        cases ht
        rw [hw]
        exact List.mem_cons_self
      · exact List.mem_cons_of_mem _ (hi.held w t (by rw [← others w hw]; exact ht))
  | select w' t' e _ locks others before selected source =>
      rw [locks]
      by_cases hw : w = w'
      · rw [hw, Pc.tenant_of_source source, (selectEvent_eq_some selected).1.2.1] at ht
        cases ht
        exact hi.held w t (by rw [hw]; exact before)
      · exact hi.held w t (by rw [← others w hw]; exact ht)
  | release w' locks others tenant =>
      by_cases hw : w = w'
      · rw [hw, tenant] at ht
        cases ht
      · rw [locks]
        exact List.mem_filter.mpr ⟨hi.held w t (by rw [← others w hw]; exact ht), by simpa using hw⟩

/-! #### Events and rows -/

/-- The event of a transaction stays pending until it commits: no other transaction is for the
event's tenant. -/
theorem ExpandInv.source_step (hi : ExpandInv cfg s) (hn : (s.store.events.map (·.id)).Nodup)
    (hm : LockMove cfg s s') (h : step cfg s l = some s') (he : (s'.pcs w).source = some e) :
    e ∈ s'.store.events ∧ e.status = .pendingExpansion := by
  rcases hm.source_cases he with hsrc | ⟨t, hst, hsel, -, -⟩
  · obtain ⟨hmem, hpend⟩ := hi.source w e hsrc
    refine ⟨?_, hpend⟩
    rcases step_event_kept h hmem with hkept | ⟨w₀, e₀, rows, rfl, hpc, hid⟩
    · exact hkept
    · have hsrc₀ : (s.pcs w₀).source = some e₀ := by rw [hpc]; rfl
      obtain rfl : e₀ = e := Table.eq_of_key hn (hi.source w₀ e₀ hsrc₀).1 hmem hid
      obtain rfl : w₀ = w :=
        hi.worker_eq (Pc.tenant_of_source hsrc₀) (Pc.tenant_of_source hsrc) rfl
      rw [(commit_step hpc h).2] at he
      cases he
  · rw [hst]
    obtain ⟨⟨hmem, -, hpend⟩, -⟩ := selectEvent_eq_some hsel
    exact ⟨hmem, hpend⟩

/-- What the `INSERT … SELECT` of an event inserts is the event's, for endpoints of its tenant. -/
theorem insertDeliveries_ofTenant {began : Time} {r : Delivery}
    (h : r ∈ (insertDeliveries st began (.event e)).1) :
    r.eventId = e.id ∧ r.IsOfTenant st e.tenantId := by
  rcases fanOut_mem (newDeliveries_mem h) with ⟨e', heq, hid, ep, hep, hepid, hsub⟩ |
    ⟨_, ⟨_, heq⟩, -⟩
  · cases heq
    simp only [Endpoint.isSubscribed, Bool.and_eq_true, decide_eq_true_eq] at hsub
    exact ⟨hid, ep, hep, hepid, hsub.1⟩
  · cases heq

theorem ExpandInv.rows_step (hi : ExpandInv cfg s) (hg : Grows s.store s'.store)
    (hm : LockMove cfg s s') (h : step cfg s l = some s') (he : (s'.pcs w).source = some e)
    {r : Delivery} (hr : r ∈ (s'.pcs w).rows) :
    r.eventId = e.id ∧ r.IsOfTenant s'.store e.tenantId := by
  rcases hm.source_cases he with hsrc | ⟨t, -, -, -, hnil⟩
  case inr => rw [hnil] at hr; cases hr
  have hold : r ∈ (s.pcs w).rows → r.eventId = e.id ∧ r.IsOfTenant s'.store e.tenantId :=
    fun hr => ⟨(hi.rows w e hsrc r hr).1, (hi.rows w e hsrc r hr).2.grow hg rfl⟩
  cases step_move h with
  | tick _ _ _ _ pcs | api _ _ pcs => exact hold (by rw [← pcs]; exact hr)
  | worker w' _ pcs h =>
      by_cases hw : w = w'
      · subst hw
        rcases h.rows_cases with hrows | ⟨hrows, -⟩ | ⟨began, src, hpc, hst, hrows⟩
        · rw [hrows] at hr
          cases hr
        · exact hold (hrows ▸ hr)
        · rw [hpc] at hsrc
          cases src with
          | replay => cases hsrc
          | event e₀ =>
              cases hsrc
              rw [hrows] at hr
              obtain ⟨hid, hten⟩ := insertDeliveries_ofTenant hr
              exact ⟨hid, hten.grow hg rfl⟩
      · exact hold (by rw [← pcs w hw]; exact hr)

theorem commitExpansion_expanded {e : Event} (rows : List Delivery) (he : e ∈ st.events) :
    ∃ e' ∈ (commitExpansion st (.event e) rows).events,
      e'.id = e.id ∧ e'.tenantId = e.tenantId ∧ e'.status = .expanded :=
  ⟨_, Table.mem_update_of_pos he (by simp), rfl, rfl, rfl⟩

/-- The deliveries of an event become visible together with its new status. -/
theorem ExpandInv.delivered_step (hi : ExpandInv cfg s) (hg : Grows s.store s'.store)
    (h : step cfg s l = some s') {d' : Delivery} (hd' : d' ∈ s'.store.deliveries) :
    ∃ e ∈ s'.store.events, e.id = d'.eventId ∧ e.status = .expanded ∧
      d'.IsOfTenant s'.store e.tenantId := by
  have hold : ∀ d ∈ s.store.deliveries, d'.eventId = d.eventId → d'.endpointId = d.endpointId →
      ∃ e ∈ s'.store.events, e.id = d'.eventId ∧ e.status = .expanded ∧
        d'.IsOfTenant s'.store e.tenantId := by
    intro d hd hev hep
    obtain ⟨e, he, hid, hexp, hten⟩ := hi.delivered d hd
    obtain ⟨e', he', hid', ht', hexp'⟩ := step_expanded h he hexp
    exact ⟨e', he', hid'.trans (hid.trans hev.symm), hexp', ht' ▸ hten.grow hg hep⟩
  cases step_move h with
  | tick _ _ _ store => exact hold d' (by rw [← store]; exact hd') rfl rfl
  | api _ _ _ h => exact hold d' (by rw [← h.deliveries]; exact hd') rfl rfl
  | worker w _ _ hw =>
      rcases hw.deliveries.mem_cases hd' with ⟨d, hd, hch⟩ | ⟨hr, rfl, src, rows, hpc⟩
      · exact hold d hd hch.eventId_eq hch.endpointId_eq
      · obtain ⟨e, hsrc⟩ := Pc.source_of_rows (hi.noReplay w) hr
        obtain ⟨hid, hten⟩ := hi.rows w e hsrc d' hr
        rw [hpc] at hsrc
        cases src with
        | replay => cases hsrc
        | event e₀ =>
            cases hsrc
            have hsrc : (s.pcs w).source = some e := by rw [hpc]; rfl
            obtain ⟨e', he', hid', ht', hexp⟩ :=
              commitExpansion_expanded rows (hi.source w e hsrc).1
            rw [(commit_step hpc h).1] at hg ⊢
            exact ⟨e', he', hid'.trans hid.symm, hexp, ht' ▸ hten.grow hg rfl⟩

theorem ExpandInv.init (tenants : List Tenant) : ExpandInv cfg (.init tenants) where
  keys := .nil
  held := nofun
  source := nofun
  rows := nofun
  delivered := nofun
  noReplay _ := rfl

theorem ExpandInv.step (hi : ExpandInv cfg s) (hl : LeaseInv cfg s) (hp : PublishInv s)
    (hnr : NoReplay s l) (h : Webhooks.step cfg s l = some s') : ExpandInv cfg s' := by
  have hg := step_grows hl.ids h
  have hm := step_locks hi.noReplay hnr h
  have hn := hp.eventIds
  exact
    { keys := hm.keys hi
      held := hm.held hi
      source := fun _ _ => hi.source_step hn hm h
      rows := fun _ _ he _ hr => hi.rows_step hg hm h he hr
      delivered := fun _ hd => hi.delivered_step hg h hd
      noReplay := step_isReplaying hi.noReplay hnr h }

variable {p : Sys → Label → Prop} [DecidableRel p]

/-- In every run without replay expansions, one transaction at a time works for a tenant. -/
theorem expandInv_of_reachable (hp : ∀ s l, p s l → NoReplay s l)
    (h : Reachable (restrict p (step cfg)) (.init tenants) s) : ExpandInv cfg s :=
  h.inv (.init tenants) fun _ _ _ hr hi hs => by
    obtain ⟨hl, hs⟩ := restrict_eq_some.mp hs
    exact hi.step (leaseInv_of_reachable hr.of_restrict) (publishInv_of_reachable hr.of_restrict)
      (hp _ _ hl) hs

/-! ### Order -/

/-- Rows two workers have inserted and not committed are for different endpoints. -/
theorem ExpandInv.rows_apart (hi : ExpandInv cfg s) (hn : (s.store.endpoints.map (·.id)).Nodup)
    {w' : WorkerId} (hw : w' ≠ w) {r d : Delivery} (hr : r ∈ (s.pcs w').rows)
    (hd : d ∈ (s.pcs w).rows) : d.endpointId ≠ r.endpointId := by
  intro heq
  obtain ⟨e, he⟩ := Pc.source_of_rows (hi.noReplay w) hd
  obtain ⟨e', he'⟩ := Pc.source_of_rows (hi.noReplay w') hr
  obtain ⟨-, ep, hep, hid, ht⟩ := hi.rows w e he d hd
  obtain ⟨-, ep', hep', hid', ht'⟩ := hi.rows w' e' he' r hr
  obtain rfl : ep = ep' := Table.eq_of_key hn hep hep' (hid.trans (heq.trans hid'.symm))
  exact hw (hi.worker_eq (Pc.tenant_of_source he') (Pc.tenant_of_source he)
    (by rw [← ht', ← ht]))

/-- In every run without replay expansions, expansions are ordered. -/
theorem ordered_of_noReplay (hp : ∀ s l, p s l → NoReplay s l)
    (h : Reachable (restrict p (step cfg)) (.init tenants) s) : Ordered s :=
  h.inv (I := Ordered) (fun _ _ h => by cases h) fun s₁ l s₂ hr hi hs => by
    have hx := expandInv_of_reachable hp hr
    have hids := (leaseInv_of_reachable hr.of_restrict).ids
    exact hi.step (keyInv_of_reachable hr.of_restrict)
      (fun w w' _ hne r hr' d hd => hx.rows_apart hids hne hr' hd) (restrict_eq_some.mp hs).2

/-- The event with this identifier is expanded. -/
def IsExpanded (st : Store) (id : Uuid) : Prop := ∃ e ∈ st.events, e.id = id ∧ e.status = .expanded

/-- An event's deliveries are all there once it is expanded. -/
theorem deliveries_of_expanded (hi : ExpandInv cfg s) (hn : (s.store.events.map (·.id)).Nodup)
    {id : Uuid} (hexp : IsExpanded s.store id) (h : step cfg s l = some s') {d' : Delivery}
    (hd' : d' ∈ s'.store.deliveries) (hev : d'.eventId = id) :
    ∃ d ∈ s.store.deliveries, d.id = d'.id ∧ d.eventId = id ∧ d.endpointId = d'.endpointId ∧
      d.seq = d'.seq := by
  have hsame : s'.store.deliveries = s.store.deliveries → ∃ d ∈ s.store.deliveries, d.id = d'.id ∧
      d.eventId = id ∧ d.endpointId = d'.endpointId ∧ d.seq = d'.seq :=
    fun heq => ⟨d', heq ▸ hd', rfl, hev, rfl, rfl⟩
  cases step_move h with
  | tick _ _ _ store => exact hsame (by rw [store])
  | api _ _ _ h => exact hsame h.deliveries
  | worker w _ _ h =>
      rcases h.deliveries.mem_cases hd' with ⟨d, hd, hch⟩ | ⟨hr, -⟩
      · exact ⟨d, hd, hch.id_eq.symm, hch.eventId_eq.symm.trans hev, hch.endpointId_eq.symm,
          hch.seq_eq.symm⟩
      · -- an uncommitted row is a pending event's
        obtain ⟨e, he⟩ := Pc.source_of_rows (hi.noReplay w) hr
        obtain ⟨hmem, hpend⟩ := hi.source w e he
        obtain ⟨e₀, he₀, hid₀, hexp⟩ := hexp
        obtain rfl : e = e₀ := Table.eq_of_key hn hmem he₀
          ((hi.rows w e he d' hr).1.symm.trans (hev.trans hid₀.symm))
        rw [hpend] at hexp
        cases hexp

theorem IsExpanded.step {id : Uuid} (hexp : IsExpanded s.store id)
    (h : Webhooks.step cfg s l = some s') : IsExpanded s'.store id := by
  obtain ⟨e, he, hid, hst⟩ := hexp
  obtain ⟨e', he', hid', -, hst'⟩ := step_expanded h he hst
  exact ⟨e', he', hid'.trans hid, hst'⟩

/-- An expanded event stays expanded, and gets no more deliveries. -/
theorem expanded_of_reachable (hp : ∀ s l, p s l → NoReplay s l)
    (h₁ : Reachable (restrict p (step cfg)) (.init tenants) s₁) {id : Uuid}
    (hexp : IsExpanded s₁.store id) (h : Reachable (restrict p (step cfg)) s₁ s) :
    IsExpanded s.store id ∧ ∀ d ∈ s.store.deliveries, d.eventId = id →
      ∃ d₁ ∈ s₁.store.deliveries, d₁.id = d.id ∧ d₁.eventId = id ∧ d₁.endpointId = d.endpointId := by
  refine h.inv (I := fun s => IsExpanded s.store id ∧ ∀ d ∈ s.store.deliveries, d.eventId = id →
    ∃ d₁ ∈ s₁.store.deliveries, d₁.id = d.id ∧ d₁.eventId = id ∧ d₁.endpointId = d.endpointId)
    ⟨hexp, fun d hd hev => ⟨d, hd, rfl, hev, rfl⟩⟩ fun t a t' hr hi hs => ?_
  obtain ⟨hexp, hold⟩ := hi
  have hs := (restrict_eq_some.mp hs).2
  have hrt := h₁.trans hr
  refine ⟨hexp.step hs, fun d' hd' hev => ?_⟩
  obtain ⟨d, hd, hid, hev, hep, -⟩ := deliveries_of_expanded (expandInv_of_reachable hp hrt)
    (publishInv_of_reachable hrt.of_restrict).eventIds hexp hs hd' hev
  obtain ⟨d₁, hd₁, hid₁, hev₁, hep₁⟩ := hold d hd hev
  exact ⟨d₁, hd₁, hid₁.trans hid, hev₁, hep₁.trans hep⟩

/-- The first event comes before the second in its tenant's queue. -/
def Precedes (st : Store) (id₁ id₂ : Uuid) : Prop :=
  ∃ e₁ ∈ st.events, e₁.id = id₁ ∧
    ∀ e₂ ∈ st.events, e₂.id = id₂ → e₁.tenantId = e₂.tenantId ∧ e₁.seq < e₂.seq

/-- The second event is expanded after the first, and its deliveries come later. -/
structure ExpandedInOrder (id₁ id₂ : Uuid) (s : Sys) : Prop where
  source : ∀ w e, (s.pcs w).source = some e → e.id = id₂ → IsExpanded s.store id₁
  rows : ∀ w, ∀ r ∈ (s.pcs w).rows, r.eventId = id₂ →
    ∀ d ∈ s.store.deliveries, d.eventId = id₁ → d.seq < r.seq
  deliveries : ∀ d₂ ∈ s.store.deliveries, d₂.eventId = id₂ → IsExpanded s.store id₁ ∧
    ∀ d₁ ∈ s.store.deliveries, d₁.eventId = id₁ → d₁.seq < d₂.seq

/-- The second event is selected only when the first is not pending any more. -/
theorem expanded_of_selected {id₁ id₂ t : Uuid} (hpre : Precedes st id₁ id₂)
    (h : selectEvent st t = some e) (hid : e.id = id₂) : IsExpanded st id₁ := by
  obtain ⟨⟨he, ht, -⟩, hmin⟩ := selectEvent_eq_some h
  obtain ⟨e₁, he₁, hid₁, hlater⟩ := hpre
  obtain ⟨ht₁, hlt⟩ := hlater e he hid
  refine ⟨e₁, he₁, hid₁, ?_⟩
  cases hs : e₁.status with
  | expanded => rfl
  | pendingExpansion => exact absurd (hmin e₁ he₁ (ht₁.trans ht) hs) (not_le.mpr hlt)

section

variable {id₁ id₂ : Uuid}

theorem ExpandedInOrder.of_row (ho : ExpandedInOrder id₁ id₂ s) (hi : ExpandInv cfg s)
    {r : Delivery} (hr : r ∈ (s.pcs w).rows) (hid : r.eventId = id₂) : IsExpanded s.store id₁ := by
  obtain ⟨e, he⟩ := Pc.source_of_rows (hi.noReplay w) hr
  exact ho.source w e he ((hi.rows w e he r hr).1.symm.trans hid)

theorem ExpandedInOrder.step (ho : ExpandedInOrder id₁ id₂ s) (hi : ExpandInv cfg s)
    (hk : KeyInv s) (hn : (s.store.events.map (·.id)).Nodup) (hpre : Precedes s.store id₁ id₂)
    (hm : LockMove cfg s s') (h : Webhooks.step cfg s l = some s') :
    ExpandedInOrder id₁ id₂ s' := by
  constructor
  case source =>
      intro w e he hid
      rcases hm.source_cases he with hsrc | ⟨t, hst, hsel, -, -⟩
      · exact (ho.source w e hsrc hid).step h
      · rw [hst]
        exact expanded_of_selected hpre hsel hid
  case rows =>
      intro w r hr hid d' hd' hev
      have hold : r ∈ (s.pcs w).rows → d'.seq < r.seq := by
        intro hr
        obtain ⟨d, hd, -, hev, -, hseq⟩ :=
          deliveries_of_expanded hi hn (ho.of_row hi hr hid) h hd' hev
        rw [← hseq]
        exact ho.rows w r hr hid d hd hev
      cases step_move h with
      | tick _ _ _ _ pcs | api _ _ pcs => exact hold (by rw [← pcs]; exact hr)
      | worker w' _ pcs hw =>
          by_cases hww : w = w'
          · subst hww
            rcases hw.rows_cases with hrows | ⟨hrows, -⟩ | ⟨began, src, -, hst, hrows⟩
            · rw [hrows] at hr
              cases hr
            · exact hold (hrows ▸ hr)
            · rw [hrows] at hr
              rw [hst] at hd'
              exact (hk.tables.deliveryLt d' hd').2.trans_le (newDeliveries_range hr).2.1
          · exact hold (by rw [← pcs w hww]; exact hr)
  case deliveries =>
      intro d₂' hd₂' hid
      -- both rows were there, or the later one has just been committed
      have hfirst : IsExpanded s.store id₁ → (∀ d₁ ∈ s.store.deliveries, d₁.eventId = id₁ →
          d₁.seq < d₂'.seq) → IsExpanded s'.store id₁ ∧
          ∀ d₁' ∈ s'.store.deliveries, d₁'.eventId = id₁ → d₁'.seq < d₂'.seq := by
        refine fun hexp hlt => ⟨hexp.step h, fun d₁' hd₁' hev => ?_⟩
        obtain ⟨d₁, hd₁, -, hev, -, hseq⟩ := deliveries_of_expanded hi hn hexp h hd₁' hev
        rw [← hseq]
        exact hlt d₁ hd₁ hev
      have hold : ∀ d₂ ∈ s.store.deliveries, d₂.eventId = id₂ → d₂'.seq = d₂.seq →
          IsExpanded s'.store id₁ ∧
            ∀ d₁' ∈ s'.store.deliveries, d₁'.eventId = id₁ → d₁'.seq < d₂'.seq := by
        intro d₂ hd₂ hid hseq
        obtain ⟨hexp, hlt⟩ := ho.deliveries d₂ hd₂ hid
        exact hfirst hexp (hseq ▸ hlt)
      cases step_move h with
      | tick _ _ _ store => exact hold d₂' (by rw [← store]; exact hd₂') hid rfl
      | api _ _ _ hapi => exact hold d₂' (by rw [← hapi.deliveries]; exact hd₂') hid rfl
      | worker w _ _ hw =>
          rcases hw.deliveries.mem_cases hd₂' with ⟨d₂, hd₂, hch⟩ | ⟨hr, -⟩
          · exact hold d₂ hd₂ (hch.eventId_eq ▸ hid) hch.seq_eq
          · exact hfirst (ho.of_row hi hr hid) (ho.rows w d₂' hr hid)

end

/-- In every run without replay expansions: of two events of a tenant, the one that was committed
before the other was inserted is expanded first, and its deliveries come first. -/
theorem expandedInOrder_of_reachable (hp : ∀ s l, p s l → NoReplay s l)
    (h₁ : Reachable (restrict p (step cfg)) (.init tenants) s₁) (he₁ : e₁ ∈ s₁.store.events)
    {id₂ : Uuid} (hnew : ∀ e ∈ s₁.allEvents, e.id ≠ id₂)
    (h : Reachable (restrict p (step cfg)) s₁ s)
    (htenant : ∀ e ∈ s.store.events, e.id = id₂ → e₁.tenantId = e.tenantId) :
    ExpandedInOrder e₁.id id₂ s := by
  have hp₁ := publishInv_of_reachable h₁.of_restrict
  have hx₁ := expandInv_of_reachable hp h₁
  have hevents : ∀ e ∈ s₁.store.events, e.id ≠ id₂ := fun e he => hnew e (List.mem_append_left _ he)
  refine h.inv (I := fun s => (∀ e ∈ s.store.events, e.id = id₂ → e₁.tenantId = e.tenantId) →
    ExpandedInOrder e₁.id id₂ s) (fun _ => ⟨?_, ?_, ?_⟩) ?_ htenant
  · exact fun w e he hid => absurd hid (hevents e (hx₁.source w e he).1)
  · intro w r hr hid
    obtain ⟨e, he⟩ := Pc.source_of_rows (hx₁.noReplay w) hr
    exact absurd ((hx₁.rows w e he r hr).1.symm.trans hid) (hevents e (hx₁.source w e he).1)
  · intro d₂ hd₂ hid
    obtain ⟨e, he, hev, -⟩ := hx₁.delivered d₂ hd₂
    exact absurd (hev.trans hid) (hevents e he)
  · intro t a t' hr hi hs ht'
    have hrt := h₁.trans hr
    have hpt := publishInv_of_reachable hrt.of_restrict
    have hx := expandInv_of_reachable hp hrt
    obtain ⟨ha, hs⟩ := restrict_eq_some.mp hs
    have hg := step_grows (leaseInv_of_reachable hrt.of_restrict).ids hs
    have ht : ∀ e ∈ t.store.events, e.id = id₂ → e₁.tenantId = e.tenantId := by
      intro e he hid
      obtain ⟨e', he', hid', hten, -⟩ := hg.events e he
      rw [← hten]
      exact ht' e' he' (hid'.trans hid)
    refine (hi ht).step hx (keyInv_of_reachable hrt.of_restrict) hpt.eventIds ?_
      (step_locks hx.noReplay (hp _ _ ha) hs) hs
    -- the second event's sequence value was drawn after the first one's
    obtain ⟨e, he, hid, hten, -, hseq⟩ :=
      (grows_of_reachable h₁.of_restrict hr.of_restrict).events e₁ he₁
    refine ⟨e, he, hid, fun e₂ he₂ hid₂ => ⟨hten.trans (ht e₂ he₂ hid₂), ?_⟩⟩
    rw [hseq]
    rcases (eventsAfter h₁.of_restrict hr.of_restrict).2 e₂ (List.mem_append_left _ he₂) with
      ⟨e₀, he₀, hid₀, -⟩ | hle
    · exact absurd (hid₀.trans hid₂) (hnew e₀ he₀)
    · exact (hp₁.lt e₁ (List.mem_append_left _ he₁)).2.trans_le hle

end

end Webhooks
