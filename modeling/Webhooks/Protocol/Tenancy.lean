import Webhooks.Protocol.Expansion

/-!
# Protocol — Tenancy

A delivery has an event and an endpoint of one tenant: an event's expansion looks for endpoints of
the event's tenant, and a replay copies pairs that are there.

* **`sharesTenant_of_reachable`**, by `TenancyInv`, which also says it of rows that are not committed.
-/

namespace Webhooks

open Lib

/-- The event and the endpoint of the delivery belong to one tenant. -/
def Delivery.SharesTenant (st : Store) (d : Delivery) : Prop :=
  ∃ e ∈ st.events, e.id = d.eventId ∧ d.IsOfTenant st e.tenantId

/-- The event a transaction expands is a row, of the tenant it was read with. -/
def Pc.ExpandsRow (st : Store) : Pc → Prop
  | .inserting _ (.event e) => ∃ e' ∈ st.events, e'.id = e.id ∧ e'.tenantId = e.tenantId
  | _ => True

structure TenancyInv (s : Sys) : Prop where
  deliveries : ∀ d ∈ s.store.deliveries, d.SharesTenant s.store
  rows : ∀ w, ∀ r ∈ (s.pcs w).rows, r.SharesTenant s.store
  worker : ∀ w, (s.pcs w).ExpandsRow s.store

section

variable {cfg : Config} {now : Time} {st st' : Store} {w : WorkerId} {pc pc' : Pc} {l : Label}
  {d d' r : Delivery}

theorem Delivery.SharesTenant.grow (h : d.SharesTenant st) (hg : Grows st st')
    (hev : d'.eventId = d.eventId) (hep : d'.endpointId = d.endpointId) : d'.SharesTenant st' := by
  obtain ⟨e, he, hid, ht⟩ := h
  obtain ⟨e', he', hid', hten, -⟩ := hg.events e he
  exact ⟨e', he', hid'.trans (hid.trans hev.symm), hten ▸ ht.grow hg hep⟩

theorem Pc.ExpandsRow.grow (h : pc.ExpandsRow st) (hg : Grows st st') : pc.ExpandsRow st' := by
  unfold Pc.ExpandsRow at h ⊢
  split
  · obtain ⟨e, he, hid, ht⟩ := h
    obtain ⟨e', he', hid', ht', -⟩ := hg.events e he
    exact ⟨e', he', hid'.trans hid, ht'.trans ht⟩
  · trivial

/-- What an expansion inserts has an event and an endpoint of one tenant. -/
theorem insertDeliveries_sharesTenant {began : Time} {src : Expandable}
    (hd : ∀ d ∈ st.deliveries, d.SharesTenant st) (hk : (Pc.inserting began src).ExpandsRow st)
    (hr : r ∈ (insertDeliveries st began src).1) : r.SharesTenant (insertDeliveries st began src).2 := by
  show r.SharesTenant st
  cases src with
  | event e =>
      obtain ⟨e', he', hid, hten⟩ := hk
      obtain ⟨hev, hof⟩ := insertDeliveries_ofTenant hr
      exact ⟨e', he', hid.trans hev.symm, hten ▸ hof⟩
  | replay row =>
      rcases fanOut_mem (newDeliveries_mem hr) with ⟨e, heq, -⟩ | ⟨-, -, d, hmem, hev, hep⟩
      · cases heq
      · exact (hd d hmem).grow (.refl st) hev.symm hep.symm

theorem WorkerMove.expandsRow (h : WorkerMove cfg now st w pc l st' pc') : pc'.ExpandsRow st' := by
  cases h with
  | @outside _ pc' _ _ _ _ _ src =>
      cases pc' with
      | inserting began e =>
          cases e with
          | event e => exact ⟨e, src _ _ rfl, rfl, rfl⟩
          | replay => trivial
      | _ => trivial
  | _ => trivial

theorem TenancyInv.init (tenants : List Tenant) : TenancyInv (.init tenants) :=
  ⟨nofun, fun _ => nofun, fun _ => trivial⟩

theorem TenancyInv.step {s s' : Sys} (hn : (s.store.endpoints.map (·.id)).Nodup) (hi : TenancyInv s)
    (h : step cfg s l = some s') : TenancyInv s' := by
  cases step_move h with
  | tick ms _ _ store pcs => exact ⟨by rw [store]; exact hi.deliveries, by rw [store, pcs]; exact hi.rows,
      by rw [store, pcs]; exact hi.worker⟩
  | api _ _ pcs h =>
      have hg := h.grows
      refine ⟨fun d hd => ?_, fun w r hr => ?_, fun w => ?_⟩
      · rw [h.deliveries] at hd
        exact (hi.deliveries d hd).grow hg rfl rfl
      · rw [pcs] at hr
        exact (hi.rows w r hr).grow hg rfl rfl
      · rw [pcs]
        exact (hi.worker w).grow hg
  | worker w _ pcs h =>
      have hg := h.grows hn
      have hrows : ∀ r ∈ (s.pcs w).rows, r.SharesTenant s'.store := fun r hr =>
        (hi.rows w r hr).grow hg rfl rfl
      refine ⟨fun d hd => ?_, fun w' r hr => ?_, fun w' => ?_⟩
      · rcases h.deliveries.mem_cases hd with ⟨d, hd, hc⟩ | ⟨hd, -⟩
        · exact (hi.deliveries d hd).grow hg hc.eventId_eq hc.endpointId_eq
        · exact hrows d hd
      · by_cases hw : w' = w
        · subst hw
          rcases h.rows_cases with hnil | ⟨hsame, -⟩ | ⟨began, src, hpc, hst, hins⟩
          · rw [hnil] at hr
            cases hr
          · exact hrows r (hsame ▸ hr)
          · rw [hins] at hr
            rw [hst]
            exact insertDeliveries_sharesTenant hi.deliveries (hpc ▸ hi.worker w') hr
        · rw [pcs w' hw] at hr
          exact (hi.rows w' r hr).grow hg rfl rfl
      · by_cases hw : w' = w
        · rw [hw]
          exact h.expandsRow
        · rw [pcs w' hw]
          exact (hi.worker w').grow hg

/-- The event and the endpoint of every delivery belong to one tenant. -/
theorem sharesTenant_of_reachable {tenants : List Tenant} {s : Sys}
    (h : Reachable (step cfg) (.init tenants) s) (hd : d ∈ s.store.deliveries) :
    d.SharesTenant s.store := by
  have hi : TenancyInv s := h.inv (.init tenants) fun _ _ _ hr hi hs =>
    hi.step (leaseInv_of_reachable hr).ids hs
  exact hi.deliveries d hd

end

end Webhooks
