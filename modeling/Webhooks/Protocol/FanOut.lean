import Webhooks.Protocol.Keys

/-!
# Protocol — FanOut

What every delivery's event and endpoint have in common.  An expansion pairs its event with subscribed
endpoints and a replay copies pairs that are there, so what holds of the first and is not lost while the
tables grow holds of every pair.

* **`fanOut_of_reachable`**: the induction.
* `subscribed_of_reachable`: the endpoint of a delivery is subscribed to its event.
-/

namespace Webhooks

open Lib

/-- Every event of the store is paired with the endpoints that are subscribed to it, and a pair stays one. -/
structure PairRule (P : Store → Uuid → Uuid → Prop) : Prop where
  grow : ∀ {st st' eventId endpointId}, Grows st st' → P st eventId endpointId → P st' eventId endpointId
  pair : ∀ {st e ep}, e ∈ st.events → ep ∈ st.endpoints → ep.isSubscribed e.tenantId e.type = true →
    P st e.id ep.id

/-- The event a transaction expands is a row, with the tenant and the type it was read with. -/
def Pc.Expands (st : Store) : Pc → Prop
  | .inserting _ (.event e) => ∃ e' ∈ st.events, e'.id = e.id ∧ e'.tenantId = e.tenantId ∧ e'.type = e.type
  | _ => True

structure PairInv (P : Store → Uuid → Uuid → Prop) (s : Sys) : Prop where
  deliveries : ∀ d ∈ s.store.deliveries, P s.store d.eventId d.endpointId
  rows : ∀ w, ∀ r ∈ (s.pcs w).rows, P s.store r.eventId r.endpointId
  worker : ∀ w, (s.pcs w).Expands s.store

section

variable {P : Store → Uuid → Uuid → Prop} {cfg : Config} {now : Time} {st st' : Store} {w : WorkerId}
  {pc pc' : Pc} {l : Label} {s s' : Sys} {r : Delivery}

theorem Pc.Expands.grow (h : pc.Expands st) (hg : Grows st st') : pc.Expands st' := by
  unfold Pc.Expands at h ⊢
  split
  · obtain ⟨e, he, hid, ht, hy⟩ := h
    obtain ⟨e', he', hid', ht', hy', -⟩ := hg.events e he
    exact ⟨e', he', hid'.trans hid, ht'.trans ht, hy'.trans hy⟩
  · trivial

theorem WorkerMove.expands (h : WorkerMove cfg now st w pc l st' pc') : pc'.Expands st' := by
  cases h with
  | @outside _ pc' _ _ _ _ _ src =>
      cases pc' with
      | inserting began e =>
          cases e with
          | event e => exact ⟨e, src _ _ rfl, rfl, rfl, rfl⟩
          | replay => trivial
      | _ => trivial
  | _ => trivial

/-- The pairs an expansion inserts. -/
theorem PairRule.insertDeliveries {began : Time} {src : Expandable} (hP : PairRule P)
    (hd : ∀ d ∈ st.deliveries, P st d.eventId d.endpointId) (hk : (Pc.inserting began src).Expands st)
    (hr : r ∈ (insertDeliveries st began src).1) : P st r.eventId r.endpointId := by
  obtain ⟨e, rfl, hev, ep, hep, hid, hs⟩ | ⟨-, -, d, hmem, hev, hep⟩ := fanOut_mem (newDeliveries_mem hr)
  · obtain ⟨e', he', hid', ht, hy⟩ := hk
    rw [hev, ← hid', ← hid]
    exact hP.pair he' hep (by rw [ht, hy]; exact hs)
  · rw [← hev, ← hep]
    exact hd d hmem

theorem PairInv.init (tenants : List Tenant) : PairInv P (.init tenants) :=
  ⟨nofun, fun _ => nofun, fun _ => trivial⟩

theorem PairInv.step (hP : PairRule P) (hn : (s.store.endpoints.map (·.id)).Nodup) (hi : PairInv P s)
    (h : Webhooks.step cfg s l = some s') : PairInv P s' := by
  have hg := step_grows hn h
  cases step_move h with
  | tick ms _ _ store pcs => exact ⟨by rw [store]; exact hi.deliveries, by rw [store, pcs]; exact hi.rows,
      by rw [store, pcs]; exact hi.worker⟩
  | api _ _ pcs h =>
      refine ⟨fun d hd => ?_, fun w r hr => ?_, fun w => ?_⟩
      · rw [h.deliveries] at hd
        exact hP.grow hg (hi.deliveries d hd)
      · rw [pcs] at hr
        exact hP.grow hg (hi.rows w r hr)
      · rw [pcs]
        exact (hi.worker w).grow hg
  | worker w _ pcs h =>
      refine ⟨fun d hd => ?_, fun w' r hr => ?_, fun w' => ?_⟩
      · obtain ⟨d, hd, hc⟩ | ⟨hd, -⟩ := h.deliveries.mem_cases hd
        · rw [hc.eventId_eq, hc.endpointId_eq]
          exact hP.grow hg (hi.deliveries d hd)
        · exact hP.grow hg (hi.rows w d hd)
      · by_cases hw : w' = w
        · subst hw
          obtain hnil | ⟨hsame, -⟩ | ⟨began, src, hpc, -, hins⟩ := h.rows_cases
          · rw [hnil] at hr
            cases hr
          · exact hP.grow hg (hi.rows w' r (hsame ▸ hr))
          · rw [hins] at hr
            exact hP.grow hg (hP.insertDeliveries hi.deliveries (hpc ▸ hi.worker w') hr)
        · rw [pcs w' hw] at hr
          exact hP.grow hg (hi.rows w' r hr)
      · by_cases hw : w' = w
        · rw [hw]
          exact h.expands
        · rw [pcs w' hw]
          exact (hi.worker w').grow hg

/-- What holds of an event and its subscribers, and is not lost, holds of every delivery. -/
theorem fanOut_of_reachable (hP : PairRule P) {tenants : List Tenant}
    (h : Reachable (step cfg) (.init tenants) s) :
    ∀ d ∈ s.store.deliveries, P s.store d.eventId d.endpointId :=
  have hi : PairInv P s := h.inv (.init tenants) fun _ _ _ hr hi hs =>
    hi.step hP (leaseInv_of_reachable hr).ids hs
  hi.deliveries

/-- The endpoint belongs to the event's tenant and is subscribed to its type. -/
def Subscribed (st : Store) (eventId endpointId : Uuid) : Prop :=
  ∃ e ∈ st.events, e.id = eventId ∧ ∃ ep ∈ st.endpoints, ep.id = endpointId ∧
    ep.isSubscribed e.tenantId e.type = true

theorem Subscribed.pairRule : PairRule Subscribed where
  grow hg h := by
    obtain ⟨e, he, hid, ep, hep, hid', hs⟩ := h
    obtain ⟨e', he', hide, ht, hy, -⟩ := hg.events e he
    obtain ⟨ep', hep', hidep, htp, htypes⟩ := hg.endpoints ep hep
    refine ⟨e', he', hide.trans hid, ep', hep', hidep.trans hid', ?_⟩
    unfold Endpoint.isSubscribed at hs ⊢
    rw [htp, htypes, ht, hy]
    exact hs
  pair he hep hs := ⟨_, he, rfl, _, hep, rfl, hs⟩

theorem subscribed_of_reachable {tenants : List Tenant} (h : Reachable (step cfg) (.init tenants) s)
    {d : Delivery} (hd : d ∈ s.store.deliveries) : Subscribed s.store d.eventId d.endpointId :=
  fanOut_of_reachable Subscribed.pairRule h d hd

end

end Webhooks
