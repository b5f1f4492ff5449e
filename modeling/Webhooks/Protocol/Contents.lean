import Webhooks.Protocol.Keys

/-!
# Protocol — Contents

What a worker delivers, in every run: the event as it was published, to the URL that was registered.

* `ContentsKept`, `contentsKept_of_reachable`: an event row is rewritten in its status only, an endpoint
  row in its status, its secrets and its lease.
* `Carries`: a delivery row, the content of its event and the URL of its endpoint.
* **`contents_of_reachable`**: what a worker holds, or has sent, is carried by the store, however late it is.
-/

namespace Webhooks

open Lib

/-! ### What is never rewritten -/

/-- The row as it was registered, up to its status, its secrets and its lease. -/
def Endpoint.Kept (e e' : Endpoint) : Prop :=
  e' = { e with
    status := e'.status
    signingSecret := e'.signingSecret
    secondarySecret := e'.secondarySecret
    secondarySecretExpiresAt := e'.secondarySecretExpiresAt
    busy := e'.busy
    busySince := e'.busySince
    leaseId := e'.leaseId }

theorem Endpoint.Kept.trans {e₁ e₂ e₃ : Endpoint} (h₁ : e₁.Kept e₂) (h₂ : e₂.Kept e₃) : e₁.Kept e₃ := by
  unfold Endpoint.Kept at h₁ h₂ ⊢
  rw [h₂, h₁]

/-- Every event keeps its type and payload, every endpoint its address, every delivery what it is for. -/
structure ContentsKept (st st' : Store) : Prop where
  events : ∀ e ∈ st.events, ∃ e' ∈ st'.events, e' = { e with status := e'.status }
  endpoints : ∀ e ∈ st.endpoints, ∃ e' ∈ st'.endpoints, e.Kept e'

section

variable {cfg : Config} {now : Time} {st st' st₁ : Store} {w : WorkerId} {pc pc' : Pc} {l : Label}

theorem ContentsKept.refl (st : Store) : ContentsKept st st :=
  ⟨fun e he => ⟨e, he, rfl⟩, fun e he => ⟨e, he, rfl⟩⟩

theorem ContentsKept.trans (h₁ : ContentsKept st st₁) (h₂ : ContentsKept st₁ st') :
    ContentsKept st st' where
  events e he := by
    obtain ⟨e₁, he₁, h₁⟩ := h₁.events e he
    obtain ⟨e₂, he₂, h₂⟩ := h₂.events e₁ he₁
    exact ⟨e₂, he₂, by rw [h₂, h₁]⟩
  endpoints e he := by
    obtain ⟨e₁, he₁, h₁⟩ := h₁.endpoints e he
    obtain ⟨e₂, he₂, h₂⟩ := h₂.endpoints e₁ he₁
    exact ⟨e₂, he₂, h₁.trans h₂⟩

/-- An `UPDATE endpoints`. -/
theorem kept_of_update {p : Endpoint → Bool} {f : Endpoint → Endpoint} (hf : ∀ e, Endpoint.Kept e (f e)) :
    ∀ e ∈ st.endpoints, ∃ e' ∈ Table.update p f st.endpoints, e.Kept e' := by
  intro e he
  refine ⟨_, Table.mem_update_of_mem he, ?_⟩
  split
  · exact hf e
  · rfl

/-- A worker sets none of these columns, whatever it does to the rows. -/
theorem WorkerMove.contentsKept (h : WorkerMove cfg now st w pc l st' pc') : ContentsKept st st' where
  events := by
    obtain he | ⟨src, rows, -, -, he⟩ := h.events <;> rw [he]
    · exact (ContentsKept.refl st).events
    · intro e hmem
      cases src with
      | replay r => exact ⟨e, hmem, rfl⟩
      | event e₀ =>
          refine ⟨_, Table.mem_update_of_mem hmem, ?_⟩
          split <;> rfl
  endpoints := by
    cases h with
    | claim hc =>
        obtain ⟨-, -, rfl⟩ := claimEndpoint_some hc
        exact kept_of_update fun _ => rfl
    | close hc =>
        rw [(closeOrphans_endpoints hc).1]
        exact (ContentsKept.refl st).endpoints
    | release => exact kept_of_update fun _ => rfl
    | @complete _ claimed result random fault =>
        obtain hc | ⟨-, hc⟩ | ⟨-, -, hc⟩ := completeDelivery_cases cfg now st claimed result random fault
        <;> rw [hc]
        · exact (ContentsKept.refl st).endpoints
        · exact (ContentsKept.refl st).endpoints
        · refine kept_of_update fun e => ?_
          unfold Endpoint.resolve
          split <;> rfl
    | commit =>
        rw [commitExpansion_endpoints]
        exact (ContentsKept.refl st).endpoints
    | _ => exact (ContentsKept.refl st).endpoints

/-- Nor does a handler; it only adds rows. -/
theorem ApiMove.contentsKept (h : ApiMove now st st') : ContentsKept st st' where
  events := by
    cases h with
    | other _ _ _ _ events =>
        obtain ⟨es, he⟩ := events
        rw [he]
        exact fun e h => ⟨e, List.mem_append_left _ h, rfl⟩
    | _ => exact (ContentsKept.refl st).events
  endpoints := by
    cases h with
    | register => exact fun e he => ⟨e, List.mem_append_left _ he, rfl⟩
    | status | rotate => exact kept_of_update fun _ => rfl
    | other _ endpoints =>
        rw [endpoints]
        exact (ContentsKept.refl st).endpoints

theorem step_contentsKept {s s' : Sys} (h : step cfg s l = some s') : ContentsKept s.store s'.store := by
  cases step_move h with
  | tick ms _ _ store => rw [store]; exact .refl _
  | api _ _ _ h => exact h.contentsKept
  | worker w _ _ h => exact h.contentsKept

/-- Over a whole run. -/
theorem contentsKept_of_reachable {s s' : Sys} (h : Reachable (step cfg) s s') :
    ContentsKept s.store s'.store :=
  h.inv (I := fun s' => ContentsKept s.store s'.store) (.refl _) fun _ _ _ _ hi hs =>
    hi.trans (step_contentsKept hs)

end

/-! ### What a worker carries -/

/-- There is a delivery of the event to the endpoint, the event has this type and payload, and the
endpoint this URL. -/
structure Carries (st : Store) (deliveryId eventId endpointId : Uuid) (type payload url : String) :
    Prop where
  delivery : ∃ d ∈ st.deliveries, d.id = deliveryId ∧ d.eventId = eventId ∧ d.endpointId = endpointId
  event : ∃ e ∈ st.events, e.id = eventId ∧ e.type = type ∧ e.payload = payload
  endpoint : ∃ ep ∈ st.endpoints, ep.id = endpointId ∧ ep.url = url

/-- The row a claim has selected is of the rows it joins. -/
def DeliveryRow.IsCarried (st : Store) (endpointId : Uuid) (head : DeliveryRow) : Prop :=
  Carries st head.id head.eventId endpointId head.eventType head.payload head.url

def ClaimedDelivery.IsCarried (st : Store) (claimed : ClaimedDelivery) : Prop :=
  Carries st claimed.deliveryId claimed.eventId claimed.endpointId claimed.eventType claimed.payload
    claimed.url

/-- What a worker holds is of them, from the head's selection to the write-back. -/
def Pc.ContentFacts (st : Store) : Pc → Prop
  | .claiming c (.checkHead (some head)) | .claiming c (.insertAttempt head)
  | .claiming c (.markInFlight head _ _) | .claiming c (.finish head _ _) =>
      head.IsCarried st c.candidate.id
  | .holding claimed | .sent claimed => claimed.IsCarried st
  | _ => True

section

variable {cfg : Config} {now : Time} {st st' : Store} {w : WorkerId} {pc pc' : Pc} {l : Label}
  {deliveryId eventId endpointId : Uuid} {type payload url : String} {head : DeliveryRow} {s s' : Sys}

theorem Carries.keep (h : Carries st deliveryId eventId endpointId type payload url)
    (hc : ContentsKept st st') (hg : Grows st st') :
    Carries st' deliveryId eventId endpointId type payload url where
  delivery := by
    obtain ⟨d, hd, rfl, rfl, rfl⟩ := h.delivery
    obtain ⟨d', hd', hid, hev, hep, -⟩ := hg.deliveries d hd
    exact ⟨d', hd', hid, hev, hep⟩
  event := by
    obtain ⟨e, he, rfl, rfl, rfl⟩ := h.event
    obtain ⟨e', he', heq⟩ := hc.events e he
    exact ⟨e', he', by rw [heq], by rw [heq], by rw [heq]⟩
  endpoint := by
    obtain ⟨ep, hep, rfl, rfl⟩ := h.endpoint
    obtain ⟨ep', hep', heq⟩ := hc.endpoints ep hep
    unfold Endpoint.Kept at heq
    exact ⟨ep', hep', by rw [heq], by rw [heq]⟩

/-- It stays so, as the contents do. -/
theorem Pc.ContentFacts.keep (h : pc.ContentFacts st) (hc : ContentsKept st st') (hg : Grows st st') :
    pc.ContentFacts st' := by
  unfold Pc.ContentFacts at h ⊢
  split
  case h_7 => trivial
  all_goals exact Carries.keep h hc hg

/-- The head query joins a delivery with its event and its endpoint. -/
theorem fetchHead_isCarried (h : fetchHead st endpointId = some head) : head.IsCarried st endpointId := by
  obtain ⟨⟨n, row⟩, hm, rfl⟩ := Option.map_eq_some_iff.mp h
  obtain ⟨d, hd, hj⟩ := List.mem_filterMap.mp (List.argmin_mem hm)
  unfold joinHead at hj
  split at hj
  case isFalse => cases hj
  case isTrue hcond =>
      obtain ⟨e, he, hj⟩ := Option.bind_eq_some_iff.mp hj
      obtain ⟨ep, hep, hj⟩ := Option.map_eq_some_iff.mp hj
      cases hj
      obtain ⟨hon, -⟩ : d.endpointId = endpointId ∧ d.state = .pending := by simpa using hcond
      exact ⟨⟨d, hd, rfl, rfl, hon⟩,
        ⟨e, List.mem_of_find?_eq_some he, by simpa using List.find?_some he, rfl, rfl⟩,
        ⟨ep, List.mem_of_find?_eq_some hep, by simpa [hon] using List.find?_some hep, rfl⟩⟩

/-- The statement that returns from a claim returns what its head query read. -/
theorem finish_isCarried {c : Claim} {n : Nat} {attemptId : Uuid} {claimed : ClaimedDelivery}
    (hpc : s.pcs w = .claiming c (.finish head n attemptId)) (h : step cfg s (.step w) = some s')
    (hpc' : s'.pcs w = .holding claimed) (hc : head.IsCarried s.store c.candidate.id) :
    claimed.IsCarried s.store := by
  rw [step_claiming hpc, claimStep] at h
  cases hd : decryptSecrets cfg s.now head <;> rw [hd] at h <;> cases h <;>
    rw [Sys.setPc_pcs_self] at hpc' <;> cases hpc'
  exact hc

/-- A worker's step keeps what it carries. -/
theorem step_contentFacts (h : step cfg s l = some s')
    (hm : WorkerMove cfg s.now s.store w (s.pcs w) l s'.store (s'.pcs w))
    (hc : ContentsKept s.store s'.store) (hg : Grows s.store s'.store)
    (hi : (s.pcs w).ContentFacts s.store) : (s'.pcs w).ContentFacts s'.store := by
  generalize hpc : s.pcs w = pc at hm hi
  generalize hpc' : s'.pcs w = pc' at hm ⊢
  generalize hst' : s'.store = st' at *
  cases hm with
  | outside _ _ _ hout =>
      cases pc' with
      | listing | trying | claiming | holding | sent | marking | committing => cases hout
      | _ => trivial
  | @fetch c =>
      cases hf : fetchHead s.store c.candidate.id with
      | none => trivial
      | some head => exact fetchHead_isCarried hf
  | finish => exact finish_isCarried hpc h hpc' hi
  | checkDue | send => exact hi
  | insert | mark => exact Carries.keep hi hc hg
  | _ => trivial

/-- What a worker holds or has sent is a delivery of the store with the content of its event and the URL
of its endpoint, in every run, also when the worker has long lost its lease. -/
theorem contents_of_reachable {tenants : List Tenant} (h : Reachable (step cfg) (.init tenants) s)
    (w : WorkerId) : (s.pcs w).ContentFacts s.store := by
  refine h.inv (I := fun s => ∀ w, (s.pcs w).ContentFacts s.store) (fun _ => trivial)
    (fun s₁ l s₂ hr hi hs w => ?_) w
  have hc := step_contentsKept hs
  have hg := step_grows (leaseInv_of_reachable hr).ids hs
  have hkeep : s₂.pcs w = s₁.pcs w → (s₂.pcs w).ContentFacts s₂.store := fun heq =>
    heq ▸ (hi w).keep hc hg
  cases step_move hs with
  | tick _ _ _ _ pcs => exact hkeep (congrFun pcs w)
  | api _ _ pcs => exact hkeep (congrFun pcs w)
  | worker w' _ pcs hm =>
      by_cases hw : w = w'
      · subst hw
        exact step_contentFacts hs hm hc hg (hi w)
      · exact hkeep (pcs w hw)

end

end Webhooks
