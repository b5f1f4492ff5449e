import Webhooks.Protocol.Candidates
import Webhooks.Protocol.Exclusion

/-!
# Properties — Punctual

Leases are longer than what is done under them: `lease.durationMs` is the total timeout of a request and at
least as much again.  What follows in the runs in which no live worker outlives its lease.

* `Punctual`: such steps.  **`lease_kept`**: every live worker has its lease, whoever else dies, and no
  write-back is told that it lost it.
* `Undisturbed`: besides, nobody dies, and no write-back or decryption fails.  **`undisturbed_truth`**: an
  endpoint is busy exactly while a worker is over it, a delivery in flight is in the hands of that worker, and
  no attempt is recorded as `worker_lease_expired`.
-/

namespace Webhooks

open Lib

/-- The clock goes past the end of a lease only when no live worker has it. -/
def Punctual (cfg : Config) (s : Sys) : Label → Prop
  | .tick ms => ∀ w id leaseId, (s.pcs w).lease = some (id, leaseId) → ∀ e ∈ s.store.endpoints,
      e.leaseId = some leaseId → ∀ t, e.busySince = some t → s.now + ms ≤ t + cfg.leaseDurationMs
  | _ => True

noncomputable instance (cfg : Config) : DecidableRel (Punctual cfg) := fun _ _ =>
  Classical.propDecidable _

/-- A punctual step in which nobody dies, and the database and the stored secrets are in order. -/
def Undisturbed (cfg : Config) (s : Sys) (l : Label) : Prop :=
  Punctual cfg s l ∧
    match l with
    | .die _ => False
    | .complete _ result _ fault => fault = none ∧ acceptsText result.responseBodyTruncated = true
    | .step w => ∀ c head n attemptId, s.pcs w = .claiming c (.finish head n attemptId) →
        (decryptSecrets cfg s.now head).isSome = true
    | _ => True

noncomputable instance (cfg : Config) : DecidableRel (Undisturbed cfg) := fun _ _ =>
  Classical.propDecidable _

/-- The endpoint has the lease, and it has not run out. -/
def Fresh (cfg : Config) (now : Time) (st : Store) (id leaseId : Uuid) : Prop :=
  ∃ e ∈ st.endpoints, e.id = id ∧ e.leaseId = some leaseId ∧
    ∃ t, e.busySince = some t ∧ now ≤ t + cfg.leaseDurationMs

/-- Every live worker's lease is fresh. -/
def AllFresh (cfg : Config) (s : Sys) : Prop :=
  ∀ w id leaseId, (s.pcs w).lease = some (id, leaseId) → Fresh cfg s.now s.store id leaseId

/-- The delivery a worker is over. -/
def Pc.delivery : Pc → Option Uuid
  | .claiming _ (.finish head ..) => some head.id
  | .holding claimed | .sent claimed => some claimed.deliveryId
  | _ => none

section

variable {cfg : Config} {now cutoff : Time} {st st' : Store} {w : WorkerId} {pc pc' : Pc} {l : Label}
  {s s' : Sys} {e : Endpoint} {id leaseId : Uuid} {tenants : List Tenant}

/-! ### Leases -/

theorem Fresh.holds (h : Fresh cfg now st id leaseId) : Holds st id leaseId := by
  obtain ⟨e, he, hid, hl, -⟩ := h
  exact ⟨e, he, hid, hl⟩

/-- A fresh lease is not stale to anybody. -/
theorem Fresh.not_free (h : Fresh cfg now st id leaseId) (hn : (st.endpoints.map (·.id)).Nodup)
    (hc : e.LeaseColumns now st.uuids) (he : e ∈ st.endpoints) (hid : e.id = id)
    (hcut : cutoff ≤ now - cfg.leaseDurationMs) : e.isFree cutoff = false := by
  obtain ⟨e', he', hid', hl, t, hs, hfresh⟩ := h
  obtain rfl : e' = e := Table.eq_of_key hn he' he (hid'.trans hid.symm)
  have hb : e'.busy = true := by rw [hc.lease, hl]; rfl
  simp only [Endpoint.isFree, hb, hs, Bool.not_true, Bool.false_or, Option.any_some, decide_eq_false_iff_not]
  intro hlt
  exact absurd (Nat.add_lt_of_lt_sub (hlt.trans_le hcut)) (not_lt.mpr hfresh)

/-- A step of somebody else, or of the API, leaves a fresh lease. -/
theorem Fresh.change (h : Fresh cfg now st id leaseId) (hch : EndpointsChange now pc st st')
    (hn : (st.endpoints.map (·.id)).Nodup) (hcol : ∀ e ∈ st.endpoints, e.LeaseColumns now st.uuids)
    (hcut : ∀ cutoff, pc.cutoff = some cutoff → cutoff ≤ now - cfg.leaseDurationMs)
    (hpc : ∀ id', pc.lease ≠ some (id', leaseId)) : Fresh cfg now st' id leaseId := by
  have ⟨e, he, hid, hl, t, hs, hfresh⟩ := h
  obtain ⟨g, new, heq, hg, -, -⟩ := hch
  obtain ⟨⟨hide, -⟩, hch⟩ := hg e he
  refine ⟨g e, Table.mem_of_rewrite heq he, hide.trans hid, ?_⟩
  cases hch with
  | keep busy busySince leaseId => exact ⟨leaseId.trans hl, t, busySince.trans hs, hfresh⟩
  | claimed hcutoff free =>
      rw [h.not_free hn (hcol e he) he hid (hcut _ hcutoff)] at free
      cases free
  | released hrel held =>
      rw [hl] at held
      cases held
      exact absurd hrel (hpc _)

/-- A worker that keeps its lease leaves the endpoints alone. -/
theorem WorkerMove.lease_from (h : WorkerMove cfg now st w pc l st' pc') (hl : pc'.lease = some (id, leaseId)) :
    (pc.lease = some (id, leaseId) ∧ st'.endpoints = st.endpoints) ∨
      ∃ cutoff c rest, pc = .trying cutoff (c :: rest) ∧ c.id = id ∧
        claimEndpoint st now c.id cutoff = (some leaseId, st') := by
  cases h with
  | outside _ _ _ hpc' =>
      rw [Pc.lease_of_isOutside hpc'] at hl
      cases hl
  | claim hc =>
      cases hl
      exact .inr ⟨_, _, _, rfl, rfl, hc⟩
  | close hc => exact .inl ⟨hl, (closeOrphans_endpoints hc).1⟩
  | finish endpointId leaseId =>
      refine .inl ⟨?_, rfl⟩
      rw [← hl]
      show some (_, _) = some (_, _)
      rw [endpointId, leaseId]
  | touchBusy | touchFree | requeue | fetch | checkNone | checkLater | checkDue | insert | mark | send =>
      exact .inl ⟨hl, rfl⟩
  | _ => cases hl

theorem AllFresh.step (hi : AllFresh cfg s) (hl : LeaseInv cfg s) (hp : Punctual cfg s l)
    (h : step cfg s l = some s') : AllFresh cfg s' := by
  intro w id leaseId hlease
  cases step_move h with
  | tick ms hlabel now store pcs =>
      subst hlabel
      rw [pcs] at hlease
      obtain ⟨e, he, hid, hle, t, hs, -⟩ := hi w id leaseId hlease
      rw [store, now]
      exact ⟨e, he, hid, hle, t, hs, hp w id leaseId hlease e he hle t hs⟩
  | api _ now pcs h =>
      rw [pcs] at hlease
      rw [now]
      have hch : EndpointsChange s.now .idle s.store s'.store := h.endpoints
      exact (hi w id leaseId hlease).change hch hl.ids hl.columns nofun nofun
  | worker w' now pcs h =>
      rw [now]
      by_cases hw : w = w'
      · subst hw
        obtain ⟨hlease, heq⟩ | ⟨cutoff, c, rest, -, rfl, hc⟩ := h.lease_from hlease
        · unfold Fresh
          rw [heq]
          exact hi w id leaseId hlease
        · obtain ⟨rfl, hany, heq⟩ := claimEndpoint_some hc
          obtain ⟨e, he, hclaim⟩ := List.any_eq_true.mp hany
          rw [heq]
          exact ⟨_, Table.mem_update_of_pos he hclaim, Endpoint.id_of_isClaimable (e := e) hclaim,
            rfl, s.now, rfl,
            Nat.le_add_right _ _⟩
      · rw [pcs w hw] at hlease
        exact (hi w id leaseId hlease).change (h.endpoints hl.ids) hl.ids hl.columns
          (fun _ => (hl.worker w').cutoff_le) fun id' h' => hw (hl.distinct _ _ _ _ _ hlease h')

variable {p : Sys → Label → Prop} [DecidableRel p]

theorem allFresh_of_punctual (hp : ∀ s l, p s l → Punctual cfg s l)
    (h : Reachable (restrict p (step cfg)) (.init tenants) s) : AllFresh cfg s :=
  h.inv (I := AllFresh cfg) (fun _ _ _ h => by cases h) fun _ _ _ hr hi hs =>
    hi.step (leaseInv_of_reachable hr.of_restrict) (hp _ _ (restrict_eq_some.mp hs).1)
      (restrict_eq_some.mp hs).2

/-- No live worker outlives its lease, so no claim does. -/
theorem timely_of_punctual (hp : ∀ s l, p s l → Punctual cfg s l)
    (h : Reachable (restrict p (step cfg)) (.init tenants) s) :
    Reachable (restrict (Timely cfg) (step cfg)) (.init tenants) s := by
  refine h.weaken fun s₁ l s₂ hr hl _ => ?_
  cases l with
  | tick ms =>
      intro w c next hpc
      have hfacts := (leaseInv_of_reachable hr.of_restrict).worker w
      rw [hpc] at hfacts
      have hlease : (s₁.pcs w).lease = some (c.candidate.id, c.leaseId) := by rw [hpc]; rfl
      obtain ⟨e, he, -, hle, -⟩ := allFresh_of_punctual hp hr w _ _ hlease
      exact hp s₁ _ hl w _ _ hlease e he hle _ (hfacts.claimedAt e he hle)
  | _ => trivial

/-- In every run in which no live worker outlives its lease, wherever workers die: every live worker's endpoint
still has its lease, and no write-back is told that it lost it. -/
theorem lease_kept (h : Reachable (restrict (Punctual cfg) (step cfg)) (.init tenants) s) :
    (∀ w id leaseId, (s.pcs w).lease = some (id, leaseId) → Holds s.store id leaseId) ∧
    ∀ w claimed, s.pcs w = .holding claimed ∨ s.pcs w = .sent claimed →
      (∀ result random fault,
        (completeDelivery cfg s.now s.store claimed result random fault).1 ≠ some .leaseLost) ∧
      ∀ result random, acceptsText result.responseBodyTruncated = true →
        completeDelivery cfg s.now s.store claimed result random none =
          (some (resolution cfg claimed result), writeBack cfg s.now s.store claimed result random) := by
  have hfresh := allFresh_of_punctual (fun _ _ h => h) h
  have hn := (leaseInv_of_reachable h.of_restrict).ids
  refine ⟨fun w id leaseId hl => (hfresh w id leaseId hl).holds, fun w claimed hpc => ?_⟩
  have hlease : (s.pcs w).lease = some (claimed.endpointId, claimed.leaseId) := by
    obtain hpc | hpc := hpc <;> rw [hpc] <;> rfl
  have hcur := currentLease_of_holds hn (hfresh w _ _ hlease).holds
  refine ⟨fun result random fault => ?_, fun result random ha => completeDelivery_commits hcur ha⟩
  obtain hc | ⟨hlost, -⟩ | ⟨-, -, hc⟩ :=
    completeDelivery_cases cfg s.now s.store claimed result random fault
  · rw [hc]
    exact nofun
  · exact absurd hcur hlost
  · rw [hc]
    unfold resolution
    split
    · simp
    · split <;> simp

/-! ### Nobody is disturbed -/

/-- The statements a claim sends for an endpoint it saw busy. -/
def ClaimStep.takesOver : ClaimStep → Bool
  | .closeOrphans | .requeue => true
  | _ => false

/-- What a worker has seen of its candidates, as long as no lease is left behind. -/
def Pc.SawFree : Pc → Prop
  | .trying _ cs => ∀ c ∈ cs, c.busy = false
  | .claiming c next => c.candidate.busy = false ∧ (∀ c' ∈ c.rest, c'.busy = false) ∧
      next.takesOver = false
  | _ => True

/-- Nothing is left behind: every lease is a live worker's, nobody takes an endpoint over, and no attempt is
closed for another worker. -/
structure NothingLeft (s : Sys) : Prop where
  held : ∀ e ∈ s.store.endpoints, ∀ leaseId, e.leaseId = some leaseId →
    ∃ w, (s.pcs w).lease = some (e.id, leaseId)
  saw : ∀ w, (s.pcs w).SawFree
  attempts : ∀ a ∈ s.store.attempts, a.errorClass ≠ some .workerLeaseExpired

/-- The endpoint no longer has the lease. -/
def Given (st : Store) (id leaseId : Uuid) : Prop :=
  ∀ e ∈ st.endpoints, e.id = id → e.leaseId ≠ some leaseId

/-- A worker gives its lease back, unless it dies or throws. -/
theorem WorkerMove.lease_to (h : WorkerMove cfg now st w pc l st' pc') (hl : pc.lease = some (id, leaseId))
    (hn : (st.endpoints.map (·.id)).Nodup) (hf : Fresh cfg now st id leaseId) (hsaw : pc.SawFree)
    (hdie : l ≠ .die w)
    (hfault : ∀ result random fault, l = .complete w result random fault →
      fault = none ∧ acceptsText result.responseBodyTruncated = true)
    (hthrew : ∀ c head n attemptId, l = .step w → pc = .claiming c (.finish head n attemptId) → pc' ≠ .idle) :
    pc'.lease = some (id, leaseId) ∨ Given st' id leaseId := by
  cases h with
  | outside _ lease =>
      rw [lease] at hl
      cases hl
  | closeThrew => cases hsaw.2.2
  | finishThrew => exact absurd rfl (hthrew _ _ _ _ rfl rfl)
  | finish endpointId leaseId =>
      refine .inl ?_
      rw [← hl]
      show some (_, _) = some (_, _)
      rw [endpointId, leaseId]
  | release =>
      cases hl
      refine .inr fun e he hid hle => ?_
      obtain ⟨-, hp⟩ | ⟨e₁, -, -, rfl⟩ := Table.mem_update_cases he
      · simp [hid, hle] at hp
      · cases hle
  | @complete _ claimed result random fault hpc =>
      obtain ⟨rfl, ha⟩ := hfault _ _ _ rfl
      have hlease : (claimed.endpointId, claimed.leaseId) = (id, leaseId) := by
        obtain rfl | rfl := hpc <;> exact Option.some.inj hl
      cases hlease
      rw [completeDelivery_commits (currentLease_of_holds hn hf.holds) ha]
      refine .inr fun e he hid hle => ?_
      obtain ⟨-, hp⟩ | ⟨e₁, -, -, rfl⟩ := Table.mem_update_cases he
      · exact of_decide_eq_false hp hid
      · rw [(Endpoint.resolve_columns _ e₁).2.2] at hle
        cases hle
  | die => exact absurd rfl hdie
  | touchBusy | touchFree | close | requeue | fetch | checkNone | checkLater | checkDue | insert | mark | send =>
      exact .inl hl
  | _ => cases hl

/-- A lease an endpoint has after a worker's step it had before, or the worker has just got it. -/
theorem WorkerMove.lease_of (h : WorkerMove cfg now st w pc l st' pc') {e' : Endpoint}
    (hle : e'.leaseId = some leaseId) (he' : e' ∈ st'.endpoints) :
    (∃ e ∈ st.endpoints, e.id = e'.id ∧ e.leaseId = some leaseId) ∨ pc'.lease = some (e'.id, leaseId) := by
  cases h with
  | claim hc =>
      obtain ⟨rfl, -, rfl⟩ := claimEndpoint_some hc
      obtain ⟨he, -⟩ | ⟨e, -, hp, rfl⟩ := Table.mem_update_cases he'
      · exact .inl ⟨e', he, rfl, hle⟩
      · cases hle
        exact .inr (congrArg (fun id => some (id, _)) (Endpoint.id_of_isClaimable (e := e) hp).symm)
  | release =>
      obtain ⟨he, -⟩ | ⟨e, -, -, rfl⟩ := Table.mem_update_cases he'
      · exact .inl ⟨e', he, rfl, hle⟩
      · cases hle
  | @complete _ claimed result random fault hpc =>
      obtain hc | ⟨-, hc⟩ | ⟨-, -, hc⟩ := completeDelivery_cases cfg now st claimed result random fault <;>
        rw [hc] at he'
      · exact .inl ⟨e', he', rfl, hle⟩
      · exact .inl ⟨e', he', rfl, hle⟩
      · obtain ⟨he, -⟩ | ⟨e, -, -, rfl⟩ := Table.mem_update_cases he'
        · exact .inl ⟨e', he, rfl, hle⟩
        · rw [(Endpoint.resolve_columns _ e).2.2] at hle
          cases hle
  | close hc => exact .inl ⟨e', (closeOrphans_endpoints hc).1 ▸ he', rfl, hle⟩
  | commit => exact .inl ⟨e', commitExpansion_endpoints .. ▸ he', rfl, hle⟩
  | _ => exact .inl ⟨e', he', rfl, hle⟩

/-- A claim that decrypts its secrets returns its delivery. -/
theorem finish_holding {c : Claim} {head : DeliveryRow} {n : Nat} {attemptId : Uuid}
    (hpc : s.pcs w = .claiming c (.finish head n attemptId)) (h : step cfg s (.step w) = some s')
    (hd : (decryptSecrets cfg s.now head).isSome = true) : s'.pcs w ≠ .idle := by
  obtain ⟨secrets, hd⟩ := Option.isSome_iff_exists.mp hd
  rw [step_claiming hpc] at h
  cases h
  rw [Sys.setPc_pcs_self]
  simp only [claimStep, hd]
  exact fun h => by cases h

/-- Every lease the candidate query meets is fresh, so it lists only endpoints nobody holds. -/
theorem NothingLeft.candidates (hi : NothingLeft s) (hf : AllFresh cfg s) (hl : LeaseInv cfg s)
    (hcut : cutoff ≤ s.now - cfg.leaseDurationMs) {scan : List Endpoint} (hscan : scan.Perm s.store.endpoints) :
    ∀ c ∈ claimCandidates s.store s.now cutoff scan, c.busy = false := by
  intro c hc
  obtain ⟨e, he, hcand, rfl⟩ := claimCandidates_candidate hscan hc
  obtain ⟨a, ha⟩ := Option.isSome_iff_exists.mp hcand
  have hfree := (candidateOf_eq_some ha).2.1.2
  show e.busy = false
  cases hle : e.leaseId with
  | none => rw [(hl.columns e he).lease, hle]; rfl
  | some leaseId =>
      obtain ⟨w, hw⟩ := hi.held e he leaseId hle
      rw [(hf w _ _ hw).not_free hl.ids (hl.columns e he) he rfl hcut] at hfree
      cases hfree

theorem WorkerMove.sawFree (h : WorkerMove cfg now st w pc l st' pc') (hsaw : pc.SawFree)
    (hcand : ∀ cutoff scan, pc.cutoff = some cutoff → scan.Perm st.endpoints →
      ∀ c ∈ claimCandidates st now cutoff scan, c.busy = false) : pc'.SawFree := by
  cases h with
  | outside _ _ _ hpc' =>
      cases pc' with
      | trying | claiming => cases hpc'
      | _ => trivial
  | query hscan => exact hcand _ _ rfl hscan
  | lost => exact fun c hc => hsaw c (List.mem_cons_of_mem _ hc)
  | claim =>
      exact ⟨hsaw _ List.mem_cons_self, fun c hc => hsaw c (List.mem_cons_of_mem _ hc), rfl⟩
  | touchBusy hb =>
      rw [hsaw.1] at hb
      cases hb
  | close => cases hsaw.2.2
  | release => exact hsaw.2.1
  | touchFree | requeue | fetch | checkNone | checkLater | checkDue | insert | mark =>
      exact ⟨hsaw.1, hsaw.2.1, rfl⟩
  | _ => trivial

theorem NothingLeft.init (tenants : List Tenant) : NothingLeft (.init tenants) where
  held _ h := by cases h
  saw _ := trivial
  attempts _ h := by cases h

/-- The API gives no lease away. -/
theorem ApiMove.lease_of (h : ApiMove now st st') {e' : Endpoint} (hle : e'.leaseId = some leaseId)
    (he' : e' ∈ st'.endpoints) : ∃ e ∈ st.endpoints, e.id = e'.id ∧ e.leaseId = some leaseId := by
  have hch : EndpointsChange now .idle st st' := h.endpoints
  obtain ⟨g, new, heq, hg, hnew, -⟩ := hch
  obtain ⟨e, he, rfl⟩ | he' := Table.mem_rewrite_cases heq he'
  · obtain ⟨⟨hid, -⟩, hc⟩ := hg e he
    cases hc with
    | keep busy busySince leaseId => exact ⟨e, he, hid.symm, leaseId.symm.trans hle⟩
    | claimed hpc => cases hpc
    | released hpc => cases hpc
  · rw [(hnew e' he').leaseId] at hle
    cases hle

/-- Only a worker that takes an endpoint over closes an attempt for another. -/
theorem WorkerMove.notExpired (h : WorkerMove cfg now st w pc l st' pc') (hsaw : pc.SawFree)
    (hi : ∀ a ∈ st.attempts, a.errorClass ≠ some .workerLeaseExpired) :
    ∀ a ∈ st'.attempts, a.errorClass ≠ some .workerLeaseExpired := by
  intro a' ha'
  obtain ⟨g, new, heq, hg, hnew⟩ := h.attempts
  obtain ⟨a, ha, rfl⟩ | ha' := Table.mem_rewrite_cases heq ha'
  · have hc := hg a ha
    generalize g a = a' at hc
    cases hc with
    | keep => exact hi a ha
    | expired _ hpc =>
        rw [hpc] at hsaw
        cases hsaw.2.2
    | @closed _ result => exact result.notExpired
  · obtain rfl | ⟨c, head, -, -, -, rfl⟩ := hnew
    · cases ha'
    · cases List.mem_singleton.mp ha'
      exact fun h => by cases h

/-- A worker that is not disturbed gives back what it no longer holds. -/
theorem WorkerMove.returns (h : WorkerMove cfg s.now s.store w (s.pcs w) l s'.store (s'.pcs w))
    (hl : (s.pcs w).lease = some (id, leaseId)) (hn : (s.store.endpoints.map (·.id)).Nodup)
    (hf : Fresh cfg s.now s.store id leaseId) (hsaw : (s.pcs w).SawFree) (hu : Undisturbed cfg s l)
    (hs : step cfg s l = some s') : (s'.pcs w).lease = some (id, leaseId) ∨ Given s'.store id leaseId := by
  refine h.lease_to hl hn hf hsaw ?_ ?_ ?_
  · rintro rfl
    exact hu.2
  · rintro result random fault rfl
    exact hu.2
  · rintro c head n attemptId rfl hpc
    exact finish_holding hpc hs (hu.2 c head n attemptId hpc)

theorem NothingLeft.step (hi : NothingLeft s) (hf : AllFresh cfg s) (hl : LeaseInv cfg s)
    (hu : Undisturbed cfg s l) (h : step cfg s l = some s') : NothingLeft s' := by
  have hs := h
  cases step_move h with
  | tick _ _ _ store pcs =>
      exact ⟨by rw [store, pcs]; exact hi.held, by rw [pcs]; exact hi.saw, by rw [store]; exact hi.attempts⟩
  | api _ _ pcs h =>
      refine ⟨fun e' he' leaseId hle => ?_, by rw [pcs]; exact hi.saw, by rw [h.attempts]; exact hi.attempts⟩
      obtain ⟨e, he, hid, hle⟩ := h.lease_of hle he'
      rw [pcs, ← hid]
      exact hi.held e he leaseId hle
  | worker w _ pcs h =>
      refine ⟨fun e' he' leaseId hle' => ?_, fun w' => ?_, h.notExpired (hi.saw w) hi.attempts⟩
      · obtain ⟨e, he, hid, hle⟩ | hw := h.lease_of hle' he'
        · obtain ⟨w', hw'⟩ := hi.held e he leaseId hle
          rw [hid] at hw'
          by_cases hw : w' = w
          · subst hw
            obtain hlease | hgiven := h.returns hw' hl.ids (hf w' _ _ hw') (hi.saw w') hu hs
            · exact ⟨w', hlease⟩
            · exact absurd hle' (hgiven e' he' rfl)
          · exact ⟨w', by rw [pcs w' hw]; exact hw'⟩
        · exact ⟨w, hw⟩
      · by_cases hw : w' = w
        · rw [hw]
          exact h.sawFree (hi.saw w) fun cutoff scan hcut hscan =>
            hi.candidates hf hl ((hl.worker w).cutoff_le hcut) hscan
        · rw [pcs w' hw]
          exact hi.saw w'

theorem nothingLeft_of_undisturbed (h : Reachable (restrict (Undisturbed cfg) (step cfg)) (.init tenants) s) :
    NothingLeft s := by
  refine h.inv (.init tenants) fun s₁ l s₂ hr hi hs => ?_
  obtain ⟨hu, hs⟩ := restrict_eq_some.mp hs
  exact hi.step (allFresh_of_punctual (fun _ _ h => h.1) hr) (leaseInv_of_reachable hr.of_restrict) hu hs

/-- A worker that took an endpoint nobody held has the delivery in flight there, or nothing is. -/
theorem Pc.ExclFacts.inFlight {d : Delivery} (hx : pc.ExclFacts st) (hsaw : pc.SawFree)
    (hl : pc.lease = some (id, leaseId)) (hh : Holds st id leaseId) (hd : d ∈ st.deliveries)
    (hid : d.endpointId = id) (hs : d.state = .inFlight) : pc.delivery = some d.id := by
  cases pc with
  | claiming c next =>
      cases hl
      have hnext := hx hh
      cases next with
      | touchTenant => exact absurd hs (hnext hsaw.1 d hd hid)
      | closeOrphans | requeue => cases hsaw.2.2
      | fetchHead | release => exact absurd hs (hnext d hd hid)
      | checkHead head =>
          cases head with
          | none => exact absurd hs (hnext d hd hid)
          | some head => exact absurd hs (hnext.1 d hd hid)
      | insertAttempt | markInFlight => exact absurd hs (hnext.1 d hd hid)
      | finish => exact congrArg some (hnext.1 d hd hid hs).symm
  | holding claimed | sent claimed =>
      cases hl
      exact congrArg some ((hx hh).1 d hd hid hs).symm
  | _ => cases hl

/-- In every run in which no live worker outlives its lease, nobody dies and nothing fails, the store tells the
truth about the workers: an endpoint is busy exactly while a worker has it, and then only one has; a delivery
in flight is the one that worker is over; and no attempt is recorded as `worker_lease_expired`. -/
theorem undisturbed_truth (h : Reachable (restrict (Undisturbed cfg) (step cfg)) (.init tenants) s) :
    (∀ e ∈ s.store.endpoints,
      e.busy = true ↔ ∃! w, ∃ leaseId, (s.pcs w).lease = some (e.id, leaseId)) ∧
    (∀ d ∈ s.store.deliveries, d.state = .inFlight →
      ∃ w leaseId, (s.pcs w).lease = some (d.endpointId, leaseId) ∧ (s.pcs w).delivery = some d.id) ∧
    ∀ a ∈ s.store.attempts, a.errorClass ≠ some .workerLeaseExpired := by
  have hi := nothingLeft_of_undisturbed h
  have hfresh := allFresh_of_punctual (fun _ _ h => h.1) h
  have hl := leaseInv_of_reachable h.of_restrict
  have hk := keyInv_of_reachable h.of_restrict
  have hx : ExclInv s := exclInv_of_reachable
    (fun _ hr l _ => fenced_of_timely (fun _ _ h => h) (timely_of_punctual (fun _ _ h => h.1) hr) _ l) h
  have hworker : ∀ e ∈ s.store.endpoints, e.busy = true →
      ∃ w leaseId, (s.pcs w).lease = some (e.id, leaseId) := by
    intro e he hb
    rw [(hl.columns e he).lease] at hb
    obtain ⟨leaseId, hle⟩ := Option.isSome_iff_exists.mp hb
    obtain ⟨w, hw⟩ := hi.held e he leaseId hle
    exact ⟨w, leaseId, hw⟩
  refine ⟨fun e he => ⟨fun hb => ?_, ?_⟩, fun d hd hs => ?_, hi.attempts⟩
  · obtain ⟨w, leaseId, hw⟩ := hworker e he hb
    refine ⟨w, ⟨leaseId, hw⟩, ?_⟩
    rintro w' ⟨leaseId', hw'⟩
    have hh := (hfresh w _ _ hw).holds
    rw [(hfresh w' _ _ hw').holds.unique hl.ids hh] at hw'
    exact hl.distinct _ _ _ _ _ hw' hw
  · rintro ⟨w, ⟨leaseId, hw⟩, -⟩
    obtain ⟨e', he', hid, hle⟩ := (hfresh w _ _ hw).holds
    obtain rfl : e' = e := Table.eq_of_key hl.ids he' he hid
    rw [(hl.columns e' he').lease, hle]
    rfl
  · obtain ⟨e, he, hid⟩ := (hk.tables.linked d hd).2
    have hb : e.busy = true := by
      by_contra hb
      exact hx.free e he (Bool.eq_false_of_not_eq_true hb) d hd hid.symm hs
    obtain ⟨w, leaseId, hw⟩ := hworker e he hb
    rw [hid] at hw
    exact ⟨w, leaseId, hw, (hx.worker w).inFlight (hi.saw w) hw (hfresh w _ _ hw).holds hd rfl hs⟩

end

/-! ### Two runs -/

/-- No worker of `ws` outlives its lease. -/
def Label.isPunctual (cfg : Config) (ws : List WorkerId) (s : Sys) : Label → Bool
  | .tick ms => ws.all fun w => (s.pcs w).lease.all fun lease => s.store.endpoints.all fun e =>
      decide (e.leaseId ≠ some lease.2) || e.busySince.all fun t => s.now + ms ≤ t + cfg.leaseDurationMs
  | _ => true

/-- `Punctual`, for steps of the workers `ws` only; this can be evaluated. -/
def PunctualAmong (cfg : Config) (ws : List WorkerId) (s : Sys) (l : Label) : Prop :=
  TimelyAmong cfg ws s l ∧ l.isPunctual cfg ws s = true

instance (cfg : Config) (ws : List WorkerId) : DecidableRel (PunctualAmong cfg ws) := fun _ _ =>
  inferInstanceAs (Decidable (_ ∧ _))

theorem PunctualAmong.punctual {cfg : Config} {ws : List WorkerId} {s : Sys} {l : Label}
    (h : PunctualAmong cfg ws s l) (hidle : ∀ w, w ∉ ws → s.pcs w = .idle) : Punctual cfg s l := by
  cases l with
  | tick ms =>
      intro w id leaseId hl e he hle t ht
      by_cases hw : w ∈ ws
      · have := List.all_eq_true.mp h.2 w hw
        rw [hl] at this
        simpa [hle, ht] using List.all_eq_true.mp this e he
      · rw [hidle w hw] at hl
        cases hl
  | _ => trivial

/-- A run of these workers, the others being idle, meets what follows from its condition and its being
punctual. -/
theorem weaken_punctualAmong {cfg : Config} {ws : List WorkerId} {s s' : Sys}
    {p q : Sys → Label → Prop} [DecidableRel p] [DecidableRel q] (hidle : ∀ w, w ∉ ws → s.pcs w = .idle)
    (hp : ∀ s l, p s l → PunctualAmong cfg ws s l) (hq : ∀ s l, Punctual cfg s l → p s l → q s l)
    (h : Reachable (restrict p (step cfg)) s s') : Reachable (restrict q (step cfg)) s s' := by
  refine h.weaken fun s₁ l s₂ hr hl _ => hq s₁ l ((hp _ _ hl).punctual fun w hw => ?_) hl
  rw [pcs_of_timelyAmong (fun s l h => (hp s l h).1) hr hw, hidle w hw]

open Sample

/-- Worker 0 dies over the first claim; worker 1 takes the endpoint over when the lease has run out. -/
theorem lease_kept_sample : ∃ s claimed, Reachable (restrict (Punctual config) (step config)) start s ∧
    s.pcs 0 = .dead ∧ s.pcs 1 = .sent claimed ∧ Holds s.store claimed.endpointId claimed.leaseId ∧
    completeDelivery config s.now s.store claimed (response 500) ⟨0, 1, Nat.one_pos⟩ none =
      (some .retrying, writeBack config s.now s.store claimed (response 500) ⟨0, 1, Nat.one_pos⟩) := by
  obtain ⟨s, hs, hp⟩ := exists_of_run (restrict (PunctualAmong config [0, 1]) (step config)) start
    (register :: publish 0 "k" ++ expand ++ claim 0 none 7 ++ [.die 0, .tick 11] ++
      claim 1 (some (0, 3)) 9 ++ [.send 1, .tick 10])
    (fun s => s.pcs 0 = .dead && match s.pcs 1 with
      | .sent claimed => decide (resolution config claimed (response 500) = .retrying)
      | _ => false) (by decide)
  simp only [Bool.and_eq_true, decide_eq_true_eq] at hp
  obtain ⟨hdead, hp⟩ := hp
  split at hp
  · next claimed hpc =>
      have hr := weaken_punctualAmong (q := Punctual config) (fun _ _ => rfl) (fun _ _ h => h)
        (fun _ _ h _ => h) (.of_run hs)
      obtain ⟨hheld, hback⟩ := lease_kept hr
      refine ⟨s, claimed, hr, hdead, hpc, hheld 1 _ _ (by rw [hpc]; rfl), ?_⟩
      rw [(hback 1 claimed (.inr hpc)).2 (response 500) _ (by decide), of_decide_eq_true hp]
  · cases hp

/-- A label of an undisturbed run. -/
def Label.isUndisturbed : Label → Bool
  | .die _ => false
  | .complete _ result _ fault => fault.isNone && acceptsText result.responseBodyTruncated
  | _ => true

theorem decryptSecrets_config (now : Time) (head : DeliveryRow) :
    (decryptSecrets config now head).isSome = true := by
  cases hs : head.secondarySecret <;> cases he : head.secondarySecretExpiresAt <;>
    simp only [decryptSecrets, config, hs, he, Option.bind_some, Option.map_some, Option.isSome_some]
  split <;> rfl

/-- The first attempt is answered with 500; worker 2 makes the second one. -/
theorem undisturbed_truth_sample : ∃ s, Reachable (restrict (Undisturbed config) (step config)) start s ∧
    (∃ d ∈ s.store.deliveries, d.state = .inFlight ∧ d.attemptCount = 2) ∧
    (∀ e ∈ s.store.endpoints,
      e.busy = true ↔ ∃! w, ∃ leaseId, (s.pcs w).lease = some (e.id, leaseId)) ∧
    (∀ d ∈ s.store.deliveries, d.state = .inFlight →
      ∃ w leaseId, (s.pcs w).lease = some (d.endpointId, leaseId) ∧ (s.pcs w).delivery = some d.id) ∧
    ∀ a ∈ s.store.attempts, a.errorClass ≠ some .workerLeaseExpired := by
  obtain ⟨s, hs, hp⟩ := exists_of_run
    (restrict (fun s l => PunctualAmong config [0, 1, 2] s l ∧ l.isUndisturbed = true) (step config)) start
    (register :: publish 0 "k" ++ expand ++ claim 1 none 7 ++ deliver 1 500 ++ [.tick 5] ++
      claim 2 none 7 ++ [.tick 5])
    (fun s => decide (∃ d ∈ s.store.deliveries, d.state = .inFlight ∧ d.attemptCount = 2)) (by decide)
  have hr : Reachable (restrict (Undisturbed config) (step config)) start s := by
    refine weaken_punctualAmong (fun _ _ => rfl) (fun _ _ h => h.1) (fun s l hl hp => ⟨hl, ?_⟩) (.of_run hs)
    cases l with
    | die => cases hp.2
    | complete _ _ _ fault => simpa [Label.isUndisturbed] using hp.2
    | step => exact fun _ head _ _ _ => decryptSecrets_config _ head
    | _ => trivial
  exact ⟨s, hr, of_decide_eq_true hp, undisturbed_truth hr⟩

end Webhooks
