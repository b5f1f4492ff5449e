import Webhooks.Protocol.Rows

/-!
# Protocol — Lease

What the lease columns of an endpoint and the claims of the workers know of each other, in every
run.

* `LeaseInv`: an endpoint is busy exactly while it has a lease; leases are handed out once; a
  worker's lease is on its own endpoint only, since the instant of its claim.
* `ClaimFacts.young`: a claim that is not older than the lease duration still holds its lease.
* **`leaseInv_of_reachable`**.
* `Fenced`: the steps in which a claim sends certain statements only while it holds its lease.
  `Timely`: the steps that let no claim grow older than its lease.  **`fenced_of_timely`**.
-/

namespace Webhooks

open Lib

/-! ### The invariant -/

/-- The lease columns of an endpoint row. -/
structure Endpoint.LeaseColumns (now : Time) (uuids : Uuid) (e : Endpoint) : Prop where
  lease : e.busy = e.leaseId.isSome
  since : e.busy = e.busySince.isSome
  past : ∀ t, e.busySince = some t → t ≤ now
  issued : ∀ leaseId, e.leaseId = some leaseId → leaseId < uuids
  id_lt : e.id < uuids

/-- The lease has been handed out, for this endpoint. -/
structure Issued (st : Store) (endpointId leaseId : Uuid) : Prop where
  lt : leaseId < st.uuids
  own : ∀ e ∈ st.endpoints, e.leaseId = some leaseId → e.id = endpointId

/-- A candidate the query saw free has not been claimed since before `cutoff`. -/
def FlagsFresh (st : Store) (cutoff : Time) (cs : List CandidateRow) : Prop :=
  ∀ c ∈ cs, c.busy = false → ∀ e ∈ st.endpoints, e.id = c.id →
    ∀ t, e.busySince = some t → cutoff ≤ t

structure ClaimFacts (cfg : Config) (now : Time) (st : Store) (c : Claim) : Prop where
  cutoff : c.cutoff ≤ now - cfg.leaseDurationMs
  flags : FlagsFresh st c.cutoff c.rest
  lease : Issued st c.candidate.id c.leaseId
  claimedAt : ∀ e ∈ st.endpoints, e.leaseId = some c.leaseId → e.busySince = some c.claimedAt
  young : now ≤ c.claimedAt + cfg.leaseDurationMs → Holds st c.candidate.id c.leaseId

/-- What holds of a worker at its place. -/
def Pc.LeaseFacts (cfg : Config) (now : Time) (st : Store) : Pc → Prop
  | .listing cutoff => cutoff ≤ now - cfg.leaseDurationMs
  | .trying cutoff cs => cutoff ≤ now - cfg.leaseDurationMs ∧ FlagsFresh st cutoff cs
  | .claiming c _ => ClaimFacts cfg now st c
  | .holding claimed | .sent claimed => Issued st claimed.endpointId claimed.leaseId
  | _ => True

structure LeaseInv (cfg : Config) (s : Sys) : Prop where
  ids : (s.store.endpoints.map (·.id)).Nodup
  columns : ∀ e ∈ s.store.endpoints, e.LeaseColumns s.now s.store.uuids
  worker : ∀ w, (s.pcs w).LeaseFacts cfg s.now s.store
  distinct : ∀ w w' endpointId endpointId' leaseId, (s.pcs w).lease = some (endpointId, leaseId) →
    (s.pcs w').lease = some (endpointId', leaseId) → w = w'

section

variable {cfg : Config} {now now' : Time} {st st' : Store} {w : WorkerId} {pc pc' : Pc} {l : Label}
  {e e' : Endpoint} {c : Claim} {endpointId leaseId leaseId' : Uuid} {cutoff : Time} {cs : List CandidateRow}

/-! ### What a step leaves standing of everybody else's claim -/

theorem Endpoint.LeaseColumns.change (hc : e.LeaseColumns now st.uuids)
    (h : e.Change now pc st st' e') (hid : e'.id = e.id) (hu : st.uuids ≤ st'.uuids) :
    e'.LeaseColumns now st'.uuids := by
  cases h with
  | keep busy busySince leaseId =>
      constructor
      · rw [busy, leaseId, hc.lease]
      · rw [busy, busySince, hc.since]
      · rw [busySince]; exact hc.past
      · rw [leaseId]; exact fun l h => (hc.issued l h).trans_le hu
      · rw [hid]; exact hc.id_lt.trans_le hu
  | claimed hpc free supply busy busySince leaseId =>
      constructor
      · rw [busy, leaseId]; rfl
      · rw [busy, busySince]; rfl
      · rw [busySince]; rintro t ⟨⟩; exact le_rfl
      · rw [leaseId]; rintro l ⟨⟩; exact supply
      · rw [hid]; exact hc.id_lt.trans supply
  | released hpc held busy busySince none =>
      constructor
      · rw [busy, none]; rfl
      · rw [busy, busySince]; rfl
      · rw [busySince]; nofun
      · rw [none]; nofun
      · rw [hid]; exact hc.id_lt.trans_le hu

/-- An endpoint row that carries a lease handed out before is an old row that carried it. -/
theorem EndpointsChange.lease_of_mem (h : EndpointsChange now pc st st') (hl : leaseId < st.uuids)
    (he' : e' ∈ st'.endpoints) (hle : e'.leaseId = some leaseId) :
    ∃ e ∈ st.endpoints, e.id = e'.id ∧ e.leaseId = some leaseId ∧ e'.busySince = e.busySince := by
  obtain ⟨g, new, heq, hg, hnew, -⟩ := h
  obtain ⟨e, he, rfl⟩ | he' := Table.mem_rewrite_cases heq he'
  · obtain ⟨⟨hid, -⟩, hch⟩ := hg e he
    cases hch with
    | keep busy busySince leaseId => exact ⟨e, he, hid.symm, leaseId ▸ hle, busySince⟩
    | claimed _ _ _ _ _ leaseId =>
        rw [leaseId] at hle
        cases hle
        exact absurd hl (lt_irrefl _)
    | released _ _ _ _ none => rw [none] at hle; cases hle
  · rw [(hnew e' he').leaseId] at hle
    cases hle

/-- Two leases an endpoint has at once are one. -/
theorem Holds.unique (hn : (st.endpoints.map (·.id)).Nodup) (h : Holds st endpointId leaseId)
    (h' : Holds st endpointId leaseId') : leaseId = leaseId' := by
  obtain ⟨e, he, hid, hl⟩ := h
  obtain ⟨e', he', hid', hl'⟩ := h'
  obtain rfl : e = e' := Table.eq_of_key hn he he' (hid.trans hid'.symm)
  exact Option.some.inj (hl.symm.trans hl')

/-- A lease handed out before is held afterwards only where it was held. -/
theorem Holds.before (h : Holds st' endpointId leaseId) (hc : EndpointsChange now pc st st')
    (hl : leaseId < st.uuids) : Holds st endpointId leaseId := by
  obtain ⟨e', he', hid', hl'⟩ := h
  obtain ⟨e, he, hid, hle, -⟩ := hc.lease_of_mem hl he' hl'
  exact ⟨e, he, hid.trans hid', hle⟩

theorem Issued.change (hi : Issued st endpointId leaseId) (h : EndpointsChange now pc st st')
    (hu : st.uuids ≤ st'.uuids) : Issued st' endpointId leaseId := by
  refine ⟨hi.lt.trans_le hu, fun e' he' hle => ?_⟩
  obtain ⟨e, he, hid, hl, -⟩ := h.lease_of_mem hi.lt he' hle
  rw [← hid]
  exact hi.own e he hl

theorem FlagsFresh.change (hf : FlagsFresh st cutoff cs) (h : EndpointsChange now pc st st')
    (hcut : cutoff ≤ now) : FlagsFresh st' cutoff cs := by
  obtain ⟨g, new, heq, hg, hnew, -⟩ := h
  intro c hc hb e' he' hid t ht
  obtain ⟨e, he, rfl⟩ | he' := Table.mem_rewrite_cases heq he'
  · obtain ⟨⟨hide, -⟩, hch⟩ := hg e he
    cases hch with
    | keep busy busySince leaseId => exact hf c hc hb e he (hide ▸ hid) t (busySince ▸ ht)
    | claimed _ _ _ _ busySince _ =>
        rw [busySince] at ht
        cases ht
        exact hcut
    | released _ _ _ busySince _ => rw [busySince] at ht; cases ht
  · rw [(hnew e' he').busySince] at ht
    cases ht

/-- A claim that is not older than the lease duration keeps its lease: it is too young to be
taken over, and nobody else releases it. -/
theorem EndpointsChange.young (h : EndpointsChange now pc st st')
    (hcut : ∀ cutoff, pc.cutoff = some cutoff → cutoff ≤ now - cfg.leaseDurationMs)
    (hpc : ∀ id, pc.lease ≠ some (id, c.leaseId)) (hc : ClaimFacts cfg now st c)
    (hcol : ∀ e ∈ st.endpoints, e.LeaseColumns now st.uuids)
    (hy : now ≤ c.claimedAt + cfg.leaseDurationMs) : Holds st' c.candidate.id c.leaseId := by
  obtain ⟨g, new, heq, hg, -, -⟩ := h
  obtain ⟨e, he, hid, hl⟩ := hc.young hy
  obtain ⟨⟨hide, -⟩, hch⟩ := hg e he
  refine ⟨g e, Table.mem_of_rewrite heq he, hide.trans hid, ?_⟩
  cases hch with
  | keep busy busySince leaseId => rw [leaseId, hl]
  | @claimed cutoff hcutoff free _ _ _ _ =>
      exfalso
      have hb : e.busy = true := by rw [(hcol e he).lease, hl]; rfl
      have hs := hc.claimedAt e he hl
      simp only [Endpoint.isFree, hb, hs, Bool.not_true, Bool.false_or, Option.any_some,
        decide_eq_true_eq] at free
      -- claimed before the cutoff, so older than the lease duration
      exact absurd (Nat.add_lt_of_lt_sub (free.trans_le (hcut cutoff hcutoff))) (not_lt.mpr hy)
  | released hrel held _ _ _ =>
      rw [hl] at held
      cases held
      exact absurd hrel (hpc _)

theorem ClaimFacts.change (hc : ClaimFacts cfg now st c) (h : EndpointsChange now pc st st')
    (hu : st.uuids ≤ st'.uuids)
    (hcut : ∀ cutoff, pc.cutoff = some cutoff → cutoff ≤ now - cfg.leaseDurationMs)
    (hpc : ∀ id, pc.lease ≠ some (id, c.leaseId))
    (hcol : ∀ e ∈ st.endpoints, e.LeaseColumns now st.uuids) : ClaimFacts cfg now st' c where
  cutoff := hc.cutoff
  flags := hc.flags.change h (hc.cutoff.trans (Nat.sub_le _ _))
  lease := hc.lease.change h hu
  claimedAt e' he' hle := by
    obtain ⟨e, he, -, hl, hs⟩ := h.lease_of_mem hc.lease.lt he' hle
    rw [hs]
    exact hc.claimedAt e he hl
  young := h.young hcut hpc hc hcol

/-- A step of somebody else keeps what holds of a worker. -/
theorem Pc.LeaseFacts.change (hf : pc'.LeaseFacts cfg now st) (h : EndpointsChange now pc st st')
    (hu : st.uuids ≤ st'.uuids)
    (hcut : ∀ cutoff, pc.cutoff = some cutoff → cutoff ≤ now - cfg.leaseDurationMs)
    (hpc : ∀ id id' ℓ, pc.lease = some (id, ℓ) → pc'.lease ≠ some (id', ℓ))
    (hcol : ∀ e ∈ st.endpoints, e.LeaseColumns now st.uuids) : pc'.LeaseFacts cfg now st' := by
  cases pc' with
  | trying cutoff cs => exact ⟨hf.1, hf.2.change h (hf.1.trans (Nat.sub_le _ _))⟩
  | claiming c next =>
      exact ClaimFacts.change hf h hu hcut (fun id hl => hpc id _ _ hl rfl) hcol
  | holding claimed => exact Issued.change hf h hu
  | sent claimed => exact Issued.change hf h hu
  | _ => exact hf

/-! ### What a step leaves standing of the worker's own claim -/

theorem Pc.LeaseFacts.of_isOutside (h : pc.isOutside = true) : pc.LeaseFacts cfg now st := by
  cases pc with
  | listing | trying | claiming | holding | sent => cases h
  | _ => trivial

/-- A claim's statement that leaves the endpoints alone. -/
theorem ClaimFacts.of_eq (hc : ClaimFacts cfg now st c) (h : st'.endpoints = st.endpoints)
    (hu : st.uuids ≤ st'.uuids) : ClaimFacts cfg now st' c where
  cutoff := hc.cutoff
  flags := by unfold FlagsFresh; rw [h]; exact hc.flags
  lease := ⟨hc.lease.lt.trans_le hu, by rw [h]; exact hc.lease.own⟩
  claimedAt := by rw [h]; exact hc.claimedAt
  young := by unfold Holds; rw [h]; exact hc.young

/-- The candidate query sees an endpoint free only while no `busy_since` is set. -/
theorem claimCandidates_flags {scan : List Endpoint} (hscan : scan.Perm st.endpoints)
    (hn : (st.endpoints.map (·.id)).Nodup) (hcol : ∀ e ∈ st.endpoints, e.LeaseColumns now st.uuids) :
    FlagsFresh st cutoff (claimCandidates st now cutoff scan) := by
  intro c hc hb e he hid t ht
  obtain ⟨r, hr, rfl⟩ := List.mem_map.mp hc
  obtain ⟨e₀, he₀, hcand⟩ :=
    List.mem_filterMap.mp ((List.mem_insertionSort _).mp (List.mem_of_mem_take hr))
  unfold candidateOf at hcand
  split at hcand
  case isFalse => cases hcand
  case isTrue =>
      obtain ⟨t', -, hm⟩ := Option.bind_eq_some_iff.mp hcand
      obtain ⟨m, -, rfl⟩ := Option.map_eq_some_iff.mp hm
      obtain rfl : e = e₀ := Table.eq_of_key hn he (hscan.mem_iff.mp he₀) hid
      have := (hcol e he).since
      rw [ht, show e.busy = false from hb] at this
      cases this

/-- The claiming `UPDATE` gives its worker a fresh lease, from this instant on. -/
theorem claimEndpoint_facts {rest : List CandidateRow} {candidate : CandidateRow}
    (h : claimEndpoint st now candidate.id cutoff = (some leaseId, st'))
    (hcut : cutoff ≤ now - cfg.leaseDurationMs) (hf : FlagsFresh st cutoff rest)
    (hcol : ∀ e ∈ st.endpoints, e.LeaseColumns now st.uuids)
    (hch : EndpointsChange now (.trying cutoff (candidate :: rest)) st st') :
    ClaimFacts cfg now st' ⟨candidate, rest, cutoff, leaseId, now⟩ := by
  obtain ⟨rfl, ha, rfl⟩ := claimEndpoint_some h
  have hnew : ∀ e ∈ Table.update (Endpoint.isClaimable candidate.id cutoff)
      (fun e => { e with busy := true, busySince := some now, leaseId := some st.uuids })
      st.endpoints, e.leaseId = some st.uuids → e.id = candidate.id ∧ e.busySince = some now := by
    intro e he hl
    obtain ⟨he, -⟩ | ⟨e, he, hp, rfl⟩ := Table.mem_update_cases he
    · exact absurd ((hcol e he).issued _ hl) (lt_irrefl _)
    · exact ⟨Endpoint.id_of_isClaimable (e := e) hp, rfl⟩
  exact {
    cutoff := hcut
    flags := hf.change hch (hcut.trans (Nat.sub_le _ _))
    lease := ⟨Nat.lt_succ_self _, fun e he hl => (hnew e he hl).1⟩
    claimedAt := fun e he hl => (hnew e he hl).2
    young := fun _ => by
      obtain ⟨e, he, hp⟩ := List.any_eq_true.mp ha
      exact ⟨_, Table.mem_update_of_pos he hp, Endpoint.id_of_isClaimable (e := e) hp, rfl⟩ }

/-- A worker's step keeps what holds of it. -/
theorem WorkerMove.leaseFacts (h : WorkerMove cfg now st w pc l st' pc')
    (hn : (st.endpoints.map (·.id)).Nodup) (hcol : ∀ e ∈ st.endpoints, e.LeaseColumns now st.uuids)
    (hf : pc.LeaseFacts cfg now st) : pc'.LeaseFacts cfg now st' := by
  have hu := h.uuids_le
  have hch := h.endpoints hn
  cases h with
  | outside _ _ _ hpc' => exact .of_isOutside hpc'
  | start => exact le_rfl
  | query hscan => exact ⟨hf, claimCandidates_flags hscan hn hcol⟩
  | lost => exact ⟨hf.1, fun c hc => hf.2 c (List.mem_cons_of_mem _ hc)⟩
  | claim hc =>
      exact claimEndpoint_facts hc hf.1 (fun c hc => hf.2 c (List.mem_cons_of_mem _ hc)) hcol hch
  | close hc => exact ClaimFacts.of_eq hf (closeOrphans_endpoints hc).1 hu
  | release => exact ⟨hf.cutoff, hf.flags.change hch (hf.cutoff.trans (Nat.sub_le _ _))⟩
  | touchBusy | touchFree | requeue | fetch | checkNone | checkLater | checkDue | insert | mark =>
      exact ClaimFacts.of_eq hf rfl hu
  | finish endpointId leaseId =>
      show Issued _ _ _
      rw [endpointId, leaseId]
      exact hf.lease
  | send => exact hf
  | closeThrew | finishThrew | complete | insertRows | setExpanded | commit | die => trivial

/-- A worker's lease afterwards is the one it had, or one that is new. -/
theorem WorkerMove.lease_eq (h : WorkerMove cfg now st w pc l st' pc') :
    pc'.lease = none ∨ pc'.lease = pc.lease ∨ ∃ id, pc'.lease = some (id, st.uuids) := by
  cases h with
  | outside _ _ _ hpc' => exact .inl (Pc.lease_of_isOutside hpc')
  | claim hc =>
      obtain ⟨rfl, -, -⟩ := claimEndpoint_some hc
      exact .inr (.inr ⟨_, rfl⟩)
  | finish endpointId leaseId =>
      refine .inr (.inl ?_)
      show some (_, _) = some (_, _)
      rw [endpointId, leaseId]
  | touchBusy | touchFree | close | requeue | fetch | checkNone | checkLater | checkDue | insert | mark | send =>
      exact .inr (.inl rfl)
  | _ => exact .inl rfl

theorem Pc.LeaseFacts.lease_lt (hf : pc.LeaseFacts cfg now st)
    (h : pc.lease = some (endpointId, leaseId)) : leaseId < st.uuids := by
  cases pc with
  | claiming c next => cases h; exact hf.lease.lt
  | holding claimed => cases h; exact hf.lt
  | sent claimed => cases h; exact hf.lt
  | _ => cases h

theorem Pc.LeaseFacts.cutoff_le (hf : pc.LeaseFacts cfg now st) (h : pc.cutoff = some cutoff) :
    cutoff ≤ now - cfg.leaseDurationMs := by
  cases pc with
  | listing => cases h; exact hf
  | trying => cases h; exact hf.1
  | claiming => cases h; exact hf.cutoff
  | _ => cases h

end

/-! ### Every reachable state -/

section

variable {cfg : Config} {s s' : Sys} {l : Label}

/-- The endpoints keep distinct identifiers and their lease columns in order. -/
theorem EndpointsChange.inv {pc : Pc} (h : EndpointsChange s.now pc s.store s'.store)
    (hnow : s'.now = s.now) (hu : s.store.uuids ≤ s'.store.uuids)
    (hn : (s.store.endpoints.map (·.id)).Nodup)
    (hcol : ∀ e ∈ s.store.endpoints, e.LeaseColumns s.now s.store.uuids) :
    (s'.store.endpoints.map (·.id)).Nodup ∧
      ∀ e ∈ s'.store.endpoints, e.LeaseColumns s'.now s'.store.uuids := by
  obtain ⟨g, new, heq, hg, hnew, hnd⟩ := h
  have hids : (s.store.endpoints.map g).map (·.id) = s.store.endpoints.map (·.id) := by
    rw [List.map_map]
    exact List.map_congr_left fun e he => (hg e he).1.1
  rw [heq, hnow]
  constructor
  · refine Table.nodup_append (hids ▸ hn) hnd fun a ha b hb hab => ?_
    obtain ⟨e, he, rfl⟩ := List.mem_map.mp ha
    rw [(hg e he).1.1] at hab
    exact absurd (hab ▸ (hcol e he).id_lt) (not_lt.mpr (hnew b hb).le)
  · intro e' he'
    obtain he' | he' := List.mem_append.mp he'
    · obtain ⟨e, he, rfl⟩ := List.mem_map.mp he'
      exact (hcol e he).change (hg e he).2 (hg e he).1.1 hu
    · obtain ⟨-, hlt, busy, busySince, leaseId⟩ := hnew e' he'
      constructor
      · rw [busy, leaseId]; rfl
      · rw [busy, busySince]; rfl
      · rw [busySince]; nofun
      · rw [leaseId]; nofun
      · exact hlt

theorem LeaseInv.init (tenants : List Tenant) : LeaseInv cfg (.init tenants) where
  ids := .nil
  columns := nofun
  worker _ := trivial
  distinct := nofun

/-- The clock going on makes claims older, never younger. -/
theorem Pc.LeaseFacts.later {now ms : Time} {st : Store} {pc : Pc} (h : pc.LeaseFacts cfg now st) :
    pc.LeaseFacts cfg (now + ms) st := by
  have hcut : ∀ {cutoff}, cutoff ≤ now - cfg.leaseDurationMs →
      cutoff ≤ now + ms - cfg.leaseDurationMs := fun h =>
    h.trans (Nat.sub_le_sub_right (Nat.le_add_right _ _) _)
  cases pc with
  | listing => exact hcut h
  | trying => exact ⟨hcut h.1, h.2⟩
  | claiming c next =>
      exact ⟨hcut h.cutoff, h.flags, h.lease, h.claimedAt,
        fun hy => h.young ((Nat.le_add_right _ _).trans hy)⟩
  | _ => exact h

theorem LeaseInv.step (hi : LeaseInv cfg s) (h : step cfg s l = some s') : LeaseInv cfg s' := by
  cases step_move h with
  | tick ms _ now store pcs =>
      constructor
      · rw [store]; exact hi.ids
      · rw [store, now]
        intro e he
        exact { hi.columns e he with
          past := fun t ht => ((hi.columns e he).past t ht).trans (Nat.le_add_right _ _) }
      · rw [store, now, pcs]
        exact fun w => (hi.worker w).later
      · rw [pcs]; exact hi.distinct
  | api _ now pcs h =>
      have hch : EndpointsChange s.now .idle s.store s'.store := h.endpoints
      obtain ⟨hids, hcols⟩ := hch.inv now h.uuids_le hi.ids hi.columns
      refine ⟨hids, hcols, fun w => ?_, by rw [pcs]; exact hi.distinct⟩
      rw [now, pcs]
      exact (hi.worker w).change hch h.uuids_le nofun nofun hi.columns
  | worker w now pcs h =>
      have hch := h.endpoints hi.ids
      obtain ⟨hids, hcols⟩ := hch.inv now h.uuids_le hi.ids hi.columns
      refine ⟨hids, hcols, fun w' => ?_, ?_⟩
      · rw [now]
        by_cases hw : w' = w
        · rw [hw]
          exact h.leaseFacts hi.ids hi.columns (hi.worker w)
        · rw [pcs w' hw]
          refine (hi.worker w').change hch h.uuids_le (fun _ => (hi.worker w).cutoff_le)
            (fun id id' ℓ h₁ h₂ => ?_) hi.columns
          exact hw (hi.distinct _ _ _ _ _ h₂ h₁)
      · -- a lease that is new is nobody else's
        have hnew : ∀ w' id id' ℓ, w' ≠ w → (s'.pcs w).lease = some (id, ℓ) →
            (s'.pcs w').lease ≠ some (id', ℓ) := by
          intro w' id id' ℓ hw h₁ h₂
          rw [pcs w' hw] at h₂
          obtain hl | hl | ⟨id, hl⟩ := h.lease_eq <;> rw [hl] at h₁
          · cases h₁
          · exact hw (hi.distinct _ _ _ _ _ h₂ h₁)
          · cases h₁
            exact absurd ((hi.worker w').lease_lt h₂) (lt_irrefl _)
        intro w₁ w₂ id₁ id₂ ℓ h₁ h₂
        by_cases hw₁ : w₁ = w <;> by_cases hw₂ : w₂ = w
        · rw [hw₁, hw₂]
        · exact absurd h₂ (hnew w₂ _ _ _ hw₂ (hw₁ ▸ h₁))
        · exact absurd h₁ (hnew w₁ _ _ _ hw₁ (hw₂ ▸ h₂))
        · rw [pcs w₁ hw₁] at h₁
          rw [pcs w₂ hw₂] at h₂
          exact hi.distinct _ _ _ _ _ h₁ h₂

/-- The lease columns and the claims are in order in every reachable state. -/
theorem leaseInv_of_reachable {tenants : List Tenant}
    (h : Reachable (step cfg) (.init tenants) s) : LeaseInv cfg s :=
  h.inv (.init tenants) fun _ _ _ _ hi hs => hi.step hs

theorem step_uuids_le (h : step cfg s l = some s') : s.store.uuids ≤ s'.store.uuids := by
  cases step_move h with
  | tick _ _ _ store => rw [store]
  | api _ _ _ h => exact h.uuids_le
  | worker _ _ _ h => exact h.uuids_le

theorem uuids_le_of_reachable (h : Reachable (step cfg) s s') : s.store.uuids ≤ s'.store.uuids :=
  h.inv (I := fun s₁ => s.store.uuids ≤ s₁.store.uuids) le_rfl fun _ _ _ _ hi hs =>
    hi.trans (step_uuids_le hs)

/-! ### Fenced and timely steps -/

/-- A claim sends the statements `p` selects only while it holds its lease. -/
def Fenced (p : ClaimStep → Bool) (s : Sys) : Label → Prop
  | .step w =>
      match s.pcs w with
      | .claiming c next => p next = true → Holds s.store c.candidate.id c.leaseId
      | _ => True
  | _ => True

instance (p : ClaimStep → Bool) : DecidableRel (Fenced p) := fun s l => by
  unfold Fenced
  cases l with
  | step w => dsimp only; cases s.pcs w <;> exact inferInstance
  | _ => exact inferInstance

theorem Fenced.holds {p : ClaimStep → Bool} {w : WorkerId} {c : Claim} {next : ClaimStep}
    (h : Fenced p s (.step w)) (hpc : s.pcs w = .claiming c next) (hp : p next = true) :
    Holds s.store c.candidate.id c.leaseId := by
  simp only [Fenced, hpc] at h
  exact h hp

theorem Fenced.mono {p q : ClaimStep → Bool} (h : Fenced p s l)
    (hpq : ∀ next, q next = true → p next = true) : Fenced q s l := by
  cases l with
  | step w =>
      simp only [Fenced] at h ⊢
      split
      · next c next hpc =>
          rw [hpc] at h
          exact fun hq => h (hpq next hq)
      · trivial
  | _ => trivial

/-- No claim is older than its lease: the clock goes past the end of a lease only when no live
worker is still in the claim that took it. -/
def Timely (cfg : Config) (s : Sys) : Label → Prop
  | .tick ms => ∀ w c next, s.pcs w = .claiming c next →
      s.now + ms ≤ c.claimedAt + cfg.leaseDurationMs
  | _ => True

noncomputable instance (cfg : Config) : DecidableRel (Timely cfg) := fun _ _ =>
  Classical.propDecidable _

/-- `Timely`, for steps of the workers `ws` only; this can be evaluated. -/
def TimelyAmong (cfg : Config) (ws : List WorkerId) (s : Sys) (l : Label) : Prop :=
  (l.worker.all fun w => ws.contains w) = true ∧
    match l with
    | .tick ms => ∀ w ∈ ws, match s.pcs w with
      | .claiming c _ => s.now + ms ≤ c.claimedAt + cfg.leaseDurationMs
      | _ => True
    | _ => True

instance (cfg : Config) (ws : List WorkerId) : DecidableRel (TimelyAmong cfg ws) := fun s l => by
  unfold TimelyAmong
  refine @instDecidableAnd _ _ inferInstance ?_
  split
  · refine @List.decidableBAll _ _ (fun w => ?_) ws
    split <;> exact inferInstance
  · exact inferInstance

/-- Where only these workers move, the others stay where they are. -/
theorem pcs_of_timelyAmong {p : Sys → Label → Prop} [DecidableRel p] {ws : List WorkerId}
    (hp : ∀ s l, p s l → TimelyAmong cfg ws s l) (h : Reachable (restrict p (step cfg)) s s')
    {w : WorkerId} (hw : w ∉ ws) : s'.pcs w = s.pcs w :=
  h.inv (I := fun s' => s'.pcs w = s.pcs w) rfl fun s₁ l s₂ _ hi hs => by
    obtain ⟨hl, hs⟩ := restrict_eq_some.mp hs
    obtain ⟨hl, -⟩ := hp _ _ hl
    cases step_move hs with
    | tick _ _ _ _ pcs | api _ _ pcs => rw [pcs]; exact hi
    | worker w' _ pcs h =>
        rw [h.worker_eq] at hl
        rw [pcs w fun hww => hw (hww ▸ by simpa using hl)]
        exact hi

/-- A run of these workers, nobody else being in a claim, meets what follows from its own condition
and its being timely. -/
theorem timely_of_timelyAmong {p q : Sys → Label → Prop} [DecidableRel p] [DecidableRel q]
    {ws : List WorkerId} (hidle : ∀ w, w ∉ ws → s.pcs w = .idle)
    (hp : ∀ s l, p s l → TimelyAmong cfg ws s l) (hq : ∀ s l, Timely cfg s l → p s l → q s l)
    (h : Reachable (restrict p (step cfg)) s s') : Reachable (restrict q (step cfg)) s s' := by
  refine h.weaken fun s₁ l s₂ hr hl _ => hq s₁ l ?_ hl
  cases l with
  | tick ms =>
      intro w c next hpc
      by_cases hw : w ∈ ws
      · have := (hp _ _ hl).2 w hw
        rw [hpc] at this
        exact this
      · rw [pcs_of_timelyAmong hp hr hw, hidle w hw] at hpc
        cases hpc
  | _ => trivial

/-- After a worker's step a claim is the one it was in, or one that begins now. -/
theorem WorkerMove.claim_eq {now : Time} {st st' : Store} {w : WorkerId} {pc : Pc} {c : Claim}
    {next : ClaimStep} (h : WorkerMove cfg now st w pc l st' (.claiming c next)) :
    (∃ next', pc = .claiming c next') ∨ c.claimedAt = now := by
  cases h with
  | outside _ _ _ hpc' => cases hpc'
  | claim => exact .inr rfl
  | touchBusy | touchFree | close | requeue | fetch | checkNone | checkLater | checkDue | insert | mark =>
      exact .inl ⟨_, rfl⟩

variable {p : Sys → Label → Prop} [DecidableRel p] {tenants : List Tenant}

/-- In timely runs no claim outlives its lease. -/
theorem young_of_timely (hp : ∀ s l, p s l → Timely cfg s l)
    (h : Reachable (restrict p (step cfg)) (.init tenants) s) :
    ∀ w c next, s.pcs w = .claiming c next → s.now ≤ c.claimedAt + cfg.leaseDurationMs := by
  refine h.inv (I := fun s => ∀ w c next, s.pcs w = .claiming c next →
    s.now ≤ c.claimedAt + cfg.leaseDurationMs) nofun fun s₁ a s₂ _ hi hs => ?_
  obtain ⟨ha, hs⟩ := restrict_eq_some.mp hs
  cases step_move hs with
  | tick ms hl now store pcs =>
      subst hl
      rw [now, pcs]
      exact hp _ _ ha
  | api _ now pcs h =>
      rw [now, pcs]
      exact hi
  | worker w now pcs h =>
      intro w' c next hpc
      rw [now]
      by_cases hw : w' = w
      · rw [hw] at hpc
        rw [hpc] at h
        obtain ⟨next', hpc₁⟩ | hc := h.claim_eq
        · exact hi w c next' hpc₁
        · rw [hc]
          exact Nat.le_add_right _ _
      · exact hi w' c next (by rw [← pcs w' hw]; exact hpc)

/-- In timely runs every claim holds its lease. -/
theorem holds_of_timely (hp : ∀ s l, p s l → Timely cfg s l)
    (h : Reachable (restrict p (step cfg)) (.init tenants) s) {w : WorkerId} {c : Claim}
    {next : ClaimStep} (hpc : s.pcs w = .claiming c next) :
    Holds s.store c.candidate.id c.leaseId := by
  have hf := (leaseInv_of_reachable h.of_restrict).worker w
  rw [hpc] at hf
  exact hf.young (young_of_timely hp h w c next hpc)

/-- In timely runs every statement of a claim is fenced. -/
theorem fenced_of_timely (hp : ∀ s l, p s l → Timely cfg s l)
    (h : Reachable (restrict p (step cfg)) (.init tenants) s) (q : ClaimStep → Bool) (l : Label) :
    Fenced q s l := by
  cases l with
  | step w =>
      show match s.pcs w with
        | .claiming c next => q next = true → Holds s.store c.candidate.id c.leaseId
        | _ => True
      split
      · next hpc => exact fun _ => holds_of_timely hp h hpc
      · trivial
  | _ => trivial

end

end Webhooks
