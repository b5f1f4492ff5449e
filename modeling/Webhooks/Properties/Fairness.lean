import Webhooks.Protocol.Candidates

/-!
# Properties — Fairness

A poll serves the tenant that was served longest ago, as long as no poll touches a tenant whose
delivery it does not return.  The order is kept in `last_served_at`, which the claim writes before
it knows whether it will deliver anything.

* `Turn`, `turnStep`: polls run one at a time, and everything else happens between them.
* `TouchesServed`: the polls that try only endpoints of the tenant they serve.
* **`least_recently_served`**: in every run of such turns.
* `served_out_of_turn`: a tenant in backoff is touched by a poll that serves nobody, and then passed
  over.
-/

namespace Webhooks

open Lib Lib.Ranking

/-! ### Polls one at a time -/

/-- The system, with the instant at which each tenant was last served. -/
structure Ledger where
  sys : Sys
  served : Uuid → Option Time

def Ledger.init (tenants : List Tenant) : Ledger := ⟨.init tenants, fun _ => none⟩

/-- A tenant is served when `claimDelivery` returns one of its deliveries. -/
def servedAfter (now : Time) (served : Uuid → Option Time) : ClaimResult → Uuid → Option Time
  | .claimed claimed => fun t => if t = claimed.tenantId then some now else served t
  | _ => served

inductive Turn where
  /-- Worker `w` runs `claimDelivery` alone. -/
  | poll (w : WorkerId) (scan : List Endpoint)
  | other (l : Label)

def turnStep (cfg : Config) (s : Ledger) : Turn → Option Ledger
  | .poll w scan =>
      if s.sys.pcs w = .idle ∧ scan.isPerm s.sys.store.endpoints = true then
        let (st, r) := claimDelivery cfg s.sys.now s.sys.store scan
        some ⟨(s.sys.withStore st).setPc w (.afterCall r), servedAfter s.sys.now s.served r⟩
      else none
  | .other (.start _ .claim) => none
  | .other l => (step cfg s.sys l).map fun s' => ⟨s', s.served⟩

/-- Never served is earliest. -/
def ServedEarlier (a b : Option Time) : Prop := a.elim 0 (· + 1) < b.elim 0 (· + 1)

instance : DecidableRel ServedEarlier := fun a b => by unfold ServedEarlier; exact inferInstance

/-! ### The condition -/

instance (cfg : Config) (e : Endpoint) : Decidable (e.Decrypts cfg) := by
  unfold Endpoint.Decrypts
  cases e.secondarySecret with
  | none => exact decidable_of_iff ((cfg.decryptSecret e.signingSecret).isSome = true) (by simp)
  | some secret =>
      exact decidable_of_iff ((cfg.decryptSecret e.signingSecret).isSome = true ∧
        (cfg.decryptSecret secret).isSome = true) (by simp)

/-- A candidate with work whose secrets decrypt, with none with work ranked before it, and the list
reaches it. -/
def Endpoint.IsNext (cfg : Config) (st : Store) (now cutoff : Time) (e : Endpoint) : Prop :=
  ((candidateOf st now cutoff e).isSome = true ∧ e.HasWork st now cutoff ∧ e.Decrypts cfg) ∧
    (rankedBefore st now cutoff e).length < 20 ∧
    ∀ e' ∈ rankedBefore st now cutoff e, ¬ e'.HasWork st now cutoff

instance (cfg : Config) (st : Store) (now cutoff : Time) (e : Endpoint) :
    Decidable (e.IsNext cfg st now cutoff) := by
  unfold Endpoint.IsNext; exact inferInstance

/-- Every candidate with no work ranked before it is of the tenant that is next. -/
def TouchesNext (cfg : Config) (st : Store) (now cutoff : Time) : Prop :=
  ∀ e ∈ st.endpoints, (candidateOf st now cutoff e).isSome = true →
    (∀ e' ∈ rankedBefore st now cutoff e, ¬ e'.HasWork st now cutoff) →
    ∃ e₁ ∈ st.endpoints, e₁.IsNext cfg st now cutoff ∧ e₁.tenantId = e.tenantId

instance (cfg : Config) (st : Store) (now cutoff : Time) :
    Decidable (TouchesNext cfg st now cutoff) := by
  unfold TouchesNext; exact inferInstance

/-- A poll touches no tenant whose delivery it does not return. -/
def TouchesServed (cfg : Config) (s : Ledger) : Turn → Prop
  | .poll .. => TouchesNext cfg s.sys.store s.sys.now (s.sys.now - cfg.leaseDurationMs)
  | .other _ => True

instance (cfg : Config) : DecidableRel (TouchesServed cfg) := fun s t => by
  unfold TouchesServed
  cases t <;> exact inferInstance

section

variable {cfg : Config} {now cutoff : Time} {st st' : Store} {e e' : Endpoint} {w : WorkerId}
  {pc pc' : Pc} {l : Label} {scan : List Endpoint} {r : ClaimResult} {claimed : ClaimedDelivery}

/-! ### One poll -/

/-- An idle candidate with only idle ones tried before it has no work ranked before it. -/
theorem no_work_before (hc : st.Coherent) (hscan : scan.Perm st.endpoints)
    {pre rest : List CandidateRow} (he : e ∈ st.endpoints)
    (hcs : claimCandidates st now cutoff scan = pre ++ ⟨e.id, e.tenantId, e.busy⟩ :: rest)
    (hpre : ∀ c ∈ pre, c.IsIdle st now cutoff) :
    ∀ e' ∈ rankedBefore st now cutoff e, ¬ e'.HasWork st now cutoff := by
  intro e' he'
  obtain ⟨hmem, b, a, hb, ha, hba⟩ := mem_rankedBefore.mp he'
  rw [← (candidateOf_eq_some ha).1] at hcs
  have hrow := claimCandidates_mem_pre hc hscan he hmem ha hb hba hcs
  rw [(candidateOf_eq_some hb).1] at hrow
  exact hpre _ hrow e' hmem rfl

/-- The tenant of a candidate before which only idle ones are tried is the tenant that is next. -/
theorem TouchesNext.next_of_tried (hnext : TouchesNext cfg st now cutoff) (hc : st.Coherent)
    (hscan : scan.Perm st.endpoints) {pre rest : List CandidateRow} {c : CandidateRow}
    (hcs : claimCandidates st now cutoff scan = pre ++ c :: rest)
    (hpre : ∀ c ∈ pre, c.IsIdle st now cutoff) :
    ∃ e ∈ st.endpoints, e.IsNext cfg st now cutoff ∧ e.tenantId = c.tenantId := by
  have hmem : c ∈ claimCandidates st now cutoff scan := by
    rw [hcs]
    exact List.mem_append_right _ List.mem_cons_self
  obtain ⟨e, he, hsome, rfl⟩ := claimCandidates_candidate hscan hmem
  exact hnext e he hsome (no_work_before hc hscan he hcs hpre)

/-- The endpoint that is next is listed. -/
theorem Endpoint.IsNext.listed (h : e.IsNext cfg st now cutoff) (hc : st.Coherent)
    (hscan : scan.Perm st.endpoints) (he : e ∈ st.endpoints) :
    ⟨e.id, e.tenantId, e.busy⟩ ∈ claimCandidates st now cutoff scan := by
  obtain ⟨a, ha⟩ := Option.isSome_iff_exists.mp h.1.1
  rw [← (candidateOf_eq_some ha).1]
  exact (mem_claimCandidates hc hscan he ha).mpr h.2.1

/-- Of two candidates one is ranked before the other. -/
theorem ranked_or_ranked (hc : st.Coherent) (he : e ∈ st.endpoints) (he' : e' ∈ st.endpoints)
    (hsome : (candidateOf st now cutoff e).isSome = true)
    (hsome' : (candidateOf st now cutoff e').isSome = true) :
    e = e' ∨ e ∈ rankedBefore st now cutoff e' ∨ e' ∈ rankedBefore st now cutoff e := by
  obtain ⟨a, ha⟩ := Option.isSome_iff_exists.mp hsome
  obtain ⟨b, hb⟩ := Option.isSome_iff_exists.mp hsome'
  by_cases hid : e.id = e'.id
  · exact .inl (Table.eq_of_key hc.endpointIds he he' hid)
  · right
    rcases not_and_or.mp (not_tied hc hid ha hb) with hab | hba
    · exact .inr (mem_rankedBefore.mpr ⟨he', b, a, hb, ha, hab⟩)
    · exact .inl (mem_rankedBefore.mpr ⟨he, a, b, ha, hb, hba⟩)

theorem touchTenants_eq {cs : List CandidateRow} {t : Uuid} (hne : cs ≠ [])
    (h : ∀ c ∈ cs, c.tenantId = t) : touchTenants now cs st.tenants = (touchTenant st now t).tenants := by
  refine congrArg (fun p => Table.update p _ st.tenants) (funext fun tenant => ?_)
  rw [Bool.eq_iff_iff, List.any_eq_true, decide_eq_true_eq]
  constructor
  · rintro ⟨c, hmem, hc⟩
    rw [← h c hmem]
    exact (of_decide_eq_true hc).symm
  · rintro rfl
    obtain ⟨c, hmem⟩ := List.exists_mem_of_ne_nil cs hne
    exact ⟨c, hmem, decide_eq_true (h c hmem)⟩

/-- A poll that meets the condition returns the delivery of the next tenant and touches that tenant
only, or finds no candidate at all. -/
theorem claimDelivery_next (hc : st.Coherent) (hscan : scan.Perm st.endpoints)
    (hnext : TouchesNext cfg st now (now - cfg.leaseDurationMs)) :
    ∃ st', (claimDelivery cfg now st scan = (st', .none) ∧ st'.tenants = st.tenants) ∨
      ∃ e ∈ st.endpoints, ∃ claimed, e.IsNext cfg st now (now - cfg.leaseDurationMs) ∧
        claimDelivery cfg now st scan = (st', .claimed claimed) ∧ claimed.tenantId = e.tenantId ∧
        st'.tenants = (touchTenant st now e.tenantId).tenants := by
  obtain ⟨st', r, tried, hcall, htenants, hcases⟩ := @tryCandidates_cases cfg now
    (now - cfg.leaseDurationMs) _ st hc (claimCandidates_nodup hc hscan) (claimCandidates_isOf hscan)
  refine ⟨st', ?_⟩
  rcases hcases with ⟨rfl, rfl, hidle⟩ | ⟨pre, c, rest, hcs, rfl, hpre, e, he, rfl, hw, hret⟩
  · refine .inl ⟨hcall, ?_⟩
    rcases hcs : claimCandidates st now (now - cfg.leaseDurationMs) scan with _ | ⟨c, cs⟩
    · rw [htenants, hcs]
      exact Table.update_eq_self fun _ _ => rfl
    · -- somebody would be touched and nobody served
      rw [← List.nil_append (c :: cs)] at hcs
      obtain ⟨e, he, hn, -⟩ := hnext.next_of_tried hc hscan hcs nofun
      exact absurd hn.1.2.1 (hidle _ (hn.listed hc hscan he) e he rfl)
  · have hmem : ⟨e.id, e.tenantId, e.busy⟩ ∈
        claimCandidates st now (now - cfg.leaseDurationMs) scan := by
      rw [hcs]
      exact List.mem_append_right _ List.mem_cons_self
    obtain ⟨e', he', hsome, hrow⟩ := claimCandidates_candidate hscan hmem
    obtain rfl : e = e' := Table.eq_of_key hc.endpointIds he he' (congrArg CandidateRow.id hrow)
    obtain ⟨e₁, he₁, hn, -⟩ := hnext.next_of_tried hc hscan hcs hpre
    -- the endpoint that is next cannot be ranked before this one, nor this one before it
    obtain rfl : e = e₁ := by
      rcases ranked_or_ranked hc he he₁ hsome hn.1.1 with heq | hlt | hlt
      · exact heq
      · exact absurd hw (hn.2.2 e hlt)
      · exact absurd hn.1.2.1 (no_work_before hc hscan he hcs hpre e₁ hlt)
    rcases hret with ⟨-, hnot⟩ | ⟨claimed, rfl, -, htid⟩
    · exact absurd hn.1.2.2 hnot
    refine .inr ⟨e, he, claimed, hn, hcall, htid, htenants.trans (touchTenants_eq ?_ fun c hmem => ?_)⟩
    · exact List.append_ne_nil_of_right_ne_nil _ (List.cons_ne_nil _ _)
    · rcases List.mem_append.mp hmem with hmem | hmem
      · obtain ⟨pre₁, pre₂, rfl⟩ := List.append_of_mem hmem
        rw [List.append_assoc, List.cons_append] at hcs
        obtain ⟨e₂, he₂, hn₂, htid₂⟩ := hnext.next_of_tried hc hscan hcs fun c hmem =>
          hpre c (List.mem_append_left _ hmem)
        obtain rfl : e = e₂ := by
          rcases ranked_or_ranked hc he he₂ hsome hn₂.1.1 with heq | hlt | hlt
          · exact heq
          · exact absurd hw (hn₂.2.2 e hlt)
          · exact absurd hn₂.1.2.1 (hn.2.2 e₂ hlt)
        exact htid₂.symm
      · rw [List.mem_singleton.mp hmem]

/-! ### Between the polls -/

/-- Outside a claim a worker touches no tenant, and it does not get into one unless it starts it. -/
theorem WorkerMove.outside_claims (h : WorkerMove cfg now st w pc l st' pc') (hpc : pc.cutoff = none)
    (hl : l ≠ .start w .claim) : pc'.cutoff = none ∧ st'.tenants = st.tenants := by
  cases h with
  | outside _ _ _ hpc' => exact ⟨Pc.cutoff_of_isOutside hpc', rfl⟩
  | start => exact absurd rfl hl
  | @complete _ claimed result random fault =>
      rcases completeDelivery_cases cfg now st claimed result random fault with hc | ⟨-, hc⟩ | ⟨-, -, hc⟩
      all_goals
        rw [hc]
        exact ⟨rfl, rfl⟩
  | @commit src => cases src <;> exact ⟨rfl, rfl⟩
  | send | insertRows | setExpanded | die => exact ⟨rfl, rfl⟩
  | _ => cases hpc

theorem ApiMove.tenants (h : ApiMove now st st') : st'.tenants = st.tenants := by
  cases h with
  | other tenants => exact tenants
  | _ => rfl

theorem step_outside_claims {s s' : Sys} (hpcs : ∀ w, (s.pcs w).cutoff = none)
    (hl : ∀ w, l ≠ .start w .claim) (h : step cfg s l = some s') :
    (∀ w, (s'.pcs w).cutoff = none) ∧ s'.store.tenants = s.store.tenants := by
  cases step_move h with
  | tick _ _ _ store pcs =>
      rw [pcs, store]
      exact ⟨hpcs, rfl⟩
  | api _ _ pcs h =>
      rw [pcs]
      exact ⟨hpcs, h.tenants⟩
  | worker w _ pcs h =>
      obtain ⟨hpc, htenants⟩ := h.outside_claims (hpcs w) (hl w)
      refine ⟨fun w' => ?_, htenants⟩
      by_cases hw : w' = w
      · rw [hw]
        exact hpc
      · rw [pcs w' hw]
        exact hpcs w'

/-! ### Every run -/

structure LedgerInv (cfg : Config) (tenants : List Tenant) (s : Ledger) : Prop where
  /-- The system's own steps lead there, and no claim outlives its lease. -/
  timely : Reachable (restrict (Timely cfg) (step cfg)) (.init tenants) s.sys
  outside : ∀ w, (s.sys.pcs w).cutoff = none
  served : ∀ t ∈ s.sys.store.tenants, t.lastServedAt = s.served t.id

variable {tenants : List Tenant} {s s' : Ledger} {t : Turn}

theorem LedgerInv.coherent (hi : LedgerInv cfg tenants s) : s.sys.store.Coherent := by
  have hk := (keyInv_of_reachable hi.timely.of_restrict).tables
  have hx := exclInv_of_reachable
    (fun _ hr l _ => fenced_of_timely (fun _ _ hp => hp) hr ClaimStep.isMark l) hi.timely
  exact ⟨(leaseInv_of_reachable hi.timely.of_restrict).ids, hk.deliveryIds, hk.deliverySeqs, hk.linked,
    hx.one, hx.free⟩

/-- A turn that is not a poll is a step, of no claim. -/
theorem turnStep_other (h : turnStep cfg s (.other l) = some s') :
    (∀ w, l ≠ .start w .claim) ∧ step cfg s.sys l = some s'.sys ∧ s'.served = s.served := by
  have hstep : (step cfg s.sys l).map (fun s₁ => (⟨s₁, s.served⟩ : Ledger)) = some s' →
      step cfg s.sys l = some s'.sys ∧ s'.served = s.served := by
    intro h
    obtain ⟨s₁, hs, rfl⟩ := Option.map_eq_some_iff.mp h
    exact ⟨hs, rfl⟩
  cases l with
  | start w job =>
      cases job with
      | claim => cases h
      | expansion | replay => exact ⟨nofun, hstep h⟩
  | _ => exact ⟨nofun, hstep h⟩

theorem turnStep_poll (h : turnStep cfg s (.poll w scan) = some s') :
    s.sys.pcs w = .idle ∧ scan.isPerm s.sys.store.endpoints = true ∧
      ∃ st r, claimDelivery cfg s.sys.now s.sys.store scan = (st, r) ∧
        s' = ⟨(s.sys.withStore st).setPc w (.afterCall r), servedAfter s.sys.now s.served r⟩ := by
  simp only [turnStep] at h
  split at h
  · next hc =>
      cases h
      exact ⟨hc.1, hc.2, _, _, rfl, rfl⟩
  · cases h

theorem LedgerInv.step (hi : LedgerInv cfg tenants s) (ht : TouchesServed cfg s t)
    (h : turnStep cfg s t = some s') : LedgerInv cfg tenants s' := by
  cases t with
  | other l =>
      obtain ⟨hl, hs, hserved⟩ := turnStep_other h
      obtain ⟨hpcs, htenants⟩ := step_outside_claims hi.outside hl hs
      refine ⟨hi.timely.tail (restrict_eq_some.mpr ⟨?_, hs⟩), hpcs, ?_⟩
      · -- nobody is in a claim while the clock moves
        cases l with
        | tick ms =>
            intro w c next hpc
            have := hi.outside w
            rw [hpc] at this
            cases this
        | _ => trivial
      · rw [htenants, hserved]
        exact hi.served
  | poll w scan =>
      obtain ⟨hidle, hscan, st, r, hcall, rfl⟩ := turnStep_poll h
      refine ⟨hi.timely.trans (claimDelivery_steps hidle hscan hcall), fun w' => ?_, fun t hmem => ?_⟩
      · by_cases hw : w' = w
        · rw [hw, Sys.setPc_pcs_self]
          cases r <;> rfl
        · rw [Sys.setPc_pcs_of_ne hw]
          exact hi.outside w'
      · obtain ⟨st', ⟨hcall', htenants⟩ | ⟨e, -, claimed, -, hcall', htid, htenants⟩⟩ :=
          claimDelivery_next hi.coherent (List.isPerm_iff.mp hscan) ht
        all_goals
          rw [hcall] at hcall'
          cases hcall'
        · exact hi.served t (htenants ▸ hmem)
        · have hmem' : t ∈ (touchTenant s.sys.store s.sys.now e.tenantId).tenants := htenants ▸ hmem
          simp only [servedAfter, htid]
          rcases Table.mem_update_cases hmem' with ⟨hold, hne⟩ | ⟨t₀, -, heq, rfl⟩
          · rw [if_neg (of_decide_eq_false hne)]
            exact hi.served t hold
          · exact (if_pos (of_decide_eq_true heq)).symm

/-- In every run of polls one at a time, each of which touches only the tenant it serves, with
write-backs, expansions, requests, deaths and clock advances in between: when a poll returns a
delivery of a tenant, no other tenant with an endpoint that could be claimed was served earlier. -/
theorem least_recently_served (ht : ∀ t ∈ tenants, t.lastServedAt = none)
    (h : Reachable (restrict (TouchesServed cfg) (turnStep cfg)) (.init tenants) s)
    (hs : restrict (TouchesServed cfg) (turnStep cfg) s (.poll w scan) = some s')
    (hw : s'.sys.pcs w = .holding claimed) (he : e ∈ s.sys.store.endpoints)
    (hten : ∃ t ∈ s.sys.store.tenants, t.id = e.tenantId)
    (hwork : e.HasWork s.sys.store s.sys.now (s.sys.now - cfg.leaseDurationMs)) :
    ¬ ServedEarlier (s.served e.tenantId) (s.served claimed.tenantId) := by
  have hi : LedgerInv cfg tenants s := by
    refine h.inv ⟨.refl _, fun _ => rfl, ht⟩ fun s₁ t s₂ _ hi hs => ?_
    obtain ⟨hcond, hs⟩ := restrict_eq_some.mp hs
    exact hi.step hcond hs
  obtain ⟨hcond, hs⟩ := restrict_eq_some.mp hs
  obtain ⟨-, hscan, st, r, hcall, rfl⟩ := turnStep_poll hs
  obtain ⟨st', ⟨hcall', -⟩ | ⟨e₁, he₁, claimed', hn, hcall', htid, -⟩⟩ :=
    claimDelivery_next hi.coherent (List.isPerm_iff.mp hscan) hcond
  all_goals
    rw [hcall] at hcall'
    cases hcall'
    rw [Sys.setPc_pcs_self] at hw
    cases hw
  -- both endpoints are candidates, ordered by the instants their tenants were served
  intro hearlier
  obtain ⟨b, hb⟩ := candidateOf_isSome hwork hten
  obtain ⟨a, ha⟩ := Option.isSome_iff_exists.mp hn.1.1
  obtain ⟨-, -, ⟨ta, hta, htaid, hla⟩, -⟩ := candidateOf_eq_some ha
  obtain ⟨-, -, ⟨tb, htb, htbid, hlb⟩, -⟩ := candidateOf_eq_some hb
  rw [hi.served ta hta, htaid] at hla
  rw [hi.served tb htb, htbid] at hlb
  rw [htid, ← hla, ← hlb] at hearlier
  refine hn.2.2 e (mem_rankedBefore.mpr ⟨he, b, a, hb, ha, ?_⟩) hwork
  rintro (hlt | ⟨heq, -⟩)
  · exact lt_asymm hlt hearlier
  · exact heq.not_gt hearlier

end

/-! ### Two tenants -/

open Sample

/-- Backoffs of up to 100 ms after a first failure. -/
def patient : Config := { config with backoff := ⟨100, 2, 1000, 3⟩ }

/-- Tenants 100 and 101, with one endpoint each. -/
def pair : Ledger := .init [⟨100, none⟩, ⟨101, none⟩]

def pairScan : List Endpoint := [endpoint none, { endpoint none with id := 1, tenantId := 101 }]

/-- Tenant 101 publishes. -/
def publishOther (c : CallId) (key : String) : List Label :=
  [.request c ⟨101, key, "a", "\x7b\x7d"⟩, .publish c, .publish c]

/-- Two deliveries of tenant 100 and one of tenant 101, all due, and the first poll: it returns the
first delivery of tenant 100. -/
def firstPoll : List Turn :=
  (([register, .register 101 "u" ["a"] "s"] ++ publish 0 "k" ++ publish 1 "l" ++ publishOther 2 "k" ++
    expand ++ expand ++ expand).map .other) ++ [.poll 1 pairScan]

/-- What a poll returns of the endpoint of tenant 101. -/
def claimedOther (leaseId deliveryId eventId attemptId : Uuid) : ClaimedDelivery :=
  { claimed with
    endpointId := 1, tenantId := 101, leaseId := leaseId, deliveryId := deliveryId
    eventId := eventId, attemptId := attemptId }

/-- Tenant 100 has an endpoint that could be claimed. -/
def waits (s : Ledger) : Bool :=
  s.sys.store.endpoints.contains (endpoint none) && (s.sys.store.tenants.any fun t => t.id = 100) &&
    decide ((endpoint none).HasWork s.sys.store s.sys.now (s.sys.now - patient.leaseDurationMs))

theorem waits_spec {s : Ledger} (h : waits s = true) : endpoint none ∈ s.sys.store.endpoints ∧
    (∃ t ∈ s.sys.store.tenants, t.id = (endpoint none).tenantId) ∧
    (endpoint none).HasWork s.sys.store s.sys.now (s.sys.now - patient.leaseDurationMs) := by
  simp only [waits, Bool.and_eq_true, List.contains_iff_mem, List.any_eq_true, decide_eq_true_eq] at h
  exact ⟨h.1.1, h.1.2, h.2⟩

/-- The second poll prefers the tenant that was never served. -/
theorem least_recently_served_sample : ∃ s s',
    Reachable (restrict (TouchesServed patient) (turnStep patient)) pair s ∧
    restrict (TouchesServed patient) (turnStep patient) s (.poll 1 pairScan) = some s' ∧
    s'.sys.pcs 1 = .holding (claimedOther 10 7 4 11) ∧
    ¬ ServedEarlier (s.served 100) (s.served 101) := by
  obtain ⟨s, s', hs, hs', hp⟩ := exists_of_runs
    (restrict (TouchesServed patient) (turnStep patient)) pair
    (firstPoll ++ (deliver 1 200 ++ [Label.tick 1]).map .other) [.poll 1 pairScan]
    (fun s s' => s'.sys.pcs 1 = .holding (claimedOther 10 7 4 11) && waits s) (by decide +kernel)
  simp only [Bool.and_eq_true, decide_eq_true_eq] at hp
  obtain ⟨hpc, hw⟩ := hp
  obtain ⟨he, hten, hwork⟩ := waits_spec hw
  rw [run_singleton] at hs'
  exact ⟨s, s', .of_run hs, hs', hpc, least_recently_served (by decide) (.of_run hs) hs' hpc he hten
    hwork⟩

/-- Tenant 100's first delivery fails and backs off until instant 51; tenant 101 is served at 1; at 2
a poll tries tenant 100's endpoint and finds its head in backoff.  At 51 both tenants wait, and the
poll passes tenant 100 over although it was served at 0. -/
theorem served_out_of_turn : ∃ s s', Reachable (turnStep patient) pair s ∧
    turnStep patient s (.poll 1 pairScan) = some s' ∧
    s'.sys.pcs 1 = .holding (claimedOther 15 14 13 16) ∧
    (endpoint none ∈ s.sys.store.endpoints ∧
      (∃ t ∈ s.sys.store.tenants, t.id = (endpoint none).tenantId) ∧
      (endpoint none).HasWork s.sys.store s.sys.now (s.sys.now - patient.leaseDurationMs)) ∧
    ServedEarlier (s.served (endpoint none).tenantId) (s.served 101) := by
  obtain ⟨s, s', hs, hs', hp⟩ := exists_of_runs (turnStep patient) pair
    (firstPoll ++ [.other (.send 1), .other (.complete 1 (response 500) ⟨1, 2, Nat.one_lt_two⟩ none),
      .other (.tick 1), .poll 1 pairScan] ++ (deliver 1 200 ++ [Label.tick 1]).map .other ++
      [.poll 1 pairScan] ++ (publishOther 3 "m" ++ expand ++ [Label.tick 49]).map .other)
    [.poll 1 pairScan]
    (fun s s' => s'.sys.pcs 1 = .holding (claimedOther 15 14 13 16) && waits s &&
      decide (ServedEarlier (s.served (endpoint none).tenantId) (s.served 101))) (by decide +kernel)
  simp only [Bool.and_eq_true, decide_eq_true_eq] at hp
  obtain ⟨⟨hpc, hw⟩, hearlier⟩ := hp
  rw [run_singleton] at hs'
  exact ⟨s, s', .of_run hs, hs', hpc, waits_spec hw, hearlier⟩

end Webhooks
