import Webhooks.Protocol.History

/-!
# Properties — Ceiling

No attempt is numbered above `maxAttempts`, and a delivery that has used its attempts up is left
alone.  Only the write-back looks at the ceiling, so this needs that no reclaim meets it first.

* `WithinCeiling`: the steps that reclaim only deliveries below the ceiling.
* `CeilingInv`, `DeliveryMove.ceiling`: a pending delivery is below the ceiling.
* **`ceiling_kept`**: in every run of such steps.
* `beyond_ceiling`: a worker dies over the last attempt, and the next claim makes another one.
-/

namespace Webhooks

open Lib

/-- The deliveries a claim is about to requeue are below the ceiling. -/
def RequeuesBelow (cfg : Config) (s : Sys) : Label → Prop
  | .step w => match s.pcs w with
    | .claiming c .requeue => ∀ d ∈ s.store.deliveries,
        d.isInFlightOn c.candidate.id = true → d.attemptCount < cfg.backoff.maxAttempts
    | _ => True
  | _ => True

instance (cfg : Config) : DecidableRel (RequeuesBelow cfg) := fun s l =>
  decidable_of_bool (match l with
    | .step w => match s.pcs w with
      | .claiming c .requeue => s.store.deliveries.all fun d =>
          !d.isInFlightOn c.candidate.id || d.attemptCount < cfg.backoff.maxAttempts
      | _ => true
    | _ => true) (by
      unfold RequeuesBelow
      cases l with
      | step w =>
          dsimp only
          split <;> simp [← Bool.not_eq_true, imp_iff_not_or]
      | _ => exact iff_of_true rfl trivial)

/-- A request is issued only while its claim's lease is held. -/
def SendsHeld (s : Sys) : Label → Prop
  | .send w => match s.pcs w with
    | .holding claimed => Holds s.store claimed.endpointId claimed.leaseId
    | _ => True
  | _ => True

instance : DecidableRel SendsHeld := fun s l =>
  decidable_of_bool (match l with
    | .send w => match s.pcs w with
      | .holding claimed => Holds s.store claimed.endpointId claimed.leaseId
      | _ => true
    | _ => true) (by
      unfold SendsHeld
      cases l with
      | send w =>
          dsimp only
          split <;> simp
      | _ => exact iff_of_true rfl trivial)

/-- No claim outlives its lease, no worker dies between the `INSERT` of an attempt and its
`in_flight` update, no reclaim requeues a delivery at the ceiling, and no request is issued after
its lease is lost. -/
def WithinCeiling (cfg : Config) (s : Sys) (l : Label) : Prop :=
  Timely cfg s l ∧ DiesOutsideGap s l ∧ RequeuesBelow cfg s l ∧ SendsHeld s l

noncomputable instance (cfg : Config) : DecidableRel (WithinCeiling cfg) := fun _ _ =>
  Classical.propDecidable _

/-- An attempt that has failed, timed out, or was given up by a reclaim. -/
def Attempt.isSpent (a : Attempt) : Bool := !a.isOpen && !a.is2xx

/-- As many attempts as the ceiling allows are spent. -/
def UsedUp (cfg : Config) (as : List Attempt) : Prop :=
  cfg.backoff.maxAttempts ≤ as.countP Attempt.isSpent

/-- No delivery is above the ceiling, and a pending one is below it. -/
structure Delivery.BelowCeiling (cfg : Config) (d : Delivery) : Prop where
  count : d.attemptCount ≤ cfg.backoff.maxAttempts
  pending : d.state = .pending → d.attemptCount < cfg.backoff.maxAttempts

def CeilingInv (cfg : Config) (s : Sys) : Prop := ∀ d ∈ s.store.deliveries, d.BelowCeiling cfg

section

variable {cfg : Config} {s s' : Sys} {l : Label} {d d' : Delivery} {as as₀ : List Attempt}
  {a : Attempt} {w : WorkerId} {tenants : List Tenant}

/-! ### Below the ceiling -/

/-- A step keeps a delivery below the ceiling. -/
theorem DeliveryMove.ceiling (h : DeliveryMove cfg s l d d' as) (hheld : ClaimsHold s)
    (hkn : KnowsInv s) (hd : d ∈ s.store.deliveries) (hq : RequeuesBelow cfg s l)
    (hi : d.BelowCeiling cfg) : d'.BelowCeiling cfg := by
  cases h with
  | keep | expire | insert => exact hi
  | requeue hl hpc endpoint state =>
      subst hl
      simp only [RequeuesBelow, hpc] at hq
      exact ⟨hi.count, fun _ => hq d hd (by simp [Delivery.isInFlightOn, endpoint, state])⟩
  | mark hl hpc endpoint id =>
      -- the claim found it pending, with the count it goes on from
      obtain ⟨hs, rfl, -⟩ := hkn.claim hheld hd hpc endpoint id
      exact ⟨hi.pending hs, by simp⟩
  | @resolve w claimed result random fault retryAt hl hpc endpoint id held =>
      obtain ⟨-, hcount, -⟩ := hkn.holder hd hpc endpoint id held
      simp only [resolution]
      by_cases hsucc : result.isSuccess = true
      · rw [if_pos hsucc]
        exact ⟨hi.count, fun h => by cases h⟩
      by_cases hmax : cfg.backoff.maxAttempts ≤ claimed.attemptNumber
      · rw [if_neg hsucc, if_pos hmax]
        exact ⟨hi.count, fun h => by cases h⟩
      · rw [if_neg hsucc, if_neg hmax]
        exact ⟨hi.count, fun _ => hcount ▸ Nat.lt_of_not_le hmax⟩

variable {p : Sys → Label → Prop} [DecidableRel p]

theorem ceilingInv_of_reachable (hmax : 1 ≤ cfg.backoff.maxAttempts)
    (hp : ∀ s l, p s l → Timely cfg s l) (hq : ∀ s l, p s l → RequeuesBelow cfg s l)
    (h : Reachable (restrict p (step cfg)) (.init tenants) s) : CeilingInv cfg s :=
  h.inv (I := CeilingInv cfg) (fun _ hd => by cases hd) fun s₁ l s₂ hr hi hs d' hd' => by
    obtain ⟨hl, hs⟩ := restrict_eq_some.mp hs
    rcases step_delivery (leaseInv_of_reachable hr.of_restrict) (keyInv_of_reachable hr.of_restrict)
      hs hd' with ⟨d, hd, hmove⟩ | ⟨⟨-, hcount⟩, -, -⟩
    · exact hmove.ceiling (claimsHold_of_timely hp hr) (knows_of_reachable hp hr) hd (hq s₁ l hl)
        (hi d hd)
    · exact ⟨by rw [hcount]; exact Nat.zero_le _, fun _ => by rw [hcount]; exact hmax⟩

/-! ### Spent attempts -/

theorem Attempt.expire_isSpent (h : a.isSpent = true) : a.expire.isSpent = true := by
  have hopen : a.isOpen = false := by
    simp only [Attempt.isSpent, Bool.and_eq_true, Bool.not_eq_true'] at h
    exact h.1
  simp only [Attempt.expire, hopen, Bool.and_false]
  exact h

/-- With an open attempt among them, not all are spent. -/
theorem countP_isSpent_lt (ha : a ∈ as) (ho : a.isOpen = true) :
    as.countP Attempt.isSpent < as.length := by
  refine lt_of_le_of_ne List.countP_le_length fun heq => ?_
  have := List.countP_eq_length.mp heq a ha
  simp [Attempt.isSpent, ho] at this

/-- A spent attempt stays spent. -/
theorem DeliveryMove.countP_isSpent (h : DeliveryMove cfg s l d d' as) (ht : TablesKeyed s.store)
    (hkn : KnowsInv s) (hd : d ∈ s.store.deliveries) :
    (s.store.attemptsOf d.id).countP Attempt.isSpent ≤ as.countP Attempt.isSpent := by
  cases h with
  | keep | requeue | mark => exact le_rfl
  | expire =>
      rw [List.countP_map]
      exact List.countP_mono_left fun a _ ha => Attempt.expire_isSpent ha
  | insert =>
      rw [List.countP_append]
      exact Nat.le_add_right _ _
  | @resolve w claimed result random fault retryAt hl hpc endpoint id held =>
      -- the attempt that is written was open
      obtain ⟨-, -, hlast⟩ := hkn.holder hd hpc endpoint id held
      obtain ⟨as₀, a, has, -, ho, hmap⟩ := hlast.map_closeIf (attemptsOf_nodup ht d.id) result
      have hspent : a.isSpent = false := by simp [Attempt.isSpent, ho]
      rw [hmap, has, List.countP_append, List.countP_append]
      simp [hspent]

/-! ### Every run within the ceiling -/

/-- What holds in every state of a run within the ceiling. -/
structure WithinInv (cfg : Config) (s : Sys) : Prop where
  lease : LeaseInv cfg s
  keys : KeyInv s
  held : ClaimsHold s
  knows : KnowsInv s
  history : HistoryInv s
  ceiling : CeilingInv cfg s

theorem withinInv_of_reachable (hmax : 1 ≤ cfg.backoff.maxAttempts)
    (h : Reachable (restrict (WithinCeiling cfg) (step cfg)) (.init tenants) s) : WithinInv cfg s where
  lease := leaseInv_of_reachable h.of_restrict
  keys := keyInv_of_reachable h.of_restrict
  held := claimsHold_of_timely (fun _ _ hl => hl.1) h
  knows := knows_of_reachable (fun _ _ hl => hl.1) h
  history := history_of_reachable (fun _ _ hl => hl.1) (fun _ _ hl => hl.2.1) h
  ceiling := ceilingInv_of_reachable hmax (fun _ _ hl => hl.1) (fun _ _ hl => hl.2.2.1) h

/-- The numbers of a delivery's attempts are at most the ceiling. -/
theorem WithinInv.number_le (hi : WithinInv cfg s) (hd : d ∈ s.store.deliveries)
    (ha : a ∈ s.store.attemptsOf d.id) : a.attemptNumber ≤ cfg.backoff.maxAttempts := by
  have hcount := (hi.ceiling d hd).count
  have hexact : ∀ {as : List Attempt}, Exact d as → a ∈ as → a.attemptNumber ≤ d.attemptCount := by
    intro as hexact ha
    have hn := List.mem_map_of_mem (f := fun a : Attempt => a.attemptNumber) ha
    rw [hexact.numbers, List.mem_range'_1] at hn
    omega
  rcases hi.history d hd with hx | ⟨w, as₀, b, hgap, has, hx⟩
  · exact (hexact hx ha).trans hcount
  · -- the attempt in the gap has the next number
    obtain ⟨hs, -, c, head, attemptId, -, -, as₁, b₁, has₁, -, hnum, -⟩ :=
      hgap.knows hi.keys hi.knows hi.held hd
    have hlt := (hi.ceiling d hd).pending hs
    rw [has] at ha
    rcases List.mem_append.mp ha with ha | ha
    · exact (hexact hx ha).trans hcount
    · obtain ⟨-, hab⟩ := List.append_inj' (has.symm.trans has₁) rfl
      obtain rfl := List.singleton_injective hab
      rw [List.mem_singleton.mp ha, hnum]
      exact hlt

/-- A delivery whose attempts are used up is not pending, and none of them is open. -/
theorem WithinInv.closed_of_usedUp (hi : WithinInv cfg s) (hd : d ∈ s.store.deliveries)
    (hu : UsedUp cfg (s.store.attemptsOf d.id)) :
    d.state ≠ .pending ∧ ∀ a ∈ s.store.attemptsOf d.id, a.isOpen = false := by
  have hcount := (hi.ceiling d hd).count
  simp only [UsedUp] at hu
  rcases hi.history d hd with hexact | ⟨w, as₀, a, hgap, has, hexact⟩
  · have hlen := hexact.length_eq
    constructor
    · intro hs
      have hlt := (hi.ceiling d hd).pending hs
      have hle : (s.store.attemptsOf d.id).countP Attempt.isSpent ≤ _ := List.countP_le_length
      omega
    · intro a ha
      cases ho : a.isOpen with
      | false => rfl
      | true =>
          have hlt := countP_isSpent_lt ha ho
          omega
  · -- in the gap the last attempt is open, and the ones before are below the ceiling
    obtain ⟨hs, -, c, head, attemptId, -, -, as₁, b, has₁, -, -, ho⟩ :=
      hgap.knows hi.keys hi.knows hi.held hd
    obtain ⟨rfl, hab⟩ := List.append_inj' (has.symm.trans has₁) rfl
    obtain rfl := List.singleton_injective hab
    have hlen := hexact.length_eq
    have hlt := (hi.ceiling d hd).pending hs
    have hspent := countP_isSpent_lt (List.mem_append_right as₀ (List.mem_singleton_self a)) ho
    rw [has] at hu
    rw [List.length_append, List.length_singleton] at hspent
    omega

/-- A used-up delivery gets no further attempt in a step. -/
theorem WithinInv.step_usedUp (hi : WithinInv cfg s) (hd : d ∈ s.store.deliveries)
    (hu : UsedUp cfg (s.store.attemptsOf d.id)) (h : step cfg s l = some s') :
    ∃ d' ∈ s'.store.deliveries, d'.id = d.id ∧ UsedUp cfg (s'.store.attemptsOf d.id) ∧
      (s'.store.attemptsOf d.id).map (·.id) = (s.store.attemptsOf d.id).map (·.id) := by
  obtain ⟨d', hd', hmove⟩ := step_delivery_of_mem hi.lease hi.keys h hd
  have hid := hmove.id_eq
  have hcount := hmove.countP_isSpent hi.keys.tables hi.knows hd
  rw [hid] at hmove hcount
  refine ⟨d', hd', hid, le_trans hu hcount, ?_⟩
  generalize s'.store.attemptsOf d.id = as' at hmove
  cases hmove with
  | keep | requeue | mark => rfl
  | expire =>
      rw [List.map_map]
      exact List.map_congr_left fun a _ => by simp only [Function.comp, Attempt.expire]; split <;> rfl
  | insert _ hpc endpoint id =>
      -- the claim has found it pending
      exact absurd (hi.knows.claim hi.held hd hpc endpoint id).1 (hi.closed_of_usedUp hd hu).1
  | resolve =>
      rw [List.map_map]
      exact List.map_congr_left fun a _ => by simp only [Function.comp, Attempt.closeIf]; split <;> rfl

/-- Nobody who holds its lease is about to send a used-up delivery. -/
theorem WithinInv.not_holding_usedUp (hi : WithinInv cfg s) (hd : d ∈ s.store.deliveries)
    (hu : UsedUp cfg (s.store.attemptsOf d.id)) {claimed : ClaimedDelivery}
    (hpc : s.pcs w = .holding claimed) (held : Holds s.store claimed.endpointId claimed.leaseId) :
    claimed.deliveryId ≠ d.id := by
  intro hid
  have hkw := hi.keys.worker w
  rw [hpc] at hkw
  have he := hkw.1.endpointId_eq hi.keys.tables.deliveryIds hd hid.symm
  obtain ⟨-, -, as₀, a, has, -, -, ho⟩ := hi.knows.holder hd (.inl hpc) he hid held
  have hclosed := (hi.closed_of_usedUp hd hu).2 a
    (by rw [has]; exact List.mem_append_right _ (List.mem_singleton_self _))
  rw [ho] at hclosed
  cases hclosed

/-- In every run whose steps stay within the ceiling: no attempt of a delivery is numbered above
`maxAttempts`, and once that many attempts are spent without a `2xx`, no further attempt is made and
no request is issued for the delivery. -/
theorem ceiling_kept (hmax : 1 ≤ cfg.backoff.maxAttempts)
    (h : Reachable (restrict (WithinCeiling cfg) (step cfg)) (.init tenants) s)
    (hd : d ∈ s.store.deliveries) :
    (∀ a ∈ s.store.attemptsOf d.id, a.attemptNumber ≤ cfg.backoff.maxAttempts) ∧
    (UsedUp cfg (s.store.attemptsOf d.id) →
      ∀ s', Reachable (restrict (WithinCeiling cfg) (step cfg)) s s' →
        (s'.store.attemptsOf d.id).map (·.id) = (s.store.attemptsOf d.id).map (·.id) ∧
        ∀ w claimed s'', restrict (WithinCeiling cfg) (step cfg) s' (.send w) = some s'' →
          s''.pcs w = .sent claimed → claimed.deliveryId ≠ d.id) := by
  refine ⟨fun a ha => (withinInv_of_reachable hmax h).number_le hd ha, fun hu s' hr => ?_⟩
  have hrun : ∃ d' ∈ s'.store.deliveries, d'.id = d.id ∧ UsedUp cfg (s'.store.attemptsOf d.id) ∧
      (s'.store.attemptsOf d.id).map (·.id) = (s.store.attemptsOf d.id).map (·.id) := by
    refine hr.inv (I := fun s' => ∃ d' ∈ s'.store.deliveries, d'.id = d.id ∧
      UsedUp cfg (s'.store.attemptsOf d.id) ∧
      (s'.store.attemptsOf d.id).map (·.id) = (s.store.attemptsOf d.id).map (·.id))
      ⟨d, hd, rfl, hu, rfl⟩ ?_
    rintro s₁ l s₂ hr₁ ⟨d₁, hd₁, hid₁, hu₁, hids₁⟩ hs
    have hi := withinInv_of_reachable hmax (h.trans hr₁)
    rw [← hid₁] at hu₁ hids₁ ⊢
    obtain ⟨d₂, hd₂, hid₂, hu₂, hids₂⟩ := hi.step_usedUp hd₁ hu₁ (restrict_eq_some.mp hs).2
    exact ⟨d₂, hd₂, hid₂, hu₂, hids₂.trans hids₁⟩
  obtain ⟨d', hd', hid', hu', hids⟩ := hrun
  refine ⟨hids, fun w claimed s'' hs hpc => ?_⟩
  obtain ⟨hl, hs⟩ := restrict_eq_some.mp hs
  have hpc' := holding_of_send hs hpc
  have hsend := hl.2.2.2
  simp only [SendsHeld, hpc'] at hsend
  rw [← hid'] at hu' ⊢
  exact (withinInv_of_reachable hmax (h.trans hr)).not_holding_usedUp hd' hu' hpc' hsend

end

/-! ### One attempt -/

open Sample

/-- The only attempt fails. -/
theorem ceiling_kept_sample : ∃ s d, Reachable (restrict (WithinCeiling once) (step once)) start s ∧
    d ∈ s.store.deliveries ∧ UsedUp once (s.store.attemptsOf d.id) ∧
    (∀ a ∈ s.store.attemptsOf d.id, a.attemptNumber ≤ 1) ∧
    ∀ s', Reachable (restrict (WithinCeiling once) (step once)) s s' →
      (s'.store.attemptsOf d.id).map (·.id) = (s.store.attemptsOf d.id).map (·.id) := by
  obtain ⟨s, hs, hp⟩ := exists_of_run (restrict (fun s l => TimelyAmong once [0, 1] s l ∧
      DiesOutsideGap s l ∧ RequeuesBelow once s l ∧ SendsHeld s l) (step once)) start
    (register :: publish 0 "k" ++ expand ++ claim 1 none 7 ++ deliver 1 500)
    (fun s => s.store.deliveries.any fun d =>
      once.backoff.maxAttempts ≤ (s.store.attemptsOf d.id).countP Attempt.isSpent) (by decide)
  obtain ⟨d, hd, hu⟩ := List.any_eq_true.mp hp
  have hr : Reachable (restrict (WithinCeiling once) (step once)) start s :=
    timely_of_timelyAmong (fun _ _ => rfl) (fun _ _ h => h.1) (fun _ _ ht h => ⟨ht, h.2⟩) (.of_run hs)
  obtain ⟨hnum, hused⟩ := ceiling_kept (by decide) hr hd
  have hu := of_decide_eq_true hu
  exact ⟨s, d, hr, hd, hu, hnum, fun s' hr' => (hused hu s' hr').1⟩

/-- Worker 1 dies over the only attempt.  The claim of worker 2 closes it as `worker_lease_expired`
and goes on with an attempt numbered above the ceiling, which it sends. -/
theorem beyond_ceiling : ∃ s s' d claimed,
    Reachable (restrict (Timely once) (step once)) start s ∧ d ∈ s.store.deliveries ∧
    UsedUp once (s.store.attemptsOf d.id) ∧ Reachable (restrict (Timely once) (step once)) s s' ∧
    s'.pcs 2 = .sent claimed ∧ claimed.deliveryId = d.id ∧
    ∃ a ∈ s'.store.attemptsOf d.id, a.id = claimed.attemptId ∧
      once.backoff.maxAttempts < a.attemptNumber := by
  obtain ⟨s, s', hs, hs', hp⟩ := exists_of_runs (restrict (TimelyAmong once [0, 1, 2]) (step once))
    start (register :: publish 0 "k" ++ expand ++ claim 1 none 7 ++ [.send 1, .die 1, .tick 11] ++
      claim 2 (some (0, 3)) 3)
    (List.replicate 6 (.step 2) ++ [.send 2])
    (fun s s' => match s'.pcs 2 with
      | .sent claimed =>
          (s.store.deliveries.any fun d => claimed.deliveryId = d.id &&
            once.backoff.maxAttempts ≤ (s.store.attemptsOf d.id).countP Attempt.isSpent) &&
          (s'.store.attemptsOf claimed.deliveryId).any fun a => a.id = claimed.attemptId &&
            once.backoff.maxAttempts < a.attemptNumber
      | _ => false) (by decide)
  have hr := Reachable.of_run hs
  split at hp
  · next claimed hpc =>
      simp only [Bool.and_eq_true, List.any_eq_true, decide_eq_true_eq] at hp
      obtain ⟨⟨d, hd, hid, hu⟩, a, ha, hattempt, hnum⟩ := hp
      refine ⟨s, s', d, claimed, timely_of_timelyAmong (fun _ _ => rfl) (fun _ _ h => h)
        (fun _ _ h _ => h) hr, hd, hu, ?_, hpc, hid, a, hid ▸ ha, hattempt, hnum⟩
      exact timely_of_timelyAmong (fun w hw => pcs_of_timelyAmong (fun _ _ h => h) hr hw)
        (fun _ _ h => h) (fun _ _ h _ => h) (.of_run hs')
  · cases hp

end Webhooks
