import Webhooks.Protocol.History

/-!
# Protocol — Schedule

When a delivery may be attempted again.

* `Pc.Due`, **`due_of_reachable`**: in timely runs, a claim that goes past its check, and holds its
  lease, is about a delivery whose `next_attempt_at` has come.
* `Retry`, `retryOf`: what a step schedules.
* **`nextAttemptAt_of_reachable`**: `next_attempt_at` never goes back.
* `Numbered`, **`numbered_of_reachable`**: the attempts of a delivery are numbered up to its count, or
  one further while it is not in flight.
-/

namespace Webhooks

open Lib

/-- The delivery a claim has read as the head, or has taken. -/
def Pc.about : Pc → Option Uuid
  | .claiming _ (.checkHead (some head)) | .claiming _ (.insertAttempt head)
  | .claiming _ (.markInFlight head _ _) | .claiming _ (.finish head _ _) => some head.id
  | .holding claimed | .sent claimed => some claimed.deliveryId
  | _ => none

/-- Before its check a claim has the `next_attempt_at` of its delivery, and afterwards that has come. -/
def Pc.Due (now : Time) (d : Delivery) (pc : Pc) : Prop :=
  pc.about = some d.id →
    match pc with
    | .claiming _ (.checkHead (some head)) => head.nextAttemptAt = d.nextAttemptAt
    | _ => d.nextAttemptAt ≤ now

/-- A retry that a write-back schedules. -/
structure Retry where
  deliveryId : Uuid
  attemptNumber : Nat
  delayMs : Nat
  deriving DecidableEq, Repr

/-- The retry a step schedules, if it is a write-back that returns `retrying`. -/
def retryOf (cfg : Config) (s : Sys) : Label → Option Retry
  | .complete w result random fault =>
      match s.pcs w with
      | .holding claimed | .sent claimed =>
          if (completeDelivery cfg s.now s.store claimed result random fault).1 = some .retrying then
            some ⟨claimed.deliveryId, claimed.attemptNumber,
              computeBackoffDelayMs claimed.attemptNumber cfg.backoff random⟩
          else none
      | _ => none
  | _ => none

/-- The attempts of a delivery are numbered up to its count; while it is not in flight one may be
further, inserted and never marked. -/
structure Numbered (d : Delivery) (as : List Attempt) : Prop where
  numbers : ∀ a ∈ as, a.attemptNumber ≤ d.attemptCount + 1
  inFlight : d.state = .inFlight → 1 ≤ d.attemptCount ∧ ∀ a ∈ as, a.attemptNumber ≤ d.attemptCount

def DueInv (s : Sys) : Prop :=
  ∀ d ∈ s.store.deliveries, ∀ w leaseId, (s.pcs w).lease = some (d.endpointId, leaseId) →
    Holds s.store d.endpointId leaseId → (s.pcs w).Due s.now d

section

variable {cfg : Config} {now now' : Time} {st st' : Store} {w : WorkerId} {pc pc' : Pc} {l : Label}
  {d d' : Delivery} {s s' : Sys} {leaseId : Uuid} {tenants : List Tenant}

theorem Pc.about_mem (h : pc.KeyFacts st) {id : Uuid} (hid : pc.about = some id) :
    ∃ d ∈ st.deliveries, d.id = id := by
  have hon : ∀ {id endpointId : Uuid}, OnEndpoint st id endpointId → ∃ d ∈ st.deliveries, d.id = id :=
    fun ⟨d, hd, hid, _⟩ => ⟨d, hd, hid⟩
  cases pc with
  | claiming c next =>
      cases next with
      | checkHead head =>
          cases head with
          | none => cases hid
          | some head =>
              cases hid
              exact hon h
      | insertAttempt head =>
          cases hid
          exact hon h
      | markInFlight | finish =>
          cases hid
          exact hon h.1
      | _ => cases hid
  | holding | sent =>
      cases hid
      exact hon h.1
  | _ => cases hid

theorem Pc.Due.later (hle : now ≤ now') (h : pc.Due now d) : pc.Due now' d := by
  intro hid
  have hdue := h hid
  split at hdue
  · exact hdue
  · exact hdue.trans hle

/-- A worker's step keeps what it knows. -/
theorem WorkerMove.due (h : WorkerMove cfg now st w pc l st' pc') (ht : TablesKeyed st)
    (hi : ∀ d ∈ st.deliveries, ∀ leaseId, pc.lease = some (d.endpointId, leaseId) →
      Holds st d.endpointId leaseId → pc.Due now d)
    (hd' : d' ∈ st'.deliveries) (hlease : pc'.lease = some (d'.endpointId, leaseId))
    (hh : Holds st' d'.endpointId leaseId) : pc'.Due now d' := by
  cases h with
  | outside _ _ _ hout => rw [Pc.lease_of_isOutside hout] at hlease; cases hlease
  | @fetch c =>
      cases hf : fetchHead st c.candidate.id with
      | none => nofun
      | some head =>
          intro hid
          obtain ⟨d, hd, -, hof, -⟩ := fetchHead_eq_some ht.linked hf
          have hid : some head.id = some d'.id := hid
          obtain rfl : d = d' :=
            Table.eq_of_key ht.deliveryIds hd hd' (hof.id.symm.trans (Option.some.inj hid))
          exact hof.nextAttemptAt
  | checkDue hdue =>
      intro hid
      have heq := hi d' hd' _ hlease hh hid
      exact heq ▸ hdue
  | @insert c head => exact fun hid => hi d' hd' _ hlease hh hid
  | @mark c head n attemptId =>
      intro hid
      rcases Table.mem_update_cases hd' with ⟨-, hne⟩ | ⟨d, hd, hp, rfl⟩
      · exact absurd (Option.some.inj hid).symm (of_decide_eq_false hne)
      · exact hi d hd _ hlease hh hid
  | @finish c _ _ _ claimed hendpoint hleaseId hdelivery =>
      intro hid
      have hlease : some (claimed.endpointId, claimed.leaseId) = some (d'.endpointId, leaseId) := hlease
      rw [hendpoint, hleaseId] at hlease
      have hid : some claimed.deliveryId = some d'.id := hid
      rw [hdelivery] at hid
      exact hi d' hd' leaseId hlease hh hid
  | send => exact fun hid => hi d' hd' _ hlease hh hid
  | _ => nofun

theorem DueInv.step (hl : LeaseInv cfg s) (hk : KeyInv s) (hheld : ClaimsHold s) (hi : DueInv s)
    (h : step cfg s l = some s') : DueInv s' := by
  refine held_step (P := fun now d _ pc => pc.Due now d) hl hk hheld (fun _ _ _ _ _ hle h => h.later hle)
    (fun d as w _ hnew hid => ?_)
    (fun w hw _ hd' _ hlease hh =>
      hw.due hk.tables (fun d hd leaseId => hi d hd w leaseId) hd' hlease hh) hi h
  obtain ⟨d₀, hd₀, hid₀⟩ := Pc.about_mem (hk.worker w) hid
  exact absurd hid₀ (hnew d₀ hd₀)

variable {p : Sys → Label → Prop} [DecidableRel p]

theorem due_of_reachable (hp : ∀ s l, p s l → Timely cfg s l)
    (h : Reachable (restrict p (step cfg)) (.init tenants) s) : DueInv s :=
  h.inv (I := DueInv) (fun _ hd => by cases hd) fun _ _ _ hr hi hs =>
    hi.step (leaseInv_of_reachable hr.of_restrict) (keyInv_of_reachable hr.of_restrict)
      (claimsHold_of_timely hp hr) (restrict_eq_some.mp hs).2

/-! ### What a step schedules -/

theorem step_complete {result : AttemptOutcome} {random : Jitter} {fault : Option CompleteStatement}
    (h : step cfg s (.complete w result random fault) = some s') :
    ∃ claimed, (s.pcs w = .holding claimed ∨ s.pcs w = .sent claimed) ∧
      s'.store = (completeDelivery cfg s.now s.store claimed result random fault).2 := by
  simp only [step] at h
  split at h
  · next claimed hpc =>
      split at h
      · cases h
        exact ⟨claimed, .inl hpc, rfl⟩
      · cases h
  · next claimed hpc =>
      cases h
      exact ⟨claimed, .inr hpc, rfl⟩
  · cases h

theorem retryOf_complete {result : AttemptOutcome} {random : Jitter} {fault : Option CompleteStatement}
    {claimed : ClaimedDelivery} (hpc : s.pcs w = .holding claimed ∨ s.pcs w = .sent claimed) :
    retryOf cfg s (.complete w result random fault) =
      if (completeDelivery cfg s.now s.store claimed result random fault).1 = some .retrying then
        some ⟨claimed.deliveryId, claimed.attemptNumber,
          computeBackoffDelayMs claimed.attemptNumber cfg.backoff random⟩
      else none := by
  rcases hpc with hpc | hpc <;> simp only [retryOf, hpc]

theorem resolution_eq_retrying {claimed : ClaimedDelivery} {result : AttemptOutcome} :
    resolution cfg claimed result = .retrying →
      claimed.attemptNumber < cfg.backoff.maxAttempts := by
  intro h
  simp only [resolution] at h
  split at h
  · cases h
  split at h
  · cases h
  · next hlt => exact Nat.lt_of_not_le hlt

/-- A scheduled retry is a committed write-back below the ceiling. -/
theorem retryOf_eq_some {r : Retry} (hs : step cfg s l = some s') (h : retryOf cfg s l = some r) :
    ∃ w claimed result random fault, l = .complete w result random fault ∧
      (s.pcs w = .holding claimed ∨ s.pcs w = .sent claimed) ∧
      Holds s.store claimed.endpointId claimed.leaseId ∧
      claimed.attemptNumber < cfg.backoff.maxAttempts ∧
      r = ⟨claimed.deliveryId, claimed.attemptNumber,
        computeBackoffDelayMs claimed.attemptNumber cfg.backoff random⟩ ∧
      resolution cfg claimed result = .retrying ∧
      s'.store = writeBack cfg s.now s.store claimed result random := by
  cases l with
  | complete w result random fault =>
      obtain ⟨claimed, hpc, hstore⟩ := step_complete hs
      rw [retryOf_complete hpc] at h
      split at h
      · next hret =>
          rcases completeDelivery_cases cfg s.now s.store claimed result random fault with
            hc | ⟨-, hc⟩ | ⟨hlease, -, hc⟩ <;> rw [hc] at hret hstore
          · cases hret
          · cases hret
          · have hres := Option.some.inj hret
            cases h
            exact ⟨w, claimed, result, random, fault, rfl, hpc, holds_of_currentLease hlease,
              resolution_eq_retrying hres, rfl, hres, hstore⟩
      · cases h
  | _ => cases h

/-- The delivery of a scheduled retry is pending, and due after the delay. -/
theorem retryOf_row {r : Retry} (hs : step cfg s l = some s') (h : retryOf cfg s l = some r)
    (hd' : d' ∈ s'.store.deliveries) (hid : d'.id = r.deliveryId) :
    d'.state = .pending ∧ d'.nextAttemptAt = s.now + r.delayMs := by
  obtain ⟨w, claimed, result, random, fault, -, -, -, -, rfl, hres, hstore⟩ := retryOf_eq_some hs h
  rw [hstore] at hd'
  rcases Table.mem_update_cases hd' with ⟨-, hne⟩ | ⟨d, -, -, rfl⟩
  · exact absurd hid (of_decide_eq_false hne)
  · rw [hres]
    exact ⟨rfl, rfl⟩

/-- Only a scheduled retry moves a `next_attempt_at`. -/
theorem step_nextAttemptAt (hl : LeaseInv cfg s) (hk : KeyInv s) (hs : step cfg s l = some s')
    (hd : d ∈ s.store.deliveries) (hd' : d' ∈ s'.store.deliveries) (hid : d'.id = d.id) :
    d'.nextAttemptAt = d.nextAttemptAt ∨ ∃ r, retryOf cfg s l = some r ∧ r.deliveryId = d.id := by
  obtain ⟨d₁, hd₁, hmove⟩ := step_delivery_of_mem hl hk hs hd
  obtain rfl : d₁ = d' :=
    Table.eq_of_key (hk.step hl.ids hs).tables.deliveryIds hd₁ hd' (hmove.id_eq.trans hid.symm)
  generalize s'.store.attemptsOf d₁.id = as at hmove
  cases hmove with
  | keep | expire | requeue | insert | mark => exact .inl rfl
  | @resolve w claimed₀ result random fault retryAt hlab =>
      subst hlab
      obtain ⟨claimed, hpc, hstore⟩ := step_complete hs
      rcases completeDelivery_cases cfg s.now s.store claimed result random fault with
        hc | ⟨-, hc⟩ | ⟨-, -, hc⟩ <;> rw [hc] at hstore <;> rw [hstore] at hd'
      · exact .inl (by rw [Table.eq_of_key hk.tables.deliveryIds hd' hd hid])
      · exact .inl (by rw [Table.eq_of_key hk.tables.deliveryIds hd' hd hid])
      · rcases Table.mem_update_cases hd' with ⟨hd', -⟩ | ⟨d₂, hd₂, hp, heq⟩
        · exact .inl (by rw [Table.eq_of_key hk.tables.deliveryIds hd' hd hid])
        · rw [heq] at hid ⊢
          rw [(Delivery.resolve_identity ..).1] at hid
          obtain rfl : d₂ = d := Table.eq_of_key hk.tables.deliveryIds hd₂ hd hid
          cases hres : resolution cfg claimed result with
          | succeeded | halted => exact .inl rfl
          | retrying =>
              refine .inr ⟨⟨claimed.deliveryId, claimed.attemptNumber,
                computeBackoffDelayMs claimed.attemptNumber cfg.backoff random⟩, ?_,
                (of_decide_eq_true hp).symm⟩
              rw [retryOf_complete hpc, hc, hres, if_pos rfl]
          | leaseLost =>
              simp only [resolution] at hres
              repeat' split at hres
              all_goals cases hres

/-- `next_attempt_at` never goes back: a retry is scheduled from a moment when the last one was due. -/
theorem step_nextAttemptAt_le (hl : LeaseInv cfg s) (hk : KeyInv s) (hdue : DueInv s)
    (hs : step cfg s l = some s') (hd : d ∈ s.store.deliveries) (hd' : d' ∈ s'.store.deliveries)
    (hid : d'.id = d.id) : d.nextAttemptAt ≤ d'.nextAttemptAt := by
  rcases step_nextAttemptAt hl hk hs hd hd' hid with heq | ⟨r, hr, hrid⟩
  · exact heq.ge
  · rw [(retryOf_row hs hr hd' (hid.trans hrid.symm)).2]
    obtain ⟨w, claimed, result, random, fault, -, hpc, held, -, rfl, -, -⟩ := retryOf_eq_some hs hr
    have hkw := hk.worker w
    have hon := (hkw.complete hpc).1
    have he : d.endpointId = claimed.endpointId := hon.endpointId_eq hk.tables.deliveryIds hd hrid.symm
    have hlease : (s.pcs w).lease = some (d.endpointId, claimed.leaseId) := by
      rw [he]
      rcases hpc with hpc | hpc <;> rw [hpc] <;> rfl
    have hnow := hdue d hd w _ hlease (he ▸ held)
    have hnext : d.nextAttemptAt ≤ s.now := by
      rcases hpc with hpc | hpc <;> rw [hpc] at hnow <;> exact hnow (congrArg some hrid)
    exact hnext.trans (Nat.le_add_right _ _)

theorem nextAttemptAt_of_reachable (hp : ∀ s l, p s l → Timely cfg s l)
    (h : Reachable (restrict p (step cfg)) (.init tenants) s)
    (h' : Reachable (restrict p (step cfg)) s s') (hd : d ∈ s.store.deliveries) :
    ∃ d' ∈ s'.store.deliveries, d'.id = d.id ∧ d.nextAttemptAt ≤ d'.nextAttemptAt := by
  refine h'.inv (I := fun s' => ∃ d' ∈ s'.store.deliveries, d'.id = d.id ∧
    d.nextAttemptAt ≤ d'.nextAttemptAt) ⟨d, hd, rfl, le_rfl⟩ ?_
  rintro s₁ l s₂ hr ⟨d₁, hd₁, hid₁, hle⟩ hs
  have hr' := h.trans hr
  have hl := leaseInv_of_reachable hr'.of_restrict
  have hk := keyInv_of_reachable hr'.of_restrict
  have hs := (restrict_eq_some.mp hs).2
  obtain ⟨d₂, hd₂, hmove⟩ := step_delivery_of_mem hl hk hs hd₁
  exact ⟨d₂, hd₂, hmove.id_eq.trans hid₁,
    hle.trans (step_nextAttemptAt_le hl hk (due_of_reachable hp hr') hs hd₁ hd₂ hmove.id_eq)⟩

/-! ### The numbers of the attempts -/

theorem DeliveryMove.numbered {as : List Attempt} (h : DeliveryMove cfg s l d d' as)
    (hheld : ClaimsHold s) (hkn : KnowsInv s) (hd : d ∈ s.store.deliveries)
    (hi : Numbered d (s.store.attemptsOf d.id)) : Numbered d' as := by
  have hmap : ∀ {f : Attempt → Attempt} {n : Nat}, (∀ a, (f a).attemptNumber = a.attemptNumber) →
      (∀ a ∈ s.store.attemptsOf d.id, a.attemptNumber ≤ n) →
      ∀ a ∈ (s.store.attemptsOf d.id).map f, a.attemptNumber ≤ n := by
    intro f n hf hle a ha
    obtain ⟨a₀, ha₀, rfl⟩ := List.mem_map.mp ha
    exact (hf a₀).trans_le (hle a₀ ha₀)
  cases h with
  | keep => exact hi
  | expire =>
      exact ⟨hmap Attempt.expire_number hi.numbers,
        fun hs => ⟨(hi.inFlight hs).1, hmap Attempt.expire_number (hi.inFlight hs).2⟩⟩
  | requeue => exact ⟨hi.numbers, by simp⟩
  | insert hl hpc endpoint id =>
      -- the claim found it pending, with the count it goes on from
      obtain ⟨hs, hcount⟩ := hkn.claim hheld hd hpc endpoint id
      refine ⟨fun a ha => ?_, fun hs' => by rw [hs] at hs'; cases hs'⟩
      rcases List.mem_append.mp ha with ha | ha
      · exact hi.numbers a ha
      · rw [List.mem_singleton.mp ha, ← hcount]
        exact le_rfl
  | mark hl hpc endpoint id =>
      obtain ⟨-, rfl, -⟩ := hkn.claim hheld hd hpc endpoint id
      exact ⟨fun a ha => (hi.numbers a ha).trans (Nat.le_succ _),
        fun _ => ⟨Nat.le_add_left _ _, hi.numbers⟩⟩
  | @resolve w claimed result =>
      have hclose : ∀ a, (Attempt.closeIf claimed.attemptId result a).attemptNumber =
          a.attemptNumber := by
        intro a
        simp only [Attempt.closeIf]
        split <;> rfl
      cases resolution cfg claimed result <;> exact ⟨hmap hclose hi.numbers, fun h => by cases h⟩

theorem numbered_of_reachable (hp : ∀ s l, p s l → Timely cfg s l)
    (h : Reachable (restrict p (step cfg)) (.init tenants) s) :
    ∀ d ∈ s.store.deliveries, Numbered d (s.store.attemptsOf d.id) :=
  h.inv (I := fun s => ∀ d ∈ s.store.deliveries, Numbered d (s.store.attemptsOf d.id))
    (fun _ hd => by cases hd) fun s₁ l s₂ hr hi hs d' hd' => by
    have hs := (restrict_eq_some.mp hs).2
    rcases step_delivery (leaseInv_of_reachable hr.of_restrict) (keyInv_of_reachable hr.of_restrict)
      hs hd' with ⟨d, hd, hmove⟩ | ⟨⟨hstate, hcount⟩, -, hnone⟩
    · exact hmove.numbered (claimsHold_of_timely hp hr) (knows_of_reachable hp hr) hd (hi d hd)
    · rw [hnone]
      exact ⟨nofun, fun hs => by rw [hstate] at hs; cases hs⟩

/-! ### The retries of a run -/

/-- The retries a run schedules, in order. -/
def retries (cfg : Config) : Sys → List Label → List Retry
  | _, [] => []
  | s, l :: labels =>
      match step cfg s l with
      | none => []
      | some s' => (retryOf cfg s l).toList ++ retries cfg s' labels

theorem retries_concat {labels : List Label} {s₁ : Sys} (h : run (step cfg) s labels = some s₁)
    (hs : step cfg s₁ l = some s') :
    retries cfg s (labels ++ [l]) = retries cfg s labels ++ (retryOf cfg s₁ l).toList := by
  induction labels generalizing s with
  | nil =>
      cases h
      simp [retries, hs]
  | cons l₀ labels ih =>
      rw [run_cons] at h
      obtain ⟨t, ht, h⟩ := Option.bind_eq_some_iff.mp h
      simp only [List.cons_append, retries, ht, ih h, List.append_assoc]

/-- The delivery has been tried since the attempt of this number was written back, or waits. -/
def Delivery.Beyond (d : Delivery) (attemptNumber : Nat) : Prop :=
  attemptNumber ≤ d.attemptCount ∧ (d.state = .inFlight → attemptNumber < d.attemptCount)

theorem DeliveryMove.beyond {as : List Attempt} {n : Nat} (h : DeliveryMove cfg s l d d' as)
    (hheld : ClaimsHold s) (hkn : KnowsInv s) (hd : d ∈ s.store.deliveries) (hi : d.Beyond n) :
    d'.Beyond n := by
  cases h with
  | keep | expire | insert => exact hi
  | requeue => exact ⟨hi.1, nofun⟩
  | mark hl hpc endpoint id =>
      obtain ⟨-, rfl, -⟩ := hkn.claim hheld hd hpc endpoint id
      exact ⟨hi.1.trans (Nat.le_succ _), fun _ => Nat.lt_succ_of_le hi.1⟩
  | @resolve w claimed result =>
      cases resolution cfg claimed result <;> exact ⟨hi.1, nofun⟩

/-- What is known of the retries scheduled so far. -/
structure RetryInv (cfg : Config) (rs : List Retry) (s : Sys) : Prop where
  increasing : rs.Pairwise fun a b => a.deliveryId = b.deliveryId → a.attemptNumber < b.attemptNumber
  below : ∀ r ∈ rs, 1 ≤ r.attemptNumber ∧ r.attemptNumber < cfg.backoff.maxAttempts
  beyond : ∀ r ∈ rs, ∃ d ∈ s.store.deliveries, d.id = r.deliveryId ∧ d.Beyond r.attemptNumber

/-- The delivery of a write-back that schedules a retry is in flight with the attempt's number. -/
theorem retryOf_delivery (hp : ∀ s l, p s l → Timely cfg s l)
    (h : Reachable (restrict p (step cfg)) (.init tenants) s) {r : Retry}
    (hs : step cfg s l = some s') (hr : retryOf cfg s l = some r) :
    r.attemptNumber < cfg.backoff.maxAttempts ∧ ∃ d ∈ s.store.deliveries, d.id = r.deliveryId ∧
      d.state = .inFlight ∧ d.attemptCount = r.attemptNumber := by
  obtain ⟨w, claimed, result, random, fault, -, hpc, held, hlt, rfl, -, -⟩ := retryOf_eq_some hs hr
  have hk := keyInv_of_reachable h.of_restrict
  obtain ⟨d, hd, hid, hend⟩ := ((hk.worker w).complete hpc).1
  obtain ⟨hstate, hcount, -⟩ := (knows_of_reachable hp h).holder hd hpc hend hid.symm held
  exact ⟨hlt, d, hd, hid, hstate, hcount.symm⟩

theorem RetryInv.step {rs : List Retry} (hp : ∀ s l, p s l → Timely cfg s l)
    (h : Reachable (restrict p (Webhooks.step cfg)) (.init tenants) s) (hi : RetryInv cfg rs s)
    (hs : Webhooks.step cfg s l = some s') : RetryInv cfg (rs ++ (retryOf cfg s l).toList) s' := by
  have hl := leaseInv_of_reachable h.of_restrict
  have hk := keyInv_of_reachable h.of_restrict
  have hkn := knows_of_reachable hp h
  have hheld := claimsHold_of_timely hp h
  have hkept : ∀ r ∈ rs, ∃ d' ∈ s'.store.deliveries, d'.id = r.deliveryId ∧ d'.Beyond r.attemptNumber := by
    intro r hr
    obtain ⟨d, hd, hid, hbeyond⟩ := hi.beyond r hr
    obtain ⟨d', hd', hmove⟩ := step_delivery_of_mem hl hk hs hd
    exact ⟨d', hd', hmove.id_eq.trans hid, hmove.beyond hheld hkn hd hbeyond⟩
  cases hretry : retryOf cfg s l with
  | none =>
      rw [Option.toList_none, List.append_nil]
      exact ⟨hi.increasing, hi.below, hkept⟩
  | some r =>
      obtain ⟨hlt, d, hd, hid, hstate, hcount⟩ := retryOf_delivery hp h hs hretry
      have hpos := ((numbered_of_reachable hp h d hd).inFlight hstate).1
      obtain ⟨d', hd', hmove⟩ := step_delivery_of_mem hl hk hs hd
      have hid' := hmove.id_eq.trans hid
      -- the step has put the delivery back, with its count
      have hpending := (retryOf_row hs hretry hd' hid').1
      have hcount' : d'.attemptCount = d.attemptCount := by
        generalize s'.store.attemptsOf d'.id = as at hmove
        cases hmove with
        | mark => cases hpending
        | resolve => exact (Delivery.resolve_identity ..).2.2.2.2
        | _ => rfl
      rw [Option.toList_some]
      refine ⟨List.pairwise_append.mpr ⟨hi.increasing, List.pairwise_singleton _ _, ?_⟩, ?_, ?_⟩
      · intro a ha b hb heq
        rw [List.mem_singleton.mp hb] at heq ⊢
        obtain ⟨d₀, hd₀, hid₀, hbeyond⟩ := hi.beyond a ha
        obtain rfl : d₀ = d :=
          Table.eq_of_key hk.tables.deliveryIds hd₀ hd (hid₀.trans (heq.trans hid.symm))
        exact (hbeyond.2 hstate).trans_eq hcount
      · intro a ha
        rcases List.mem_append.mp ha with ha | ha
        · exact hi.below a ha
        · rw [List.mem_singleton.mp ha]
          exact ⟨hpos.trans_eq hcount, hlt⟩
      · intro a ha
        rcases List.mem_append.mp ha with ha | ha
        · exact hkept a ha
        · rw [List.mem_singleton.mp ha]
          exact ⟨d', hd', hid', (hcount'.trans hcount).ge, fun hs => by rw [hpending] at hs; cases hs⟩

theorem retryInv_of_run (hp : ∀ s l, p s l → Timely cfg s l) {labels : List Label}
    (h : run (restrict p (step cfg)) (.init tenants) labels = some s) :
    RetryInv cfg (retries cfg (.init tenants) labels) s := by
  refine run_inv (I := fun labels s => RetryInv cfg (retries cfg (.init tenants) labels) s)
    ⟨.nil, nofun, nofun⟩ (fun labels s₁ l s₂ hrun hi hs => ?_) h
  have hs := (restrict_eq_some.mp hs).2
  rw [retries_concat (run_of_restrict hrun) hs]
  exact hi.step hp (.of_run hrun) hs

end

end Webhooks
