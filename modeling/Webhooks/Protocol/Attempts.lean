import Webhooks.Protocol.Exclusion

/-!
# Protocol — Attempts

One delivery and the list of its attempts, which three separate statements and a transaction
write.

* `DeliveryMove`, **`step_delivery`**: what a step does to both, said once.
* `Pc.Knows`, **`knows_of_reachable`**: in timely runs, what a claim that holds its lease knows of
  its delivery: the state, the count, and the last attempt.
-/

namespace Webhooks

open Lib

/-! ### What a step does to a delivery and its attempts -/

/-- Every claim holds its lease. -/
def ClaimsHold (s : Sys) : Prop :=
  ∀ w c next, s.pcs w = .claiming c next → Holds s.store c.candidate.id c.leaseId

/-- The attempt after the reclaim's `UPDATE`. -/
def Attempt.expire (a : Attempt) : Attempt :=
  if a.sentAt.isSome && a.isOpen then { a with errorClass := some .workerLeaseExpired } else a

/-- The attempt after the write-back of another attempt or of this one. -/
def Attempt.closeIf (id : Uuid) (r : AttemptOutcome) (a : Attempt) : Attempt :=
  if a.id = id then a.close r else a

/-- The row and the attempts of the delivery `d` after the step. -/
inductive DeliveryMove (cfg : Config) (s : Sys) (l : Label) (d : Delivery) :
    Delivery → List Attempt → Prop
  | keep : DeliveryMove cfg s l d d (s.store.attemptsOf d.id)
  | expire {w c} (hl : l = .step w) (hpc : s.pcs w = .claiming c .closeOrphans)
      (endpoint : d.endpointId = c.candidate.id) (state : d.state = .inFlight) :
      DeliveryMove cfg s l d d ((s.store.attemptsOf d.id).map Attempt.expire)
  | requeue {w c} (hl : l = .step w) (hpc : s.pcs w = .claiming c .requeue)
      (endpoint : d.endpointId = c.candidate.id) (state : d.state = .inFlight) :
      DeliveryMove cfg s l d { d with state := .pending } (s.store.attemptsOf d.id)
  | insert {w c head} (hl : l = .step w) (hpc : s.pcs w = .claiming c (.insertAttempt head))
      (endpoint : d.endpointId = c.candidate.id) (id : head.id = d.id) :
      DeliveryMove cfg s l d d (s.store.attemptsOf d.id ++ [head.newAttempt s.now s.store.uuids])
  | mark {w c head n attemptId} (hl : l = .step w)
      (hpc : s.pcs w = .claiming c (.markInFlight head n attemptId))
      (endpoint : d.endpointId = c.candidate.id) (id : head.id = d.id) :
      DeliveryMove cfg s l d { d with state := .inFlight, attemptCount := n }
        (s.store.attemptsOf d.id)
  | resolve {w claimed result random fault} (retryAt) (hl : l = .complete w result random fault)
      (hpc : s.pcs w = .holding claimed ∨ s.pcs w = .sent claimed)
      (endpoint : d.endpointId = claimed.endpointId) (id : claimed.deliveryId = d.id)
      (held : Holds s.store claimed.endpointId claimed.leaseId) :
      DeliveryMove cfg s l d (d.resolve (resolution cfg claimed result) retryAt)
        ((s.store.attemptsOf d.id).map (Attempt.closeIf claimed.attemptId result))

section

variable {cfg : Config} {now : Time} {s s' : Sys} {st st' : Store} {l : Label} {d d' : Delivery}
  {as : List Attempt} {w : WorkerId} {pc pc' : Pc} {endpointId leaseId : Uuid}

theorem DeliveryMove.id_eq (h : DeliveryMove cfg s l d d' as) : d'.id = d.id := by
  cases h with
  | resolve => exact (Delivery.resolve_identity ..).1
  | _ => rfl

theorem DeliveryMove.endpointId_eq (h : DeliveryMove cfg s l d d' as) :
    d'.endpointId = d.endpointId := by
  cases h with
  | resolve => exact (Delivery.resolve_identity ..).2.2.1
  | _ => rfl

theorem mem_attemptsOf {a : Attempt} {id : Uuid} :
    a ∈ st.attemptsOf id ↔ a ∈ st.attempts ∧ a.deliveryId = id := by
  simp [Store.attemptsOf]

theorem attemptsOf_congr (h : st'.attempts = st.attempts) (id : Uuid) :
    st'.attemptsOf id = st.attemptsOf id := by
  simp only [Store.attemptsOf, h]

/-- An `UPDATE attempts`, on the attempts of one delivery. -/
theorem attemptsOf_update {p : Attempt → Bool} {f : Attempt → Attempt} {id : Uuid}
    (heq : st'.attempts = Table.update p f st.attempts) (hf : ∀ a, (f a).deliveryId = a.deliveryId) :
    st'.attemptsOf id = Table.update p f (st.attemptsOf id) := by
  simp only [Store.attemptsOf, heq]
  exact Table.filter_update fun a => by rw [hf]

/-- The reclaim closes the attempts of the in-flight delivery it finds, and no others. -/
theorem closeOrphans_attemptsOf (hn : (st.deliveries.map (·.id)).Nodup)
    (h : closeOrphans st endpointId = some st') (hd : d ∈ st.deliveries) :
    st'.attemptsOf d.id =
      if d.isInFlightOn endpointId then (st.attemptsOf d.id).map Attempt.expire
      else st.attemptsOf d.id := by
  simp only [closeOrphans] at h
  split at h <;> cases h
  case h_1 hf =>
      have hnot : d.isInFlightOn endpointId = false := by
        simpa using List.filter_eq_nil_iff.mp hf d hd
      rw [hnot]
      rfl
  case h_2 d₀ hf =>
      have hmem : d ∈ st.deliveries.filter (Delivery.isInFlightOn endpointId) ↔ d = d₀ := by
        rw [hf, List.mem_singleton]
      rw [List.mem_filter] at hmem
      split
      · next hp =>
          obtain rfl := hmem.mp ⟨hd, hp⟩
          refine (attemptsOf_update rfl (by simp)).trans (List.map_congr_left fun a ha => ?_)
          simp [Attempt.expire, (mem_attemptsOf.mp ha).2]
      · next hp =>
          refine (attemptsOf_update rfl (by simp)).trans (Table.update_eq_self fun a ha => ?_)
          have hne : d.id ≠ d₀.id := by
            intro hid
            have hd₀ := (List.mem_filter.mp (hf ▸ List.mem_singleton_self d₀)).1
            exact hp (hmem.mpr (Table.eq_of_key hn hd hd₀ hid)).2
          simp [(mem_attemptsOf.mp ha).2, hne]

/-- The write-back closes its own attempt. -/
theorem writeBack_attemptsOf (hn : (st.attempts.map (·.id)).Nodup) {claimed : ClaimedDelivery}
    {result : AttemptOutcome} {random : Jitter} {id : Uuid}
    (ha : IsAttempt st claimed.attemptId claimed.deliveryId claimed.attemptNumber) :
    (writeBack cfg now st claimed result random).attemptsOf id =
      if claimed.deliveryId = id then
        (st.attemptsOf id).map (Attempt.closeIf claimed.attemptId result)
      else st.attemptsOf id := by
  refine (attemptsOf_update rfl (by simp [Attempt.close])).trans ?_
  split
  · refine List.map_congr_left fun a _ => ?_
    simp only [Attempt.closeIf, decide_eq_true_eq]
  · next hid =>
      refine Table.update_eq_self fun a hmem => ?_
      obtain ⟨hin, hof⟩ := mem_attemptsOf.mp hmem
      obtain ⟨a₀, ha₀, hid₀, hdel, -⟩ := ha
      have hne : a.id ≠ claimed.attemptId := by
        intro heq
        obtain rfl : a = a₀ := Table.eq_of_key hn hin ha₀ (heq.trans hid₀.symm)
        exact hid (hdel.symm.trans hof)
      simpa using hne

/-- A worker's step moves each delivery. -/
theorem WorkerMove.delivery (hk : KeyInv s) {st' : Store}
    (h : WorkerMove cfg s.now s.store w (s.pcs w) l st' pc') (hd : d ∈ s.store.deliveries) :
    ∃ d' ∈ st'.deliveries, DeliveryMove cfg s l d d' (st'.attemptsOf d.id) := by
  have hkeep : st'.deliveries = s.store.deliveries → st'.attempts = s.store.attempts →
      ∃ d' ∈ st'.deliveries, DeliveryMove cfg s l d d' (st'.attemptsOf d.id) := by
    intro hdel hatt
    rw [attemptsOf_congr hatt, hdel]
    exact ⟨d, hd, .keep⟩
  have hkw := hk.worker w
  generalize hpc : s.pcs w = pc at h hkw
  cases h with
  | claim hc =>
      obtain ⟨-, -, rfl⟩ := claimEndpoint_some hc
      exact hkeep rfl rfl
  | close hc =>
      rw [(closeOrphans_endpoints hc).2.1]
      rw [closeOrphans_attemptsOf hk.tables.deliveryIds hc hd]
      refine ⟨d, hd, ?_⟩
      split
      · next hp =>
          simp only [Delivery.isInFlightOn, Bool.and_eq_true, decide_eq_true_eq] at hp
          exact .expire rfl hpc hp.1 hp.2
      · exact .keep
  | @requeue c =>
      by_cases hp : d.isInFlightOn c.candidate.id = true
      · refine ⟨_, Table.mem_update_of_pos hd hp, ?_⟩
        simp only [Delivery.isInFlightOn, Bool.and_eq_true, decide_eq_true_eq] at hp
        exact .requeue rfl hpc hp.1 hp.2
      · exact ⟨d, Table.mem_update_of_neg hd (by simpa using hp), .keep⟩
  | @insert c head =>
      refine ⟨d, hd, ?_⟩
      have hof : (insertAttempt s.store s.now head.id (head.attemptCount + 1)).2.attemptsOf d.id =
          s.store.attemptsOf d.id ++
            if head.id = d.id then [head.newAttempt s.now s.store.uuids] else [] := by
        simp only [insertAttempt, Store.attemptsOf, List.filter_append, DeliveryRow.newAttempt,
          List.filter_cons, List.filter_nil, decide_eq_true_eq]
      rw [hof]
      split
      · next hid => exact .insert rfl hpc (OnEndpoint.endpointId_eq hk.tables.deliveryIds hkw hd hid.symm) hid
      · rw [List.append_nil]
        exact .keep
  | @mark c head n attemptId =>
      by_cases hid : d.id = head.id
      · exact ⟨_, Table.mem_update_of_pos hd (by simpa using hid),
          .mark rfl hpc (hkw.1.endpointId_eq hk.tables.deliveryIds hd hid) hid.symm⟩
      · exact ⟨d, Table.mem_update_of_neg hd (by simpa using hid), .keep⟩
  | @complete _ claimed result random fault hpc' =>
      rcases completeDelivery_cases cfg s.now s.store claimed result random fault with
        hc | ⟨-, hc⟩ | ⟨hl, -, hc⟩ <;> rw [hc]
      · exact ⟨d, hd, .keep⟩
      · exact ⟨d, hd, .keep⟩
      · obtain ⟨hon, hatt⟩ := hkw.complete hpc'
        rw [writeBack_attemptsOf hk.tables.attemptIds hatt]
        split
        · next hid =>
            exact ⟨_, Table.mem_update_of_pos hd (by simpa using hid.symm), .resolve _ rfl
              (hpc ▸ hpc') (hon.endpointId_eq hk.tables.deliveryIds hd hid.symm) hid
              (holds_of_currentLease hl)⟩
        · next hid =>
            exact ⟨d, Table.mem_update_of_neg hd (by simpa using fun h => hid h.symm), .keep⟩
  | @commit src rows =>
      rw [attemptsOf_congr (by cases src <;> rfl)]
      refine ⟨d, ?_, .keep⟩
      cases src <;> exact List.mem_append_left _ hd
  | _ => exact hkeep rfl rfl

/-- A delivery after a step is one the step moved, or a new pending one without attempts. -/
theorem step_delivery (hl : LeaseInv cfg s) (hk : KeyInv s) (h : step cfg s l = some s')
    (hd' : d' ∈ s'.store.deliveries) :
    (∃ d ∈ s.store.deliveries, DeliveryMove cfg s l d d' (s'.store.attemptsOf d'.id)) ∨
      (d'.state = .pending ∧ d'.attemptCount = 0) ∧ (∀ d ∈ s.store.deliveries, d.id ≠ d'.id) ∧
        s'.store.attemptsOf d'.id = [] := by
  have hsame : s'.store.deliveries = s.store.deliveries → s'.store.attempts = s.store.attempts →
      ∃ d ∈ s.store.deliveries, DeliveryMove cfg s l d d' (s'.store.attemptsOf d'.id) := by
    intro hdel hatt
    rw [attemptsOf_congr hatt]
    exact ⟨d', hdel ▸ hd', .keep⟩
  cases step_move h with
  | tick _ _ _ store => exact .inl (hsame (by rw [store]) (by rw [store]))
  | api _ _ _ h => exact .inl (hsame h.deliveries h.attempts)
  | worker w _ _ hw =>
      have hk' := (hk.step hl.ids h).tables
      rcases hw.deliveries.mem_cases hd' with ⟨d, hd, hch⟩ | ⟨hr, rfl, src, rows, hpc⟩
      · obtain ⟨d'', hd'', hmove⟩ := hw.delivery hk hd
        obtain rfl : d'' = d' := Table.eq_of_key hk'.deliveryIds hd'' hd'
          (hmove.id_eq.trans hch.id_eq.symm)
        rw [hmove.id_eq]
        exact .inl ⟨d, hd, hmove⟩
      · refine .inr ⟨(hk.rows w).pending d' hr, fun d hd => ((hk.rows w).new d' hr d hd).1, ?_⟩
        refine List.eq_nil_iff_forall_not_mem.mpr fun a ha => ?_
        obtain ⟨ha, hof⟩ := mem_attemptsOf.mp ha
        -- attempts refer to deliveries that were there
        rcases hw.attempts.mem_cases ha with ⟨a₀, ha₀, hch⟩ | ⟨c, head, -, hpc', -⟩
        · obtain ⟨d, hd, hid⟩ := hk.tables.attemptOf a₀ ha₀
          exact ((hk.rows w).new d' hr d hd).1 (by rw [hid, ← hch.deliveryId_eq, hof])
        · rw [hpc] at hpc'
          cases hpc'

/-- Every delivery is moved. -/
theorem step_delivery_of_mem (hl : LeaseInv cfg s) (hk : KeyInv s) (h : step cfg s l = some s')
    (hd : d ∈ s.store.deliveries) :
    ∃ d' ∈ s'.store.deliveries, DeliveryMove cfg s l d d' (s'.store.attemptsOf d'.id) := by
  obtain ⟨d', hd', hid, -⟩ := (step_grows hl.ids h).deliveries d hd
  rcases step_delivery hl hk h hd' with ⟨d₀, hd₀, hmove⟩ | ⟨-, hnew, -⟩
  · obtain rfl : d₀ = d := Table.eq_of_key hk.tables.deliveryIds hd₀ hd (hmove.id_eq.symm.trans hid)
    exact ⟨d', hd', hmove⟩
  · exact absurd hid.symm (hnew d hd)

/-- A delivery moves only in a step of the worker that holds its endpoint's lease. -/
theorem DeliveryMove.mover (h : DeliveryMove cfg s l d d' as)
    (hheld : ClaimsHold s) :
    (d' = d ∧ as = s.store.attemptsOf d.id) ∨ ∃ w leaseId, l.worker = some w ∧
      (s.pcs w).lease = some (d.endpointId, leaseId) ∧ Holds s.store d.endpointId leaseId := by
  cases h with
  | keep => exact .inl ⟨rfl, rfl⟩
  | expire hl hpc endpoint | requeue hl hpc endpoint | insert hl hpc endpoint | mark hl hpc endpoint =>
      rw [hl, endpoint]
      exact .inr ⟨_, _, rfl, by rw [hpc]; rfl, hheld _ _ _ hpc⟩
  | resolve _ hl hpc endpoint _ held =>
      rw [hl, endpoint]
      refine .inr ⟨_, _, rfl, ?_, held⟩
      rcases hpc with hpc | hpc <;> rw [hpc] <;> rfl

/-- While a worker holds the lease, its delivery waits for it. -/
theorem DeliveryMove.eq_of_holds (h : DeliveryMove cfg s l d d' as) (hl : LeaseInv cfg s)
    (hheld : ClaimsHold s)
    (hlease : (s.pcs w).lease = some (d.endpointId, leaseId))
    (hh : Holds s.store d.endpointId leaseId) (hw : l.worker ≠ some w) :
    d' = d ∧ as = s.store.attemptsOf d.id := by
  rcases h.mover hheld with heq | ⟨w', leaseId', hw', hlease', hh'⟩
  · exact heq
  · obtain rfl := hh.unique hl.ids hh'
    exact absurd (by rw [hw', hl.distinct _ _ _ _ _ hlease hlease']) hw

/-! ### What a claim knows of its delivery -/

/-- The attempt is the last one, and it is open. -/
def IsLast (as : List Attempt) (id : Uuid) (n : Nat) : Prop :=
  ∃ as₀ a, as = as₀ ++ [a] ∧ a.id = id ∧ a.attemptNumber = n ∧ a.isOpen = true

/-- What a claim knows before its next statement. -/
def ClaimStep.Knows (d : Delivery) (as : List Attempt) : ClaimStep → Prop
  | .requeue => d.state = .inFlight → ∀ a ∈ as, a.isOpen = false
  | .checkHead (some head) | .insertAttempt head =>
      head.id = d.id → d.state = .pending ∧ head.attemptCount = d.attemptCount
  | .markInFlight head n attemptId =>
      head.id = d.id → d.state = .pending ∧ n = d.attemptCount + 1 ∧ IsLast as attemptId n
  | .finish head n attemptId =>
      head.id = d.id → d.state = .inFlight ∧ n = d.attemptCount ∧ IsLast as attemptId n
  | _ => True

/-- What a worker knows of the delivery its claim is about. -/
def Pc.Knows (d : Delivery) (as : List Attempt) : Pc → Prop
  | .claiming _ next => next.Knows d as
  | .holding claimed | .sent claimed => claimed.deliveryId = d.id → d.state = .inFlight ∧
      claimed.attemptNumber = d.attemptCount ∧ IsLast as claimed.attemptId claimed.attemptNumber
  | _ => True

/-- Every worker that holds its lease knows its delivery. -/
def KnowsInv (s : Sys) : Prop :=
  ∀ d ∈ s.store.deliveries, ∀ w leaseId, (s.pcs w).lease = some (d.endpointId, leaseId) →
    Holds s.store d.endpointId leaseId → (s.pcs w).Knows d (s.store.attemptsOf d.id)

theorem Pc.Knows.complete {claimed : ClaimedDelivery} (h : pc.Knows d as)
    (hpc : pc = .holding claimed ∨ pc = .sent claimed) (hid : claimed.deliveryId = d.id) :
    d.state = .inFlight ∧ claimed.attemptNumber = d.attemptCount ∧
      IsLast as claimed.attemptId claimed.attemptNumber := by
  rcases hpc with rfl | rfl <;> exact h hid

theorem KnowsInv.claim (hk : KnowsInv s) (hheld : ClaimsHold s) (hd : d ∈ s.store.deliveries)
    {c : Claim} {next : ClaimStep} (hpc : s.pcs w = .claiming c next)
    (he : d.endpointId = c.candidate.id) : next.Knows d (s.store.attemptsOf d.id) := by
  have hw := hk d hd w c.leaseId (by rw [hpc, he]; rfl) (he ▸ hheld w c next hpc)
  rw [hpc] at hw
  exact hw

theorem KnowsInv.holder (hk : KnowsInv s) (hd : d ∈ s.store.deliveries) {claimed : ClaimedDelivery}
    (hpc : s.pcs w = .holding claimed ∨ s.pcs w = .sent claimed)
    (he : d.endpointId = claimed.endpointId) (hid : claimed.deliveryId = d.id)
    (held : Holds s.store claimed.endpointId claimed.leaseId) :
    d.state = .inFlight ∧ claimed.attemptNumber = d.attemptCount ∧
      IsLast (s.store.attemptsOf d.id) claimed.attemptId claimed.attemptNumber :=
  (hk d hd w claimed.leaseId (by rcases hpc with hpc | hpc <;> rw [hpc, he] <;> rfl)
    (he ▸ held)).complete hpc hid

/-- A claim is about a delivery that is there. -/
theorem Pc.Knows.of_new (hk : pc.KeyFacts st) (hs : d.state = .pending)
    (hnew : ∀ d₀ ∈ st.deliveries, d₀.id ≠ d.id) : pc.Knows d as := by
  have hon : ∀ {id endpointId : Uuid}, OnEndpoint st id endpointId → id ≠ d.id := by
    rintro id endpointId ⟨d₀, hd₀, hid, -⟩ heq
    exact hnew d₀ hd₀ (hid.trans heq)
  cases pc with
  | claiming c next =>
      cases next with
      | checkHead head =>
          cases head with
          | none => trivial
          | some head => exact fun hid => absurd hid (hon hk)
      | insertAttempt head => exact fun hid => absurd hid (hon hk)
      | requeue => exact fun hs' => by rw [hs] at hs'; cases hs'
      | markInFlight | finish => exact fun hid => absurd hid (hon hk.1)
      | _ => trivial
  | holding | sent => exact fun hid => absurd hid (hon hk.1)
  | _ => trivial

theorem insertAttempt_attemptsOf {now : Time} {head : DeliveryRow} :
    (insertAttempt st now head.id (head.attemptCount + 1)).2.attemptsOf head.id =
      st.attemptsOf head.id ++ [head.newAttempt now st.uuids] := by
  simp [insertAttempt, Store.attemptsOf, DeliveryRow.newAttempt]

theorem Attempt.expire_isOpen {a : Attempt} (h : a.sentAt.isSome = true) :
    a.expire.isOpen = false := by
  simp only [Attempt.expire, h, Bool.true_and]
  split
  · simp [Attempt.isOpen]
  · next hopen => simpa using hopen

/-- A worker's step keeps what it knows. -/
theorem WorkerMove.knows (h : WorkerMove cfg now st w pc l st' pc') (ht : TablesKeyed st)
    (hsent : ∀ a ∈ st.attempts, a.sentAt.isSome = true)
    (hkn : ∀ d ∈ st.deliveries, ∀ leaseId, pc.lease = some (d.endpointId, leaseId) →
      Holds st d.endpointId leaseId → pc.Knows d (st.attemptsOf d.id))
    (hd' : d' ∈ st'.deliveries) (hlease : pc'.lease = some (d'.endpointId, leaseId))
    (hh : Holds st' d'.endpointId leaseId) : pc'.Knows d' (st'.attemptsOf d'.id) := by
  cases h with
  | outside _ _ _ hout => rw [Pc.lease_of_isOutside hout] at hlease; cases hlease
  | @fetch c =>
      cases hf : fetchHead st c.candidate.id with
      | none => trivial
      | some head =>
          intro hid
          obtain ⟨d, hd, ⟨-, hs⟩, hof, -⟩ := fetchHead_eq_some ht.linked hf
          obtain rfl : d = d' := Table.eq_of_key ht.deliveryIds hd hd' (hof.id.symm.trans hid)
          exact ⟨hs, hof.attemptCount⟩
  | @close c _ hc =>
      intro hs a ha
      rw [(closeOrphans_endpoints hc).2.1] at hd'
      have hend : c.candidate.id = d'.endpointId := congrArg Prod.fst (Option.some.inj hlease)
      have hp : d'.isInFlightOn c.candidate.id = true := by simp [Delivery.isInFlightOn, hend, hs]
      rw [closeOrphans_attemptsOf ht.deliveryIds hc hd', if_pos hp] at ha
      obtain ⟨a₀, ha₀, rfl⟩ := List.mem_map.mp ha
      exact Attempt.expire_isOpen (hsent a₀ (mem_attemptsOf.mp ha₀).1)
  | checkDue => exact hkn d' hd' _ hlease hh
  | @insert c head =>
      intro hid
      obtain ⟨hs, hcount⟩ := hkn d' hd' _ hlease hh hid
      rw [← hid, insertAttempt_attemptsOf]
      exact ⟨hs, by rw [hcount], _, _, rfl, rfl, rfl, rfl⟩
  | @mark c head n attemptId =>
      intro hid
      rcases Table.mem_update_cases hd' with ⟨-, hne⟩ | ⟨d, hd, hp, rfl⟩
      · exact absurd hid.symm (of_decide_eq_false hne)
      · obtain ⟨-, -, hlast⟩ := hkn d hd _ hlease hh hid
        exact ⟨rfl, rfl, hlast⟩
  | @finish c _ _ _ claimed hendpoint hleaseId hdelivery hnumber hattempt =>
      have hlease : some (claimed.endpointId, claimed.leaseId) = some (d'.endpointId, leaseId) := hlease
      rw [hendpoint, hleaseId] at hlease
      have hknows := hkn d' hd' leaseId hlease hh
      intro hid
      rw [hnumber, hattempt]
      exact hknows (hdelivery ▸ hid)
  | send => exact hkn d' hd' _ hlease hh
  | _ => trivial

/-- Every attempt has its `sent_at`. -/
theorem step_sentAt (hi : ∀ a ∈ s.store.attempts, a.sentAt.isSome = true)
    (h : step cfg s l = some s') : ∀ a ∈ s'.store.attempts, a.sentAt.isSome = true := by
  cases step_move h with
  | tick _ _ _ store => rw [store]; exact hi
  | api _ _ _ h => rw [h.attempts]; exact hi
  | worker w _ _ h =>
      intro a' ha'
      rcases h.attempts.mem_cases ha' with ⟨a, ha, hch⟩ | ⟨c, head, -, -, -, rfl⟩
      · rw [hch.sentAt_eq]
        exact hi a ha
      · rfl

/-- What is known of a delivery by every worker that holds its lease, when a step of the worker itself
keeps it, stays: nobody else moves the delivery, and a new one is nobody's yet. -/
theorem held_step {P : Time → Delivery → List Attempt → Pc → Prop} (hl : LeaseInv cfg s)
    (hk : KeyInv s) (hheld : ClaimsHold s)
    (hlater : ∀ now now' d as pc, now ≤ now' → P now d as pc → P now' d as pc)
    (hnew : ∀ d as w, d.state = .pending → (∀ d₀ ∈ s.store.deliveries, d₀.id ≠ d.id) →
      P s.now d as (s.pcs w))
    (hown : ∀ w, WorkerMove cfg s.now s.store w (s.pcs w) l s'.store (s'.pcs w) →
      ∀ d' ∈ s'.store.deliveries, ∀ leaseId, (s'.pcs w).lease = some (d'.endpointId, leaseId) →
        Holds s'.store d'.endpointId leaseId →
        P s.now d' (s'.store.attemptsOf d'.id) (s'.pcs w))
    (hi : ∀ d ∈ s.store.deliveries, ∀ w leaseId, (s.pcs w).lease = some (d.endpointId, leaseId) →
      Holds s.store d.endpointId leaseId → P s.now d (s.store.attemptsOf d.id) (s.pcs w))
    (h : step cfg s l = some s') :
    ∀ d' ∈ s'.store.deliveries, ∀ w leaseId, (s'.pcs w).lease = some (d'.endpointId, leaseId) →
      Holds s'.store d'.endpointId leaseId →
      P s'.now d' (s'.store.attemptsOf d'.id) (s'.pcs w) := by
  intro d' hd' w leaseId hlease hh
  have hother : s'.pcs w = s.pcs w → l.worker ≠ some w → (Holds s'.store d'.endpointId leaseId →
      Holds s.store d'.endpointId leaseId) →
      P s.now d' (s'.store.attemptsOf d'.id) (s'.pcs w) := by
    intro hpc hw hback
    rw [hpc] at hlease ⊢
    rcases step_delivery hl hk h hd' with ⟨d, hd, hmove⟩ | ⟨⟨hs, -⟩, hfresh, -⟩
    · have hh' := hback hh
      rw [hmove.endpointId_eq] at hlease hh'
      obtain ⟨rfl, has⟩ := hmove.eq_of_holds hl hheld hlease hh' hw
      rw [has]
      exact hi d' hd w leaseId hlease hh'
    · exact hnew d' _ w hs hfresh
  cases step_move h with
  | tick _ hlab now store pcs =>
      refine hlater s.now s'.now _ _ _ (by rw [now]; exact Nat.le_add_right _ _) ?_
      exact hother (by rw [pcs]) (by rw [hlab]; nofun) (by rw [store]; exact fun h => h)
  | api hlab now pcs hapi =>
      rw [now]
      refine hother (by rw [pcs]) (by rw [hlab]; nofun) fun hh => ?_
      exact hh.before (hapi.endpoints : EndpointsChange s.now .idle _ _)
        ((hl.worker w).lease_lt (by rw [← pcs]; exact hlease))
  | worker w' now pcs hw =>
      rw [now]
      by_cases hww : w = w'
      · subst hww
        exact hown w hw d' hd' leaseId hlease hh
      · have hlab : l.worker ≠ some w := by
          rw [hw.worker_eq]
          exact fun heq => hww (Option.some.inj heq).symm
        exact hother (pcs w hww) hlab fun hh =>
          hh.before (hw.endpoints hl.ids) ((hl.worker w).lease_lt (by rw [← pcs w hww]; exact hlease))

theorem KnowsInv.step (hl : LeaseInv cfg s) (hk : KeyInv s)
    (hsent : ∀ a ∈ s.store.attempts, a.sentAt.isSome = true)
    (hheld : ClaimsHold s)
    (hi : KnowsInv s) (h : step cfg s l = some s') : KnowsInv s' :=
  held_step (P := fun _ d as pc => pc.Knows d as) hl hk hheld (fun _ _ _ _ _ _ h => h)
    (fun _ _ w hs hnew => .of_new (hk.worker w) hs hnew)
    (fun w hw _ hd' _ hlease hh =>
      hw.knows hk.tables hsent (fun d hd leaseId => hi d hd w leaseId) hd' hlease hh) hi h

variable {p : Sys → Label → Prop} [DecidableRel p] {tenants : List Tenant}

theorem sentAt_of_reachable (h : Reachable (step cfg) (.init tenants) s) :
    ∀ a ∈ s.store.attempts, a.sentAt.isSome = true :=
  h.inv (I := fun s => ∀ a ∈ s.store.attempts, a.sentAt.isSome = true) (fun _ ha => by cases ha)
    fun _ _ _ _ hi hs => step_sentAt hi hs

theorem claimsHold_of_timely (hp : ∀ s l, p s l → Timely cfg s l)
    (h : Reachable (restrict p (step cfg)) (.init tenants) s) : ClaimsHold s :=
  fun _ _ _ hpc => holds_of_timely hp h hpc

/-- In timely runs every claim that holds its lease knows its delivery. -/
theorem knows_of_reachable (hp : ∀ s l, p s l → Timely cfg s l)
    (h : Reachable (restrict p (step cfg)) (.init tenants) s) : KnowsInv s :=
  h.inv (I := KnowsInv) (fun _ hd => by cases hd) fun _ _ _ hr hi hs =>
    hi.step (leaseInv_of_reachable hr.of_restrict) (keyInv_of_reachable hr.of_restrict)
      (sentAt_of_reachable hr.of_restrict) (claimsHold_of_timely hp hr) (restrict_eq_some.mp hs).2

/-! ### The write-back of the last attempt -/

theorem attemptsOf_nodup (ht : TablesKeyed st) (id : Uuid) :
    ((st.attemptsOf id).map (·.id)).Nodup :=
  (List.filter_sublist.map _).nodup ht.attemptIds

/-- The write-back of the last attempt leaves the others. -/
theorem IsLast.map_closeIf {id : Uuid} {n : Nat} (h : IsLast as id n) (hn : (as.map (·.id)).Nodup)
    (r : AttemptOutcome) : ∃ as₀ a, as = as₀ ++ [a] ∧ a.attemptNumber = n ∧ a.isOpen = true ∧
      as.map (Attempt.closeIf id r) = as₀ ++ [a.close r] := by
  obtain ⟨as₀, a, rfl, rfl, hnum, hopen⟩ := h
  refine ⟨as₀, a, rfl, hnum, hopen, ?_⟩
  rw [List.map_append, List.map_singleton, List.nodup_append] at hn
  have hne : ∀ b ∈ as₀, b.id ≠ a.id := fun b hb heq =>
    hn.2.2 b.id (List.mem_map_of_mem hb) a.id (List.mem_singleton_self _) heq
  rw [List.map_append, List.map_singleton, Attempt.closeIf, if_pos rfl]
  congr 1
  exact (List.map_congr_left fun b hb => if_neg (hne b hb)).trans (List.map_id _)

end

end Webhooks
