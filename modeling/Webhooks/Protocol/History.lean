import Webhooks.Protocol.Attempts

/-!
# Protocol — History

The numbers of a delivery's attempts, in timely runs in which no worker dies between the `INSERT` of
an attempt and the update that counts it.

* `Exact`: the attempts are numbered `1, 2, …, attempt_count`, and only the last one of an in-flight
  delivery is open.
* `HistoryInv`, **`history_of_reachable`**: so it is of every delivery, but for the attempt a claim
  has inserted and not counted yet.
-/

namespace Webhooks

open Lib

/-- Attempts numbered `1, 2, …, attempt_count`, with none open but the last one while the delivery
is in flight. -/
structure Exact (d : Delivery) (as : List Attempt) : Prop where
  numbers : as.map (·.attemptNumber) = List.range' 1 d.attemptCount
  opened : ∀ a ∈ as, a.isOpen = true → d.state = .inFlight ∧ a.attemptNumber = d.attemptCount

/-- A claim has inserted an attempt of the delivery, and not counted it yet. -/
def InGap (s : Sys) (w : WorkerId) (id : Uuid) : Prop :=
  ∃ c head n attemptId, s.pcs w = .claiming c (.markInFlight head n attemptId) ∧ head.id = id

/-- No worker dies between the `INSERT` of an attempt and its `in_flight` update. -/
def DiesOutsideGap (s : Sys) : Label → Prop
  | .die w => match s.pcs w with
    | .claiming _ (.markInFlight ..) => False
    | _ => True
  | _ => True

instance : DecidableRel DiesOutsideGap := fun s l =>
  decidable_of_bool (match l with
    | .die w => match s.pcs w with
      | .claiming _ (.markInFlight ..) => false
      | _ => true
    | _ => true) (by
      unfold DiesOutsideGap
      cases l with
      | die w =>
          dsimp only
          split <;> simp
      | _ => exact iff_of_true rfl trivial)

def HistoryInv (s : Sys) : Prop :=
  ∀ d ∈ s.store.deliveries, Exact d (s.store.attemptsOf d.id) ∨
    ∃ w as₀ a, InGap s w d.id ∧ s.store.attemptsOf d.id = as₀ ++ [a] ∧ Exact d as₀

section

variable {cfg : Config} {s s' : Sys} {l : Label} {d d' : Delivery} {as as₀ : List Attempt}
  {a : Attempt} {w : WorkerId}

/-! ### Lists of attempts -/

theorem Exact.length_eq (h : Exact d as) : as.length = d.attemptCount := by
  rw [← List.length_map (·.attemptNumber), h.numbers, List.length_range']

theorem Exact.closed (h : Exact d as) (hs : d.state ≠ .inFlight) : ∀ a ∈ as, a.isOpen = false := by
  intro a ha
  cases hopen : a.isOpen with
  | false => rfl
  | true => exact absurd (h.opened a ha hopen).1 hs

/-- The last attempt has the highest number, and the ones before are closed. -/
theorem Exact.of_concat (h : Exact d (as₀ ++ [a])) :
    a.attemptNumber = d.attemptCount ∧ as₀.map (·.attemptNumber) = List.range' 1 as₀.length ∧
      ∀ b ∈ as₀, b.isOpen = false := by
  have hlen := h.length_eq
  rw [List.length_append, List.length_singleton] at hlen
  have hnum := h.numbers
  rw [← hlen, List.map_append, List.map_singleton, List.range'_1_concat] at hnum
  obtain ⟨h₀, h₁⟩ := List.append_inj' hnum rfl
  have ha : a.attemptNumber = 1 + as₀.length := List.singleton_injective h₁
  refine ⟨by omega, h₀, fun b hb => ?_⟩
  cases hopen : b.isOpen with
  | false => rfl
  | true =>
      have hb' := List.mem_map_of_mem (f := fun b : Attempt => b.attemptNumber) hb
      rw [h₀, List.mem_range'_1] at hb'
      have := (h.opened b (List.mem_append_left _ hb) hopen).2
      omega

/-- Closing attempts keeps their numbers. -/
theorem Exact.map_closed {f : Attempt → Attempt} (h : Exact d as)
    (hnum : ∀ a, (f a).attemptNumber = a.attemptNumber)
    (hopen : ∀ a, (f a).isOpen = true → a.isOpen = true) : Exact d (as.map f) := by
  refine ⟨?_, fun a' ha' ho => ?_⟩
  · rw [List.map_map, ← h.numbers]
    exact List.map_congr_left fun a _ => hnum a
  · obtain ⟨a, ha, rfl⟩ := List.mem_map.mp ha'
    rw [hnum]
    exact h.opened a ha (hopen a ho)

/-- One more attempt, counted and in flight. -/
theorem Exact.concat (h : Exact d as) (hs : d.state ≠ .inFlight)
    (hnum : a.attemptNumber = d.attemptCount + 1) :
    Exact { d with state := .inFlight, attemptCount := d.attemptCount + 1 } (as ++ [a]) := by
  refine ⟨?_, fun b hb ho => ⟨rfl, ?_⟩⟩
  · rw [List.map_append, List.map_singleton, h.numbers, List.range'_1_concat, hnum, Nat.add_comm 1]
  · rcases List.mem_append.mp hb with hb | hb
    · rw [h.closed hs b hb] at ho
      cases ho
    · rw [List.mem_singleton.mp hb]
      exact hnum

theorem Attempt.expire_number (a : Attempt) : a.expire.attemptNumber = a.attemptNumber := by
  simp only [Attempt.expire]
  split <;> rfl

theorem Attempt.expire_isOpen_imp {a : Attempt} (h : a.expire.isOpen = true) : a.isOpen = true := by
  simp only [Attempt.expire] at h
  split at h
  · simp [Attempt.isOpen] at h
  · exact h

theorem Attempt.close_isOpen (a : Attempt) (r : AttemptOutcome) : (a.close r).isOpen = false := by
  have := r.settled
  cases hst : r.responseStatus <;> simp_all [Attempt.isOpen, Attempt.close]

/-- The write-back of the last attempt closes it. -/
theorem Exact.resolve {claimed : ClaimedDelivery} {result : AttemptOutcome} {retryAt : Time}
    (h : Exact d as) (hn : (as.map (·.id)).Nodup)
    (hlast : IsLast as claimed.attemptId claimed.attemptNumber) :
    Exact (d.resolve (resolution cfg claimed result) retryAt)
      (as.map (Attempt.closeIf claimed.attemptId result)) := by
  obtain ⟨as₀, a, rfl, -, -, hmap⟩ := hlast.map_closeIf hn result
  refine ⟨?_, fun b hb ho => ?_⟩
  · rw [(Delivery.resolve_identity ..).2.2.2.2, ← h.numbers, hmap, List.map_append, List.map_append]
    rfl
  · rw [hmap] at hb
    rcases List.mem_append.mp hb with hb | hb
    · rw [h.of_concat.2.2 b hb] at ho
      cases ho
    · rw [List.mem_singleton.mp hb, Attempt.close_isOpen] at ho
      cases ho

/-! ### Every run -/

/-- After the `INSERT` its claim is in the gap. -/
theorem inGap_of_insert {c : Claim} {head : DeliveryRow}
    (hpc : s.pcs w = .claiming c (.insertAttempt head)) (h : step cfg s (.step w) = some s') :
    InGap s' w head.id := by
  simp only [step, workerStep, hpc, claimStep] at h
  cases h
  exact ⟨c, head, _, _, Sys.setPc_pcs_self _, rfl⟩

/-- What a claim in the gap knows: its attempt is the last one, with the next number. -/
theorem InGap.knows (hg : InGap s w d.id) (hk : KeyInv s) (hkn : KnowsInv s)
    (hheld : ClaimsHold s)
    (hd : d ∈ s.store.deliveries) :
    d.state = .pending ∧ (∃ leaseId, (s.pcs w).lease = some (d.endpointId, leaseId) ∧
      Holds s.store d.endpointId leaseId) ∧
      ∃ c head attemptId, s.pcs w = .claiming c (.markInFlight head (d.attemptCount + 1) attemptId) ∧
        head.id = d.id ∧ IsLast (s.store.attemptsOf d.id) attemptId (d.attemptCount + 1) := by
  obtain ⟨c, head, n, attemptId, hpc, hid⟩ := hg
  have hkw := hk.worker w
  rw [hpc] at hkw
  have he := hkw.1.endpointId_eq hk.tables.deliveryIds hd hid.symm
  have hh : Holds s.store d.endpointId c.leaseId := he ▸ hheld w c _ hpc
  have hlease : (s.pcs w).lease = some (d.endpointId, c.leaseId) := by rw [hpc, he]; rfl
  have hw := hkn d hd w c.leaseId hlease hh
  rw [hpc] at hw
  obtain ⟨hs, rfl, hlast⟩ := hw hid
  exact ⟨hs, ⟨c.leaseId, hlease, hh⟩, c, head, attemptId, hpc, hid, hlast⟩

/-- The claim in the gap goes on with its `in_flight` update. -/
theorem step_of_gap {c : Claim} {head : DeliveryRow} {n : Nat} {attemptId : Uuid}
    (hpc : s.pcs w = .claiming c (.markInFlight head n attemptId)) (hl : l.worker = some w)
    (hd : DiesOutsideGap s l) (h : step cfg s l = some s') :
    s'.store = markInFlight s.store head.id n := by
  cases step_move h with
  | tick _ hlab => rw [hlab] at hl; cases hl
  | api hlab => rw [hlab] at hl; cases hl
  | worker w' _ _ hw =>
      obtain rfl : w' = w := Option.some.inj (hw.worker_eq.symm.trans hl)
      rw [hpc] at hw
      generalize s'.pcs w' = pc' at hw
      generalize s'.store = st' at hw
      cases hw with
      | outside _ lease => cases lease
      | mark => rfl
      | complete hpc' => rcases hpc' with hpc' | hpc' <;> cases hpc'
      | die => simp only [DiesOutsideGap, hpc] at hd

theorem HistoryInv.step (hl : LeaseInv cfg s) (hk : KeyInv s) (hkn : KnowsInv s)
    (hheld : ClaimsHold s)
    (hdie : DiesOutsideGap s l) (hi : HistoryInv s) (h : Webhooks.step cfg s l = some s') :
    HistoryInv s' := by
  intro d' hd'
  rcases step_delivery hl hk h hd' with ⟨d, hd, hmove⟩ | ⟨⟨-, hcount⟩, -, has⟩
  case inr =>
      rw [has]
      exact .inl ⟨by rw [hcount]; rfl, nofun⟩
  rcases hi d hd with hexact | ⟨w, as₀, a, hgap, has, hexact⟩
  · have hid := hmove.id_eq
    generalize s'.store.attemptsOf d'.id = as' at hmove ⊢
    cases hmove with
    | keep => exact .inl hexact
    | expire => exact .inl (hexact.map_closed Attempt.expire_number fun _ => Attempt.expire_isOpen_imp)
    | requeue hlab hpc endpoint state =>
        -- the reclaim has closed the attempts before
        have hclosed := hkn.claim hheld hd hpc endpoint state
        refine .inl ⟨hexact.numbers, fun a ha ho => ?_⟩
        rw [hclosed a ha] at ho
        cases ho
    | insert hlab hpc endpoint id =>
        subst hlab
        exact .inr ⟨_, _, _, id ▸ inGap_of_insert hpc h, rfl, hexact⟩
    | mark hlab hpc endpoint id =>
        -- its attempt would have a number that is not there
        obtain ⟨-, rfl, as₁, b, has, -, hnum, -⟩ := hkn.claim hheld hd hpc endpoint id
        rw [has] at hexact
        have := hexact.of_concat.1
        omega
    | @resolve w claimed result random fault retryAt hlab hpc endpoint id held =>
        exact .inl (hexact.resolve (attemptsOf_nodup hk.tables d.id)
          (hkn.holder hd hpc endpoint id held).2.2)
  · obtain ⟨hs, ⟨leaseId, hlease, hh⟩, c, head, attemptId, hpc, hid, as₁, b, has₁, -, hnum, -⟩ :=
      hgap.knows hk hkn hheld hd
    by_cases hw : l.worker = some w
    · -- the attempt is counted
      have hst := step_of_gap hpc hw hdie h
      rw [hst] at hd' ⊢
      obtain ⟨rfl, hab⟩ := List.append_inj' (has.symm.trans has₁) rfl
      obtain rfl := List.singleton_injective hab
      rcases Table.mem_update_cases hd' with ⟨-, hne⟩ | ⟨d₀, hd₀, hp, rfl⟩
      · exact absurd (hmove.id_eq.trans hid.symm) (of_decide_eq_false hne)
      · obtain rfl : d₀ = d := Table.eq_of_key hk.tables.deliveryIds hd₀ hd hmove.id_eq
        refine .inl ?_
        show Exact _ (s.store.attemptsOf d₀.id)
        rw [has]
        exact hexact.concat (by rw [hs]; decide) hnum
    · -- everybody else waits for it
      obtain ⟨rfl, heq⟩ := hmove.eq_of_holds hl hheld hlease hh hw
      have hsame : s'.pcs w = s.pcs w := by
        cases step_move h with
        | tick _ _ _ _ pcs | api _ _ pcs => rw [pcs]
        | worker w' _ pcs hm => exact pcs w fun hww => hw (hww ▸ hm.worker_eq)
      exact .inr ⟨w, as₀, a, ⟨c, head, _, attemptId, hsame.trans hpc, hid⟩, heq.trans has, hexact⟩

variable {p : Sys → Label → Prop} [DecidableRel p] {tenants : List Tenant}

/-- In timely runs without deaths in the gap, the attempts of every delivery are numbered exactly. -/
theorem history_of_reachable (hp : ∀ s l, p s l → Timely cfg s l)
    (hdie : ∀ s l, p s l → DiesOutsideGap s l)
    (h : Reachable (restrict p (step cfg)) (.init tenants) s) : HistoryInv s :=
  h.inv (I := HistoryInv) (fun _ hd => by cases hd) fun s₁ l s₂ hr hi hs => by
    obtain ⟨hl, hs⟩ := restrict_eq_some.mp hs
    exact hi.step (leaseInv_of_reachable hr.of_restrict) (keyInv_of_reachable hr.of_restrict)
      (knows_of_reachable hp hr) (claimsHold_of_timely hp hr) (hdie s₁ l hl) hs

end

end Webhooks
