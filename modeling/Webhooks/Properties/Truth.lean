import Webhooks.Protocol.Attempts

/-!
# Properties — Truth

A delivery's state tells the truth about its attempts: `succeeded` means that the last attempt, and
only it, has a recorded `2xx`; `failed` that none has, and that the last one reached the ceiling.

* `TellsTruth`: the law, for one delivery and its attempts; `DeliveryMove.tellsTruth`: a step
  keeps it.
* **`tells_truth`**: in every timely run, replays and deaths included.  After a `2xx` no claim
  returns the delivery; a request is issued only by a worker that has lost its lease since.
* `late_request`: such a request.
-/

namespace Webhooks

open Lib

/-- A recorded outcome: a response, or an error class other than the reclaim's. -/
def Attempt.isSettled (a : Attempt) : Bool :=
  a.responseStatus.isSome || a.errorClass.any fun c => c ≠ .workerLeaseExpired

/-- What a delivery's state says about its attempts. -/
def TellsTruth (cfg : Config) (d : Delivery) (as : List Attempt) : Prop :=
  match d.state with
  | .pending | .inFlight => ∀ a ∈ as, a.is2xx = false
  | .succeeded => ∃ as₀ a, as = as₀ ++ [a] ∧ a.is2xx = true ∧ ∀ b ∈ as₀, b.is2xx = false
  | .failed => (∀ a ∈ as, a.is2xx = false) ∧ ∃ as₀ a, as = as₀ ++ [a] ∧
      cfg.backoff.maxAttempts ≤ a.attemptNumber ∧ a.isSettled = true

section

variable {cfg : Config} {s s' : Sys} {l : Label} {d d' : Delivery} {as : List Attempt}
  {tenants : List Tenant}

theorem TellsTruth.of_unresolved (h : d.state.isTerminal = false)
    (has : ∀ a ∈ as, a.is2xx = false) : TellsTruth cfg d as := by
  simp only [TellsTruth]
  cases hs : d.state with
  | pending | inFlight => exact has
  | succeeded | failed => rw [hs] at h; cases h

theorem TellsTruth.unresolved (h : TellsTruth cfg d as) (hs : d.state.isTerminal = false) :
    ∀ a ∈ as, a.is2xx = false := by
  simp only [TellsTruth] at h
  cases hst : d.state with
  | pending | inFlight =>
      rw [hst] at h
      exact h
  | succeeded | failed => rw [hst] at hs; cases hs

theorem Attempt.expire_is2xx (a : Attempt) : a.expire.is2xx = a.is2xx := by
  simp only [Attempt.expire]
  split <;> rfl

theorem Attempt.close_is2xx (a : Attempt) (r : AttemptOutcome) :
    (a.close r).is2xx = r.isSuccess := rfl

theorem Attempt.close_isSettled (a : Attempt) (r : AttemptOutcome) :
    (a.close r).isSettled = true := by
  have hsettled := r.settled
  have hclass := r.notExpired
  simp only [Attempt.isSettled, Attempt.close]
  rcases hst : r.responseStatus with _ | n
  · rw [hst] at hsettled
    rcases hec : r.errorClass with _ | c
    · rw [hec] at hsettled
      cases hsettled
    · rw [hec] at hclass
      simpa using fun h => hclass (congrArg some h)
  · rfl

/-- The write-back of the last attempt of an unresolved delivery tells the truth. -/
theorem TellsTruth.resolve {claimed : ClaimedDelivery} {result : AttemptOutcome} {retryAt : Time}
    (has : ∀ a ∈ as, a.is2xx = false) (hn : (as.map (·.id)).Nodup)
    (hlast : IsLast as claimed.attemptId claimed.attemptNumber) :
    TellsTruth cfg (d.resolve (resolution cfg claimed result) retryAt)
      (as.map (Attempt.closeIf claimed.attemptId result)) := by
  obtain ⟨as₀, a, rfl, hnum, -, hmap⟩ := hlast.map_closeIf hn result
  have has₀ : ∀ b ∈ as₀, b.is2xx = false := fun b hb => has b (List.mem_append_left _ hb)
  have hall : result.isSuccess = false → ∀ b ∈ as₀ ++ [a.close result], b.is2xx = false := by
    intro hsucc b hb
    rcases List.mem_append.mp hb with hb | hb
    · exact has₀ b hb
    · rw [List.mem_singleton.mp hb, Attempt.close_is2xx, hsucc]
  rw [hmap]
  simp only [resolution]
  cases hsucc : result.isSuccess with
  | true => exact ⟨as₀, _, rfl, hsucc, has₀⟩
  | false =>
      by_cases hmax : cfg.backoff.maxAttempts ≤ claimed.attemptNumber
      · rw [if_neg (by simp), if_pos hmax]
        exact ⟨hall hsucc, as₀, _, rfl, hnum.symm ▸ hmax, a.close_isSettled result⟩
      · rw [if_neg (by simp), if_neg hmax]
        exact hall hsucc

/-- A step keeps the law. -/
theorem DeliveryMove.tellsTruth (h : DeliveryMove cfg s l d d' as) (ht : TablesKeyed s.store)
    (hheld : ClaimsHold s)
    (hk : KnowsInv s) (hd : d ∈ s.store.deliveries)
    (hi : TellsTruth cfg d (s.store.attemptsOf d.id)) : TellsTruth cfg d' as := by
  cases h with
  | keep => exact hi
  | expire hl hpc endpoint state =>
      refine .of_unresolved (by rw [state]; rfl) fun a' ha' => ?_
      obtain ⟨a, ha, rfl⟩ := List.mem_map.mp ha'
      rw [Attempt.expire_is2xx]
      exact hi.unresolved (by rw [state]; rfl) a ha
  | requeue hl hpc endpoint state =>
      exact hi.unresolved (by rw [state]; rfl)
  | insert hl hpc endpoint id =>
      obtain ⟨hs, -⟩ := hk.claim hheld hd hpc endpoint id
      refine .of_unresolved (by rw [hs]; rfl) fun a ha => ?_
      rcases List.mem_append.mp ha with ha | ha
      · exact hi.unresolved (by rw [hs]; rfl) a ha
      · rw [List.mem_singleton.mp ha]
        rfl
  | mark hl hpc endpoint id =>
      obtain ⟨hs, -⟩ := hk.claim hheld hd hpc endpoint id
      exact hi.unresolved (by rw [hs]; rfl)
  | @resolve w claimed result random fault retryAt hl hpc endpoint id held =>
      obtain ⟨hs, -, hlast⟩ := hk.holder hd hpc endpoint id held
      exact .resolve (hi.unresolved (by rw [hs]; rfl)) (attemptsOf_nodup ht d.id) hlast

variable {p : Sys → Label → Prop} [DecidableRel p]

/-- Every delivery tells the truth, in every timely run. -/
theorem tellsTruth_of_reachable (hp : ∀ s l, p s l → Timely cfg s l)
    (h : Reachable (restrict p (step cfg)) (.init tenants) s) :
    ∀ d ∈ s.store.deliveries, TellsTruth cfg d (s.store.attemptsOf d.id) :=
  h.inv (I := fun s => ∀ d ∈ s.store.deliveries, TellsTruth cfg d (s.store.attemptsOf d.id))
    (fun _ hd => by cases hd) fun s₁ l s₂ hr hi hs d' hd' => by
      have hk := keyInv_of_reachable hr.of_restrict
      rcases step_delivery (leaseInv_of_reachable hr.of_restrict) hk (restrict_eq_some.mp hs).2 hd' with
        ⟨d, hd, hmove⟩ | ⟨⟨hst, -⟩, -, has⟩
      · exact hmove.tellsTruth hk.tables (claimsHold_of_timely hp hr) (knows_of_reachable hp hr) hd
          (hi d hd)
      · rw [has]
        exact .of_unresolved (by rw [hst]; rfl) nofun

/-! ### Requests after a success -/

/-- A worker comes to hold a delivery at the end of its claim. -/
theorem WorkerMove.holding_of {now : Time} {st st' : Store} {w : WorkerId} {pc : Pc}
    {claimed : ClaimedDelivery} (h : WorkerMove cfg now st w pc l st' (.holding claimed)) :
    ∃ c head n attemptId, pc = .claiming c (.finish head n attemptId) ∧
      claimed.deliveryId = head.id ∧ claimed.endpointId = c.candidate.id := by
  cases h with
  | outside _ _ _ hout => cases hout
  | finish endpointId _ deliveryId => exact ⟨_, _, _, _, rfl, deliveryId, endpointId⟩

/-- No claim that holds its lease is about a terminal delivery. -/
theorem KnowsInv.not_terminal (hk : KnowsInv s) (hkeys : KeyInv s) {w : WorkerId}
    (hd : d ∈ s.store.deliveries) (ht : d.state.isTerminal = true) :
    (∀ claimed, s.pcs w = .holding claimed → claimed.deliveryId = d.id →
      ¬ Holds s.store claimed.endpointId claimed.leaseId) ∧
    ∀ c head n attemptId, s.pcs w = .claiming c (.finish head n attemptId) → head.id = d.id →
      ¬ Holds s.store c.candidate.id c.leaseId := by
  have hkw := hkeys.worker w
  refine ⟨fun claimed hpc hid hh => ?_, fun c head n attemptId hpc hid hh => ?_⟩ <;>
    rw [hpc] at hkw
  · have he := hkw.1.endpointId_eq hkeys.tables.deliveryIds hd hid.symm
    rw [(hk.holder hd (.inl hpc) he hid hh).1] at ht
    cases ht
  · have he := hkw.1.endpointId_eq hkeys.tables.deliveryIds hd hid.symm
    have hw := hk d hd w c.leaseId (by rw [hpc, he]; rfl) (he ▸ hh)
    rw [hpc] at hw
    rw [(hw hid).1] at ht
    cases ht

/-- After a delivery has become terminal nobody comes to hold it. -/
theorem holding_of_terminal (h : Reachable (restrict (Timely cfg) (step cfg)) (.init tenants) s)
    (hd : d ∈ s.store.deliveries) (ht : d.state.isTerminal = true)
    (h' : Reachable (restrict (Timely cfg) (step cfg)) s s') {w : WorkerId}
    {claimed : ClaimedDelivery} (hpc : s'.pcs w = .holding claimed) (hid : claimed.deliveryId = d.id) :
    s.pcs w = .holding claimed := by
  revert hpc
  refine h'.inv (I := fun s' => s'.pcs w = .holding claimed → s.pcs w = .holding claimed)
    (fun hpc => hpc) fun s₁ l s₂ hr hi hs hpc => ?_
  have hr₁ := h.trans hr
  cases step_move (restrict_eq_some.mp hs).2 with
  | tick _ _ _ _ pcs | api _ _ pcs => exact hi (by rw [← pcs]; exact hpc)
  | worker w' _ pcs hw =>
      by_cases hww : w = w'
      · subst hww
        rw [hpc] at hw
        obtain ⟨c, head, n, attemptId, hpc₁, hdel, -⟩ := hw.holding_of
        have hd₁ := (terminal_of_reachable
          (fun _ hr l _ => fenced_of_timely (fun _ _ hp => hp) hr _ l) h hd ht hr).1
        exact absurd (holds_of_timely (fun _ _ hp => hp) hr₁ hpc₁)
          (((knows_of_reachable (fun _ _ hp => hp) hr₁).not_terminal
            (keyInv_of_reachable hr₁.of_restrict) hd₁ ht).2 c head n attemptId hpc₁ (hdel ▸ hid))
      · exact hi (by rw [← pcs w hww]; exact hpc)

/-- In every state of every timely run, replays and deaths included: a delivery is succeeded if and
only if an attempt of it has a recorded `2xx`, and its state tells the truth about its attempts.
After the `2xx` it gets no further attempt, and a request for it is issued only by a worker whose
claim had returned it before, and that has lost its lease. -/
theorem tells_truth (h : Reachable (restrict (Timely cfg) (step cfg)) (.init tenants) s)
    (hd : d ∈ s.store.deliveries) :
    (d.state = .succeeded ↔ ∃ a ∈ s.store.attemptsOf d.id, a.is2xx = true) ∧
    TellsTruth cfg d (s.store.attemptsOf d.id) ∧
    ((∃ a ∈ s.store.attemptsOf d.id, a.is2xx = true) →
      ∀ s', Reachable (restrict (Timely cfg) (step cfg)) s s' →
        (s'.store.attemptsOf d.id).map (·.id) = (s.store.attemptsOf d.id).map (·.id) ∧
        ∀ w claimed s'', step cfg s' (.send w) = some s'' → s''.pcs w = .sent claimed →
          claimed.deliveryId = d.id →
          s.pcs w = .holding claimed ∧ ¬ Holds s'.store claimed.endpointId claimed.leaseId) := by
  have htruth := tellsTruth_of_reachable (fun _ _ hp => hp) h d hd
  have hsucc : (∃ a ∈ s.store.attemptsOf d.id, a.is2xx = true) → d.state = .succeeded := by
    rintro ⟨a, ha, h2xx⟩
    cases hs : d.state with
    | succeeded => rfl
    | pending | inFlight =>
        rw [htruth.unresolved (by rw [hs]; rfl) a ha] at h2xx
        cases h2xx
    | failed =>
        simp only [TellsTruth, hs] at htruth
        rw [htruth.1 a ha] at h2xx
        cases h2xx
  refine ⟨⟨fun hs => ?_, hsucc⟩, htruth, fun h2xx s' hr => ?_⟩
  · simp only [TellsTruth, hs] at htruth
    obtain ⟨as₀, a, has, h2xx, -⟩ := htruth
    exact ⟨a, by rw [has]; exact List.mem_append_right _ (List.mem_singleton_self _), h2xx⟩
  · have ht : d.state.isTerminal = true := by rw [hsucc h2xx]; rfl
    obtain ⟨hd', hids⟩ := terminal_of_reachable
      (fun _ hr l _ => fenced_of_timely (fun _ _ hp => hp) hr _ l) h hd ht hr
    refine ⟨hids, fun w claimed s'' hs hpc hid => ?_⟩
    have hpc' := holding_of_send hs hpc
    have hr' := h.trans hr
    exact ⟨holding_of_terminal h hd ht hr hpc' hid,
      ((knows_of_reachable (fun _ _ hp => hp) hr').not_terminal
        (keyInv_of_reachable hr'.of_restrict) hd' ht).1 claimed hpc' hid⟩

end

/-! ### A holder that sleeps past its lease -/

open Sample

/-- Worker 1 holds the delivery and sleeps past its lease; worker 2 takes it over and delivers. -/
def sleepBeforeSend : List Label :=
  register :: publish 0 "k" ++ expand ++ claim 1 none 7 ++ [.tick 11] ++
    claim 2 (some (0, 3)) 9 ++ deliver 2 200

theorem tells_truth_sample : ∃ s d, Reachable (restrict (Timely config) (step config)) start s ∧
    d ∈ s.store.deliveries ∧ d.state = .succeeded ∧
    ∃ as₀ a, s.store.attemptsOf d.id = as₀ ++ [a] ∧ a.is2xx = true ∧ ∀ b ∈ as₀, b.is2xx = false := by
  obtain ⟨s, hs, hp⟩ := exists_of_run (restrict (TimelyAmong config [0, 1, 2]) (step config)) start
    sleepBeforeSend (fun s => s.store.deliveries.any fun d => d.state = .succeeded) (by decide)
  obtain ⟨d, hd, hsucc⟩ := List.any_eq_true.mp hp
  have hsucc := of_decide_eq_true hsucc
  have hr := timely_of_timelyAmong (fun _ _ => rfl) (fun _ _ h => h) (fun _ _ h _ => h) (.of_run hs)
  have htruth := (tells_truth hr hd).2.1
  simp only [TellsTruth, hsucc] at htruth
  exact ⟨s, d, hr, hd, hsucc, htruth⟩

/-- Worker 1 wakes up and sends its request, after the success was recorded. -/
theorem late_request : ∃ s s' claimed a,
    Reachable (restrict (Timely config) (step config)) start s ∧
    a ∈ s.store.attemptsOf claimed.deliveryId ∧ a.is2xx = true ∧
    restrict (Timely config) (step config) s (.send 1) = some s' ∧ s'.pcs 1 = .sent claimed := by
  obtain ⟨s, s', hs, hs', hp⟩ := exists_of_runs
    (restrict (TimelyAmong config [0, 1, 2]) (step config)) start sleepBeforeSend [.send 1]
    (fun s s' => s'.pcs 1 = .sent claimed &&
      (s.store.attemptsOf claimed.deliveryId).any Attempt.is2xx) (by decide)
  obtain ⟨hpc, ha⟩ := Bool.and_eq_true_iff.mp hp
  obtain ⟨a, ha, h2xx⟩ := List.any_eq_true.mp ha
  rw [run_singleton] at hs'
  exact ⟨s, s', claimed, a,
    timely_of_timelyAmong (fun _ _ => rfl) (fun _ _ h => h) (fun _ _ h _ => h) (.of_run hs), ha, h2xx,
    restrict_eq_some.mpr ⟨trivial, (restrict_eq_some.mp hs').2⟩, of_decide_eq_true hpc⟩

end Webhooks
