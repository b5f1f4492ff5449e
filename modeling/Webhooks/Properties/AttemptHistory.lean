import Webhooks.Protocol.History

/-!
# Properties — Attempt history

The attempts of a delivery are numbered `1, 2, …, attempt_count`, none is left open but the one in
flight, and the claim that takes an endpoint over closes what was left open there, as long as no
worker dies between the `INSERT` of an attempt and the update that counts it.

* `closed_by_takeover`: what a claim finds open is `worker_lease_expired` once it is past its reclaim.
* **`attempts_exact`**: in every timely run without such deaths.
* `attempt_repeated`: after such a death the next claim gives the same number again, and the first
  attempt stays open for good.
-/

namespace Webhooks

open Lib

/-- No claim outlives its lease, and no worker dies between the `INSERT` of an attempt and its
`in_flight` update. -/
def TimelyUncut (cfg : Config) (s : Sys) (l : Label) : Prop := Timely cfg s l ∧ DiesOutsideGap s l

noncomputable instance (cfg : Config) : DecidableRel (TimelyUncut cfg) := fun _ _ =>
  Classical.propDecidable _

/-- The claim is past the statement that closes what its predecessor left open. -/
def ClaimStep.hasClosed : ClaimStep → Bool
  | .touchTenant | .closeOrphans => false
  | _ => true

/-- The reclaim's outcome is recorded. -/
def Attempt.IsExpired (a : Attempt) : Prop :=
  a.errorClass = some .workerLeaseExpired ∧ a.responseStatus = none

section

variable {cfg : Config} {s s' s₁ s₂ : Sys} {l : Label} {d d' : Delivery} {a a' : Attempt}
  {w : WorkerId} {c : Claim} {next : ClaimStep} {tenants : List Tenant}

theorem Attempt.expire_isExpired (hs : a.sentAt.isSome = true) (ho : a.isOpen = true) :
    a.expire.IsExpired := by
  have hnone : a.responseStatus = none := by
    simp only [Attempt.isOpen, Bool.and_eq_true, Option.isNone_iff_eq_none] at ho
    exact ho.1
  simp only [Attempt.expire, hs, ho, Bool.and_self, if_true]
  exact ⟨rfl, hnone⟩

theorem Attempt.expire_id (a : Attempt) : a.expire.id = a.id := by
  simp only [Attempt.expire]
  split <;> rfl

/-- A statement of a claim leaves a closed attempt as it is. -/
theorem Attempt.Change.eq_of_closed {st : Store} (h : a.Change st w (.claiming c next) l a')
    (ha : a.isOpen = false) : a' = a := by
  cases h with
  | keep => rfl
  | expired _ _ _ _ _ _ isOpen => rw [ha] at isOpen; cases isOpen
  | closed _ hpc => rcases hpc with hpc | hpc <;> cases hpc

/-- An attempt that was open when the claim took its endpoint over: it waits, with its delivery in
flight, for the reclaim, which closes it. -/
def TakenOver (s : Sys) (c : Claim) (id : Uuid) (a : Attempt) (next : ClaimStep) : Prop :=
  ∃ d ∈ s.store.deliveries, (d.id = id ∧ d.endpointId = c.candidate.id) ∧
    if next.hasClosed then ∃ a' ∈ s.store.attemptsOf id, a'.id = a.id ∧ a'.IsExpired
    else a ∈ s.store.attemptsOf id ∧ d.state = .inFlight

theorem TakenOver.step {id : Uuid} (hl : LeaseInv cfg s) (hk : KeyInv s) (hx : ExclInv s)
    (hsent : ∀ a ∈ s.store.attempts, a.sentAt.isSome = true) (hheld : ClaimsHold s)
    (ho : a.isOpen = true) (hold : c.leaseId < s.store.uuids)
    (hi : ∀ next, s.pcs w = .claiming c next → TakenOver s c id a next)
    (h : Webhooks.step cfg s l = some s') :
    ∀ next, s'.pcs w = .claiming c next → TakenOver s' c id a next := by
  intro next' hpc'
  -- a step of somebody else
  have hother : s'.pcs w = s.pcs w → l.worker ≠ some w → TakenOver s' c id a next' := by
    intro hpcs hw
    have hpc := hpcs.symm.trans hpc'
    obtain ⟨d, hd, ⟨rfl, he⟩, hrest⟩ := hi next' hpc
    obtain ⟨d', hd', hmove⟩ := step_delivery_of_mem hl hk h hd
    have hlease : (s.pcs w).lease = some (d.endpointId, c.leaseId) := by rw [hpc, he]; rfl
    obtain ⟨rfl, has⟩ := hmove.eq_of_holds hl hheld hlease (he ▸ hheld w c next' hpc) hw
    refine ⟨d', hd', ⟨rfl, he⟩, ?_⟩
    rw [has]
    exact hrest
  cases step_move h with
  | tick _ hlab _ _ pcs => exact hother (by rw [pcs]) (by rw [hlab]; nofun)
  | api hlab _ pcs => exact hother (by rw [pcs]) (by rw [hlab]; nofun)
  | worker w₀ _ pcs hw =>
      by_cases hww : w = w₀
      case neg =>
          exact hother (pcs w hww) fun heq => hww (Option.some.inj (heq.symm.trans hw.worker_eq))
      subst hww
      -- the claim's own statements once it has closed the attempt
      have hkeep : ∀ next, s.pcs w = .claiming c next → next.hasClosed = true →
          next'.hasClosed = true → TakenOver s' c id a next' := by
        intro next hpc hnext hnext'
        obtain ⟨d, hd, ⟨hid, he⟩, hrest⟩ := hi next hpc
        rw [if_pos hnext] at hrest
        obtain ⟨a₁, ha₁, haid, hexp⟩ := hrest
        obtain ⟨hmem, hof⟩ := mem_attemptsOf.mp ha₁
        obtain ⟨d', hd', hmove⟩ := step_delivery_of_mem hl hk h hd
        obtain ⟨a₂, ha₂, hch⟩ := hw.attempts.mem hmem
        rw [hpc] at hch
        obtain rfl := hch.eq_of_closed (by simp [Attempt.isOpen, hexp.1])
        refine ⟨d', hd', ⟨hmove.id_eq.trans hid, hmove.endpointId_eq.trans he⟩, ?_⟩
        rw [if_pos hnext']
        exact ⟨a₂, mem_attemptsOf.mpr ⟨ha₂, hof⟩, haid, hexp⟩
      rw [hpc'] at hw
      have hxw := hx.worker w
      generalize hpc : s.pcs w = pc at hw hxw
      generalize hst : s'.store = st' at hw
      cases hw with
      | outside _ _ _ hout => cases hout
      | claim hc =>
          -- a new claim has a new lease
          obtain ⟨hlease, -, -⟩ := claimEndpoint_some hc
          exact absurd hold (by rw [hlease]; exact lt_irrefl _)
      | touchBusy =>
          obtain ⟨d, hd, hid, hrest⟩ := hi _ hpc
          exact ⟨d, by rw [hst]; exact hd, hid, by rw [hst]; exact hrest⟩
      | touchFree hb =>
          -- nothing is in flight on an endpoint that was free
          obtain ⟨d, hd, ⟨-, he⟩, -, hs⟩ := hi _ hpc
          exact absurd hs (hxw (hheld w c _ hpc) hb d hd he)
      | close hc =>
          obtain ⟨d, hd, ⟨rfl, he⟩, ha, hs⟩ := hi _ hpc
          have hp : d.isInFlightOn c.candidate.id = true := by simp [Delivery.isInFlightOn, he, hs]
          refine ⟨d, by rw [hst, (closeOrphans_endpoints hc).2.1]; exact hd, ⟨rfl, he⟩, ?_⟩
          rw [hst, closeOrphans_attemptsOf hk.tables.deliveryIds hc hd, if_pos hp]
          exact ⟨a.expire, List.mem_map_of_mem ha, a.expire_id,
            Attempt.expire_isExpired (hsent a (mem_attemptsOf.mp ha).1) ho⟩
      | _ => exact hkeep _ hpc rfl rfl

/-- A claim begins with the claiming `UPDATE`, which writes no delivery and no attempt. -/
theorem WorkerMove.began {now : Time} {st st' : Store} {pc : Pc}
    (h : WorkerMove cfg now st w pc l st' (.claiming c .touchTenant)) :
    pc.lease = none ∧ st'.deliveries = st.deliveries ∧ st'.attempts = st.attempts := by
  cases h with
  | outside _ _ _ hout => cases hout
  | claim hc =>
      obtain ⟨-, -, rfl⟩ := claimEndpoint_some hc
      exact ⟨rfl, rfl, rfl⟩

variable {p : Sys → Label → Prop} [DecidableRel p]

/-- What a claim finds open on the endpoint it takes over is in flight: nobody is in the gap there. -/
theorem inFlight_of_takeover (hp : ∀ s l, p s l → Timely cfg s l)
    (hdie : ∀ s l, p s l → DiesOutsideGap s l)
    (h : Reachable (restrict p (step cfg)) (.init tenants) s)
    (hs : restrict p (step cfg) s (.step w) = some s₁)
    (hpc₁ : s₁.pcs w = .claiming c .touchTenant) (hd : d ∈ s.store.deliveries)
    (he : d.endpointId = c.candidate.id) (ha : a ∈ s.store.attemptsOf d.id) (ho : a.isOpen = true) :
    TakenOver s₁ c d.id a .touchTenant := by
  have hr₁ := h.tail hs
  cases step_move (restrict_eq_some.mp hs).2 with
  | tick _ hl | api hl => cases hl
  | worker w' _ pcs hw =>
      obtain rfl : w' = w := Option.some.inj hw.worker_eq.symm
      rw [hpc₁] at hw
      obtain ⟨hnone, hdel, hatt⟩ := hw.began
      rcases history_of_reachable hp hdie h d hd with hexact | ⟨w₀, -, -, ⟨c₀, head, n, attemptId, hpc₀, hid⟩, -⟩
      · exact ⟨d, hdel ▸ hd, ⟨rfl, he⟩, by rw [attemptsOf_congr hatt]; exact ha, (hexact.opened a ha ho).1⟩
      · -- its claim would still hold the lease that was just taken
        have hne : w₀ ≠ w' := by
          rintro rfl
          rw [hpc₀] at hnone
          cases hnone
        have hkw := (keyInv_of_reachable h.of_restrict).worker w₀
        rw [hpc₀] at hkw
        have he₀ := hkw.1.endpointId_eq (keyInv_of_reachable h.of_restrict).tables.deliveryIds hd hid.symm
        have hl₁ := leaseInv_of_reachable hr₁.of_restrict
        have hpc₀' := (pcs w₀ hne).trans hpc₀
        have hh₀ := claimsHold_of_timely hp hr₁ w₀ c₀ _ hpc₀'
        have hh := claimsHold_of_timely hp hr₁ w' c _ hpc₁
        rw [← he₀, he] at hh₀
        have hlease : (s₁.pcs w₀).lease = some (c₀.candidate.id, c.leaseId) := by
          rw [hpc₀', hh.unique hl₁.ids hh₀]
          rfl
        exact absurd (hl₁.distinct _ _ _ _ _ hlease (by rw [hpc₁]; rfl)) hne

/-- What a claim finds open on the endpoint it takes over is closed as `worker_lease_expired` once
the claim is past its reclaim. -/
theorem closed_by_takeover (hp : ∀ s l, p s l → Timely cfg s l)
    (hdie : ∀ s l, p s l → DiesOutsideGap s l)
    (h : Reachable (restrict p (step cfg)) (.init tenants) s)
    (hs : restrict p (step cfg) s (.step w) = some s₁)
    (hpc₁ : s₁.pcs w = .claiming c .touchTenant) (hd : d ∈ s.store.deliveries)
    (he : d.endpointId = c.candidate.id) (ha : a ∈ s.store.attemptsOf d.id) (ho : a.isOpen = true)
    (h₂ : Reachable (restrict p (step cfg)) s₁ s₂) (hpc₂ : s₂.pcs w = .claiming c next)
    (hnext : next.hasClosed = true) :
    ∃ a' ∈ s₂.store.attemptsOf d.id, a'.id = a.id ∧ a'.IsExpired := by
  have hr₁ := h.tail hs
  have hold : c.leaseId < s₁.store.uuids :=
    ((leaseInv_of_reachable hr₁.of_restrict).worker w).lease_lt (by rw [hpc₁]; rfl)
  have hinv : ∀ next, s₂.pcs w = .claiming c next → TakenOver s₂ c d.id a next := by
    refine h₂.inv (I := fun s' => ∀ next, s'.pcs w = .claiming c next → TakenOver s' c d.id a next)
      (fun next hpc => ?_) fun s' l s'' hr hi hs' => ?_
    · rw [hpc₁] at hpc
      cases hpc
      exact inFlight_of_takeover hp hdie h hs hpc₁ hd he ha ho
    · have hr' := hr₁.trans hr
      exact TakenOver.step (leaseInv_of_reachable hr'.of_restrict) (keyInv_of_reachable hr'.of_restrict)
        (exclInv_of_reachable (fun _ hr l _ => fenced_of_timely hp hr _ l) hr')
        (sentAt_of_reachable hr'.of_restrict)
        (claimsHold_of_timely hp hr') ho (hold.trans_le (uuids_le_of_reachable hr.of_restrict)) hi
        (restrict_eq_some.mp hs').2
  obtain ⟨d₂, -, -, hclosed⟩ := hinv next hpc₂
  rw [if_pos hnext] at hclosed
  exact hclosed

/-- A claim does not fail before it has closed what was left open. -/
theorem claim_goes_on (hp : ∀ s l, p s l → Timely cfg s l)
    (h : Reachable (restrict p (step cfg)) (.init tenants) s) (hpc : s.pcs w = .claiming c next)
    (hnext : next.hasClosed = false) :
    ∃ s' next', step cfg s (.step w) = some s' ∧ s'.pcs w = .claiming c next' := by
  have hk := keyInv_of_reachable h.of_restrict
  have hx := exclInv_of_reachable (fun _ hr l _ => fenced_of_timely hp hr _ l) h
  cases next with
  | touchTenant => exact ⟨_, _, step_claiming hpc, Sys.setPc_pcs_self _⟩
  | closeOrphans =>
      obtain ⟨st', hst⟩ := @closeOrphans_isSome s.store c.candidate.id hk.tables.deliveryIds hx.one
      refine ⟨_, .requeue, step_claiming hpc, ?_⟩
      rw [Sys.setPc_pcs_self]
      simp only [claimStep, hst, Pc.afterClaim]
  | _ => cases hnext

/-- In every state of every timely run in which no worker dies between the `INSERT` of an attempt
and the update that counts it: the attempts of a delivery whose endpoint nobody is claiming are
numbered `1, 2, …, attempt_count`, and only the last one of an in-flight delivery is open.  A claim
that takes an endpoint over closes every attempt that is open there as `worker_lease_expired`, and
does not fail before it has. -/
theorem attempts_exact
    (h : Reachable (restrict (TimelyUncut cfg) (step cfg)) (.init tenants) s) :
    (∀ d ∈ s.store.deliveries,
      (∀ w c next, s.pcs w = .claiming c next → c.candidate.id ≠ d.endpointId) →
      Exact d (s.store.attemptsOf d.id)) ∧
    ∀ w s₁ c, restrict (TimelyUncut cfg) (step cfg) s (.step w) = some s₁ →
      s₁.pcs w = .claiming c .touchTenant →
      ∀ d ∈ s.store.deliveries, d.endpointId = c.candidate.id →
      ∀ a ∈ s.store.attemptsOf d.id, a.isOpen = true →
      ∀ s₂ next, Reachable (restrict (TimelyUncut cfg) (step cfg)) s₁ s₂ →
        s₂.pcs w = .claiming c next →
        if next.hasClosed then ∃ a' ∈ s₂.store.attemptsOf d.id, a'.id = a.id ∧ a'.IsExpired
        else ∃ s₃ next', step cfg s₂ (.step w) = some s₃ ∧ s₃.pcs w = .claiming c next' := by
  have hp : ∀ s l, TimelyUncut cfg s l → Timely cfg s l := fun _ _ hl => hl.1
  have hdie : ∀ s l, TimelyUncut cfg s l → DiesOutsideGap s l := fun _ _ hl => hl.2
  constructor
  · intro d hd hout
    rcases history_of_reachable hp hdie h d hd with hexact | ⟨w, -, -, hgap, -⟩
    · exact hexact
    · -- a claim in the gap is a claim of the delivery's endpoint
      obtain ⟨-, -, c, head, attemptId, hpc, hid, -⟩ := hgap.knows (keyInv_of_reachable h.of_restrict)
        (knows_of_reachable hp h) (claimsHold_of_timely hp h) hd
      have hkw := (keyInv_of_reachable h.of_restrict).worker w
      rw [hpc] at hkw
      exact absurd (hkw.1.endpointId_eq (keyInv_of_reachable h.of_restrict).tables.deliveryIds hd
        hid.symm).symm (hout w c _ hpc)
  · intro w s₁ c hs hpc₁ d hd he a ha ho s₂ next h₂ hpc₂
    cases hnext : next.hasClosed with
    | true => exact closed_by_takeover hp hdie h hs hpc₁ hd he ha ho h₂ hpc₂ hnext
    | false => exact claim_goes_on hp ((h.tail hs).trans h₂) hpc₂ hnext

end

/-! ### Workers that die -/

open Sample

/-- Worker 1 dies after `n` statements of its claim; worker 2 takes the endpoint over and has the
delivery in flight. -/
def dieInClaim (n : Nat) : List Label :=
  register :: publish 0 "k" ++ expand ++ claim 1 none n ++ [.die 1, .tick 11] ++
    claim 2 (some (0, 3)) 9

/-- What worker 2 holds then. -/
def reclaimed (attemptNumber : Nat) : ClaimedDelivery :=
  { claimed with leaseId := 5, attemptNumber := attemptNumber, attemptId := 6 }

/-- Only the workers 0, 1 and 2 move, and worker 2 ends up holding the delivery again. -/
theorem not_claiming_of_dieInClaim {p : Sys → Label → Prop} [DecidableRel p] {s : Sys}
    (hp : ∀ s l, p s l → TimelyAmong config [0, 1, 2] s l)
    (h : Reachable (restrict p (step config)) start s) (h₀ : s.pcs 0 = .idle) (h₁ : s.pcs 1 = .dead)
    {n : Nat} (h₂ : s.pcs 2 = .holding (reclaimed n)) :
    ∀ w c next, s.pcs w ≠ .claiming c next := by
  intro w c next hpc
  by_cases hw : w ∈ [0, 1, 2]
  · simp only [List.mem_cons, List.not_mem_nil, or_false] at hw
    rcases hw with rfl | rfl | rfl
    · rw [h₀] at hpc; cases hpc
    · rw [h₁] at hpc; cases hpc
    · rw [h₂] at hpc; cases hpc
  · rw [pcs_of_timelyAmong hp h hw] at hpc
    cases hpc

/-- Worker 1 has counted its attempt when it dies. -/
theorem attempts_exact_sample : ∃ s d,
    Reachable (restrict (TimelyUncut config) (step config)) start s ∧ d ∈ s.store.deliveries ∧
    d.attemptCount = 2 ∧ Exact d (s.store.attemptsOf d.id) := by
  obtain ⟨s, hs, hp⟩ := exists_of_run
    (restrict (fun s l => TimelyAmong config [0, 1, 2] s l ∧ DiesOutsideGap s l) (step config)) start
    (dieInClaim 7) (fun s => s.pcs 0 = .idle && s.pcs 1 = .dead && s.pcs 2 = .holding (reclaimed 2) &&
      s.store.deliveries.any fun d => d.attemptCount = 2) (by decide)
  simp only [Bool.and_eq_true, decide_eq_true_eq, List.any_eq_true] at hp
  obtain ⟨⟨⟨h₀, h₁⟩, h₂⟩, d, hd, hcount⟩ := hp
  have hr : Reachable (restrict (TimelyUncut config) (step config)) start s :=
    timely_of_timelyAmong (fun _ _ => rfl) (fun _ _ h => h.1) (fun _ _ ht h => ⟨ht, h.2⟩) (.of_run hs)
  have hout := not_claiming_of_dieInClaim (fun _ _ h => h.1) (.of_run hs) h₀ h₁ h₂
  exact ⟨s, d, hr, hd, hcount, (attempts_exact hr).1 d hd fun w c next hpc => absurd hpc (hout w c next)⟩

/-- Two first attempts, one of them open. -/
def repeatsFirst : List Attempt → Bool
  | [a, a'] => a.attemptNumber = 1 && a'.attemptNumber = 1 && a.isOpen
  | _ => false

/-- Worker 1 dies after the `INSERT` of its attempt and before it counts it: the next claim gives the
same number again, and the attempt worker 1 left stays open. -/
theorem attempt_repeated : ∃ s d, Reachable (restrict (Timely config) (step config)) start s ∧
    d ∈ s.store.deliveries ∧ (∀ w c next, s.pcs w ≠ .claiming c next) ∧
    (∀ e ∈ s.store.endpoints, e.leaseId = (reclaimed 1).leaseId ∧ s.pcs 2 = .holding (reclaimed 1)) ∧
    (s.store.attemptsOf d.id).map (·.attemptNumber) = [1, 1] ∧ d.attemptCount = 1 ∧
    ∃ a a', s.store.attemptsOf d.id = [a, a'] ∧ a.isOpen = true := by
  obtain ⟨s, hs, hp⟩ := exists_of_run (restrict (TimelyAmong config [0, 1, 2]) (step config)) start
    (dieInClaim 5) (fun s => s.pcs 0 = .idle && s.pcs 1 = .dead && s.pcs 2 = .holding (reclaimed 1) &&
      (s.store.endpoints.all fun e => e.leaseId = (reclaimed 1).leaseId) &&
      s.store.deliveries.any fun d => d.attemptCount = 1 && repeatsFirst (s.store.attemptsOf d.id))
    (by decide)
  simp only [Bool.and_eq_true, decide_eq_true_eq, List.any_eq_true, List.all_eq_true] at hp
  obtain ⟨⟨⟨⟨h₀, h₁⟩, h₂⟩, he⟩, d, hd, hcount, has⟩ := hp
  unfold repeatsFirst at has
  split at has
  · next a a' heq =>
      simp only [Bool.and_eq_true, decide_eq_true_eq] at has
      obtain ⟨⟨hn, hn'⟩, ho⟩ := has
      refine ⟨s, d, timely_of_timelyAmong (fun _ _ => rfl) (fun _ _ h => h) (fun _ _ h _ => h)
        (.of_run hs), hd, not_claiming_of_dieInClaim (fun _ _ h => h) (.of_run hs) h₀ h₁ h₂,
        fun e hmem => ⟨he e hmem, h₂⟩, ?_, hcount, a, a', heq, ho⟩
      simp only [heq, List.map_cons, List.map_nil, hn, hn']
  · cases has

end Webhooks
