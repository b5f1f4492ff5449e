import Webhooks.System

/-!
# Protocol — Moves

What one step of the system can do, said once.

* `ApiMove`: a step of the API, as the workers see it.
* `WorkerMove`: a step of one worker, a constructor for each statement it may send: the store
  and the worker's place before and after.
* `Move`: a step of the system is the clock's, the API's or one worker's.
* **`step_move`**: every step is a move.  Every invariant of the protocol is by cases on it.
-/

namespace Webhooks

/-! ### What a worker's place tells -/

/-- The endpoint and the lease of the claim a worker is in, or has returned from. -/
def Pc.lease : Pc → Option (Uuid × Uuid)
  | .claiming c _ => some (c.candidate.id, c.leaseId)
  | .holding claimed | .sent claimed => some (claimed.endpointId, claimed.leaseId)
  | _ => none

/-- The delivery rows a worker has inserted and not committed. -/
def Pc.rows : Pc → List Delivery
  | .marking _ rows | .committing _ rows => rows
  | _ => []

/-- The worker neither looks for a delivery, nor has one, nor has uncommitted rows. -/
def Pc.isOutside : Pc → Bool
  | .idle | .dead | .expanding _ | .selecting .. | .replaying _ | .inserting .. => true
  | _ => false

/-- The cutoff a worker compares `busy_since` with. -/
def Pc.cutoff : Pc → Option Time
  | .listing cutoff | .trying cutoff _ => some cutoff
  | .claiming c _ => some c.cutoff
  | _ => none

/-- The candidates a worker may still try. -/
def Pc.candidates : Pc → List CandidateRow
  | .trying _ cs => cs
  | .claiming c _ => c.rest
  | _ => []

namespace Pc

variable {pc : Pc}

theorem lease_of_isOutside (h : pc.isOutside = true) : pc.lease = none := by
  cases pc <;> first | rfl | cases h

theorem rows_of_isOutside (h : pc.isOutside = true) : pc.rows = [] := by
  cases pc <;> first | rfl | cases h

theorem cutoff_of_isOutside (h : pc.isOutside = true) : pc.cutoff = none := by
  cases pc <;> first | rfl | cases h

end Pc

/-- The worker a label moves. -/
def Label.worker : Label → Option WorkerId
  | .start w _ | .query w _ | .step w | .send w | .complete w .. | .die w => some w
  | _ => none

/-! ### Moves -/

/-- A step of the API.  Publishing and asking for a replay write no table the claims read. -/
inductive ApiMove (now : Time) (st : Store) : Store → Prop
  | register (tenantId url eventTypes signingSecret) :
      ApiMove now st (registerEndpoint st now tenantId url eventTypes signingSecret)
  | status (id tenantId status) : ApiMove now st (setEndpointStatus st id tenantId status)
  | rotate (id tenantId signingSecret overlapExpiresAt) :
      ApiMove now st (rotateSecret st id tenantId signingSecret overlapExpiresAt)
  | other {st' : Store} (tenants : st'.tenants = st.tenants) (endpoints : st'.endpoints = st.endpoints)
      (deliveries : st'.deliveries = st.deliveries) (attempts : st'.attempts = st.attempts)
      (events : ∃ es, st'.events = st.events ++ es) (uuids : st.uuids ≤ st'.uuids)
      (deliveriesSeq : st'.deliveriesSeq = st.deliveriesSeq) : ApiMove now st st'

/-- A step of worker `w`, from the first place and store to the second ones. -/
inductive WorkerMove (cfg : Config) (now : Time) (st : Store) (w : WorkerId) :
    Pc → Label → Store → Pc → Prop
  | outside {pc pc' : Pc} {l : Label} (hl : l.worker = some w) (lease : pc.lease = none)
      (rows : pc.rows = []) (hpc' : pc'.isOutside = true)
      (src : ∀ began e, pc' = .inserting began (.event e) → e ∈ st.events)
      (range : ∀ began r range, pc' = .inserting began (.replay r range) →
        range = cfg.readRange w r) :
      WorkerMove cfg now st w pc l st pc'
  | start : WorkerMove cfg now st w .idle (.start w .claim) st (.listing (now - cfg.leaseDurationMs))
  | query {cutoff scan} (hscan : scan.Perm st.endpoints) :
      WorkerMove cfg now st w (.listing cutoff) (.query w scan) st
        (.trying cutoff (claimCandidates st now cutoff scan))
  | lost {cutoff c rest} :
      WorkerMove cfg now st w (.trying cutoff (c :: rest)) (.step w) st (.trying cutoff rest)
  | claim {cutoff c rest leaseId st'} (h : claimEndpoint st now c.id cutoff = (some leaseId, st')) :
      WorkerMove cfg now st w (.trying cutoff (c :: rest)) (.step w) st'
        (.claiming ⟨c, rest, cutoff, leaseId, now⟩ .touchTenant)
  | touchBusy {c} (h : c.candidate.busy = true) :
      WorkerMove cfg now st w (.claiming c .touchTenant) (.step w)
        (touchTenant st now c.candidate.tenantId) (.claiming c .closeOrphans)
  | touchFree {c} (h : c.candidate.busy = false) :
      WorkerMove cfg now st w (.claiming c .touchTenant) (.step w)
        (touchTenant st now c.candidate.tenantId) (.claiming c .fetchHead)
  | close {c st'} (h : closeOrphans st c.candidate.id = some st') :
      WorkerMove cfg now st w (.claiming c .closeOrphans) (.step w) st' (.claiming c .requeue)
  | closeThrew {c} (h : closeOrphans st c.candidate.id = none) :
      WorkerMove cfg now st w (.claiming c .closeOrphans) (.step w) st .idle
  | requeue {c} :
      WorkerMove cfg now st w (.claiming c .requeue) (.step w) (requeueInFlight st c.candidate.id)
        (.claiming c .fetchHead)
  | fetch {c} :
      WorkerMove cfg now st w (.claiming c .fetchHead) (.step w) st
        (.claiming c (.checkHead (fetchHead st c.candidate.id)))
  | checkNone {c} :
      WorkerMove cfg now st w (.claiming c (.checkHead none)) (.step w) st (.claiming c .release)
  | checkLater {c head} (h : now < head.nextAttemptAt) :
      WorkerMove cfg now st w (.claiming c (.checkHead (some head))) (.step w) st
        (.claiming c .release)
  | checkDue {c head} (h : head.nextAttemptAt ≤ now) :
      WorkerMove cfg now st w (.claiming c (.checkHead (some head))) (.step w) st
        (.claiming c (.insertAttempt head))
  | release {c} :
      WorkerMove cfg now st w (.claiming c .release) (.step w)
        (releaseLease st c.candidate.id c.leaseId) (.trying c.cutoff c.rest)
  | insert {c head} :
      WorkerMove cfg now st w (.claiming c (.insertAttempt head)) (.step w)
        (insertAttempt st now head.id (head.attemptCount + 1)).2
        (.claiming c (.markInFlight head (head.attemptCount + 1) st.uuids))
  | mark {c head n attemptId} :
      WorkerMove cfg now st w (.claiming c (.markInFlight head n attemptId)) (.step w)
        (markInFlight st head.id n) (.claiming c (.finish head n attemptId))
  | finish {c head n attemptId claimed} (endpointId : claimed.endpointId = c.candidate.id)
      (leaseId : claimed.leaseId = c.leaseId) (deliveryId : claimed.deliveryId = head.id)
      (attemptNumber : claimed.attemptNumber = n) (hattempt : claimed.attemptId = attemptId) :
      WorkerMove cfg now st w (.claiming c (.finish head n attemptId)) (.step w) st (.holding claimed)
  | finishThrew {c head n attemptId} :
      WorkerMove cfg now st w (.claiming c (.finish head n attemptId)) (.step w) st .idle
  | send {claimed} : WorkerMove cfg now st w (.holding claimed) (.send w) st (.sent claimed)
  | complete {pc : Pc} {claimed result random fault} (hpc : pc = .holding claimed ∨ pc = .sent claimed) :
      WorkerMove cfg now st w pc (.complete w result random fault)
        (completeDelivery cfg now st claimed result random fault).2 .idle
  | insertRows {began src} :
      WorkerMove cfg now st w (.inserting began src) (.step w) (insertDeliveries st began src).2
        (.marking src (insertDeliveries st began src).1)
  | setExpanded {src rows} :
      WorkerMove cfg now st w (.marking src rows) (.step w) st (.committing src rows)
  | commit {src rows} :
      WorkerMove cfg now st w (.committing src rows) (.step w) (commitExpansion st src rows) .idle
  | die {pc : Pc} : WorkerMove cfg now st w pc (.die w) st .dead

theorem WorkerMove.worker_eq {cfg : Config} {now : Time} {st st' : Store} {w : WorkerId} {pc pc' : Pc}
    {l : Label} (h : WorkerMove cfg now st w pc l st' pc') : l.worker = some w := by
  cases h with
  | outside hl => exact hl
  | _ => rfl

/-- A step of the system. -/
inductive Move (cfg : Config) (s : Sys) (l : Label) (s' : Sys) : Prop
  | tick (ms : Nat) (hl : l = .tick ms) (now : s'.now = s.now + ms) (store : s'.store = s.store)
      (pcs : s'.pcs = s.pcs)
  | api (hl : l.worker = none) (now : s'.now = s.now) (pcs : s'.pcs = s.pcs) (h : ApiMove s.now s.store s'.store)
  | worker (w : WorkerId) (now : s'.now = s.now) (pcs : ∀ w', w' ≠ w → s'.pcs w' = s.pcs w')
      (h : WorkerMove cfg s.now s.store w (s.pcs w) l s'.store (s'.pcs w))

/-! ### Every step is a move -/

section

variable {cfg : Config} {s s' : Sys} {w : WorkerId} {l : Label}

theorem Sys.setPc_pcs_self (pc : Pc) : (s.setPc w pc).pcs w = pc := if_pos rfl

theorem Sys.setPc_pcs_of_ne {w' : WorkerId} (h : w' ≠ w) (pc : Pc) :
    (s.setPc w pc).pcs w' = s.pcs w' := if_neg h

/-- A worker's step, from what it does to the store and to its place. -/
theorem Move.of_setPc {t : Sys} {pc' : Pc} (now : t.now = s.now) (pcs : t.pcs = s.pcs)
    (h : WorkerMove cfg s.now s.store w (s.pcs w) l t.store pc') : Move cfg s l (t.setPc w pc') := by
  refine .worker w now (fun w' hw => ?_) ?_
  · rw [Sys.setPc_pcs_of_ne hw, pcs]
  · rw [Sys.setPc_pcs_self]
    exact h

theorem claimEndpoint_none {now : Time} {st st' : Store} {id cutoff : Nat}
    (h : claimEndpoint st now id cutoff = (none, st')) : st' = st := by
  unfold claimEndpoint at h
  split at h <;> simp_all

theorem selectEvent_mem {st : Store} {t : Uuid} {e : Event} (h : selectEvent st t = some e) :
    e ∈ st.events :=
  List.mem_of_mem_filter (List.argmin_mem h)

/-- A step of a claim is its next statement. -/
theorem step_claiming {c : Claim} {next : ClaimStep} (hpc : s.pcs w = .claiming c next) :
    step cfg s (.step w) = some ((s.withStore (claimStep cfg s.now s.store c next).1).setPc w
      (.afterClaim c (claimStep cfg s.now s.store c next).2)) := by
  simp only [step, workerStep, hpc]

/-- The next statement of a claim. -/
theorem claimStep_move {c : Claim} {next : ClaimStep} (hpc : s.pcs w = .claiming c next) :
    Move cfg s (.step w) ((s.withStore (claimStep cfg s.now s.store c next).1).setPc w
      (.afterClaim c (claimStep cfg s.now s.store c next).2)) := by
  refine .of_setPc rfl rfl ?_
  rw [hpc]
  cases next with
  | touchTenant =>
      cases h : c.candidate.busy with
      | true => simpa [claimStep, Pc.afterClaim, Sys.withStore, h] using .touchBusy h
      | false => simpa [claimStep, Pc.afterClaim, Sys.withStore, h] using .touchFree h
  | closeOrphans =>
      unfold claimStep
      cases h : closeOrphans s.store c.candidate.id with
      | none => exact .closeThrew h
      | some st' => exact .close h
  | requeue => exact .requeue
  | fetchHead => exact .fetch
  | checkHead head =>
      cases head with
      | none => exact .checkNone
      | some head =>
          by_cases h : s.now < head.nextAttemptAt
          · simpa [claimStep, Pc.afterClaim, Sys.withStore, h] using .checkLater h
          · simpa [claimStep, Pc.afterClaim, Sys.withStore, h] using .checkDue (Nat.le_of_not_lt h)
  | release => exact .release
  | insertAttempt head => exact .insert
  | markInFlight head n attemptId => exact .mark
  | finish head n attemptId =>
      cases h : decryptSecrets cfg s.now head with
      | none =>
          simp only [claimStep, h]
          exact .finishThrew
      | some secrets =>
          simp only [claimStep, h]
          exact .finish rfl rfl rfl rfl rfl

theorem workerStep_move (h : workerStep cfg s w = some s') : Move cfg s (.step w) s' := by
  unfold workerStep at h
  split at h
  case h_1 | h_2 | h_3 | h_4 | h_5 => cases h
  case h_6 hpc =>
      cases h
      exact .of_setPc rfl rfl (.outside rfl (by rw [hpc]; rfl) (by rw [hpc]; rfl) rfl nofun nofun)
  case h_7 cutoff c rest hpc =>
      split at h <;> cases h
      case h_1 st hst =>
          rw [claimEndpoint_none hst]
          exact .of_setPc rfl rfl (by rw [hpc]; exact .lost)
      case h_2 leaseId st hst => exact .of_setPc rfl rfl (by rw [hpc]; exact .claim hst)
  case h_8 c next hpc =>
      cases h
      exact claimStep_move hpc
  case h_9 hpc =>
      cases h
      exact .of_setPc rfl rfl (.outside rfl (by rw [hpc]; rfl) (by rw [hpc]; rfl) rfl nofun nofun)
  case h_10 t ts hpc =>
      split at h <;> cases h <;>
        exact .of_setPc rfl rfl (.outside rfl (by rw [hpc]; rfl) (by rw [hpc]; rfl) rfl nofun nofun)
  case h_11 began t ts hpc =>
      split at h <;> cases h
      case h_1 =>
          exact .of_setPc rfl rfl (.outside rfl (by rw [hpc]; rfl) (by rw [hpc]; rfl) rfl nofun nofun)
      case h_2 e he =>
          refine .of_setPc rfl rfl (.outside rfl (by rw [hpc]; rfl) (by rw [hpc]; rfl) rfl ?_ nofun)
          rintro _ _ ⟨⟩
          exact selectEvent_mem he
  case h_12 hpc =>
      cases h
      exact .of_setPc rfl rfl (.outside rfl (by rw [hpc]; rfl) (by rw [hpc]; rfl) rfl nofun nofun)
  case h_13 r rs hpc =>
      split at h
      · cases h
        exact .of_setPc rfl rfl (.outside rfl (by rw [hpc]; rfl) (by rw [hpc]; rfl) rfl nofun nofun)
      · split at h <;> cases h
        · exact .of_setPc rfl rfl (.outside rfl (by rw [hpc]; rfl) (by rw [hpc]; rfl) rfl nofun nofun)
        · refine .of_setPc rfl rfl (.outside rfl (by rw [hpc]; rfl) (by rw [hpc]; rfl) rfl nofun ?_)
          rintro _ _ _ ⟨⟩
          rfl
  case h_14 began src hpc =>
      cases h
      exact .of_setPc rfl rfl (by rw [hpc]; exact .insertRows)
  case h_15 src rows hpc =>
      cases h
      exact .of_setPc rfl rfl (by rw [hpc]; exact .setExpanded)
  case h_16 src rows hpc =>
      cases h
      exact .of_setPc rfl rfl (by rw [hpc]; exact .commit)

theorem publishStep_move {c : CallId} (h : publishStep s c = some s') : Move cfg s (.publish c) s' := by
  unfold publishStep at h
  split at h
  case h_1 | h_2 | h_3 | h_4 => cases h
  case h_5 r hc =>
      split at h
      · cases h
      · split at h <;> cases h <;>
          exact .api rfl rfl rfl (.other rfl rfl rfl rfl ⟨[], by simp [Sys.setCall, Sys.withStore]⟩
            (Nat.le_succ _) rfl)
  case h_6 row hc =>
      cases h
      exact .api rfl rfl rfl (.other rfl rfl rfl rfl ⟨[row], rfl⟩ le_rfl rfl)
  case h_7 r hc =>
      split at h <;> cases h <;>
        exact .api rfl rfl rfl (.other rfl rfl rfl rfl ⟨[], (List.append_nil _).symm⟩ le_rfl rfl)
  case h_8 hc =>
      cases h
      exact .api rfl rfl rfl (.other rfl rfl rfl rfl ⟨[], (List.append_nil _).symm⟩ le_rfl rfl)

theorem replayStep_move {c : CallId} (h : replayStep s c = some s') : Move cfg s (.replay c) s' := by
  have hsame : ApiMove s.now s.store s.store :=
    .other rfl rfl rfl rfl ⟨[], (List.append_nil _).symm⟩ le_rfl rfl
  simp only [replayStep] at h
  split at h
  case h_1 | h_2 | h_3 | h_4 | h_5 => cases h
  case h_6 r hc =>
      split at h <;> cases h <;> exact .api rfl rfl rfl hsame
  case h_7 r hc =>
      split at h
      · cases h
      · split at h <;> cases h <;>
          exact .api rfl rfl rfl (.other rfl rfl rfl rfl ⟨[], (List.append_nil _).symm⟩
            (Nat.le_succ _) rfl)
  case h_8 row hc =>
      cases h
      exact .api rfl rfl rfl (.other rfl rfl rfl rfl ⟨[], (List.append_nil _).symm⟩ le_rfl rfl)
  case h_9 r hc =>
      split at h <;> cases h <;> exact .api rfl rfl rfl hsame
  case h_10 hc =>
      cases h
      exact .api rfl rfl rfl hsame

/-- Every step is a move. -/
theorem step_move (h : step cfg s l = some s') : Move cfg s l s' := by
  have hother : ApiMove s.now s.store s.store :=
    .other rfl rfl rfl rfl ⟨[], (List.append_nil _).symm⟩ le_rfl rfl
  cases l with
  | tick ms => cases h; exact .tick ms rfl rfl rfl rfl
  | register tenantId url eventTypes signingSecret => cases h; exact .api rfl rfl rfl (.register ..)
  | pause id tenantId => cases h; exact .api rfl rfl rfl (.status ..)
  | resume id tenantId => cases h; exact .api rfl rfl rfl (.status ..)
  | rotate id tenantId signingSecret => cases h; exact .api rfl rfl rfl (.rotate ..)
  | request c r =>
      simp only [step] at h
      split at h <;> cases h
      exact .api rfl rfl rfl hother
  | publish c => exact publishStep_move h
  | requestReplay c r =>
      simp only [step] at h
      split at h <;> cases h
      exact .api rfl rfl rfl hother
  | replay c => exact replayStep_move h
  | abort c | abortReplay c =>
      simp only [step] at h
      split at h <;> cases h <;> exact .api rfl rfl rfl hother
  | start w job =>
      simp only [step] at h
      split at h
      case isFalse => cases h
      case isTrue hpc =>
          cases h
          refine .of_setPc rfl rfl ?_
          rw [hpc]
          cases job with
          | claim => exact .start
          | expansion => exact .outside rfl rfl rfl rfl nofun nofun
          | replay => exact .outside rfl rfl rfl rfl nofun nofun
  | query w scan =>
      simp only [step] at h
      split at h
      case h_1 cutoff hpc =>
          split at h
          case isFalse => cases h
          case isTrue hscan =>
              cases h
              exact .of_setPc rfl rfl (by rw [hpc]; exact .query (List.isPerm_iff.mp hscan))
      case h_2 => cases h
  | step w => exact workerStep_move h
  | send w =>
      simp only [step] at h
      split at h <;> cases h
      case h_1 claimed hpc => exact .of_setPc rfl rfl (by rw [hpc]; exact .send)
  | complete w result random fault =>
      simp only [step] at h
      split at h
      case h_1 claimed hpc =>
          split at h <;> cases h
          exact .of_setPc rfl rfl (.complete (.inl hpc))
      case h_2 claimed hpc =>
          cases h
          exact .of_setPc rfl rfl (.complete (.inr hpc))
      case h_3 => cases h
  | die w =>
      cases h
      exact .of_setPc (t := s.unlock w) rfl rfl .die

/-- A request is issued by a worker that holds the delivery. -/
theorem holding_of_send {claimed : ClaimedDelivery} (h : step cfg s (.send w) = some s')
    (hpc : s'.pcs w = .sent claimed) : s.pcs w = .holding claimed := by
  simp only [step] at h
  split at h <;> cases h
  next claimed' hpc' =>
      rw [Sys.setPc_pcs_self] at hpc
      cases hpc
      exact hpc'

end

end Webhooks
