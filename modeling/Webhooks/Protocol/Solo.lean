import Webhooks.Protocol.Alone
import Webhooks.Protocol.Candidates
import Webhooks.Protocol.Replays
import Webhooks.Worker.Loop

/-!
# Protocol — Solo

A pass of the worker's loop with nobody else moving.

* `CycleFrame`: what a delivery cycle leaves alone.
* `LocksHeld`: a lock is held inside a transaction.  `isQuiet_of_reachable`: so none is held while every
  worker is idle or dead.
* **`pass_steps`**: a pass is a run of the system.
-/

namespace Webhooks

open Lib

/-! ### What a delivery cycle leaves alone -/

/-- A delivery cycle changes endpoints, deliveries and attempts; the other tables stay. -/
structure CycleFrame (st st' : Store) : Prop where
  events : st'.events = st.events
  replays : st'.replays = st.replays
  tenants : st'.tenants.map (·.id) = st.tenants.map (·.id)
  endpoints : ∀ e' ∈ st'.endpoints, ∃ e ∈ st.endpoints, e'.tenantId = e.tenantId ∧
    e'.signingSecret = e.signingSecret ∧ e'.secondarySecret = e.secondarySecret

section

variable {cfg : Config} {now cutoff : Time} {st st' st₁ : Store} {c : Claim} {p : Poll}
  {claimed : ClaimedDelivery}

theorem CycleFrame.refl (st : Store) : CycleFrame st st :=
  ⟨rfl, rfl, rfl, fun e he => ⟨e, he, rfl, rfl, rfl⟩⟩

theorem CycleFrame.trans (h₁ : CycleFrame st st₁) (h₂ : CycleFrame st₁ st') : CycleFrame st st' where
  events := h₂.events.trans h₁.events
  replays := h₂.replays.trans h₁.replays
  tenants := h₂.tenants.trans h₁.tenants
  endpoints e₂ he₂ := by
    obtain ⟨e₁, he₁, t₂, s₂, y₂⟩ := h₂.endpoints e₂ he₂
    obtain ⟨e, he, t₁, s₁, y₁⟩ := h₁.endpoints e₁ he₁
    exact ⟨e, he, t₂.trans t₁, s₂.trans s₁, y₂.trans y₁⟩

/-- An `UPDATE endpoints` of the lease or the status. -/
theorem CycleFrame.of_update {q : Endpoint → Bool} {f : Endpoint → Endpoint} (events : st'.events = st.events)
    (replays : st'.replays = st.replays) (tenants : st'.tenants = st.tenants)
    (endpoints : st'.endpoints = Table.update q f st.endpoints)
    (hf : ∀ e, (f e).tenantId = e.tenantId ∧ (f e).signingSecret = e.signingSecret ∧
      (f e).secondarySecret = e.secondarySecret) : CycleFrame st st' where
  events := events
  replays := replays
  tenants := congrArg _ tenants
  endpoints e' he' := by
    rw [endpoints] at he'
    obtain ⟨he', -⟩ | ⟨e, he, -, rfl⟩ := Table.mem_update_cases he'
    · exact ⟨e', he', rfl, rfl, rfl⟩
    · exact ⟨e, he, hf e⟩

theorem CycleFrame.of_eq (events : st'.events = st.events) (replays : st'.replays = st.replays)
    (tenants : st'.tenants = st.tenants) (endpoints : st'.endpoints = st.endpoints) : CycleFrame st st' :=
  ⟨events, replays, congrArg _ tenants, fun e he => ⟨e, endpoints ▸ he, rfl, rfl, rfl⟩⟩

theorem claimStep_frame (next : ClaimStep) : CycleFrame st (claimStep cfg now st c next).1 := by
  cases next with
  | touchTenant =>
      exact ⟨rfl, rfl, Table.map_update fun _ => rfl, fun e he => ⟨e, he, rfl, rfl, rfl⟩⟩
  | closeOrphans =>
      cases h : closeOrphans st c.candidate.id with
      | none => simpa only [claimStep, h] using .refl st
      | some st' =>
          simp only [claimStep, h]
          simp only [closeOrphans] at h
          split at h <;> cases h <;> exact .of_eq rfl rfl rfl rfl
  | checkHead head => cases head <;> exact .refl st
  | release => exact .of_update rfl rfl rfl rfl fun _ => ⟨rfl, rfl, rfl⟩
  | finish head n attemptId =>
      simp only [claimStep]
      split <;> exact .refl st
  | _ => exact .of_eq rfl rfl rfl rfl

/-- The loop of the claim, by induction on its fuel. -/
theorem claimLoop_frame (n : Nat) : ∀ {st : Store} {next : ClaimStep},
    CycleFrame st (claimLoop cfg now c n st next).1 := by
  induction n with
  | zero => exact .refl _
  | succ n ih =>
      intro st next
      have hstep : CycleFrame st (claimStep cfg now st c next).1 := claimStep_frame next
      simp only [claimLoop]
      split
      · next h =>
          rw [h] at hstep
          exact hstep.trans ih
      · exact hstep

theorem tryClaimEndpoint_frame {candidate : CandidateRow} :
    CycleFrame st (tryClaimEndpoint cfg now st candidate cutoff).1 := by
  simp only [tryClaimEndpoint]
  split
  · next h => rw [claimEndpoint_none h]; exact .refl st
  · next h =>
      obtain ⟨-, -, rfl⟩ := claimEndpoint_some h
      refine .trans ?_ (claimLoop_frame 8)
      exact .of_update rfl rfl rfl rfl fun _ => ⟨rfl, rfl, rfl⟩

/-- One candidate after another, by induction on the list. -/
theorem tryCandidates_frame : ∀ {cs : List CandidateRow} {st : Store},
    CycleFrame st (tryCandidates cfg now cutoff st cs).1 := by
  intro cs
  induction cs with
  | nil => exact .refl _
  | cons c cs ih =>
      intro st
      have hc : CycleFrame st (tryClaimEndpoint cfg now st c cutoff).1 := tryClaimEndpoint_frame
      simp only [tryCandidates]
      split
      · next h =>
          rw [h] at hc
          exact hc.trans ih
      · exact hc

theorem completeDelivery_frame {result : AttemptOutcome} {random : Jitter}
    {fault : Option CompleteStatement} :
    CycleFrame st (completeDelivery cfg now st claimed result random fault).2 := by
  obtain hc | ⟨-, hc⟩ | ⟨-, -, hc⟩ := completeDelivery_cases cfg now st claimed result random fault
  <;> rw [hc]
  · exact .refl st
  · exact .refl st
  · refine .of_update rfl rfl rfl rfl fun e => ?_
    unfold Endpoint.resolve
    split <;> exact ⟨rfl, rfl, rfl⟩

/-- A cycle that has claimed sends, and writes back. -/
theorem runDeliveryCycle_claimed
    (h : claimDelivery cfg p.now st (p.scan st.endpoints) = (st', .claimed claimed)) :
    runDeliveryCycle cfg p st =
      ((completeDelivery cfg p.doneAt st' claimed (p.result claimed) p.random none).2,
        (completeDelivery cfg p.doneAt st' claimed (p.result claimed) p.random none).1.isSome) := by
  simp only [runDeliveryCycle, h]

/-- A cycle that has not claimed ends with what the scan left. -/
theorem runDeliveryCycle_other {r : ClaimResult}
    (h : claimDelivery cfg p.now st (p.scan st.endpoints) = (st', r)) (hr : ∀ claimed, r ≠ .claimed claimed) :
    runDeliveryCycle cfg p st = (st', false) := by
  cases r with
  | claimed claimed => exact absurd rfl (hr claimed)
  | _ => simp only [runDeliveryCycle, h]

theorem runDeliveryCycle_frame : CycleFrame st (runDeliveryCycle cfg p st).1 := by
  have hclaim : CycleFrame st (claimDelivery cfg p.now st (p.scan st.endpoints)).1 := tryCandidates_frame
  rcases hc : claimDelivery cfg p.now st (p.scan st.endpoints) with ⟨st', r⟩
  rw [hc] at hclaim
  cases r with
  | claimed claimed =>
      rw [runDeliveryCycle_claimed hc]
      exact hclaim.trans completeDelivery_frame
  | _ =>
      rw [runDeliveryCycle_other hc (by simp)]
      exact hclaim

end

/-! ### A pass is a run -/

/-- Nobody is in the middle of anything. -/
structure Sys.IsQuiet (s : Sys) : Prop where
  pcs : ∀ w, s.pcs w = .idle ∨ s.pcs w = .dead
  advisoryLocks : s.advisoryLocks = []
  rowLocks : s.rowLocks = []

/-- Every lock is some worker's, which is inside a transaction. -/
structure LocksHeld (s : Sys) : Prop where
  advisory : ∀ k ∈ s.advisoryLocks, (s.pcs k.2).inTransaction = true
  row : ∀ k ∈ s.rowLocks, (s.pcs k.2).inTransaction = true

section

variable {cfg : Config} {s s' t : Sys} {w : WorkerId} {l : Label} {pc pc' : Pc} {tenants : List Tenant}

/-- A worker's step takes locks for that worker only, and leaves none behind outside a transaction. -/
theorem LocksHeld.setPc (h : LocksHeld s) (hpcs : t.pcs = s.pcs)
    (ha : ∀ k ∈ t.advisoryLocks, k ∈ s.advisoryLocks ∨ k.2 = w)
    (hr : ∀ k ∈ t.rowLocks, k ∈ s.rowLocks ∨ k.2 = w)
    (hw : pc'.inTransaction = true ∨ (∀ k ∈ t.advisoryLocks, k.2 ≠ w) ∧ ∀ k ∈ t.rowLocks, k.2 ≠ w) :
    LocksHeld (t.setPc w pc') := by
  constructor
  · intro k hk
    by_cases hkw : k.2 = w
    · rw [hkw, Sys.setPc_pcs_self]
      exact hw.resolve_right fun h => h.1 k hk hkw
    · rw [Sys.setPc_pcs_of_ne hkw, hpcs]
      exact h.advisory k ((ha k hk).resolve_right hkw)
  · intro k hk
    by_cases hkw : k.2 = w
    · rw [hkw, Sys.setPc_pcs_self]
      exact hw.resolve_right fun h => h.2 k hk hkw
    · rw [Sys.setPc_pcs_of_ne hkw, hpcs]
      exact h.row k ((hr k hk).resolve_right hkw)

/-- A step from a place outside a transaction, or to one inside, that takes and releases no lock. -/
theorem LocksHeld.move (h : LocksHeld s) (hpc : s.pcs w = pc)
    (ht : pc.inTransaction = true → pc'.inTransaction = true) (st : Store) :
    LocksHeld ((s.withStore st).setPc w pc') := by
  refine h.setPc (t := s.withStore st) rfl (fun _ hk => .inl hk) (fun _ hk => .inl hk) ?_
  cases hin : pc.inTransaction with
  | true => exact .inl (ht hin)
  | false =>
      rw [← hpc] at hin
      refine .inr ⟨fun k hk hkw => ?_, fun k hk hkw => ?_⟩
      · exact Bool.eq_false_iff.mp hin (hkw ▸ h.advisory k hk)
      · exact Bool.eq_false_iff.mp hin (hkw ▸ h.row k hk)

theorem LocksHeld.unlock (h : LocksHeld s) (st : Store) :
    LocksHeld (((s.withStore st).unlock w).setPc w pc') := by
  refine h.setPc (t := (s.withStore st).unlock w) rfl (fun _ hk => .inl (List.mem_filter.mp hk).1)
    (fun _ hk => .inl (List.mem_filter.mp hk).1) (.inr ⟨fun _ hk => ?_, fun _ hk => ?_⟩)
  · exact of_decide_eq_true (List.mem_filter.mp hk).2
  · exact of_decide_eq_true (List.mem_filter.mp hk).2

/-- A worker takes a lock on the way in, and gives it back on the way out. -/
theorem LocksHeld.workerStep (h : LocksHeld s) (hs : workerStep cfg s w = some s') : LocksHeld s' := by
  cases hpc : s.pcs w with
  | idle | dead | listing | holding | sent => simp only [Webhooks.workerStep, hpc] at hs; cases hs
  | trying cutoff cs =>
      cases cs <;> simp only [Webhooks.workerStep, hpc] at hs
      · cases hs
        exact h.move hpc (fun ht => by cases ht) s.store
      · split at hs <;> cases hs <;> exact h.move hpc (fun ht => by cases ht) _
  | claiming c next =>
      simp only [Webhooks.workerStep, hpc] at hs
      cases hs
      exact h.move hpc (fun ht => by cases ht) _
  | expanding ts =>
      cases ts <;> simp only [Webhooks.workerStep, hpc] at hs
      · cases hs
        exact h.move hpc (fun ht => by cases ht) s.store
      · split at hs <;> cases hs
        · exact h.move hpc (fun ht => by cases ht) s.store
        · refine h.setPc (t := { s with advisoryLocks := _ :: s.advisoryLocks }) rfl (fun k hk => ?_)
            (fun _ hk => .inl hk) (.inl rfl)
          obtain rfl | hk := List.mem_cons.mp hk
          · exact .inr rfl
          · exact .inl hk
  | replaying rs =>
      cases rs with
      | nil =>
          simp only [Webhooks.workerStep, hpc] at hs
          cases hs
          exact h.move hpc (fun ht => by cases ht) s.store
      | cons r rs =>
          simp only [Webhooks.workerStep, hpc] at hs
          split at hs
          · cases hs
            exact h.move hpc (fun ht => by cases ht) s.store
          split at hs <;> cases hs
          · exact h.move hpc (fun ht => by cases ht) s.store
          · refine h.setPc (t := { s with rowLocks := _ :: s.rowLocks }) rfl (fun _ hk => .inl hk)
              (fun k hk => ?_) (.inl rfl)
            obtain rfl | hk := List.mem_cons.mp hk
            · exact .inr rfl
            · exact .inl hk
  | selecting began t ts =>
      simp only [Webhooks.workerStep, hpc] at hs
      split at hs <;> cases hs
      · exact h.unlock s.store
      · exact h.move hpc (fun _ => rfl) s.store
  | inserting | marking =>
      simp only [Webhooks.workerStep, hpc] at hs
      cases hs
      exact h.move hpc (fun _ => rfl) _
  | committing =>
      simp only [Webhooks.workerStep, hpc] at hs
      cases hs
      exact h.unlock _

theorem LocksHeld.step (h : LocksHeld s) (hs : step cfg s l = some s') : LocksHeld s' := by
  cases l with
  | start w job =>
      simp only [Webhooks.step] at hs
      split at hs <;> cases hs
      next hpc => exact h.move hpc (fun ht => by cases ht) s.store
  | query w =>
      simp only [Webhooks.step] at hs
      split at hs
      · next hpc =>
          split at hs <;> cases hs
          exact h.move hpc (fun ht => by cases ht) s.store
      · cases hs
  | send w =>
      simp only [Webhooks.step] at hs
      split at hs <;> cases hs
      next hpc => exact h.move hpc (fun ht => by cases ht) s.store
  | complete w =>
      simp only [Webhooks.step] at hs
      split at hs
      · next hpc =>
          split at hs <;> cases hs
          exact h.move hpc (fun ht => by cases ht) _
      · next hpc =>
          cases hs
          exact h.move hpc (fun ht => by cases ht) _
      · cases hs
  | step w => exact h.workerStep hs
  | die w =>
      cases hs
      exact h.unlock s.store
  | _ =>
      obtain ⟨hadv, hpcs⟩ := step_api_locks rfl hs
      obtain ⟨hrow, -⟩ := step_api_rowLocks rfl hs
      exact ⟨by rw [hadv, hpcs]; exact h.advisory, by rw [hrow, hpcs]; exact h.row⟩

/-- While every worker is idle or dead, no lock is held. -/
theorem isQuiet_of_reachable (hr : Reachable (step cfg) (.init tenants) s)
    (hpcs : ∀ w, s.pcs w = .idle ∨ s.pcs w = .dead) : s.IsQuiet := by
  have h0 : LocksHeld (.init tenants) := ⟨nofun, nofun⟩
  have h : LocksHeld s := hr.inv h0 fun _ _ _ _ hi hs => hi.step hs
  refine ⟨hpcs, List.eq_nil_iff_forall_not_mem.mpr fun k hk => ?_,
    List.eq_nil_iff_forall_not_mem.mpr fun k hk => ?_⟩
  · have hin := h.advisory k hk
    obtain hpc | hpc := hpcs k.2 <;> rw [hpc] at hin <;> cases hin
  · have hin := h.row k hk
    obtain hpc | hpc := hpcs k.2 <;> rw [hpc] at hin <;> cases hin

end

/-- The state after a pass of an idle worker. -/
def Sys.afterPass (s : Sys) (cfg : Config) (w : WorkerId) (p : Poll) : Sys :=
  { s with store := (pass cfg w p s.store).1, now := p.doneAt }

section

variable {cfg : Config} {s : Sys} {w : WorkerId} {p : Poll}

theorem Sys.IsQuiet.withStore (h : s.IsQuiet) (st : Store) : (s.withStore st).IsQuiet :=
  ⟨h.pcs, h.advisoryLocks, h.rowLocks⟩

theorem Sys.IsQuiet.later (h : s.IsQuiet) (now : Time) : Sys.IsQuiet { s with now := now } :=
  ⟨h.pcs, h.advisoryLocks, h.rowLocks⟩

/-- Nobody is inside a claim, so the clock may advance. -/
theorem tick_steps (h : ∀ w c next, s.pcs w ≠ .claiming c next) {t : Time} (ht : s.now ≤ t) :
    Reachable (restrict (Timely cfg) (step cfg)) s { s with now := t } := by
  refine .one (a := .tick (t - s.now)) (restrict_eq_some.mpr
    ⟨fun w c next hpc => absurd hpc (h w c next), ?_⟩)
  simp only [step, Nat.add_sub_cancel' ht]

/-- Nobody is between the statements of a claim. -/
theorem Sys.IsQuiet.not_claiming (h : s.IsQuiet) (w : WorkerId) (c : Claim) (next : ClaimStep) :
    s.pcs w ≠ .claiming c next := by
  obtain hpc | hpc := h.pcs w <;> rw [hpc] <;> nofun

/-- The statements of an expansion transaction from its `INSERT` on, when the worker holds the only
locks. -/
theorem expandSource_steps {began : Time} {src : Expandable} {t : Sys} (hun : t.unlock w = s) :
    Reachable (restrict (Timely cfg) (step cfg)) (t.setPc w (.inserting began src))
      ((s.withStore (expandSource s.store began src)).setPc w .idle) := by
  subst hun
  have h₁ : step cfg (t.setPc w (.inserting began src)) (.step w) =
      some ((t.withStore (insertDeliveries t.store began src).2).setPc w
        (.marking src (insertDeliveries t.store began src).1)) := by
    simp only [step, workerStep, Sys.setPc_pcs_self]
    exact congrArg some (Sys.setPc_setPc (s := t.withStore (insertDeliveries t.store began src).2))
  have h₂ : step cfg ((t.withStore (insertDeliveries t.store began src).2).setPc w
      (.marking src (insertDeliveries t.store began src).1)) (.step w) =
      some ((t.withStore (insertDeliveries t.store began src).2).setPc w
        (.committing src (insertDeliveries t.store began src).1)) := by
    simp only [step, workerStep, Sys.setPc_pcs_self]
    exact congrArg some Sys.setPc_setPc
  have h₃ : step cfg ((t.withStore (insertDeliveries t.store began src).2).setPc w
      (.committing src (insertDeliveries t.store began src).1)) (.step w) =
      some (((t.unlock w).withStore (expandSource t.store began src)).setPc w .idle) := by
    simp only [step, workerStep, Sys.setPc_pcs_self]
    exact congrArg some
      (Sys.setPc_setPc (s := (t.unlock w).withStore (expandSource t.store began src)))
  exact ((timely_of_step w h₁).trans (timely_of_step w h₂)).trans (timely_of_step w h₃)

/-- The tenant's advisory lock is the worker's. -/
def Sys.withAdvisoryLock (s : Sys) (k : Int) (w : WorkerId) : Sys :=
  { s with advisoryLocks := (k, w) :: s.advisoryLocks }

/-- The replay's row lock is the worker's. -/
def Sys.withRowLock (s : Sys) (r : Uuid) (w : WorkerId) : Sys :=
  { s with rowLocks := (r, w) :: s.rowLocks }

/-- A lock that is taken and given back leaves no trace. -/
theorem Sys.IsQuiet.unlock_advisory (h : s.IsQuiet) (k : Int) : (s.withAdvisoryLock k w).unlock w = s := by
  simp only [Sys.unlock, Sys.withAdvisoryLock, h.advisoryLocks, h.rowLocks, List.filter_cons,
    List.filter_nil, ne_eq, not_true_eq_false, decide_false, Bool.false_eq_true, if_false]
  rw [← h.advisoryLocks, ← h.rowLocks]

theorem Sys.IsQuiet.unlock_row (h : s.IsQuiet) (r : Uuid) : (s.withRowLock r w).unlock w = s := by
  simp only [Sys.unlock, Sys.withRowLock, h.advisoryLocks, h.rowLocks, List.filter_cons, List.filter_nil,
    ne_eq, not_true_eq_false, decide_false, Bool.false_eq_true, if_false]
  rw [← h.advisoryLocks, ← h.rowLocks]

/-- The tenants of an expansion, by induction on the list: a lock, the statements, the unlock. -/
theorem tryTenants_steps (hq : s.IsQuiet) : ∀ {tenantIds : List Uuid},
    Reachable (restrict (Timely cfg) (step cfg)) (s.setPc w (.expanding tenantIds))
      ((s.withStore (tryTenants s.now s.store tenantIds).1).setPc w .idle) := by
  intro tenantIds
  induction tenantIds with
  | nil =>
      refine timely_of_step w ?_
      simp only [step, workerStep, Sys.setPc_pcs_self]
      exact congrArg some Sys.setPc_setPc
  | cons t rest ih =>
      -- the lock is free, and what the transaction then reads is what the store has
      have hlock : step cfg (s.setPc w (.expanding (t :: rest))) (.step w) =
          some ((s.withAdvisoryLock (cfg.hashtext t) w).setPc w (.selecting s.now t rest)) := by
        simp only [step, workerStep, Sys.setPc_pcs_self]
        rw [if_neg (by simp [Sys.setPc, hq.advisoryLocks])]
        exact congrArg some (Sys.setPc_setPc (s := s.withAdvisoryLock (cfg.hashtext t) w))
      have hstore : ((s.withAdvisoryLock (cfg.hashtext t) w).setPc w (.selecting s.now t rest)).store =
        s.store := rfl
      refine (timely_of_step w hlock).trans ?_
      cases he : selectEvent s.store t with
      | none =>
          have hnext : step cfg ((s.withAdvisoryLock (cfg.hashtext t) w).setPc w (.selecting s.now t rest))
              (.step w) = some (s.setPc w (.expanding rest)) := by
            simp only [step, workerStep, Sys.setPc_pcs_self, hstore, he]
            refine congrArg some (Eq.trans
              (Sys.setPc_setPc (s := (s.withAdvisoryLock (cfg.hashtext t) w).unlock w)) ?_)
            rw [hq.unlock_advisory]
          simp only [tryTenants, he]
          exact (timely_of_step w hnext).trans ih
      | some e =>
          have hnext : step cfg ((s.withAdvisoryLock (cfg.hashtext t) w).setPc w (.selecting s.now t rest))
              (.step w) = some ((s.withAdvisoryLock (cfg.hashtext t) w).setPc w
                (.inserting s.now (.event e))) := by
            simp only [step, workerStep, Sys.setPc_pcs_self, hstore, he]
            exact congrArg some Sys.setPc_setPc
          simp only [tryTenants, he]
          exact (timely_of_step w hnext).trans (expandSource_steps (hq.unlock_advisory _))

/-- The batches of a replay expansion, in the same way. -/
theorem tryReplays_steps (hq : s.IsQuiet) : ∀ {replayIds : List Uuid},
    Reachable (restrict (Timely cfg) (step cfg)) (s.setPc w (.replaying replayIds))
      ((s.withStore (tryReplays cfg w s.now s.store replayIds).1).setPc w .idle) := by
  intro replayIds
  induction replayIds with
  | nil =>
      refine timely_of_step w ?_
      simp only [step, workerStep, Sys.setPc_pcs_self]
      exact congrArg some Sys.setPc_setPc
  | cons r rest ih =>
      have hstore : (s.setPc w (.replaying (r :: rest))).store = s.store := rfl
      cases hr : selectReplay s.store r with
      | none =>
          have hnext : step cfg (s.setPc w (.replaying (r :: rest))) (.step w) =
              some (s.setPc w (.replaying rest)) := by
            simp only [step, workerStep, Sys.setPc_pcs_self, hstore, hr]
            exact congrArg some Sys.setPc_setPc
          simp only [tryReplays, hr]
          exact (timely_of_step w hnext).trans ih
      | some row =>
          have hnext : step cfg (s.setPc w (.replaying (r :: rest))) (.step w) =
              some ((s.withRowLock r w).setPc w (.inserting s.now (.replay row (cfg.readRange w row)))) := by
            simp only [step, workerStep, Sys.setPc_pcs_self, hstore, hr]
            rw [if_neg (by simp [Sys.setPc, hq.rowLocks])]
            exact congrArg some (Sys.setPc_setPc (s := s.withRowLock r w))
          simp only [tryReplays, hr]
          exact (timely_of_step w hnext).trans (expandSource_steps (hq.unlock_row r))

/-- A worker that is idle again is where it was. -/
theorem Sys.setPc_idle (h : s.pcs w = .idle) (st : Store) : (s.withStore st).setPc w .idle = s.withStore st :=
  Sys.setPc_self (s := s.withStore st) h

/-- An expansion cycle of one worker is a run of the system. -/
theorem runExpansionCycle_steps (hq : s.IsQuiet) (hpc : s.pcs w = .idle) :
    Reachable (restrict (Timely cfg) (step cfg)) s (s.withStore (runExpansionCycle s.now s.store).1) := by
  have hstart : step cfg s (.start w .expansion) =
      some (s.setPc w (.expanding (expansionCandidates s.store))) := by
    simp only [step, hpc, if_true]
  have h := (timely_of_worker rfl hstart).trans (@tryTenants_steps cfg _ w hq _)
  rwa [Sys.setPc_idle hpc] at h

/-- So is a replay expansion cycle. -/
theorem runReplayExpansionCycle_steps (hq : s.IsQuiet) (hpc : s.pcs w = .idle) :
    Reachable (restrict (Timely cfg) (step cfg)) s
      (s.withStore (runReplayExpansionCycle cfg w s.now s.store).1) := by
  have hstart : step cfg s (.start w .replay) =
      some (s.setPc w (.replaying (replayCandidates s.store))) := by
    simp only [step, hpc, if_true]
  have h := (timely_of_worker rfl hstart).trans (@tryReplays_steps cfg _ w hq _)
  rwa [Sys.setPc_idle hpc] at h

/-- From a claimed delivery to its write-back: the request is issued unless its address was refused. -/
theorem complete_steps {claimed : ClaimedDelivery} {result : AttemptOutcome} {random : Jitter}
    (hpc : s.pcs w = .holding claimed) :
    Reachable (restrict (Timely cfg) (step cfg)) s
      ((s.withStore (completeDelivery cfg s.now s.store claimed result random none).2).setPc w .idle) := by
  by_cases herr : result.errorClass = some .urlNotAllowed
  · refine timely_of_worker (l := .complete w result random none) rfl ?_
    simp only [step, hpc, if_pos herr]
  · have hsend : step cfg s (.send w) = some (s.setPc w (.sent claimed)) := by simp only [step, hpc]
    refine (timely_of_worker rfl hsend).trans
      (timely_of_worker (l := .complete w result random none) rfl ?_)
    simp only [step, Sys.setPc_pcs_self]
    exact congrArg some
      (Sys.setPc_setPc (s := s.withStore (completeDelivery cfg s.now s.store claimed result random none).2))

/-- So is a delivery cycle, up to the instant its answer is written back. -/
theorem runDeliveryCycle_steps (hq : s.IsQuiet) (hpc : s.pcs w = .idle) (hnow : p.now = s.now)
    (hdone : p.now ≤ p.doneAt) (hscan : (p.scan s.store.endpoints).Perm s.store.endpoints) :
    Reachable (restrict (Timely cfg) (step cfg)) s
      { s with store := (runDeliveryCycle cfg p s.store).1, now := p.doneAt } := by
  rcases hc : claimDelivery cfg p.now s.store (p.scan s.store.endpoints) with ⟨st', r⟩
  have hclaim := claimDelivery_steps hpc (List.isPerm_iff.mpr hscan) (hnow ▸ hc)
  have hidle : ∀ st : Store, Reachable (restrict (Timely cfg) (step cfg)) (s.withStore st)
      { s with store := st, now := p.doneAt } := fun st =>
    tick_steps (hq.withStore st).not_claiming (hnow.ge.trans hdone)
  cases r with
  | claimed claimed =>
      -- the clock advances while the request is out
      have htick : Reachable (restrict (Timely cfg) (step cfg)) ((s.withStore st').setPc w (.holding claimed))
          { (s.withStore st').setPc w (.holding claimed) with now := p.doneAt } := by
        refine tick_steps (fun w' c next h => ?_) (hnow.ge.trans hdone)
        by_cases hw : w' = w
        · rw [hw, Sys.setPc_pcs_self] at h
          cases h
        · rw [Sys.setPc_pcs_of_ne hw] at h
          exact (hq.withStore st').not_claiming w' c next h
      have hend := @complete_steps cfg { (s.withStore st').setPc w (.holding claimed) with now := p.doneAt } w
        claimed (p.result claimed) p.random (Sys.setPc_pcs_self _)
      have hself : ∀ st : Store, (Sys.withStore { (s.withStore st').setPc w (.holding claimed) with
          now := p.doneAt } st).setPc w .idle = { s with store := st, now := p.doneAt } := fun st =>
        (Sys.setPc_setPc (s := { s with store := st, now := p.doneAt })).trans (Sys.setPc_self hpc)
      rw [hself] at hend
      rw [runDeliveryCycle_claimed hc]
      exact (hclaim.trans htick).trans hend
  | next | none | threw =>
      rw [runDeliveryCycle_other hc (by simp)]
      simp only [Pc.afterCall, Sys.setPc_idle hpc] at hclaim
      exact hclaim.trans (hidle st')

/-- The two expansion cycles, at an instant that has come. -/
theorem expansions_steps {now : Time} (hq : s.IsQuiet) (hpc : s.pcs w = .idle) (hnow : s.now ≤ now) :
    Reachable (restrict (Timely cfg) (step cfg)) s
      { s with
        store := (runReplayExpansionCycle cfg w now (runExpansionCycle now s.store).1).1
        now := now } := by
  have htick : Reachable (restrict (Timely cfg) (step cfg)) s { s with now := now } :=
    tick_steps hq.not_claiming hnow
  have h₁ : Reachable (restrict (Timely cfg) (step cfg)) { s with now := now }
      { s with store := (runExpansionCycle now s.store).1, now := now } :=
    runExpansionCycle_steps (hq.later now) hpc
  generalize (runExpansionCycle now s.store).1 = st₁ at h₁ ⊢
  have h₂ : Reachable (restrict (Timely cfg) (step cfg)) { s with store := st₁, now := now }
      { s with store := (runReplayExpansionCycle cfg w now st₁).1, now := now } :=
    runReplayExpansionCycle_steps ((hq.later now).withStore st₁) hpc
  exact (htick.trans h₁).trans h₂

/-- A pass of an idle worker, with nobody else in the middle of anything, is a timely run. -/
theorem pass_steps (hq : s.IsQuiet) (hpc : s.pcs w = .idle) (hnow : s.now ≤ p.now) (hdone : p.now ≤ p.doneAt)
    (hscan : ∀ es : List Endpoint, (p.scan es).Perm es) :
    Reachable (restrict (Timely cfg) (step cfg)) s (s.afterPass cfg w p) := by
  rw [Sys.afterPass, pass_store]
  have hexp := @expansions_steps cfg s w p.now hq hpc hnow
  generalize (runReplayExpansionCycle cfg w p.now (runExpansionCycle p.now s.store).1).1 = st₂ at hexp ⊢
  have h₃ : Reachable (restrict (Timely cfg) (step cfg)) { s with store := st₂, now := p.now }
      { s with store := (runDeliveryCycle cfg p st₂).1, now := p.doneAt } :=
    runDeliveryCycle_steps ((hq.later p.now).withStore st₂) hpc rfl hdone (hscan _)
  exact hexp.trans h₃

theorem Sys.IsQuiet.afterPass (h : s.IsQuiet) : (s.afterPass cfg w p).IsQuiet :=
  ⟨h.pcs, h.advisoryLocks, h.rowLocks⟩

end

end Webhooks
