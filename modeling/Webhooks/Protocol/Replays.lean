import Webhooks.Protocol.Expansion
import Webhooks.Protocol.Requests

/-!
# Protocol — Replays

Replay expansion in every run, statement by statement: the replay's row is locked and read again
under its lock, so one transaction at a time is for a replay.

* `RowLockMove`, **`step_rowLocks`**: how a step changes the row locks, and where it leaves the
  worker that holds one.
* `step_replays`: replays are inserted pending and change at a commit only.
* `ReplayInv`, **`replayInv_of_reachable`**: the replay of an open transaction is locked by its
  worker and pending.
-/

namespace Webhooks

open Lib

/-- The replay of an open transaction. -/
def Pc.replay : Pc → Option Replay
  | .inserting _ (.replay r _) | .marking (.replay r _) _ | .committing (.replay r _) _ => some r
  | _ => none

/-- What a step does to the row locks. -/
inductive RowLockMove (s s' : Sys) : Prop
  | keep (locks : s'.rowLocks = s.rowLocks) (replay : ∀ w, (s'.pcs w).replay = (s.pcs w).replay)
  | lock (w : WorkerId) (r : Replay) (row : r ∈ s.store.replays ∧ r.status = .pendingExpansion)
      (store : s'.store = s.store) (free : ∀ k ∈ s.rowLocks, k.1 ≠ r.id)
      (locks : s'.rowLocks = (r.id, w) :: s.rowLocks) (others : ∀ w', w' ≠ w → s'.pcs w' = s.pcs w')
      (replay : (s'.pcs w).replay = some r)
  | release (w : WorkerId) (locks : s'.rowLocks = s.rowLocks.filter fun k => k.2 ≠ w)
      (others : ∀ w', w' ≠ w → s'.pcs w' = s.pcs w') (replay : (s'.pcs w).replay = none)

structure ReplayInv (s : Sys) : Prop where
  keys : (s.rowLocks.map Prod.fst).Nodup
  held : ∀ w r, (s.pcs w).replay = some r → (r.id, w) ∈ s.rowLocks
  source : ∀ w r, (s.pcs w).replay = some r → r ∈ s.store.replays ∧ r.status = .pendingExpansion
  pending : ∀ c row, s.replayCalls c = .inserting row → row.status = .pendingExpansion

section

variable {cfg : Config} {s s' : Sys} {l : Label} {w : WorkerId} {c : CallId} {tenants : List Tenant}
  {st : Store} {r row : Replay}

/-! ### Locks -/

/-- A worker's step that takes and releases no row lock. -/
theorem RowLockMove.of_setPc {t : Sys} {pc' : Pc} (locks : t.rowLocks = s.rowLocks)
    (pcs : t.pcs = s.pcs) (h : pc'.replay = (s.pcs w).replay) : RowLockMove s (t.setPc w pc') := by
  refine .keep locks fun w' => ?_
  by_cases hw : w' = w
  · rw [hw, Sys.setPc_pcs_self]
    exact h
  · rw [Sys.setPc_pcs_of_ne hw, pcs]

theorem RowLockMove.of_unlock {pc' : Pc} (st : Store) (h : pc'.replay = none) :
    RowLockMove s (((s.withStore st).unlock w).setPc w pc') :=
  .release w rfl (fun _ hw => Sys.setPc_pcs_of_ne (s := (s.withStore st).unlock w) hw _)
    (by rw [Sys.setPc_pcs_self]; exact h)

theorem Pc.replay_afterClaim (c : Claim) (r : ClaimResult) : (Pc.afterClaim c r).replay = none := by
  cases r <;> rfl

theorem selectReplay_eq_some {id : Uuid} (h : selectReplay st id = some row) :
    row ∈ st.replays ∧ row.id = id ∧ row.status = .pendingExpansion := by
  have hp := List.find?_some h
  simp only [Bool.and_eq_true, decide_eq_true_eq] at hp
  exact ⟨List.mem_of_find?_eq_some h, hp⟩

theorem workerStep_rowLocks (h : workerStep cfg s w = some s') : RowLockMove s s' := by
  cases hpc : s.pcs w with
  | idle | dead | listing | holding | sent => simp only [workerStep, hpc] at h; cases h
  | trying cutoff cs | expanding cs =>
      cases cs <;> simp only [workerStep, hpc] at h
      all_goals
        try split at h
        all_goals
          cases h
          exact .of_setPc rfl rfl (by rw [hpc]; rfl)
  | claiming c next =>
      simp only [workerStep, hpc] at h
      cases h
      exact .of_setPc rfl rfl (by rw [hpc, Pc.replay_afterClaim]; rfl)
  | selecting began t ts =>
      simp only [workerStep, hpc] at h
      split at h <;> cases h
      · exact .of_unlock s.store rfl
      · exact .of_setPc rfl rfl (by rw [hpc]; rfl)
  | replaying rs =>
      cases rs with
      | nil =>
          simp only [workerStep, hpc] at h
          cases h
          exact .of_setPc rfl rfl (by rw [hpc]; rfl)
      | cons id rs =>
          simp only [workerStep, hpc] at h
          split at h
          · cases h
            exact .of_setPc rfl rfl (by rw [hpc]; rfl)
          next row hrow =>
          obtain ⟨hmem, rfl, hst⟩ := selectReplay_eq_some hrow
          split at h
          · cases h
            exact .of_setPc rfl rfl (by rw [hpc]; rfl)
          · next hfree =>
              cases h
              refine .lock w row ⟨hmem, hst⟩ rfl (fun k hk heq => hfree ?_) rfl
                (fun _ hw => Sys.setPc_pcs_of_ne hw _) (by rw [Sys.setPc_pcs_self]; rfl)
              exact List.any_eq_true.mpr ⟨k, hk, decide_eq_true heq⟩
  | inserting began src | marking src rows =>
      simp only [workerStep, hpc] at h
      cases h
      refine .of_setPc rfl rfl ?_
      rw [hpc]
      cases src <;> rfl
  | committing src rows =>
      simp only [workerStep, hpc] at h
      cases h
      exact .of_unlock _ rfl

/-- A step of the API or the clock moves no worker and no row lock. -/
theorem step_api_rowLocks (hl : l.worker = none) (h : step cfg s l = some s') :
    s'.rowLocks = s.rowLocks ∧ s'.pcs = s.pcs := by
  cases l with
  | tick | register | pause | resume | rotate => cases h; exact ⟨rfl, rfl⟩
  | request | publish | abort | requestReplay | replay | abortReplay =>
      simp only [step, publishStep, replayStep] at h
      repeat' split at h
      all_goals
        cases h
        try exact ⟨rfl, rfl⟩
  | _ => cases hl

/-- How a step changes the row locks. -/
theorem step_rowLocks (h : step cfg s l = some s') : RowLockMove s s' := by
  cases l with
  | start w job =>
      simp only [step] at h
      split at h <;> cases h
      next hpc => cases job <;> exact .of_setPc rfl rfl (by rw [hpc]; rfl)
  | query w | send w | complete w =>
      simp only [step] at h
      repeat' split at h
      all_goals
        cases h
        try
          next hpc _ => exact .of_setPc rfl rfl (by rw [hpc]; rfl)
        try
          next hpc => exact .of_setPc rfl rfl (by rw [hpc]; rfl)
  | step w => exact workerStep_rowLocks h
  | die w =>
      cases h
      exact .of_unlock s.store rfl
  | _ =>
      obtain ⟨hlocks, hpcs⟩ := step_api_rowLocks rfl h
      exact .keep hlocks fun w => by rw [hpcs]

/-! ### Replays -/

/-- A step inserts the row of a call, or commits a replay's expansion. -/
theorem step_replays (h : step cfg s l = some s') :
    (∃ new, s'.store.replays = s.store.replays ++ new ∧
      ∀ row ∈ new, ∃ c, s.replayCalls c = .inserting row) ∨
    ∃ w r range rows, l = .step w ∧ s.pcs w = .committing (.replay r range) rows ∧
      s'.store.replays = expandReplays (some r) s.store.replays := by
  have hsame : s'.store.replays = s.store.replays →
      ∃ new, s'.store.replays = s.store.replays ++ new ∧
        ∀ row ∈ new, ∃ c, s.replayCalls c = .inserting row :=
    fun heq => ⟨[], heq.trans (List.append_nil _).symm, nofun⟩
  cases l with
  | tick | register | pause | resume | rotate => cases h; exact .inl (hsame rfl)
  | request | publish | abort | requestReplay | abortReplay =>
      simp only [step, publishStep] at h
      repeat' split at h
      all_goals
        cases h
        try exact .inl (hsame rfl)
  | replay c =>
      simp only [step, replayStep] at h
      split at h
      case h_8 row hc =>
          cases h
          refine .inl ⟨[row], rfl, fun row' hrow => ⟨c, ?_⟩⟩
          rw [List.mem_singleton.mp hrow]
          exact hc
      all_goals
        repeat' split at h
        all_goals
          cases h
          try exact .inl (hsame rfl)
  | start w | query w | step w | send w | complete w | die w =>
      cases step_move h with
      | tick _ hl => cases hl
      | api hl => cases hl
      | worker w' _ _ h =>
          rcases h.replays with hrows | ⟨r, rows, hl, hpc, hrows⟩
          · exact .inl (hsame hrows)
          · exact .inr ⟨w', r, rows, hl, hpc, hrows⟩

/-- A replay stays as it is, unless the step commits its expansion. -/
theorem step_replay_kept (h : step cfg s l = some s') (hr : r ∈ s.store.replays) :
    r ∈ s'.store.replays ∨ ∃ w r₀ range rows, l = .step w ∧
      s.pcs w = .committing (.replay r₀ range) rows ∧
      r₀.id = r.id := by
  rcases step_replays h with ⟨new, hrows, -⟩ | ⟨w, r₀, range, rows, hl, hpc, hrows⟩
  · rw [hrows]
    exact .inl (List.mem_append_left _ hr)
  · by_cases hid : r₀.id = r.id
    · exact .inr ⟨w, r₀, range, rows, hl, hpc, hid⟩
    · rw [hrows]
      exact .inl (Table.mem_update_of_neg hr (decide_eq_false fun h => hid h.symm))

/-! ### The invariant -/

theorem ReplayInv.init (tenants : List Tenant) : ReplayInv (.init tenants) where
  keys := .nil
  held := nofun
  source := nofun
  pending := nofun

/-- A replay has one worker inside its transaction. -/
theorem ReplayInv.worker_eq (hi : ReplayInv s) {w' : WorkerId} {r' : Replay}
    (h : (s.pcs w).replay = some r) (h' : (s.pcs w').replay = some r') (hid : r.id = r'.id) :
    w = w' :=
  congrArg Prod.snd (Table.eq_of_key hi.keys (hi.held w r h) (hi.held w' r' h') hid)

theorem RowLockMove.keys (h : RowLockMove s s') (hi : ReplayInv s) :
    (s'.rowLocks.map Prod.fst).Nodup := by
  cases h with
  | keep locks => rw [locks]; exact hi.keys
  | lock w r _ _ free locks =>
      rw [locks, List.map_cons, List.nodup_cons]
      refine ⟨fun hm => ?_, hi.keys⟩
      obtain ⟨k, hk, heq⟩ := List.mem_map.mp hm
      exact free k hk heq
  | release w locks =>
      rw [locks]
      exact (List.filter_sublist.map _).nodup hi.keys

theorem RowLockMove.held (h : RowLockMove s s') (hi : ReplayInv s) :
    ∀ w r, (s'.pcs w).replay = some r → (r.id, w) ∈ s'.rowLocks := by
  intro w r hr
  cases h with
  | keep locks replay =>
      rw [locks]
      exact hi.held w r (by rw [← replay]; exact hr)
  | lock w' r' _ _ _ locks others replay =>
      rw [locks]
      by_cases hw : w = w'
      · rw [hw, replay] at hr
        cases hr
        rw [hw]
        exact List.mem_cons_self
      · exact List.mem_cons_of_mem _ (hi.held w r (by rw [← others w hw]; exact hr))
  | release w' locks others replay =>
      by_cases hw : w = w'
      · rw [hw, replay] at hr
        cases hr
      · rw [locks]
        exact List.mem_filter.mpr ⟨hi.held w r (by rw [← others w hw]; exact hr), by simpa using hw⟩

/-- The replay of a transaction was its replay before, or has just been locked and read. -/
theorem RowLockMove.replay_cases (h : RowLockMove s s') (hr : (s'.pcs w).replay = some r) :
    (s.pcs w).replay = some r ∨
      s'.store = s.store ∧ r ∈ s.store.replays ∧ r.status = .pendingExpansion := by
  cases h with
  | keep _ replay => exact .inl (by rw [← replay]; exact hr)
  | lock w' r' row store _ _ others replay =>
      by_cases hw : w = w'
      · rw [hw, replay] at hr
        cases hr
        exact .inr ⟨store, row⟩
      · exact .inl (by rw [← others w hw]; exact hr)
  | release w' _ others replay =>
      by_cases hw : w = w'
      · rw [hw, replay] at hr
        cases hr
      · exact .inl (by rw [← others w hw]; exact hr)

theorem Sys.setReplayCall_inserting {t : Sys} {c' : CallId} {call : ReplayCall}
    (hcalls : t.replayCalls = s.replayCalls)
    (hc : (t.setReplayCall c' call).replayCalls c = .inserting row)
    (hcall : ∀ row, call = .inserting row → row.status = .pendingExpansion) :
    s.replayCalls c = .inserting row ∨ row.status = .pendingExpansion := by
  by_cases hcc : c = c'
  · rw [hcc, Sys.setReplayCall_calls_self] at hc
    exact .inr (hcall row hc)
  · rw [Sys.setReplayCall_calls_of_ne hcc, hcalls] at hc
    exact .inl hc

/-- A call inserts its replay pending. -/
theorem step_inserting (h : step cfg s l = some s') (hc : s'.replayCalls c = .inserting row) :
    s.replayCalls c = .inserting row ∨ row.status = .pendingExpansion := by
  cases l with
  | tick | register | pause | resume | rotate => cases h; exact .inl hc
  | request | publish | abort =>
      simp only [step, publishStep] at h
      repeat' split at h
      all_goals
        cases h
        try exact .inl hc
  | requestReplay c' q =>
      simp only [step] at h
      split at h <;> cases h
      refine Sys.setReplayCall_inserting rfl hc fun row => ?_
      split <;> simp
  | replay c' =>
      simp only [step, replayStep] at h
      repeat' split at h
      all_goals
        cases h
        try
          refine Sys.setReplayCall_inserting rfl hc fun row hrow => ?_
          cases hrow
          try rfl
  | abortReplay c' =>
      simp only [step] at h
      split at h <;> cases h <;> exact Sys.setReplayCall_inserting rfl hc (by simp)
  | start w | query w | step w | send w | complete w | die w =>
      rw [(step_replayCalls rfl h).1] at hc
      exact .inl hc

theorem ReplayInv.step (hi : ReplayInv s) (h : Webhooks.step cfg s l = some s') : ReplayInv s' where
  keys := (step_rowLocks h).keys hi
  held := (step_rowLocks h).held hi
  source w r hr := by
    rcases (step_rowLocks h).replay_cases hr with hold | ⟨hst, hrow⟩
    · obtain ⟨hmem, hpend⟩ := hi.source w r hold
      refine ⟨?_, hpend⟩
      rcases step_replay_kept h hmem with hkept | ⟨w₀, r₀, range, rows, rfl, hpc, hid⟩
      · exact hkept
      · obtain rfl : w₀ = w := hi.worker_eq (by rw [hpc]; rfl) hold hid
        rw [(commit_step hpc h).2] at hr
        cases hr
    · rw [hst]
      exact hrow
  pending c row hc := (step_inserting h hc).elim (hi.pending c row) id

theorem replayInv_of_reachable (h : Reachable (Webhooks.step cfg) (.init tenants) s) : ReplayInv s :=
  h.inv (.init tenants) fun _ _ _ _ hi hs => hi.step hs

end

end Webhooks
