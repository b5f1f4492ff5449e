import Mathlib.Data.Prod.Lex
import Webhooks.Lib.Drain
import Webhooks.Protocol.Work

/-!
# Properties — Drain

One worker that goes on polling, after whatever happened before: other workers may have died over their
claims, and deliveries may wait for their backoff.

* `Store.Drained`: everything is expanded, and every delivery of an active endpoint resolved.
* `pass_drained`, `pass_rank`: a pass of a drained store does nothing.  Any other pass does something, and
  lowers what is left, or finds that not everything is due.
* **`drains`**: the worker drains the store.
-/

namespace Webhooks

open Lib

/-- Everything is expanded, and every delivery of an active endpoint is resolved. -/
structure Store.Drained (st : Store) : Prop where
  events : ∀ e ∈ st.events, e.status = .expanded
  replays : ∀ r ∈ st.replays, r.status = .expanded
  deliveries : ∀ e ∈ st.endpoints, e.status = .active → ∀ d ∈ st.deliveries, d.endpointId = e.id →
    d.state.isTerminal = true

/-- The surroundings of a loop that goes on for ever: the clock does not go back or stop, and the database
accepts what the receivers answer. -/
structure Polling (polls : Nat → Poll) : Prop where
  begins : ∀ i, (polls i).now ≤ (polls i).doneAt
  next : ∀ i, (polls i).doneAt ≤ (polls (i + 1)).now
  goes : ∀ t, ∃ i, t ≤ (polls i).now
  scan : ∀ i es, ((polls i).scan es).Perm es
  accepts : ∀ i claimed, acceptsText ((polls i).result claimed).responseBodyTruncated = true

/-- The state before each pass. -/
def Sys.loop (cfg : Config) (w : WorkerId) (polls : Nat → Poll) (s : Sys) : Nat → Sys :=
  Drain.passes (fun i s => s.afterPass cfg w (polls i)) s

/-- What is left: first what waits for its expansion, then the attempts. -/
def Store.left (cfg : Config) (st : Store) : Nat ×ₗ Nat := toLex (st.waiting, st.work cfg)

section

variable {cfg : Config} {now : Time} {st st' : Store} {p : Poll} {polls : Nat → Poll} {s : Sys}
  {tenants : List Tenant} {w : WorkerId}

theorem left_eq_zero : st.left cfg = toLex (0, 0) ↔ st.Drained := by
  have hpend : ∀ s : ExpansionStatus, s = .expanded ↔ ¬ s = .pendingExpansion := by
    intro s
    cases s <;> decide
  have hwork : st.work cfg = 0 ↔ ∀ e ∈ st.endpoints, e.status = .active → ∀ d ∈ st.deliveries,
      d.endpointId = e.id → d.state.isTerminal = true := by
    rw [← not_iff_not, ← ne_eq, ← Nat.pos_iff_ne_zero, work_pos]
    simp only [not_forall, exists_prop, Bool.not_eq_true]
  have hwait : st.waiting = 0 ↔ (∀ e ∈ st.events, e.status = .expanded) ∧
      ∀ r ∈ st.replays, r.status = .expanded := by
    simp only [Store.waiting, Nat.add_eq_zero_iff, List.countP_eq_zero, decide_eq_true_eq, hpend]
  rw [Store.left, toLex_inj, Prod.mk.injEq, hwait, hwork]
  exact ⟨fun ⟨⟨h₁, h₂⟩, h₃⟩ => ⟨h₁, h₂, h₃⟩, fun h => ⟨⟨h.events, h.replays⟩, h.deliveries⟩⟩

/-! ### A drained store -/

theorem pass_drained (h : st.Drained) (hscan : (p.scan st.endpoints).Perm st.endpoints) :
    pass cfg w p st = (st, false) := by
  have h₁ : runExpansionCycle p.now st = (st, false) := by
    obtain ⟨e, he, hs, -⟩ | ⟨h₁, -⟩ := @runExpansionCycle_cases p.now st
    · rw [h.events e he] at hs
      cases hs
    · exact h₁
  have h₂ : runReplayExpansionCycle cfg w p.now st = (st, false) := by
    obtain ⟨r, hr, hs, -⟩ | ⟨h₂, -⟩ := @runReplayExpansionCycle_cases cfg p.now st w
    · rw [h.replays r hr] at hs
      cases hs
    · exact h₂
  -- a candidate has something unresolved
  have hnone : claimCandidates st p.now (p.now - cfg.leaseDurationMs) (p.scan st.endpoints) = [] := by
    refine List.eq_nil_iff_forall_not_mem.mpr fun c hc => ?_
    obtain ⟨e, he, hsome, rfl⟩ := claimCandidates_candidate hscan hc
    obtain ⟨a, ha⟩ := Option.isSome_iff_exists.mp hsome
    obtain ⟨d, hd, hon, hun⟩ := candidateOf_unresolved ha
    rw [h.deliveries e he (candidateOf_eq_some ha).2.1.1 d hd hon] at hun
    cases hun
  have h₃ : claimDelivery cfg p.now st (p.scan st.endpoints) = (st, .none) := by
    simp only [claimDelivery, hnone, tryCandidates]
  have h₃ : runDeliveryCycle cfg p st = (st, false) := runDeliveryCycle_other h₃ fun _ h => by cases h
  simp only [pass, h₁, h₂, h₃, Bool.or_self]

/-! ### Any other store -/

theorem CycleFrame.waiting (h : CycleFrame st st') : st'.waiting = st.waiting := by
  rw [Store.waiting, Store.waiting, h.events, h.replays]

theorem waiting_runReplayExpansionCycle (now : Time) (st : Store) :
    (runReplayExpansionCycle cfg w now st).1.waiting ≤ st.waiting := by
  obtain ⟨r, hr, hs, h⟩ | ⟨h, -⟩ := @runReplayExpansionCycle_cases cfg now st w <;> rw [h]
  exact (expandSource_waiting_replay hr hs).le

/-- What the cycles of a pass begin with, as they rely on it. -/
structure Ready (cfg : Config) (st : Store) : Prop where
  coherent : st.Coherent
  since : ∀ e ∈ st.endpoints, e.busy = e.busySince.isSome
  tenant : ∀ e ∈ st.endpoints, ∃ t ∈ st.tenants, t.id = e.tenantId
  decrypts : ∀ e ∈ st.endpoints, e.Decrypts cfg

/-- A pass does something and lowers what is left, or it finds nothing that can be done yet. -/
theorem pass_left (hr : Ready cfg (runReplayExpansionCycle cfg w p.now (runExpansionCycle p.now st).1).1)
    (hscan : ∀ es, (p.scan es).Perm es)
    (ha : ∀ claimed, acceptsText (p.result claimed).responseBodyTruncated = true) :
    (pass cfg w p st).2 = true ∧ (pass cfg w p st).1.left cfg < st.left cfg ∨
    (pass cfg w p st).2 = false ∧ Idles st (pass cfg w p st).1 ∧ (pass cfg w p st).1.left cfg = st.left cfg ∧
      (¬ st.Drained → ¬ st.Due cfg p.now) := by
  have hlt : ∀ {st' : Store}, st'.waiting < st.waiting → st'.left cfg < st.left cfg :=
    fun h => Prod.Lex.toLex_lt_toLex.mpr (.inl h)
  obtain ⟨e, he, hs, h₁⟩ | ⟨h₁, hev⟩ := @runExpansionCycle_cases p.now st
  · refine .inl ⟨by simp [pass, h₁], hlt ?_⟩
    rw [pass_store, runDeliveryCycle_frame.waiting, h₁]
    exact (waiting_runReplayExpansionCycle _ _).trans_lt (expandSource_waiting_event he hs)
  rw [h₁] at hr
  obtain ⟨r, hrow, hs, h₂⟩ | ⟨h₂, hre⟩ := @runReplayExpansionCycle_cases cfg p.now st w
  · refine .inl ⟨by simp [pass, h₁, h₂], hlt ?_⟩
    rw [pass_store, runDeliveryCycle_frame.waiting, h₁, h₂]
    exact expandSource_waiting_replay hrow hs
  rw [h₂] at hr
  -- nothing waits, so the pass is its delivery cycle
  have hpass : pass cfg w p st = runDeliveryCycle cfg p st := by simp [pass, h₁, h₂]
  have hwait : (runDeliveryCycle cfg p st).1.waiting = st.waiting := runDeliveryCycle_frame.waiting
  rw [hpass]
  obtain ⟨hdid, hless⟩ | ⟨hdid, hidle, hnot⟩ :=
    runDeliveryCycle_work hr.coherent hr.since hr.tenant hr.decrypts (hscan _) ha
  · exact .inl ⟨hdid, Prod.Lex.toLex_lt_toLex.mpr (.inr ⟨hwait, hless⟩)⟩
  · refine .inr ⟨hdid, hidle, by rw [Store.left, Store.left, hwait, hidle.work], fun hd => hnot ?_⟩
    refine Nat.pos_of_ne_zero fun hzero => hd ((@left_eq_zero cfg st).mp ?_)
    have hzero' : st.waiting = 0 := by
      rw [Store.waiting, List.countP_eq_zero.mpr fun e he => by simp [hev e he],
        List.countP_eq_zero.mpr fun r hr => by simp [hre r hr]]
    rw [Store.left, hzero, hzero']

/-! ### The loop -/

theorem loop_succ (i : Nat) : s.loop cfg w polls (i + 1) =
    (s.loop cfg w polls i).afterPass cfg w (polls i) := rfl

/-- What a pass keeps. -/
structure Tended (cfg : Config) (tenants : List Tenant) (w : WorkerId) (s : Sys) : Prop where
  reached : Reachable (restrict (Timely cfg) (step cfg)) (.init tenants) s
  quiet : s.IsQuiet
  idle : s.pcs w = .idle
  tenant : ∀ e ∈ s.store.endpoints, ∃ t ∈ s.store.tenants, t.id = e.tenantId
  decrypts : ∀ e ∈ s.store.endpoints, e.Decrypts cfg

theorem coherent_of_timely (h : Reachable (restrict (Timely cfg) (step cfg)) (.init tenants) s) :
    s.store.Coherent ∧ ∀ e ∈ s.store.endpoints, e.busy = e.busySince.isSome := by
  have hl := leaseInv_of_reachable h.of_restrict
  have hk := (keyInv_of_reachable h.of_restrict).tables
  have hx := exclInv_of_reachable
    (fun _ hr l _ => fenced_of_timely (fun _ _ hp => hp) hr ClaimStep.isMark l) h
  exact ⟨⟨hl.ids, hk.deliveryIds, hk.deliverySeqs, hk.linked, hx.one, hx.free⟩,
    fun e he => (hl.columns e he).since⟩

theorem expandSource_rows (src : Expandable) : (expandSource st now src).endpoints = st.endpoints ∧
    (expandSource st now src).tenants = st.tenants := by
  cases src <;> exact ⟨rfl, rfl⟩

/-- The expansions leave the endpoints and the tenants alone. -/
theorem expansions_rows (now : Time) (st : Store) :
    (runReplayExpansionCycle cfg w now (runExpansionCycle now st).1).1.endpoints = st.endpoints ∧
      (runReplayExpansionCycle cfg w now (runExpansionCycle now st).1).1.tenants = st.tenants := by
  have h₁ : (runExpansionCycle now st).1.endpoints = st.endpoints ∧
      (runExpansionCycle now st).1.tenants = st.tenants := by
    obtain ⟨e, -, -, h⟩ | ⟨h, -⟩ := @runExpansionCycle_cases now st <;> rw [h]
    · exact expandSource_rows _
    · exact ⟨rfl, rfl⟩
  generalize (runExpansionCycle now st).1 = st₁ at h₁ ⊢
  obtain ⟨r, -, -, h⟩ | ⟨h, -⟩ := @runReplayExpansionCycle_cases cfg now st₁ w <;> rw [h]
  · exact ⟨(expandSource_rows _).1.trans h₁.1, (expandSource_rows _).2.trans h₁.2⟩
  · exact h₁

theorem Tended.ready (h : Tended cfg tenants w s) (hnow : s.now ≤ now) :
    Ready cfg (runReplayExpansionCycle cfg w now (runExpansionCycle now s.store).1).1 := by
  obtain ⟨hep, htn⟩ := expansions_rows now s.store
  have hreach := h.reached.trans (@expansions_steps cfg s w now h.quiet h.idle hnow)
  generalize (runReplayExpansionCycle cfg w now (runExpansionCycle now s.store).1).1 = st₂ at hep htn hreach ⊢
  obtain ⟨hc, hsince⟩ := coherent_of_timely hreach
  refine ⟨hc, hsince, ?_, ?_⟩
  · rw [hep, htn]
    exact h.tenant
  · rw [hep]
    exact h.decrypts

theorem CycleFrame.tenant (h : CycleFrame st st')
    (ht : ∀ e ∈ st.endpoints, ∃ t ∈ st.tenants, t.id = e.tenantId) :
    ∀ e ∈ st'.endpoints, ∃ t ∈ st'.tenants, t.id = e.tenantId := by
  intro e' he'
  obtain ⟨e, he, heq, -⟩ := h.endpoints e' he'
  obtain ⟨t, hmem, hid⟩ := ht e he
  have hin : t.id ∈ st'.tenants.map (·.id) := by
    rw [h.tenants]
    exact List.mem_map_of_mem hmem
  obtain ⟨t', ht', hid'⟩ := List.mem_map.mp hin
  exact ⟨t', ht', hid'.trans (hid.trans heq.symm)⟩

theorem CycleFrame.decrypts (h : CycleFrame st st') (hd : ∀ e ∈ st.endpoints, e.Decrypts cfg) :
    ∀ e ∈ st'.endpoints, e.Decrypts cfg := by
  intro e' he'
  obtain ⟨e, he, -, hs, hs'⟩ := h.endpoints e' he'
  unfold Endpoint.Decrypts
  rw [hs, hs']
  exact hd e he

theorem afterPass_store : (s.afterPass cfg w p).store = (pass cfg w p s.store).1 := by
  rw [Sys.afterPass]

theorem Tended.afterPass (h : Tended cfg tenants w s) (hnow : s.now ≤ p.now) (hdone : p.now ≤ p.doneAt)
    (hscan : ∀ es, (p.scan es).Perm es) : Tended cfg tenants w (s.afterPass cfg w p) := by
  have hready := h.ready hnow
  have hframe := @runDeliveryCycle_frame cfg
    (runReplayExpansionCycle cfg w p.now (runExpansionCycle p.now s.store).1).1 p
  rw [← pass_store, ← afterPass_store] at hframe
  exact ⟨h.reached.trans (pass_steps h.quiet h.idle hnow hdone hscan), h.quiet.afterPass, h.idle,
    hframe.tenant hready.tenant, hframe.decrypts hready.decrypts⟩

theorem Tended.next {t : Sys} {i : Nat} (hp : Polling polls)
    (ht : Tended cfg tenants w t ∧ t.now ≤ (polls i).now) :
    Tended cfg tenants w (t.afterPass cfg w (polls i)) ∧
      (t.afterPass cfg w (polls i)).now ≤ (polls (i + 1)).now :=
  ⟨ht.1.afterPass ht.2 (hp.begins i) (hp.scan i), hp.next i⟩

/-- The loop is a run. -/
theorem Tended.loop (ht : Tended cfg tenants w s) (hp : Polling polls) (hnow : s.now ≤ (polls 0).now) (n : Nat) :
    Reachable (restrict (Timely cfg) (step cfg)) s (s.loop cfg w polls n) := by
  have hinv := Drain.passes_inv (P := fun i t => (Tended cfg tenants w t ∧ t.now ≤ (polls i).now) ∧
      Reachable (restrict (Timely cfg) (step cfg)) s t) (fun i t ⟨ht, hr⟩ => ⟨Tended.next hp ht,
    hr.trans (pass_steps ht.1.quiet ht.1.idle ht.2 (hp.begins i) (hp.scan i))⟩) ⟨⟨ht, hnow⟩, .refl s⟩ n
  exact hinv.2

/-- Passes lower what is left while something is due, so the loop drains the store; and a drained store stays
as it is. -/
theorem drained_of_tended (ht : Tended cfg tenants w s) (hp : Polling polls) (hnow : s.now ≤ (polls 0).now) :
    ∃ n, ∀ m, n ≤ m → (s.loop cfg w polls m).store.Drained ∧
      pass cfg w (polls m) (s.loop cfg w polls m).store = ((s.loop cfg w polls m).store, false) := by
  have hclock : ∀ t, ∃ i, ∀ j, i ≤ j → t ≤ (polls j).now := by
    have hmono : Monotone fun i => (polls i).now :=
      monotone_nat_of_le_succ fun i => (hp.begins i).trans (hp.next i)
    intro t
    obtain ⟨i, hi⟩ := hp.goes t
    exact ⟨i, fun j hij => hi.trans (hmono hij)⟩
  obtain ⟨n, hn⟩ := @Drain.exists_done Sys (Nat ×ₗ Nat) _ s
    (fun i t => Tended cfg tenants w t ∧ t.now ≤ (polls i).now) _ _ (fun t => t.store.Drained)
    (fun t => t.store.left cfg) (fun t u => u.store.Due cfg t) _ (fun i t ht => Tended.next hp ht)
    (fun i t ht hnot => by
      rw [afterPass_store]
      obtain ⟨-, hlt⟩ | ⟨-, hidle, heq, hlate⟩ :=
        pass_left (ht.1.ready ht.2) (hp.scan i) (hp.accepts i)
      · exact .inl hlt
      · exact .inr ⟨heq, fun _ hd => hidle.due hd, hlate hnot⟩)
    (fun t => exists_due cfg t.store) hclock ⟨ht, hnow⟩
  refine ⟨n, fun m hm => ?_⟩
  obtain ⟨k, rfl⟩ := Nat.exists_eq_add_of_le hm
  -- a drained store stays as it is
  have hstays : (s.loop cfg w polls (n + k)).store.Drained := by
    induction k with
    | zero => exact hn
    | succ k ih =>
        have hsame := @pass_drained cfg _ _ w (ih (Nat.le_add_right n k)) (hp.scan (n + k) _)
        rw [← Nat.add_assoc, loop_succ, Sys.afterPass, hsame]
        exact ih (Nat.le_add_right n k)
  exact ⟨hstays, pass_drained hstays (hp.scan _ _)⟩

/-- Whatever happened before and whichever workers died over it: from when the others are idle or dead, one
worker that goes on polling drains the store, and every later pass finds nothing to do. -/
theorem drains (h : Reachable (restrict (Timely cfg) (step cfg)) (.init tenants) s)
    (hpcs : ∀ w', s.pcs w' = .idle ∨ s.pcs w' = .dead) (hpc : s.pcs w = .idle)
    (htenant : ∀ e ∈ s.store.endpoints, ∃ t ∈ s.store.tenants, t.id = e.tenantId)
    (hdec : ∀ e ∈ s.store.endpoints, e.Decrypts cfg) (hp : Polling polls) (hnow : s.now ≤ (polls 0).now) :
    ∃ n, ∀ m, n ≤ m → (s.loop cfg w polls m).store.Drained ∧
      pass cfg w (polls m) (s.loop cfg w polls m).store = ((s.loop cfg w polls m).store, false) :=
  drained_of_tended ⟨h, isQuiet_of_reachable h.of_restrict hpcs, hpc, htenant, hdec⟩ hp hnow

end

/-- Polls once a second, over a receiver that answers every request with this status. -/
def pollsOf (status : Nat) (i : Nat) : Poll where
  now := 1000 * (i + 1)
  doneAt := 1000 * (i + 1)
  scan := id
  result _ := Sample.response status
  random := ⟨0, 1, Nat.one_pos⟩

theorem polling_pollsOf (status : Nat) : Polling (pollsOf status) where
  begins _ := le_rfl
  next i := Nat.mul_le_mul_left 1000 (Nat.le_succ (i + 1))
  goes t := ⟨t, (Nat.le_succ t).trans (Nat.le_mul_of_pos_left (t + 1) (by decide))⟩
  scan _ _ := .refl _
  accepts _ _ := (by decide : acceptsText [] = true)

open Sample in
/-- Worker 0 dies over its claim of the only delivery; worker 1 goes on. -/
theorem drains_sample : ∃ s, Reachable (restrict (Timely config) (step config)) start s ∧
    s.pcs 0 = .dead ∧ ¬ s.store.Drained ∧
    ∃ n, ∀ m, n ≤ m → (s.loop config 1 (pollsOf 500) m).store.Drained ∧
      pass config 1 (pollsOf 500 m) (s.loop config 1 (pollsOf 500) m).store =
        ((s.loop config 1 (pollsOf 500) m).store, false) := by
  obtain ⟨s, hs, hp⟩ := exists_of_run (restrict (TimelyAmong config [0]) (step config)) start
    (register :: publish 0 "k" ++ expand ++ claim 0 none 7 ++ [.die 0])
    (fun s => s.now = 0 && s.pcs 0 = .dead && s.store.endpoints = [endpoint (some (0, 3))] &&
      s.store.deliveries = [⟨2, 1, 0, .inFlight, 1, 0, 0, 1⟩] &&
      s.store.tenants.map (·.id) = [100]) (by decide)
  simp only [Bool.and_eq_true, decide_eq_true_eq] at hp
  obtain ⟨⟨⟨⟨hnow, hdead⟩, he⟩, hd⟩, ht⟩ := hp
  have hr : Reachable (restrict (Timely config) (step config)) start s :=
    timely_of_timelyAmong (fun _ _ => rfl) (fun _ _ h => h) (fun _ _ h _ => h) (.of_run hs)
  have hothers : ∀ w, w ≠ 0 → s.pcs w = .idle := fun w hw =>
    pcs_of_timelyAmong (fun _ _ h => h) (.of_run hs) (by simpa using hw)
  have hpcs : ∀ w, s.pcs w = .idle ∨ s.pcs w = .dead := by
    intro w
    by_cases hw : w = 0
    · exact .inr (hw ▸ hdead)
    · exact .inl (hothers w hw)
  refine ⟨s, hr, hdead, fun h => ?_, drains hr hpcs (hothers 1 (by decide)) ?_ ?_ (polling_pollsOf 500)
    (by rw [hnow]; exact Nat.zero_le _)⟩
  · have := h.deliveries (endpoint (some (0, 3))) (by rw [he]; exact List.mem_singleton_self _) rfl
      ⟨2, 1, 0, .inFlight, 1, 0, 0, 1⟩ (by rw [hd]; exact List.mem_singleton_self _) rfl
    cases this
  · intro e hmem
    rw [he] at hmem
    obtain rfl := List.mem_singleton.mp hmem
    have h100 : 100 ∈ s.store.tenants.map (·.id) := ht ▸ List.mem_singleton_self _
    obtain ⟨t, hmem', hid⟩ := List.mem_map.mp h100
    exact ⟨t, hmem', hid⟩
  · intro e hmem
    rw [he] at hmem
    obtain rfl := List.mem_singleton.mp hmem
    exact ⟨rfl, nofun⟩

end Webhooks
