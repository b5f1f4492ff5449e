import Webhooks.Protocol.Exclusion

/-!
# Protocol — Order

Deliveries of an endpoint become visible in the order of their sequence values, and a claim
works on the lowest one that is unresolved.

* `Ordered`: what an expansion has inserted and not committed comes, on its endpoint, after every
  committed delivery.  **`ordered_of_serial`**: so it is in every run in which nobody moves while
  another worker is inside an expansion transaction.
* `HeadInv`, **`headInv_of_reachable`**: the head a claim has read is the lowest unresolved
  delivery of its endpoint, for as long as the claim holds its lease.
* **`serial_of_atomic`**: a run with atomic expansion transactions is such a run.
-/

namespace Webhooks

open Lib

/-- Uncommitted rows come after the committed deliveries of their endpoint. -/
def Ordered (s : Sys) : Prop :=
  ∀ w, ∀ r ∈ (s.pcs w).rows, ∀ d ∈ s.store.deliveries, d.endpointId = r.endpointId → d.seq < r.seq

/-- No unresolved delivery of the endpoint comes before this one. -/
def Lowest (st : Store) (endpointId id : Uuid) : Prop :=
  ∀ h ∈ st.deliveries, h.id = id → ∀ d ∈ st.deliveries, d.endpointId = endpointId →
    d.state.isTerminal = false → h.seq ≤ d.seq

/-- The head a claim has read and not marked yet. -/
def ClaimStep.head : ClaimStep → Option DeliveryRow
  | .checkHead head => head
  | .insertAttempt head | .markInFlight head _ _ => some head
  | _ => none

/-- The head of a claim that holds its lease is the lowest unresolved delivery. -/
def Pc.HeadFacts (st : Store) (pc : Pc) : Prop :=
  ∀ c next head, pc = .claiming c next → next.head = some head →
    Holds st c.candidate.id c.leaseId → Lowest st c.candidate.id head.id

def HeadInv (s : Sys) : Prop := ∀ w, (s.pcs w).HeadFacts s.store

section

variable {cfg : Config} {now : Time} {st st' : Store} {w : WorkerId} {pc pc' : Pc} {l : Label}
  {s s' : Sys} {endpointId leaseId id : Uuid}

/-! ### The head -/

theorem Lowest.of_eq (h : Lowest st endpointId id) (heq : st'.deliveries = st.deliveries) :
    Lowest st' endpointId id := by
  unfold Lowest
  rw [heq]
  exact h

/-- A step of somebody else keeps the head lowest: it resolves nothing back to unresolved on the
endpoint, and what it commits there comes later. -/
theorem Lowest.change (h : Lowest st endpointId id) (hc : DeliveriesChange cfg w pc l st st')
    (ht : TablesKeyed st) (hn : (st.endpoints.map (·.id)).Nodup) (hk : pc.KeyFacts st)
    (hr : RowsFresh st pc.rows) (hm : MarkFenced st w pc l) (hh : Holds st endpointId leaseId)
    (hne : ∀ id, pc.lease ≠ some (id, leaseId)) (hon : OnEndpoint st id endpointId)
    (hord : ∀ r ∈ pc.rows, ∀ d ∈ st.deliveries, d.endpointId = r.endpointId → d.seq < r.seq) :
    Lowest st' endpointId id := by
  obtain ⟨d₀, hd₀, hid₀, he₀⟩ := hon
  intro h' hh' hid d' hd' he hs
  have hseq : h'.seq = d₀.seq := by
    obtain ⟨h₁, hh₁, hc₁⟩ | ⟨hh', -⟩ := hc.mem_cases hh'
    · have : h₁ = d₀ := Table.eq_of_key ht.deliveryIds hh₁ hd₀ (by rw [← hc₁.id_eq, hid, hid₀])
      rw [hc₁.seq_eq, this]
    · exact absurd (hid₀.trans hid.symm) (hr.new h' hh' d₀ hd₀).1
  rw [hseq]
  obtain ⟨d, hd, hcd⟩ | ⟨hd', -⟩ := hc.mem_cases hd'
  · rw [hcd.endpointId_eq] at he
    rw [hcd.seq_eq]
    subst he
    obtain rfl | ⟨hfl, -, -⟩ := hcd.quiet ht hn hk hm hd hh hne
    · exact h d₀ hd₀ hid₀ d' hd rfl hs
    · exact h d₀ hd₀ hid₀ d hd rfl (by rw [hfl]; rfl)
  · exact (hord d' hd' d₀ hd₀ (he₀.trans he.symm)).le

/-- The head query returns the lowest unresolved delivery when nothing is in flight. -/
theorem fetchHead_lowest (ht : TablesKeyed st) (hnone : NoneInFlight st endpointId)
    {head : DeliveryRow} (h : fetchHead st endpointId = some head) :
    Lowest st endpointId head.id := by
  obtain ⟨d, hd, -, hof, hmin⟩ := fetchHead_eq_some ht.linked h
  intro h' hh' hid d' hd' he hs
  obtain rfl : h' = d := Table.eq_of_key ht.deliveryIds hh' hd (hid.trans hof.id)
  refine hmin d' hd' he ?_
  have hne := hnone d' hd' he
  cases hst : d'.state with
  | pending => rfl
  | inFlight => exact absurd hst hne
  | succeeded | failed => rw [hst] at hs; cases hs

/-- A worker's step keeps its head lowest. -/
theorem WorkerMove.headFacts (h : WorkerMove cfg now st w pc l st' pc') (ht : TablesKeyed st)
    (hx : pc.ExclFacts st) (hf : pc.HeadFacts st) : pc'.HeadFacts st' := by
  intro c next head hpc' hhead hh
  cases h with
  | outside _ _ _ hout => rw [hpc'] at hout; cases hout
  | fetch =>
      cases hpc'
      exact fetchHead_lowest ht (hx hh) hhead
  | checkDue =>
      cases hpc'
      cases hhead
      exact hf c _ _ rfl rfl hh
  | insert =>
      cases hpc'
      cases hhead
      exact (hf c _ _ rfl rfl hh).of_eq rfl
  | _ =>
      cases hpc' <;> cases hhead

theorem HeadInv.step (hl : LeaseInv cfg s) (hk : KeyInv s) (hx : ExclInv s) (hord : Ordered s)
    (hf : Fenced ClaimStep.isMark s l) (hi : HeadInv s) (h : step cfg s l = some s') :
    HeadInv s' := by
  intro w' c next head hpc hhead hh
  cases step_move h with
  | tick _ _ _ store pcs =>
      rw [store] at hh ⊢
      exact hi w' c next head (by rw [← pcs]; exact hpc) hhead hh
  | api _ _ pcs h =>
      rw [pcs] at hpc
      have hch : EndpointsChange s.now .idle s.store s'.store := h.endpoints
      exact (hi w' c next head hpc hhead
        (hh.before hch ((hl.worker w').lease_lt (by rw [hpc]; rfl)))).of_eq h.deliveries
  | worker w _ pcs h =>
      by_cases hw : w' = w
      · subst hw
        exact h.headFacts hk.tables (hx.worker w') (hi w') c next head hpc hhead hh
      · rw [pcs w' hw] at hpc
        have hlease : (s.pcs w').lease = some (c.candidate.id, c.leaseId) := by rw [hpc]; rfl
        have hh := hh.before (h.endpoints hl.ids) ((hl.worker w').lease_lt hlease)
        have hon : OnEndpoint s.store head.id c.candidate.id := by
          have hkw := hk.worker w'
          rw [hpc] at hkw
          cases next <;> cases hhead <;> first | exact hkw | exact hkw.1
        refine (hi w' c next head hpc hhead hh).change h.deliveries hk.tables hl.ids (hk.worker w)
          (hk.rows w) (fun _ _ _ _ hl hp => ?_) hh (fun id hid => ?_) hon (hord w)
        · subst hl
          exact hf.holds hp rfl
        · exact hw (hl.distinct _ _ _ _ _ hlease hid)

variable {p : Sys → Label → Prop} [DecidableRel p] {tenants : List Tenant}

/-- With fenced `in_flight` updates and ordered expansions, the head of every claim that holds its
lease is the lowest unresolved delivery. -/
theorem headInv_of_reachable
    (hp : ∀ s₁, Reachable (restrict p (step cfg)) (.init tenants) s₁ → ∀ l, p s₁ l →
      Fenced ClaimStep.isMark s₁ l)
    (hord : ∀ s₁, Reachable (restrict p (step cfg)) (.init tenants) s₁ → Ordered s₁)
    (h : Reachable (restrict p (step cfg)) (.init tenants) s) : HeadInv s :=
  h.inv (I := HeadInv) (fun _ _ _ _ h => by cases h) fun s₁ l s₂ hr hi hs => by
    obtain ⟨hl, hs⟩ := restrict_eq_some.mp hs
    exact hi.step (leaseInv_of_reachable hr.of_restrict) (keyInv_of_reachable hr.of_restrict)
      (exclInv_of_reachable hp hr) (hord s₁ hr) (hp s₁ hr l hl) hs

/-! ### Serial expansions -/

/-- While a worker is inside an expansion transaction nobody else moves. -/
def Serial (s : Sys) (l : Label) : Prop :=
  ∀ w, (s.pcs w).inTransaction = true → l.worker = some w

theorem Pc.inTransaction_of_rows {r : Delivery} (h : r ∈ pc.rows) : pc.inTransaction = true := by
  cases pc with
  | marking | committing => rfl
  | _ => cases h

/-- A step keeps expansions ordered when the worker that moves has no uncommitted row for an
endpoint another worker has one for. -/
theorem Ordered.step (hk : KeyInv s)
    (hapart : ∀ w w', l.worker = some w → w' ≠ w → ∀ r ∈ (s.pcs w').rows, ∀ d ∈ (s.pcs w).rows,
      d.endpointId ≠ r.endpointId)
    (hi : Ordered s) (h : step cfg s l = some s') : Ordered s' := by
  intro w' r hr d' hd' he
  cases step_move h with
  | tick _ _ _ store pcs =>
      rw [store] at hd'
      rw [pcs] at hr
      exact hi w' r hr d' hd' he
  | api _ _ pcs h =>
      rw [h.deliveries] at hd'
      rw [pcs] at hr
      exact hi w' r hr d' hd' he
  | worker w _ pcs h =>
      by_cases hw : w' = w
      · subst hw
        rcases h.rows_cases with hrows | ⟨hrows, heq⟩ | ⟨began, src, -, heq, hrows⟩ <;>
          rw [hrows] at hr
        · cases hr
        · rw [heq] at hd'
          exact hi w' r hr d' hd' he
        · -- the rows just inserted have the newest sequence values
          rw [heq] at hd'
          exact (hk.tables.deliveryLt d' hd').2.trans_le (newDeliveries_range hr).2.1
      · rw [pcs w' hw] at hr
        rcases h.deliveries.mem_cases hd' with ⟨d, hd, hc⟩ | ⟨hd', -⟩
        · rw [hc.endpointId_eq] at he
          rw [hc.seq_eq]
          exact hi w' r hr d hd he
        · exact absurd he (hapart w w' h.worker_eq hw r hr d' hd')

/-- In serial runs expansions are ordered. -/
theorem ordered_of_serial
    (hp : ∀ s₁, Reachable (restrict p (step cfg)) (.init tenants) s₁ → ∀ l, p s₁ l → Serial s₁ l)
    (h : Reachable (restrict p (step cfg)) (.init tenants) s) : Ordered s :=
  h.inv (I := Ordered) (fun _ _ h => by cases h) fun s₁ l s₂ hr hi hs => by
    obtain ⟨hl, hs⟩ := restrict_eq_some.mp hs
    refine hi.step (keyInv_of_reachable hr.of_restrict) (fun w w' hw hne r hr' => ?_) hs
    -- somebody else moves, so this worker is not inside a transaction
    have hin := hp s₁ hr l hl w' (Pc.inTransaction_of_rows hr')
    rw [hw] at hin
    exact absurd (Option.some.inj hin).symm hne

/-! ### Atomic expansions -/

/-- How many statements an expansion transaction has still to send. -/
def Pc.remaining : Pc → Nat
  | .selecting .. => 4
  | .inserting .. => 3
  | .marking .. => 2
  | .committing .. => 1
  | _ => 0

theorem Pc.inTransaction_iff : pc.inTransaction = true ↔ 0 < pc.remaining := by
  cases pc <;> simp [Pc.inTransaction, Pc.remaining]

/-- Nobody is inside an expansion transaction. -/
def Sys.Quiescent (s : Sys) : Prop := ∀ w, (s.pcs w).inTransaction = false

theorem workerStep_pcs_of_ne (h : workerStep cfg s w = some s') {w' : WorkerId} (hw : w' ≠ w) :
    s'.pcs w' = s.pcs w' := by
  unfold workerStep at h
  repeat' split at h
  all_goals
    cases h
    try exact if_neg hw

theorem Sys.setPc_remaining {t : Sys} {pc₁ : Pc} (h : t.setPc w pc₁ = s') :
    (s'.pcs w).remaining = pc₁.remaining := by
  rw [← h, Sys.setPc_pcs_self]

/-- A statement of an expansion transaction leaves fewer of them. -/
theorem workerStep_remaining (h : workerStep cfg s w = some s')
    (hin : (s.pcs w).inTransaction = true) : (s'.pcs w).remaining < (s.pcs w).remaining := by
  cases hpc : s.pcs w with
  | selecting began t ts =>
      simp only [workerStep, hpc] at h
      split at h <;> rw [Sys.setPc_remaining (Option.some.inj h)] <;> simp [Pc.remaining]
  | inserting | marking | committing =>
      simp only [workerStep, hpc] at h
      rw [Sys.setPc_remaining (Option.some.inj h)]
      simp [Pc.remaining]
  | _ => rw [hpc] at hin; cases hin

theorem Pc.remaining_le : pc.remaining ≤ 4 := by
  cases pc <;> simp [Pc.remaining]

/-- The condition on a step does not concern the statements of expansion transactions. -/
def IgnoresExpansion (q : Sys → Label → Prop) : Prop :=
  ∀ s w, (s.pcs w).inTransaction = true → q s (.step w)

/-- The rest of a transaction, with nobody else moving. -/
theorem finishTransaction_reachable {q : Sys → Label → Prop} [DecidableRel q]
    [DecidableRel fun s l => q s l ∧ Serial s l] (hq : IgnoresExpansion q) {n : Nat}
    (hother : ∀ w', w' ≠ w → (s.pcs w').inTransaction = false) (hn : (s.pcs w).remaining ≤ n)
    (h : finishTransaction cfg w n s = some s') :
    Reachable (restrict (fun s l => q s l ∧ Serial s l) (step cfg)) s s' ∧ s'.Quiescent := by
  have hdone : ∀ {t : Sys}, (∀ w', w' ≠ w → (t.pcs w').inTransaction = false) →
      (t.pcs w).inTransaction = false → t.Quiescent := by
    intro t ht hw w'
    by_cases hw' : w' = w
    · rw [hw']; exact hw
    · exact ht w' hw'
  induction n generalizing s with
  | zero =>
      cases h
      refine ⟨.refl _, hdone hother ?_⟩
      rw [← Bool.not_eq_true, Pc.inTransaction_iff]
      exact not_lt.mpr hn
  | succ n ih =>
      unfold finishTransaction at h
      split at h
      · next hin =>
          obtain ⟨s₁, h₁, h⟩ := Option.bind_eq_some_iff.mp h
          have hlt := workerStep_remaining h₁ hin
          obtain ⟨hr, hquiet⟩ := ih (fun w' hw' => by rw [workerStep_pcs_of_ne h₁ hw']; exact hother w' hw')
            (Nat.le_of_lt_succ (hlt.trans_le hn)) h
          have hser : Serial s (.step w) := by
            intro w' hw'
            by_contra hne
            have : w' ≠ w := fun heq => hne (congrArg some heq.symm)
            rw [hother w' this] at hw'
            cases hw'
          have hstep : restrict (fun s l => q s l ∧ Serial s l) (step cfg) s (.step w) = some s₁ :=
            restrict_eq_some.mpr ⟨⟨hq s w hin, hser⟩, h₁⟩
          exact ⟨(Reachable.one hstep).trans hr, hquiet⟩
      · next hin =>
          cases h
          exact ⟨.refl _, hdone hother (by simpa using hin)⟩

theorem Sys.Quiescent.setPc (hq : s.Quiescent) {pc₁ : Pc} (h : pc₁.inTransaction = false) :
    (s.setPc w pc₁).Quiescent := by
  intro w'
  by_cases hw : w' = w
  · rw [hw, Sys.setPc_pcs_self]
    exact h
  · rw [Sys.setPc_pcs_of_ne hw]
    exact hq w'

/-- No label but `step` enters an expansion transaction. -/
theorem step_quiescent (hq : s.Quiescent) (hl : ∀ w, l ≠ .step w) (h : step cfg s l = some s') :
    s'.Quiescent := by
  cases l with
  | start w job =>
      simp only [step] at h
      split at h <;> cases h
      refine hq.setPc ?_
      cases job <;> rfl
  | query | send =>
      simp only [step] at h
      repeat' split at h
      all_goals
        cases h
        try exact hq.setPc rfl
  | step w => exact absurd rfl (hl w)
  | complete w result random fault =>
      have hq' : ∀ st, (s.withStore st).Quiescent := fun _ => hq
      simp only [step] at h
      repeat' split at h
      all_goals
        cases h
        try exact (hq' _).setPc rfl
  | die w =>
      cases h
      have hq' : (s.unlock w).Quiescent := hq
      exact hq'.setPc rfl
  | _ =>
      have hpcs : s'.pcs = s.pcs := by
        cases step_move h with
        | tick _ _ _ _ pcs => exact pcs
        | api _ _ pcs => exact pcs
        | worker w _ _ h => cases h.worker_eq
      unfold Sys.Quiescent
      rw [hpcs]
      exact hq

/-- A run with atomic expansion transactions, from a state in which nobody is inside one, is a run in
which nobody moves while another worker is. -/
theorem serial_of_quiescent {q : Sys → Label → Prop} [DecidableRel q]
    [DecidableRel fun s l => q s l ∧ Serial s l] (hq : IgnoresExpansion q) (hquiet : s.Quiescent)
    (h : Reachable (restrict q (atomicStep cfg)) s s') :
    Reachable (restrict (fun s l => q s l ∧ Serial s l) (step cfg)) s s' ∧ s'.Quiescent := by
  refine h.inv (I := fun s' => Reachable (restrict (fun s l => q s l ∧ Serial s l) (step cfg)) s s' ∧
    s'.Quiescent) ⟨.refl _, hquiet⟩ fun s₁ l s₂ _ hi hs => ?_
  obtain ⟨hr, hquiet⟩ := hi
  obtain ⟨hql, hs⟩ := restrict_eq_some.mp hs
  have hser : Serial s₁ l := fun w hw => by rw [hquiet w] at hw; cases hw
  by_cases hl : ∃ w, l = .step w
  · obtain ⟨w, rfl⟩ := hl
    obtain ⟨s', h', hf⟩ := Option.bind_eq_some_iff.mp hs
    obtain ⟨hr', hquiet'⟩ := finishTransaction_reachable hq
      (fun w' hw' => by rw [workerStep_pcs_of_ne h' hw']; exact hquiet w') Pc.remaining_le hf
    exact ⟨(hr.tail (restrict_eq_some.mpr ⟨⟨hql, hser⟩, h'⟩)).trans hr', hquiet'⟩
  · have hl' : ∀ w, l ≠ .step w := fun w hw => hl ⟨w, hw⟩
    have hs' : step cfg s₁ l = some s₂ := by
      cases l with
      | step w => exact absurd rfl (hl' w)
      | _ => exact hs
    exact ⟨hr.tail (restrict_eq_some.mpr ⟨⟨hql, hser⟩, hs'⟩), step_quiescent hquiet hl' hs'⟩

/-- The same from the beginning. -/
theorem serial_of_atomic {q : Sys → Label → Prop} [DecidableRel q]
    [DecidableRel fun s l => q s l ∧ Serial s l] (hq : IgnoresExpansion q)
    (h : Reachable (restrict q (atomicStep cfg)) (.init tenants) s) :
    Reachable (restrict (fun s l => q s l ∧ Serial s l) (step cfg)) (.init tenants) s ∧
      s.Quiescent :=
  serial_of_quiescent hq (fun _ => rfl) h

end

end Webhooks
