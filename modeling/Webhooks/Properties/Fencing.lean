import Webhooks.Protocol.Keys

/-!
# Properties — Fencing

The write-back of a claim and the steps between the two.

* `Claims`, `Releases`: the steps that hand out a lease on an endpoint, and those that give one
  back: the defensive release of a claim and a committed write-back.
* `not_holds_of_reachable`: a lease that is gone stays gone.
* **`writeBack_fenced`**: the write-back of a claim makes all its changes or none, and none once
  the endpoint has been claimed again or the lease been given back.
-/

namespace Webhooks

open Lib

/-- The claiming `UPDATE` of the endpoint returned `leaseId`. -/
def Claims (s : Sys) (l : Label) (s' : Sys) (endpointId leaseId : Uuid) : Prop :=
  ∃ w cutoff candidate rest, l = .step w ∧ s.pcs w = .trying cutoff (candidate :: rest) ∧
    candidate.id = endpointId ∧
    s'.pcs w = .claiming ⟨candidate, rest, cutoff, leaseId, s.now⟩ .touchTenant

/-- The lease is given back: by the claim that took it, or by a committed write-back. -/
def Releases (cfg : Config) (s : Sys) (l : Label) (endpointId leaseId : Uuid) : Prop :=
  (∃ w c, l = .step w ∧ s.pcs w = .claiming c .release ∧ c.candidate.id = endpointId ∧
    c.leaseId = leaseId) ∨
  ∃ w claimed result random fault o, l = .complete w result random fault ∧
    (s.pcs w = .holding claimed ∨ s.pcs w = .sent claimed) ∧ claimed.endpointId = endpointId ∧
    claimed.leaseId = leaseId ∧ o ≠ .leaseLost ∧
    (completeDelivery cfg s.now s.store claimed result random fault).1 = some o

section

variable {cfg : Config} {s s' s₀ s₁ s₂ : Sys} {l a : Label} {tenants : List Tenant}
  {endpointId leaseId leaseId' : Uuid}

/-- A lease handed out before and not held is not held after any run. -/
theorem not_holds_of_reachable (h₀ : Reachable (step cfg) (.init tenants) s)
    (hl : leaseId < s.store.uuids) (hn : ¬ Holds s.store endpointId leaseId)
    (h : Reachable (step cfg) s s') : ¬ Holds s'.store endpointId leaseId := by
  have hinv := h.inv (I := fun s₁ => leaseId < s₁.store.uuids ∧ ¬ Holds s₁.store endpointId leaseId)
    ⟨hl, hn⟩ fun s₁ a s₂ hr hi hs => ?_
  · exact hinv.2
  obtain ⟨hl₁, hn₁⟩ := hi
  cases step_move hs with
  | tick _ _ _ store => rw [store]; exact ⟨hl₁, hn₁⟩
  | api _ _ _ h =>
      have hch : EndpointsChange s₁.now .idle s₁.store s₂.store := h.endpoints
      exact ⟨hl₁.trans_le h.uuids_le, fun hh => hn₁ (hh.before hch hl₁)⟩
  | worker w _ _ h =>
      have hch := h.endpoints (leaseInv_of_reachable (h₀.trans hr)).ids
      exact ⟨hl₁.trans_le h.uuids_le, fun hh => hn₁ (hh.before hch hl₁)⟩

/-- After the claiming `UPDATE` the endpoint carries the lease it returned, which is new. -/
theorem Claims.holds (h : Claims s l s' endpointId leaseId) (hs : step cfg s l = some s') :
    Holds s'.store endpointId leaseId ∧ leaseId = s.store.uuids ∧ leaseId < s'.store.uuids := by
  obtain ⟨w, cutoff, candidate, rest, rfl, hpc, rfl, hpc'⟩ := h
  simp only [step, workerStep, hpc] at hs
  split at hs <;> cases hs
  case h_1 =>
      rw [Sys.setPc_pcs_self] at hpc'
      cases hpc'
  case h_2 ℓ st hc =>
      rw [Sys.setPc_pcs_self] at hpc'
      cases hpc'
      obtain ⟨rfl, ha, rfl⟩ := claimEndpoint_some hc
      obtain ⟨e, he, hp⟩ := List.any_eq_true.mp ha
      exact ⟨⟨_, Table.mem_update_of_pos he hp, Endpoint.id_of_isClaimable (e := e) hp, rfl⟩, rfl,
        Nat.lt_succ_self _⟩

/-- After the step that gives a lease back nobody holds it. -/
theorem Releases.not_holds (h : Releases cfg s l endpointId leaseId) (hs : step cfg s l = some s') :
    ¬ Holds s'.store endpointId leaseId := by
  obtain ⟨w, c, rfl, hpc, rfl, rfl⟩ | ⟨w, claimed, result, random, fault, o, rfl, hpc, rfl, rfl, ho, hr⟩ := h
  · simp only [step, workerStep, hpc, claimStep] at hs
    cases hs
    rintro ⟨e, he, hid, hl⟩
    obtain ⟨-, hp⟩ | ⟨e, -, -, rfl⟩ := Table.mem_update_cases he
    · simp [hid, hl] at hp
    · cases hl
  · have hst : s'.store = (completeDelivery cfg s.now s.store claimed result random fault).2 := by
      obtain hpc | hpc := hpc <;> simp only [step, hpc] at hs
      · split at hs <;> cases hs
        rfl
      · cases hs
        rfl
    obtain hc | ⟨-, hc⟩ | ⟨-, -, hc⟩ := completeDelivery_cases cfg s.now s.store claimed result random fault
    · rw [hc] at hr
      cases hr
    · rw [hc] at hr
      exact absurd (Option.some.inj hr).symm ho
    · rw [hst, hc]
      rintro ⟨e, he, hid, hl⟩
      obtain ⟨-, hp⟩ | ⟨e, -, -, rfl⟩ := Table.mem_update_cases he
      · exact of_decide_eq_false hp hid
      · rw [(Endpoint.resolve_columns _ e).2.2] at hl
        cases hl

/-- A worker's step that ends a lease claims the endpoint again, or gives the lease back. -/
theorem WorkerMove.ends_lease {w : WorkerId} (hn : (s.store.endpoints.map (·.id)).Nodup)
    (h : WorkerMove cfg s.now s.store w (s.pcs w) l s'.store (s'.pcs w))
    (hh : Holds s.store endpointId leaseId) (hnot : ¬ Holds s'.store endpointId leaseId) :
    (∃ leaseId', Claims s l s' endpointId leaseId') ∨ Releases cfg s l endpointId leaseId := by
  obtain ⟨e, he, hid, hl⟩ := hh
  have hsame : s'.store.endpoints ≠ s.store.endpoints := fun heq => hnot ⟨e, heq ▸ he, hid, hl⟩
  generalize hpc : s.pcs w = pc at h
  generalize hpc' : s'.pcs w = pc' at h
  generalize hst' : s'.store = st' at h hnot hsame
  cases h with
  | @claim cutoff c rest ℓ _ hc =>
      refine .inl ⟨ℓ, w, cutoff, c, rest, rfl, hpc, ?_, hpc'⟩
      obtain ⟨-, -, rfl⟩ := claimEndpoint_some hc
      by_contra hne
      refine hnot ⟨e, Table.mem_update_of_neg he ?_, hid, hl⟩
      simp [Endpoint.isClaimable, hid, Ne.symm hne]
  | close hc => exact absurd (closeOrphans_endpoints hc).1 hsame
  | @release c =>
      refine .inr (.inl ⟨w, c, rfl, hpc, ?_⟩)
      by_contra hne
      refine hnot ⟨e, Table.mem_update_of_neg he ?_, hid, hl⟩
      rw [← hid] at hne
      simp only [hl, Option.some.injEq, Bool.and_eq_false_iff, decide_eq_false_iff_not]
      by_contra hcon
      push Not at hcon
      exact hne ⟨hcon.1.symm, hcon.2.symm⟩
  | @complete _ claimed result random fault hp =>
      obtain hc | ⟨-, hc⟩ | ⟨hcur, -, hc⟩ :=
        completeDelivery_cases cfg s.now s.store claimed result random fault
      · exact absurd (by rw [hc]) hsame
      · exact absurd (by rw [hc]) hsame
      · refine .inr (.inr ⟨w, claimed, result, random, fault, resolution cfg claimed result, rfl,
          hpc ▸ hp, ?_⟩)
        have heid : claimed.endpointId = endpointId := by
          by_contra hne
          rw [hc] at hnot
          refine hnot ⟨e, Table.mem_update_of_neg he ?_, hid, hl⟩
          simpa [hid] using Ne.symm hne
        have hh : Holds s.store claimed.endpointId leaseId := ⟨e, he, hid.trans heid.symm, hl⟩
        refine ⟨heid, (holds_of_currentLease hcur).unique hn hh, ?_, by rw [hc]⟩
        unfold resolution
        split
        · intro h; cases h
        · split <;> simp
  | commit => exact absurd (commitExpansion_endpoints ..) hsame
  | _ => exact absurd rfl hsame

/-- Between two states the endpoint has been claimed again, or the lease been given back. -/
def Superseded (cfg : Config) (s₁ s₂ : Sys) (endpointId leaseId : Uuid) : Prop :=
  ∃ s a s', Reachable (step cfg) s₁ s ∧ step cfg s a = some s' ∧ Reachable (step cfg) s' s₂ ∧
    ((∃ leaseId', Claims s a s' endpointId leaseId') ∨ Releases cfg s a endpointId leaseId)

/-- A lease is held until the endpoint is claimed again or the lease is given back, and not
afterwards. -/
theorem holds_iff_not_superseded (h₀ : Reachable (step cfg) (.init tenants) s₀)
    (hs : step cfg s₀ l = some s₁) (hc : Claims s₀ l s₁ endpointId leaseId)
    (h : Reachable (step cfg) s₁ s₂) :
    Holds s₂.store endpointId leaseId ↔ ¬ Superseded cfg s₁ s₂ endpointId leaseId := by
  obtain ⟨hh, -, hlt⟩ := hc.holds hs
  have hs₁ := h₀.tail hs
  constructor
  · rintro hh₂ ⟨s, a, s', hr, ha, hr', hbetween⟩
    have hs' := (hs₁.trans hr).tail ha
    refine not_holds_of_reachable hs' (hlt.trans_le (uuids_le_of_reachable (hr.tail ha))) ?_ hr' hh₂
    obtain ⟨leaseId', hc'⟩ | hrel := hbetween
    · -- the new lease is younger than the claim's
      obtain ⟨hh', hnew, -⟩ := hc'.holds ha
      intro hold
      rw [← hh'.unique (leaseInv_of_reachable hs').ids hold, hnew] at hlt
      exact absurd hlt (not_lt.mpr (uuids_le_of_reachable hr))
    · exact hrel.not_holds ha
  · refine h.inv (I := fun s₂ => ¬ Superseded cfg s₁ s₂ endpointId leaseId →
      Holds s₂.store endpointId leaseId) (fun _ => hh) fun s a s' hr hi ha hn => ?_
    by_contra hnot
    have hh : Holds s.store endpointId leaseId := by
      refine hi fun ⟨t, b, t', ht, hb, ht', hbetween⟩ => hn ?_
      exact ⟨t, b, t', ht, hb, ht'.tail ha, hbetween⟩
    refine hn ⟨s, a, s', hr, ha, .refl s', ?_⟩
    cases step_move ha with
    | tick _ _ _ store => exact absurd (store ▸ hh) hnot
    | api _ _ _ h =>
        obtain ⟨e, he, hid, hl⟩ := hh
        obtain ⟨g, new, heq, hg, -⟩ := (h.endpoints : EndpointsChange s.now .idle s.store s'.store)
        obtain ⟨⟨hide, -⟩, hch⟩ := hg e he
        cases hch with
        | keep busy busySince leaseId =>
            exact absurd ⟨g e, Table.mem_of_rewrite heq he, hide.trans hid, leaseId.trans hl⟩ hnot
        | claimed hpc => cases hpc
        | released hpc => cases hpc
    | worker w _ _ h =>
        exact h.ends_lease (leaseInv_of_reachable (hs₁.trans hr)).ids hh hnot

/-- The write-back of a claim.  Once the endpoint has been claimed again or the lease been given
back, also by a write-back of the same claim, it finds its lease lost and the store stays as it
is.  Before that it makes all its changes, or throws, when a statement is refused, and makes
none. -/
theorem writeBack_fenced (h₀ : Reachable (step cfg) (.init tenants) s₀)
    (hs : step cfg s₀ l = some s₁) (hc : Claims s₀ l s₁ endpointId leaseId)
    (h : Reachable (step cfg) s₁ s₂) (claimed : ClaimedDelivery)
    (he : claimed.endpointId = endpointId) (hl : claimed.leaseId = leaseId) (result : AttemptOutcome)
    (random : Jitter) (fault : Option CompleteStatement) :
    (Superseded cfg s₁ s₂ endpointId leaseId →
      completeDelivery cfg s₂.now s₂.store claimed result random fault =
        (if fault = some .readLease then none else some .leaseLost, s₂.store)) ∧
    (¬ Superseded cfg s₁ s₂ endpointId leaseId →
      (completeDelivery cfg s₂.now s₂.store claimed result random fault = (none, s₂.store) ∧
        (fault ≠ none ∨ acceptsText result.responseBodyTruncated = false)) ∨
      completeDelivery cfg s₂.now s₂.store claimed result random fault =
        (some (resolution cfg claimed result),
          writeBack cfg s₂.now s₂.store claimed result random)) := by
  subst he hl
  have hiff := holds_iff_not_superseded h₀ hs hc h
  have hids := (leaseInv_of_reachable ((h₀.tail hs).trans h)).ids
  constructor
  · intro hsup
    have hcur : currentLease s₂.store claimed.endpointId ≠ some claimed.leaseId :=
      fun hcur => hiff.mp (holds_of_currentLease hcur) hsup
    by_cases hf : fault = some .readLease
    · rw [completeDelivery, if_pos hf, if_pos hf]
    · rw [completeDelivery, if_neg hf, if_neg hf, if_pos hcur]
  · intro hsup
    have hcur := currentLease_of_holds hids (hiff.mpr hsup)
    obtain hr | ⟨hne, -⟩ | ⟨-, -, hr⟩ :=
      completeDelivery_cases cfg s₂.now s₂.store claimed result random fault
    · refine .inl ⟨hr, ?_⟩
      by_contra hcon
      push Not at hcon
      obtain ⟨rfl, ha⟩ := hcon
      rw [completeDelivery_commits hcur (by simpa using ha)] at hr
      cases hr
    · exact absurd hcur hne
    · exact .inr hr

end

open Sample in
/-- Worker 1 writes back while it holds its lease, and in vain once worker 2 has taken the endpoint over. -/
theorem writeBack_fenced_sample : ∃ s₀ s₁ s₂ s₃, Reachable (step config) start s₀ ∧
    step config s₀ (.step 1) = some s₁ ∧ Claims s₀ (.step 1) s₁ 0 3 ∧ Reachable (step config) s₁ s₂ ∧
    Reachable (step config) s₂ s₃ ∧
    completeDelivery config s₂.now s₂.store claimed (response 200) ⟨0, 1, Nat.one_pos⟩ none =
      (some (resolution config claimed (response 200)),
        writeBack config s₂.now s₂.store claimed (response 200) ⟨0, 1, Nat.one_pos⟩) ∧
    completeDelivery config s₃.now s₃.store claimed (response 200) ⟨0, 1, Nat.one_pos⟩ none =
      (some .leaseLost, s₃.store) := by
  obtain ⟨s₀, h₀, hp⟩ := exists_of_run (step config) start
    (register :: publish 0 "k" ++ expand ++ claim 1 none 0)
    (fun s₀ => s₀.now = 0 && s₀.pcs 1 = .trying 0 [⟨0, 100, false⟩] &&
      (step config s₀ (.step 1)).any fun s₁ =>
        s₁.pcs 1 = .claiming ⟨⟨0, 100, false⟩, [], 0, 3, 0⟩ .touchTenant &&
          (run (step config) s₁ (List.replicate 6 (.step 1) ++ [.send 1])).any fun s₂ =>
            s₂.store.endpoints = [endpoint (some (0, 3))] &&
              (run (step config) s₂ (.tick 11 :: claim 2 (some (0, 3)) 1)).any fun s₃ =>
                s₃.store.endpoints = [endpoint (some (11, 5))]) (by decide +kernel)
  simp only [Bool.and_eq_true, decide_eq_true_eq, Option.any_eq_true] at hp
  obtain ⟨⟨hnow, hpc⟩, s₁, h₁, hpc', s₂, h₂, he₂, s₃, h₃, he₃⟩ := hp
  have hc : Claims s₀ (.step 1) s₁ 0 3 :=
    ⟨1, 0, ⟨0, 100, false⟩, [], rfl, hpc, rfl, by rw [hnow]; exact hpc'⟩
  have hr₀ : Reachable (step config) start s₀ := .of_run h₀
  have hr₂ : Reachable (step config) s₁ s₂ := .of_run h₂
  have hr₃ : Reachable (step config) s₂ s₃ := .of_run h₃
  have hheld : ¬ Superseded config s₁ s₂ 0 3 := (holds_iff_not_superseded hr₀ h₁ hc hr₂).mp
    ⟨endpoint (some (0, 3)), by rw [he₂]; exact List.mem_singleton_self _, rfl, rfl⟩
  have hlost : Superseded config s₁ s₃ 0 3 := by
    by_contra hnot
    obtain ⟨e, he, -, hlease⟩ := (holds_iff_not_superseded hr₀ h₁ hc (hr₂.trans hr₃)).mpr hnot
    rw [he₃, List.mem_singleton] at he
    subst he
    cases hlease
  refine ⟨s₀, s₁, s₂, s₃, hr₀, h₁, hc, hr₂, hr₃, ?_, ?_⟩
  · obtain ⟨-, hfault | htext⟩ | hdone := (writeBack_fenced hr₀ h₁ hc hr₂ claimed rfl rfl (response 200)
      ⟨0, 1, Nat.one_pos⟩ none).2 hheld
    · exact absurd rfl hfault
    · cases htext
    · exact hdone
  · exact (writeBack_fenced hr₀ h₁ hc (hr₂.trans hr₃) claimed rfl rfl (response 200) ⟨0, 1, Nat.one_pos⟩
      none).1 hlost

end Webhooks
