import Webhooks.Protocol.Expansion

/-!
# Properties — Publication order

From the publisher's acknowledgement to the receiver: an event acknowledged before another of its
tenant was published is delivered to an endpoint, or has failed there, before the other one is
attempted.

* **`publication_order`**: in every timely run without replay expansions.
-/

namespace Webhooks

open Lib

/-- No claim outlives its lease, and nobody starts a replay expansion. -/
def TimelyNoReplay (cfg : Config) (s : Sys) (l : Label) : Prop := Timely cfg s l ∧ NoReplay s l

noncomputable instance (cfg : Config) : DecidableRel (TimelyNoReplay cfg) := fun _ _ =>
  Classical.propDecidable _

section

variable {cfg : Config} {s s' s₁ s₂ s₃ s₄ : Sys} {l : Label} {w : WorkerId} {tenants : List Tenant}

/-- A new attempt row is the head's of the claim whose step it is. -/
theorem step_newAttempt (h : step cfg s l = some s') {a : Attempt} (ha : a ∈ s'.store.attempts)
    (hnew : ∀ a' ∈ s.store.attempts, a'.id ≠ a.id) :
    ∃ w c head, s.pcs w = .claiming c (.insertAttempt head) ∧ a.deliveryId = head.id ∧
      DeliveriesChange cfg w (s.pcs w) l s.store s'.store := by
  cases step_move h with
  | tick _ _ _ store => exact absurd rfl (hnew a (by rw [← store]; exact ha))
  | api _ _ _ h => exact absurd rfl (hnew a (by rw [← h.attempts]; exact ha))
  | worker w _ _ h =>
      rcases h.attempts.mem_cases ha with ⟨a', ha', hch⟩ | ⟨c, head, -, hpc, -, rfl⟩
      · exact absurd hch.id_eq.symm (hnew a' ha')
      · exact ⟨w, c, head, hpc, rfl, h.deliveries⟩

/-- Two deliveries of one endpoint are of one tenant's events. -/
theorem ExpandInv.tenant_eq (hi : ExpandInv cfg s) (hn : (s.store.endpoints.map (·.id)).Nodup)
    {d₁ d₂ : Delivery} (hd₁ : d₁ ∈ s.store.deliveries) (hd₂ : d₂ ∈ s.store.deliveries)
    (hep : d₁.endpointId = d₂.endpointId) :
    ∃ e₁ ∈ s.store.events, ∃ e₂ ∈ s.store.events, e₁.id = d₁.eventId ∧ e₂.id = d₂.eventId ∧
      e₁.tenantId = e₂.tenantId := by
  obtain ⟨e₁, he₁, hid₁, -, ep₁, hep₁, hepid₁, ht₁⟩ := hi.delivered d₁ hd₁
  obtain ⟨e₂, he₂, hid₂, -, ep₂, hep₂, hepid₂, ht₂⟩ := hi.delivered d₂ hd₂
  obtain rfl : ep₁ = ep₂ := Table.eq_of_key hn hep₁ hep₂ (hepid₁.trans (hep.trans hepid₂.symm))
  exact ⟨e₁, he₁, e₂, he₂, hid₁, hid₂, ht₁.symm.trans ht₂⟩

/-- In every timely run without replay expansions: when an event was acknowledged before the other
one's row was inserted, and both get a delivery to an endpoint, an attempt of the other one's
delivery is inserted only when the first one's delivery is succeeded or failed. -/
theorem publication_order
    (h₁ : Reachable (restrict (TimelyNoReplay cfg) (step cfg)) (.init tenants) s₁)
    {c₁ : CallId} {id₁ id₂ : Uuid} {status : ExpansionStatus} (hack : s₁.calls c₁ = .acked id₁ status)
    (hnew : ∀ e ∈ s₁.allEvents, e.id ≠ id₂)
    (h₂ : Reachable (restrict (TimelyNoReplay cfg) (step cfg)) s₁ s₂)
    (hs : restrict (TimelyNoReplay cfg) (step cfg) s₂ l = some s₃)
    {a : Attempt} (ha : a ∈ s₃.store.attempts) (hinserted : ∀ a' ∈ s₂.store.attempts, a'.id ≠ a.id)
    {d₂ : Delivery} (hd₂ : d₂ ∈ s₃.store.deliveries) (hof : a.deliveryId = d₂.id)
    (hev₂ : d₂.eventId = id₂)
    (h₄ : Reachable (restrict (TimelyNoReplay cfg) (step cfg)) s₃ s₄)
    {d₁ : Delivery} (hd₁ : d₁ ∈ s₄.store.deliveries) (hev₁ : d₁.eventId = id₁)
    (hep : d₁.endpointId = d₂.endpointId) :
    ∃ d ∈ s₂.store.deliveries, d.id = d₁.id ∧ d.state.isTerminal = true := by
  have hp : ∀ s l, TimelyNoReplay cfg s l → NoReplay s l := fun _ _ h => h.2
  have ht : ∀ s l, TimelyNoReplay cfg s l → Timely cfg s l := fun _ _ h => h.1
  have hr₂ := h₁.trans h₂
  have hr₃ := hr₂.tail hs
  have hr₄ := hr₃.trans h₄
  have hk := keyInv_of_reachable hr₂.of_restrict
  obtain ⟨w, c, head, hpc, had, hch⟩ := step_newAttempt (restrict_eq_some.mp hs).2 ha hinserted
  -- the claim's head is the second event's delivery, and the lowest unresolved one
  obtain ⟨d₂', hd₂', hc⟩ : ∃ d ∈ s₂.store.deliveries, d.Change cfg s₂.store w (s₂.pcs w) l d₂ := by
    rcases hch.mem_cases hd₂ with h | ⟨hr, -⟩
    · exact h
    · rw [hpc] at hr
      cases hr
  have hid₂ : d₂'.id = head.id := by rw [← hc.id_eq, ← hof, had]
  have hx₂ : d₂'.endpointId = c.candidate.id := by
    have hkw := hk.worker w
    rw [hpc] at hkw
    obtain ⟨d, hd, hid, hde⟩ := hkw
    obtain rfl : d₂' = d := Table.eq_of_key hk.tables.deliveryIds hd₂' hd (hid₂.trans hid.symm)
    exact hde
  have hlow : Lowest s₂.store c.candidate.id head.id :=
    headInv_of_reachable (fun _ hr l _ => fenced_of_timely ht hr ClaimStep.isMark l)
      (fun _ hr => ordered_of_noReplay hp hr) hr₂ w c _ head hpc rfl (holds_of_timely ht hr₂ hpc)
  -- the two events are one tenant's
  obtain ⟨e₁, he₁, rfl⟩ := (publishInv_of_reachable h₁.of_restrict).known c₁ id₁
    (by rw [hack]; rfl)
  have htenant : ∀ e ∈ s₂.store.events, e.id = id₂ → e₁.tenantId = e.tenantId := by
    intro e he hid
    have hids := (publishInv_of_reachable hr₄.of_restrict).eventIds
    obtain ⟨d₂'', hd₂'', -, hev, hde, -⟩ :=
      (grows_of_reachable hr₃.of_restrict h₄.of_restrict).deliveries d₂ hd₂
    obtain ⟨f₁, hf₁, f₂, hf₂, hfid₁, hfid₂, hft⟩ :=
      (expandInv_of_reachable hp hr₄).tenant_eq (leaseInv_of_reachable hr₄.of_restrict).ids hd₁ hd₂''
        (hep.trans hde.symm)
    obtain ⟨g₁, hg₁, hgid₁, hgt₁, -⟩ := (grows_of_reachable h₁.of_restrict
      (h₂.of_restrict.trans ((Reachable.one hs).of_restrict.trans h₄.of_restrict))).events e₁ he₁
    obtain ⟨g₂, hg₂, hgid₂, hgt₂, -⟩ := (grows_of_reachable hr₂.of_restrict
      ((Reachable.one hs).of_restrict.trans h₄.of_restrict)).events e he
    obtain rfl : g₁ = f₁ := Table.eq_of_key hids hg₁ hf₁ (hgid₁.trans (hev₁.symm.trans hfid₁.symm))
    obtain rfl : g₂ = f₂ := Table.eq_of_key hids hg₂ hf₂
      (hgid₂.trans (hid.trans (hev₂.symm.trans (hev.symm.trans hfid₂.symm))))
    rw [← hgt₁, ← hgt₂, hft]
  obtain ⟨hexp, hlt⟩ := (expandedInOrder_of_reachable hp h₁ he₁ hnew h₂ htenant).deliveries d₂' hd₂'
    (hc.eventId_eq.symm.trans hev₂)
  -- the first event's delivery is there already, with a smaller sequence value
  obtain ⟨d, hd, hid, hdev, hde⟩ :=
    (expanded_of_reachable hp hr₂ hexp ((Reachable.one hs).trans h₄)).2 d₁ hd₁ hev₁
  have hdx : d.endpointId = c.candidate.id := by rw [hde, hep, hc.endpointId_eq, hx₂]
  refine ⟨d, hd, hid, ?_⟩
  by_contra hterm
  exact absurd (hlow d₂' hd₂' hid₂ d hd hdx (by simpa using hterm)) (not_le.mpr (hlt d hd hdev))

end

/-! ### Two events of one tenant -/

/-- Neither the clock nor a replay expansion moves. -/
def Label.isPlain : Label → Bool
  | .tick _ | .start _ .replay => false
  | _ => true

theorem timelyNoReplay_of_run {cfg : Config} {s s' : Sys} {labels : List Label}
    (hl : labels.all Label.isPlain = true) (h : run (step cfg) s labels = some s') :
    run (restrict (TimelyNoReplay cfg) (step cfg)) s labels = some s' := by
  rw [run_restrict fun a ha t => ?_]
  · exact h
  · have ha := List.all_eq_true.mp hl a ha
    cases a with
    | tick => cases ha
    | start w job =>
        cases job with
        | replay => cases ha
        | _ => exact ⟨trivial, trivial⟩
    | _ => exact ⟨trivial, trivial⟩

open Sample

/-- The first publish is acknowledged. -/
def acknowledged : List Label := register :: publish 0 "k" ++ [.publish 0]

/-- The second one follows; both are expanded, the first is delivered, and a claim has read the
second one's delivery. -/
def secondClaimed : List Label :=
  publish 1 "l" ++ expand ++ expand ++ claim 1 none 7 ++ deliver 1 200 ++ claim 1 none 4

theorem publication_order_sample : ∃ s₁ s₂ s₃ a d₁ d₂,
    Reachable (restrict (TimelyNoReplay config) (step config)) start s₁ ∧
    Reachable (restrict (TimelyNoReplay config) (step config)) s₁ s₂ ∧
    restrict (TimelyNoReplay config) (step config) s₂ (.step 1) = some s₃ ∧
    s₁.calls 0 = .acked 1 .pendingExpansion ∧ a ∈ s₃.store.attempts ∧ a.deliveryId = d₂.id ∧
    (d₂ ∈ s₃.store.deliveries ∧ d₂.eventId = 2) ∧ (d₁ ∈ s₃.store.deliveries ∧ d₁.eventId = 1) ∧
    ∃ d ∈ s₂.store.deliveries, d.id = d₁.id ∧ d.state.isTerminal = true := by
  obtain ⟨s₁, s₂, hs₁, hs₂, hp⟩ := exists_of_runs (step config) start acknowledged secondClaimed
    (fun s₁ s₂ => s₁.calls 0 = .acked 1 .pendingExpansion && (s₁.allEvents.all fun e => e.id ≠ 2) &&
      (s₂.store.attempts.all fun a => a.id ≠ 8) && ((step config s₂ (.step 1)).any fun s₃ =>
        (s₃.store.attempts.any fun a => a.id = 8 && a.deliveryId = 4) &&
        (s₃.store.deliveries.any fun d => d.id = 4 && d.eventId = 2 && d.endpointId = 0) &&
        s₃.store.deliveries.any fun d => d.eventId = 1 && d.endpointId = 0)) (by decide)
  simp only [Bool.and_eq_true, decide_eq_true_eq, List.all_eq_true, Option.any_eq_true,
    List.any_eq_true] at hp
  obtain ⟨⟨⟨hack, hnew⟩, hins⟩, s₃, hs₃, ⟨⟨a, ha, haid, hof⟩, d₂, hd₂, ⟨hid₂, hev₂⟩, hep₂⟩, d₁, hd₁,
    hev₁, hep₁⟩ := hp
  have hr₁ := Reachable.of_run (timelyNoReplay_of_run (by decide) hs₁)
  have hr₂ := Reachable.of_run (timelyNoReplay_of_run (by decide) hs₂)
  have hs : restrict (TimelyNoReplay config) (step config) s₂ (.step 1) = some s₃ :=
    restrict_eq_some.mpr ⟨⟨trivial, trivial⟩, hs₃⟩
  have h := publication_order hr₁ hack hnew hr₂ hs ha (fun a' ha' => haid ▸ hins a' ha') hd₂
    (hof.trans hid₂.symm) hev₂ (.refl s₃) hd₁ hev₁ (hep₁.trans hep₂.symm)
  exact ⟨s₁, s₂, s₃, a, d₁, d₂, hr₁, hr₂, hs, hack, ha, hof.trans hid₂.symm, ⟨hd₂, hev₂⟩,
    ⟨hd₁, hev₁⟩, h⟩

end Webhooks
