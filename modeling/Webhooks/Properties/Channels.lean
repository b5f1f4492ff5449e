import Webhooks.Properties.OneInFlight
import Webhooks.Properties.PublicationOrder
import Webhooks.Protocol.Queue

/-!
# Properties — Channels

Whatever the workers do, crash or lose, an endpoint is a first-in first-out channel.

* **`channel_refined`**: a timely run with atomic expansions, replays included, is a run of the channel of each
  endpoint.
* **`first_in_first_out`**: in timely runs without replays, whose expansions go on side by side statement by
  statement, deliveries are resolved in the order of their `seq`, and only the first unresolved one has been
  attempted.
-/

namespace Webhooks

open Lib

section

variable {cfg : Config} {s s' : Sys} {tenants : List Tenant}

/-- In every timely run with atomic expansions, what happens to the deliveries of an endpoint is a run of a
first-in first-out channel whose ceiling is `maxAttempts`: items arrive behind the others, the first one is
handed out until it is accepted or, after so many hand-outs, given up, and that closes the channel. -/
theorem channel_refined (id : Uuid)
    (h : Reachable (restrict (Timely cfg) (atomicStep cfg)) (.init tenants) s)
    (h' : Reachable (restrict (Timely cfg) (atomicStep cfg)) s s') :
    Channel.Steps cfg.backoff.maxAttempts .empty (s.store.channel id) ∧
      Channel.Steps cfg.backoff.maxAttempts (s.store.channel id) (s'.store.channel id) := by
  classical
  have hq : IgnoresExpansion (Timely cfg) := fun _ _ _ => trivial
  obtain ⟨hr, hquiet⟩ := serial_of_atomic hq h
  obtain ⟨hr', -⟩ := serial_of_quiescent hq hquiet h'
  have hord : ∀ s₁, Reachable (restrict (fun s l => Timely cfg s l ∧ Serial s l) (step cfg))
      (.init tenants) s₁ → Ordered s₁ := fun _ hr => ordered_of_serial (fun _ _ _ hl => hl.2) hr
  refine ⟨?_, steps_of_reachable (fun _ _ hl => hl.1) hord hr hr'⟩
  exact steps_of_reachable (fun _ _ hl => hl.1) hord (.refl (Sys.init tenants)) hr

/-- In every timely run without replays: the deliveries of an endpoint that are succeeded or failed come before
the others, stay as they are, and were attempted, the failed ones as often as the ceiling says; behind the
first unresolved one nothing has been attempted; and new deliveries come last. -/
theorem first_in_first_out (id : Uuid)
    (h : Reachable (restrict (TimelyNoReplay cfg) (step cfg)) (.init tenants) s)
    (h' : Reachable (restrict (TimelyNoReplay cfg) (step cfg)) s s') :
    ∃ done rest done' rest', Split (s.store.queue id) done rest ∧ Split (s'.store.queue id) done' rest' ∧
      (s.store.queue id).map (·.id) <+: (s'.store.queue id).map (·.id) ∧
      done.map Delivery.settled <+: done'.map Delivery.settled ∧
      ∀ d ∈ done', 0 < d.attemptCount ∧
        (d.state = .failed → cfg.backoff.maxAttempts ≤ d.attemptCount) := by
  have hp : ∀ s l, TimelyNoReplay cfg s l → Timely cfg s l := fun _ _ hl => hl.1
  have hord : ∀ s₁, Reachable (restrict (TimelyNoReplay cfg) (step cfg)) (.init tenants) s₁ → Ordered s₁ :=
    fun _ hr => ordered_of_noReplay (fun _ _ hl => hl.2) hr
  obtain ⟨done, rest, hsplit⟩ : Queued (s.store.queue id) := queued_of_reachable hp hord h
  obtain ⟨done', rest', hsplit'⟩ : Queued (s'.store.queue id) := queued_of_reachable hp hord (h.trans h')
  have hsteps : Channel.Steps cfg.backoff.maxAttempts (s.store.channel id) (s'.store.channel id) :=
    steps_of_reachable hp hord h h'
  have hrun : Channel.Steps cfg.backoff.maxAttempts .empty (s'.store.channel id) :=
    steps_of_reachable hp hord (.refl (Sys.init tenants)) (h.trans h')
  have hsound := hrun.sound .empty
  unfold Store.channel at hsteps hsound
  rw [hsplit.channel, hsplit'.channel] at hsteps
  rw [hsplit'.channel] at hsound
  have hitems := hsteps.items
  simp only [Channel.items, List.map_map, Function.comp_def, Delivery.settled, ← List.map_append] at hitems
  refine ⟨done, rest, done', rest', hsplit, hsplit', ?_, hsteps.settled, fun d hd => ?_⟩
  · rw [hsplit.eq, hsplit'.eq]
    exact hitems
  · obtain ⟨hpos, hceiling⟩ := hsound.settled _ (List.mem_map_of_mem hd)
    exact ⟨hpos, fun hs => hceiling (by simp [Delivery.settled, hs])⟩

end

/-! ### Two deliveries of one endpoint -/

/-- A run in which the clock stands still. -/
theorem timely_of_run {cfg : Config} {f : Sys → Label → Option Sys} {s s' : Sys} {labels : List Label}
    (hl : labels.all Label.isPlain = true) (h : run f s labels = some s') :
    run (restrict (Timely cfg) f) s labels = some s' := by
  rw [run_restrict fun a ha t => ?_]
  · exact h
  · have ha := List.all_eq_true.mp hl a ha
    cases a with
    | tick => cases ha
    | _ => trivial

open Sample

/-- The first delivery is handed out. -/
def firstHandedOut : Channel Uuid := ⟨[], [(3, 1), (4, 0)], true, true⟩

/-- It has been accepted. -/
def firstAccepted : Channel Uuid := ⟨[⟨3, 1, true⟩], [(4, 0)], false, true⟩

theorem channel_refined_sample :
    Channel.Steps config.backoff.maxAttempts .empty firstHandedOut ∧
      Channel.Steps config.backoff.maxAttempts firstHandedOut firstAccepted := by
  obtain ⟨s, s', hs, hs', hp⟩ := exists_of_runs (atomicStep config) start (twoDeliveries ++ claim 1 none 7)
    (deliver 1 200) (fun s s' => s.store.channel 0 = firstHandedOut && s'.store.channel 0 = firstAccepted)
    (by decide)
  simp only [Bool.and_eq_true, decide_eq_true_eq] at hp
  have h := channel_refined 0 (.of_run (timely_of_run (by decide) hs)) (.of_run (timely_of_run (by decide) hs'))
  rw [hp.1, hp.2] at h
  exact h

theorem first_in_first_out_sample : ∃ s s',
    Reachable (restrict (TimelyNoReplay config) (step config)) start s ∧
    Reachable (restrict (TimelyNoReplay config) (step config)) s s' ∧
    (s'.store.queue 0).map (·.state) = [.succeeded, .pending] ∧
    ∃ done rest done' rest', Split (s.store.queue 0) done rest ∧ Split (s'.store.queue 0) done' rest' ∧
      (s.store.queue 0).map (·.id) <+: (s'.store.queue 0).map (·.id) ∧
      done.map Delivery.settled <+: done'.map Delivery.settled ∧
      ∀ d ∈ done', 0 < d.attemptCount ∧
        (d.state = .failed → config.backoff.maxAttempts ≤ d.attemptCount) := by
  obtain ⟨s, s', hs, hs', hp⟩ := exists_of_runs (step config) start acknowledged secondClaimed
    (fun _ s' => (s'.store.queue 0).map (·.state) = [.succeeded, .pending]) (by decide)
  have h : Reachable (restrict (TimelyNoReplay config) (step config)) start s :=
    .of_run (timelyNoReplay_of_run (by decide) hs)
  have h' : Reachable (restrict (TimelyNoReplay config) (step config)) s s' :=
    .of_run (timelyNoReplay_of_run (by decide) hs')
  exact ⟨s, s', h, h', of_decide_eq_true hp, first_in_first_out 0 h h'⟩

end Webhooks
