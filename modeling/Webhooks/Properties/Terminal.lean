import Webhooks.Protocol.Exclusion

/-!
# Properties — Terminal

`succeeded` and `failed` have no exit, as long as no claim inserts an attempt or marks a
delivery after it has lost its lease.

* **`terminal_final`**: in every run of such steps a terminal delivery keeps its row and the list
  of its attempts.
* `terminal_not_final`: a worker that sleeps between the head query and these two statements,
  past its lease, wakes up and puts a succeeded delivery back in flight.
-/

namespace Webhooks

open Lib

section

variable {cfg : Config} {s s' : Sys} {tenants : List Tenant} {d : Delivery}

/-- In every run in which a claim inserts attempts and marks deliveries only while it holds its
lease, a terminal delivery keeps its row, and gets no further attempt. -/
theorem terminal_final
    (h : Reachable (restrict (Fenced ClaimStep.startsAttempt) (step cfg)) (.init tenants) s)
    (hd : d ∈ s.store.deliveries) (ht : d.state.isTerminal = true)
    (h' : Reachable (restrict (Fenced ClaimStep.startsAttempt) (step cfg)) s s') :
    d ∈ s'.store.deliveries ∧
      (s'.store.attemptsOf d.id).map (·.id) = (s.store.attemptsOf d.id).map (·.id) :=
  terminal_of_reachable (fun _ _ _ hl => hl) h hd ht h'

end

/-! ### The sleeping claim -/

open Sample

/-- The endpoint is registered, an event is published and expanded, and worker 1 delivers it. -/
def deliverOnce : List Label :=
  register :: publish 0 "k" ++ expand ++ claim 1 none 7 ++ deliver 1 200

theorem terminal_final_sample : ∃ s s' d,
    Reachable (restrict (Fenced ClaimStep.startsAttempt) (step config)) start s ∧
    Reachable (restrict (Fenced ClaimStep.startsAttempt) (step config)) s s' ∧
    d ∈ s.store.deliveries ∧ d.state = .succeeded ∧ d ∈ s'.store.deliveries ∧
    (s'.store.attemptsOf d.id).map (·.id) = (s.store.attemptsOf d.id).map (·.id) := by
  obtain ⟨s, s', hs, hs', hp⟩ := exists_of_runs
    (restrict (Fenced ClaimStep.startsAttempt) (step config)) start deliverOnce (claim 2 none 0)
    (fun s _ => s.store.deliveries.any fun d => d.state = .succeeded) (by decide)
  obtain ⟨d, hd, hsucc⟩ := List.any_eq_true.mp hp
  have hsucc := of_decide_eq_true hsucc
  have h := terminal_final (.of_run hs) hd (by rw [hsucc]; rfl) (.of_run hs')
  exact ⟨s, s', d, .of_run hs, .of_run hs', hd, hsucc, h⟩

/-- Worker 1 reads the head and sleeps past its lease; worker 2 takes the endpoint over and
delivers. -/
def sleepBeforeInsert : List Label :=
  register :: publish 0 "k" ++ expand ++ claim 1 none 4 ++ [.tick 11] ++
    claim 2 (some (0, 3)) 9 ++ deliver 2 200

/-- Worker 1 wakes up: the succeeded delivery gets another attempt and is in flight again. -/
theorem terminal_not_final : ∃ s s' d d', Reachable (step config) start s ∧
    Reachable (step config) s s' ∧ d ∈ s.store.deliveries ∧ d.state = .succeeded ∧
    d' ∈ s'.store.deliveries ∧ d'.id = d.id ∧ d'.state = .inFlight ∧
    (s.store.attemptsOf d.id).length < (s'.store.attemptsOf d.id).length := by
  obtain ⟨s, s', hs, hs', hp⟩ := exists_of_runs (step config) start sleepBeforeInsert
    [.step 1, .step 1] (fun s s' => s.store.deliveries.any fun d => d.state = .succeeded &&
      s'.store.deliveries.any fun d' => d'.id = d.id && d'.state = .inFlight &&
        (s.store.attemptsOf d.id).length < (s'.store.attemptsOf d.id).length) (by decide)
  obtain ⟨d, hd, hp⟩ := List.any_eq_true.mp hp
  obtain ⟨hsucc, hp⟩ := Bool.and_eq_true_iff.mp hp
  obtain ⟨d', hd', hp⟩ := List.any_eq_true.mp hp
  simp only [Bool.and_eq_true, decide_eq_true_eq] at hsucc hp
  exact ⟨s, s', d, d', .of_run hs, .of_run hs', hd, hsucc, hd', hp.1.1, hp.1.2, hp.2⟩

end Webhooks
