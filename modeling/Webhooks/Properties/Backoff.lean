import Mathlib.Algebra.BigOperators.Group.Finset.Basic
import Mathlib.Algebra.Order.BigOperators.Group.Finset
import Mathlib.Order.Interval.Finset.Nat
import Webhooks.Properties.PublicationOrder
import Webhooks.Protocol.Schedule

/-!
# Properties — Backoff

The backoff schedule of a delivery, from the formula to the attempts of a run.

* `computeBackoffDelayMs_le`, `computeBackoffDelayMs_lt`, `backoffCeilingMs_mono`,
  `go_computeBackoffDelayMs`: the formula.
* `retry_kept`: an attempt after a scheduled retry starts when the delay is over.
* `retries_sum_le`: the delays of a delivery's life together.
* **`backoff_schedule`**: in every timely run.
-/

namespace Webhooks

open Lib

/-- The most a retry waits after the attempt of this number. -/
def backoffCeilingMs (config : BackoffConfig) (attemptNumber : Nat) : Nat :=
  min (config.baseDelayMs * config.multiplier ^ (attemptNumber - 1)) config.maxDelayMs

/-! ### The formula -/

section

variable (n : Nat) (config : BackoffConfig) (random : Jitter)

theorem computeBackoffDelayMs_le : computeBackoffDelayMs n config random ≤ backoffCeilingMs config n := by
  have hle : random.num * backoffCeilingMs config n ≤ random.den * backoffCeilingMs config n :=
    Nat.mul_le_mul_right _ random.lt.le
  exact Nat.div_le_of_le_mul hle

theorem computeBackoffDelayMs_lt (h : 0 < backoffCeilingMs config n) :
    computeBackoffDelayMs n config random < backoffCeilingMs config n := by
  have hlt : random.num * backoffCeilingMs config n < random.den * backoffCeilingMs config n :=
    Nat.mul_lt_mul_of_pos_right random.lt h
  exact Nat.div_lt_of_lt_mul hlt

theorem backoffCeilingMs_mono (h : 1 ≤ config.multiplier) :
    backoffCeilingMs config n ≤ backoffCeilingMs config (n + 1) := by
  have hpow : config.multiplier ^ (n - 1) ≤ config.multiplier ^ (n + 1 - 1) :=
    Nat.pow_le_pow_right h (Nat.sub_le_sub_right (Nat.le_succ n) 1)
  exact min_le_min_right _ (Nat.mul_le_mul_left _ hpow)

/-- The fraction a draw is. -/
def Jitter.toRat (random : Jitter) : ℚ := random.num / random.den

/-- The stacks compute the same delay from the same draw. -/
theorem go_computeBackoffDelayMs :
    Go.computeBackoffDelayMs n config random.toRat = computeBackoffDelayMs n config random := by
  have hceiling : (if (config.maxDelayMs : ℚ) < config.baseDelayMs * (config.multiplier : ℚ) ^ (n - 1) then
      (config.maxDelayMs : ℚ) else config.baseDelayMs * (config.multiplier : ℚ) ^ (n - 1)) =
      (backoffCeilingMs config n : ℚ) := by
    split_ifs with hcap
    · rw [backoffCeilingMs, Nat.min_eq_right (by exact_mod_cast hcap.le)]
    · rw [backoffCeilingMs, Nat.min_eq_left (by exact_mod_cast not_lt.mp hcap)]
      push_cast
      rfl
  have hfloor : random.toRat * (backoffCeilingMs config n : ℚ) =
      ((random.num * backoffCeilingMs config n : ℕ) : ℚ) / (random.den : ℚ) := by
    rw [Jitter.toRat, Nat.cast_mul, div_mul_eq_mul_div]
  rw [Go.computeBackoffDelayMs, hceiling, hfloor, Rat.floor_natCast_div_natCast]
  rfl

end

/-! ### The attempts after a retry -/

section

variable {cfg : Config} {s s' s₁ s₂ : Sys} {l l₁ : Label} {r : Retry} {tenants : List Tenant}

/-- The delay of a scheduled retry is the formula's, under the ceiling of its attempt. -/
theorem retryOf_delay (hs : step cfg s l = some s') (hr : retryOf cfg s l = some r) :
    r.delayMs ≤ backoffCeilingMs cfg.backoff r.attemptNumber ∧
      (0 < backoffCeilingMs cfg.backoff r.attemptNumber →
        r.delayMs < backoffCeilingMs cfg.backoff r.attemptNumber) := by
  obtain ⟨w, claimed, result, random, fault, -, -, -, -, rfl, -, -⟩ := retryOf_eq_some hs hr
  exact ⟨computeBackoffDelayMs_le _ _ random, computeBackoffDelayMs_lt _ _ random⟩

/-- After a retry has been scheduled every attempt of the delivery starts when the delay is over. -/
theorem retry_kept (h : Reachable (restrict (Timely cfg) (step cfg)) (.init tenants) s)
    (hs : restrict (Timely cfg) (step cfg) s l = some s') (hr : retryOf cfg s l = some r)
    (h₁ : Reachable (restrict (Timely cfg) (step cfg)) s' s₁)
    (hs₁ : step cfg s₁ l₁ = some s₂) {a : Attempt} (ha : a ∈ s₂.store.attempts)
    (hnew : ∀ a' ∈ s₁.store.attempts, a'.id ≠ a.id) (hof : a.deliveryId = r.deliveryId) :
    s.now + r.delayMs ≤ s₁.now := by
  have ht : ∀ s l, Timely cfg s l → Timely cfg s l := fun _ _ h => h
  have h' := h.tail hs
  have hr₁ := h'.trans h₁
  have hs := (restrict_eq_some.mp hs).2
  -- the delivery as the write-back leaves it
  obtain ⟨-, d, hd, hid, -⟩ := retryOf_delivery ht h hs hr
  obtain ⟨d', hd', hid', -⟩ := (step_grows (leaseInv_of_reachable h.of_restrict).ids hs).deliveries d hd
  have hrow := retryOf_row hs hr hd' (hid'.trans hid)
  obtain ⟨d₁, hd₁, hid₁, hle⟩ := nextAttemptAt_of_reachable ht h' h₁ hd'
  -- the claim that inserts the attempt has found it due
  obtain ⟨w, c, head, hpc, hhead, -⟩ := step_newAttempt hs₁ ha hnew
  have hdid : d₁.id = head.id := hid₁.trans (hid'.trans (hid.trans (hof.symm.trans hhead)))
  have hk := keyInv_of_reachable hr₁.of_restrict
  have hon := hk.worker w
  rw [hpc] at hon
  have hend := hon.endpointId_eq hk.tables.deliveryIds hd₁ hdid
  have hdue := due_of_reachable ht hr₁ d₁ hd₁ w c.leaseId (by rw [hpc, hend]; rfl)
    (hend ▸ holds_of_timely ht hr₁ hpc)
  rw [hpc] at hdue
  rw [← hrow.2]
  exact hle.trans (hdue (congrArg some hdid.symm))

/-- At a write-back that schedules a retry the delivery has no attempt of a later number. -/
theorem retryOf_numbers (h : Reachable (restrict (Timely cfg) (step cfg)) (.init tenants) s)
    (hs : restrict (Timely cfg) (step cfg) s l = some s') (hr : retryOf cfg s l = some r)
    {a : Attempt} (ha : a ∈ s'.store.attempts) (hof : a.deliveryId = r.deliveryId) :
    a.attemptNumber ≤ r.attemptNumber := by
  have ht : ∀ s l, Timely cfg s l → Timely cfg s l := fun _ _ h => h
  have hs := (restrict_eq_some.mp hs).2
  obtain ⟨-, d, hd, hid, hstate, hcount⟩ := retryOf_delivery ht h hs hr
  obtain ⟨w, claimed, result, random, fault, -, -, -, -, -, -, hstore⟩ := retryOf_eq_some hs hr
  -- a write-back inserts no attempt
  have hold : ∃ a₀ ∈ s.store.attempts, a₀.deliveryId = a.deliveryId ∧
      a₀.attemptNumber = a.attemptNumber := by
    rw [hstore] at ha
    rcases Table.mem_update_cases ha with ⟨ha, -⟩ | ⟨a₀, ha₀, -, rfl⟩
    · exact ⟨a, ha, rfl, rfl⟩
    · exact ⟨a₀, ha₀, rfl, rfl⟩
  obtain ⟨a₀, ha₀, hof₀, hnum⟩ := hold
  have hnumbered := (numbered_of_reachable ht h d hd).inFlight hstate
  have hle := hnumbered.2 a₀ (mem_attemptsOf.mpr ⟨ha₀, hof₀.trans (hof.trans hid.symm)⟩)
  rw [hnum, hcount] at hle
  exact hle

/-! ### The delays of a delivery's life -/

/-- Distinct indices within a set sum to at most the set. -/
theorem sum_map_le {ns : List Nat} {t : Finset Nat} (f : Nat → Nat) (hn : ns.Nodup)
    (ht : ∀ n ∈ ns, n ∈ t) : (ns.map f).sum ≤ ∑ n ∈ t, f n := by
  rw [← List.sum_toFinset f hn]
  exact Finset.sum_le_sum_of_subset fun n hn => ht n (List.mem_toFinset.mp hn)

/-- The retries of a run, each under the ceiling of its attempt. -/
theorem delayMs_of_mem_retries {labels : List Label} (h : run (step cfg) s labels = some s')
    (hr : r ∈ retries cfg s labels) : r.delayMs ≤ backoffCeilingMs cfg.backoff r.attemptNumber := by
  induction labels generalizing s with
  | nil => cases hr
  | cons l labels ih =>
      rw [run_cons] at h
      obtain ⟨t, ht, h⟩ := Option.bind_eq_some_iff.mp h
      simp only [retries, ht] at hr
      rcases List.mem_append.mp hr with hr | hr
      · exact (retryOf_delay ht (Option.mem_toList.mp hr)).1
      · exact ih h hr

/-- Every attempt of a delivery schedules at most one retry, and together these wait no longer than
the ceilings of the attempts below `maxAttempts`. -/
theorem retries_sum_le {labels : List Label}
    (h : run (restrict (Timely cfg) (step cfg)) (.init tenants) labels = some s) (id : Uuid) :
    (((retries cfg (.init tenants) labels).filter (·.deliveryId = id)).map (·.delayMs)).sum ≤
      ∑ n ∈ Finset.Ico 1 cfg.backoff.maxAttempts, backoffCeilingMs cfg.backoff n := by
  have hrec := retryInv_of_run (fun _ _ h => h) h
  generalize hrs : (retries cfg (.init tenants) labels).filter (·.deliveryId = id) = rs
  have hmem : ∀ r ∈ rs, r ∈ retries cfg (.init tenants) labels ∧ r.deliveryId = id := by
    intro r hr
    rw [← hrs] at hr
    obtain ⟨hr, hid⟩ := List.mem_filter.mp hr
    exact ⟨hr, of_decide_eq_true hid⟩
  have hnodup : (rs.map (·.attemptNumber)).Nodup := by
    have hsub : rs.Sublist (retries cfg (.init tenants) labels) := hrs ▸ List.filter_sublist
    refine List.pairwise_map.mpr ((hrec.increasing.sublist hsub).imp_of_mem fun {a b} ha hb hlt => ?_)
    exact (hlt ((hmem a ha).2.trans (hmem b hb).2.symm)).ne
  calc (rs.map (·.delayMs)).sum
      ≤ (rs.map fun r => backoffCeilingMs cfg.backoff r.attemptNumber).sum :=
        List.sum_le_sum fun r hr => delayMs_of_mem_retries (run_of_restrict h) (hmem r hr).1
    _ = ((rs.map (·.attemptNumber)).map (backoffCeilingMs cfg.backoff)).sum := by rw [List.map_map]; rfl
    _ ≤ ∑ n ∈ Finset.Ico 1 cfg.backoff.maxAttempts, backoffCeilingMs cfg.backoff n := by
        refine sum_map_le _ hnodup fun n hn => ?_
        obtain ⟨r, hr, rfl⟩ := List.mem_map.mp hn
        exact Finset.mem_Ico.mpr (hrec.below r (hmem r hr).1)

/-- **The backoff schedule**, for every configuration whose multiplier is at least 1, every draw and
every timely run.  A write-back that schedules a retry puts the delivery back to wait, under the
ceiling of its attempt, and no later attempt of it is there yet or starts before the delay is over.
The ceilings do not decrease, and together the delays of a delivery stay below their sum. -/
theorem backoff_schedule (tenants : List Tenant) (hmult : 1 ≤ cfg.backoff.multiplier) :
    (∀ n random, Go.computeBackoffDelayMs n cfg.backoff random.toRat =
      computeBackoffDelayMs n cfg.backoff random) ∧
    (∀ n, backoffCeilingMs cfg.backoff n ≤ backoffCeilingMs cfg.backoff (n + 1)) ∧
    (∀ s l s' r, Reachable (restrict (Timely cfg) (step cfg)) (.init tenants) s →
      restrict (Timely cfg) (step cfg) s l = some s' → retryOf cfg s l = some r →
      (r.delayMs ≤ backoffCeilingMs cfg.backoff r.attemptNumber ∧
        (0 < backoffCeilingMs cfg.backoff r.attemptNumber →
          r.delayMs < backoffCeilingMs cfg.backoff r.attemptNumber)) ∧
      (∃ d ∈ s'.store.deliveries, d.id = r.deliveryId ∧ d.state = .pending ∧
        d.nextAttemptAt = s.now + r.delayMs) ∧
      (∀ a ∈ s'.store.attempts, a.deliveryId = r.deliveryId → a.attemptNumber ≤ r.attemptNumber) ∧
      ∀ s₁ l₁ s₂ a, Reachable (restrict (Timely cfg) (step cfg)) s' s₁ →
        restrict (Timely cfg) (step cfg) s₁ l₁ = some s₂ → a ∈ s₂.store.attempts →
        (∀ a' ∈ s₁.store.attempts, a'.id ≠ a.id) → a.deliveryId = r.deliveryId →
          s.now + r.delayMs ≤ s₁.now) ∧
    ∀ labels s, run (restrict (Timely cfg) (step cfg)) (.init tenants) labels = some s →
      ∀ id, (((retries cfg (.init tenants) labels).filter (·.deliveryId = id)).map (·.delayMs)).sum ≤
        ∑ n ∈ Finset.Ico 1 cfg.backoff.maxAttempts, backoffCeilingMs cfg.backoff n := by
  refine ⟨fun n random => go_computeBackoffDelayMs n _ random,
    fun n => backoffCeilingMs_mono n _ hmult, ?_, fun labels s h id => retries_sum_le h id⟩
  intro s l s' r h hs hr
  have hs' := (restrict_eq_some.mp hs).2
  obtain ⟨-, d, hd, hid, -⟩ := retryOf_delivery (fun _ _ h => h) h hs' hr
  obtain ⟨d', hd', hid', -⟩ := (step_grows (leaseInv_of_reachable h.of_restrict).ids hs').deliveries d hd
  have hrow := retryOf_row hs' hr hd' (hid'.trans hid)
  exact ⟨retryOf_delay hs' hr, ⟨d', hd', hid'.trans hid, hrow⟩,
    fun a ha hof => retryOf_numbers h hs hr ha hof,
    fun s₁ l₁ s₂ a h₁ hs₁ ha hnew hof =>
      retry_kept h hs hr h₁ (restrict_eq_some.mp hs₁).2 ha hnew hof⟩

end

/-! ### Two attempts -/

open Sample

/-- An event is published, expanded, claimed and sent. -/
def firstSent : List Label :=
  register :: publish 0 "k" ++ expand ++ claim 1 none 7 ++ [.send 1]

/-- Delays of up to 8 ms after the first attempt. -/
def waiting : Config := { config with backoff := ⟨8, 2, 32, 3⟩ }

/-- Half of 8 ms is drawn; 5 ms later the second attempt starts. -/
theorem backoff_schedule_sample : ∃ s s' s₁ s₂ r a,
    Reachable (restrict (Timely waiting) (step waiting)) start s ∧
    restrict (Timely waiting) (step waiting) s
      (.complete 1 (response 500) ⟨1, 2, Nat.one_lt_two⟩ none) = some s' ∧
    retryOf waiting s (.complete 1 (response 500) ⟨1, 2, Nat.one_lt_two⟩ none) = some r ∧
    r.attemptNumber = 1 ∧ r.delayMs = 4 ∧ r.delayMs ≤ backoffCeilingMs waiting.backoff 1 ∧
    (∃ d ∈ s'.store.deliveries, d.id = r.deliveryId ∧ d.state = .pending ∧
      d.nextAttemptAt = s.now + r.delayMs) ∧
    Reachable (restrict (Timely waiting) (step waiting)) s' s₁ ∧
    restrict (Timely waiting) (step waiting) s₁ (.step 1) = some s₂ ∧
    a ∈ s₂.store.attempts ∧ a.attemptNumber = 2 ∧ s.now + r.delayMs ≤ s₁.now := by
  obtain ⟨s, s', hs, hs', hp⟩ := exists_of_runs (restrict (TimelyAmong waiting [0, 1]) (step waiting)) start
    firstSent [.complete 1 (response 500) ⟨1, 2, Nat.one_lt_two⟩ none] (fun s s' =>
      ((retryOf waiting s (.complete 1 (response 500) ⟨1, 2, Nat.one_lt_two⟩ none)).any
        fun r => r.attemptNumber = 1 && r.delayMs = 4 && r.deliveryId = 2) &&
      (run (restrict (TimelyAmong waiting [0, 1]) (step waiting)) s' (.tick 5 :: claim 1 none 4)).any
        fun s₁ => s₁.store.attempts.all (fun a => a.id = 4) &&
          (restrict (TimelyAmong waiting [0, 1]) (step waiting) s₁ (.step 1)).any fun s₂ =>
            s₂.store.attempts.any fun a => a.id = 6 && a.deliveryId = 2 && a.attemptNumber = 2)
    (by decide +kernel)
  rw [run_singleton] at hs'
  simp only [Bool.and_eq_true, Option.any_eq_true, List.all_eq_true, List.any_eq_true,
    decide_eq_true_eq] at hp
  obtain ⟨⟨r, hr, ⟨hnum, hdelay⟩, hid⟩, s₁, h₁, hold, s₂, h₂, a, ha, ⟨hnew, hof⟩, hnext⟩ := hp
  have hidle : ∀ w, w ∉ ([0, 1] : List WorkerId) → s'.pcs w = .idle := fun w hw =>
    pcs_of_timelyAmong (fun _ _ h => h) ((Reachable.of_run hs).tail hs') hw
  have htimely : Reachable (restrict (Timely waiting) (step waiting)) start s :=
    timely_of_timelyAmong (fun _ _ => rfl) (fun _ _ h => h) (fun _ _ h _ => h) (.of_run hs)
  have htimely₁ : Reachable (restrict (Timely waiting) (step waiting)) s' s₁ :=
    timely_of_timelyAmong hidle (fun _ _ h => h) (fun _ _ h _ => h) (.of_run h₁)
  have hcomplete : restrict (Timely waiting) (step waiting) s
      (.complete 1 (response 500) ⟨1, 2, Nat.one_lt_two⟩ none) = some s' :=
    restrict_eq_some.mpr ⟨trivial, (restrict_eq_some.mp hs').2⟩
  have hattempt : restrict (Timely waiting) (step waiting) s₁ (.step 1) = some s₂ :=
    restrict_eq_some.mpr ⟨trivial, (restrict_eq_some.mp h₂).2⟩
  obtain ⟨-, -, hretry, -⟩ := @backoff_schedule waiting [⟨100, none⟩] (by decide)
  obtain ⟨⟨hle, -⟩, hrow, -, hwaits⟩ := hretry s _ s' r htimely hcomplete hr
  have hfresh : ∀ a' ∈ s₁.store.attempts, a'.id ≠ a.id := fun a' ha' => by
    rw [hold a' ha', hnew]
    decide
  exact ⟨s, s', s₁, s₂, r, a, htimely, hcomplete, hr, hnum, hdelay, hnum ▸ hle, hrow, htimely₁, hattempt, ha,
    hnext, hwaits s₁ _ s₂ a htimely₁ hattempt ha hfresh (hof.trans hid.symm)⟩

end Webhooks
