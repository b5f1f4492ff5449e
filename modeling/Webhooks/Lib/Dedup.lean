import Mathlib.Data.List.Basic
import Mathlib.Logic.Function.Basic

/-!
# Lib — Dedup

A consumer that gets a request for a key any number of times and is to do the key's work once.  It
remembers the keys whose work has completed, not those it has seen: a request for a remembered key is
accepted without work, any other one runs the work and is accepted when that completes.

* `Consumer`, `consume`: the consumer and one request.  `works k n` tells whether the `n`-th run of the
  work of `k` completes.
* `Answered`: what the answers to the requests for a key look like, oldest first.
* `answered_consume`: a request for any key keeps it.
-/

namespace Lib

structure Consumer (κ : Type*) where
  /-- Keys whose work has completed. -/
  completed : List κ
  /-- How often the work of a key has been run. -/
  runs : κ → Nat

namespace Consumer

variable {κ : Type*} [DecidableEq κ]

def init : Consumer κ := ⟨[], fun _ => 0⟩

/-- A request for `k`: whether it is accepted, and the consumer afterwards. -/
def consume (works : κ → Nat → Bool) (c : Consumer κ) (k : κ) : Bool × Consumer κ :=
  if k ∈ c.completed then (true, c)
  else
    let n := c.runs k + 1
    let runs := Function.update c.runs k n
    if works k n then (true, ⟨k :: c.completed, runs⟩) else (false, ⟨c.completed, runs⟩)

/-- The answers for a key: every run that failed was refused; the first one that completed, if one did,
and everything after it was accepted. -/
inductive Answered (works : κ → Nat → Bool) (c : Consumer κ) (k : κ) : List Bool → Prop
  | failing {n : Nat} (h : k ∉ c.completed) (runs : c.runs k = n)
      (fails : ∀ i, i < n → works k (i + 1) = false) : Answered works c k (List.replicate n false)
  | completed {n : Nat} (m : Nat) (h : k ∈ c.completed) (runs : c.runs k = n + 1)
      (fails : ∀ i, i < n → works k (i + 1) = false) (completes : works k (n + 1) = true) :
      Answered works c k (List.replicate n false ++ List.replicate (m + 1) true)

variable {works : κ → Nat → Bool} {c : Consumer κ} {k k' : κ} {answers : List Bool}

theorem consume_of_mem (h : k ∈ c.completed) : consume works c k = (true, c) := if_pos h

theorem consume_of_completes (h : k ∉ c.completed) (hw : works k (c.runs k + 1) = true) :
    consume works c k = (true, ⟨k :: c.completed, Function.update c.runs k (c.runs k + 1)⟩) := by
  simp [consume, h, hw]

theorem consume_of_fails (h : k ∉ c.completed) (hw : works k (c.runs k + 1) = false) :
    consume works c k = (false, ⟨c.completed, Function.update c.runs k (c.runs k + 1)⟩) := by
  simp [consume, h, hw]

/-- A request for one key leaves the others alone. -/
theorem consume_of_ne (h : k' ≠ k) :
    (k' ∈ (consume works c k).2.completed ↔ k' ∈ c.completed) ∧
      (consume works c k).2.runs k' = c.runs k' := by
  by_cases hc : k ∈ c.completed
  · rw [consume_of_mem hc]
    exact ⟨Iff.rfl, rfl⟩
  · cases hw : works k (c.runs k + 1) with
    | true => simp [consume_of_completes hc hw, h]
    | false => simp [consume_of_fails hc hw, h]

omit [DecidableEq κ] in
theorem Answered.congr {c' : Consumer κ} (h : Answered works c k answers)
    (hc : k ∈ c'.completed ↔ k ∈ c.completed) (hr : c'.runs k = c.runs k) : Answered works c' k answers := by
  cases h with
  | failing h runs fails => exact .failing (mt hc.mp h) (hr.trans runs) fails
  | completed m h runs fails completes => exact .completed m (hc.mpr h) (hr.trans runs) fails completes

omit [DecidableEq κ] in
theorem answered_init : Answered works init k [] :=
  .failing (n := 0) (by simp [init]) rfl nofun

/-- A request for any key keeps the answers in this form. -/
theorem answered_consume (h : Answered works c k answers) (k' : κ) :
    Answered works (consume works c k').2 k
      (if k' = k then answers ++ [(consume works c k').1] else answers) := by
  split
  case isFalse hne =>
      obtain ⟨hc, hr⟩ := @consume_of_ne κ _ works c k' k (Ne.symm hne)
      exact h.congr hc hr
  case isTrue hk =>
      subst hk
      cases h with
      | completed m hc runs fails completes =>
          rw [consume_of_mem hc, List.append_assoc, ← List.replicate_succ']
          exact .completed (m + 1) hc runs fails completes
      | @failing n hc runs fails =>
          have hrun : Function.update c.runs k' (c.runs k' + 1) k' = n + 1 := by
            rw [Function.update_self, runs]
          cases hw : works k' (c.runs k' + 1) with
          | true =>
              rw [consume_of_completes hc hw]
              exact .completed 0 List.mem_cons_self hrun fails (runs ▸ hw)
          | false =>
              rw [consume_of_fails hc hw, ← List.replicate_succ']
              refine .failing hc hrun fun i hi => ?_
              obtain hlt | rfl := Nat.lt_succ_iff_lt_or_eq.mp hi
              · exact fails i hlt
              · exact runs ▸ hw

end Consumer

end Lib
