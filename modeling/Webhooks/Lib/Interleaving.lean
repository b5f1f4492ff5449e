import Mathlib.Logic.Function.Basic
import Webhooks.Lib.Run

/-!
# Lib — Interleaving

Actors that stand each at a place of its program, and take turns on a shared state.

* `interleave act`: an action of one actor reads and writes the shared state, and moves only that actor.
* `Outline`: a lock in the shared state, an invariant of the shared state and an assertion at each
  place, with what an action has to keep of them.  An assertion inside the lock may say anything of the
  shared state, one outside only what `grows` does not undo.
* **`Outline.holds`**: all of it is true in every reachable state.  The obligations are on one action of one
  actor; that the others do not interfere follows from the lock.
* `OpenOutline`: the same without a lock.  An action keeps the assertion of its own place, and those of all
  others.  **`OpenOutline.holds`**.
-/

namespace Lib

variable {γ δ π α : Type*}

structure Config (γ δ π : Type*) where
  shared : δ
  places : γ → π

/-- The system of all actors; a label is an actor and an action. -/
def interleave [DecidableEq γ] (act : γ → α → π → δ → Option (π × δ)) (s : Config γ δ π) (l : γ × α) :
    Option (Config γ δ π) :=
  (act l.1 l.2 (s.places l.1) s.shared).map fun r => ⟨r.2, Function.update s.places l.1 r.1⟩

structure Outline (act : γ → α → π → δ → Option (π × δ)) where
  /-- The places within the lock. -/
  inside : π → Prop
  holder : δ → Option γ
  invariant : δ → Prop
  assertion : γ → π → δ → Prop
  grows : δ → δ → Prop
  lock : ∀ {c a p d p' d'}, act c a p d = some (p', d') → (inside p ↔ holder d = some c) →
    (inside p' ↔ holder d' = some c) ∧ ∀ b, b ≠ c → (holder d' = some b ↔ holder d = some b)
  quiet : ∀ {c a p d p' d'}, act c a p d = some (p', d') → (inside p ↔ holder d = some c) →
    invariant d → ¬ inside p → holder d ≠ none → d' = d
  keeps : ∀ {c a p d p' d'}, act c a p d = some (p', d') → (inside p ↔ holder d = some c) →
    invariant d → assertion c p d → invariant d' ∧ assertion c p' d' ∧ grows d d'
  stable : ∀ {c p d d'}, ¬ inside p → grows d d' → assertion c p d → assertion c p d'

variable {act : γ → α → π → δ → Option (π × δ)}

structure Outline.Holds (o : Outline act) (s : Config γ δ π) : Prop where
  lock : ∀ c, o.inside (s.places c) ↔ o.holder s.shared = some c
  invariant : o.invariant s.shared
  assertion : ∀ c, o.assertion c (s.places c) s.shared

variable [DecidableEq γ] {s s' : Config γ δ π} {l : γ × α} {c : γ}

/-- What a step does: an action of its actor, and nothing to the others. -/
theorem interleave_eq_some : interleave act s l = some s' ↔
    act l.1 l.2 (s.places l.1) s.shared = some (s'.places l.1, s'.shared) ∧
      ∀ c, c ≠ l.1 → s'.places c = s.places c := by
  rw [interleave, Option.map_eq_some_iff]
  constructor
  · rintro ⟨⟨p, d⟩, hact, rfl⟩
    refine ⟨?_, fun c hc => Function.update_of_ne hc _ _⟩
    simpa using hact
  · rintro ⟨hact, hothers⟩
    refine ⟨_, hact, ?_⟩
    obtain ⟨d, places⟩ := s'
    congr 1
    funext c
    by_cases hc : c = l.1
    · subst hc
      exact Function.update_self _ _ _
    · rw [Function.update_of_ne hc]
      exact (hothers c hc).symm

namespace Outline

variable {o : Outline act}

theorem Holds.step (h : o.Holds s) (hs : interleave act s l = some s') : o.Holds s' := by
  obtain ⟨hact, hplaces⟩ := interleave_eq_some.mp hs
  obtain ⟨hlock, hothers⟩ := o.lock hact (h.lock l.1)
  obtain ⟨hinvariant, hassertion, hgrows⟩ := o.keeps hact (h.lock l.1) h.invariant (h.assertion l.1)
  refine ⟨fun c => ?_, hinvariant, fun c => ?_⟩
  · by_cases hc : c = l.1
    · exact hc ▸ hlock
    · rw [hplaces c hc, hothers c hc]
      exact h.lock c
  · by_cases hc : c = l.1
    · exact hc ▸ hassertion
    · rw [hplaces c hc]
      by_cases hinside : o.inside (s.places c)
      -- the lock is with `c`, so the action was one outside it
      · have hholder := (h.lock c).mp hinside
        have hout : ¬ o.inside (s.places l.1) := fun hin =>
          hc (Option.some_inj.mp (hholder.symm.trans ((h.lock l.1).mp hin)))
        rw [o.quiet hact (h.lock l.1) h.invariant hout (by rw [hholder]; exact nofun)]
        exact h.assertion c
      · exact o.stable hinside hgrows (h.assertion c)

/-- The outline is true of every reachable state. -/
theorem holds (h0 : o.Holds s) (h : Reachable (interleave act) s s') : o.Holds s' :=
  h.inv h0 fun _ _ _ _ hs₁ hs => hs₁.step hs

end Outline

/-! ### Without a lock -/

structure OpenOutline (act : γ → α → π → δ → Option (π × δ)) where
  invariant : δ → Prop
  assertion : γ → π → δ → Prop
  keeps : ∀ {c a p d p' d'}, act c a p d = some (p', d') → invariant d → assertion c p d →
    invariant d' ∧ assertion c p' d'
  /-- The action of `c` does not interfere with `b`. -/
  apart : ∀ {c a p d p' d' b q}, act c a p d = some (p', d') → invariant d → assertion c p d → b ≠ c →
    assertion b q d → assertion b q d'

structure OpenOutline.Holds (o : OpenOutline act) (s : Config γ δ π) : Prop where
  invariant : o.invariant s.shared
  assertion : ∀ c, o.assertion c (s.places c) s.shared

namespace OpenOutline

variable {o : OpenOutline act}

theorem Holds.step (h : o.Holds s) (hs : interleave act s l = some s') : o.Holds s' := by
  obtain ⟨hact, hplaces⟩ := interleave_eq_some.mp hs
  obtain ⟨hinvariant, hassertion⟩ := o.keeps hact h.invariant (h.assertion l.1)
  refine ⟨hinvariant, fun c => ?_⟩
  by_cases hc : c = l.1
  · exact hc ▸ hassertion
  · rw [hplaces c hc]
    exact o.apart hact h.invariant (h.assertion l.1) hc (h.assertion c)

/-- The outline is true of every reachable state. -/
theorem holds (h0 : o.Holds s) (h : Reachable (interleave act) s s') : o.Holds s' :=
  h.inv h0 fun _ _ _ _ hs₁ hs => hs₁.step hs

end OpenOutline

end Lib
