import Mathlib.Order.WellFounded

/-!
# Lib — Drain

A loop that polls: each pass acts on the state at some instant, and may find nothing to do because what
there is is not due yet.

* `passes`: the states at the passes of the loop.
* **`exists_done`**: when every pass lowers a rank, or keeps it and finds that something is not due, and
  what is not due becomes due, some pass finds the state done.
-/

namespace Lib.Drain

variable {σ ρ : Type*}

/-- The state before each pass. -/
def passes (next : Nat → σ → σ) (s : σ) : Nat → σ
  | 0 => s
  | n + 1 => next n (passes next s n)

variable {next : Nat → σ → σ} {s : σ} {P : Nat → σ → Prop}

theorem passes_inv (hP : ∀ i s, P i s → P (i + 1) (next i s)) (h0 : P 0 s) (n : Nat) :
    P n (passes next s n) := by
  induction n with
  | zero => exact h0
  | succ n ih => exact hP n _ ih

/-- `Due t s`: at the instant `t` everything in `s` is due.  A pass that does not lower the rank keeps
what is due, and happened before everything was. -/
theorem exists_done [LT ρ] [WellFoundedLT ρ] {Done : σ → Prop} {rank : σ → ρ} {Due : Nat → σ → Prop}
    {clock : Nat → Nat} (hP : ∀ i s, P i s → P (i + 1) (next i s))
    (hstep : ∀ i s, P i s → ¬ Done s → rank (next i s) < rank s ∨
      rank (next i s) = rank s ∧ (∀ t, Due t s → Due t (next i s)) ∧ ¬ Due (clock i) s)
    (hdue : ∀ s, ∃ t, ∀ t', t ≤ t' → Due t' s) (hclock : ∀ t, ∃ i, ∀ j, i ≤ j → t ≤ clock j)
    (h0 : P 0 s) : ∃ n, Done (passes next s n) := by
  have hP := passes_inv hP h0
  -- the induction is on the rank at some pass
  suffices H : ∀ (r : ρ) i, rank (passes next s i) = r → ∃ n, Done (passes next s n) from H _ 0 rfl
  intro r
  induction r using WellFoundedLT.induction with
  | ind r ih =>
      intro i hi
      by_contra hno
      have hnot : ∀ n, ¬ Done (passes next s n) := fun n hd => hno ⟨n, hd⟩
      obtain ⟨t, ht⟩ := hdue (passes next s i)
      -- no pass lowers the rank any more, so everything there is stays due from `t` on
      have hstay : ∀ k, rank (passes next s (i + k)) = r ∧ ∀ t', t ≤ t' → Due t' (passes next s (i + k)) := by
        intro k
        induction k with
        | zero => exact ⟨hi, ht⟩
        | succ k ihk =>
            obtain hlt | ⟨heq, hkeep, -⟩ := hstep (i + k) _ (hP _) (hnot _)
            · exact absurd (ih _ (ihk.1 ▸ hlt) (i + k + 1) rfl) hno
            · exact ⟨heq.trans ihk.1, fun t' ht' => hkeep t' (ihk.2 t' ht')⟩
      obtain ⟨j, hj⟩ := hclock t
      obtain hlt | ⟨-, -, hlate⟩ := hstep (i + j) _ (hP _) (hnot _)
      · exact absurd (ih _ ((hstay j).1 ▸ hlt) (i + j + 1) rfl) hno
      · exact hlate ((hstay j).2 _ (hj _ (Nat.le_add_left j i)))

end Lib.Drain
