import Mathlib.Data.Option.Basic

/-!
# Lib — Run

Runs of a system given by a partial step function `step : σ → α → Option σ`: at a state, a
label either is enabled and leads to one state, or is not enabled.  All nondeterminism lies in
the choice of the labels, so a run is determined by where it starts and its labels.

* `run` takes the labels of a list one after the other; `Reachable` forgets them.
* `restrict p step` allows only the steps that satisfy the condition `p`, which may read the
  state before the step and the label.  A run of `restrict p step` is a run of `step` whose
  steps all satisfy `p`.
* `Reachable.inv` is the induction every invariant goes through: it holds at the start and
  every step from a reachable state keeps it.
* `run_inv` is the same for a statement that also speaks of the labels taken so far.
* `run_restrict_iff` tells the runs that keep a property from those that do not, step by step.
* `Reachable.exists_of_rank` finds a run to a state, when a rank counts down to it.
* `Reachable.mono` carries reachability from one system to another whose steps cover it.
-/

namespace Lib

variable {σ α : Type*}

/-- The state after the labels of a list, when each is enabled in its turn. -/
def run (step : σ → α → Option σ) : σ → List α → Option σ
  | s, [] => some s
  | s, a :: l => (step s a).bind fun s' => run step s' l

/-- The system with only those steps of `step` that satisfy `p`. -/
def restrict (p : σ → α → Prop) [DecidableRel p] (step : σ → α → Option σ) (s : σ) (a : α) :
    Option σ :=
  if p s a then step s a else none

/-- `s'` is the state after some run from `s`. -/
def Reachable (step : σ → α → Option σ) (s s' : σ) : Prop := ∃ l, run step s l = some s'

variable {step : σ → α → Option σ} {s s₁ s₂ s' : σ} {a : α}

@[simp] theorem run_nil : run step s [] = some s := rfl

theorem run_cons (l : List α) : run step s (a :: l) = (step s a).bind fun s' => run step s' l :=
  rfl

theorem run_singleton : run step s [a] = step s a := by
  rw [run_cons]
  cases step s a <;> rfl

theorem run_append (l₁ l₂ : List α) :
    run step s (l₁ ++ l₂) = (run step s l₁).bind fun s' => run step s' l₂ := by
  induction l₁ generalizing s with
  | nil => rfl
  | cons a l₁ ih =>
      rw [List.cons_append, run_cons, run_cons, Option.bind_assoc]
      exact congrArg _ (funext fun _ => ih)

theorem restrict_eq_some {p : σ → α → Prop} [DecidableRel p] :
    restrict p step s a = some s' ↔ p s a ∧ step s a = some s' := by
  unfold restrict
  split <;> simp_all

theorem restrict_of_forall {p : σ → α → Prop} [DecidableRel p] (hp : ∀ s a, p s a) :
    restrict p step = step := by
  funext s a
  exact if_pos (hp s a)

/-- A run whose labels meet the condition in every state is a run of the restricted system. -/
theorem run_restrict {p : σ → α → Prop} [DecidableRel p] {l : List α}
    (hp : ∀ a ∈ l, ∀ s, p s a) : run (restrict p step) s l = run step s l := by
  induction l generalizing s with
  | nil => rfl
  | cons a l ih =>
      rw [run_cons, run_cons, restrict, if_pos (hp a List.mem_cons_self s)]
      exact congrArg _ (funext fun _ => ih fun b hb => hp b (List.mem_cons_of_mem _ hb))

/-- Forget the condition. -/
theorem run_of_restrict {p : σ → α → Prop} [DecidableRel p] {l : List α}
    (h : run (restrict p step) s l = some s') : run step s l = some s' := by
  induction l generalizing s with
  | nil => exact h
  | cons a l ih =>
      rw [run_cons] at h ⊢
      obtain ⟨s₁, h₁, h⟩ := Option.bind_eq_some_iff.mp h
      rw [(restrict_eq_some.mp h₁).2]
      exact ih h

namespace Reachable

theorem refl (s : σ) : Reachable step s s := ⟨[], rfl⟩

theorem of_run {l : List α} (h : run step s l = some s') : Reachable step s s' := ⟨l, h⟩

theorem trans (h₁ : Reachable step s s₁) (h₂ : Reachable step s₁ s') : Reachable step s s' := by
  obtain ⟨l₁, h₁⟩ := h₁
  obtain ⟨l₂, h₂⟩ := h₂
  exact ⟨l₁ ++ l₂, by rw [run_append, h₁]; exact h₂⟩

theorem one (h : step s a = some s') : Reachable step s s' := ⟨[a], by rw [run_cons, h]; rfl⟩

theorem tail (h : Reachable step s s₁) (ha : step s₁ a = some s') : Reachable step s s' :=
  h.trans (one ha)

/-- What holds at the start, and is kept by every step from a reachable state, holds in every
reachable state. -/
theorem inv {I : σ → Prop} (h0 : I s)
    (hstep : ∀ s₁ a s₂, Reachable step s s₁ → I s₁ → step s₁ a = some s₂ → I s₂)
    (h : Reachable step s s') : I s' := by
  obtain ⟨l, h⟩ := h
  -- the induction is on the labels still to come, from any reachable state
  suffices H : ∀ (l : List α) (s₁ : σ), Reachable step s s₁ → I s₁ →
      run step s₁ l = some s' → I s' from H l s (refl s) h0 h
  intro l
  induction l with
  | nil => intro s₁ _ h₁ he; cases he; exact h₁
  | cons a l ih =>
      intro s₁ hr h₁ he
      rw [run_cons] at he
      obtain ⟨s₂, h₂, he⟩ := Option.bind_eq_some_iff.mp he
      exact ih s₂ (hr.tail h₂) (hstep s₁ a s₂ hr h₁ h₂) he

/-- Where a step always either reaches `Q` or lowers the rank, some run reaches `Q`. -/
theorem exists_of_rank (rank : σ → Nat) {P Q : σ → Prop}
    (hstep : ∀ s₁, P s₁ → ∃ a s₂, step s₁ a = some s₂ ∧ (Q s₂ ∨ P s₂ ∧ rank s₂ < rank s₁))
    (hs : P s) : ∃ s', Reachable step s s' ∧ Q s' := by
  induction hn : rank s using Nat.strongRecOn generalizing s with
  | ind n ih =>
      obtain ⟨a, s₁, ha, hQ | ⟨hP, hlt⟩⟩ := hstep s hs
      · exact ⟨s₁, one ha, hQ⟩
      · obtain ⟨s', hs', hQ⟩ := ih (rank s₁) (hn ▸ hlt) hP rfl
        exact ⟨s', (one ha).trans hs', hQ⟩

/-- A system whose every reachable step is a run of another reaches only what the other
reaches. -/
theorem mono {β : Type*} {step' : σ → β → Option σ}
    (hstep : ∀ s₁ a s₂, Reachable step s s₁ → step s₁ a = some s₂ → Reachable step' s₁ s₂)
    (h : Reachable step s s') : Reachable step' s s' :=
  h.inv (I := fun s₁ => Reachable step' s s₁) (refl s) fun _ _ _ hr ih h₂ =>
    ih.trans (hstep _ _ _ hr h₂)

/-- Forget the condition. -/
theorem of_restrict {p : σ → α → Prop} [DecidableRel p] (h : Reachable (restrict p step) s s') :
    Reachable step s s' :=
  h.mono fun _ _ _ _ hs => one (restrict_eq_some.mp hs).2

/-- Replace the condition by one that follows from it in every state the run reaches. -/
theorem weaken {p q : σ → α → Prop} [DecidableRel p] [DecidableRel q]
    (hpq : ∀ s₁ a s₂, Reachable (restrict p step) s s₁ → p s₁ a → step s₁ a = some s₂ → q s₁ a)
    (h : Reachable (restrict p step) s s') : Reachable (restrict q step) s s' :=
  h.mono fun s₁ a s₂ hr hs => by
    obtain ⟨hp, hs⟩ := restrict_eq_some.mp hs
    exact one (restrict_eq_some.mpr ⟨hpq s₁ a s₂ hr hp hs, hs⟩)

end Reachable

/-- What holds before the first label, and is kept by every label of a run, holds of a run and the
state it ends in. -/
theorem run_inv {I : List α → σ → Prop} (h0 : I [] s)
    (hstep : ∀ l s₁ a s₂, run step s l = some s₁ → I l s₁ → step s₁ a = some s₂ → I (l ++ [a]) s₂)
    {l : List α} (h : run step s l = some s') : I l s' := by
  -- the induction is on the labels still to come, after any that were taken
  suffices H : ∀ (l pre : List α) (s₁ : σ), run step s pre = some s₁ → I pre s₁ →
      run step s₁ l = some s' → I (pre ++ l) s' from H l [] s rfl h0 h
  intro l
  induction l with
  | nil =>
      intro pre s₁ _ h₁ he
      cases he
      rw [List.append_nil]
      exact h₁
  | cons a l ih =>
      intro pre s₁ hr h₁ he
      rw [run_cons] at he
      obtain ⟨s₂, h₂, he⟩ := Option.bind_eq_some_iff.mp he
      rw [List.append_cons]
      refine ih (pre ++ [a]) s₂ ?_ (hstep pre s₁ a s₂ hr h₁ h₂) he
      rw [run_append, hr]
      exact (run_singleton).trans h₂

/-- When each step keeps a property exactly if it meets the condition, the property is kept exactly by
the runs whose steps all meet it.  `I` is what every state of a run satisfies anyway. -/
theorem run_restrict_iff {I P : σ → Prop} {p : σ → α → Prop} [DecidableRel p]
    (hI : ∀ s₁ a s₂, I s₁ → step s₁ a = some s₂ → I s₂)
    (hP : ∀ s₁ a s₂, I s₁ → step s₁ a = some s₂ → (P s₂ ↔ P s₁ ∧ p s₁ a))
    {l : List α} (hIs : I s) (h : run step s l = some s') :
    P s' ↔ P s ∧ run (restrict p step) s l = some s' := by
  induction l generalizing s with
  | nil =>
      cases h
      simp
  | cons a l ih =>
      rw [run_cons] at h
      obtain ⟨s₁, h₁, h⟩ := Option.bind_eq_some_iff.mp h
      rw [ih (hI s a s₁ hIs h₁) h, hP s a s₁ hIs h₁, run_cons, and_assoc]
      refine and_congr_right fun _ => ?_
      by_cases hp : p s a
      · rw [restrict, if_pos hp, h₁]
        exact and_iff_right hp
      · rw [restrict, if_neg hp]
        exact iff_of_false (fun hand => hp hand.1) nofun

/-- A run of concrete labels that ends in a state satisfying `p`. -/
theorem exists_of_run (step : σ → α → Option σ) (s : σ) (l : List α) (p : σ → Bool)
    (h : (run step s l).map p = some true) : ∃ s', run step s l = some s' ∧ p s' = true :=
  Option.map_eq_some_iff.mp h

/-- Two runs of concrete labels, one after the other, whose ends satisfy `p` together. -/
theorem exists_of_runs (step : σ → α → Option σ) (s : σ) (l₁ l₂ : List α) (p : σ → σ → Bool)
    (h : ((run step s l₁).bind fun s₁ => (run step s₁ l₂).map (p s₁)) = some true) :
    ∃ s₁ s₂, run step s l₁ = some s₁ ∧ run step s₁ l₂ = some s₂ ∧ p s₁ s₂ = true := by
  obtain ⟨s₁, h₁, h⟩ := Option.bind_eq_some_iff.mp h
  obtain ⟨s₂, h₂, hp⟩ := Option.map_eq_some_iff.mp h
  exact ⟨s₁, s₂, h₁, h₂, hp⟩

end Lib
