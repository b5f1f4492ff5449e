import Mathlib.Data.List.Infix
import Mathlib.Logic.Relation

/-!
# Lib — Channel

A first-in first-out channel that hands its first item out, over and over, until the item is accepted or
given up.  To give an item up takes as many hand-outs as the ceiling says, and closes the channel.

* `Channel`, `Channel.Step`: its states, and what it does.
* **`Steps.items`**: items stay in the order in which they arrived, for ever.
* **`Steps.settled`**: so does what is settled, and it is never taken back.
* **`Sound`**, `Steps.sound`: items are settled after a hand-out at least, and given up after as many as the
  ceiling; but for the first one that waits, no waiting item has ever been handed out.
-/

namespace Lib

/-- An item that is settled. -/
structure Settled (ι : Type*) where
  item : ι
  /-- How often it was handed out. -/
  count : Nat
  accepted : Bool
deriving DecidableEq

structure Channel (ι : Type*) where
  settled : List (Settled ι)
  /-- The items that wait, and how often each was handed out. -/
  waiting : List (ι × Nat)
  /-- The first of them is handed out. -/
  isOut : Bool
  isOpen : Bool
deriving DecidableEq

namespace Channel

variable {ι : Type*}

/-- No item has arrived. -/
def empty : Channel ι := ⟨[], [], false, false⟩

/-- All that has arrived. -/
def items (c : Channel ι) : List ι := c.settled.map Settled.item ++ c.waiting.map Prod.fst

inductive Step (ceiling : Nat) : Channel ι → Channel ι → Prop where
  | arrive {settled : List (Settled ι)} {waiting : List (ι × Nat)} {isOut isOpen : Bool} (new : List ι) :
      Step ceiling ⟨settled, waiting, isOut, isOpen⟩
        ⟨settled, waiting ++ new.map fun x => (x, 0), isOut, isOpen⟩
  | gate {settled : List (Settled ι)} {waiting : List (ι × Nat)} {isOut isOpen : Bool} (isOpen' : Bool) :
      Step ceiling ⟨settled, waiting, isOut, isOpen⟩ ⟨settled, waiting, isOut, isOpen'⟩
  | handOut {settled : List (Settled ι)} {x : ι} {n : Nat} {rest : List (ι × Nat)} {isOpen : Bool} :
      Step ceiling ⟨settled, (x, n) :: rest, false, isOpen⟩ ⟨settled, (x, n + 1) :: rest, true, isOpen⟩
  /-- The item comes back, refused or lost. -/
  | comeBack {settled : List (Settled ι)} {waiting : List (ι × Nat)} {isOpen : Bool} :
      Step ceiling ⟨settled, waiting, true, isOpen⟩ ⟨settled, waiting, false, isOpen⟩
  | accept {settled : List (Settled ι)} {x : ι} {n : Nat} {rest : List (ι × Nat)} {isOpen : Bool} :
      Step ceiling ⟨settled, (x, n) :: rest, true, isOpen⟩
        ⟨settled ++ [⟨x, n, true⟩], rest, false, isOpen⟩
  | giveUp {settled : List (Settled ι)} {x : ι} {n : Nat} {rest : List (ι × Nat)} {isOpen : Bool}
      (hcount : ceiling ≤ n) :
      Step ceiling ⟨settled, (x, n) :: rest, true, isOpen⟩
        ⟨settled ++ [⟨x, n, false⟩], rest, false, false⟩

/-- Any number of steps. -/
def Steps (ceiling : Nat) : Channel ι → Channel ι → Prop := Relation.ReflTransGen (Step ceiling)

structure Sound (ceiling : Nat) (c : Channel ι) : Prop where
  settled : ∀ x ∈ c.settled, 0 < x.count ∧ (x.accepted = false → ceiling ≤ x.count)
  untouched : ∀ x ∈ c.waiting.tail, x.2 = 0
  handedOut : c.isOut = true → ∃ x n rest, c.waiting = (x, n + 1) :: rest

variable {ceiling : Nat} {c c' : Channel ι}

theorem Step.items (h : Step ceiling c c') : c.items <+: c'.items := by
  cases h with
  | arrive new =>
      refine ⟨new, ?_⟩
      simp [Channel.items, Function.comp_def]
  | accept | giveUp => simp [Channel.items]
  | _ => exact List.prefix_rfl

theorem Step.settled (h : Step ceiling c c') : c.settled <+: c'.settled := by
  cases h with
  | accept | giveUp => exact List.prefix_append _ _
  | _ => exact List.prefix_rfl

theorem Sound.empty : Sound ceiling (empty : Channel ι) where
  settled _ h := by cases h
  untouched _ h := by cases h
  handedOut h := by cases h

/-- An item settled after it was handed out. -/
theorem Sound.settle {settled : List (Settled ι)} {x : ι} {n : Nat} {rest : List (ι × Nat)}
    {isOpen isOpen' accepted : Bool} (h : Sound ceiling ⟨settled, (x, n) :: rest, true, isOpen⟩)
    (hcount : accepted = false → ceiling ≤ n) :
    Sound ceiling ⟨settled ++ [⟨x, n, accepted⟩], rest, false, isOpen'⟩ where
  settled y hy := by
    rcases List.mem_append.mp hy with hy | hy
    · exact h.settled y hy
    · obtain ⟨_, m, _, heq⟩ := h.handedOut rfl
      obtain ⟨⟨-, rfl⟩, -⟩ : (_ ∧ n = m + 1) ∧ _ := by simpa using heq
      rw [List.mem_singleton.mp hy]
      exact ⟨Nat.succ_pos m, hcount⟩
  untouched y hy := h.untouched y (List.mem_of_mem_tail hy)
  handedOut h := by cases h

theorem Step.sound (h : Step ceiling c c') (hc : Sound ceiling c) : Sound ceiling c' := by
  cases h with
  | @arrive settled waiting isOut isOpen new =>
      refine ⟨hc.settled, fun x hx => ?_, fun hout => ?_⟩
      · have hnew : ∀ y ∈ new.map fun x => (x, 0), y.2 = 0 := by
          rintro _ hy
          obtain ⟨_, -, rfl⟩ := List.mem_map.mp hy
          rfl
        cases waiting with
        | nil => exact hnew x (List.mem_of_mem_tail hx)
        | cons y rest => exact (List.mem_append.mp hx).elim (hc.untouched x) (hnew x)
      · obtain ⟨x, n, rest, hwaiting⟩ := hc.handedOut hout
        exact ⟨x, n, _, by rw [show waiting = _ from hwaiting]; rfl⟩
  | gate => exact ⟨hc.settled, hc.untouched, hc.handedOut⟩
  | handOut => exact ⟨hc.settled, hc.untouched, fun _ => ⟨_, _, _, rfl⟩⟩
  | comeBack => exact ⟨hc.settled, hc.untouched, fun h => by cases h⟩
  | accept => exact hc.settle fun h => by cases h
  | giveUp hcount => exact hc.settle fun _ => hcount

theorem Steps.items (h : Steps ceiling c c') : c.items <+: c'.items := by
  induction h with
  | refl => exact List.prefix_rfl
  | tail _ hstep ih => exact ih.trans hstep.items

theorem Steps.settled (h : Steps ceiling c c') : c.settled <+: c'.settled := by
  induction h with
  | refl => exact List.prefix_rfl
  | tail _ hstep ih => exact ih.trans hstep.settled

theorem Steps.sound (h : Steps ceiling c c') (hc : Sound ceiling c) : Sound ceiling c' := by
  induction h with
  | refl => exact hc
  | tail _ hstep ih => exact hstep.sound ih

end Channel

end Lib
