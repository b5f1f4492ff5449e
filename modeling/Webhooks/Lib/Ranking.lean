import Mathlib.Data.List.Pairwise
import Mathlib.Data.List.Sort

/-!
# Lib — Ranking

`ORDER BY r LIMIT n` is `(l.insertionSort r).take n`.  Two rows are tied when `r` holds both
ways.  Without ties the order is strict, and what comes out does not depend on the order in
which the rows were met: a row comes out when fewer than `n` rows are strictly before it
(`mem_take_insertionSort`), and every row strictly before it comes out ahead of it
(`mem_of_before`).
-/

namespace Lib.Ranking

variable {α : Type*} {r : α → α → Prop} {l : List α} {a b : α} {n : Nat}

/-- `a` comes strictly before `b`. -/
def Before (r : α → α → Prop) (a b : α) : Prop := ¬ r b a

instance [DecidableRel r] : DecidableRel (Before r) := fun a b => inferInstanceAs (Decidable (¬ r b a))

/-- No two rows are tied. -/
def Untied (r : α → α → Prop) (l : List α) : Prop := l.Pairwise fun a b => ¬ (r a b ∧ r b a)

theorem Before.asymm [Std.Total r] (h : Before r a b) : ¬ Before r b a := fun h' =>
  (Std.Total.total (r := r) a b).elim h' h

theorem Before.ne [Std.Total r] (h : Before r a b) : a ≠ b := by
  rintro rfl
  exact h.asymm h

theorem Untied.eq (h : Untied r l) (ha : a ∈ l) (hb : b ∈ l) (hab : r a b) (hba : r b a) : a = b := by
  by_contra hne
  have : Std.Symm fun a b : α => ¬ (r a b ∧ r b a) := ⟨fun a b h h' => h h'.symm⟩
  exact List.Pairwise.forall h ha hb hne ⟨hab, hba⟩

/-- `ORDER BY` and `WHERE` commute on untied rows. -/
theorem insertionSort_filter [DecidableRel r] [Std.Total r] [IsTrans α r] (h : Untied r l)
    (q : α → Bool) : (l.filter q).insertionSort r = (l.insertionSort r).filter q := by
  have hperm : ((l.filter q).insertionSort r).Perm ((l.insertionSort r).filter q) :=
    (List.perm_insertionSort r _).trans ((List.perm_insertionSort r l).symm.filter q)
  refine List.Perm.eq_of_pairwise (fun a b ha hb => ?_) (List.pairwise_insertionSort r _)
    ((List.pairwise_insertionSort r l).filter q) hperm
  have ha : a ∈ l := List.mem_of_mem_filter ((List.mem_insertionSort r).mp ha)
  have hb : b ∈ l := (List.mem_insertionSort r).mp (List.mem_of_mem_filter hb)
  exact h.eq ha hb

/-- Untied rows in sorted order are in strict order. -/
theorem pairwise_before [DecidableRel r] [Std.Total r] [IsTrans α r] (h : Untied r l) :
    (l.insertionSort r).Pairwise (Before r) := by
  have hsym : (l.insertionSort r).Pairwise fun a b => ¬ (r a b ∧ r b a) :=
    ((List.perm_insertionSort r l).symm.pairwise_iff fun h hba => h hba.symm).mp h
  exact ((List.pairwise_insertionSort r l).and hsym).imp fun ⟨hab, hn⟩ hba => hn ⟨hab, hba⟩

/-- In strict order the first `n` rows are those with fewer than `n` rows before them. -/
theorem mem_take [DecidableRel r] [Std.Total r] (h : l.Pairwise (Before r)) :
    a ∈ l.take n ↔ a ∈ l ∧ (l.filter fun b => Before r b a).length < n := by
  induction l generalizing n with
  | nil => simp
  | cons b l ih =>
      obtain ⟨hb, hl⟩ := List.pairwise_cons.mp h
      cases n with
      | zero => simp
      | succ n =>
          rw [List.take_succ_cons, List.mem_cons, List.mem_cons, ih hl]
          by_cases hab : a = b
          · subst hab
            -- the first row has none before it
            have hnil : (a :: l).filter (fun c => Before r c a) = [] := by
              refine List.filter_eq_nil_iff.mpr fun c hc => ?_
              rcases List.mem_cons.mp hc with rfl | hc
              · simpa using fun h => Before.ne h rfl
              · simpa using (hb c hc).asymm
            simp [hnil]
          · constructor
            · rintro (rfl | ⟨ha, hlt⟩)
              · exact absurd rfl hab
              · rw [List.filter_cons_of_pos (by simpa using hb a ha)]
                exact ⟨.inr ha, Nat.succ_lt_succ hlt⟩
            · rintro ⟨rfl | ha, hlt⟩
              · exact absurd rfl hab
              · rw [List.filter_cons_of_pos (by simpa using hb a ha)] at hlt
                exact .inr ⟨ha, Nat.lt_of_succ_lt_succ hlt⟩

/-- `ORDER BY r LIMIT n` lets a row through when fewer than `n` rows are before it. -/
theorem mem_take_insertionSort [DecidableRel r] [Std.Total r] [IsTrans α r] (h : Untied r l) :
    a ∈ (l.insertionSort r).take n ↔ a ∈ l ∧ (l.filter fun b => Before r b a).length < n := by
  rw [mem_take (pairwise_before h), List.mem_insertionSort,
    ((List.perm_insertionSort r l).filter _).length_eq]

/-- A row before one that comes out comes out ahead of it. -/
theorem mem_of_before [Std.Total r] (h : l.Pairwise (Before r)) {pre rest : List α}
    (htake : l.take n = pre ++ a :: rest) (hb : b ∈ l) (hba : Before r b a) : b ∈ pre := by
  rw [← List.take_append_drop n l, htake, List.append_assoc, List.cons_append] at h hb
  rcases List.mem_append.mp hb with hb | hb
  · exact hb
  · rcases List.mem_cons.mp hb with rfl | hb
    · exact absurd rfl hba.ne
    · have hab := (List.pairwise_cons.mp (List.pairwise_append.mp h).2.1).1 b hb
      exact absurd hba hab.asymm

/-- Two orders sort untied rows alike when they agree on them. -/
theorem insertionSort_eq_iff {q : α → α → Prop} [DecidableRel r] [Std.Total r] [IsTrans α r]
    [DecidableRel q] [Std.Total q] [IsTrans α q] (hr : Untied r l) (hq : Untied q l) :
    l.insertionSort r = l.insertionSort q ↔
      ∀ a ∈ l, ∀ b ∈ l, Before q a b → Before r a b := by
  constructor
  · intro heq a ha b hb hab
    have hsr : (l.insertionSort q).Pairwise (Before r) := heq ▸ pairwise_before hr
    have hboth : (l.insertionSort q).Pairwise fun a b =>
        (Before r a b ∧ Before q a b) ∨ Before r b a ∧ Before q b a :=
      (hsr.and (pairwise_before hq)).imp Or.inl
    have : Std.Symm fun a b : α => (Before r a b ∧ Before q a b) ∨ Before r b a ∧ Before q b a :=
      ⟨fun a b h => h.symm⟩
    rcases hboth.forall ((List.mem_insertionSort q).mpr ha) ((List.mem_insertionSort q).mpr hb)
      hab.ne with h | h
    · exact h.1
    · exact absurd h.2 hab.asymm
  · intro hagree
    refine List.Perm.eq_of_pairwise
      (fun a b ha hb => hr.eq ((List.mem_insertionSort r).mp ha) ((List.mem_insertionSort q).mp hb))
      (List.pairwise_insertionSort r l) ?_
      ((List.perm_insertionSort r l).trans (List.perm_insertionSort q l).symm)
    refine (pairwise_before hq).imp_of_mem fun {a b} ha hb hab => ?_
    have hbefore := hagree a ((List.mem_insertionSort q).mp ha) b ((List.mem_insertionSort q).mp hb) hab
    exact (Std.Total.total (r := r) a b).resolve_right hbefore

end Lib.Ranking
