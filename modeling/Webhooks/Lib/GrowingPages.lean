import Webhooks.Lib.Paging

/-!
# Lib — GrowingPages

A list read page by page (`Paging`) while it grows: the table a request meets is that of its own
moment.  A cursor is the key of the last row of a page, and a request lets through what comes after it.

* `walkFrom`: follow the cursors, from a moment on.
* `Growing`: a table in the order of its keys, which never loses a key and stays within finitely
  many.
* **`Growing.exists_walk`**: a walk ends, with rows in order, and it has met every key that was there
  when it began.
-/

namespace Lib.Paging

variable {α β κ τ : Type*}

/-- The rows of all pages from a cursor on, the first of them asked for at moment `i`, when a request
without a next cursor comes within the given number. -/
def walkFrom (fetch : Nat → Option τ → Option (List α × Option τ)) :
    Nat → Nat → Option τ → Option (List α)
  | 0, _, _ => none
  | n + 1, i, cursor =>
      (fetch i cursor).bind fun answer =>
        match answer.2 with
        | none => some answer.1
        | some next => (walkFrom fetch n (i + 1) (some next)).map (answer.1 ++ ·)

/-- Tables in the order of keys, one for each moment. -/
structure Growing (before : κ → κ → Prop) (key : α → κ) (bound : List κ) (table : Nat → List α) :
    Prop where
  trans : ∀ {a b c}, before a b → before b c → before a c
  irrefl : ∀ a, ¬ before a a
  sorted : ∀ i, (table i).Pairwise fun a b => before (key a) (key b)
  kept : ∀ i, ∀ a ∈ table i, ∃ b ∈ table (i + 1), key b = key a
  bounded : ∀ i, ∀ a ∈ table i, key a ∈ bound

/-- What requests answer: the first rows that come after the key of the cursor. -/
structure Answers (before : κ → κ → Prop) [DecidableRel before] (key : α → κ) (encode : κ → τ)
    (limit : Nat) (table : Nat → List α) (fetch : Nat → Option τ → Option (List α × Option τ)) :
    Prop where
  start : fetch 0 none =
    some ((page limit (table 0)).1, (page limit (table 0)).2.map fun a => encode (key a))
  next : ∀ i, ∀ a ∈ table i, ∀ j, fetch j (some (encode (key a))) =
    some ((page limit ((table j).filter fun b => before (key a) (key b))).1,
      (page limit ((table j).filter fun b => before (key a) (key b))).2.map fun b => encode (key b))

section

variable {before : κ → κ → Prop} [DecidableRel before] {key : α → κ} {encode : κ → τ} {limit : Nat}
  {bound : List κ} {table : Nat → List α} {fetch : Nat → Option τ → Option (List α × Option τ)}

/-- The answers for rewritten rows. -/
theorem walkFrom_map (g : α → β) (n i : Nat) (cursor : Option τ) :
    walkFrom (fun i c => (fetch i c).map fun r => (r.1.map g, r.2)) n i cursor =
      (walkFrom fetch n i cursor).map (List.map g) := by
  induction n generalizing i cursor with
  | zero => rfl
  | succ n ih =>
      simp only [walkFrom]
      cases fetch i cursor with
      | none => rfl
      | some answer =>
          obtain ⟨rows, next⟩ := answer
          cases next with
          | none => rfl
          | some next =>
              simp only [Option.map_some, Option.bind_some, ih, Option.map_map]
              congr 1
              funext out
              simp

/-- From any moment on, over the rows with a property that what comes after such a row has as well. -/
theorem Growing.exists_walk_from (h : Growing before key bound table)
    (ha : Answers before key encode limit table fetch) (hlimit : 0 < limit) (i : Nat)
    (cursor : Option τ) (q : κ → Bool) (hup : ∀ k k', before k k' → q k = true → q k' = true)
    (hf : fetch i cursor = some ((page limit ((table i).filter fun a => q (key a))).1,
      (page limit ((table i).filter fun a => q (key a))).2.map fun a => encode (key a))) :
    ∃ n out, walkFrom fetch n i cursor = some out ∧
      out.Pairwise (fun a b => before (key a) (key b)) ∧
      (∀ b ∈ out, q (key b) = true ∧ ∃ j, b ∈ table j) ∧
      ∀ a ∈ table i, q (key a) = true → ∃ b ∈ out, key b = key a := by
  induction hlen : (bound.filter q).length using Nat.strongRecOn generalizing i cursor q with
  | _ len ih =>
      subst hlen
      set rest := (table i).filter fun a => q (key a) with hrest
      have hsorted : rest.Pairwise fun a b => before (key a) (key b) := (h.sorted i).filter _
      have hmem : ∀ a, a ∈ rest ↔ a ∈ table i ∧ q (key a) = true := fun a => List.mem_filter
      by_cases hmore : limit < rest.length
      case neg =>
        refine ⟨1, rest, ?_, hsorted, fun b hb => ⟨((hmem b).mp hb).2, i, ((hmem b).mp hb).1⟩,
          fun a hai hqa => ⟨a, (hmem a).mpr ⟨hai, hqa⟩, rfl⟩⟩
        rw [walkFrom, hf, page, if_neg hmore]
        rfl
      case pos =>
        -- the page, `a` the last of its rows, and the rows behind
        obtain ⟨a, hlast⟩ : ∃ a, (rest.take limit).getLast? = some a := by
          have hne : rest.take limit ≠ [] := by
            refine List.ne_nil_of_length_pos ?_
            rw [List.length_take, Nat.min_eq_left (Nat.le_of_lt hmore)]
            exact hlimit
          exact ⟨_, List.getLast?_eq_some_getLast hne⟩
        obtain ⟨front, htake⟩ := List.getLast?_eq_some_iff.mp hlast
        have hsplit : rest = front ++ a :: rest.drop limit := by
          conv_lhs => rw [← List.take_append_drop limit rest, htake, List.append_assoc,
            List.singleton_append]
        have hamem : a ∈ rest := by
          rw [hsplit]
          exact List.mem_append_right _ List.mem_cons_self
        obtain ⟨hai, hqa⟩ := (hmem a).mp hamem
        obtain ⟨-, hbehind, hfront⟩ := List.pairwise_append.mp (hsplit ▸ hsorted)
        -- the next request is on the next table, for what comes after `a`
        have hq : ∀ k, decide (before (key a) k) = true → q k = true := fun k hk =>
          hup (key a) k (of_decide_eq_true hk) hqa
        have hless : (bound.filter fun k => decide (before (key a) k)).length < (bound.filter q).length := by
          have hsub : (bound.filter fun k => decide (before (key a) k)) =
              (bound.filter q).filter fun k => decide (before (key a) k) := by
            rw [List.filter_filter]
            exact List.filter_congr fun k _ => by
              by_cases hk : before (key a) k <;> simp [hk, hq k]
          rw [hsub]
          refine List.length_filter_lt_length_iff_exists.mpr
            ⟨key a, List.mem_filter.mpr ⟨h.bounded i a hai, hqa⟩, ?_⟩
          simpa using h.irrefl (key a)
        obtain ⟨n, out, hwalk, hout, hall, hmet⟩ := ih _ hless (i + 1) (some (encode (key a)))
          (fun k => decide (before (key a) k))
          (fun k k' hk hka => decide_eq_true (h.trans (of_decide_eq_true hka) hk))
          (ha.next i a hai (i + 1)) rfl
        refine ⟨n + 1, rest.take limit ++ out, ?_, ?_, ?_, ?_⟩
        · rw [walkFrom, hf, page, if_pos hmore, Option.bind_some, hlast]
          simp only [Option.map_some, hwalk]
        · refine List.pairwise_append.mpr ⟨hsorted.sublist (List.take_sublist _ _), hout,
            fun b hb c hc => ?_⟩
          have hac : before (key a) (key c) := of_decide_eq_true (hall c hc).1
          rw [htake] at hb
          rcases List.mem_append.mp hb with hb | hb
          · exact h.trans (hfront b hb a List.mem_cons_self) hac
          · rw [List.mem_singleton.mp hb]
            exact hac
        · intro b hb
          rcases List.mem_append.mp hb with hb | hb
          · obtain ⟨hbi, hqb⟩ := (hmem b).mp (List.mem_of_mem_take hb)
            exact ⟨hqb, i, hbi⟩
          · exact ⟨hq _ (hall b hb).1, (hall b hb).2⟩
        · intro b hbi hqb
          have hb := (hmem b).mpr ⟨hbi, hqb⟩
          rw [← List.take_append_drop limit rest] at hb
          rcases List.mem_append.mp hb with hb | hb
          · exact ⟨b, List.mem_append_left _ hb, rfl⟩
          · obtain ⟨c, hc, hkey⟩ := h.kept i b hbi
            have hab := (List.pairwise_cons.mp hbehind).1 b hb
            obtain ⟨e, he, hkey'⟩ := hmet c hc (by rw [hkey]; exact decide_eq_true hab)
            exact ⟨e, List.mem_append_right _ he, hkey'.trans hkey⟩

/-- A walk ends, with rows in order, and it has met every key that was there when it began. -/
theorem Growing.exists_walk (h : Growing before key bound table)
    (ha : Answers before key encode limit table fetch) (hlimit : 0 < limit) :
    ∃ n out, walkFrom fetch n 0 none = some out ∧
      out.Pairwise (fun a b => before (key a) (key b)) ∧ (∀ b ∈ out, ∃ j, b ∈ table j) ∧
      ∀ a ∈ table 0, ∃ b ∈ out, key b = key a := by
  obtain ⟨n, out, hwalk, hsorted, hout, hall⟩ := h.exists_walk_from ha hlimit 0 none (fun _ => true)
    (fun _ _ _ _ => rfl) (by rw [List.filter_eq_self.mpr fun _ _ => rfl]; exact ha.start)
  exact ⟨n, out, hwalk, hsorted, fun b hb => (hout b hb).2, fun a ha => hall a ha rfl⟩

theorem page_map (g : α → β) (rows : List α) :
    page limit (rows.map g) = ((page limit rows).1.map g, (page limit rows).2.map g) := by
  simp only [page, List.length_map]
  split
  · rw [← List.map_take, List.getLast?_map]
  · rfl

/-- The same, when each page is written out at its own moment. -/
theorem Growing.exists_walk_map (h : Growing before key bound table)
    (ha : Answers before key encode limit table fetch) (hlimit : 0 < limit) (g : Nat → α → β) :
    ∃ (n : Nat) (out : List (Nat × α)),
      walkFrom (fun i c => (fetch i c).map fun r => (r.1.map (g i), r.2)) n 0 none =
        some (out.map fun b => g b.1 b.2) ∧
      out.Pairwise (fun a b => before (key a.2) (key b.2)) ∧ (∀ b ∈ out, b.2 ∈ table b.1) ∧
      ∀ a ∈ table 0, ∃ b ∈ out, key b.2 = key a := by
  -- each row with the moment it is read at
  have htag : Growing before (fun b : Nat × α => key b.2) bound fun i => (table i).map (i, ·) := by
    refine ⟨h.trans, h.irrefl, fun i => List.pairwise_map.mpr (h.sorted i), ?_, ?_⟩
    · intro i b hb
      obtain ⟨a, ha, rfl⟩ := List.mem_map.mp hb
      obtain ⟨c, hc, hkey⟩ := h.kept i a ha
      exact ⟨(i + 1, c), List.mem_map_of_mem hc, hkey⟩
    · intro i b hb
      obtain ⟨a, ha, rfl⟩ := List.mem_map.mp hb
      exact h.bounded i a ha
  have hpages : Answers before (fun b : Nat × α => key b.2) encode limit (fun i => (table i).map (i, ·))
      fun i c => (fetch i c).map fun r => (r.1.map (i, ·), r.2) := by
    constructor
    · simp [ha.start, page_map, Function.comp_def]
    · intro i b hb j
      obtain ⟨a, hai, rfl⟩ := List.mem_map.mp hb
      simp [ha.next i a hai j, List.filter_map, Function.comp_def, page_map]
  obtain ⟨n, out, hwalk, hsorted, hout, hall⟩ := htag.exists_walk hpages hlimit
  refine ⟨n, out, ?_, hsorted, fun b hb => ?_, fun a ha => ?_⟩
  · have htagged : (fun i c => (fetch i c).map fun r => (r.1.map (g i), r.2)) = fun i c =>
        ((fetch i c).map fun r => (r.1.map (i, ·), r.2)).map fun r =>
          (r.1.map fun b : Nat × α => g b.1 b.2, r.2) := by
      funext i c
      simp [Function.comp_def]
    rw [htagged, walkFrom_map, hwalk, Option.map_some]
  · obtain ⟨i, hi⟩ := hout b hb
    obtain ⟨a, ha, rfl⟩ := List.mem_map.mp hi
    exact ha
  · exact hall (0, a) (List.mem_map_of_mem ha)

end

end Lib.Paging
