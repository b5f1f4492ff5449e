import Mathlib.Data.List.Pairwise
import Mathlib.Data.List.TakeDrop

/-!
# Lib — Paging

A list read page by page: a request names a cursor, the answer has at most `limit` rows and, when there
are more, a cursor made of its last row.  `walk` follows the cursors to the end.

`Pages` says what the requests of one walk answer, for rows in an order in which a cursor never lets
through what is not behind its row.

* `exists_walk`: a walk ends, and what it returns is part of the rows, in order.
* **`walk_iff`**: it returns all of them exactly when the cursor at each page boundary lets the next
  row through.
-/

namespace Lib.Paging

variable {α β τ : Type*}

/-- The rows of a page, of those that are left, and the last of them when there are more. -/
def page (limit : Nat) (rows : List α) : List α × Option α :=
  if limit < rows.length then (rows.take limit, (rows.take limit).getLast?) else (rows, none)

/-- The rows of all pages from a cursor on, when a request without a next cursor comes within the given
number. -/
def walk (fetch : Option τ → Option (List α × Option τ)) : Nat → Option τ → Option (List α)
  | 0, _ => none
  | n + 1, cursor =>
      (fetch cursor).bind fun answer =>
        match answer.2 with
        | none => some answer.1
        | some next => (walk fetch n (some next)).map (answer.1 ++ ·)

/-- What requests answer, over rows in order: `lets a b` says that the cursor of `a` lets `b`
through. -/
structure Pages (fetch : Option τ → Option (List α × Option τ)) (encode : α → τ)
    (lets : α → α → Bool) (limit : Nat) (rows : List α) : Prop where
  start : fetch none = some ((page limit rows).1, (page limit rows).2.map encode)
  next : ∀ a ∈ rows, fetch (some (encode a)) = some ((page limit (rows.filter (lets a))).1,
    (page limit (rows.filter (lets a))).2.map encode)
  self : ∀ a ∈ rows, lets a a = false
  later : rows.Pairwise fun a b => lets b a = false
  mono : rows.Pairwise fun b c => ∀ a ∈ rows, lets a b = true → lets a c = true

/-- At every page boundary the cursor of the last row before it lets the next row through. -/
def Continues (lets : α → α → Bool) (limit : Nat) (rows : List α) : Prop :=
  ∀ i a b, limit ∣ i + 1 → rows[i]? = some a → rows[i + 1]? = some b → lets a b = true

section

variable {fetch : Option τ → Option (List α × Option τ)} {encode : α → τ} {lets : α → α → Bool}
  {limit : Nat} {rows rest out : List α} {a : α} {cursor : Option τ}

theorem mem_page (h : a ∈ (page limit rows).1) : a ∈ rows := by
  simp only [page] at h
  split at h
  · exact List.mem_of_mem_take h
  · exact h

/-- One row more than the page is enough to know the page. -/
theorem page_take : page limit (rows.take (limit + 1)) = page limit rows := by
  simp only [page, List.length_take, List.take_take, Nat.min_eq_left (Nat.le_succ limit)]
  by_cases h : limit < rows.length
  · rw [if_pos (by omega), if_pos h]
  · rw [if_neg (by omega), if_neg h, List.take_of_length_le (by omega)]

theorem page_zero : page 0 rows = ([], none) := by
  cases rows <;> rfl

theorem page_eq_take : (page limit rows).1 = rows.take limit := by
  simp only [page]
  split
  · rfl
  · next h => exact (List.take_of_length_le (Nat.le_of_not_lt h)).symm

theorem length_page : (page limit rows).1.length = min limit rows.length := by
  rw [page_eq_take, List.length_take]

/-- Rows that fit on either page are the page. -/
theorem page_eq_of_length_le {limit' : Nat} (h : rows.length ≤ min limit limit') :
    page limit rows = page limit' rows := by
  rw [page, page, if_neg (by omega), if_neg (by omega)]

/-- The answers for rewritten rows. -/
theorem walk_map (g : α → β) (n : Nat) (cursor : Option τ) :
    walk (fun c => (fetch c).map fun r => (r.1.map g, r.2)) n cursor =
      (walk fetch n cursor).map (List.map g) := by
  induction n generalizing cursor with
  | zero => rfl
  | succ n ih =>
      simp only [walk]
      cases fetch cursor with
      | none => rfl
      | some answer =>
          obtain ⟨rows, next⟩ := answer
          cases next with
          | none => rfl
          | some next =>
              simp only [Option.map_some, Option.bind_some, ih, Option.map_map]
              congr 1
              funext out
              simp

/-- A walk that ends ends the same way with more requests allowed. -/
theorem walk_mono {n m : Nat} (h : walk fetch n cursor = some out) (hle : n ≤ m) :
    walk fetch m cursor = some out := by
  induction n generalizing m cursor out with
  | zero => cases h
  | succ n ih =>
      obtain ⟨m, rfl⟩ : ∃ k, m = k + 1 := ⟨m - 1, by omega⟩
      simp only [walk] at h ⊢
      obtain ⟨⟨rows, next⟩, hf, h⟩ := Option.bind_eq_some_iff.mp h
      rw [hf, Option.bind_some]
      cases next with
      | none => exact h
      | some next =>
          obtain ⟨out', hw, rfl⟩ := Option.map_eq_some_iff.mp h
          exact Option.map_eq_some_iff.mpr ⟨out', ih hw (by omega), rfl⟩

theorem walk_unique {n m : Nat} {out' : List α} (h : walk fetch n cursor = some out)
    (h' : walk fetch m cursor = some out') : out = out' := by
  have hn := walk_mono h (Nat.le_max_left n m)
  rw [walk_mono h' (Nat.le_max_right n m)] at hn
  exact (Option.some.inj hn).symm

/-- What a cursor lets through is an end of the rows. -/
theorem filter_suffix (hmono : rest.Pairwise fun b c => lets a b = true → lets a c = true) :
    rest.filter (lets a) <:+ rest := by
  induction rest with
  | nil => exact List.suffix_refl []
  | cons b rest ih =>
      obtain ⟨hb, hrest⟩ := List.pairwise_cons.mp hmono
      cases hlets : lets a b with
      | false =>
          rw [List.filter_cons_of_neg (by simp [hlets])]
          exact (ih hrest).trans (List.suffix_cons b rest)
      | true =>
          have hall : (b :: rest).filter (lets a) = b :: rest := by
            refine List.filter_eq_self.mpr fun c hc => ?_
            rcases List.mem_cons.mp hc with rfl | hc
            · exact hlets
            · exact hb c hc hlets
          exact ⟨[], hall⟩

/-- Nothing is filtered out exactly when the first row is let through. -/
theorem filter_eq_self_iff (hmono : rest.Pairwise fun b c => lets a b = true → lets a c = true) :
    rest.filter (lets a) = rest ↔ ∀ b, rest.head? = some b → lets a b = true := by
  cases rest with
  | nil => simp
  | cons b rest =>
      rw [List.filter_eq_self]
      constructor
      · rintro h c hc
        cases hc
        exact h b List.mem_cons_self
      · intro h c hc
        rcases List.mem_cons.mp hc with rfl | hc
        · exact h c rfl
        · exact (List.pairwise_cons.mp hmono).1 c hc (h b rfl)

/-- What the cursor of a row of `rest` lets through, of all rows and of those behind a page. -/
theorem Pages.filter_eq (h : Pages fetch encode lets limit rows) {front : List α}
    (hrows : rows = front ++ rest) {i : Nat} (ha : rest[i]? = some a) :
    rows.filter (lets a) = (rest.drop (i + 1)).filter (lets a) := by
  have hsplit : rows = (front ++ rest.take i) ++ a :: rest.drop (i + 1) := by
    have hlt : i < rest.length := (List.getElem?_eq_some_iff.mp ha).1
    have heq : rest[i] = a := (List.getElem?_eq_some_iff.mp ha).2
    rw [hrows, List.append_assoc, ← heq, List.getElem_cons_drop, List.take_append_drop]
  have hmem : a ∈ rows := by
    rw [hsplit]
    exact List.mem_append_right _ List.mem_cons_self
  have hlater := h.later
  have hself := h.self a hmem
  rw [hsplit, List.pairwise_append] at hlater
  rw [hsplit, List.filter_append, List.filter_cons_of_neg (by simp [hself])]
  have hnone : (front ++ rest.take i).filter (lets a) = [] := by
    refine List.filter_eq_nil_iff.mpr fun b hb => ?_
    simp [hlater.2.2 b hb a List.mem_cons_self]
  rw [hnone, List.nil_append]

theorem continues_of_length_le (hle : rest.length ≤ limit) : Continues lets limit rest := by
  intro i a b hdvd _ hb
  have hlt := (List.getElem?_eq_some_iff.mp hb).1
  have hge := Nat.le_of_dvd (Nat.succ_pos i) hdvd
  omega

/-- The first boundary and the others. -/
theorem continues_iff (hlimit : 0 < limit) (ha : rest[limit - 1]? = some a) :
    Continues lets limit rest ↔
      (∀ b, (rest.drop limit).head? = some b → lets a b = true) ∧
        Continues lets limit (rest.drop limit) := by
  simp only [Continues, List.head?_drop, List.getElem?_drop]
  constructor
  · intro h
    refine ⟨fun b hb => h (limit - 1) a b ?_ ha ?_, fun i b c hdvd hb hc => h (limit + i) b c ?_ hb hc⟩
    · exact ⟨1, by omega⟩
    · rwa [Nat.sub_add_cancel hlimit]
    · rw [Nat.add_assoc]
      exact Nat.dvd_add (Nat.dvd_refl limit) hdvd
  · rintro ⟨hfirst, hrest⟩ i b c ⟨k, hk⟩ hb hc
    rcases Nat.eq_or_lt_of_le (Nat.one_le_iff_ne_zero.mpr (by rintro rfl; simp at hk) : 1 ≤ k) with
      rfl | hlt
    · obtain rfl : i = limit - 1 := by omega
      cases ha.symm.trans hb
      refine hfirst c ?_
      rwa [Nat.sub_add_cancel hlimit] at hc
    · have hle : limit ≤ i := by
        have := Nat.mul_le_mul_left limit hlt
        omega
      obtain ⟨j, rfl⟩ := Nat.exists_eq_add_of_le hle
      refine hrest j b c ⟨k - 1, ?_⟩ hb (by rwa [Nat.add_assoc] at hc)
      rw [Nat.mul_sub_one]
      omega

/-- From any end of the rows on a walk ends.  It returns rows of that end in order, and all of them
exactly when every cursor it meets lets the next row through. -/
theorem Pages.exists_walk_from (h : Pages fetch encode lets limit rows) (hlimit : 0 < limit)
    (rest : List α) (hsuffix : rest <:+ rows)
    (hf : fetch cursor = some ((page limit rest).1, (page limit rest).2.map encode)) :
    ∃ n out, walk fetch n cursor = some out ∧ out.Sublist rest ∧
      (out = rest ↔ Continues lets limit rest) := by
  induction hlen : rest.length using Nat.strongRecOn generalizing rest cursor with
  | _ len ih =>
      subst hlen
      by_cases hmore : limit < rest.length
      case neg =>
        refine ⟨1, rest, ?_, List.Sublist.refl rest,
          iff_of_true rfl (continues_of_length_le (Nat.le_of_not_lt hmore))⟩
        rw [walk, hf, page, if_neg hmore]
        rfl
      case pos =>
        obtain ⟨a, ha⟩ : ∃ a, rest[limit - 1]? = some a := ⟨_, List.getElem?_eq_getElem (by omega)⟩
        have hlast : (rest.take limit).getLast? = some a := by
          rw [List.getLast?_eq_getElem?, List.length_take, Nat.min_eq_left (Nat.le_of_lt hmore),
            List.getElem?_take_of_lt (by omega), ha]
        have hmem : a ∈ rows := hsuffix.subset (List.mem_of_getElem? ha)
        have hdrop : rest.drop limit <:+ rows := (List.drop_suffix limit rest).trans hsuffix
        have hmono : (rest.drop limit).Pairwise fun b c => lets a b = true → lets a c = true :=
          (h.mono.sublist hdrop.sublist).imp fun hbc => hbc a hmem
        -- the next request starts behind `a`, with what its cursor lets through
        have hleft : rows.filter (lets a) = (rest.drop limit).filter (lets a) := by
          obtain ⟨front, hrows⟩ := hsuffix
          have heq := h.filter_eq hrows.symm ha
          rwa [Nat.sub_add_cancel hlimit] at heq
        have hsuffix' := filter_suffix hmono
        have hlen := hsuffix'.length_le
        rw [List.length_drop] at hlen
        have hnext := h.next a hmem
        rw [hleft] at hnext
        obtain ⟨n, out, hwalk, hsub, hiff⟩ := ih _ (by omega) _ (hsuffix'.trans hdrop) hnext rfl
        refine ⟨n + 1, rest.take limit ++ out, ?_, ?_, ?_⟩
        · rw [walk, hf, page, if_pos hmore, Option.bind_some, hlast]
          simp only [Option.map_some, hwalk]
        · have hall := (hsub.trans hsuffix'.sublist).append_left (rest.take limit)
          rwa [List.take_append_drop] at hall
        · rw [continues_iff hlimit ha, ← filter_eq_self_iff hmono]
          have hcancel : rest.take limit ++ out = rest ↔ out = rest.drop limit := by
            conv_lhs => rw [← List.take_append_drop limit rest, List.take_left' (by simp; omega)]
            exact List.append_right_inj _
          rw [hcancel]
          constructor
          · rintro rfl
            have hself := hsuffix'.sublist.eq_of_length_le hsub.length_le
            exact ⟨hself, by rw [hself] at hiff; exact hiff.mp rfl⟩
          · rintro ⟨hself, hcont⟩
            rw [hself] at hiff
            exact hiff.mpr hcont

/-- A walk ends, with rows of the list in order. -/
theorem Pages.exists_walk (h : Pages fetch encode lets limit rows) :
    ∃ n out, walk fetch n none = some out ∧ out.Sublist rows := by
  rcases Nat.eq_zero_or_pos limit with rfl | hlimit
  · refine ⟨1, [], ?_, List.nil_sublist rows⟩
    rw [walk, h.start, page]
    cases rows <;> rfl
  · obtain ⟨n, out, hwalk, hsub, _⟩ := h.exists_walk_from hlimit rows (List.suffix_refl rows) h.start
    exact ⟨n, out, hwalk, hsub⟩

/-- A walk returns all rows exactly when pages are not empty, or there is nothing to return, and every
cursor it meets lets the next row through. -/
theorem Pages.walk_iff (h : Pages fetch encode lets limit rows) :
    (∃ n, walk fetch n none = some rows) ↔ (limit = 0 → rows = []) ∧ Continues lets limit rows := by
  rcases Nat.eq_zero_or_pos limit with rfl | hlimit
  · have hone : walk fetch 1 none = some [] := by
      rw [walk, h.start, page]
      cases rows <;> rfl
    constructor
    · rintro ⟨n, hwalk⟩
      obtain rfl := walk_unique hwalk hone
      exact ⟨fun _ => rfl, continues_of_length_le (Nat.le_refl 0)⟩
    · rintro ⟨hempty, _⟩
      rw [hempty rfl]
      exact ⟨1, hone⟩
  · obtain ⟨n, out, hwalk, _, hiff⟩ :=
      h.exists_walk_from hlimit rows (List.suffix_refl rows) h.start
    rw [← hiff]
    constructor
    · rintro ⟨m, hm⟩
      exact ⟨fun hzero => absurd hzero (Nat.ne_of_gt hlimit), walk_unique hwalk hm⟩
    · rintro ⟨_, rfl⟩
      exact ⟨n, hwalk⟩

/-- The same of a walk that rewrites the rows. -/
theorem Pages.walk_map_iff (h : Pages fetch encode lets limit rows) (g : α → β) :
    (∃ n, walk (fun c => (fetch c).map fun r => (r.1.map g, r.2)) n none = some (rows.map g)) ↔
      (limit = 0 → rows = []) ∧ Continues lets limit rows := by
  rw [← h.walk_iff]
  simp only [walk_map, Option.map_eq_some_iff]
  constructor
  · rintro ⟨n, out, hwalk, hmap⟩
    obtain ⟨m, out', hwalk', hsub⟩ := h.exists_walk
    obtain rfl := walk_unique hwalk hwalk'
    -- as many rows as there are, in order
    have hlen := congrArg List.length hmap
    rw [List.length_map, List.length_map] at hlen
    rw [← hsub.eq_of_length hlen]
    exact ⟨n, hwalk⟩
  · rintro ⟨n, hwalk⟩
    exact ⟨n, rows, hwalk, rfl⟩

end

end Lib.Paging
