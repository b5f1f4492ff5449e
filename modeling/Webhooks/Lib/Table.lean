import Mathlib.Data.List.Find
import Mathlib.Data.List.Nodup
import Mathlib.Data.List.MinMax

/-!
# Lib — Table

A table is the list of its rows.  `update p f` is `UPDATE … SET f WHERE p`, `++` is `INSERT`,
`List.filter` is `WHERE`, and `List.argmin key` is `ORDER BY key LIMIT 1`.  A column is a
function `key` of the row; it is unique when `(t.map key).Nodup`.
-/

namespace Lib.Table

variable {α κ : Type*} {p q : α → Bool} {f : α → α} {t : List α} {a b : α} {key : α → κ}

/-- `UPDATE t SET f WHERE p`. -/
def update (p : α → Bool) (f : α → α) (t : List α) : List α := t.map fun a => if p a then f a else a

theorem mem_update : b ∈ update p f t ↔ ∃ a ∈ t, (if p a then f a else a) = b := List.mem_map

/-- A row of the updated table is an old row that `p` misses, or an old row that `f` set. -/
theorem mem_update_cases (h : b ∈ update p f t) :
    (b ∈ t ∧ p b = false) ∨ ∃ a ∈ t, p a = true ∧ b = f a := by
  obtain ⟨a, ha, rfl⟩ := mem_update.mp h
  cases hp : p a with
  | true => exact .inr ⟨a, ha, hp, by simp⟩
  | false => exact .inl ⟨by simpa using ha, by simpa using hp⟩

theorem mem_update_of_mem (ha : a ∈ t) : (if p a then f a else a) ∈ update p f t :=
  mem_update.mpr ⟨a, ha, rfl⟩

theorem mem_update_of_pos (ha : a ∈ t) (hp : p a = true) : f a ∈ update p f t := by
  simpa [hp] using mem_update_of_mem (p := p) (f := f) ha

theorem mem_update_of_neg (ha : a ∈ t) (hp : p a = false) : a ∈ update p f t := by
  simpa [hp] using mem_update_of_mem (p := p) (f := f) ha

/-- An update of the rows with one value in a column leaves every other row there. -/
theorem mem_update_iff_of_ne (key : α → κ) {k : κ} (hb : key b ≠ k)
    (hp : ∀ a, p a = true → key a = k) (hf : ∀ a, key (f a) = key a) : b ∈ update p f t ↔ b ∈ t := by
  constructor
  · intro h
    rcases mem_update_cases h with ⟨h, -⟩ | ⟨a, -, ha, rfl⟩
    · exact h
    · exact absurd ((hf a).trans (hp a ha)) hb
  · intro h
    refine mem_update_of_neg h ?_
    cases hpb : p b with
    | false => rfl
    | true => exact absurd (hp b hpb) hb

@[simp] theorem length_update : (update p f t).length = t.length := List.length_map _

/-- A column `f` does not set is unchanged. -/
theorem map_update (h : ∀ a, key (f a) = key a) : (update p f t).map key = t.map key := by
  rw [update, List.map_map]
  refine List.map_congr_left fun a _ => ?_
  show key (if p a then f a else a) = key a
  split
  · exact h a
  · rfl

/-- `WHERE q`, for a condition `f` does not change, commutes with the update. -/
theorem filter_update (h : ∀ a, q (f a) = q a) :
    (update p f t).filter q = update p f (t.filter q) := by
  induction t with
  | nil => rfl
  | cons a t ih =>
      have hq : q (if p a then f a else a) = q a := by split <;> simp [h]
      simp only [update, List.map_cons, List.filter_cons, hq] at ih ⊢
      split
      · rw [ih]; rfl
      · exact ih

/-- Rewriting rows leaves a query that reads no rewritten column. -/
theorem map_filter_map {g : α → α} (hp : ∀ a ∈ t, p (g a) = p a) (hkey : ∀ a ∈ t, key (g a) = key a) :
    ((t.map g).filter p).map key = (t.filter p).map key := by
  rw [List.filter_map, List.map_map]
  have hfilter : t.filter (p ∘ g) = t.filter p := List.filter_congr hp
  rw [hfilter]
  exact List.map_congr_left fun a ha => hkey a (List.mem_of_mem_filter ha)

/-- An update whose condition no row meets. -/
theorem update_eq_self (h : ∀ a ∈ t, p a = false) : update p f t = t := by
  refine (List.map_congr_left fun a ha => ?_).trans t.map_id
  simp [h a ha]

/-! ### A `WHERE` that another one implies -/

theorem find?_filter_of_imp
    (h : ∀ a ∈ t, p a = true → q a = true) : (t.filter q).find? p = t.find? p := by
  rw [List.find?_filter]
  refine List.find?_congr fun a ha => ?_
  cases hp : p a with
  | false => simp
  | true => simp [h a ha hp]

theorem filter_filter_of_imp
    (h : ∀ a ∈ t, p a = true → q a = true) : (t.filter q).filter p = t.filter p := by
  rw [List.filter_filter]
  refine List.filter_congr fun a ha => ?_
  cases hp : p a with
  | false => simp
  | true => simp [h a ha hp]

theorem any_filter_of_imp
    (h : ∀ a ∈ t, p a = true → q a = true) : (t.filter q).any p = t.any p := by
  rw [List.any_filter, Bool.eq_iff_iff, List.any_eq_true, List.any_eq_true]
  constructor
  · rintro ⟨a, ha, hp⟩
    exact ⟨a, ha, (Bool.and_eq_true_iff.mp hp).2⟩
  · rintro ⟨a, ha, hp⟩
    exact ⟨a, ha, Bool.and_eq_true_iff.mpr ⟨h a ha hp, hp⟩⟩

/-! ### Inserting rows -/

/-- A row is there after every row is rewritten and rows are inserted. -/
theorem mem_of_rewrite {t' new : List α} (h : t' = t.map f ++ new) (ha : a ∈ t) : f a ∈ t' :=
  h ▸ List.mem_append_left _ (List.mem_map_of_mem ha)

/-- A row afterwards is a rewritten row or an inserted one. -/
theorem mem_rewrite_cases {t' new : List α} (h : t' = t.map f ++ new) (hb : b ∈ t') :
    (∃ a ∈ t, f a = b) ∨ b ∈ new := by
  rw [h, List.mem_append] at hb
  exact hb.imp_left List.mem_map.mp

/-- Two rows with the same value in a unique column are one row. -/
theorem eq_of_key (hn : (t.map key).Nodup) (ha : a ∈ t) (hb : b ∈ t) (h : key a = key b) :
    a = b :=
  List.inj_on_of_nodup_map hn ha hb h

/-- Lists of rows with the same values in a unique column are the same. -/
theorem eq_of_map_key (hn : (t.map key).Nodup) {l l' : List α} (hl : ∀ a ∈ l, a ∈ t)
    (hl' : ∀ a ∈ l', a ∈ t) (h : l.map key = l'.map key) : l = l' := by
  induction l generalizing l' with
  | nil => exact (List.map_eq_nil_iff.mp h.symm).symm
  | cons a l ih =>
      obtain ⟨b, l', rfl, hkey, htail⟩ := List.map_eq_cons_iff.mp h.symm
      obtain rfl : b = a := eq_of_key hn (hl' b List.mem_cons_self) (hl a List.mem_cons_self) hkey
      rw [ih (fun c hc => hl c (List.mem_cons_of_mem _ hc))
        (fun c hc => hl' c (List.mem_cons_of_mem _ hc)) htail.symm]

/-- Inserting a row with a new value keeps a column unique. -/
theorem nodup_insert (hn : (t.map key).Nodup) (h : ∀ b ∈ t, key b ≠ key a) :
    ((t ++ [a]).map key).Nodup := by
  rw [List.map_append, List.map_singleton, List.nodup_append]
  refine ⟨hn, List.nodup_singleton _, fun x hx y hy => ?_⟩
  obtain ⟨b, hb, rfl⟩ := List.mem_map.mp hx
  rw [List.mem_singleton.mp hy]
  exact h b hb

/-- Inserting rows with new, distinct values keeps a column unique. -/
theorem nodup_append {u : List α} (hn : (t.map key).Nodup) (hu : (u.map key).Nodup)
    (h : ∀ a ∈ t, ∀ b ∈ u, key a ≠ key b) : ((t ++ u).map key).Nodup := by
  rw [List.map_append, List.nodup_append]
  refine ⟨hn, hu, fun x hx y hy => ?_⟩
  obtain ⟨a, ha, rfl⟩ := List.mem_map.mp hx
  obtain ⟨b, hb, rfl⟩ := List.mem_map.mp hy
  exact h a ha b hb

/-- At most one row satisfies `p` when any two that do agree in a unique column. -/
theorem length_filter_le_one (hn : (t.map key).Nodup)
    (h : ∀ a ∈ t, ∀ b ∈ t, p a = true → p b = true → key a = key b) :
    (t.filter p).length ≤ 1 := by
  have hn' : (t.filter p).Nodup := (hn.of_map key).filter p
  by_contra hlt
  push Not at hlt
  have h0 := List.getElem_mem (l := t.filter p) (n := 0) (by omega)
  have h1 := List.getElem_mem (l := t.filter p) (n := 1) (by omega)
  rw [List.mem_filter] at h0 h1
  have he := eq_of_key hn h0.1 h1.1 (h _ h0.1 _ h1.1 h0.2 h1.2)
  exact absurd ((hn'.getElem_inj_iff).mp he) (by decide)

/-- An update that takes the rows it meets out of `q` leaves fewer of them. -/
theorem countP_update_lt (hf : ∀ a, q (f a) = false) (ha : a ∈ t) (hp : p a = true) (hq : q a = true) :
    (update p f t).countP q < t.countP q := by
  have hle : ∀ l : List α, (update p f l).countP q ≤ l.countP q := by
    intro l
    rw [update, List.countP_map]
    refine List.countP_mono_left fun b _ hb => ?_
    simp only [Function.comp] at hb
    split at hb
    · rw [hf] at hb
      cases hb
    · exact hb
  obtain ⟨l₁, l₂, rfl⟩ := List.append_of_mem ha
  have heq : update p f (l₁ ++ a :: l₂) = update p f l₁ ++ f a :: update p f l₂ := by simp [update, hp]
  have h₁ := hle l₁
  have h₂ := hle l₂
  rw [heq, List.countP_append, List.countP_append, List.countP_cons_of_neg (by simp [hf]),
    List.countP_cons_of_pos hq]
  omega

end Lib.Table
