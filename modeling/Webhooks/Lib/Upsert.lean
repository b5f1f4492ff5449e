import Webhooks.Lib.Table

/-!
# Lib — Upsert

Insert a row unless there is one with its key, else answer with the one there is.  Any number of
calls do this at once: `INSERT … ON CONFLICT DO NOTHING` is one step and its commit another, and a
call that met a conflict reads the row there is in a third.

* `Spec`: what rows and requests are, and which row a request makes.
* `Step`: what the calls, and whoever else writes columns of the rows, may do.
* `Inv`, **`Inv.step`**: keys and identifiers are distinct, every row was made by a request, and an
  answer is the identifier of the row with the request's key.
* **`Inv.answer_iff`**: two calls get one answer exactly when their requests have one key.
-/

namespace Lib.Upsert

variable {γ ρ ε κ ι : Type*}

/-- Requests `ρ` and rows `ε`, with keys `κ` and identifiers `ι`. -/
structure Spec (ρ ε κ ι : Type*) where
  requestKey : ρ → κ
  key : ε → κ
  id : ε → ι
  /-- The row is the one this request makes. -/
  Made : ρ → ε → Prop
  key_of_made : ∀ {r e}, Made r e → key e = requestKey r

/-- Where a call stands. -/
inductive Call (ρ ε ι : Type*) where
  | idle
  | arrived (r : ρ)
  | inserting (row : ε)
  | conflicted (r : ρ)
  | answered (id : ι)
  | failed

/-- Calls `γ` over one table.  `drawn` are the identifiers handed out so far, and `requested` is
the history: which call was for what. -/
structure State (γ ρ ε ι : Type*) where
  rows : List ε
  uncommitted : List ε
  drawn : ι → Prop
  calls : γ → Call ρ ε ι
  requested : γ → ρ → Prop

/-- All rows, committed or not. -/
def State.all (s : State γ ρ ε ι) : List ε := s.rows ++ s.uncommitted

/-- The tables are as they were. -/
structure SameRows (s s' : State γ ρ ε ι) : Prop where
  rows : s'.rows = s.rows
  uncommitted : s'.uncommitted = s.uncommitted

/-- Only call `c` has moved, and to `call`. -/
structure Moves (c : γ) (call : Call ρ ε ι) (s s' : State γ ρ ε ι) : Prop where
  call : s'.calls c = call
  others : ∀ c', c' ≠ c → s'.calls c' = s.calls c'

inductive Step [DecidableEq ι] (σ : Spec ρ ε κ ι) (s s' : State γ ρ ε ι) : Prop
  | request (c : γ) (r : ρ) (call : Call ρ ε ι) (idle : s.calls c = .idle) (same : SameRows s s')
      (moves : Moves c call s s') (next : call = .arrived r ∨ call = .failed)
      (requested : ∀ c' r', s'.requested c' r' ↔ s.requested c' r' ∨ c' = c ∧ r' = r)
  | insert (c : γ) (r : ρ) (row : ε) (before : s.calls c = .arrived r) (made : σ.Made r row)
      (key : ∀ e ∈ s.all, σ.key e ≠ σ.key row) (fresh : ¬ s.drawn (σ.id row))
      (drawn : s'.drawn (σ.id row)) (rows : s'.rows = s.rows)
      (uncommitted : s'.uncommitted = row :: s.uncommitted)
      (moves : Moves c (.inserting row) s s') (requested : s'.requested = s.requested)
  | conflict (c : γ) (r : ρ) (row : ε) (before : s.calls c = .arrived r) (mem : row ∈ s.rows)
      (key : σ.key row = σ.requestKey r) (same : SameRows s s')
      (moves : Moves c (.conflicted r) s s') (requested : s'.requested = s.requested)
  | commit (c : γ) (row : ε) (before : s.calls c = .inserting row) (rows : s'.rows = s.rows ++ [row])
      (uncommitted : s'.uncommitted = s.uncommitted.filter fun e => σ.id e ≠ σ.id row)
      (moves : Moves c (.answered (σ.id row)) s s') (requested : s'.requested = s.requested)
  | select (c : γ) (r : ρ) (row : ε) (before : s.calls c = .conflicted r) (mem : row ∈ s.rows)
      (key : σ.key row = σ.requestKey r) (same : SameRows s s')
      (moves : Moves c (.answered (σ.id row)) s s') (requested : s'.requested = s.requested)
  | fail (c : γ) (same : SameRows s s') (moves : Moves c .failed s s')
      (requested : s'.requested = s.requested)
  | abort (c : γ) (row : ε) (before : s.calls c = .inserting row) (rows : s'.rows = s.rows)
      (uncommitted : s'.uncommitted = s.uncommitted.filter fun e => σ.id e ≠ σ.id row)
      (moves : Moves c .failed s s') (requested : s'.requested = s.requested)
  /-- Columns that neither the key, nor the identifier, nor the request determines. -/
  | write (f : ε → ε) (key : ∀ e, σ.key (f e) = σ.key e) (id : ∀ e, σ.id (f e) = σ.id e)
      (made : ∀ r e, σ.Made r e → σ.Made r (f e)) (rows : s'.rows = s.rows.map f)
      (uncommitted : s'.uncommitted = s.uncommitted) (calls : s'.calls = s.calls)
      (requested : s'.requested = s.requested)

/-- What a call's place says of its request. -/
def Call.Known (σ : Spec ρ ε κ ι) (rows : List ε) (requested : ρ → Prop) : Call ρ ε ι → Prop
  | .idle => ∀ r, ¬ requested r
  | .arrived r => requested r
  | .conflicted r => requested r ∧ ∃ e ∈ rows, σ.key e = σ.requestKey r
  | .inserting row => ∃ r, requested r ∧ σ.Made r row
  | .answered id => ∃ r, requested r ∧ ∃ e ∈ rows, σ.id e = id ∧ σ.key e = σ.requestKey r
  | .failed => True

structure Inv (σ : Spec ρ ε κ ι) (s : State γ ρ ε ι) : Prop where
  keys : (s.all.map σ.key).Nodup
  ids : (s.all.map σ.id).Nodup
  drawn : ∀ e ∈ s.all, s.drawn (σ.id e)
  inserting : ∀ c row, s.calls c = .inserting row → row ∈ s.uncommitted
  apart : ∀ c c' row row', s.calls c = .inserting row → s.calls c' = .inserting row' →
    σ.id row = σ.id row' → c = c'
  made : ∀ e ∈ s.all, ∃ c r, s.requested c r ∧ σ.Made r e
  known : ∀ c, (s.calls c).Known σ s.rows (s.requested c)
  one : ∀ c r r', s.requested c r → s.requested c r' → r = r'

section

variable {σ : Spec ρ ε κ ι} {s s' : State γ ρ ε ι} {c c' : γ} {r r' : ρ} {e e' row : ε} {i i' : ι}

theorem Inv.init (hrows : s.rows = []) (hun : s.uncommitted = []) (hcalls : ∀ c, s.calls c = .idle)
    (hreq : ∀ c r, ¬ s.requested c r) : Inv σ s := by
  have hall : s.all = [] := by simp [State.all, hrows, hun]
  refine ⟨by simp [hall], by simp [hall], by simp [hall], fun c row h => ?_, fun c _ row _ h => ?_,
    by simp [hall],
    fun c => ?_, fun c r _ h => absurd h (hreq c r)⟩
  · rw [hcalls c] at h
    cases h
  · rw [hcalls c] at h
    cases h
  · rw [hcalls c]
    exact hreq c

/-! ### Moving a row from the uncommitted ones to the table -/

theorem nodup_commit [DecidableEq ι] {β : Type*} {key : ε → β} (hi : Inv σ s)
    (hn : (s.all.map key).Nodup) (hrow : row ∈ s.uncommitted) :
    ((s.rows ++ [row] ++ s.uncommitted.filter fun e => σ.id e ≠ σ.id row).map key).Nodup := by
  have hperm : (s.rows ++ [row] ++ s.uncommitted.filter fun e => σ.id e ≠ σ.id row).Perm s.all := by
    have hsplit : s.uncommitted.Perm (row :: s.uncommitted.filter fun e => σ.id e ≠ σ.id row) := by
      have hun : (s.uncommitted.map σ.id).Nodup := by
        have := hi.ids
        rw [State.all, List.map_append] at this
        exact this.of_append_right
      have hone : s.uncommitted.filter (fun e => !decide (σ.id e ≠ σ.id row)) = [row] := by
        have hnd : (s.uncommitted.filter fun e => !decide (σ.id e ≠ σ.id row)).Nodup :=
          (hun.of_map σ.id).filter _
        refine List.perm_singleton.mp ((List.perm_ext_iff_of_nodup hnd (List.nodup_singleton _)).mpr ?_)
        intro e
        simp only [List.mem_filter, List.mem_singleton, Bool.not_eq_true', decide_eq_false_iff_not,
          not_not]
        constructor
        · rintro ⟨he, hid⟩
          exact Table.eq_of_key hun he hrow hid
        · rintro rfl
          exact ⟨hrow, rfl⟩
      have hparts := List.filter_append_perm (fun e => decide (σ.id e ≠ σ.id row)) s.uncommitted
      rw [hone] at hparts
      exact hparts.symm.trans List.perm_append_comm
    rw [List.append_assoc]
    exact (hsplit.symm.append_left s.rows)
  exact ((hperm.map key).nodup_iff).mpr hn

theorem mem_commit [DecidableEq ι] (hrow : row ∈ s.uncommitted)
    (he : e ∈ s.rows ++ [row] ++ s.uncommitted.filter fun e => σ.id e ≠ σ.id row) : e ∈ s.all := by
  rcases List.mem_append.mp he with he | he
  · rcases List.mem_append.mp he with he | he
    · exact List.mem_append_left _ he
    · rw [List.mem_singleton.mp he]
      exact List.mem_append_right _ hrow
  · exact List.mem_append_right _ (List.mem_of_mem_filter he)

/-! ### One step -/

theorem Call.Known.mono {rows' : List ε} {requested requested' : ρ → Prop} {call : Call ρ ε ι}
    (h : call.Known σ s.rows requested) (hidle : call ≠ .idle)
    (hrows : ∀ e ∈ s.rows, ∃ e' ∈ rows', σ.id e' = σ.id e ∧ σ.key e' = σ.key e)
    (hreq : ∀ r, requested r → requested' r) : call.Known σ rows' requested' := by
  cases call with
  | idle => exact absurd rfl hidle
  | arrived r => exact hreq r h
  | conflicted r =>
      obtain ⟨hr, e, he, hkey⟩ := h
      obtain ⟨e', he', -, hkey'⟩ := hrows e he
      exact ⟨hreq r hr, e', he', hkey'.trans hkey⟩
  | inserting row =>
      obtain ⟨r, hr, hm⟩ := h
      exact ⟨r, hreq r hr, hm⟩
  | answered i =>
      obtain ⟨r, hr, e, he, hid, hkey⟩ := h
      obtain ⟨e', he', hid', hkey'⟩ := hrows e he
      exact ⟨r, hreq r hr, e', he', hid'.trans hid, hkey'.trans hkey⟩
  | failed => trivial

/-- The rows of `s'` are those of `s`, with more of them committed. -/
theorem Inv.of_rows [DecidableEq ι] (hi : Inv σ s) (hrow : row ∈ s.uncommitted)
    (hrows : s'.rows = s.rows ++ [row])
    (hun : s'.uncommitted = s.uncommitted.filter fun e => σ.id e ≠ σ.id row) :
    (s'.all.map σ.key).Nodup ∧ (s'.all.map σ.id).Nodup ∧ ∀ e ∈ s'.all, e ∈ s.all := by
  simp only [State.all, hrows, hun]
  exact ⟨nodup_commit hi hi.keys hrow, nodup_commit hi hi.ids hrow, fun e he => mem_commit hrow he⟩

/-- Rows of other calls survive when a call gives its row up. -/
theorem Inv.inserting_filter [DecidableEq ι] (hi : Inv σ s) (hc : s.calls c = .inserting row)
    (hun : s'.uncommitted = s.uncommitted.filter fun e => σ.id e ≠ σ.id row) {call : Call ρ ε ι}
    (hm : Moves c call s s') (hcall : ∀ e, call ≠ .inserting e) :
    (∀ c' e, s'.calls c' = .inserting e → e ∈ s'.uncommitted) ∧
      ∀ c' e, s'.calls c' = .inserting e → s.calls c' = .inserting e := by
  have hold : ∀ c' e, s'.calls c' = .inserting e → c' ≠ c ∧ s.calls c' = .inserting e := by
    intro c' e h
    by_cases hcc : c' = c
    · rw [hcc, hm.call] at h
      exact absurd h (hcall e)
    · exact ⟨hcc, by rw [← hm.others c' hcc]; exact h⟩
  refine ⟨fun c' e h => ?_, fun c' e h => (hold c' e h).2⟩
  obtain ⟨hcc, h⟩ := hold c' e h
  rw [hun]
  refine List.mem_filter.mpr ⟨hi.inserting c' e h, ?_⟩
  exact decide_eq_true fun hid => hcc (hi.apart c' c e row h hc hid)

/-- A step in which only call `c` moves, and no table changes. -/
theorem Inv.of_moves (hi : Inv σ s) (hd : ∀ i, s.drawn i → s'.drawn i) (same : SameRows s s')
    {call : Call ρ ε ι} (hm : Moves c call s s') (hreq : s'.requested = s.requested)
    (hne : ∀ row, call ≠ .inserting row)
    (hknown : call.Known σ s.rows (s.requested c)) : Inv σ s' := by
  have hall : s'.all = s.all := by simp only [State.all, same.rows, same.uncommitted]
  have hold : ∀ c' row, s'.calls c' = .inserting row → s.calls c' = .inserting row := by
    intro c' row h
    by_cases hcc : c' = c
    · rw [hcc, hm.call] at h
      exact absurd h (hne row)
    · rw [← hm.others c' hcc]
      exact h
  refine ⟨hall ▸ hi.keys, hall ▸ hi.ids, fun e he => hd _ (hi.drawn e (hall ▸ he)),
    fun c' row h => ?_, fun c₁ c₂ row₁ row₂ h₁ h₂ hid => ?_,
    by rw [hall, hreq]; exact hi.made, fun c' => ?_, by rw [hreq]; exact hi.one⟩
  · rw [same.uncommitted]
    exact hi.inserting c' row (hold c' row h)
  · exact hi.apart c₁ c₂ row₁ row₂ (hold _ _ h₁) (hold _ _ h₂) hid
  · rw [hreq, same.rows]
    by_cases hcc : c' = c
    · rw [hcc, hm.call]
      exact hknown
    · rw [hm.others c' hcc]
      exact hi.known c'

/-- Writing columns a value does not depend on leaves the values of all rows. -/
theorem all_map {β : Type*} {k : ε → β} {f : ε → ε} (hrows : s'.rows = s.rows.map f)
    (hun : s'.uncommitted = s.uncommitted) (hk : ∀ e, k (f e) = k e) :
    s'.all.map k = s.all.map k := by
  simp only [State.all, hrows, hun, List.map_append, List.map_map]
  congr 1
  exact List.map_congr_left fun e _ => hk e

theorem Inv.step [DecidableEq ι] (hi : Inv σ s) (hd : ∀ i, s.drawn i → s'.drawn i)
    (h : Step σ s s') : Inv σ s' := by
  cases h with
  | request c r call idle same moves next requested =>
      have hall : s'.all = s.all := by simp only [State.all, same.rows, same.uncommitted]
      have hnone : ∀ r, ¬ s.requested c r := by
        have := hi.known c
        rw [idle] at this
        exact this
      have hold : ∀ c' row, s'.calls c' = .inserting row → s.calls c' = .inserting row := by
        intro c' row h
        by_cases hcc : c' = c
        · rw [hcc, moves.call] at h
          rcases next with rfl | rfl <;> cases h
        · rw [← moves.others c' hcc]
          exact h
      refine ⟨hall ▸ hi.keys, hall ▸ hi.ids, fun e he => hd _ (hi.drawn e (hall ▸ he)),
        fun c' row h => ?_, fun c₁ c₂ row₁ row₂ h₁ h₂ hid => ?_,
        fun e he => ?_, fun c' => ?_, fun c' r₁ r₂ h₁ h₂ => ?_⟩
      · rw [same.uncommitted]
        exact hi.inserting c' row (hold c' row h)
      · exact hi.apart c₁ c₂ row₁ row₂ (hold _ _ h₁) (hold _ _ h₂) hid
      · obtain ⟨c', r', hr, hm⟩ := hi.made e (hall ▸ he)
        exact ⟨c', r', (requested c' r').mpr (.inl hr), hm⟩
      · rw [same.rows]
        by_cases hcc : c' = c
        · rw [hcc, moves.call]
          rcases next with rfl | rfl
          · exact (requested c r).mpr (.inr ⟨rfl, rfl⟩)
          · trivial
        · rw [moves.others c' hcc]
          have hreq : s'.requested c' = s.requested c' := by
            funext r'
            exact propext ((requested c' r').trans (or_iff_left fun h => hcc h.1))
          rw [hreq]
          exact hi.known c'
      · rcases (requested c' r₁).mp h₁ with h₁ | ⟨rfl, rfl⟩
        · rcases (requested c' r₂).mp h₂ with h₂ | ⟨rfl, rfl⟩
          · exact hi.one c' r₁ r₂ h₁ h₂
          · exact absurd h₁ (hnone r₁)
        · rcases (requested c' r₂).mp h₂ with h₂ | ⟨-, rfl⟩
          · exact absurd h₂ (hnone r₂)
          · rfl
  | insert c r row before made key fresh drawn rows uncommitted moves requested =>
      have hnew : ∀ e ∈ s.all, σ.id e ≠ σ.id row := fun e he heq => fresh (heq ▸ hi.drawn e he)
      have hmem : ∀ e, e ∈ s'.all ↔ e ∈ row :: s.all := by
        intro e
        simp only [State.all, rows, uncommitted, List.mem_append, List.mem_cons]
        tauto
      have hperm : s'.all.Perm (row :: s.all) := by
        simp only [State.all, rows, uncommitted]
        exact List.perm_middle
      have hreq : s.requested c r := by
        have := hi.known c
        rw [before] at this
        exact this
      have hother : ∀ c' row', c' ≠ c → s'.calls c' = .inserting row' → row' ∈ s.uncommitted := by
        intro c' row' hcc h
        exact hi.inserting c' row' (by rw [← moves.others c' hcc]; exact h)
      refine ⟨?_, ?_, fun e he => ?_, fun c' row' h => ?_, fun c₁ c₂ row₁ row₂ h₁ h₂ hid => ?_,
        fun e he => ?_, fun c' => ?_, by rw [requested]; exact hi.one⟩
      · rw [(hperm.map σ.key).nodup_iff, List.map_cons, List.nodup_cons]
        refine ⟨fun h => ?_, hi.keys⟩
        obtain ⟨e, he, heq⟩ := List.mem_map.mp h
        exact key e he heq
      · rw [(hperm.map σ.id).nodup_iff, List.map_cons, List.nodup_cons]
        refine ⟨fun h => ?_, hi.ids⟩
        obtain ⟨e, he, heq⟩ := List.mem_map.mp h
        exact hnew e he heq
      · rcases List.mem_cons.mp ((hmem e).mp he) with rfl | he
        · exact drawn
        · exact hd _ (hi.drawn e he)
      · rw [uncommitted]
        by_cases hcc : c' = c
        · rw [hcc, moves.call] at h
          cases h
          exact List.mem_cons_self
        · exact List.mem_cons_of_mem _ (hother c' row' hcc h)
      · by_cases hc₁ : c₁ = c
        · by_cases hc₂ : c₂ = c
          · rw [hc₁, hc₂]
          · rw [hc₁, moves.call] at h₁
            cases h₁
            exact absurd hid.symm (hnew row₂ (List.mem_append_right _ (hother c₂ row₂ hc₂ h₂)))
        · by_cases hc₂ : c₂ = c
          · rw [hc₂, moves.call] at h₂
            cases h₂
            exact absurd hid (hnew row₁ (List.mem_append_right _ (hother c₁ row₁ hc₁ h₁)))
          · rw [moves.others c₁ hc₁] at h₁
            rw [moves.others c₂ hc₂] at h₂
            exact hi.apart c₁ c₂ row₁ row₂ h₁ h₂ hid
      · rw [requested]
        rcases List.mem_cons.mp ((hmem e).mp he) with rfl | he
        · exact ⟨c, r, hreq, made⟩
        · exact hi.made e he
      · rw [requested, rows]
        by_cases hcc : c' = c
        · rw [hcc, moves.call]
          exact ⟨r, hreq, made⟩
        · rw [moves.others c' hcc]
          exact hi.known c'
  | conflict c r row before mem key same moves requested =>
      have hknown := hi.known c
      rw [before] at hknown
      exact hi.of_moves hd same moves requested nofun ⟨hknown, row, mem, key⟩
  | select c r row before mem key same moves requested =>
      have hknown := hi.known c
      rw [before] at hknown
      exact hi.of_moves hd same moves requested nofun ⟨r, hknown.1, row, mem, rfl, key⟩
  | fail c same moves requested => exact hi.of_moves hd same moves requested nofun trivial
  | commit c row before rows uncommitted moves requested =>
      have hrow := hi.inserting c row before
      obtain ⟨hkeys, hids, hsub⟩ := hi.of_rows hrow rows uncommitted
      obtain ⟨hins, hold⟩ := hi.inserting_filter before uncommitted moves nofun
      refine ⟨hkeys, hids, fun e he => hd _ (hi.drawn e (hsub e he)), hins,
        fun c₁ c₂ row₁ row₂ h₁ h₂ hid => ?_, fun e he => ?_, fun c' => ?_,
        by rw [requested]; exact hi.one⟩
      · exact hi.apart c₁ c₂ row₁ row₂ (hold _ _ h₁) (hold _ _ h₂) hid
      · rw [requested]
        exact hi.made e (hsub e he)
      · rw [requested, rows]
        by_cases hcc : c' = c
        · rw [hcc, moves.call]
          obtain ⟨r, hr, hm⟩ : ∃ r, s.requested c r ∧ σ.Made r row := by
            have := hi.known c
            rw [before] at this
            exact this
          exact ⟨r, hr, row, List.mem_append_right _ (List.mem_singleton_self _), rfl, σ.key_of_made hm⟩
        · rw [moves.others c' hcc]
          by_cases hidle : s.calls c' = .idle
          · have := hi.known c'
            rw [hidle] at this ⊢
            exact this
          · exact (hi.known c').mono hidle (fun e he => ⟨e, List.mem_append_left _ he, rfl, rfl⟩)
              fun _ h => h
  | abort c row before rows uncommitted moves requested =>
      obtain ⟨hins, hold⟩ := hi.inserting_filter before uncommitted moves nofun
      have hsub : s'.all.Sublist s.all := by
        simp only [State.all, rows, uncommitted]
        exact (List.Sublist.refl _).append List.filter_sublist
      refine ⟨(hsub.map σ.key).nodup hi.keys, (hsub.map σ.id).nodup hi.ids,
        fun e he => hd _ (hi.drawn e (hsub.subset he)), hins,
        fun c₁ c₂ row₁ row₂ h₁ h₂ hid => ?_, fun e he => ?_, fun c' => ?_,
        by rw [requested]; exact hi.one⟩
      · exact hi.apart c₁ c₂ row₁ row₂ (hold _ _ h₁) (hold _ _ h₂) hid
      · rw [requested]
        exact hi.made e (hsub.subset he)
      · rw [requested, rows]
        by_cases hcc : c' = c
        · rw [hcc, moves.call]
          trivial
        · rw [moves.others c' hcc]
          exact hi.known c'
  | write f key id made rows uncommitted calls requested =>
      refine ⟨all_map rows uncommitted key ▸ hi.keys, all_map rows uncommitted id ▸ hi.ids,
        fun e he => ?_, by rw [calls, uncommitted]; exact hi.inserting, by rw [calls]; exact hi.apart,
        fun e he => ?_, fun c' => ?_, by rw [requested]; exact hi.one⟩
      · have hid := List.mem_map_of_mem (f := σ.id) he
        rw [all_map rows uncommitted id] at hid
        obtain ⟨e₀, he₀, heq⟩ := List.mem_map.mp hid
        rw [← heq]
        exact hd _ (hi.drawn e₀ he₀)
      · rw [requested]
        rw [State.all, rows, uncommitted] at he
        rcases List.mem_append.mp he with he | he
        · obtain ⟨e, hmem, rfl⟩ := List.mem_map.mp he
          obtain ⟨c, r, hr, hm⟩ := hi.made e (List.mem_append_left _ hmem)
          exact ⟨c, r, hr, made r e hm⟩
        · exact hi.made e (List.mem_append_right _ he)
      · rw [calls, requested, rows]
        by_cases hidle : s.calls c' = .idle
        · have := hi.known c'
          rw [hidle] at this ⊢
          exact this
        · exact (hi.known c').mono hidle
            (fun e he => ⟨f e, List.mem_map_of_mem he, id e, key e⟩) fun _ h => h

/-! ### Answers -/

/-- The rows of `s` are in `s'` as well, under their keys and identifiers. -/
def Kept (σ : Spec ρ ε κ ι) (s s' : State γ ρ ε ι) : Prop :=
  ∀ e ∈ s.rows, ∃ e' ∈ s'.rows, σ.id e' = σ.id e ∧ σ.key e' = σ.key e

/-- An answer is, from then on, the identifier of the one row with the request's key. -/
theorem Inv.row_of_answer (hi : Inv σ s) (hi' : Inv σ s') (hk : Kept σ s s') (hr : s.requested c r)
    (ha : s.calls c = .answered i) :
    ∃ e ∈ s'.rows, σ.id e = i ∧ σ.key e = σ.requestKey r ∧
      ∀ e' ∈ s'.rows, σ.key e' = σ.requestKey r → e' = e := by
  have hknown := hi.known c
  rw [ha] at hknown
  obtain ⟨r', hr', e₀, he₀, hid₀, hkey₀⟩ := hknown
  obtain rfl := hi.one c r r' hr hr'
  obtain ⟨e, he, hid, hkey⟩ := hk e₀ he₀
  refine ⟨e, he, hid.trans hid₀, hkey.trans hkey₀, fun e' he' hkey' => ?_⟩
  exact Table.eq_of_key hi'.keys (List.mem_append_left _ he') (List.mem_append_left _ he)
    (hkey'.trans (hkey.trans hkey₀).symm)

/-- A call that met a conflict finds the row it met. -/
theorem Inv.row_of_conflict (hi : Inv σ s) (hc : s.calls c = .conflicted r) :
    ∃ e ∈ s.rows, σ.key e = σ.requestKey r := by
  have hknown := hi.known c
  rw [hc] at hknown
  exact hknown.2

/-- Two calls have one answer, now or later, exactly when their requests have one key. -/
theorem Inv.answer_iff (hi : Inv σ s) (hi' : Inv σ s') (hk : Kept σ s s') (hr : s.requested c r)
    (ha : s.calls c = .answered i) (hr' : s'.requested c' r') (ha' : s'.calls c' = .answered i') :
    i = i' ↔ σ.requestKey r = σ.requestKey r' := by
  obtain ⟨e, he, hid, hkey, -⟩ := hi.row_of_answer hi' hk hr ha
  obtain ⟨e', he', hid', hkey', -⟩ := hi'.row_of_answer hi' (fun e he => ⟨e, he, rfl, rfl⟩) hr' ha'
  rw [← hid, ← hid', ← hkey, ← hkey']
  constructor
  · intro h
    rw [Table.eq_of_key hi'.ids (List.mem_append_left _ he) (List.mem_append_left _ he') h]
  · intro h
    rw [Table.eq_of_key hi'.keys (List.mem_append_left _ he) (List.mem_append_left _ he') h]

end

end Lib.Upsert
