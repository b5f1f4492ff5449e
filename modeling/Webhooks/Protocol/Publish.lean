import Webhooks.Protocol.Keys

/-!
# Protocol — Publish

What the publish calls do to the events, in every run.

* `PublishMove`, **`step_publish`**: a step inserts an event row, commits one, drops one, answers a
  call, or leaves the publish path alone.
* `PublishInv`, **`publishInv_of_reachable`**: event identifiers and sequence values are distinct,
  also those of rows not committed yet, and a call answers with the identifier of a committed row.
* `eventsAfter`: an event whose `INSERT` runs after some state has a later sequence value than
  every event of that state.
-/

namespace Webhooks

open Lib

/-- The call has an answer. -/
def PublishCall.answer : PublishCall → Option Uuid
  | .answering id _ | .acked id _ => some id
  | _ => none

/-- The row a call has inserted and not committed. -/
def PublishCall.row : PublishCall → Option Event
  | .inserting row => some row
  | _ => none

/-- All event rows, committed or not. -/
def Sys.allEvents (s : Sys) : List Event := s.store.events ++ s.uncommitted

/-- The rows `l` with the event's row, if it is among them, expanded. -/
def expandEvents : Option Event → List Event → List Event
  | none, l => l
  | some e, l => Table.update (fun e' => e'.id = e.id) (fun e' => { e' with status := .expanded }) l

/-- What a step does on the publish path.  Every call but `c` stays where it is. -/
inductive PublishMove (s : Sys) (l : Label) (s' : Sys) : Prop
  | quiet (src : Option Event) (events : s'.store.events = expandEvents src s.store.events)
      (uncommitted : s'.uncommitted = s.uncommitted) (calls : s'.calls = s.calls)
      (eventsSeq : s'.store.eventsSeq = s.store.eventsSeq)
      (commit : ∀ e, src = some e → ∃ w rows, l = .step w ∧ s.pcs w = .committing (.event e) rows)
  | call (c : CallId) (hl : l.worker = none) (events : s'.store.events = s.store.events)
      (uncommitted : s'.uncommitted = s.uncommitted) (others : ∀ c', c' ≠ c → s'.calls c' = s.calls c')
      (row : (s'.calls c).row = none)
      (answer : ∀ id, (s'.calls c).answer = some id → (s.calls c).answer = some id ∨
        ∃ e ∈ s.store.events, e.id = id)
      (eventsSeq : s.store.eventsSeq ≤ s'.store.eventsSeq)
  | insert (c : CallId) (row : Event) (hl : l.worker = none)
      (events : s'.store.events = s.store.events)
      (uncommitted : s'.uncommitted = row :: s.uncommitted)
      (others : ∀ c', c' ≠ c → s'.calls c' = s.calls c') (call : s'.calls c = .inserting row)
      (id : row.id = s.store.uuids) (seq : row.seq = s.store.eventsSeq)
      (status : row.status = .pendingExpansion) (uuids : s'.store.uuids = s.store.uuids + 1)
      (eventsSeq : s'.store.eventsSeq = s.store.eventsSeq + 1)
  | commit (c : CallId) (row : Event) (hl : l.worker = none) (before : s.calls c = .inserting row)
      (events : s'.store.events = s.store.events ++ [row])
      (uncommitted : s'.uncommitted = s.uncommitted.filter fun e => e.id ≠ row.id)
      (others : ∀ c', c' ≠ c → s'.calls c' = s.calls c')
      (call : s'.calls c = .answering row.id row.status)
      (eventsSeq : s'.store.eventsSeq = s.store.eventsSeq)
  | abort (c : CallId) (row : Event) (hl : l.worker = none) (before : s.calls c = .inserting row)
      (events : s'.store.events = s.store.events)
      (uncommitted : s'.uncommitted = s.uncommitted.filter fun e => e.id ≠ row.id)
      (others : ∀ c', c' ≠ c → s'.calls c' = s.calls c') (call : s'.calls c = .failed)
      (eventsSeq : s'.store.eventsSeq = s.store.eventsSeq)

section

variable {cfg : Config} {s s' s₁ : Sys} {l : Label} {w : WorkerId} {tenants : List Tenant}

theorem Sys.setCall_calls_self (c : CallId) (call : PublishCall) : (s.setCall c call).calls c = call :=
  if_pos rfl

theorem Sys.setCall_calls_of_ne {c c' : CallId} (h : c' ≠ c) (call : PublishCall) :
    (s.setCall c call).calls c' = s.calls c' := if_neg h

/-- A worker's step leaves the calls alone. -/
theorem step_calls (hl : l.worker = some w) (h : step cfg s l = some s') :
    s'.calls = s.calls ∧ s'.uncommitted = s.uncommitted := by
  cases l with
  | step w =>
      simp only [step, workerStep] at h
      repeat' split at h
      all_goals
        cases h
        try exact ⟨rfl, rfl⟩
  | start | query | send | complete =>
      simp only [step] at h
      repeat' split at h
      all_goals
        cases h
        try exact ⟨rfl, rfl⟩
  | die => cases h; exact ⟨rfl, rfl⟩
  | _ => cases hl

theorem publishStep_publish {c : CallId} (h : publishStep s c = some s') :
    PublishMove s (.publish c) s' := by
  simp only [publishStep] at h
  split at h
  case h_1 | h_2 | h_3 | h_4 => cases h
  case h_5 r hc =>
      split at h
      · cases h
      · split at h <;> cases h
        · refine .call c rfl rfl rfl (fun _ h => Sys.setCall_calls_of_ne h _) ?_ ?_ (Nat.le_succ _) <;>
            rw [Sys.setCall_calls_self]
          · rfl
          · nofun
        · exact .insert c _ rfl rfl rfl (fun _ h => Sys.setCall_calls_of_ne h _)
            (Sys.setCall_calls_self ..) rfl rfl rfl rfl rfl
  case h_6 row hc =>
      cases h
      exact .commit c row rfl hc rfl rfl (fun _ h => Sys.setCall_calls_of_ne h _)
        (Sys.setCall_calls_self ..) rfl
  case h_7 r hc =>
      split at h <;> cases h
      case h_1 =>
          refine .call c rfl rfl rfl (fun _ h => Sys.setCall_calls_of_ne h _) ?_ ?_ le_rfl <;>
            rw [Sys.setCall_calls_self]
          · rfl
          · nofun
      case h_2 e he =>
          refine .call c rfl rfl rfl (fun _ h => Sys.setCall_calls_of_ne h _) ?_ ?_ le_rfl <;>
            rw [Sys.setCall_calls_self]
          · rfl
          · rintro id ⟨⟩
            exact .inr ⟨e, List.mem_of_find?_eq_some he, rfl⟩
  case h_8 id status hc =>
      cases h
      refine .call c rfl rfl rfl (fun _ h => Sys.setCall_calls_of_ne h _) ?_ ?_ le_rfl <;>
        rw [Sys.setCall_calls_self]
      · rfl
      · rintro id ⟨⟩
        exact .inl (by rw [hc]; rfl)

/-- Every step is a move of the publish path. -/
theorem step_publish (h : step cfg s l = some s') : PublishMove s l s' := by
  have hquiet : s'.store.events = s.store.events → s'.uncommitted = s.uncommitted →
      s'.calls = s.calls → s'.store.eventsSeq = s.store.eventsSeq → PublishMove s l s' :=
    fun hev hun hcalls hseq => .quiet none hev hun hcalls hseq (by simp)
  cases l with
  | tick | register | pause | resume | rotate => cases h; exact hquiet rfl rfl rfl rfl
  | requestReplay | replay | abortReplay =>
      simp only [step, replayStep] at h
      repeat' split at h
      all_goals
        cases h
        try exact hquiet rfl rfl rfl rfl
  | request c r =>
      simp only [step] at h
      split at h <;> cases h
      refine .call c rfl rfl rfl (fun _ h => Sys.setCall_calls_of_ne h _) ?_ ?_ le_rfl <;>
        rw [Sys.setCall_calls_self] <;> split <;> first | rfl | (intro _ h; cases h)
  | publish c => exact publishStep_publish h
  | abort c =>
      simp only [step] at h
      split at h <;> cases h
      · next row hc =>
          exact .abort c row rfl hc rfl rfl (fun _ h => Sys.setCall_calls_of_ne h _)
            (Sys.setCall_calls_self ..) rfl
      · refine .call c rfl rfl rfl (fun _ h => Sys.setCall_calls_of_ne h _) ?_ ?_ le_rfl <;>
          rw [Sys.setCall_calls_self]
        · rfl
        · intro _ h; cases h
  | start w | query w | step w | send w | complete w | die w =>
      obtain ⟨hcalls, hun⟩ := step_calls rfl h
      cases step_move h with
      | tick _ hl => cases hl
      | api hl => cases hl
      | worker w' _ _ h =>
          rcases h.events with hev | ⟨src, rows, hl, hpc, hev⟩
          · exact hquiet hev hun hcalls h.eventsSeq_eq
          · cases src with
            | event e =>
                exact .quiet (some e) hev hun hcalls h.eventsSeq_eq fun _ he =>
                  ⟨w', rows, hl, by cases he; exact hpc⟩
            | replay r => exact hquiet hev hun hcalls h.eventsSeq_eq

/-! ### The invariant -/

structure PublishInv (s : Sys) : Prop where
  ids : (s.allEvents.map (·.id)).Nodup
  seqs : (s.allEvents.map (·.seq)).Nodup
  lt : ∀ e ∈ s.allEvents, e.id < s.store.uuids ∧ e.seq < s.store.eventsSeq
  pending : ∀ e ∈ s.uncommitted, e.status = .pendingExpansion
  inserting : ∀ c row, s.calls c = .inserting row → row ∈ s.uncommitted
  apart : ∀ c c' row row', s.calls c = .inserting row → s.calls c' = .inserting row' →
    row.id = row'.id → c = c'
  known : ∀ c id, (s.calls c).answer = some id → ∃ e ∈ s.store.events, e.id = id

variable {src : Option Event} {es : List Event} {e e' : Event} {c : CallId}

theorem expandEvents_map {β : Type*} {key : Event → β} (src : Option Event)
    (hkey : ∀ e status, key { e with status := status } = key e) :
    (expandEvents src es).map key = es.map key := by
  cases src with
  | none => rfl
  | some e => exact Table.map_update fun e' => hkey e' _

/-- A row of the expanded table is a row of the table, but for its status. -/
theorem mem_expandEvents (h : e' ∈ expandEvents src es) :
    ∃ e ∈ es, e'.id = e.id ∧ e'.seq = e.seq ∧ e'.tenantId = e.tenantId ∧ e'.type = e.type := by
  cases src with
  | none => exact ⟨e', h, rfl, rfl, rfl, rfl⟩
  | some e₀ =>
      obtain ⟨e, he, rfl⟩ := Table.mem_update.mp h
      refine ⟨e, he, ?_⟩
      split <;> exact ⟨rfl, rfl, rfl, rfl⟩

theorem PublishInv.init (tenants : List Tenant) : PublishInv (.init tenants) where
  ids := .nil
  seqs := .nil
  lt := nofun
  pending := nofun
  inserting := nofun
  apart := nofun
  known _ _ h := by cases h

theorem PublishInv.eventIds (hi : PublishInv s) : (s.store.events.map (·.id)).Nodup := by
  have := hi.ids
  rw [Sys.allEvents, List.map_append] at this
  exact this.of_append_left

/-- Rows under a distinct key stay so without the row of a call, and with it put elsewhere. -/
theorem PublishInv.nodup_commit {key : Event → Nat} (hn : (s.allEvents.map key).Nodup)
    (hk : ∀ e ∈ s.uncommitted, key e = key e' → e = e') (he' : e' ∈ s.uncommitted) :
    ((s.store.events ++ [e'] ++ s.uncommitted.filter fun e => e.id ≠ e'.id).map key).Nodup := by
  have hsub : (s.store.events ++ s.uncommitted.filter fun e => e.id ≠ e'.id).Sublist s.allEvents :=
    (List.Sublist.refl _).append List.filter_sublist
  have hperm : (s.store.events ++ [e'] ++ s.uncommitted.filter fun e => e.id ≠ e'.id).Perm
      (e' :: (s.store.events ++ s.uncommitted.filter fun e => e.id ≠ e'.id)) := by
    rw [List.append_assoc]
    exact List.perm_middle
  rw [(hperm.map key).nodup_iff, List.map_cons, List.nodup_cons]
  refine ⟨fun hmem => ?_, (hsub.map key).nodup hn⟩
  obtain ⟨e, he, heq⟩ := List.mem_map.mp hmem
  simp only [Sys.allEvents, List.map_append] at hn
  rcases List.mem_append.mp he with he | he
  · exact List.disjoint_of_nodup_append hn (List.mem_map_of_mem he)
      (heq ▸ List.mem_map_of_mem he')
  · obtain ⟨he, hne⟩ := List.mem_filter.mp he
    rw [hk e he heq] at hne
    simp at hne

theorem PublishInv.step (hi : PublishInv s) (h : step cfg s l = some s') : PublishInv s' := by
  have hu := step_uuids_le h
  cases step_publish h with
  | quiet src events uncommitted calls eventsSeq =>
      have hmap : ∀ {β : Type} {key : Event → β},
          (∀ e status, key { e with status := status } = key e) →
          s'.allEvents.map key = s.allEvents.map key := by
        intro β key hkey
        simp only [Sys.allEvents, events, uncommitted, List.map_append, expandEvents_map src hkey]
      refine ⟨?_, ?_, fun e he => ?_, uncommitted ▸ hi.pending, ?_, ?_, fun c id hc => ?_⟩
      · rw [hmap fun _ _ => rfl]; exact hi.ids
      · rw [hmap fun _ _ => rfl]; exact hi.seqs
      · have hid := List.mem_map_of_mem (f := fun e : Event => (e.id, e.seq)) he
        rw [hmap fun _ _ => rfl] at hid
        obtain ⟨e₀, he₀, heq⟩ := List.mem_map.mp hid
        simp only [Prod.mk.injEq] at heq
        rw [← heq.1, ← heq.2, eventsSeq]
        exact ⟨(hi.lt e₀ he₀).1.trans_le hu, (hi.lt e₀ he₀).2⟩
      · rw [calls, uncommitted]; exact hi.inserting
      · rw [calls]; exact hi.apart
      · rw [calls] at hc
        obtain ⟨e, he, hid⟩ := hi.known c id hc
        have hid' := List.mem_map_of_mem (f := fun e : Event => e.id) he
        rw [← expandEvents_map src fun _ _ => rfl, ← events] at hid'
        obtain ⟨e', he', heq⟩ := List.mem_map.mp hid'
        exact ⟨e', he', heq.trans hid⟩
  | call c _ events uncommitted others row answer eventsSeq =>
      have hall : s'.allEvents = s.allEvents := by simp only [Sys.allEvents, events, uncommitted]
      have hins : ∀ c' row', s'.calls c' = .inserting row' → s.calls c' = .inserting row' := by
        intro c' row' hc'
        by_cases hcc : c' = c
        · rw [hcc] at hc'
          rw [hc'] at row
          cases row
        · rw [← others c' hcc]
          exact hc'
      refine ⟨hall ▸ hi.ids, hall ▸ hi.seqs, fun e he => ?_, uncommitted ▸ hi.pending,
        fun c' row' hc' => ?_, fun c₁ c₂ row₁ row₂ h₁ h₂ => hi.apart c₁ c₂ row₁ row₂ (hins _ _ h₁) (hins _ _ h₂),
        fun c' id hc' => ?_⟩
      · have := hi.lt e (hall ▸ he)
        exact ⟨this.1.trans_le hu, this.2.trans_le eventsSeq⟩
      · rw [uncommitted]; exact hi.inserting c' row' (hins c' row' hc')
      · rw [events]
        by_cases hcc : c' = c
        · rw [hcc] at hc'
          rcases answer id hc' with hans | hans
          · exact hi.known c id hans
          · exact hans
        · exact hi.known c' id (by rw [← others c' hcc]; exact hc')
  | insert c row _ events uncommitted others call id seq status uuids eventsSeq =>
      have hperm : s'.allEvents.Perm (row :: s.allEvents) := by
        simp only [Sys.allEvents, events, uncommitted]
        exact List.perm_middle
      have hnew : ∀ e ∈ s.allEvents, e.id ≠ row.id ∧ e.seq ≠ row.seq := by
        intro e he
        rw [id, seq]
        exact ⟨(hi.lt e he).1.ne, (hi.lt e he).2.ne⟩
      have hmem : ∀ c' row', c' ≠ c → s'.calls c' = .inserting row' → row' ∈ s.uncommitted := by
        intro c' row' hcc hc'
        exact hi.inserting c' row' (by rw [← others c' hcc]; exact hc')
      refine ⟨?_, ?_, fun e he => ?_, fun e he => ?_, fun c' row' hc' => ?_,
        fun c₁ c₂ row₁ row₂ h₁ h₂ heq => ?_, fun c' id' hc' => ?_⟩
      · rw [(hperm.map _).nodup_iff, List.map_cons, List.nodup_cons]
        refine ⟨fun hm => ?_, hi.ids⟩
        obtain ⟨e, he, heq⟩ := List.mem_map.mp hm
        exact (hnew e he).1 heq
      · rw [(hperm.map _).nodup_iff, List.map_cons, List.nodup_cons]
        refine ⟨fun hm => ?_, hi.seqs⟩
        obtain ⟨e, he, heq⟩ := List.mem_map.mp hm
        exact (hnew e he).2 heq
      · rw [uuids, eventsSeq]
        rcases List.mem_cons.mp (hperm.mem_iff.mp he) with rfl | he
        · rw [id, seq]
          exact ⟨Nat.lt_succ_self _, Nat.lt_succ_self _⟩
        · exact ⟨(hi.lt e he).1.trans (Nat.lt_succ_self _), (hi.lt e he).2.trans (Nat.lt_succ_self _)⟩
      · rw [uncommitted] at he
        rcases List.mem_cons.mp he with rfl | he
        · exact status
        · exact hi.pending e he
      · rw [uncommitted]
        by_cases hcc : c' = c
        · rw [hcc, call] at hc'
          cases hc'
          exact List.mem_cons_self
        · exact List.mem_cons_of_mem _ (hmem c' row' hcc hc')
      · -- the new row's identifier is nobody else's
        have hother : ∀ c' row', c' ≠ c → s'.calls c' = .inserting row' → row'.id ≠ row.id :=
          fun c' row' hcc hc' => (hnew row' (List.mem_append_right _ (hmem c' row' hcc hc'))).1
        by_cases hc₁ : c₁ = c <;> by_cases hc₂ : c₂ = c
        · rw [hc₁, hc₂]
        · rw [hc₁, call] at h₁
          cases h₁
          exact absurd heq.symm (hother c₂ row₂ hc₂ h₂)
        · rw [hc₂, call] at h₂
          cases h₂
          exact absurd heq (hother c₁ row₁ hc₁ h₁)
        · rw [others c₁ hc₁] at h₁
          rw [others c₂ hc₂] at h₂
          exact hi.apart c₁ c₂ row₁ row₂ h₁ h₂ heq
      · rw [events]
        by_cases hcc : c' = c
        · rw [hcc, call] at hc'
          cases hc'
        · exact hi.known c' id' (by rw [← others c' hcc]; exact hc')
  | commit c row _ before events uncommitted others call eventsSeq =>
      have hrow := hi.inserting c row before
      have hall : s'.allEvents = s.store.events ++ [row] ++ s.uncommitted.filter fun e => e.id ≠ row.id := by
        simp only [Sys.allEvents, events, uncommitted]
      have hun : ∀ {key : Event → Nat}, (s.allEvents.map key).Nodup →
          ∀ e ∈ s.uncommitted, key e = key row → e = row := fun hn e he heq =>
        Table.eq_of_key hn (List.mem_append_right _ he) (List.mem_append_right _ hrow) heq
      have hmem : ∀ e ∈ s'.allEvents, e ∈ s.allEvents := by
        intro e he
        rw [hall] at he
        rcases List.mem_append.mp he with he | he
        · rcases List.mem_append.mp he with he | he
          · exact List.mem_append_left _ he
          · rw [List.mem_singleton.mp he]
            exact List.mem_append_right _ hrow
        · exact List.mem_append_right _ (List.mem_of_mem_filter he)
      have hins : ∀ c' row', s'.calls c' = .inserting row' → c' ≠ c ∧ s.calls c' = .inserting row' := by
        intro c' row' hc'
        have hcc : c' ≠ c := by
          rintro rfl
          rw [call] at hc'
          cases hc'
        exact ⟨hcc, by rw [← others c' hcc]; exact hc'⟩
      refine ⟨?_, ?_, fun e he => ?_, fun e he => ?_, fun c' row' hc' => ?_,
        fun c₁ c₂ row₁ row₂ h₁ h₂ => hi.apart c₁ c₂ row₁ row₂ (hins _ _ h₁).2 (hins _ _ h₂).2,
        fun c' id' hc' => ?_⟩
      · rw [hall]; exact PublishInv.nodup_commit hi.ids (hun hi.ids) hrow
      · rw [hall]; exact PublishInv.nodup_commit hi.seqs (hun hi.seqs) hrow
      · rw [eventsSeq]
        exact ⟨(hi.lt e (hmem e he)).1.trans_le hu, (hi.lt e (hmem e he)).2⟩
      · rw [uncommitted] at he
        exact hi.pending e (List.mem_of_mem_filter he)
      · obtain ⟨hcc, hc⟩ := hins c' row' hc'
        rw [uncommitted]
        refine List.mem_filter.mpr ⟨hi.inserting c' row' hc, ?_⟩
        simpa using fun heq => hcc (hi.apart c' c row' row hc before heq)
      · rw [events]
        by_cases hcc : c' = c
        · rw [hcc, call] at hc'
          cases hc'
          exact ⟨row, List.mem_append_right _ (List.mem_singleton_self _), rfl⟩
        · obtain ⟨e, he, hid⟩ := hi.known c' id' (by rw [← others c' hcc]; exact hc')
          exact ⟨e, List.mem_append_left _ he, hid⟩
  | abort c row _ before events uncommitted others call eventsSeq =>
      have hsub : s'.allEvents.Sublist s.allEvents := by
        simp only [Sys.allEvents, events, uncommitted]
        exact (List.Sublist.refl _).append List.filter_sublist
      have hins : ∀ c' row', s'.calls c' = .inserting row' → c' ≠ c ∧ s.calls c' = .inserting row' := by
        intro c' row' hc'
        have hcc : c' ≠ c := by
          rintro rfl
          rw [call] at hc'
          cases hc'
        exact ⟨hcc, by rw [← others c' hcc]; exact hc'⟩
      refine ⟨(hsub.map _).nodup hi.ids, (hsub.map _).nodup hi.seqs, fun e he => ?_, fun e he => ?_,
        fun c' row' hc' => ?_,
        fun c₁ c₂ row₁ row₂ h₁ h₂ => hi.apart c₁ c₂ row₁ row₂ (hins _ _ h₁).2 (hins _ _ h₂).2,
        fun c' id' hc' => ?_⟩
      · rw [eventsSeq]
        exact ⟨(hi.lt e (hsub.mem he)).1.trans_le hu, (hi.lt e (hsub.mem he)).2⟩
      · rw [uncommitted] at he
        exact hi.pending e (List.mem_of_mem_filter he)
      · obtain ⟨hcc, hc⟩ := hins c' row' hc'
        rw [uncommitted]
        refine List.mem_filter.mpr ⟨hi.inserting c' row' hc, ?_⟩
        simpa using fun heq => hcc (hi.apart c' c row' row hc before heq)
      · rw [events]
        by_cases hcc : c' = c
        · rw [hcc, call] at hc'
          cases hc'
        · exact hi.known c' id' (by rw [← others c' hcc]; exact hc')

/-- The publish path is in order in every reachable state. -/
theorem publishInv_of_reachable (h : Reachable (step cfg) (.init tenants) s) : PublishInv s :=
  h.inv (.init tenants) fun _ _ _ _ hi hs => hi.step hs

/-! ### Events inserted later -/

/-- `l'` has the rows of `l` with their keys, and rows with sequence values from `seq` on. -/
def SinceSeq (seq : Nat) (l l' : List Event) : Prop :=
  ∀ e' ∈ l', (∃ e ∈ l, e.id = e'.id ∧ e.seq = e'.seq) ∨ seq ≤ e'.seq

theorem SinceSeq.of_subset {seq : Nat} {l l' : List Event} (h : l' ⊆ l) : SinceSeq seq l l' :=
  fun e he => .inl ⟨e, h he, rfl, rfl⟩

theorem SinceSeq.trans {m n : Nat} {l₁ l₂ l₃ : List Event} (h : SinceSeq m l₁ l₂)
    (h' : SinceSeq n l₂ l₃) (hle : m ≤ n) : SinceSeq m l₁ l₃ := by
  intro e₃ he₃
  rcases h' e₃ he₃ with ⟨e₂, he₂, hid, hseq⟩ | hn
  · rcases h e₂ he₂ with ⟨e₁, he₁, hid', hseq'⟩ | hm
    · exact .inl ⟨e₁, he₁, hid'.trans hid, hseq'.trans hseq⟩
    · exact .inr (hseq ▸ hm)
  · exact .inr (hle.trans hn)

/-- A step adds an event row under the next sequence value only. -/
theorem PublishInv.step_since (hi : PublishInv s) (h : Webhooks.step cfg s l = some s') :
    s.store.eventsSeq ≤ s'.store.eventsSeq ∧
      SinceSeq s.store.eventsSeq s.allEvents s'.allEvents := by
  have hevents : s'.store.events = s.store.events → s'.uncommitted ⊆ s.uncommitted →
      SinceSeq s.store.eventsSeq s.allEvents s'.allEvents := by
    intro hev hun
    refine .of_subset fun e he => ?_
    rw [Sys.allEvents, hev] at he
    exact (List.mem_append.mp he).elim (List.mem_append_left _) fun he =>
      List.mem_append_right _ (hun he)
  cases step_publish h with
  | quiet src events uncommitted _ eventsSeq =>
      refine ⟨eventsSeq.ge, fun e' he' => .inl ?_⟩
      rw [Sys.allEvents, events, uncommitted] at he'
      rcases List.mem_append.mp he' with he' | he'
      · obtain ⟨e, he, hid, hseq, -⟩ := mem_expandEvents he'
        exact ⟨e, List.mem_append_left _ he, hid.symm, hseq.symm⟩
      · exact ⟨e', List.mem_append_right _ he', rfl, rfl⟩
  | call _ _ events uncommitted _ _ _ eventsSeq =>
      exact ⟨eventsSeq, hevents events (uncommitted ▸ List.Subset.refl _)⟩
  | insert _ row _ events uncommitted _ _ _ seq _ _ eventsSeq =>
      refine ⟨eventsSeq ▸ Nat.le_succ _, fun e he => ?_⟩
      rw [Sys.allEvents, events, uncommitted] at he
      rcases List.mem_append.mp he with he | he
      · exact .inl ⟨e, List.mem_append_left _ he, rfl, rfl⟩
      · rcases List.mem_cons.mp he with rfl | he
        · exact .inr seq.ge
        · exact .inl ⟨e, List.mem_append_right _ he, rfl, rfl⟩
  | commit _ row _ before events uncommitted _ _ eventsSeq =>
      -- the row comes from the uncommitted ones
      refine ⟨eventsSeq.ge, .of_subset fun e he => ?_⟩
      rw [Sys.allEvents, events, uncommitted] at he
      rcases List.mem_append.mp he with he | he
      · rcases List.mem_append.mp he with he | he
        · exact List.mem_append_left _ he
        · rw [List.mem_singleton.mp he]
          exact List.mem_append_right _ (hi.inserting _ row before)
      · exact List.mem_append_right _ (List.mem_of_mem_filter he)
  | abort _ row _ _ events uncommitted _ _ eventsSeq =>
      exact ⟨eventsSeq.ge, hevents events (uncommitted ▸ List.filter_subset_self _)⟩

/-- Every event row is one of an earlier state, or has a sequence value that was not drawn
then. -/
theorem eventsAfter (hr : Reachable (Webhooks.step cfg) (.init tenants) s)
    (h : Reachable (Webhooks.step cfg) s s') :
    s.store.eventsSeq ≤ s'.store.eventsSeq ∧
      SinceSeq s.store.eventsSeq s.allEvents s'.allEvents := by
  have hi := h.inv (I := fun s' => PublishInv s' ∧ s.store.eventsSeq ≤ s'.store.eventsSeq ∧
    SinceSeq s.store.eventsSeq s.allEvents s'.allEvents)
    ⟨publishInv_of_reachable hr, le_rfl, .of_subset (List.Subset.refl _)⟩ ?_
  · exact hi.2
  · rintro s₁ a s₂ - ⟨hi, hle, hsince⟩ hs
    obtain ⟨hle', hsince'⟩ := hi.step_since hs
    exact ⟨hi.step hs, hle.trans hle', hsince.trans hsince' hle⟩

end

end Webhooks
