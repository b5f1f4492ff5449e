import Webhooks.Lib.Ranking
import Webhooks.Protocol.Replays
import Webhooks.Properties.ExactlyOnce

/-!
# Properties — Replay

Replay requests, replay expansions by any number of workers, and everything else interleave
statement by statement, and anybody may die between two of its statements.

* `IsReplayOf`: the rows a replay of a range is to insert; `insertDeliveries_isReplayOf`.
* `KeepsRanges`: the steps for which the range a worker has read is as good as the one that is
  stored, and what is resolved in it stays so until the `COMMIT`.
* **`replayed_exactly_once`**: one replay for each endpoint and key, expanded once, and in a run of
  such steps into the rows of its range.
* `range_cut`: Node replays a delivery from before the range, and loses one from its end.
* `resolved_too_late`: a delivery that resolves between the `INSERT` and its `COMMIT` is not
  replayed.
-/

namespace Webhooks

open Lib

/-- One pending row without attempts for each resolved delivery of the replay's endpoint inside the
range, in the order of `originals`, which is that of `seq`. -/
structure IsReplayOf (st : Store) (r : Replay) (range : Time × Time) (originals rows : List Delivery) :
    Prop where
  covered : ∀ d, d ∈ originals ↔ d ∈ st.deliveries ∧ d.endpointId = r.endpointId ∧
    (range.1 ≤ d.createdAt ∧ d.createdAt ≤ range.2) ∧ (d.state = .succeeded ∨ d.state = .failed)
  inOrder : originals.Pairwise fun d d' => d.seq < d'.seq
  fresh : List.Forall₂ (fun d row => row.eventId = d.eventId ∧ row.endpointId = r.endpointId ∧
    row.state = .pending ∧ row.attemptCount = 0) originals rows
  rowsInOrder : rows.Pairwise fun d d' => d.seq < d'.seq
  behind : ∀ row ∈ rows, ∀ d ∈ originals, d.seq < row.seq

/-- The replay covers the same deliveries of both stores, in its range as it is stored. -/
def Replay.CoversAlike (r : Replay) (st st' : Store) : Prop :=
  ∀ d ∈ st.deliveries, ∀ d' ∈ st'.deliveries, d'.id = d.id →
    r.covers r.range d' = r.covers r.range d

instance (r : Replay) (st st' : Store) : Decidable (r.CoversAlike st st') :=
  inferInstanceAs (Decidable (∀ d ∈ st.deliveries, ∀ d' ∈ st'.deliveries, _ → _))

/-- The next statement of worker `w`. -/
def Label.isStepOf (w : WorkerId) : Label → Bool
  | .step w' => w' = w
  | _ => false

/-- When worker `w` is at its `INSERT … SELECT`, the range it has read covers what the stored range
covers; from then on to its `COMMIT` nothing in the stored range is resolved or put back in flight. -/
def KeepsRange (cfg : Config) (s : Sys) (l : Label) (w : WorkerId) : Prop :=
  ∀ r ∈ (s.pcs w).replay,
    if (s.pcs w).expansion.isSome then ∀ s' ∈ step cfg s l, r.CoversAlike s.store s'.store
    else l.isStepOf w = true →
      ∀ d ∈ s.store.deliveries, r.covers (cfg.readRange w r) d = r.covers r.range d

instance (cfg : Config) (s : Sys) (l : Label) (w : WorkerId) : Decidable (KeepsRange cfg s l w) := by
  unfold KeepsRange
  infer_instance

def KeepsRanges (cfg : Config) (s : Sys) (l : Label) : Prop := ∀ w, KeepsRange cfg s l w

noncomputable instance (cfg : Config) : DecidableRel (KeepsRanges cfg) := fun _ _ =>
  Classical.propDecidable _

/-- The step expands no replay, and adds no delivery unless it commits an event's expansion. -/
structure ReplaysNothing (s : Sys) (l : Label) (s' : Sys) : Prop where
  replays : ∀ row' ∈ s'.store.replays, row'.status = .expanded →
    ∃ row ∈ s.store.replays, row.id = row'.id ∧ row.status = .expanded
  deliveries : s'.store.deliveries.map (·.id) = s.store.deliveries.map (·.id) ∨
    ∃ w e rows, l = .step w ∧ s.pcs w = .committing (.event e) rows

/-- The step commits `rows` together with the new status of a pending replay, and nothing else. -/
structure Replays (s s' : Sys) (r : Replay) (rows : List Delivery) : Prop where
  pending : r ∈ s.store.replays ∧ r.status = .pendingExpansion
  deliveries : s'.store.deliveries = s.store.deliveries ++ rows
  replays : s'.store.replays =
    s.store.replays.map fun r' => if r'.id = r.id then { r' with status := .expanded } else r'

/-- The replays are one row under two statuses. -/
def Replay.SameBody (r r' : Replay) : Prop :=
  (r'.id = r.id ∧ r'.endpointId = r.endpointId ∧ r'.idempotencyKey = r.idempotencyKey) ∧
    (r'.rangeStart = r.rangeStart ∧ r'.rangeEnd = r.rangeEnd) ∧
    (r.status = .expanded → r'.status = .expanded)

section

variable {cfg : Config} {s s' : Sys} {l : Label} {ls ls' : List Label} {tenants : List Tenant}
  {st st' : Store} {r r' : Replay} {range : Time × Time} {id : Uuid}

/-! ### The rows of a replay -/

theorem covers_iff {d : Delivery} : r.covers range d = true ↔ d.endpointId = r.endpointId ∧
    (range.1 ≤ d.createdAt ∧ d.createdAt ≤ range.2) ∧ (d.state = .succeeded ∨ d.state = .failed) := by
  have hterminal : d.state.isTerminal = true ↔ d.state = .succeeded ∨ d.state = .failed := by
    cases d.state <;> decide
  simp only [Replay.covers, Bool.and_eq_true, decide_eq_true_eq, hterminal, and_assoc]

/-- The deliveries a replay of the range is about, in the order of `seq`. -/
def Replay.originals (r : Replay) (range : Time × Time) (st : Store) : List Delivery :=
  (st.deliveries.filter (r.covers range)).insertionSort fun a b => a.seq ≤ b.seq

/-- What a replay takes from an original. -/
def Delivery.place (d : Delivery) : Uuid × Nat := (d.eventId, d.seq)

theorem mem_originals {d : Delivery} : d ∈ r.originals range st ↔ d ∈ st.deliveries ∧
    d.endpointId = r.endpointId ∧ (range.1 ≤ d.createdAt ∧ d.createdAt ≤ range.2) ∧
    (d.state = .succeeded ∨ d.state = .failed) := by
  rw [Replay.originals, List.mem_insertionSort, List.mem_filter, covers_iff]

theorem originals_inOrder (hk : TablesKeyed st) (r : Replay) (range : Time × Time) :
    (r.originals range st).Pairwise fun d d' => d.seq < d'.seq := by
  -- no two deliveries have one sequence value
  have huntied : Ranking.Untied (fun a b : Delivery => a.seq ≤ b.seq)
      (st.deliveries.filter (r.covers range)) := by
    have hseqs : (st.deliveries.filter (r.covers range)).Pairwise fun a b => a.seq ≠ b.seq :=
      List.pairwise_map.mp ((List.filter_sublist.map _).nodup hk.deliverySeqs)
    exact hseqs.imp fun hne h => hne (le_antisymm h.1 h.2)
  exact (Ranking.pairwise_before huntied).imp fun h => not_le.mp h

theorem originals_places (r : Replay) (range : Time × Time) (st : Store) :
    (r.originals range st).map Delivery.place =
      ((st.deliveries.filter (r.covers range)).map Delivery.place).insertionSort
        fun a b => a.2 ≤ b.2 :=
  List.map_insertionSort _ _ _ _ fun _ _ _ _ => Iff.rfl

theorem newDeliveries_rows (began : Time) (pairs : List (Uuid × Uuid)) (id : Uuid) (seq : Nat) :
    List.Forall₂ (fun p row => row.eventId = p.1 ∧ row.endpointId = p.2 ∧ row.state = .pending ∧
      row.attemptCount = 0) pairs (newDeliveries began pairs id seq) := by
  induction pairs generalizing id seq with
  | nil => exact .nil
  | cons p pairs ih => exact .cons ⟨rfl, rfl, rfl, rfl⟩ (ih _ _)

theorem insertDeliveries_behind (hk : TablesKeyed st) {began : Time} {src : Expandable}
    {row d : Delivery} (hrow : row ∈ (insertDeliveries st began src).1) (hd : d ∈ st.deliveries) :
    d.seq < row.seq :=
  (hk.deliveryLt d hd).2.trans_le (newDeliveries_range hrow).2.1

theorem insertDeliveries_isReplayOf (hk : TablesKeyed st) (began : Time) (r : Replay)
    (range : Time × Time) : IsReplayOf st r range (r.originals range st)
      (insertDeliveries st began (.replay r range)).1 where
  covered _ := mem_originals
  inOrder := originals_inOrder hk r range
  fresh := by
    have hrows := newDeliveries_rows began (Expandable.fanOut st (.replay r range)) st.uuids
      st.deliveriesSeq
    simp only [Expandable.fanOut] at hrows
    exact List.forall₂_map_left_iff.mp hrows
  rowsInOrder := by
    have hseqs : ((insertDeliveries st began (.replay r range)).1.map (·.seq)).Pairwise (· < ·) :=
      newDeliveries_seqs ▸ List.pairwise_lt_range'
    exact List.pairwise_map.mp hseqs
  behind row hrow d hd := insertDeliveries_behind hk hrow (mem_originals.mp hd).1

/-- The rows are also those of a later store and another range, where the covered deliveries have the
same events and the same order. -/
theorem IsReplayOf.transfer {range' : Time × Time} {rows : List Delivery}
    (h : IsReplayOf st r range (r.originals range st) rows) (hk : TablesKeyed st')
    (heq : (st'.deliveries.filter (r.covers range')).map Delivery.place =
      (st.deliveries.filter (r.covers range)).map Delivery.place) :
    IsReplayOf st' r range' (r.originals range' st') rows := by
  have hplaces : (r.originals range' st').map Delivery.place =
      (r.originals range st).map Delivery.place := by
    rw [originals_places, originals_places, heq]
  refine ⟨fun _ => mem_originals, originals_inOrder hk r range', ?_, h.rowsInOrder,
    fun row hrow d hd => ?_⟩
  · -- a row is fresh for an original's event
    have hfresh : ∀ st range, List.Forall₂ (fun (p : Uuid × Nat) (row : Delivery) =>
        row.eventId = p.1 ∧ row.endpointId = r.endpointId ∧ row.state = .pending ∧
          row.attemptCount = 0) ((r.originals range st).map Delivery.place) rows ↔ _ :=
      fun st range => List.forall₂_map_left_iff
    exact (hfresh st' range').mp (hplaces ▸ (hfresh st range).mpr h.fresh)
  · have hmem : d.place ∈ (r.originals range st).map Delivery.place :=
      hplaces ▸ List.mem_map_of_mem hd
    obtain ⟨d₀, hd₀, hplace⟩ := List.mem_map.mp hmem
    exact (congrArg Prod.snd hplace).symm.trans_lt (h.behind row hrow d₀ hd₀)

/-! ### Replays -/

theorem step_replaySameBody (h : step cfg s l = some s') (hr : r ∈ s.store.replays) :
    ∃ r' ∈ s'.store.replays, r.SameBody r' := by
  rcases step_replays h with ⟨new, hrows, -⟩ | ⟨w, r₀, range, rows, -, -, hrows⟩ <;> rw [hrows]
  · exact ⟨r, List.mem_append_left _ hr, ⟨rfl, rfl, rfl⟩, ⟨rfl, rfl⟩, fun h => h⟩
  · refine ⟨_, Table.mem_update_of_mem hr, ?_⟩
    split
    · exact ⟨⟨rfl, rfl, rfl⟩, ⟨rfl, rfl⟩, fun _ => rfl⟩
    · exact ⟨⟨rfl, rfl, rfl⟩, ⟨rfl, rfl⟩, fun h => h⟩

theorem replaySameBody_of_reachable (h : Reachable (step cfg) s s') (hr : r ∈ s.store.replays) :
    ∃ r' ∈ s'.store.replays, r.SameBody r' := by
  refine h.inv (I := fun s' => ∃ r' ∈ s'.store.replays, r.SameBody r')
    ⟨r, hr, ⟨rfl, rfl, rfl⟩, ⟨rfl, rfl⟩, fun h => h⟩ fun s₁ l s₂ _ hi hs => ?_
  obtain ⟨r₁, hr₁, ⟨hid, hep, hkey⟩, ⟨hstart, hend⟩, hst⟩ := hi
  obtain ⟨r₂, hr₂, ⟨hid', hep', hkey'⟩, ⟨hstart', hend'⟩, hst'⟩ := step_replaySameBody hs hr₁
  exact ⟨r₂, hr₂, ⟨hid'.trans hid, hep'.trans hep, hkey'.trans hkey⟩,
    ⟨hstart'.trans hstart, hend'.trans hend⟩, fun h => hst' (hst h)⟩

/-! ### One step -/

/-- A step commits a replay's expansion, or expands no replay. -/
theorem step_replays_cases (hi : ReplayInv s) (h : step cfg s l = some s') :
    ReplaysNothing s l s' ∨ ∃ w r range rows, l = .step w ∧
      s.pcs w = .committing (.replay r range) rows ∧ Replays s s' r rows := by
  by_cases hc : ∃ w r range rows, l = .step w ∧ s.pcs w = .committing (.replay r range) rows
  · obtain ⟨w, r, range, rows, rfl, hpc⟩ := hc
    have hst := (commit_step hpc h).1
    refine .inr ⟨w, r, range, rows, rfl, hpc, hi.source w r (by rw [hpc]; rfl), ?_, ?_⟩ <;> rw [hst]
    · rfl
    · simp only [commitExpansion, markExpanded, Table.update, decide_eq_true_eq]
  · refine .inl ⟨?_, ?_⟩
    · intro row' hrow' hst
      rcases step_replays h with ⟨new, hrows, hnew⟩ | ⟨w, r, range, rows, hl, hpc, -⟩
      · rw [hrows] at hrow'
        rcases List.mem_append.mp hrow' with hrow' | hrow'
        · exact ⟨row', hrow', rfl, hst⟩
        · -- a call commits its row pending
          obtain ⟨c, hcall⟩ := hnew row' hrow'
          rw [hi.pending c row' hcall] at hst
          cases hst
      · exact absurd ⟨w, r, range, rows, hl, hpc⟩ hc
    · cases step_move h with
      | tick _ _ _ store => exact .inl (by rw [store])
      | api _ _ _ h => exact .inl (by rw [h.deliveries])
      | worker w _ _ h =>
          obtain ⟨g, new, heq, hg, hnew⟩ := h.deliveries
          rcases hnew with rfl | ⟨src, hl, hpc⟩
          · refine .inl ?_
            rw [heq, List.append_nil, List.map_map]
            exact List.map_congr_left fun d hd => (hg d hd).id_eq
          · cases src with
            | event e => exact .inr ⟨w, e, new, hl, hpc⟩
            | replay r range => exact absurd ⟨w, r, range, new, hl, hpc⟩ hc

/-- Where every replay is pending and one is expanded next, the step is its `COMMIT`. -/
theorem replays_of_expanded (h : Reachable (step cfg) (.init tenants) s)
    (hs : step cfg s l = some s') (hpend : ∀ row ∈ s.store.replays, row.status = .pendingExpansion)
    {row' : Replay} (hrow' : row' ∈ s'.store.replays) (hst : row'.status = .expanded) :
    ∃ r rows, Replays s s' r rows := by
  rcases step_replays_cases (replayInv_of_reachable h) hs with hnone | ⟨-, r, -, rows, -, -, hexp⟩
  · obtain ⟨row, hrow, -, hst'⟩ := hnone.replays row' hrow' hst
    rw [hpend row hrow] at hst'
    cases hst'
  · exact ⟨r, rows, hexp⟩

/-! ### Every run -/

theorem ReplayCall.view_of_answer {call : ReplayCall} (h : call.answer = some id) :
    call.view = .answered id := by
  cases call <;> cases h <;> rfl

/-- A call that met a conflict is answered by its next statement. -/
theorem replay_answers (h : run (step cfg) (.init tenants) ls = some s) {c : CallId}
    {r : ReplayRequest} (hc : s.replayCalls c = .conflicted r) :
    ∃ s' id, step cfg s (.replay c) = some s' ∧ (s'.replayCalls c).answer = some id := by
  obtain ⟨row, hrow, hkey⟩ := (replayRequests_of_run h).row_of_conflict (congrArg ReplayCall.view hc)
  have hconf : r.conflicts row = true := ReplayRequest.conflicts_iff.mpr hkey
  simp only [step, replayStep, hc]
  cases hf : s.store.replays.find? r.conflicts with
  | none => exact absurd hconf (by simpa using List.find?_eq_none.mp hf row hrow)
  | some row' =>
      refine ⟨_, row'.id, rfl, ?_⟩
      rw [Sys.setReplayCall_calls_self]
      rfl

/-- The rows of an open transaction are what its `INSERT … SELECT` found when it ran. -/
theorem expansion_of_reachable (h : Reachable (step cfg) (.init tenants) s) (w : WorkerId)
    (src : Expandable) (rows : List Delivery) (hw : (s.pcs w).expansion = some (src, rows)) :
    ∃ s₀ began, Reachable (step cfg) (.init tenants) s₀ ∧ Reachable (step cfg) s₀ s ∧
      s₀.pcs w = .inserting began src ∧ rows = (insertDeliveries s₀.store began src).1 := by
  have htrue : restrict (fun _ _ => True) (step cfg) = step cfg := restrict_of_forall fun _ _ => trivial
  rw [← htrue] at h ⊢
  exact inserted_of_reachable h w src rows hw

/-- The range of an open transaction's replay is what its worker read. -/
def Pc.replayRange : Pc → Option (Replay × Time × Time)
  | .inserting _ (.replay r range) | .marking (.replay r range) _ | .committing (.replay r range) _ =>
      some (r, range)
  | _ => none

theorem WorkerMove.replayRange {now : Time} {w : WorkerId} {pc pc' : Pc}
    (h : WorkerMove cfg now st w pc l st' pc') (hpc' : pc'.replayRange = some (r, range)) :
    pc.replayRange = some (r, range) ∨ range = cfg.readRange w r := by
  cases h with
  | outside _ _ _ hout _ hrange =>
      cases pc' with
      | inserting began src =>
          cases src with
          | event => cases hpc'
          | replay =>
              cases hpc'
              exact .inr (hrange _ _ _ rfl)
      | marking | committing => cases hout
      | _ => cases hpc'
  | @insertRows _ src | @setExpanded src =>
      cases src with
      | event => cases hpc'
      | replay => exact .inl hpc'
  | _ => cases hpc'

theorem readRange_of_reachable (h : Reachable (step cfg) (.init tenants) s) :
    ∀ w r range, (s.pcs w).replayRange = some (r, range) → range = cfg.readRange w r := by
  refine h.inv (I := fun s => ∀ w r range, (s.pcs w).replayRange = some (r, range) →
    range = cfg.readRange w r) (fun _ _ _ h => by cases h) fun s₁ l s₂ _ hi hs w r range hw => ?_
  cases step_move hs with
  | tick _ _ _ _ pcs | api _ _ pcs => exact hi w r range (pcs ▸ hw)
  | worker w' _ pcs h =>
      by_cases hww : w = w'
      · subst hww
        exact (h.replayRange hw).elim (hi w r range) id
      · exact hi w r range (pcs w hww ▸ hw)

/-! ### From the `INSERT` to the `COMMIT` -/

/-- A step that keeps what the replay covers keeps the covered deliveries in their places. -/
theorem Replay.CoversAlike.places (hk : KeyInv s) (h : step cfg s l = some s')
    (hcov : r.CoversAlike s.store s'.store) :
    (s'.store.deliveries.filter (r.covers r.range)).map Delivery.place =
      (s.store.deliveries.filter (r.covers r.range)).map Delivery.place := by
  cases step_move h with
  | tick _ _ _ store => rw [store]
  | api _ _ _ h => rw [h.deliveries]
  | worker w _ _ h =>
      obtain ⟨g, new, heq, hg, hnew⟩ := h.deliveries
      -- what a commit adds is pending
      have hnone : new.filter (r.covers r.range) = [] := by
        refine List.filter_eq_nil_iff.mpr fun d hd hc => ?_
        rcases hnew with rfl | ⟨src, -, hpc⟩
        · cases hd
        · have hpending := ((hk.rows w).pending d (by rw [hpc]; exact hd)).1
          have := (covers_iff.mp hc).2.2
          rw [hpending] at this
          rcases this with h | h <;> cases h
      rw [heq, List.filter_append, hnone, List.append_nil, List.filter_map, List.map_map]
      have hsame : s.store.deliveries.filter (r.covers r.range ∘ g) =
          s.store.deliveries.filter (r.covers r.range) :=
        List.filter_congr fun d hd =>
          hcov d hd (g d) (heq ▸ List.mem_append_left _ (List.mem_map_of_mem hd)) (hg d hd).id_eq
      rw [hsame]
      exact List.map_congr_left fun d hd =>
        have hd := List.mem_of_mem_filter hd
        Prod.ext (hg d hd).eventId_eq (hg d hd).seq_eq

/-- The statement that leaves a worker inside its transaction with rows inserts them. -/
theorem WorkerMove.inserted {now : Time} {w : WorkerId} {pc' : Pc} {began : Time} {src : Expandable}
    (h : WorkerMove cfg now st w (.inserting began src) l st' pc') (hpc' : pc'.expansion ≠ none) :
    l = .step w ∧ st'.deliveries = st.deliveries := by
  cases h with
  | outside _ _ _ hout =>
      cases pc' with
      | marking | committing => cases hout
      | _ => exact absurd rfl hpc'
  | insertRows => exact ⟨rfl, rfl⟩
  | _ => exact absurd rfl hpc'

/-- In runs that keep the ranges, the rows of a replay's open transaction are, up to its `COMMIT`, those
of the range as it is stored. -/
theorem isReplayOf_of_keepsRanges
    (h : Reachable (restrict (KeepsRanges cfg) (step cfg)) (.init tenants) s) :
    ∀ w r range rows, (s.pcs w).expansion = some (.replay r range, rows) →
      IsReplayOf s.store r r.range (r.originals r.range s.store) rows := by
  refine h.inv (I := fun s => ∀ w r range rows, (s.pcs w).expansion = some (.replay r range, rows) →
    IsReplayOf s.store r r.range (r.originals r.range s.store) rows) nofun
    fun s₁ l s₂ hr hi hs w r range rows hw => ?_
  have hk₁ := keyInv_of_reachable hr.of_restrict
  have hk₂ := keyInv_of_reachable (hr.tail hs).of_restrict
  obtain ⟨hkeeps, hs⟩ := restrict_eq_some.mp hs
  have hkeep := hkeeps w
  unfold KeepsRange at hkeep
  have hold (hw : (s₁.pcs w).expansion = some (.replay r range, rows)) :
      IsReplayOf s₂.store r r.range (r.originals r.range s₂.store) rows := by
    have hcov : r.CoversAlike s₁.store s₂.store := by
      cases hpc : s₁.pcs w with
      | marking | committing =>
          rw [hpc] at hw hkeep
          cases hw
          exact hkeep r rfl s₂ hs
      | _ => rw [hpc] at hw; cases hw
    exact (hi w r range rows hw).transfer hk₂.tables (hcov.places hk₁ hs)
  cases step_move hs with
  | tick _ _ _ _ pcs | api _ _ pcs => exact hold (by rw [← pcs]; exact hw)
  | worker w' _ pcs h =>
      by_cases hww : w = w'
      · subst hww
        rcases h.expansion_cases hw with hw | ⟨began, hpc, rfl⟩
        · exact hold hw
        · -- the range the worker has read covers what the stored one does
          obtain rfl := readRange_of_reachable hr.of_restrict w r range (by rw [hpc]; rfl)
          rw [hpc] at h hkeep
          obtain ⟨rfl, hsame⟩ := h.inserted (by rw [hw]; nofun)
          refine (insertDeliveries_isReplayOf hk₁.tables began r _).transfer hk₂.tables ?_
          rw [hsame, List.filter_congr fun d hd => (hkeep r rfl (decide_eq_true rfl) d hd).symm]
      · exact hold (by rw [← pcs w hww]; exact hw)

/-- For every run, and every state `s'` it comes to after `s`.

* A request answered in `s` and one answered in `s'` have one answer exactly when they are for one
  endpoint and have one key.
* The answer is, from then on, the identifier of the one replay with the request's endpoint and key.
* A replay is as one of the requests with its key made it, and stays so; an expanded one stays
  expanded.
* A call whose `INSERT` met a conflict finds the replay it met.
* A step either expands no replay, or is the `COMMIT` of one pending replay together with its rows.
  These are the replay of what was resolved, when the transaction's `INSERT … SELECT` ran, in the
  range its worker had read; and if `s` is reached by steps that keep the ranges, of what is resolved
  at the `COMMIT` in the range that is stored.
* The death of a worker changes no table. -/
theorem replayed_exactly_once (h : run (step cfg) (.init tenants) ls = some s)
    (h' : run (step cfg) s ls' = some s') :
    (∀ c r id c' r' id', Label.requestReplay c r ∈ ls → (s.replayCalls c).answer = some id →
      Label.requestReplay c' r' ∈ ls ++ ls' → (s'.replayCalls c').answer = some id' →
      (id = id' ↔ r.endpointId = r'.endpointId ∧ r.idempotencyKey = r'.idempotencyKey)) ∧
    (∀ c r id, Label.requestReplay c r ∈ ls → (s.replayCalls c).answer = some id →
      ∃ row ∈ s'.store.replays, row.id = id ∧ r.conflicts row = true ∧
        ∀ row' ∈ s'.store.replays, r.conflicts row' = true → row' = row) ∧
    (∀ row ∈ s.store.replays,
      (∃ c r, Label.requestReplay c r ∈ ls ∧ r.conflicts row = true ∧
        row.rangeStart = r.rangeStart ∧ row.rangeEnd = r.rangeEnd) ∧
      ∃ row' ∈ s'.store.replays, row.SameBody row') ∧
    (∀ c r, s.replayCalls c = .conflicted r →
      ∃ s₁ id, step cfg s (.replay c) = some s₁ ∧ (s₁.replayCalls c).answer = some id) ∧
    (∀ l s₁, step cfg s l = some s₁ → ReplaysNothing s l s₁ ∨
      ∃ w r rows, l = .step w ∧ Replays s s₁ r rows ∧
        (∃ s₀ began originals, Reachable (step cfg) (.init tenants) s₀ ∧ Reachable (step cfg) s₀ s ∧
          s₀.pcs w = .inserting began (.replay r (cfg.readRange w r)) ∧
          IsReplayOf s₀.store r (cfg.readRange w r) originals rows ∧
          ∀ row ∈ rows, ∀ d ∈ s₀.store.deliveries, d.seq < row.seq) ∧
        (Reachable (restrict (KeepsRanges cfg) (step cfg)) (.init tenants) s →
          ∃ originals, IsReplayOf s.store r r.range originals rows)) ∧
    (∀ w s₁, step cfg s (.die w) = some s₁ → s₁.store = s.store) := by
  have hreach : Reachable (step cfg) (.init tenants) s := .of_run h
  have hi := replayRequests_of_run h
  have hi' : Upsert.Inv replaySpec (replayView (ls ++ ls') s') := by
    have hruns : run (step cfg) (.init tenants) (ls ++ ls') = some s' := by
      rw [run_append, h]
      exact h'
    exact replayRequests_of_run hruns
  have hkept : Upsert.Kept replaySpec (replayView ls s) (replayView (ls ++ ls') s') := by
    intro row hrow
    obtain ⟨row', hrow', ⟨hid, hep, hkey⟩, -⟩ := replaySameBody_of_reachable (.of_run h') hrow
    exact ⟨row', hrow', hid, congrArg₂ Prod.mk hep hkey⟩
  refine ⟨?_, ?_, fun row hrow => ⟨?_, ?_⟩, fun c r hc => replay_answers h hc, fun l s₁ hs => ?_,
    fun w s₁ hs => by cases hs; rfl⟩
  · intro c r id c' r' id' hr ha hr' ha'
    exact (hi.answer_iff hi' hkept hr (ReplayCall.view_of_answer ha) hr'
      (ReplayCall.view_of_answer ha')).trans Prod.mk_inj
  · intro c r id hr ha
    obtain ⟨row, hrow, hid, hkey, hone⟩ :=
      hi.row_of_answer hi' hkept hr (ReplayCall.view_of_answer ha)
    exact ⟨row, hrow, hid, ReplayRequest.conflicts_iff.mpr hkey, fun row' hrow' hconf =>
      hone row' hrow' (ReplayRequest.conflicts_iff.mp hconf)⟩
  · obtain ⟨c, r, hr, hm⟩ := hi.made row (List.mem_append_left _ hrow)
    exact ⟨c, r, hr, ReplayRequest.conflicts_iff.mpr (replaySpec.key_of_made hm), hm.2⟩
  · exact replaySameBody_of_reachable (.of_run h') hrow
  · rcases step_replays_cases (replayInv_of_reachable hreach) hs with
      hnone | ⟨w, r, range, rows, hl, hpc, hexp⟩
    · exact .inl hnone
    · obtain ⟨s₀, began, hr₀, hr₁, hpc₀, rfl⟩ :=
        expansion_of_reachable hreach w (.replay r range) rows (by rw [hpc]; rfl)
      obtain rfl := readRange_of_reachable hreach w r range (by rw [hpc]; rfl)
      have hk := (keyInv_of_reachable hr₀).tables
      exact .inr ⟨w, r, _, hl, hexp, ⟨s₀, began, _, hr₀, hr₁, hpc₀,
        insertDeliveries_isReplayOf hk began r _, fun _ hrow _ => insertDeliveries_behind hk hrow⟩,
        fun hkeeps => ⟨_, isReplayOf_of_keepsRanges hkeeps w r _ _ (by rw [hpc]; rfl)⟩⟩

/-- A run of these workers that keeps their ranges, the others being idle, keeps all ranges. -/
theorem keepsRanges_of_among {ws : List WorkerId} (hidle : ∀ w, w ∉ ws → s.pcs w = .idle)
    (h : Reachable (restrict (fun s l => TimelyAmong cfg ws s l ∧ ∀ w ∈ ws, KeepsRange cfg s l w)
      (step cfg)) s s') : Reachable (restrict (KeepsRanges cfg) (step cfg)) s s' := by
  refine h.weaken fun s₁ l s₂ hr hl _ w => ?_
  by_cases hw : w ∈ ws
  · exact hl.2 w hw
  · have hpc : s₁.pcs w = .idle :=
      (pcs_of_timelyAmong (fun _ _ h => h.1) hr hw).trans (hidle w hw)
    unfold KeepsRange
    rw [hpc]
    nofun

end

/-! ### A replay of one delivery -/

open Sample

/-- The endpoint's delivery has been sent by worker 1, and a replay of its window is accepted. -/
def replayWhileSent : List Label :=
  register :: publish 0 "k" ++ expand ++ claim 1 none 7 ++
    [.send 1, .requestReplay 0 ⟨100, 0, "r", 0, 9⟩, .replay 0, .replay 0, .replay 0]

/-- Worker 1 writes its response back. -/
def answered : Label := .complete 1 (response 200) ⟨0, 1, Nat.one_pos⟩ none

/-- The delivery resolves before the replay is expanded, and the key is repeated with another
window. -/
theorem replayed_exactly_once_sample : ∃ s s' s₁,
    run (step config) start (replayWhileSent ++
      [answered, .start 0 .replay, .step 0, .step 0, .step 0]) = some s ∧
    run (step config) s [.requestReplay 1 ⟨100, 0, "r", 5, 6⟩, .replay 1, .replay 1, .replay 1] =
      some s' ∧
    (s.replayCalls 0).answer = some 5 ∧ (s'.replayCalls 1).answer = some 5 ∧
    step config s (.step 0) = some s₁ ∧ ∃ r originals rows, Replays s s₁ r rows ∧
      IsReplayOf s.store r r.range originals rows ∧ rows.length = 1 := by
  obtain ⟨s, s', hs, hs', hp⟩ := exists_of_runs (restrict (fun s l =>
      TimelyAmong config [0, 1] s l ∧ ∀ w ∈ ([0, 1] : List WorkerId), KeepsRange config s l w)
      (step config)) start
    (replayWhileSent ++ [answered, .start 0 .replay, .step 0, .step 0, .step 0])
    [.requestReplay 1 ⟨100, 0, "r", 5, 6⟩, .replay 1, .replay 1, .replay 1]
    (fun s s' => (s.replayCalls 0).answer = some 5 && (s'.replayCalls 1).answer.isSome &&
      (s.store.replays.all fun row => row.status = .pendingExpansion) &&
      ((step config s (.step 0)).any fun s₁ => s₁.store.deliveries.length =
        s.store.deliveries.length + 1 && s₁.store.replays.any fun row => row.status = .expanded))
    (by decide +kernel)
  simp only [Bool.and_eq_true, decide_eq_true_eq, List.all_eq_true, List.any_eq_true,
    Option.any_eq_true] at hp
  obtain ⟨⟨⟨h₀, h₁⟩, hpend⟩, s₁, hs₁, hlen, row', hrow', hst⟩ := hp
  obtain ⟨id, h₁⟩ := Option.isSome_iff_exists.mp h₁
  have hkeeps : Reachable (restrict (KeepsRanges config) (step config)) start s :=
    keepsRanges_of_among (fun _ _ => rfl) (.of_run hs)
  have hs := run_of_restrict hs
  have hs' := run_of_restrict hs'
  have hall := replayed_exactly_once hs hs'
  have hsame := hall.1 0 ⟨100, 0, "r", 0, 9⟩ 5 1 ⟨100, 0, "r", 5, 6⟩ id
    (by simp [replayWhileSent, publish, register, expand, claim]) h₀ (by simp) h₁
  obtain rfl : 5 = id := hsame.mpr ⟨rfl, rfl⟩
  refine ⟨s, s', s₁, hs, hs', h₀, h₁, hs₁, ?_⟩
  rcases hall.2.2.2.2.1 _ s₁ hs₁ with hnone | ⟨-, r, rows, -, hexp, -, hrows⟩
  · obtain ⟨row, hrow, -, hst'⟩ := hnone.replays row' hrow' hst
    rw [hpend row hrow] at hst'
    cases hst'
  · obtain ⟨originals, hrows⟩ := hrows hkeeps
    refine ⟨r, originals, rows, hexp, hrows, ?_⟩
    rw [hexp.deliveries, List.length_append] at hlen
    exact Nat.add_left_cancel hlen

/-- The store's clock counts microseconds, and the workers run Node. -/
def micros : Config := { config with ticksPerMs := 1000, leaseDurationMs := 10000 }

/-- The endpoint's delivery, created 2.5 ms after the beginning, succeeds; a replay of the range is
accepted, and worker 0 expands it up to its `COMMIT`. -/
def replayRange (rangeStart rangeEnd : Time) : List Label :=
  register :: .tick 2500 :: publish 0 "k" ++ expand ++ claim 1 none 7 ++ deliver 1 200 ++
    [.requestReplay 0 ⟨100, 0, "r", rangeStart, rangeEnd⟩, .replay 0, .replay 0, .replay 0,
      .start 0 .replay, .step 0, .step 0, .step 0]

/-- Node cuts the bounds to the millisecond: a range that begins at 2.7 ms replays the delivery although
it does not cover it, and one that ends there covers it and does not replay it. -/
theorem range_cut :
    (∃ s s' r rows, Reachable (step micros) start s ∧ step micros s (.step 0) = some s' ∧
      Replays s s' r rows ∧ rows.length = 1 ∧ ¬ ∃ originals, IsReplayOf s.store r r.range originals rows) ∧
    ∃ s s' r, Reachable (step micros) start s ∧ step micros s (.step 0) = some s' ∧
      Replays s s' r [] ∧ ¬ ∃ originals, IsReplayOf s.store r r.range originals [] := by
  -- before the `COMMIT` everything is pending, after it a replay is expanded
  have hcommits (s s' : Sys) (hs : Reachable (step micros) start s)
      (hs' : step micros s (.step 0) = some s')
      (hp : ((s.store.replays.all fun r => r.status = .pendingExpansion) &&
        s'.store.replays.any fun r => r.status = .expanded) = true) : ∃ r rows, Replays s s' r rows := by
    simp only [Bool.and_eq_true, List.all_eq_true, List.any_eq_true, decide_eq_true_eq] at hp
    obtain ⟨hpend, row', hrow', hst⟩ := hp
    exact replays_of_expanded hs hs' hpend hrow' hst
  constructor
  · obtain ⟨s, s', hs, hs', hp⟩ := exists_of_runs (step micros) start (replayRange 2700 9000) [.step 0]
      (fun s s' => ((s.store.replays.all fun r => r.status = .pendingExpansion) &&
          s'.store.replays.any fun r => r.status = .expanded) &&
        ((s.store.replays.all fun r => s.store.deliveries.all fun d => !r.covers r.range d) &&
          s'.store.deliveries.length = s.store.deliveries.length + 1)) (by decide +kernel)
    obtain ⟨hp, hq⟩ := Bool.and_eq_true_iff.mp hp
    rw [run_singleton] at hs'
    obtain ⟨r, rows, hexp⟩ := hcommits s s' (.of_run hs) hs' hp
    simp only [Bool.and_eq_true, List.all_eq_true, Bool.not_eq_true', decide_eq_true_eq] at hq
    have hlen : rows.length = 1 := by
      have := hq.2
      rw [hexp.deliveries, List.length_append] at this
      exact Nat.add_left_cancel this
    refine ⟨s, s', r, rows, .of_run hs, hs', hexp, hlen, fun ⟨originals, h⟩ => ?_⟩
    -- the stored range covers nothing
    cases originals with
    | nil => rw [← h.fresh.length_eq] at hlen; cases hlen
    | cons d _ =>
        obtain ⟨hd, hcov⟩ := (h.covered d).mp List.mem_cons_self
        have := hq.1 r hexp.pending.1 d hd
        rw [covers_iff.mpr hcov] at this
        cases this
  · obtain ⟨s, s', hs, hs', hp⟩ := exists_of_runs (step micros) start (replayRange 0 2700) [.step 0]
      (fun s s' => ((s.store.replays.all fun r => r.status = .pendingExpansion) &&
          s'.store.replays.any fun r => r.status = .expanded) &&
        ((s.store.replays.all fun r => s.store.deliveries.any (r.covers r.range)) &&
          s'.store.deliveries = s.store.deliveries)) (by decide +kernel)
    obtain ⟨hp, hq⟩ := Bool.and_eq_true_iff.mp hp
    rw [run_singleton] at hs'
    obtain ⟨r, rows, hexp⟩ := hcommits s s' (.of_run hs) hs' hp
    simp only [Bool.and_eq_true, List.all_eq_true, List.any_eq_true, decide_eq_true_eq] at hq
    obtain rfl : rows = [] := by
      have := hq.2
      rw [hexp.deliveries] at this
      exact List.append_right_eq_self.mp this
    refine ⟨s, s', r, .of_run hs, hs', hexp, fun ⟨originals, h⟩ => ?_⟩
    obtain ⟨d, hd, hcov⟩ := hq.1 r hexp.pending.1
    have := (h.covered d).mpr ⟨hd, covers_iff.mp hcov⟩
    rw [List.forall₂_nil_right_iff.mp h.fresh] at this
    cases this

/-- The delivery resolves after the replay's `INSERT … SELECT`: it is in the window and resolved
when the replay is committed, and is not replayed. -/
theorem resolved_too_late : ∃ s s' r d, Reachable (step config) start s ∧
    step config s (.step 0) = some s' ∧ (r ∈ s.store.replays ∧ r.status = .pendingExpansion) ∧
    (∃ r' ∈ s'.store.replays, r'.id = r.id ∧ r'.status = .expanded) ∧
    (d ∈ s.store.deliveries ∧ d.endpointId = r.endpointId ∧ (r.rangeStart ≤ d.createdAt ∧
      d.createdAt ≤ r.rangeEnd) ∧ (d.state = .succeeded ∨ d.state = .failed)) ∧
    s'.store.deliveries = s.store.deliveries := by
  obtain ⟨s, s', hs, hs', hp⟩ := exists_of_runs (step config) start
    (replayWhileSent ++ [.start 0 .replay, .step 0, .step 0, answered, .step 0]) [.step 0]
    (fun s s' => (s.store.replays.any fun r => r.status = .pendingExpansion &&
      (s'.store.replays.any fun r' => r'.id = r.id && r'.status = .expanded) &&
      s.store.deliveries.any (r.covers r.range)) && s'.store.deliveries = s.store.deliveries)
    (by decide +kernel)
  simp only [Bool.and_eq_true, decide_eq_true_eq, List.any_eq_true] at hp
  obtain ⟨⟨r, hr, ⟨hpend, r', hr', hid, hst⟩, d, hd, hcov⟩, hsame⟩ := hp
  rw [run_singleton] at hs'
  exact ⟨s, s', r, d, .of_run hs, hs', ⟨hr, hpend⟩, ⟨r', hr', hid, hst⟩, ⟨hd, covers_iff.mp hcov⟩,
    hsame⟩

end Webhooks
