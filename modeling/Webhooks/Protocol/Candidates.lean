import Webhooks.Lib.Ranking
import Webhooks.Protocol.Alone

/-!
# Protocol — Candidates

The candidate query: which endpoints it lets through, in which order, and what its `LIMIT` cuts
off.  It counts an endpoint as ready when any pending delivery of it is due; whether the head is
due is only looked at later, endpoint by endpoint.

* `candidateOf_eq_some`, `candidateOf_isSome`: an endpoint with work is among those let through.
* **`mem_claimCandidates`**: a candidate is listed when fewer than twenty are ranked before it.
* `claimCandidates_mem_pre`: what is ranked before a candidate is tried before it.
-/

namespace Webhooks

open Lib Lib.Ranking

/-- The endpoints the candidate query ranks before `e`. -/
def rankedBefore (s : Store) (now cutoff : Time) (e : Endpoint) : List Endpoint :=
  s.endpoints.filter fun e' => (candidateOf s now cutoff e').any fun a =>
    (candidateOf s now cutoff e).any fun b => Before RankedCandidate.le a b

section

variable {cfg : Config} {now cutoff : Time} {st : Store} {e e' : Endpoint} {a b : RankedCandidate}
  {scan : List Endpoint}

theorem candidateOf_eq_some (h : candidateOf st now cutoff e = some a) :
    a.row = ⟨e.id, e.tenantId, e.busy⟩ ∧ (e.status = .active ∧ e.isFree cutoff = true) ∧
      (∃ t ∈ st.tenants, t.id = e.tenantId ∧ a.lastServedAt = t.lastServedAt) ∧
      ∃ d ∈ st.deliveries, d.endpointId = e.id ∧ d.seq = a.minSeq := by
  simp only [candidateOf] at h
  split at h
  · next hc =>
      obtain ⟨t, ht, h⟩ := Option.bind_eq_some_iff.mp h
      obtain ⟨m, hm, rfl⟩ := Option.map_eq_some_iff.mp h
      obtain ⟨d, hd, rfl⟩ := List.mem_map.mp (List.min?_mem hm)
      obtain ⟨hd, hready⟩ := List.mem_filter.mp hd
      simp only [Bool.and_eq_true, decide_eq_true_eq] at hc hready
      have htid := List.find?_some ht
      simp only [decide_eq_true_eq] at htid
      exact ⟨rfl, hc, ⟨t, List.mem_of_find?_eq_some ht, htid, rfl⟩, d, hd, hready.1, rfl⟩
  · cases h

/-- The head of an endpoint with work is ready: the query lets the endpoint through. -/
theorem candidateOf_isSome (hw : e.HasWork st now cutoff) (ht : ∃ t ∈ st.tenants, t.id = e.tenantId) :
    ∃ a, candidateOf st now cutoff e = some a := by
  obtain ⟨⟨hactive, hfree⟩, d, hd, ⟨⟨hde, hun⟩, -⟩, hdue⟩ := hw
  obtain ⟨t, ht⟩ : ∃ t, st.tenants.find? (fun t => t.id = e.tenantId) = some t := by
    obtain ⟨t, hmem, hid⟩ := ht
    exact Option.isSome_iff_exists.mp (List.find?_isSome.mpr ⟨t, hmem, by simpa using hid⟩)
  have hready : d ∈ readyDeliveries st now e.id := by
    refine List.mem_filter.mpr ⟨hd, ?_⟩
    cases hs : d.state <;> simp_all [DeliveryState.isTerminal]
  rcases hm : ((readyDeliveries st now e.id).map (·.seq)).min? with _ | m
  · rw [List.min?_eq_none_iff, List.map_eq_nil_iff] at hm
    exact absurd (hm ▸ hready) List.not_mem_nil
  · refine ⟨⟨⟨e.id, e.tenantId, e.busy⟩, t.lastServedAt, m⟩, ?_⟩
    simp only [candidateOf, hactive, hfree, decide_true, Bool.and_self, if_true, ht, Option.bind_some,
      hm, Option.map_some]

/-! ### The order -/

instance : Std.Total RankedCandidate.le :=
  ⟨fun a b => by simp only [RankedCandidate.le]; omega⟩

instance : IsTrans RankedCandidate RankedCandidate.le :=
  ⟨fun a b c => by simp only [RankedCandidate.le]; omega⟩

theorem scan_ids (hc : st.Coherent) (hscan : scan.Perm st.endpoints) :
    scan.Pairwise fun e e' => e.id ≠ e'.id :=
  List.pairwise_map.mp ((hscan.map Endpoint.id).nodup_iff.mpr hc.endpointIds)

/-- A delivery is of one endpoint, so no two endpoints are tied. -/
theorem not_tied (hc : st.Coherent) (hne : e.id ≠ e'.id) (ha : candidateOf st now cutoff e = some a)
    (hb : candidateOf st now cutoff e' = some b) : ¬ (a.le b ∧ b.le a) := by
  obtain ⟨-, -, -, d, hd, hde, hseq⟩ := candidateOf_eq_some ha
  obtain ⟨-, -, -, d', hd', hde', hseq'⟩ := candidateOf_eq_some hb
  rintro ⟨hab, hba⟩
  have heq : d.seq = d'.seq := by
    simp only [RankedCandidate.le] at hab hba
    omega
  rw [Table.eq_of_key hc.deliverySeqs hd hd' heq] at hde
  exact hne (hde.symm.trans hde')

theorem untied_candidates (hc : st.Coherent) (hscan : scan.Perm st.endpoints) :
    Untied RankedCandidate.le (scan.filterMap (candidateOf st now cutoff)) := by
  refine List.Pairwise.filterMap (candidateOf st now cutoff) (fun e e' hne a ha b hb => ?_)
    (scan_ids hc hscan)
  exact not_tied hc hne ha hb

theorem mem_rankedBefore : e' ∈ rankedBefore st now cutoff e ↔ e' ∈ st.endpoints ∧
    ∃ b a, candidateOf st now cutoff e' = some b ∧ candidateOf st now cutoff e = some a ∧
      Before RankedCandidate.le b a := by
  simp only [rankedBefore, List.mem_filter, Option.any_eq_true, decide_eq_true_eq]
  exact and_congr_right fun _ => ⟨fun ⟨b, hb, a, ha, h⟩ => ⟨b, a, hb, ha, h⟩,
    fun ⟨b, a, hb, ha, h⟩ => ⟨b, hb, a, ha, h⟩⟩

/-- The candidates are rows of the store. -/
theorem claimCandidates_candidate (hscan : scan.Perm st.endpoints) {c : CandidateRow}
    (hc : c ∈ claimCandidates st now cutoff scan) :
    ∃ e ∈ st.endpoints, (candidateOf st now cutoff e).isSome = true ∧ c = ⟨e.id, e.tenantId, e.busy⟩ := by
  obtain ⟨a, ha, rfl⟩ := List.mem_map.mp hc
  obtain ⟨e, he, hcand⟩ :=
    List.mem_filterMap.mp ((List.mem_insertionSort _).mp (List.mem_of_mem_take ha))
  exact ⟨e, hscan.mem_iff.mp he, by rw [hcand]; rfl, (candidateOf_eq_some hcand).1⟩

theorem claimCandidates_isOf (hscan : scan.Perm st.endpoints) :
    ∀ c ∈ claimCandidates st now cutoff scan, c.IsOf st cutoff := by
  intro c hc
  obtain ⟨e, he, hsome, hrow⟩ := claimCandidates_candidate hscan hc
  obtain ⟨a, ha⟩ := Option.isSome_iff_exists.mp hsome
  exact ⟨e, he, hrow, (candidateOf_eq_some ha).2.1⟩

theorem claimCandidates_nodup (hc : st.Coherent) (hscan : scan.Perm st.endpoints) :
    ((claimCandidates st now cutoff scan).map (·.id)).Nodup := by
  have hrows : (scan.filterMap (candidateOf st now cutoff)).Pairwise
      fun a b => a.row.id ≠ b.row.id := by
    refine List.Pairwise.filterMap _ (fun e e' hne a ha b hb => ?_) (scan_ids hc hscan)
    rw [(candidateOf_eq_some ha).1, (candidateOf_eq_some hb).1]
    exact hne
  have hsorted := ((List.perm_insertionSort RankedCandidate.le _).symm.pairwise_iff
    fun h => Ne.symm h).mp hrows
  exact List.pairwise_map.mpr (List.pairwise_map.mpr (hsorted.sublist (List.take_sublist 20 _)))

/-- The endpoints whose candidates the query sorts. -/
theorem mem_candidates (hscan : scan.Perm st.endpoints) :
    a ∈ scan.filterMap (candidateOf st now cutoff) ↔
      ∃ e ∈ st.endpoints, candidateOf st now cutoff e = some a := by
  rw [List.mem_filterMap]
  exact exists_congr fun e => and_congr_left fun _ => hscan.mem_iff

/-- Two candidates with one row are one candidate. -/
theorem candidate_ext (hc : st.Coherent) (he : e ∈ st.endpoints) (he' : e' ∈ st.endpoints)
    (ha : candidateOf st now cutoff e = some a) (hb : candidateOf st now cutoff e' = some b)
    (hrow : b.row = a.row) : b = a := by
  rw [(candidateOf_eq_some ha).1, (candidateOf_eq_some hb).1] at hrow
  rw [Table.eq_of_key hc.endpointIds he' he (congrArg CandidateRow.id hrow), ha] at hb
  exact (Option.some.inj hb).symm

/-- A candidate is listed when fewer than twenty are ranked before it. -/
theorem mem_claimCandidates (hc : st.Coherent) (hscan : scan.Perm st.endpoints)
    (he : e ∈ st.endpoints) (ha : candidateOf st now cutoff e = some a) :
    a.row ∈ claimCandidates st now cutoff scan ↔ (rankedBefore st now cutoff e).length < 20 := by
  have hlist : a.row ∈ claimCandidates st now cutoff scan ↔
      a ∈ ((scan.filterMap (candidateOf st now cutoff)).insertionSort RankedCandidate.le).take 20 := by
    refine ⟨fun h => ?_, List.mem_map_of_mem⟩
    obtain ⟨b, hb, hrow⟩ := List.mem_map.mp h
    obtain ⟨e', he', hcand⟩ :=
      (mem_candidates hscan).mp ((List.mem_insertionSort _).mp (List.mem_of_mem_take hb))
    exact candidate_ext hc he he' ha hcand hrow ▸ hb
  have hcount : ((scan.filterMap (candidateOf st now cutoff)).filter
      fun b => Before RankedCandidate.le b a).length = (rankedBefore st now cutoff e).length := by
    rw [((hscan.filterMap _).filter _).length_eq, ← List.countP_eq_length_filter,
      List.countP_filterMap, List.countP_eq_length_filter]
    simp only [rankedBefore, ha, Option.any_some]
    refine congrArg List.length (List.filter_congr fun e' _ => ?_)
    cases candidateOf st now cutoff e' <;> rfl
  rw [hlist, mem_take_insertionSort (untied_candidates hc hscan), hcount]
  exact and_iff_right ((mem_candidates hscan).mpr ⟨e, he, ha⟩)

/-- What is ranked before a listed candidate is tried before it. -/
theorem claimCandidates_mem_pre (hc : st.Coherent) (hscan : scan.Perm st.endpoints)
    {pre rest : List CandidateRow} (he : e ∈ st.endpoints) (he' : e' ∈ st.endpoints)
    (ha : candidateOf st now cutoff e = some a) (hb : candidateOf st now cutoff e' = some b)
    (hba : Before RankedCandidate.le b a)
    (hcs : claimCandidates st now cutoff scan = pre ++ a.row :: rest) : b.row ∈ pre := by
  obtain ⟨pre, tl, htake, rfl, htl⟩ := List.map_eq_append_iff.mp hcs
  obtain ⟨a', rest, rfl, hrow, rfl⟩ := List.map_eq_cons_iff.mp htl
  have ha' : a' ∈ scan.filterMap (candidateOf st now cutoff) := by
    refine (List.mem_insertionSort RankedCandidate.le).mp (List.mem_of_mem_take (i := 20) ?_)
    rw [htake]
    exact List.mem_append_right _ List.mem_cons_self
  obtain ⟨e₁, he₁, hcand⟩ := (mem_candidates hscan).mp ha'
  obtain rfl : a' = a := candidate_ext hc he he₁ ha hcand hrow
  refine List.mem_map_of_mem (mem_of_before (pairwise_before (untied_candidates hc hscan)) htake ?_ hba)
  exact (List.mem_insertionSort _).mpr ((mem_candidates hscan).mpr ⟨e', he', hb⟩)

end

end Webhooks
