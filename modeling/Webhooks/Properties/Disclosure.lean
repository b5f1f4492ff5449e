import Webhooks.Api.GoHandlers
import Webhooks.Api.Handlers
import Webhooks.Lib.Ranking
import Webhooks.Protocol.Keys

/-!
# Properties — Disclosure

What `POST /endpoints/:id/resume` says it leaves behind.  Deliveries are claimed by `seq`; the
disclosure compares `created_at`, which is the instant a transaction began.

* `leftBehind`: the failed deliveries the claims have passed, in the order of `seq`.
* `CreatedInSeqOrder`: when `created_at` tells the same.
* **`resume_discloses`**: the response lists `leftBehind` exactly then, in either stack.
* `batch_not_disclosed`: a replay batch, whose rows share one `created_at`.
-/

namespace Webhooks

open Lib

/-- The endpoint's failed deliveries with a `seq` lower than that of its lowest unresolved one, in
the order of `seq`. -/
def leftBehind (s : Store) (endpointId : Uuid) : List Delivery :=
  ((deliveriesOf s endpointId).filter fun r => r.state = .failed &&
    ((unresolvedOf s endpointId).argmin (·.seq)).all fun u => r.seq < u.seq).insertionSort
      fun a b => a.seq ≤ b.seq

/-- What a response to a resume says of the deliveries. -/
def Response.disclosure : Response → Option (Nat × List Uuid)
  | ⟨200, .resumed _ pendingDeliveryCount skippedFailedDeliveryIds⟩ =>
      some (pendingDeliveryCount, skippedFailedDeliveryIds)
  | _ => none

/-- The number of the endpoint's pending and in-flight deliveries. -/
def pendingDeliveryCount (s : Store) (endpointId : Uuid) : Nat :=
  ((deliveriesOf s endpointId).filter fun r => r.state = .pending || r.state = .inFlight).length

/-- Where `created_at` has to agree with `seq`: between the failed and the unresolved deliveries of
the endpoint, and among the failed ones that are ahead of all unresolved ones. -/
structure CreatedInSeqOrder (ties : Uuid ↪ Nat) (s : Store) (endpointId : Uuid) : Prop where
  ahead : ∀ f ∈ deliveriesOf s endpointId, f.state = .failed →
    (∀ u ∈ unresolvedOf s endpointId, f.seq < u.seq) →
      ∀ u ∈ unresolvedOf s endpointId, f.createdAt < u.createdAt
  behind : ∀ f ∈ deliveriesOf s endpointId, f.state = .failed →
    (∃ u ∈ unresolvedOf s endpointId, u.seq ≤ f.seq) →
      ∃ u ∈ unresolvedOf s endpointId, u.createdAt ≤ f.createdAt
  among : ∀ f ∈ deliveriesOf s endpointId, ∀ g ∈ deliveriesOf s endpointId,
    f.state = .failed → g.state = .failed → (∀ u ∈ unresolvedOf s endpointId, g.seq < u.seq) →
      f.seq < g.seq → f.createdAt < g.createdAt ∨ f.createdAt = g.createdAt ∧ ties f.id < ties g.id

section

variable {cfg : Config} {tenants : List Tenant} {s : Store} {p : Platform} {d : Draws}
  {endpointId : Uuid} {r : Delivery}

/-! ### Two ways to say "before every unresolved delivery" -/

theorem all_argmin_iff {us : List Delivery} :
    ((us.argmin (·.seq)).all fun u => r.seq < u.seq) = true ↔ ∀ u ∈ us, r.seq < u.seq := by
  rw [Option.all_eq_true]
  constructor
  · intro h u hu
    obtain ⟨m, hm⟩ : ∃ m, us.argmin (·.seq) = some m :=
      Option.ne_none_iff_exists'.mp fun hnone => List.ne_nil_of_mem hu (List.argmin_eq_none.mp hnone)
    exact (of_decide_eq_true (h m hm)).trans_le (List.le_of_mem_argmin hu hm)
  · intro h m hm
    exact decide_eq_true (h m (List.argmin_mem hm))

theorem all_oldestPendingAt_iff :
    ((oldestPendingAt s endpointId).all fun t => r.createdAt < t) = true ↔
      ∀ u ∈ unresolvedOf s endpointId, r.createdAt < u.createdAt := by
  rw [Option.all_eq_true, oldestPendingAt]
  constructor
  · intro h u hu
    obtain ⟨t, ht⟩ : ∃ t, ((unresolvedOf s endpointId).map (·.createdAt)).min? = some t :=
      Option.ne_none_iff_exists'.mp fun hnone =>
        List.ne_nil_of_mem hu (List.map_eq_nil_iff.mp (List.min?_eq_none_iff.mp hnone))
    exact (of_decide_eq_true (h t ht)).trans_le
      ((List.min?_eq_some_iff.mp ht).2 _ (List.mem_map_of_mem hu))
  · intro h t ht
    obtain ⟨u, hu, rfl⟩ := List.mem_map.mp (List.min?_eq_some_iff.mp ht).1
    exact decide_eq_true (h u hu)

/-! ### The two lists -/

/-- The lists are over the same rows when `created_at` and `seq` agree on which ones are before every
unresolved delivery. -/
theorem filters_eq_iff :
    ((deliveriesOf s endpointId).filter fun r => r.state = .failed &&
        (oldestPendingAt s endpointId).all fun t => r.createdAt < t) =
      (deliveriesOf s endpointId).filter (fun r => r.state = .failed &&
        ((unresolvedOf s endpointId).argmin (·.seq)).all fun u => r.seq < u.seq) ↔
    ∀ f ∈ deliveriesOf s endpointId, f.state = .failed →
      ((∀ u ∈ unresolvedOf s endpointId, f.createdAt < u.createdAt) ↔
        ∀ u ∈ unresolvedOf s endpointId, f.seq < u.seq) := by
  have hfilter : ∀ {q q' : Delivery → Bool} {l : List Delivery},
      l.filter q = l.filter q' ↔ ∀ f ∈ l, (q f = true ↔ q' f = true) := by
    intro q q' l
    constructor
    · intro h f hf
      have hmem : f ∈ l.filter q ↔ f ∈ l.filter q' := by rw [h]
      simpa [List.mem_filter, hf] using hmem
    · intro h
      exact List.filter_congr fun f hf => Bool.eq_iff_iff.mpr (h f hf)
  rw [hfilter]
  refine forall_congr' fun f => forall_congr' fun _ => ?_
  rw [Bool.and_eq_true, Bool.and_eq_true, decide_eq_true_eq, all_oldestPendingAt_iff, all_argmin_iff]
  exact and_congr_right_iff

/-- `created_at`, rows it leaves equal in the order of `ties`, is a strict order on rows with distinct
identifiers. -/
theorem untied_inOrder {ties : Uuid ↪ Nat} {l : List Delivery} (hn : (l.map (·.id)).Nodup) :
    Ranking.Untied (inOrder (·.createdAt) fun r : Delivery => ties r.id) l := by
  refine (List.pairwise_map.mp hn).imp fun hne ⟨hab, hba⟩ => hne (ties.injective ?_)
  simp only [inOrder] at hab hba
  omega

theorem before_inOrder_iff {ties : Uuid ↪ Nat} {f g : Delivery} :
    Ranking.Before (inOrder (·.createdAt) fun r : Delivery => ties r.id) f g ↔
      f.createdAt < g.createdAt ∨ f.createdAt = g.createdAt ∧ ties f.id < ties g.id := by
  have hnat : ∀ a b x y : Nat, ¬ (b < a ∨ b = a ∧ y ≤ x) ↔ a < b ∨ a = b ∧ x < y := by
    intro a b x y
    omega
  exact hnat _ _ _ _

/-- The disclosed rows are those left behind, in the order of `seq`, exactly when `created_at` says so. -/
theorem skippedFailedDeliveries_eq_iff (hids : (s.deliveries.map (·.id)).Nodup)
    (hseqs : (s.deliveries.map (·.seq)).Nodup) :
    skippedFailedDeliveries d s endpointId = leftBehind s endpointId ↔
      CreatedInSeqOrder d.ties s endpointId := by
  set failedAhead := (deliveriesOf s endpointId).filter fun r => r.state = .failed &&
    ((unresolvedOf s endpointId).argmin (·.seq)).all fun u => r.seq < u.seq with hahead
  have hsub : failedAhead.Sublist s.deliveries := List.filter_sublist.trans List.filter_sublist
  have huntied : Ranking.Untied (inOrder (·.createdAt) fun r : Delivery => d.ties r.id) failedAhead :=
    untied_inOrder ((hsub.map _).nodup hids)
  have huntiedSeq : Ranking.Untied (fun a b : Delivery => a.seq ≤ b.seq) failedAhead :=
    (List.pairwise_map.mp ((hsub.map _).nodup hseqs)).imp fun hne h => hne (le_antisymm h.1 h.2)
  have hmem : ∀ {r}, r ∈ failedAhead ↔ r ∈ deliveriesOf s endpointId ∧ r.state = .failed ∧
      ∀ u ∈ unresolvedOf s endpointId, r.seq < u.seq := by
    intro r
    rw [hahead, List.mem_filter, Bool.and_eq_true, decide_eq_true_eq, all_argmin_iff]
  constructor
  · intro heq
    have hmem' : ∀ {f}, f ∈ deliveriesOf s endpointId → f.state = .failed →
        ((∀ u ∈ unresolvedOf s endpointId, f.createdAt < u.createdAt) ↔
          ∀ u ∈ unresolvedOf s endpointId, f.seq < u.seq) := by
      intro f hf hfailed
      have hiff : f ∈ skippedFailedDeliveries d s endpointId ↔ f ∈ leftBehind s endpointId := by
        rw [heq]
      simp only [skippedFailedDeliveries, leftBehind, orderBy, List.mem_insertionSort, List.mem_filter,
        Bool.and_eq_true, decide_eq_true_eq, all_oldestPendingAt_iff, all_argmin_iff, hf, hfailed,
        true_and] at hiff
      exact hiff
    have hfilters := filters_eq_iff.mpr fun f hf hfailed => hmem' hf hfailed
    rw [skippedFailedDeliveries, orderBy, hfilters, leftBehind, ← hahead,
      Ranking.insertionSort_eq_iff huntied huntiedSeq] at heq
    refine ⟨fun f hf hfailed => (hmem' hf hfailed).mpr, fun f hf hfailed hu => ?_,
      fun f hf g hg hff hgf hgu hlt => ?_⟩
    · by_contra hno
      push Not at hno
      obtain ⟨u, hu, hle⟩ := hu
      exact absurd ((hmem' hf hfailed).mp hno u hu) (not_lt.mpr hle)
    · refine before_inOrder_iff.mp (heq f (hmem.mpr ⟨hf, hff, fun u hu => hlt.trans (hgu u hu)⟩) g
        (hmem.mpr ⟨hg, hgf, hgu⟩) (not_le.mpr hlt))
  · intro hc
    have hfilters := filters_eq_iff.mpr fun f hf hfailed =>
      ⟨fun h => by
        by_contra hno
        push Not at hno
        obtain ⟨u, hu, hle⟩ := hc.behind f hf hfailed hno
        exact absurd (h u hu) (not_lt.mpr hle), hc.ahead f hf hfailed⟩
    rw [skippedFailedDeliveries, orderBy, hfilters, leftBehind, ← hahead,
      Ranking.insertionSort_eq_iff huntied huntiedSeq]
    intro f hf g hg hlt
    obtain ⟨hf, hff, -⟩ := hmem.mp hf
    obtain ⟨hg, hgf, hgu⟩ := hmem.mp hg
    exact before_inOrder_iff.mpr (hc.among f hf g hg hff hgf hgu (not_le.mp hlt))

/-! ### The handlers -/

theorem findEndpoint_resumed {e : Endpoint} (he : e ∈ s.endpoints) :
    ∃ e', findEndpoint (setEndpointStatus s e.id e.tenantId .active) e.id e.tenantId = some e' ∧
      e'.id = e.id := by
  have hmem : { e with status := .active } ∈ (setEndpointStatus s e.id e.tenantId .active).endpoints :=
    Table.mem_update_of_pos he (by simp)
  rcases hf : findEndpoint (setEndpointStatus s e.id e.tenantId .active) e.id e.tenantId with _ | e'
  · exact absurd (List.find?_eq_none.mp hf _ hmem) (by simp)
  · have hp := List.find?_some hf
    exact ⟨e', rfl, of_decide_eq_true (Bool.and_eq_true_iff.mp hp).1⟩

/-- The deliveries either stack's response to a resume tells of. -/
theorem resumeEndpoint_disclosure {e : Endpoint} (he : e ∈ s.endpoints) {id : String}
    (hid : p.uuid id = some e.id) {response : Response}
    (hr : response = (Node.resumeEndpoint p d e.tenantId s id).2 ∨
      response = (Go.resumeEndpoint p d e.tenantId s id).2) :
    response.disclosure = some ((unresolvedOf s e.id).length,
      (skippedFailedDeliveries d s e.id).map (·.id)) := by
  obtain ⟨e', hf, hid'⟩ := findEndpoint_resumed he
  rcases hr with rfl | rfl
  · simp only [Node.resumeEndpoint, param, hid, hf, hid', Response.disclosure]
    rfl
  · simp only [Go.resumeEndpoint, Go.updateStatus, hid, hf, hid', Response.disclosure]
    rfl

theorem unresolvedOf_length : (unresolvedOf s endpointId).length = pendingDeliveryCount s endpointId := by
  rw [unresolvedOf, pendingDeliveryCount]
  congr 1
  refine List.filter_congr fun r _ => ?_
  cases hst : r.state <;> simp [Delivery.isUnresolved, DeliveryState.isTerminal, hst]

/-- **What a resume discloses.**  In every reachable state and whatever the endpoint's status is,
`pending_delivery_count` is right in both stacks, and the disclosed identifiers are those of the
deliveries left behind, in order, exactly when `created_at` agrees with `seq` on them. -/
theorem resume_discloses {s : Sys} (h : Reachable (step cfg) (.init tenants) s) {e : Endpoint}
    (he : e ∈ s.store.endpoints) {id : String} (hid : p.uuid id = some e.id) {response : Response}
    (hr : response = (Node.resumeEndpoint p d e.tenantId s.store id).2 ∨
      response = (Go.resumeEndpoint p d e.tenantId s.store id).2) :
    (∃ ids, response.disclosure = some (pendingDeliveryCount s.store e.id, ids)) ∧
      (response.disclosure = some (pendingDeliveryCount s.store e.id,
        (leftBehind s.store e.id).map (·.id)) ↔ CreatedInSeqOrder d.ties s.store e.id) := by
  have hk := (keyInv_of_reachable h).tables
  rw [resumeEndpoint_disclosure he hid hr, unresolvedOf_length]
  refine ⟨⟨_, rfl⟩, ?_⟩
  rw [← skippedFailedDeliveries_eq_iff hk.deliveryIds hk.deliverySeqs, Option.some.injEq,
    Prod.mk.injEq]
  refine ⟨fun heq => ?_, fun heq => ⟨rfl, by rw [heq]⟩⟩
  have hmem : ∀ (key : Delivery → Delivery → Prop) [DecidableRel key] (q : Delivery → Bool),
      ∀ r ∈ ((deliveriesOf s.store e.id).filter q).insertionSort key, r ∈ s.store.deliveries :=
    fun key _ q r hr =>
      List.mem_of_mem_filter (List.mem_of_mem_filter ((List.mem_insertionSort key).mp hr))
  exact Table.eq_of_map_key hk.deliveryIds (hmem _ _) (hmem _ _) heq.2

/-- The disclosure is right while `created_at` strictly increases with `seq`. -/
theorem createdInSeqOrder_of_strict (ties : Uuid ↪ Nat)
    (h : ∀ f ∈ deliveriesOf s endpointId, ∀ g ∈ deliveriesOf s endpointId,
      f.seq < g.seq → f.createdAt < g.createdAt)
    (hseqs : (s.deliveries.map (·.seq)).Nodup) : CreatedInSeqOrder ties s endpointId where
  ahead f hf _ hahead u hu := h f hf u (List.mem_of_mem_filter hu) (hahead u hu)
  behind f hf hfailed hu := by
    obtain ⟨u, hu, hle⟩ := hu
    refine ⟨u, hu, ?_⟩
    have humem := List.mem_of_mem_filter hu
    rcases hle.lt_or_eq with hlt | heq
    · exact (h u humem f hf hlt).le
    · have huf : u = f :=
        Table.eq_of_key hseqs (List.mem_of_mem_filter humem) (List.mem_of_mem_filter hf) heq
      rw [huf]
  among f hf g hg _ _ _ hlt := .inl (h f hf g hg hlt)

end

/-! ### Runs -/

open Sample

/-- Two deliveries, created 1 ms apart, of an endpoint whose deliveries get one attempt.  The first
one fails. -/
def firstFails : List Label :=
  [register] ++ publish 0 "k" ++ expand ++ [.tick 1] ++ publish 1 "l" ++ expand ++
    claim 1 none 7 ++ deliver 1 500

theorem resume_discloses_sample : ∃ s e, Reachable (step once) start s ∧ e ∈ s.store.endpoints ∧
    e.status = .halted ∧
    (Node.resumeEndpoint platform draws 100 s.store (platform.uuidText 0)).2.disclosure =
      some (1, [2]) ∧
    CreatedInSeqOrder draws.ties s.store e.id := by
  obtain ⟨s, hs, hp⟩ := exists_of_run (step once) start firstFails
    (fun s => (s.store.endpoints.any fun e => e.id = 0 && e.tenantId = 100 && e.status = .halted) &&
      pendingDeliveryCount s.store 0 = 1 && (leftBehind s.store 0).map (·.id) = [2] &&
      (Node.resumeEndpoint platform draws 100 s.store (platform.uuidText 0)).2.disclosure =
        some (1, [2]))
    (by decide +kernel)
  simp only [Bool.and_eq_true, decide_eq_true_eq, List.any_eq_true] at hp
  obtain ⟨⟨⟨⟨e, he, ⟨hid, hten⟩, hst⟩, hcount⟩, hleft⟩, hdis⟩ := hp
  have huuid : platform.uuid (platform.uuidText 0) = some e.id := by
    rw [hid]
    decide +kernel
  have hall := resume_discloses (.of_run hs) he huuid (d := draws) (.inl rfl)
  rw [hid, hten, hcount, hleft] at hall
  exact ⟨s, e, .of_run hs, he, hst, hdis, hid ▸ hall.2.mp hdis⟩

/-- Two deliveries succeed and are replayed in one batch; the first copy fails. -/
def firstCopyFails : List Label :=
  [register] ++ publish 0 "k" ++ expand ++ publish 1 "l" ++ expand ++
    claim 1 none 7 ++ deliver 1 200 ++ claim 1 none 7 ++ deliver 1 200 ++
    [.requestReplay 0 ⟨100, 0, "r", 0, 9⟩, .replay 0, .replay 0, .replay 0, .replay 0,
      .start 0 .replay, .step 0, .step 0, .step 0, .step 0] ++
    claim 1 none 7 ++ deliver 1 500

/-- The rows of a replay batch share one `created_at`: the copy that failed has a lower `seq` than
the pending one, and neither stack discloses it. -/
theorem batch_not_disclosed : ∃ s e, Reachable (step once) start s ∧ e ∈ s.store.endpoints ∧
    platform.uuid (platform.uuidText 0) = some e.id ∧ e.status = .halted ∧
    (leftBehind s.store e.id).map (·.id) = [10] ∧
    (Node.resumeEndpoint platform draws e.tenantId s.store (platform.uuidText 0)).2.disclosure =
      some (1, []) ∧
    (Go.resumeEndpoint platform draws e.tenantId s.store (platform.uuidText 0)).2.disclosure =
      some (1, []) := by
  obtain ⟨s, hs, hp⟩ := exists_of_run (step once) start firstCopyFails
    (fun s => s.store.endpoints.any fun e =>
      platform.uuid (platform.uuidText 0) = some e.id && e.status = .halted &&
      (leftBehind s.store e.id).map (·.id) = [10] &&
      (Node.resumeEndpoint platform draws e.tenantId s.store (platform.uuidText 0)).2.disclosure =
        some (1, []) &&
      (Go.resumeEndpoint platform draws e.tenantId s.store (platform.uuidText 0)).2.disclosure =
        some (1, []))
    (by decide +kernel)
  simp only [List.any_eq_true, Bool.and_eq_true, decide_eq_true_eq] at hp
  obtain ⟨e, he, ⟨⟨⟨huuid, hst⟩, hleft⟩, hnode⟩, hgo⟩ := hp
  exact ⟨s, e, .of_run hs, he, huuid, hst, hleft, hnode, hgo⟩

end Webhooks
