import Webhooks.Lib.Channel
import Webhooks.Protocol.Attempts
import Webhooks.Protocol.Order

/-!
# Protocol — Queue

What an endpoint is to a publisher: a first-in first-out channel.

* `Store.queue`: the deliveries of an endpoint by `seq`.  `Store.channel`: the channel they are.
* `Queued`: the deliveries that are succeeded or failed come first, and behind the first one that is not, none
  has been attempted.
* `HeadMove`: what a step may do to that one.  `Queued.head`: it is a step of the channel.
* **`step_channel`**: in timely runs whose expansions are ordered, every step of the system is a step of each
  endpoint's channel.
-/

namespace Webhooks

open Lib

/-- The deliveries of an endpoint, in the order of `seq`. -/
def Store.queue (st : Store) (id : Uuid) : List Delivery :=
  (st.deliveries.filter fun d => d.endpointId = id).insertionSort fun a b => a.seq ≤ b.seq

/-- The endpoint takes deliveries. -/
def Store.isOpen (st : Store) (id : Uuid) : Bool :=
  st.endpoints.any fun e => e.id = id && e.status = .active

def Delivery.settled (d : Delivery) : Settled Uuid := ⟨d.id, d.attemptCount, decide (d.state = .succeeded)⟩

/-- The channel that deliveries in this order are. -/
def channelOf (ds : List Delivery) (isOpen : Bool) : Channel Uuid where
  settled := (ds.filter (·.state.isTerminal)).map Delivery.settled
  waiting := (ds.filter (!·.state.isTerminal)).map fun d => (d.id, d.attemptCount)
  isOut := ds.any fun d => d.state = .inFlight
  isOpen := isOpen

def Store.channel (st : Store) (id : Uuid) : Channel Uuid := channelOf (st.queue id) (st.isOpen id)

/-- No attempt has been made. -/
def Delivery.IsUntouched (d : Delivery) : Prop := d.state = .pending ∧ d.attemptCount = 0

/-- The deliveries that are succeeded or failed, and the others. -/
structure Split (ds done rest : List Delivery) : Prop where
  eq : ds = done ++ rest
  resolved : ∀ d ∈ done, d.state.isTerminal = true
  unresolved : ∀ d ∈ rest, d.state.isTerminal = false
  untouched : ∀ d ∈ rest.tail, d.IsUntouched

def Queued (ds : List Delivery) : Prop := ∃ done rest, Split ds done rest

/-- What a step may do to the first delivery that is neither succeeded nor failed. -/
inductive HeadMove (ceiling : Nat) (isOpen : Bool) (d : Delivery) : Bool → Delivery → Prop
  | mark (state : d.state = .pending) :
      HeadMove ceiling isOpen d isOpen { d with state := .inFlight, attemptCount := d.attemptCount + 1 }
  | comeBack (state : d.state = .inFlight) (nextAttemptAt : Time) :
      HeadMove ceiling isOpen d isOpen { d with state := .pending, nextAttemptAt := nextAttemptAt }
  | succeed (state : d.state = .inFlight) : HeadMove ceiling isOpen d isOpen { d with state := .succeeded }
  | fail (state : d.state = .inFlight) (count : ceiling ≤ d.attemptCount) :
      HeadMove ceiling isOpen d false { d with state := .failed }

section

variable {ds done rest : List Delivery} {d d' : Delivery} {ceiling : Nat} {isOpen isOpen' : Bool}

theorem DeliveryState.not_inFlight_of_isTerminal {state : DeliveryState} (h : state.isTerminal = true) :
    state ≠ .inFlight := by
  rintro rfl
  cases h

/-- The channel of a queue, from its two parts. -/
theorem Split.channel (h : Split ds done rest) : channelOf ds isOpen =
    ⟨done.map Delivery.settled, rest.map fun d => (d.id, d.attemptCount),
      rest.any fun d => d.state = .inFlight, isOpen⟩ := by
  have hdone : done.filter (·.state.isTerminal) = done := List.filter_eq_self.mpr h.resolved
  have hrest : rest.filter (·.state.isTerminal) = [] :=
    List.filter_eq_nil_iff.mpr fun d hd => by simp [h.unresolved d hd]
  have hdone' : done.filter (!·.state.isTerminal) = [] :=
    List.filter_eq_nil_iff.mpr fun d hd => by simp [h.resolved d hd]
  have hrest' : rest.filter (!·.state.isTerminal) = rest :=
    List.filter_eq_self.mpr fun d hd => by simp [h.unresolved d hd]
  have hout : done.any (fun d => decide (d.state = .inFlight)) = false :=
    List.any_eq_false.mpr fun d hd => by
      simpa using DeliveryState.not_inFlight_of_isTerminal (h.resolved d hd)
  rw [h.eq, channelOf, List.filter_append, List.filter_append, List.any_append, hdone, hrest, hdone', hrest',
    hout, List.append_nil, List.nil_append, Bool.false_or]

theorem Split.tail_out (h : Split ds done (d :: rest)) :
    (rest.any fun d => decide (d.state = .inFlight)) = false :=
  List.any_eq_false.mpr fun x hx => by simp [(h.untouched x hx).1]

/-- The first unresolved delivery stays unresolved. -/
theorem Split.replace (h : Split ds done (d :: rest)) (hd' : d'.state.isTerminal = false) :
    Split (done ++ d' :: rest) done (d' :: rest) where
  eq := rfl
  resolved := h.resolved
  unresolved x hx := by
    rcases List.mem_cons.mp hx with rfl | hx
    · exact hd'
    · exact h.unresolved x (List.mem_cons_of_mem _ hx)
  untouched := h.untouched

/-- It is resolved. -/
theorem Split.resolve (h : Split ds done (d :: rest)) (hd' : d'.state.isTerminal = true) :
    Split (done ++ d' :: rest) (done ++ [d']) rest where
  eq := by rw [List.append_assoc, List.singleton_append]
  resolved x hx := by
    rcases List.mem_append.mp hx with hx | hx
    · exact h.resolved x hx
    · rw [List.mem_singleton.mp hx]
      exact hd'
  unresolved x hx := h.unresolved x (List.mem_cons_of_mem _ hx)
  untouched x hx := h.untouched x (List.mem_of_mem_tail hx)

/-- What happens to the first unresolved delivery is a step of the channel. -/
theorem Split.head (h : Split ds done (d :: rest)) (hmove : HeadMove ceiling isOpen d isOpen' d') :
    Queued (done ++ d' :: rest) ∧
      Channel.Step ceiling (channelOf ds isOpen) (channelOf (done ++ d' :: rest) isOpen') := by
  rw [h.channel]
  cases hmove with
  | mark state =>
      have h' : Split _ done ({ d with state := .inFlight, attemptCount := d.attemptCount + 1 } :: rest) :=
        h.replace rfl
      refine ⟨⟨_, _, h'⟩, ?_⟩
      rw [h'.channel]
      simp only [List.map_cons, List.any_cons, h.tail_out, state, reduceCtorEq, decide_false, decide_true,
        Bool.or_false]
      exact .handOut
  | comeBack state nextAttemptAt =>
      have h' : Split _ done ({ d with state := .pending, nextAttemptAt := nextAttemptAt } :: rest) :=
        h.replace rfl
      refine ⟨⟨_, _, h'⟩, ?_⟩
      rw [h'.channel]
      simp only [List.map_cons, List.any_cons, h.tail_out, state, reduceCtorEq, decide_false, decide_true,
        Bool.or_false]
      exact .comeBack
  | succeed state =>
      have h' : Split _ (done ++ [{ d with state := .succeeded }]) rest := h.resolve rfl
      refine ⟨⟨_, _, h'⟩, ?_⟩
      rw [h'.channel]
      simp only [List.map_cons, List.any_cons, List.map_append, List.map_nil, h.tail_out, state, decide_true,
        Bool.or_false]
      exact .accept
  | fail state count =>
      have h' : Split _ (done ++ [{ d with state := .failed }]) rest := h.resolve rfl
      refine ⟨⟨_, _, h'⟩, ?_⟩
      rw [h'.channel]
      simp only [List.map_cons, List.any_cons, List.map_append, List.map_nil, h.tail_out, state, decide_true,
        Bool.or_false]
      exact .giveUp count

/-- New deliveries come last. -/
theorem Split.arrive (h : Split ds done rest) {new : List Delivery} (hnew : ∀ d ∈ new, d.IsUntouched) :
    Queued (ds ++ new) ∧
      Channel.Step ceiling (channelOf ds isOpen) (channelOf (ds ++ new) isOpen) := by
  have hpending : ∀ d ∈ new, d.state.isTerminal = false := fun d hd => by rw [(hnew d hd).1]; rfl
  have h' : Split (ds ++ new) done (rest ++ new) := by
    refine ⟨by rw [h.eq, List.append_assoc], h.resolved, fun d hd => ?_, fun d hd => ?_⟩
    · exact (List.mem_append.mp hd).elim (h.unresolved d) (hpending d)
    · cases hrest : rest with
      | nil =>
          rw [hrest, List.nil_append] at hd
          exact hnew d (List.mem_of_mem_tail hd)
      | cons x xs =>
          rw [hrest] at hd
          exact (List.mem_append.mp hd).elim (fun hx => h.untouched d (by rw [hrest]; exact hx)) (hnew d)
  refine ⟨⟨_, _, h'⟩, ?_⟩
  have hout : (new.any fun d => decide (d.state = .inFlight)) = false :=
    List.any_eq_false.mpr fun d hd => by simp [(hnew d hd).1]
  have hcount : new.map (fun d => (d.id, d.attemptCount)) = (new.map (·.id)).map fun x => (x, 0) := by
    rw [List.map_map]
    exact List.map_congr_left fun d hd => by simp [(hnew d hd).2]
  rw [h.channel, h'.channel, List.map_append, List.any_append, hout, Bool.or_false, hcount]
  exact .arrive _

theorem Split.first_of_inFlight (h : Split ds done rest) (hd : d ∈ ds) (hs : d.state = .inFlight) :
    ∃ rest', rest = d :: rest' := by
  rw [h.eq] at hd
  rcases List.mem_append.mp hd with hd | hd
  · exact absurd hs (DeliveryState.not_inFlight_of_isTerminal (h.resolved d hd))
  · cases rest with
    | nil => cases hd
    | cons x rest =>
        rcases List.mem_cons.mp hd with rfl | hd
        · exact ⟨rest, rfl⟩
        · have hpending := (h.untouched d hd).1
          rw [hs] at hpending
          cases hpending

theorem Split.first_of_lowest (h : Split ds done rest) (hsorted : ds.Pairwise fun a b => a.seq < b.seq)
    (hd : d ∈ ds) (hun : d.state.isTerminal = false)
    (hlow : ∀ x ∈ ds, x.state.isTerminal = false → d.seq ≤ x.seq) : ∃ rest', rest = d :: rest' := by
  rw [h.eq] at hd hsorted
  rcases List.mem_append.mp hd with hd | hd
  · rw [h.resolved d hd] at hun
    cases hun
  · cases rest with
    | nil => cases hd
    | cons x rest =>
        rcases List.mem_cons.mp hd with rfl | hd
        · exact ⟨rest, rfl⟩
        · have hlt := (List.pairwise_cons.mp (List.pairwise_append.mp hsorted).2.1).1 d hd
          have hx : x ∈ ds := h.eq ▸ List.mem_append_right _ List.mem_cons_self
          exact absurd hlt (not_lt.mpr (hlow x hx (h.unresolved x List.mem_cons_self)))

/-- An `UPDATE` that meets at most the first unresolved delivery is a step of the channel. -/
theorem Queued.update (h : Queued ds) (hn : ds.Nodup) {p : Delivery → Bool} {f : Delivery → Delivery}
    (hp : ∀ d ∈ ds, p d = true → (∀ done rest, Split ds done rest → ∃ rest', rest = d :: rest') ∧
      HeadMove ceiling isOpen d isOpen' (f d)) :
    Queued (Table.update p f ds) ∧
      Channel.Step ceiling (channelOf ds isOpen) (channelOf (Table.update p f ds) isOpen') := by
  obtain ⟨done, rest, hsplit⟩ := h
  by_cases hany : ∃ d ∈ ds, p d = true
  · obtain ⟨d, hd, hpd⟩ := hany
    obtain ⟨hfirst, hmove⟩ := hp d hd hpd
    obtain ⟨rest', rfl⟩ := hfirst done rest hsplit
    have hother : ∀ x ∈ ds, p x = true → x = d := fun x hx hpx => by
      obtain ⟨_, heq⟩ := (hp x hx hpx).1 done _ hsplit
      exact (List.cons.inj heq).1.symm
    have heq := hsplit.eq
    rw [heq] at hn hother
    obtain ⟨-, hrest, hdisjoint⟩ := List.nodup_append.mp hn
    have hdone : Table.update p f done = done := Table.update_eq_self fun x hx => by
      by_contra hpx
      have hxd := hother x (List.mem_append_left _ hx) (by simpa using hpx)
      exact hdisjoint x hx d List.mem_cons_self hxd
    have hleft : Table.update p f rest' = rest' := Table.update_eq_self fun x hx => by
      by_contra hpx
      have hxd := hother x (List.mem_append_right _ (List.mem_cons_of_mem _ hx)) (by simpa using hpx)
      exact (List.nodup_cons.mp hrest).1 (hxd ▸ hx)
    have hupdate : Table.update p f ds = done ++ f d :: rest' := by
      rw [heq, Table.update, List.map_append, List.map_cons, if_pos hpd]
      exact congrArg₂ (fun a b => a ++ f d :: b) hdone hleft
    rw [hupdate]
    exact hsplit.head hmove
  · have hsame : Table.update p f ds = ds := Table.update_eq_self fun d hd => by
      by_contra hpd
      exact hany ⟨d, hd, by simpa using hpd⟩
    rw [hsame]
    exact ⟨⟨done, rest, hsplit⟩, .gate isOpen'⟩

end

/-! ### The queue of an endpoint -/

section

variable {cfg : Config} {now : Time} {st st' : Store} {w : WorkerId} {pc pc' : Pc} {l : Label}
  {s s' : Sys} {d : Delivery} {id : Uuid}

theorem mem_queue : d ∈ st.queue id ↔ d ∈ st.deliveries ∧ d.endpointId = id := by
  rw [Store.queue, List.mem_insertionSort, List.mem_filter, decide_eq_true_eq]

theorem queue_sorted (hn : (st.deliveries.map (·.seq)).Nodup) :
    (st.queue id).Pairwise fun a b => a.seq < b.seq := by
  have : Std.Total fun a b : Delivery => a.seq ≤ b.seq := ⟨fun a b => le_total a.seq b.seq⟩
  have : IsTrans Delivery fun a b => a.seq ≤ b.seq := ⟨fun _ _ _ => le_trans⟩
  have hle := List.pairwise_insertionSort (fun a b : Delivery => a.seq ≤ b.seq)
    (st.deliveries.filter fun d => d.endpointId = id)
  have hne : (st.queue id).Pairwise fun a b => a.seq ≠ b.seq := by
    refine ((List.perm_insertionSort _ _).symm.pairwise_iff fun h => Ne.symm h).mp ?_
    exact (List.pairwise_map.mp hn).sublist List.filter_sublist
  exact (hle.and hne).imp fun ⟨hle, hne⟩ => lt_of_le_of_ne hle hne

theorem queue_nodup (hn : (st.deliveries.map (·.seq)).Nodup) : (st.queue id).Nodup :=
  (queue_sorted hn).imp fun h heq => absurd (heq ▸ h) (lt_irrefl _)

/-- Rewriting the rows, with later ones behind, does so in the queue. -/
theorem queue_of_rewrite {g : Delivery → Delivery} {new : List Delivery}
    (heq : st'.deliveries = st.deliveries.map g ++ new) (hn : (st'.deliveries.map (·.seq)).Nodup)
    (hg : ∀ d ∈ st.deliveries, (g d).endpointId = d.endpointId ∧ (g d).seq = d.seq)
    (hnew : ∀ r ∈ new, ∀ d ∈ st.deliveries, d.endpointId = r.endpointId → d.seq < r.seq) :
    ∃ new', (∀ r ∈ new', r ∈ new) ∧ st'.queue id = (st.queue id).map g ++ new' := by
  have : Std.Total fun a b : Delivery => a.seq ≤ b.seq := ⟨fun a b => le_total a.seq b.seq⟩
  have : IsTrans Delivery fun a b => a.seq ≤ b.seq := ⟨fun _ _ _ => le_trans⟩
  have hmem : ∀ r ∈ (new.filter fun d => d.endpointId = id).insertionSort (fun a b => a.seq ≤ b.seq),
      r ∈ new ∧ r.endpointId = id := fun r hr => by
    simpa using List.mem_filter.mp ((List.mem_insertionSort _).mp hr)
  refine ⟨_, fun r hr => (hmem r hr).1, ?_⟩
  have hfilter : st'.deliveries.filter (fun d => d.endpointId = id) =
      (st.deliveries.filter fun d => d.endpointId = id).map g ++ new.filter fun d => d.endpointId = id := by
    rw [heq, List.filter_append, List.filter_map]
    congr 2
    exact List.filter_congr fun d hd => by simp [(hg d hd).1]
  -- both are sorted, and they have the same rows
  refine List.Perm.eq_of_pairwise (fun a b ha hb hab hba => ?_) (List.pairwise_insertionSort _ _) ?_ ?_
  · have hb' : b ∈ st'.deliveries := by
      rw [heq]
      refine (List.mem_append.mp hb).elim (fun hb => ?_) fun hb => List.mem_append_right _ (hmem b hb).1
      obtain ⟨d, hd, rfl⟩ := List.mem_map.mp hb
      exact List.mem_append_left _ (List.mem_map_of_mem (mem_queue.mp hd).1)
    exact Table.eq_of_key hn (mem_queue.mp ha).1 hb' (le_antisymm hab hba)
  · refine List.pairwise_append.mpr ⟨List.pairwise_map.mpr ?_, List.pairwise_insertionSort _ _, ?_⟩
    · refine (List.pairwise_insertionSort _ _).imp_of_mem fun {a b} ha hb hab => ?_
      rw [(hg a (mem_queue.mp ha).1).2, (hg b (mem_queue.mp hb).1).2]
      exact hab
    · intro a ha r hr
      obtain ⟨d, hd, rfl⟩ := List.mem_map.mp ha
      obtain ⟨hd, hde⟩ := mem_queue.mp hd
      obtain ⟨hr, hre⟩ := hmem r hr
      rw [(hg d hd).2]
      exact (hnew r hr d hd (hde.trans hre.symm)).le
  · rw [Store.queue, hfilter]
    exact (List.perm_insertionSort _ _).trans
      (((List.perm_insertionSort _ _).symm.map g).append (List.perm_insertionSort _ _).symm)

/-- An `UPDATE deliveries` is one of the queue. -/
theorem queue_of_update {p : Delivery → Bool} {f : Delivery → Delivery}
    (heq : st'.deliveries = Table.update p f st.deliveries) (hn : (st.deliveries.map (·.seq)).Nodup)
    (hf : ∀ d, (f d).endpointId = d.endpointId ∧ (f d).seq = d.seq) :
    st'.queue id = Table.update p f (st.queue id) := by
  have hg : ∀ d, (if p d then f d else d).endpointId = d.endpointId ∧
      (if p d then f d else d).seq = d.seq := by
    intro d
    split
    · exact hf d
    · exact ⟨rfl, rfl⟩
  have hn' : (st'.deliveries.map (·.seq)).Nodup := by
    rw [heq, Table.map_update fun d => (hf d).2]
    exact hn
  obtain ⟨new, hnew, hqueue⟩ := @queue_of_rewrite _ _ id _ _ (heq.trans (List.append_nil _).symm) hn'
    (fun d _ => hg d) fun r hr => by cases hr
  obtain rfl : new = [] := List.eq_nil_iff_forall_not_mem.mpr fun r hr => by cases hnew r hr
  rw [List.append_nil] at hqueue
  exact hqueue

theorem isOpen_of_update {p : Endpoint → Bool} {f : Endpoint → Endpoint}
    (heq : st'.endpoints = Table.update p f st.endpoints)
    (hf : ∀ e, p e = true → (f e).id = e.id ∧ (e.id = id → (f e).status = e.status)) :
    st'.isOpen id = st.isOpen id := by
  unfold Store.isOpen
  rw [heq, Table.update, List.any_map]
  congr 1
  funext e
  simp only [Function.comp_apply]
  split
  · next hp =>
    obtain ⟨hid, hstatus⟩ := hf e hp
    rw [hid]
    by_cases he : e.id = id
    · rw [hstatus he]
    · simp [he]
  · rfl

/-- The queue is as before, and the endpoint may have been paused or resumed. -/
theorem channel_of_eq {ceiling : Nat} (h : Queued (st.queue id)) (heq : st'.deliveries = st.deliveries) :
    Queued (st'.queue id) ∧ Channel.Step ceiling (st.channel id) (st'.channel id) := by
  have hqueue : st'.queue id = st.queue id := by rw [Store.queue, heq]; rfl
  unfold Store.channel
  rw [hqueue]
  exact ⟨h, .gate _⟩

/-- An `UPDATE deliveries` that meets at most the first unresolved delivery. -/
theorem channel_of_update {ceiling : Nat} (h : Queued (st.queue id)) (hn : (st.deliveries.map (·.seq)).Nodup)
    {p : Delivery → Bool} {f : Delivery → Delivery} (heq : st'.deliveries = Table.update p f st.deliveries)
    (hf : ∀ d, (f d).endpointId = d.endpointId ∧ (f d).seq = d.seq)
    (hp : ∀ d ∈ st.queue id, p d = true →
      (∀ done rest, Split (st.queue id) done rest → ∃ rest', rest = d :: rest') ∧
        HeadMove ceiling (st.isOpen id) d (st'.isOpen id) (f d)) :
    Queued (st'.queue id) ∧ Channel.Step ceiling (st.channel id) (st'.channel id) := by
  unfold Store.channel
  rw [queue_of_update heq hn hf]
  exact h.update (queue_nodup hn) hp

/-- A delivery that is neither succeeded nor failed, and before which there is none, is the first one. -/
theorem Lowest.first {done rest : List Delivery} (hlow : Lowest st id d.id)
    (hn : (st.deliveries.map (·.seq)).Nodup) (hd : d ∈ st.queue id) (hun : d.state.isTerminal = false)
    (h : Split (st.queue id) done rest) : ∃ rest', rest = d :: rest' := by
  refine h.first_of_lowest (queue_sorted hn) hd hun fun x hx hxun => ?_
  obtain ⟨hx, hxe⟩ := mem_queue.mp hx
  exact hlow d (mem_queue.mp hd).1 rfl x hx hxe hxun

/-- A committed write-back settles the first delivery, or puts it back. -/
theorem writeBack_channel {claimed : ClaimedDelivery} {result : AttemptOutcome} {random : Jitter}
    (h : Queued (st.queue id)) (ht : TablesKeyed st)
    (hof : ∀ d ∈ st.deliveries, d.id = claimed.deliveryId → d.endpointId = claimed.endpointId ∧
      d.state = .inFlight ∧ claimed.attemptNumber = d.attemptCount) :
    Queued ((writeBack cfg now st claimed result random).queue id) ∧
      Channel.Step cfg.backoff.maxAttempts (st.channel id)
        ((writeBack cfg now st claimed result random).channel id) := by
  have hopen : resolution cfg claimed result ≠ .halted →
      (writeBack cfg now st claimed result random).isOpen id = st.isOpen id := by
    refine fun hne => isOpen_of_update rfl fun e _ => ⟨(Endpoint.resolve_identity _ e).1, fun _ => ?_⟩
    rw [Endpoint.resolve, if_neg hne]
    rfl
  have hshut : resolution cfg claimed result = .halted →
      (writeBack cfg now st claimed result random).isOpen claimed.endpointId = false := by
    refine fun heq => List.any_eq_false.mpr fun e he => ?_
    obtain ⟨-, hp⟩ | ⟨e₁, -, -, rfl⟩ := Table.mem_update_cases he
    · have hne : e.id ≠ claimed.endpointId := of_decide_eq_false hp
      simp [hne]
    · simp [Endpoint.resolve, heq, Endpoint.released]
  have hrow : ∀ d, (Delivery.resolve (resolution cfg claimed result)
      (now + computeBackoffDelayMs claimed.attemptNumber cfg.backoff random) d).endpointId = d.endpointId ∧
      (Delivery.resolve (resolution cfg claimed result)
        (now + computeBackoffDelayMs claimed.attemptNumber cfg.backoff random) d).seq = d.seq := fun d =>
    have hid := Delivery.resolve_identity _ _ d
    ⟨hid.2.2.1, hid.2.2.2.1⟩
  refine channel_of_update h ht.deliverySeqs rfl hrow fun d hd hp => ?_
  obtain ⟨hmem, rfl⟩ := mem_queue.mp hd
  obtain ⟨he, hs, hcount⟩ := hof d hmem (of_decide_eq_true hp)
  refine ⟨fun _ _ hsplit => hsplit.first_of_inFlight hd hs, ?_⟩
  cases hres : resolution cfg claimed result with
  | succeeded =>
      rw [hopen (by rw [hres]; exact fun h => by cases h)]
      exact .succeed hs
  | retrying | leaseLost =>
      rw [hopen (by rw [hres]; exact fun h => by cases h)]
      exact .comeBack hs _
  | halted =>
      rw [he, hshut hres]
      refine .fail hs ?_
      rw [← hcount]
      unfold resolution at hres
      split at hres
      · cases hres
      · split at hres
        · next hmax => exact hmax
        · cases hres

/-- A committed expansion brings its rows behind the others. -/
theorem commitExpansion_channel {ceiling : Nat} {src : Expandable} {rows : List Delivery}
    (h : Queued (st.queue id)) (hn : ((commitExpansion st src rows).deliveries.map (·.seq)).Nodup)
    (hord : ∀ r ∈ rows, ∀ d ∈ st.deliveries, d.endpointId = r.endpointId → d.seq < r.seq)
    (hnew : ∀ r ∈ rows, r.IsUntouched) :
    Queued ((commitExpansion st src rows).queue id) ∧
      Channel.Step ceiling (st.channel id) ((commitExpansion st src rows).channel id) := by
  have heq : (commitExpansion st src rows).deliveries = st.deliveries.map (fun d => d) ++ rows := by
    rw [List.map_id']
    cases src <;> rfl
  have hopen : (commitExpansion st src rows).isOpen id = st.isOpen id := by
    unfold Store.isOpen
    rw [commitExpansion_endpoints]
  obtain ⟨new, hmem, hqueue⟩ := @queue_of_rewrite _ _ id _ _ heq hn (fun _ _ => ⟨rfl, rfl⟩) hord
  rw [List.map_id'] at hqueue
  obtain ⟨done, rest, hsplit⟩ := h
  unfold Store.channel
  rw [hqueue, hopen]
  exact hsplit.arrive fun d hd => hnew d (hmem d hd)

theorem WorkerMove.channel (h : WorkerMove cfg s.now s.store w (s.pcs w) l st' pc')
    (hq : Queued (s.store.queue id)) (hk : KeyInv s) (hn' : (st'.deliveries.map (·.seq)).Nodup)
    (hheld : ClaimsHold s) (hkn : KnowsInv s) (hh : HeadInv s) (hord : Ordered s) :
    Queued (st'.queue id) ∧
      Channel.Step cfg.backoff.maxAttempts (s.store.channel id) (st'.channel id) := by
  have ht := hk.tables
  have hkw := hk.worker w
  generalize hpc : s.pcs w = pc at h hkw
  cases h with
  | claim hc =>
      obtain ⟨-, -, rfl⟩ := claimEndpoint_some hc
      exact channel_of_eq hq rfl
  | close hc => exact channel_of_eq hq (closeOrphans_endpoints hc).2.1
  | @requeue c =>
      refine channel_of_update hq ht.deliverySeqs rfl (fun d => ⟨rfl, rfl⟩) fun d hd hp => ?_
      have hs : d.state = .inFlight := by
        simp only [Delivery.isInFlightOn, Bool.and_eq_true, decide_eq_true_eq] at hp
        exact hp.2
      exact ⟨fun _ _ hsplit => hsplit.first_of_inFlight hd hs, .comeBack hs d.nextAttemptAt⟩
  | @mark c head n attemptId =>
      refine channel_of_update hq ht.deliverySeqs rfl (fun d => ⟨rfl, rfl⟩) fun d hd hp => ?_
      obtain ⟨hmem, rfl⟩ := mem_queue.mp hd
      have hid : d.id = head.id := of_decide_eq_true hp
      have he := hkw.1.endpointId_eq ht.deliveryIds hmem hid
      obtain ⟨hs, hcount, -⟩ := hkn.claim hheld hmem hpc he hid.symm
      have hlow : Lowest s.store d.endpointId d.id := by
        rw [he, hid]
        exact hh w c _ head hpc rfl (hheld w c _ hpc)
      rw [hcount]
      exact ⟨fun _ _ hsplit => hlow.first ht.deliverySeqs hd (by rw [hs]; rfl) hsplit, .mark hs⟩
  | @complete _ claimed result random fault hpc' =>
      obtain hc | ⟨-, hc⟩ | ⟨hl, -, hc⟩ :=
        completeDelivery_cases cfg s.now s.store claimed result random fault <;> rw [hc]
      · exact channel_of_eq hq rfl
      · exact channel_of_eq hq rfl
      · refine writeBack_channel hq ht fun d hd hid => ?_
        have he := (hkw.complete hpc').1.endpointId_eq ht.deliveryIds hd hid
        obtain ⟨hs, hcount, -⟩ := hkn.holder hd (hpc ▸ hpc') he hid.symm (holds_of_currentLease hl)
        exact ⟨he, hs, hcount⟩
  | @commit src rows =>
      have hrows : (s.pcs w).rows = rows := by rw [hpc]; rfl
      exact commitExpansion_channel hq hn' (fun r hr => hord w r (hrows ▸ hr)) fun d hd =>
        (hk.rows w).pending d (hrows ▸ hd)
  | _ => exact channel_of_eq hq rfl

/-- Every step of the system is a step of each endpoint's channel. -/
theorem step_channel (hq : Queued (s.store.queue id)) (hl : LeaseInv cfg s) (hk : KeyInv s)
    (hheld : ClaimsHold s) (hkn : KnowsInv s) (hh : HeadInv s) (hord : Ordered s)
    (h : step cfg s l = some s') :
    Queued (s'.store.queue id) ∧
      Channel.Step cfg.backoff.maxAttempts (s.store.channel id) (s'.store.channel id) := by
  have hn' := (hk.step hl.ids h).tables.deliverySeqs
  cases step_move h with
  | tick _ _ _ store => exact channel_of_eq hq (by rw [store])
  | api _ _ _ h => exact channel_of_eq hq h.deliveries
  | worker w _ _ h => exact h.channel hq hk hn' hheld hkn hh hord

theorem queued_init (tenants : List Tenant) : Queued ((Sys.init tenants).store.queue id) :=
  ⟨[], [], ⟨rfl, fun _ h => (by cases h), fun _ h => (by cases h), fun _ h => (by cases h)⟩⟩

variable {p : Sys → Label → Prop} [DecidableRel p] {tenants : List Tenant}

/-- A timely step with ordered expansions. -/
theorem step_channel_of_reachable (hp : ∀ s l, p s l → Timely cfg s l)
    (hord : ∀ s₁, Reachable (restrict p (step cfg)) (.init tenants) s₁ → Ordered s₁)
    (h : Reachable (restrict p (step cfg)) (.init tenants) s) (hq : Queued (s.store.queue id))
    (hs : restrict p (step cfg) s l = some s') :
    Queued (s'.store.queue id) ∧
      Channel.Step cfg.backoff.maxAttempts (s.store.channel id) (s'.store.channel id) :=
  step_channel hq (leaseInv_of_reachable h.of_restrict) (keyInv_of_reachable h.of_restrict)
    (claimsHold_of_timely hp h) (knows_of_reachable hp h)
    (headInv_of_reachable (fun _ hr l _ => fenced_of_timely hp hr ClaimStep.isMark l) hord h) (hord s h)
    (restrict_eq_some.mp hs).2

theorem queued_of_reachable (hp : ∀ s l, p s l → Timely cfg s l)
    (hord : ∀ s₁, Reachable (restrict p (step cfg)) (.init tenants) s₁ → Ordered s₁)
    (h : Reachable (restrict p (step cfg)) (.init tenants) s) : Queued (s.store.queue id) :=
  h.inv (I := fun s => Queued (s.store.queue id)) (queued_init tenants) fun _ _ _ hr hi hs =>
    (step_channel_of_reachable hp hord hr hi hs).1

/-- A run of the system is one of each endpoint's channel. -/
theorem steps_of_reachable (hp : ∀ s l, p s l → Timely cfg s l)
    (hord : ∀ s₁, Reachable (restrict p (step cfg)) (.init tenants) s₁ → Ordered s₁)
    (h : Reachable (restrict p (step cfg)) (.init tenants) s) (h' : Reachable (restrict p (step cfg)) s s') :
    Channel.Steps cfg.backoff.maxAttempts (s.store.channel id) (s'.store.channel id) := by
  have hrefl : Channel.Steps cfg.backoff.maxAttempts (s.store.channel id) (s.store.channel id) :=
    Relation.ReflTransGen.refl
  refine h'.inv (I := fun s₁ => Channel.Steps cfg.backoff.maxAttempts _ (s₁.store.channel id)) hrefl
    fun s₁ _ _ hr hi hs => ?_
  have hr : Reachable (restrict p (step cfg)) (.init tenants) s₁ := h.trans hr
  exact Relation.ReflTransGen.tail hi
    (step_channel_of_reachable hp hord hr (queued_of_reachable hp hord hr) hs).2

end

end Webhooks
