import Mathlib.Data.Set.Card
import Webhooks.Api.Search

/-!
# Properties — Selections

When two selections of events page alike in every database.

* `Selection.window`: the instants and identifiers a selection lets through.
* `Selection.Same`: neither shows anything, or their conditions are the same, and so are their limits
  unless the window is too narrow for them to matter.
* `Content.ofEvents`: a database with these events.
* **`Selection.same_iff`**: the pages are the same in every database exactly then.
-/

namespace Webhooks

open Lib
open Node (newestFirst isBefore)

namespace Selection

/-- The conditions on the instant and the identifier of an event let it through. -/
def admitsAt (sel : Selection) (createdAt : Time) (id : Uuid) : Bool :=
  sel.filter.id.all (id = ·) && sel.filter.fromDate.all (fun t => t.compare createdAt ≠ .lt) &&
    sel.filter.toDate.all (fun t => t.compare createdAt ≠ .gt) &&
    sel.cursor.all fun c => isBefore c createdAt id

/-- The instants and identifiers that are let through. -/
def window (sel : Selection) : Set (Time × Uuid) := {x | sel.admitsAt x.1 x.2 = true}

/-- It shows nothing. -/
def Idle (sel : Selection) : Prop := sel.limit = 0 ∨ sel.window = ∅

/-- The conditions are the same, and the limits too, or no more events are let through than either. -/
structure SameRows (a b : Selection) : Prop where
  type : a.filter.type = b.filter.type
  endpointId : a.filter.endpointId = b.filter.endpointId
  window : a.window = b.window
  limit : a.limit = b.limit ∨ (Prod.snd '' a.window).encard ≤ (min a.limit b.limit : ℕ)

/-- Neither shows anything, or they show the same. -/
def Same (a b : Selection) : Prop := a.Idle ∧ b.Idle ∨ a.SameRows b

end Selection

/-! ### A database with given events -/

/-- A key for each event. -/
def keyFor (id : Uuid) : String := .ofList (List.replicate id '0')

theorem keyFor_injective : Function.Injective keyFor := by
  intro u v h
  have hlen := congrArg List.length (congrArg String.toList h)
  simpa only [keyFor, String.toList_ofList, List.length_replicate] using hlen

/-- An event of a type at an instant, and its delivery to an endpoint. -/
def typedEvent (type : String) (x : Time × Uuid) : Event :=
  ⟨x.2, 0, keyFor x.2, type, "\x7b\x7d", .expanded, x.2, x.1⟩

def deliveryTo (endpointId : Uuid) (x : Time × Uuid) : Delivery :=
  ⟨x.2, x.2, endpointId, .succeeded, 1, x.1, x.1, x.2⟩

/-- A database of one tenant and its endpoint, with these events delivered to it. -/
def Content.ofEvents (type : String) (endpointId : Uuid) (xs : List (Time × Uuid))
    (hids : (xs.map (·.2)).Nodup) : Content where
  store := { Store.init [⟨0, none⟩] with
    endpoints := [⟨endpointId, 0, "", [], .active, "", none, none, false, none, none, 0⟩]
    events := xs.map (typedEvent type)
    deliveries := xs.map (deliveryTo endpointId) }
  apiKeyHash _ := ""
  tenantIds := List.nodup_singleton _
  apiKeyHashes := List.nodup_singleton _
  endpointIds := List.nodup_singleton _
  eventIds := by rwa [List.map_map]
  idempotencyKeys := by
    have hkeys := hids.map keyFor_injective
    rw [List.map_map] at hkeys ⊢
    refine List.Nodup.of_map Prod.snd ?_
    rwa [List.map_map]
  deliveryIds := by rwa [List.map_map]
  endpointTenants := by simp [Store.init]
  eventTenants := List.forall_mem_map.mpr fun _ _ => List.mem_singleton_self _
  deliveryEvents := List.forall_mem_map.mpr fun x hx => List.mem_map_of_mem (List.mem_map_of_mem hx)
  deliveryEndpoints := List.forall_mem_map.mpr fun _ _ => List.mem_singleton_self _

namespace Selection

section

variable {a b sel : Selection} {db : Content} {tenantId : Uuid} {s : Store} {type : String}
  {endpointId : Uuid} {x : Time × Uuid} {xs : List (Time × Uuid)}

theorem mem_window : x ∈ sel.window ↔ sel.admitsAt x.1 x.2 = true := Iff.rfl

theorem shows_eq (e : Event) : sel.shows tenantId s e = (decide (0 < sel.limit) &&
    (decide (e.tenantId = tenantId) && sel.filter.type.all (e.type = ·) &&
      sel.filter.endpointId.all (fun endpointId =>
        s.deliveries.any fun r => r.eventId = e.id && r.endpointId = endpointId) &&
      sel.admitsAt e.createdAt e.id)) := by
  rw [Bool.eq_iff_iff]
  simp only [shows, EventFilter.admits, admitsAt, Bool.and_eq_true]
  tauto

theorem length_page : (sel.page tenantId s).1.length =
    min sel.limit (s.events.filter (sel.shows tenantId s)).length := by
  rw [page, List.length_map, Paging.length_page, List.length_insertionSort]

/-! ### The same pages -/

theorem shows_of_idle (h : sel.Idle) (e : Event) : sel.shows tenantId s e = false := by
  rw [shows_eq]
  rcases h with hlimit | hwindow
  · rw [hlimit]
    rfl
  · have hnot : sel.admitsAt e.createdAt e.id = false :=
      Bool.eq_false_iff.mpr fun h => (hwindow ▸ h : (e.createdAt, e.id) ∈ (∅ : Set (Time × Uuid)))
    rw [hnot, Bool.and_false, Bool.and_false]

theorem page_of_idle (h : sel.Idle) : sel.page tenantId s = ([], true) := by
  have hnone : s.events.filter (sel.shows tenantId s) = [] :=
    List.filter_eq_nil_iff.mpr fun e _ => Bool.eq_false_iff.mp (shows_of_idle h e)
  rw [page, hnone]
  rfl

theorem SameRows.idle (h : a.SameRows b) (hlimit : a.limit = 0 ∨ b.limit = 0) : a.Idle ∧ b.Idle := by
  rcases h.limit with heq | hnarrow
  · have ha : a.limit = 0 := by omega
    exact ⟨.inl ha, .inl (heq ▸ ha)⟩
  · have hmin : min a.limit b.limit = 0 := by omega
    rw [hmin, Nat.cast_zero, nonpos_iff_eq_zero, Set.encard_eq_zero, Set.image_eq_empty] at hnarrow
    exact ⟨.inr hnarrow, .inr (h.window ▸ hnarrow)⟩

theorem SameRows.shows_eq (h : a.SameRows b) (hlimit : ¬ (a.limit = 0 ∨ b.limit = 0)) (e : Event) :
    a.shows tenantId s e = b.shows tenantId s e := by
  have hadmits : a.admitsAt e.createdAt e.id = b.admitsAt e.createdAt e.id := by
    rw [Bool.eq_iff_iff]
    exact (Set.ext_iff.mp h.window) (e.createdAt, e.id)
  have hpos : decide (0 < a.limit) = decide (0 < b.limit) := by
    rw [decide_eq_decide]
    omega
  rw [Selection.shows_eq, Selection.shows_eq, h.type, h.endpointId, hadmits, hpos]

/-- A window through which few events go, in any database. -/
theorem length_shown_le (tenantId : Uuid) (db : Content) :
    ((db.store.events.filter (sel.shows tenantId db.store)).length : ℕ∞) ≤
      (Prod.snd '' sel.window).encard := by
  have hids : ((db.store.events.filter (sel.shows tenantId db.store)).map (·.id)).Nodup :=
    (List.filter_sublist.map _).nodup db.eventIds
  rw [← List.length_map (f := (·.id)), ← List.toFinset_card_of_nodup hids,
    ← Set.encard_coe_eq_coe_finsetCard]
  refine Set.encard_le_encard fun id hid => ?_
  obtain ⟨e, he, rfl⟩ := List.mem_map.mp (List.mem_toFinset.mp (Finset.mem_coe.mp hid))
  have hshows := (List.mem_filter.mp he).2
  rw [shows_eq] at hshows
  simp only [Bool.and_eq_true] at hshows
  exact ⟨(e.createdAt, e.id), hshows.2.2, rfl⟩

theorem SameRows.page_eq (h : a.SameRows b) : a.page tenantId db.store = b.page tenantId db.store := by
  by_cases hlimit : a.limit = 0 ∨ b.limit = 0
  · obtain ⟨ha, hb⟩ := h.idle hlimit
    rw [page_of_idle ha, page_of_idle hb]
  · have hrows : db.store.events.filter (a.shows tenantId db.store) =
        db.store.events.filter (b.shows tenantId db.store) :=
      List.filter_congr fun e _ => h.shows_eq hlimit e
    rw [page, page, ← hrows]
    rcases h.limit with heq | hnarrow
    · rw [heq]
    · have hle := Nat.cast_le.mp ((length_shown_le tenantId db).trans hnarrow)
      rw [Paging.page_eq_of_length_le (by rwa [List.length_insertionSort])]

/-- Where every event goes through, different limits show. -/
theorem Same.limit_eq (h : a.Same b) (ha : a.window = Set.univ) (hb : b.window = Set.univ)
    (hlimit : b.limit ≠ 0) : a.limit = b.limit := by
  rcases h with ⟨-, hzero | hempty⟩ | hrows
  · exact absurd hzero hlimit
  · exact absurd (hb.symm.trans hempty) Set.univ_nonempty.ne_empty
  · refine hrows.limit.resolve_right fun hle => ?_
    rw [ha, Set.image_univ, Set.range_eq_univ.mpr Prod.snd_surjective,
      Set.infinite_univ.encard_eq] at hle
    exact ENat.natCast_ne_top _ (top_le_iff.mp hle)

/-! ### Different pages -/

/-- An event at this instant with this identifier, of this type and delivered to this endpoint only, is
shown. -/
def accepts (sel : Selection) (type : String) (endpointId : Uuid) (x : Time × Uuid) : Bool :=
  decide (0 < sel.limit) && (sel.filter.type.all (type = ·) && sel.filter.endpointId.all (endpointId = ·) &&
    sel.admitsAt x.1 x.2)

theorem shows_ofEvents (hids : (xs.map (·.2)).Nodup) (hx : x ∈ xs) :
    sel.shows 0 (Content.ofEvents type endpointId xs hids).store (typedEvent type x) =
      sel.accepts type endpointId x := by
  have hdelivered : ∀ id, ((xs.map (deliveryTo endpointId)).any fun r =>
      r.eventId = x.2 && r.endpointId = id) = decide (endpointId = id) := by
    intro id
    rw [Bool.eq_iff_iff, List.any_map, List.any_eq_true]
    simp only [Function.comp_apply, deliveryTo, Bool.and_eq_true]
    exact ⟨fun ⟨_, _, h⟩ => h.2, fun h => ⟨x, hx, decide_eq_true rfl, h⟩⟩
  simp only [shows_eq, accepts, Content.ofEvents, typedEvent, hdelivered, decide_true, Bool.true_and]

theorem length_page_ofEvents (hids : (xs.map (·.2)).Nodup) :
    (sel.page 0 (Content.ofEvents type endpointId xs hids).store).1.length =
      min sel.limit (xs.filter (sel.accepts type endpointId)).length := by
  rw [length_page]
  show min sel.limit ((xs.map (typedEvent type)).filter _).length = _
  rw [List.filter_map, List.length_map]
  refine congrArg (fun l : List (Time × Uuid) => min sel.limit l.length) (List.filter_congr fun x hx => ?_)
  exact shows_ofEvents hids hx

/-- With one event in the database, the page says whether it is shown. -/
theorem accepts_eq_of_page (h : ∀ (db : Content) (tenantId : Uuid),
    tenantId ∈ db.store.tenants.map (·.id) → a.page tenantId db.store = b.page tenantId db.store)
    (type : String) (endpointId : Uuid) (x : Time × Uuid) :
    a.accepts type endpointId x = b.accepts type endpointId x := by
  have hids : ([x].map (·.2)).Nodup := List.nodup_singleton _
  have hpages := congrArg (fun r => r.1.length)
    (h (.ofEvents type endpointId [x] hids) 0 (List.mem_singleton_self _))
  have hlen : ∀ sel : Selection, min sel.limit ([x].filter (sel.accepts type endpointId)).length =
      if sel.accepts type endpointId x then 1 else 0 := by
    intro sel
    cases haccepts : sel.accepts type endpointId x with
    | false => simp [haccepts]
    | true =>
        have hpos : 0 < sel.limit := of_decide_eq_true (Bool.and_eq_true_iff.mp haccepts).1
        rw [List.filter_cons_of_pos haccepts, List.filter_nil, List.length_singleton, if_pos rfl]
        omega
  simp only [length_page_ofEvents, hlen] at hpages
  revert hpages
  cases a.accepts type endpointId x <;> cases b.accepts type endpointId x <;> decide

/-- A condition on one value is known from what it lets through. -/
theorem eq_of_all_eq {α : Type} [DecidableEq α] [Nontrivial α] {o o' : Option α}
    (h : ∀ y, o.all (y = ·) = o'.all (y = ·)) : o = o' := by
  cases o with
  | none =>
      cases o' with
      | none => rfl
      | some z =>
          obtain ⟨y, hy⟩ := exists_ne z
          exact absurd (of_decide_eq_true (h y).symm) hy
  | some w =>
      cases o' with
      | none =>
          obtain ⟨y, hy⟩ := exists_ne w
          exact absurd (of_decide_eq_true (h y)) hy
      | some z => rw [of_decide_eq_true ((h w).symm.trans (decide_eq_true rfl))]

/-- A type and an endpoint that the conditions let through. -/
theorem exists_typed (sel : Selection) : ∃ type endpointId, sel.filter.type.all (type = ·) = true ∧
    sel.filter.endpointId.all (endpointId = ·) = true := by
  have hall : ∀ {α : Type} [DecidableEq α] (default : α) (o : Option α),
      o.all (o.getD default = ·) = true := by
    intro α _ default o
    cases o with
    | none => rfl
    | some y => exact decide_eq_true rfl
  exact ⟨_, _, hall "" sel.filter.type, hall 0 sel.filter.endpointId⟩

/-- Selections that accept the same events, and one of them some, have the same conditions. -/
theorem conditions_eq_of_accepts (h : ∀ type endpointId x,
    a.accepts type endpointId x = b.accepts type endpointId x) (hlimit : a.limit ≠ 0)
    (hx : x ∈ a.window) : a.filter.type = b.filter.type ∧ a.filter.endpointId = b.filter.endpointId ∧
      a.window = b.window ∧ b.limit ≠ 0 := by
  -- an event that `a` shows
  obtain ⟨type, endpointId, htype, hendpoint⟩ := a.exists_typed
  have hpos : decide (0 < a.limit) = true := decide_eq_true (Nat.pos_of_ne_zero hlimit)
  have hadmits : a.admitsAt x.1 x.2 = true := hx
  have hshown := h type endpointId x
  simp only [accepts, hpos, htype, hendpoint, hadmits, Bool.and_self] at hshown
  obtain ⟨hpos', ⟨htype', hendpoint'⟩, hadmits'⟩ : decide (0 < b.limit) = true ∧
      (b.filter.type.all (type = ·) = true ∧ b.filter.endpointId.all (endpointId = ·) = true) ∧
      b.admitsAt x.1 x.2 = true := by simpa only [Bool.and_eq_true] using hshown.symm
  refine ⟨eq_of_all_eq fun y => ?_, eq_of_all_eq fun y => ?_, Set.ext fun y => ?_,
    (of_decide_eq_true hpos').ne'⟩
  · simpa only [accepts, hpos, hpos', hendpoint, hendpoint', hadmits, hadmits', Bool.true_and,
      Bool.and_true] using h y endpointId x
  · simpa only [accepts, hpos, hpos', htype, htype', hadmits, hadmits', Bool.true_and,
      Bool.and_true] using h type y x
  · have hy := h type endpointId y
    simp only [accepts, hpos, hpos', htype, htype', hendpoint, hendpoint', Bool.true_and] at hy
    rw [mem_window, mem_window, hy]

/-- As many events as go through a window, with distinct identifiers. -/
theorem exists_events {n : Nat} (h : (n : ℕ∞) ≤ (Prod.snd '' sel.window).encard) :
    ∃ xs : List (Time × Uuid), xs.length = n ∧ (xs.map (·.2)).Nodup ∧ ∀ x ∈ xs, x ∈ sel.window := by
  obtain ⟨ids, hsub, hcard⟩ := Set.exists_subset_encard_eq h
  have hfinite : ids.Finite := Set.finite_of_encard_eq_coe hcard
  have htime : ∀ id ∈ hfinite.toFinset.toList, ∃ x ∈ sel.window, x.2 = id := fun id hid =>
    hsub (hfinite.mem_toFinset.mp (Finset.mem_toList.mp hid))
  choose! at' hwindow hid using htime
  have hmap : (hfinite.toFinset.toList.map at').map (·.2) = hfinite.toFinset.toList := by
    rw [List.map_map]
    exact (List.map_congr_left hid).trans (List.map_id _)
  refine ⟨hfinite.toFinset.toList.map at', ?_, ?_, ?_⟩
  · rw [List.length_map, Finset.length_toList]
    rw [hfinite.encard_eq_coe_toFinset_card] at hcard
    exact Nat.cast_inj.mp hcard
  · rw [hmap]
    exact Finset.nodup_toList _
  · exact List.forall_mem_map.mpr hwindow

/-- Selections are the same exactly when their pages are, in every database. -/
theorem same_iff : a.Same b ↔ ∀ (db : Content) (tenantId : Uuid),
    tenantId ∈ db.store.tenants.map (·.id) → a.page tenantId db.store = b.page tenantId db.store := by
  constructor
  · rintro (⟨ha, hb⟩ | h) db tenantId -
    · rw [page_of_idle ha, page_of_idle hb]
    · exact h.page_eq
  intro h
  have haccepts := accepts_eq_of_page h
  by_cases ha : a.Idle
  · refine .inl ⟨ha, or_iff_not_imp_left.mpr fun hlimit =>
    Set.eq_empty_iff_forall_notMem.mpr fun x hx => ?_⟩
    -- what `b` shows is shown by `a`
    obtain ⟨-, -, hwindow, hlimit'⟩ :=
      conditions_eq_of_accepts (fun type id x => (haccepts type id x).symm) hlimit hx
    rcases ha with ha | ha
    · exact hlimit' ha
    · rw [← hwindow] at ha
      exact Set.notMem_empty x (ha ▸ hx)
  · obtain ⟨hlimit, hwindow⟩ := not_or.mp ha
    obtain ⟨x, hx⟩ := Set.nonempty_iff_ne_empty.mpr hwindow
    obtain ⟨htype, hendpoint, hwindow, hlimit'⟩ := conditions_eq_of_accepts haccepts hlimit hx
    refine .inr ⟨htype, hendpoint, hwindow, or_iff_not_imp_left.mpr fun hne => ?_⟩
    by_contra hwide
    have hroom : ((min a.limit b.limit + 1 : ℕ) : ℕ∞) ≤ (Prod.snd '' a.window).encard :=
      Order.add_one_le_of_lt (not_le.mp hwide)
    obtain ⟨xs, hlen, hids, hxs⟩ := exists_events hroom
    -- one event more than the smaller page
    obtain ⟨type, endpointId, htyped⟩ := a.exists_typed
    have hall : ∀ x ∈ xs, a.accepts type endpointId x = true := fun x hx => by
      have hadmits : a.admitsAt x.1 x.2 = true := hxs x hx
      simp only [accepts, htyped, hadmits, Bool.and_self, Bool.and_true, decide_eq_true_eq]
      exact Nat.pos_of_ne_zero hlimit
    have hpages := congrArg (fun r => r.1.length)
      (h (.ofEvents type endpointId xs hids) 0 (List.mem_singleton_self _))
    simp only [length_page_ofEvents, ← List.filter_congr fun x _ => haccepts type endpointId x,
      List.filter_eq_self.mpr hall, hlen] at hpages
    omega

end

end Selection

end Webhooks
