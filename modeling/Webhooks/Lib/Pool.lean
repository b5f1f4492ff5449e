import Webhooks.Lib.Run

/-!
# Lib — Pool

A pool of connections kept open between requests.  A request for a key is given an idle connection of
the key, the last one put back, or it waits while one is dialed for it.  A connection that becomes free
goes to the first request waiting for its key; so a dial may be overtaken, and its connection then goes
to another request.

* `Spec`: what requests are, and where a connection dialed for one leads.
* `step`: asking, dialing, giving back.  `served` is the history: which request had which connection.
* `reused`: the connection a step gives to a request it was not dialed for.
* **`served_leads_iff`**: after a step every request had a connection to where its own dial would have led,
  exactly when this was so before and a reused connection led there too.
-/

namespace Lib.Pool

variable {ρ κ β : Type*}

/-- Requests `ρ` ask for a key `κ`; a connection dialed for one leads to a `β`, when the dial succeeds. -/
structure Spec (ρ κ β : Type*) where
  key : ρ → κ
  dial : ρ → Option β

structure Conn (ρ β : Type*) where
  dialedFor : ρ
  remote : β
  deriving DecidableEq, Repr

structure State (ρ β : Type*) where
  /-- The first one was put back last. -/
  idle : List (Conn ρ β)
  /-- The first one has waited longest. -/
  waiting : List ρ
  dials : List ρ
  busy : List (ρ × Conn ρ β)
  served : List (ρ × Conn ρ β)

def init : State ρ β := ⟨[], [], [], [], []⟩

/-- `keep`: a connection that is free is not closed. -/
inductive Label (ρ : Type*) where
  | ask (r : ρ)
  | startDial (r : ρ)
  | dialed (r : ρ) (keep : Bool)
  | dialFailed (r : ρ)
  | finish (i : Nat) (keep : Bool)
  | giveUp (r : ρ)
  | closeIdle (i : Nat)
  deriving DecidableEq, Repr

def State.serve (s : State ρ β) (r : ρ) (conn : Conn ρ β) : State ρ β :=
  { s with busy := s.busy ++ [(r, conn)], served := s.served ++ [(r, conn)] }

section

variable (S : Spec ρ κ β)

/-- The connection leads where its dial did. -/
def Conn.Made (conn : Conn ρ β) : Prop := S.dial conn.dialedFor = some conn.remote

/-- The request's own dial would have led where the connection does. -/
def Leads (w : ρ × Conn ρ β) : Prop := S.dial w.1 = some w.2.remote

structure Inv (s : State ρ β) : Prop where
  idle : ∀ conn ∈ s.idle, conn.Made S
  busy : ∀ w ∈ s.busy, w.2.Made S

variable {S} {s s' : State ρ β} {l : Label ρ} {conn : Conn ρ β} {keep : Bool} {r : ρ}

theorem Inv.init : Inv S (init : State ρ β) := ⟨nofun, nofun⟩

theorem Inv.serve (h : Inv S s) (hconn : conn.Made S) : Inv S (s.serve r conn) where
  idle := h.idle
  busy := by
    intro w hw
    rcases List.mem_append.mp hw with hw | hw
    · exact h.busy w hw
    · rw [List.mem_singleton.mp hw]
      exact hconn

variable (S) [DecidableEq κ]

/-- The connection is one for this key. -/
def Conn.isFor (k : κ) (conn : Conn ρ β) : Bool := S.key conn.dialedFor = k

/-- The request a free connection goes to. -/
def firstWaiting (s : State ρ β) (conn : Conn ρ β) : Option ρ :=
  s.waiting.find? fun r => S.key r = S.key conn.dialedFor

/-- The request a free connection is given to, with it. -/
def passedOn (s : State ρ β) (conn : Conn ρ β) (keep : Bool) : Option (ρ × Conn ρ β) :=
  if keep then (firstWaiting S s conn).map fun r => (r, conn) else none

variable {S} in
theorem passedOn_made (hconn : conn.Made S) {w : ρ × Conn ρ β}
    (hw : passedOn S s conn keep = some w) : w.2.Made S := by
  obtain ⟨-, hw⟩ := Option.ite_none_right_eq_some.mp hw
  obtain ⟨r, -, rfl⟩ := Option.map_eq_some_iff.mp hw
  exact hconn

variable [DecidableEq ρ]

/-- A connection is free. -/
def release (s : State ρ β) (conn : Conn ρ β) (keep : Bool) : State ρ β :=
  if keep then
    match firstWaiting S s conn with
    | some r => { s with waiting := s.waiting.erase r }.serve r conn
    | none => { s with idle := conn :: s.idle }
  else s

def step (s : State ρ β) : Label ρ → Option (State ρ β)
  | .ask r =>
      match s.idle.find? (Conn.isFor S (S.key r)) with
      | some conn => some ({ s with idle := s.idle.eraseP (Conn.isFor S (S.key r)) }.serve r conn)
      | none => some { s with waiting := s.waiting ++ [r] }
  | .startDial r =>
      if r ∈ s.waiting ∧ r ∉ s.dials then some { s with dials := s.dials ++ [r] } else none
  | .dialed r keep =>
      if r ∈ s.dials then
        (S.dial r).map fun remote =>
          let s := { s with dials := s.dials.erase r }
          if r ∈ s.waiting then { s with waiting := s.waiting.erase r }.serve r ⟨r, remote⟩
          else release S s ⟨r, remote⟩ keep
      else none
  | .dialFailed r =>
      if r ∈ s.dials then
        some { s with dials := s.dials.erase r, waiting := s.waiting.erase r }
      else none
  | .finish i keep =>
      s.busy[i]?.map fun x => release S { s with busy := s.busy.eraseIdx i } x.2 keep
  | .giveUp r => if r ∈ s.waiting then some { s with waiting := s.waiting.erase r } else none
  | .closeIdle i => if i < s.idle.length then some { s with idle := s.idle.eraseIdx i } else none

/-- What a step gives to a request it was not dialed for. -/
def reused (s : State ρ β) : Label ρ → Option (ρ × Conn ρ β)
  | .ask r => (s.idle.find? (Conn.isFor S (S.key r))).map fun conn => (r, conn)
  | .dialed r keep =>
      if r ∈ s.waiting then none
      else (S.dial r).bind fun remote => passedOn S s ⟨r, remote⟩ keep
  | .finish i keep => s.busy[i]?.bind fun x => passedOn S s x.2 keep
  | _ => none

variable {S}

theorem Inv.release (h : Inv S s) (hconn : conn.Made S) : Inv S (release S s conn keep) := by
  unfold Pool.release
  split
  · split
    · exact Inv.serve ⟨h.idle, h.busy⟩ hconn
    · refine ⟨fun c hc => ?_, h.busy⟩
      rcases List.mem_cons.mp hc with rfl | hc
      · exact hconn
      · exact h.idle c hc
  · exact h

/-- Every connection of the pool leads where its dial did. -/
theorem Inv.step (h : Inv S s) (hs : step S s l = some s') : Inv S s' := by
  cases l with
  | ask r =>
      simp only [Pool.step] at hs
      split at hs
      · next conn hfind =>
          cases hs
          exact Inv.serve ⟨fun c hc => h.idle c (List.mem_of_mem_eraseP hc), h.busy⟩
            (h.idle conn (List.mem_of_find?_eq_some hfind))
      · cases hs
        exact ⟨h.idle, h.busy⟩
  | startDial r =>
      obtain ⟨-, hs⟩ := Option.ite_none_right_eq_some.mp hs
      cases hs
      exact ⟨h.idle, h.busy⟩
  | dialed r keep =>
      obtain ⟨-, hs⟩ := Option.ite_none_right_eq_some.mp hs
      obtain ⟨remote, hremote, rfl⟩ := Option.map_eq_some_iff.mp hs
      dsimp only
      split
      · exact Inv.serve ⟨h.idle, h.busy⟩ hremote
      · exact Inv.release ⟨h.idle, h.busy⟩ hremote
  | dialFailed r =>
      obtain ⟨-, hs⟩ := Option.ite_none_right_eq_some.mp hs
      cases hs
      exact ⟨h.idle, h.busy⟩
  | finish i keep =>
      obtain ⟨x, hx, rfl⟩ := Option.map_eq_some_iff.mp hs
      exact Inv.release ⟨h.idle, fun w hw => h.busy w (List.mem_of_mem_eraseIdx hw)⟩
        (h.busy x (List.mem_of_getElem? hx))
  | giveUp r =>
      obtain ⟨-, hs⟩ := Option.ite_none_right_eq_some.mp hs
      cases hs
      exact ⟨h.idle, h.busy⟩
  | closeIdle i =>
      obtain ⟨-, hs⟩ := Option.ite_none_right_eq_some.mp hs
      cases hs
      exact ⟨fun c hc => h.idle c (List.mem_of_mem_eraseIdx hc), h.busy⟩

theorem release_served :
    (release S s conn keep).served = s.served ++ (passedOn S s conn keep).toList := by
  unfold release passedOn
  split
  · split
    · next r hr =>
        rw [hr]
        rfl
    · next hnone =>
        rw [hnone]
        exact (List.append_nil _).symm
  · exact (List.append_nil _).symm

/-- A step gives one request a connection dialed for it, or what is reused. -/
theorem step_served (hs : step S s l = some s') :
    s'.served = s.served ++ (reused S s l).toList ∨
      reused S s l = none ∧ ∃ r remote, S.dial r = some remote ∧ s'.served = s.served ++ [(r, ⟨r, remote⟩)] := by
  cases l with
  | ask r =>
      left
      simp only [step] at hs
      split at hs
      · next conn hfind =>
          cases hs
          simp only [reused, hfind]
          rfl
      · next hnone =>
          cases hs
          simp only [reused, hnone]
          exact (List.append_nil _).symm
  | dialed r keep =>
      obtain ⟨-, hs⟩ := Option.ite_none_right_eq_some.mp hs
      obtain ⟨remote, hremote, rfl⟩ := Option.map_eq_some_iff.mp hs
      by_cases hr : r ∈ s.waiting
      · right
        simp only [reused, if_pos hr]
        exact ⟨trivial, r, remote, hremote, rfl⟩
      · left
        simp only [reused, if_neg hr, hremote]
        exact release_served
  | finish i keep =>
      left
      obtain ⟨x, hx, rfl⟩ := Option.map_eq_some_iff.mp hs
      simp only [reused, hx]
      exact release_served
  | startDial r | dialFailed r | giveUp r | closeIdle i =>
      left
      obtain ⟨-, hs⟩ := Option.ite_none_right_eq_some.mp hs
      cases hs
      exact (List.append_nil _).symm

theorem Inv.reused (h : Inv S s) {w : ρ × Conn ρ β} (hw : reused S s l = some w) : w.2.Made S := by
  cases l with
  | ask r =>
      obtain ⟨conn, hfind, rfl⟩ := Option.map_eq_some_iff.mp hw
      exact h.idle conn (List.mem_of_find?_eq_some hfind)
  | dialed r keep =>
      obtain ⟨-, hw⟩ := Option.ite_none_left_eq_some.mp hw
      obtain ⟨remote, hremote, hw⟩ := Option.bind_eq_some_iff.mp hw
      have hmade : Conn.Made S ⟨r, remote⟩ := hremote
      exact passedOn_made hmade hw
  | finish i keep =>
      obtain ⟨x, hx, hw⟩ := Option.bind_eq_some_iff.mp hw
      exact passedOn_made (h.busy x (List.mem_of_getElem? hx)) hw
  | startDial r | dialFailed r | giveUp r | closeIdle i => cases hw

/-- The reused connection leads where the request's own dial would. -/
def SameDial (S : Spec ρ κ β) (s : State ρ β) (l : Label ρ) : Prop :=
  ∀ w, Pool.reused S s l = some w → S.dial w.2.dialedFor = S.dial w.1

theorem served_leads_iff (h : Inv S s) (hs : step S s l = some s') :
    (∀ w ∈ s'.served, Leads S w) ↔ (∀ w ∈ s.served, Leads S w) ∧ SameDial S s l := by
  rcases step_served hs with heq | ⟨hnone, r, remote, hremote, heq⟩
  · rw [heq, List.forall_mem_append]
    refine and_congr_right fun _ => ?_
    constructor
    · intro hleads w hw
      have hmade : w.2.Made S := h.reused hw
      have hw' : Leads S w := hleads w (by rw [hw]; exact List.mem_singleton_self w)
      exact hmade.trans hw'.symm
    · intro hsame w hw
      have hw' : Pool.reused S s l = some w := Option.mem_toList.mp hw
      exact (hsame w hw').symm.trans (h.reused hw')
  · rw [heq, List.forall_mem_append]
    refine and_congr_right fun _ => ⟨fun _ w hw => ?_, fun _ w hw => ?_⟩
    · rw [hnone] at hw
      cases hw
    · rw [List.mem_singleton.mp hw]
      exact hremote

end

end Lib.Pool
