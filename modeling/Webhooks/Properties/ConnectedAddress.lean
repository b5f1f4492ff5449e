import Webhooks.Worker.Transport

/-!
# Properties — ConnectedAddress

The address that is checked and the address that is connected to (ADR-0006), in a Go worker whose cycles
share one transport.  The pin binds the dial; a connection that is kept open is found by host name.

* `SamePin`: a connection that was dialed for another cycle goes to a request with the same address pinned.
* **`connected_iff_same_pin`**: the runs in which every request has the connection it was pinned to.
* `rebound_run`: a host name whose answer changes while a connection is open.
-/

namespace Webhooks.Go

open Lib Lib.Inet

/-- The remote address of the connection is the IP the request was pinned to. -/
def ConnectedToPin (w : OutboundRequest × Pool.Conn OutboundRequest Address) : Prop :=
  parseIP w.1.pinnedIP = some w.2.remote

instance : DecidablePred ConnectedToPin := fun _ => inferInstanceAs (Decidable (_ = _))

/-- What a step gives to a request of another cycle than the one that dialed it. -/
def Workers.reused (names : Names) (s : Workers) :
    WorkersLabel → Option (OutboundRequest × Pool.Conn OutboundRequest Address)
  | .resolve _ _ => none
  | .transport l => Pool.reused (transportSpec names) s.transport l

/-- The cycle that dialed the connection and the one that reuses it were pinned to one address. -/
def SamePin (names : Names) (s : Workers) (l : WorkersLabel) : Prop :=
  ∀ w ∈ s.reused names l, parseIP w.2.dialedFor.pinnedIP = parseIP w.1.pinnedIP

instance (names : Names) : DecidableRel (SamePin names) := fun s l =>
  inferInstanceAs (Decidable (∀ w ∈ s.reused names l, _))

section

variable {names : Names} {s s' : Workers} {l : WorkersLabel}

/-- A step is one of the transport, or one it has no part in. -/
theorem Workers.step_cases (h : s.step names l = some s') :
    s'.transport = s.transport ∧ s.reused names l = none ∨
      ∃ t, l = .transport t ∧ Pool.step (transportSpec names) s.transport t = some s'.transport := by
  cases l with
  | resolve u answer =>
      left
      refine ⟨?_, rfl⟩
      cases u with
      | none =>
          cases h
          rfl
      | some u =>
          simp only [Workers.step] at h
          split at h <;> cases h <;> rfl
  | transport t =>
      right
      refine ⟨t, rfl, ?_⟩
      cases t with
      | ask r =>
          obtain ⟨-, h⟩ := Option.ite_none_right_eq_some.mp h
          obtain ⟨transport, ht, rfl⟩ := Option.map_eq_some_iff.mp h
          exact ht
      | startDial | dialed | dialFailed | finish | giveUp | closeIdle =>
          obtain ⟨transport, ht, rfl⟩ := Option.map_eq_some_iff.mp h
          exact ht

theorem poolInv_step (hI : Pool.Inv (transportSpec names) s.transport) (h : s.step names l = some s') :
    Pool.Inv (transportSpec names) s'.transport := by
  rcases Workers.step_cases h with ⟨ht, -⟩ | ⟨t, -, ht⟩
  · rw [ht]
    exact hI
  · exact hI.step ht

/-- One step keeps the pins exactly when what it reuses was pinned to the same address. -/
theorem connected_step_iff (hI : Pool.Inv (transportSpec names) s.transport)
    (h : s.step names l = some s') :
    (∀ w ∈ s'.transport.served, ConnectedToPin w) ↔
      (∀ w ∈ s.transport.served, ConnectedToPin w) ∧ SamePin names s l := by
  have hleads : ∀ w, Pool.Leads (transportSpec names) w ↔ ConnectedToPin w := fun w => by
    rw [Pool.Leads, dial_eq]
    rfl
  rcases Workers.step_cases h with ⟨ht, hnone⟩ | ⟨t, rfl, ht⟩
  · rw [ht]
    refine (and_iff_left fun w hw => ?_).symm
    rw [hnone] at hw
    cases hw
  · have hstep := Pool.served_leads_iff hI ht
    simp only [hleads, Pool.SameDial, dial_eq] at hstep
    exact hstep

end

/-- In a run, every request has a connection to the IP it was pinned to exactly when every reused
connection was dialed by a cycle with the same address pinned. -/
theorem connected_iff_same_pin (names : Names) (l : List WorkersLabel) {s : Workers}
    (h : run (Workers.step names) Workers.init l = some s) :
    (∀ w ∈ s.transport.served, ConnectedToPin w) ↔
      run (restrict (SamePin names) (Workers.step names)) Workers.init l = some s := by
  have hiff := run_restrict_iff (p := SamePin names)
    (I := fun s => Pool.Inv (transportSpec names) s.transport)
    (P := fun s => ∀ w ∈ s.transport.served, ConnectedToPin w)
    (fun _ _ _ hI hs => poolInv_step hI hs) (fun _ _ _ hI hs => connected_step_iff hI hs) .init h
  rw [hiff]
  exact and_iff_right nofun

namespace Connected.Sample

def names : Names := ⟨id, fun _ => none⟩

def url : TargetUrl := ⟨"http".toList, "hooks.example".toList, []⟩

/-- What the host resolves to, at first and later. -/
def first : Address := .v4 0x5db8d822

def later : Address := .v4 0x08080808

def request (cycle : Nat) (a : Address) : OutboundRequest :=
  ⟨cycle, url.key names, ipString a, parseIP_ipString a⟩

/-- A cycle whose connection is dialed, and afterwards kept. -/
def dialing : List WorkersLabel :=
  [.resolve (some url) (some [first]), .transport (.ask (request 0 first)),
    .transport (.startDial (request 0 first)), .transport (.dialed (request 0 first) true),
    .transport (.finish 0 true)]

/-- The next cycle for the same host. -/
def next (a : Address) : List WorkersLabel :=
  [.resolve (some url) (some [a]), .transport (.ask (request 1 a))]

end Connected.Sample

open Connected.Sample in
/-- Between two cycles the host's answer changes; the second request goes to the first one's address. -/
theorem rebound_run : ∃ s, run (Workers.step names) Workers.init (dialing ++ next later) = some s ∧
    ∃ w ∈ s.transport.served, w.1 = request 1 later ∧ w.2.remote = .v6 (mapped 0x5db8d822) ∧
      ¬ ConnectedToPin w := by
  obtain ⟨s, hs, h⟩ := exists_of_run (Workers.step names) Workers.init (dialing ++ next later)
    (fun s => s.transport.served.any fun w => decide (w.1 = request 1 later) &&
      decide (w.2.remote = .v6 (mapped 0x5db8d822)) && !decide (ConnectedToPin w)) (by decide +kernel)
  obtain ⟨w, hw, h⟩ := List.any_eq_true.mp h
  simp only [Bool.and_eq_true, decide_eq_true_eq, Bool.not_eq_true', decide_eq_false_iff_not] at h
  exact ⟨s, hs, w, hw, h.1.1, h.1.2, h.2⟩

open Connected.Sample in
theorem connected_iff_same_pin_sample : ∃ s,
    run (Workers.step names) Workers.init (dialing ++ next first) = some s ∧
      s.transport.served.length = 2 ∧ ∀ w ∈ s.transport.served, ConnectedToPin w := by
  obtain ⟨s, hs, hp⟩ := exists_of_run (restrict (SamePin names) (Workers.step names)) Workers.init
    (dialing ++ next first) (fun s => decide (s.transport.served.length = 2)) (by decide +kernel)
  have hrun := run_of_restrict hs
  exact ⟨s, hrun, of_decide_eq_true hp, (connected_iff_same_pin names (dialing ++ next first) hrun).mpr hs⟩

end Webhooks.Go
