import Webhooks.Lib.Pool
import Webhooks.Worker.Pinning

/-!
# Worker — Transport

The delivery cycles of a Go worker and the transport they share (`RunDeliveryCycle`,
`SendOutboundRequest`, `NewTransport`).  A cycle resolves and pins its URL's host once, and its request
carries the pinned IP in its context; `DialContext` dials the pinned IP.  The transport is `net/http`'s:
it keeps connections open under scheme, host and port, and dials only when none of the key is idle.

* `dialContext`: where a dial goes.
* `Workers.step`: the steps of all cycles, in any order.
* `dial_eq`: the dial made for a request leads to its pinned IP.
-/

namespace Webhooks.Go

open Lib Lib.Inet

/-- What a cycle reads of its parsed URL; a port left out is empty. -/
structure TargetUrl where
  scheme : List Char
  hostname : List Char
  port : List Char
  deriving DecidableEq, Repr

/-- What connections are kept under. -/
structure ConnKey where
  scheme : List Char
  host : List Char
  port : List Char
  deriving DecidableEq, Repr

/-- What `net/http` and the dialer do to names: the ASCII form of a host name, and its lookup. -/
structure Names where
  idnaASCII : List Char → List Char
  lookup : List Char → Option Address

def portMap (scheme : List Char) : List Char :=
  if scheme = "http".toList then "80".toList
  else if scheme = "https".toList then "443".toList
  else []

/-- The scheme, and `canonicalAddr`. -/
def TargetUrl.key (names : Names) (u : TargetUrl) : ConnKey where
  scheme := u.scheme
  host := names.idnaASCII u.hostname
  port := if u.port = [] then portMap u.scheme else u.port

/-- A request of a cycle; `pinnedIP` is what its context carries, and what `ResolveAndPin` returns is an
IP. -/
structure OutboundRequest where
  cycle : Nat
  key : ConnKey
  pinnedIP : List Char
  isIP : (parseIP pinnedIP).isSome
  deriving DecidableEq

/-- The host `DialContext` has the dialer connect to. -/
def dialContext (pinnedIP host : List Char) : List Char := if pinnedIP = [] then host else pinnedIP

/-- `dialer.DialContext`: a literal is an address, a name is looked up. -/
def Names.dialer (names : Names) (host : List Char) : Option Address :=
  match parseIP host with
  | some a => some a
  | none => names.lookup host

def transportSpec (names : Names) : Pool.Spec OutboundRequest ConnKey Address where
  key := OutboundRequest.key
  dial r := names.dialer (dialContext r.pinnedIP r.key.host)

abbrev Transport := Pool.State OutboundRequest Address

structure Workers where
  /-- How many cycles there were. -/
  cycles : Nat
  /-- Requests that are made and have not asked for a connection. -/
  pinned : List OutboundRequest
  transport : Transport

theorem parseIP_ipString (a : Address) : (parseIP (ipString a)).isSome := by
  unfold ipString
  cases h : to4 a with
  | some b =>
      have hparse : parse4 (text4 b) = some b := parse4_eq_some_iff.mpr rfl
      simp [parseIP, hparse]
  | none =>
      cases a with
      | v4 b => cases h
      | v6 x => simp [parseIP, Address.text, parse4_text6, parse6_text6]

theorem isSome_of_resolveAndPin {hostname ip : List Char} {resolver : List Char → Option (List Address)}
    (h : resolveAndPin hostname resolver = .allowed ip) : (parseIP ip).isSome := by
  unfold resolveAndPin at h
  split at h
  · next a ha =>
      obtain ⟨-, rfl⟩ := UrlValidation.pin_eq_allowed_iff.mp h
      rw [ha]
      rfl
  · obtain ⟨first, -, -, rfl, -⟩ := pinAnswer_eq_allowed_iff.mp h
    exact parseIP_ipString first

def Workers.init : Workers := ⟨0, [], Pool.init⟩

/-- `resolve` is a cycle's `url.Parse` and `ResolveAndPin`; `u` is `none` when the stored URL does not parse, and
`answer` is what the resolver answers, when it is asked. -/
inductive WorkersLabel where
  | resolve (u : Option TargetUrl) (answer : Option (List Address))
  | transport (l : Pool.Label OutboundRequest)

/-- A request asks for a connection once. -/
def Workers.step (names : Names) (s : Workers) : WorkersLabel → Option Workers
  | .resolve none _ => some { s with cycles := s.cycles + 1 }
  | .resolve (some u) answer =>
      match h : resolveAndPin u.hostname fun _ => answer with
      | .rejected _ => some { s with cycles := s.cycles + 1 }
      | .allowed ip =>
          let r : OutboundRequest := ⟨s.cycles, u.key names, ip, isSome_of_resolveAndPin h⟩
          some { s with cycles := s.cycles + 1, pinned := r :: s.pinned }
  | .transport (.ask r) =>
      if r ∈ s.pinned then
        (Pool.step (transportSpec names) s.transport (.ask r)).map fun transport =>
          { s with pinned := s.pinned.erase r, transport := transport }
      else none
  | .transport l =>
      (Pool.step (transportSpec names) s.transport l).map fun transport =>
        { s with transport := transport }

/-- A dial made for a request goes to the pinned IP. -/
theorem dial_eq (names : Names) (r : OutboundRequest) :
    (transportSpec names).dial r = parseIP r.pinnedIP := by
  obtain ⟨a, ha⟩ := Option.isSome_iff_exists.mp r.isIP
  have hne : r.pinnedIP ≠ [] := by
    intro h
    have hsome := r.isIP
    rw [h] at hsome
    exact absurd hsome (by decide)
  show names.dialer (dialContext r.pinnedIP r.key.host) = _
  rw [dialContext, if_neg hne, Names.dialer, ha]

end Webhooks.Go
