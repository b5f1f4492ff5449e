import Webhooks.Validation.Denylist
import Webhooks.Worker.Pinning

/-!
# Properties — Ssrf

What a delivery can be sent to (ADR-0006): the address that is pinned is one of those that were
checked, and none of those is internal.

* `Address.Internal`: the list of ADR-0006, and `::`.
* `NoneMissed`: when nothing internal gets past the checks.  Neither stack denies `::`, and Node
  denies `::1` and an IPv4-mapped address in one spelling only.
* **`pins_safely`**: a host name is resolved and pinned safely exactly then.
* `unspecified_pinned`: an answer of `::`.
-/

namespace Webhooks

open Lib Lib.Inet

/-- Loopback, unspecified, private, link-local, shared, or IPv4-mapped of any of these. -/
def Address.Internal (a : Address) : Prop := a.Listed ∨ a = .v6 0

/-- What is pinned is one of these texts, and none of the addresses is internal. -/
def PinsSafely (texts : List (List Char)) (addresses : List Address) (r : ResolveAndPinResult) : Prop :=
  ∀ ip, r = .allowed ip → ip ∈ texts ∧ ∀ a ∈ addresses, ¬ a.Internal

/-- An answer with `::` has an address that is denied. -/
def AnswerCaught (check : Address → UrlValidation) (answer : List Address) : Prop :=
  .v6 0 ∈ answer → ∃ a ∈ answer, (check a).allowed = false

/-- The result for a literal, or for what its name resolves to, is safe. -/
def SafeFor (text : Address → List Char) (literal : Option Address) (hostname : List Char)
    (answer : Option (List Address)) (r : ResolveAndPinResult) : Prop :=
  match literal with
  | some a => PinsSafely [hostname] [a] r
  | none => PinsSafely ((answer.getD []).map text) (answer.getD []) r

/-- What Node misses of the literals: `::`, and other spellings than the canonical one of `::1` and of
the IPv4-mapped addresses of the list. -/
def Node.LiteralCaught (hostname : List Char) (a : Address) : Prop :=
  a ≠ .v6 0 ∧ ∀ x, a = .v6 x → (x = 1 ∨ ∃ b, x = mapped b ∧ ListedV4 b) →
    hostname.map Char.toLower = text6 x

def Node.NoneMissed (hostname : List Char) (answer : Option (List Address)) : Prop :=
  match literal hostname with
  | some a => LiteralCaught hostname a
  | none => AnswerCaught (fun a => checkAddress a.text) (answer.getD [])

def Go.NoneMissed (hostname : List Char) (answer : Option (List Address)) : Prop :=
  match parseIP hostname with
  | some a => a ≠ .v6 0
  | none => AnswerCaught checkAddress (answer.getD [])

section

variable {a : Ipv4} {x : Ipv6} {s hostname : List Char} {answer : Option (List Address)}

/-! ### What Node denies -/

theorem startsDenied_of_zero (h : parse6 (Node.withoutZone s) = some x) (hx : x.toNat / 2 ^ 112 = 0) :
    startsDenied (s.map Char.toLower) = false := by
  rw [← Bool.not_eq_true, startsDenied_iff h, hx]
  exact fun hz => absurd hz.1 (by decide)

theorem Node.not_denies_zero (h : parse6 (withoutZone s) = some 0) : ¬ Denies s (.v6 0) := by
  rintro (hone | hstart | ⟨a, ha, -⟩)
  · exact absurd (eq_one_of_lower h hone) (by decide)
  · rw [startsDenied_of_zero h rfl] at hstart
    cases hstart
  · exact ne_mapped (by decide) ha

theorem Node.denies_one_iff (h : parse6 (withoutZone s) = some 1) :
    Denies s (.v6 1) ↔ s.map Char.toLower = text6 1 := by
  constructor
  · rintro (hone | hstart | ⟨a, ha, -⟩)
    · exact hone
    · rw [startsDenied_of_zero h rfl] at hstart
      cases hstart
    · exact absurd ha (ne_mapped (by decide))
  · exact .inl

theorem Node.denies_mapped_iff (h : parse6 (withoutZone s) = some (mapped a)) (ha : ListedV4 a) :
    Denies s (.v6 (mapped a)) ↔ s.map Char.toLower = text6 (mapped a) := by
  have hzero : (mapped a).toNat / 2 ^ 112 = 0 := by
    have hlt := a.isLt
    rw [toNat_mapped]
    omega
  rw [text6_mapped]
  constructor
  · rintro (hone | hstart | ⟨b, hb, -, hs⟩)
    · exact absurd (eq_one_of_lower h hone).symm (ne_mapped (by decide))
    · rw [startsDenied_of_zero h hzero] at hstart
      cases hstart
    · rw [hs, mapped_inj.mp hb]
  · exact fun hs => .inr (.inr ⟨a, rfl, ha, hs⟩)

/-- A literal that is internal is denied exactly when it is caught. -/
theorem Node.denies_iff {a : Address} (h : literal s = some a) :
    (a.Internal → Denies s a) ↔ LiteralCaught s a := by
  cases a with
  | v4 a => simp [Address.Internal, Address.Listed, Denies, LiteralCaught]
  | v6 x =>
      obtain ⟨-, hx⟩ := literal_v6_iff.mp h
      constructor
      · intro hdenies
        refine ⟨?_, ?_⟩
        · rintro heq
          cases heq
          exact not_denies_zero hx (hdenies (.inr rfl))
        · rintro y heq (hone | ⟨b, hb, hlisted⟩)
          · cases heq
            subst hone
            exact (denies_one_iff hx).mp (hdenies (.inl (.inl rfl)))
          · cases heq
            subst hb
            exact (denies_mapped_iff hx hlisted).mp (hdenies (.inl (.inr (.inr ⟨b, rfl, hlisted⟩))))
      · rintro ⟨hzero, hcaught⟩ ((hone | hlocal | ⟨b, hb, hlisted⟩) | heq)
        · have hs := hcaught x rfl (.inl hone)
          subst hone
          exact (denies_one_iff hx).mpr hs
        · exact .inr (.inl (startsDenied_of_local hx hlocal))
        · have hs := hcaught x rfl (.inr ⟨b, hb, hlisted⟩)
          subst hb
          exact (denies_mapped_iff hx hlisted).mpr hs
        · exact absurd heq hzero

theorem not_listed_zero : ¬ (Address.v6 0).Listed := by
  rintro (hone | hlocal | ⟨b, hb, -⟩)
  · exact absurd hone (by decide)
  · exact absurd hlocal (by decide)
  · exact ne_mapped (by decide) hb

/-- In its canonical text an address of the list is denied, and `::` is not. -/
theorem Node.checkAddress_text {a : Address} (ha : a.Internal) :
    (checkAddress a.text).allowed = false ↔ a ≠ .v6 0 := by
  rw [checkAddress_denied_iff (literal_text a)]
  constructor
  · rintro hdenies rfl
    exact not_denies_zero (literal_v6_iff.mp (literal_text (.v6 0))).2 hdenies
  · intro hne
    refine (denies_iff (literal_text a)).mpr ⟨hne, ?_⟩ ha
    rintro x rfl -
    exact map_toLower_text6

/-! ### What is pinned -/

/-- A check that denies `a` in an answer keeps it from being pinned beside `a`. -/
theorem pinsSafely_answer_iff {check : Address → UrlValidation} {text : Address → List Char}
    (hcheck : ∀ a, a.Internal → ((check a).allowed = false ↔ a ≠ .v6 0)) :
    PinsSafely ((answer.getD []).map text) (answer.getD []) (pinAnswer check text answer) ↔
      AnswerCaught check (answer.getD []) := by
  constructor
  · intro hsafe hzero
    by_contra hnone
    have hall : ∀ a ∈ answer.getD [], (check a).allowed = true := fun a ha => by
      rw [← Bool.not_eq_false]
      exact fun hfalse => hnone ⟨a, ha, hfalse⟩
    match answer with
    | none | some [] => simp at hzero
    | some (first :: rest) =>
        have hpin : pinAnswer check text (some (first :: rest)) = .allowed (text first) :=
          pinAnswer_eq_allowed_iff.mpr ⟨first, rest, rfl, rfl, hall⟩
        exact (hsafe _ hpin).2 _ hzero (.inr rfl)
  · intro hcaught ip hip
    obtain ⟨first, rest, rfl, rfl, hall⟩ := pinAnswer_eq_allowed_iff.mp hip
    refine ⟨by simp, fun a ha hinternal => ?_⟩
    have hzero : a = .v6 0 := by
      by_contra hne
      have hdenied := (hcheck a hinternal).mpr hne
      rw [hall a ha] at hdenied
      cases hdenied
    obtain ⟨b, hb, hdenied⟩ := hcaught (hzero ▸ ha)
    rw [hall b hb] at hdenied
    cases hdenied

theorem pinsSafely_literal_iff {a : Address} {result : UrlValidation} :
    PinsSafely [hostname] [a] (result.pin hostname) ↔ (a.Internal → result.allowed = false) := by
  simp only [PinsSafely, UrlValidation.pin_eq_allowed_iff, List.mem_singleton, forall_eq]
  constructor
  · intro h ha
    rw [← Bool.not_eq_true]
    exact fun htrue => (h hostname ⟨htrue, rfl⟩).2 ha
  · rintro h ip ⟨htrue, rfl⟩
    refine ⟨rfl, fun ha => ?_⟩
    rw [h ha] at htrue
    cases htrue

theorem Go.checkAddress_internal {a : Address} (ha : a.Internal) :
    (checkAddress a).allowed = false ↔ a ≠ .v6 0 := by
  rw [checkAddress_eq, Node.checkAddress_text ha]

/-- **Pinning is safe** exactly when nothing internal is missed by the checks: for any host name and
any answer, in Node and in Go. -/
theorem pins_safely (hostname : List Char) (resolver : List Char → Option (List Address)) :
    (SafeFor Address.text (Node.literal hostname) hostname (resolver hostname)
        (Node.resolveAndPin hostname fun h => (resolver h).map (List.map Address.text)) ↔
      Node.NoneMissed hostname (resolver hostname)) ∧
    (SafeFor Go.ipString (Go.parseIP hostname) hostname (resolver hostname)
        (Go.resolveAndPin hostname resolver) ↔
      Go.NoneMissed hostname (resolver hostname)) := by
  constructor
  · cases hliteral : Node.literal hostname with
    | some a =>
        have hip : Node.isIP hostname ≠ 0 := mt Node.isIP_eq_zero_iff.mp (by simp [hliteral])
        simp only [SafeFor, Node.NoneMissed, Node.resolveAndPin, hliteral, if_pos hip]
        exact pinsSafely_literal_iff.trans
          ((imp_congr_right fun _ => Node.checkAddress_denied_iff hliteral).trans
            (Node.denies_iff hliteral))
    | none =>
        have hip : ¬ Node.isIP hostname ≠ 0 := not_not.mpr (Node.isIP_eq_zero_iff.mpr hliteral)
        simp only [SafeFor, Node.NoneMissed, Node.resolveAndPin, hliteral, if_neg hip, pinAnswer_map]
        exact pinsSafely_answer_iff fun a => Node.checkAddress_text
  · cases hliteral : Go.parseIP hostname with
    | some a =>
        simp only [SafeFor, Go.NoneMissed, Go.resolveAndPin, hliteral]
        refine pinsSafely_literal_iff.trans ⟨?_, fun hne ha => (Go.checkAddress_internal ha).mpr hne⟩
        rintro h rfl
        exact (Go.checkAddress_internal (.inr rfl)).mp (h (.inr rfl)) rfl
    | none =>
        simp only [SafeFor, Go.NoneMissed, Go.resolveAndPin, hliteral]
        exact pinsSafely_answer_iff fun a => Go.checkAddress_internal

end

/-- A name that resolves to `::` is pinned to it. -/
theorem unspecified_pinned :
    ¬ SafeFor Address.text (Node.literal "name".toList) "name".toList (some [.v6 0])
        (Node.resolveAndPin "name".toList fun _ => some ["::".toList]) ∧
      ¬ SafeFor Go.ipString (Go.parseIP "name".toList) "name".toList (some [.v6 0])
        (Go.resolveAndPin "name".toList fun _ => some [.v6 0]) := by
  have hnode : Node.resolveAndPin "name".toList (fun _ => some ["::".toList]) = .allowed "::".toList := by
    decide +kernel
  have hgo : Go.resolveAndPin "name".toList (fun _ => some [.v6 0]) = .allowed "::".toList := by
    decide +kernel
  rw [hnode, hgo, show Node.literal "name".toList = none by decide +kernel,
    show Go.parseIP "name".toList = none by decide +kernel]
  exact ⟨fun h => (h _ rfl).2 (.v6 0) (by simp) (.inr rfl),
    fun h => (h _ rfl).2 (.v6 0) (by simp) (.inr rfl)⟩

end Webhooks
