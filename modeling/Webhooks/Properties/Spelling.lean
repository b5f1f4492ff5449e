import Webhooks.Properties.Ssrf

/-!
# Properties — Spelling

Node checks the text of a literal and Go what the text spells.

* **`checks_agree`**: on a canonical text they come to the same, and deny the list of ADR-0006.
* `SpellingsAgree`: when two spellings of an address are alike to Node.
* **`same_verdict_iff`**: Node's verdict on both is the same exactly then.
* `loopback_spelled_out`: `::1` in eight groups.
-/

namespace Webhooks

open Lib Lib.Inet

/-- Go's check of an address, and of what it parses of its text, is Node's check of the text; both
deny the list. -/
theorem checks_agree (a : Address) :
    Go.checkAddress a = Node.checkAddress a.text ∧
      (∃ ip, Go.parseIP a.text = some ip ∧ Go.checkAddress ip = Node.checkAddress a.text) ∧
      (a.Listed → (Go.checkAddress a).allowed = false ∧ (Node.checkAddress a.text).allowed = false) := by
  refine ⟨Go.checkAddress_eq a, ?_, fun ha => ?_⟩
  · cases a with
    | v4 a =>
        refine ⟨.v6 (mapped a), ?_, ?_⟩
        · rw [Go.parseIP, Address.text, parse4_eq_some_iff.mpr rfl]
        · rw [← Go.checkAddress_eq, Go.checkAddress, Go.to4, unmapped_eq_some_iff.mpr rfl]
          rfl
    | v6 x =>
        refine ⟨.v6 x, ?_, Go.checkAddress_eq (.v6 x)⟩
        rw [Go.parseIP, Address.text, parse4_text6, parse6_text6]
        rfl
  · have hne : a ≠ .v6 0 := by
      rintro rfl
      exact not_listed_zero ha
    exact ⟨(Go.checkAddress_internal (.inl ha)).mpr hne, (Node.checkAddress_text (.inl ha)).mpr hne⟩

/-- The address of a cloud's metadata service, mapped into IPv6; and an address that is not of `fc00::/7`,
but is written like one. -/
theorem checks_agree_sample :
    (Go.checkAddress (.v6 (mapped 0xa9fea9fe)) = Node.checkAddress "::ffff:169.254.169.254".toList ∧
      (Node.checkAddress "::ffff:169.254.169.254".toList).allowed = false) ∧
    Go.checkAddress (.v6 0x00fc0000000000000000000000000001) = Node.checkAddress "fc::1".toList ∧
      (Go.checkAddress (.v6 0x00fc0000000000000000000000000001)).allowed = false := by
  constructor
  · obtain ⟨heq, -, hdenied⟩ := checks_agree (.v6 (mapped 0xa9fea9fe))
    have htext : (Address.v6 (mapped 0xa9fea9fe)).text = "::ffff:169.254.169.254".toList := by
      decide +kernel
    rw [htext] at heq hdenied
    have hlisted : (Address.v6 (mapped 0xa9fea9fe)).Listed :=
      .inr (.inr ⟨0xa9fea9fe, rfl, show ListedV4 _ by decide⟩)
    exact ⟨heq, (hdenied hlisted).2⟩
  · obtain ⟨heq, -, -⟩ := checks_agree (.v6 0x00fc0000000000000000000000000001)
    have htext : (Address.v6 0x00fc0000000000000000000000000001).text = "fc::1".toList := by
      decide +kernel
    rw [htext] at heq
    exact ⟨heq, by rw [heq]; decide +kernel⟩

namespace Node

def Rejected (s : List Char) : Prop :=
  (checkAddress s).allowed = false ∧ ∀ resolver ip, resolveAndPin s resolver ≠ .allowed ip

def Accepted (s : List Char) : Prop :=
  (checkAddress s).allowed = true ∧ ∀ resolver, resolveAndPin s resolver = .allowed s

/-- Two spellings of an address have one verdict, and it is no when the address is on the list. -/
def SameVerdict (s t : List Char) (a : Address) : Prop :=
  (Rejected s ∧ Rejected t ∨ Accepted s ∧ Accepted t) ∧ (a.Listed → Rejected s ∧ Rejected t)

/-- Both spell `::1` or an IPv4-mapped address of the list canonically, and where the first group
prints like a denied prefix, both or neither have zeros before it. -/
def SpellingsAgree (s t : List Char) : Address → Prop
  | .v4 _ => True
  | .v6 x =>
      ((x = 1 ∨ ∃ b, x = mapped b ∧ ListedV4 b) →
        s.map Char.toLower = text6 x ∧ t.map Char.toLower = text6 x) ∧
      (startsDenied (Nat.toDigits 16 (x.toNat / 2 ^ 112)) = true →
        (Nat.toDigits 16 (x.toNat / 2 ^ 112) <+: s.map Char.toLower ↔
          Nat.toDigits 16 (x.toNat / 2 ^ 112) <+: t.map Char.toLower))

section

variable {s t : List Char} {a : Address} {x : Ipv6}

theorem resolveAndPin_literal (h : literal s = some a)
    (resolver : List Char → Option (List (List Char))) :
    resolveAndPin s resolver = (checkAddress s).pin s := by
  have hip : isIP s ≠ 0 := mt isIP_eq_zero_iff.mp (by simp [h])
  rw [resolveAndPin, if_pos hip]

theorem rejected_iff (h : literal s = some a) : Rejected s ↔ Denies s a := by
  rw [← checkAddress_denied_iff h]
  refine and_iff_left_of_imp fun hdenied resolver ip hpin => ?_
  rw [resolveAndPin_literal h, UrlValidation.pin_eq_allowed_iff, hdenied] at hpin
  cases hpin.1

theorem accepted_iff (h : literal s = some a) : Accepted s ↔ ¬ Denies s a := by
  rw [← checkAddress_denied_iff h, Bool.not_eq_false]
  refine and_iff_left_of_imp fun hallowed resolver => ?_
  rw [resolveAndPin_literal h]
  exact UrlValidation.pin_eq_allowed_iff.mpr ⟨hallowed, rfl⟩

theorem sameVerdict_iff_denies (hs : literal s = some a) (ht : literal t = some a) :
    SameVerdict s t a ↔ (Denies s a ↔ Denies t a) ∧ (a.Listed → Denies s a ∧ Denies t a) := by
  rw [SameVerdict, rejected_iff hs, rejected_iff ht, accepted_iff hs, accepted_iff ht]
  refine and_congr_left fun _ => ?_
  by_cases hd : Denies s a <;> by_cases hd' : Denies t a <;> simp [hd, hd']

/-- The spellings of an address that is not recognised by its whole text. -/
theorem denies_iff_prefix (h : parse6 (withoutZone s) = some x) (hone : x ≠ 1)
    (hmapped : ∀ b, x = mapped b → ¬ ListedV4 b) :
    Denies s (.v6 x) ↔ startsDenied (Nat.toDigits 16 (x.toNat / 2 ^ 112)) = true ∧
      Nat.toDigits 16 (x.toNat / 2 ^ 112) <+: s.map Char.toLower := by
  rw [← startsDenied_iff h]
  constructor
  · rintro (hs | hstart | ⟨b, hb, hlisted, -⟩)
    · exact absurd (eq_one_of_lower h hs) hone
    · exact hstart
    · exact absurd hlisted (hmapped b hb)
  · exact fun hstart => .inr (.inl hstart)

theorem denies_iff_canonical (h : parse6 (withoutZone s) = some x)
    (hwhole : x = 1 ∨ ∃ b, x = mapped b ∧ ListedV4 b) :
    Denies s (.v6 x) ↔ s.map Char.toLower = text6 x := by
  rcases hwhole with rfl | ⟨b, rfl, hlisted⟩
  · exact denies_one_iff h
  · exact denies_mapped_iff h hlisted

theorem group_eq_zero (hwhole : x = 1 ∨ ∃ b, x = mapped b ∧ ListedV4 b) : x.toNat / 2 ^ 112 = 0 := by
  rcases hwhole with rfl | ⟨b, rfl, -⟩
  · rfl
  · have hb := b.isLt
    rw [toNat_mapped]
    omega

/-- **The spelling of a literal** makes no difference to Node exactly where the checks do not look at
it. -/
theorem same_verdict_iff (hs : literal s = some a) (ht : literal t = some a) :
    SameVerdict s t a ↔ SpellingsAgree s t a := by
  rw [sameVerdict_iff_denies hs ht]
  cases a with
  | v4 a => simp [Denies, SpellingsAgree, Address.Listed]
  | v6 x =>
      have hx := (literal_v6_iff.mp hs).2
      have hx' := (literal_v6_iff.mp ht).2
      by_cases hwhole : x = 1 ∨ ∃ b, x = mapped b ∧ ListedV4 b
      · have hlisted : (Address.v6 x).Listed := hwhole.imp_right .inr
        have hgroup : startsDenied (Nat.toDigits 16 (x.toNat / 2 ^ 112)) = false := by
          rw [group_eq_zero hwhole]
          decide
        simp only [SpellingsAgree, hgroup, hwhole, hlisted, denies_iff_canonical hx hwhole,
          denies_iff_canonical hx' hwhole, true_imp_iff, Bool.false_eq_true, false_imp_iff, and_true]
        exact ⟨fun h => h.2, fun h => ⟨iff_of_true h.1 h.2, h⟩⟩
      · have hone : x ≠ 1 := fun hone => hwhole (.inl hone)
        have hmapped : ∀ b, x = mapped b → ¬ ListedV4 b := fun b hb hlisted =>
          hwhole (.inr ⟨b, hb, hlisted⟩)
        have hlocal : (Address.v6 x).Listed → Denies s (.v6 x) ∧ Denies t (.v6 x) := by
          rintro (h | h | h)
          · exact absurd h hone
          · exact ⟨.inr (.inl (startsDenied_of_local hx h)), .inr (.inl (startsDenied_of_local hx' h))⟩
          · exact absurd (.inr h) hwhole
        rw [and_iff_left hlocal]
        simp only [SpellingsAgree, hwhole, false_imp_iff, true_and, denies_iff_prefix hx hone hmapped,
          denies_iff_prefix hx' hone hmapped, and_congr_right_iff]

end

/-- Link-local addresses are denied however they are written. -/
theorem same_verdict_iff_sample :
    SameVerdict "fe80::1".toList "FE80:0:0::0001%eth0".toList
      (.v6 0xfe800000000000000000000000000001) := by
  refine (same_verdict_iff (by decide +kernel) (by decide +kernel)).mpr ⟨?_, ?_⟩
  · intro hwhole
    exact absurd (group_eq_zero hwhole) (by decide)
  · intro
    exact iff_of_true (by decide +kernel) (by decide +kernel)

/-- The loopback address is denied as `::1` and allowed in eight groups. -/
theorem loopback_spelled_out :
    ¬ SameVerdict "::1".toList "0:0:0:0:0:0:0:1".toList (.v6 1) := by
  intro h
  have hallowed : (checkAddress "0:0:0:0:0:0:0:1".toList).allowed = true := by decide +kernel
  have hrejected := (h.2 (.inl rfl)).2.1
  rw [hallowed] at hrejected
  cases hrejected

end Node

end Webhooks
