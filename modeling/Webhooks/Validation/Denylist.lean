import Mathlib.Data.List.TakeDrop
import Mathlib.Data.List.TakeWhile
import Webhooks.Validation.Url

/-!
# Validation — Denylist

The blocks of ADR-0006, and what the checks say of an address in terms of them.

* `Address.Listed`: the address is in one of the blocks.
* `checkOctets_octets`: the octets tell an IPv4 address of the list.
* **`Node.checkIpv6_denied_iff`**: an IPv6 text is denied for one of three reasons.
* `startsDenied_of_listed`: an address of `fe80::/10` or `fc00::/7` is denied in every spelling.
-/

namespace Webhooks

open Lib Lib.Inet

/-- The IPv4 blocks of ADR-0006. -/
def deniedV4 : List (Block 32) :=
  [⟨0x7f000000, 8⟩, ⟨0x0a000000, 8⟩, ⟨0xac100000, 12⟩, ⟨0xc0a80000, 16⟩, ⟨0xa9fe0000, 16⟩,
    ⟨0x00000000, 8⟩, ⟨0x64400000, 10⟩]

/-- `fe80::/10` and `fc00::/7`. -/
def localV6 : List (Block 128) :=
  [⟨0xfe800000000000000000000000000000, 10⟩, ⟨0xfc000000000000000000000000000000, 7⟩]

def ListedV4 (a : Ipv4) : Prop := ∃ b ∈ deniedV4, b.Contains a

def LocalV6 (x : Ipv6) : Prop := ∃ b ∈ localV6, b.Contains x

/-- The address is on the list of ADR-0006: in a block, `::1`, or IPv4-mapped of a block. -/
def Address.Listed : Address → Prop
  | .v4 a => ListedV4 a
  | .v6 x => x = 1 ∨ LocalV6 x ∨ ∃ a, x = mapped a ∧ ListedV4 a

instance (a : Ipv4) : Decidable (ListedV4 a) := inferInstanceAs (Decidable (∃ b ∈ deniedV4, _))

instance (x : Ipv6) : Decidable (LocalV6 x) := inferInstanceAs (Decidable (∃ b ∈ localV6, _))

/-- One of the prefixes the checks of an IPv6 text look for. -/
def startsDenied (normalized : List Char) : Bool :=
  startsLinkLocal normalized || startsUniqueLocal normalized

/-- The address a literal spells, the zone apart. -/
def Node.literal (s : List Char) : Option Address :=
  match parse4 s with
  | some a => some (.v4 a)
  | none => (parse6 (withoutZone s)).map .v6

section

variable {a : Ipv4} {x : Ipv6} {s t : List Char} {g : Nat}

/-! ### IPv4 -/

theorem listedV4_iff : ListedV4 a ↔ a.toNat / 2 ^ 24 = 127 ∨ a.toNat / 2 ^ 24 = 10 ∨
    a.toNat / 2 ^ 20 = 172 * 16 + 1 ∨ a.toNat / 2 ^ 16 = 192 * 256 + 168 ∨
    a.toNat / 2 ^ 16 = 169 * 256 + 254 ∨ a.toNat / 2 ^ 24 = 0 ∨ a.toNat / 2 ^ 22 = 100 * 4 + 1 := by
  simp [ListedV4, deniedV4, Block.Contains]

theorem checkOctets_octets :
    (checkOctets (octets a)[0]? (octets a)[1]?).allowed = false ↔ ListedV4 a := by
  have ha := a.isLt
  rw [listedV4_iff]
  simp only [checkOctets, octets, List.getElem?_cons_zero, List.getElem?_cons_succ, Option.some.injEq,
    Option.any_some, Bool.and_eq_true, decide_eq_true_eq]
  split_ifs <;>
    simp only [UrlValidation.deny, UrlValidation.allow, Bool.true_eq_false, true_iff, false_iff] <;> omega

theorem splitOctets_text4 : Node.splitOctets (text4 a) = octets a := by
  rw [Node.splitOctets, splitOn_text4, List.map_map]
  refine (List.map_congr_left fun d _ => ?_).trans (List.map_id _)
  exact Nat.ofDigitChars_ten_toDigits

theorem Node.checkIpv4_text4 : (checkIpv4 (text4 a)).allowed = false ↔ ListedV4 a := by
  rw [checkIpv4, splitOctets_text4, checkOctets_octets]

/-! ### The prefixes -/

theorem isPrefixOf_append_colon {p : List Char} (hp : ':' ∉ p) :
    p.isPrefixOf (s ++ ':' :: t) = p.isPrefixOf s := by
  induction p generalizing s with
  | nil => simp
  | cons c p ih =>
      obtain ⟨hc, hp⟩ := List.ne_and_not_mem_of_not_mem_cons hp
      cases s with
      | nil =>
          have hne : (c == ':') = false := by simpa using Ne.symm hc
          simp [List.isPrefixOf_cons_cons, hne]
      | cons d s => simp [List.isPrefixOf_cons_cons, ih hp]

/-- The tests look at the first group only. -/
theorem startsDenied_append_colon : startsDenied (s ++ ':' :: t) = startsDenied s := by
  simp only [startsDenied, startsLinkLocal, startsUniqueLocal, List.any_cons, List.any_nil]
  iterate 6 rw [isPrefixOf_append_colon (by decide)]

theorem startsDenied_cons {c : Char} (hc : c ≠ 'f') : startsDenied (c :: s) = false := by
  have hne : ('f' == c) = false := by simpa using Ne.symm hc
  simp [startsDenied, startsLinkLocal, startsUniqueLocal, List.isPrefixOf_cons_cons, hne]

/-- Node's fifth prefix is behind one of the four. -/
theorem startsLinkLocal_or {l : List Char} :
    ("fe80:".toList.isPrefixOf l || startsLinkLocal l) = startsLinkLocal l := by
  rw [Bool.or_eq_right_iff_imp, List.isPrefixOf_iff_prefix]
  intro hl
  have hshort : "fe8".toList <+: l := List.IsPrefix.trans (by decide) hl
  simp only [startsLinkLocal, List.any_cons, Bool.or_eq_true, List.isPrefixOf_iff_prefix]
  exact .inl hshort

theorem withoutZone_prefix : Node.withoutZone s <+: s := by
  simp only [Node.withoutZone]
  split
  case h_1 address d c zone hspan =>
    split
    · rw [List.span_eq_takeWhile_dropWhile, Prod.mk.injEq] at hspan
      rw [← hspan.1]
      exact List.takeWhile_prefix _
    · exact List.prefix_rfl
  case h_2 => exact List.prefix_rfl

/-- How an IPv6 text in lower case begins. -/
theorem lower_cases (h : parse6 (Node.withoutZone s) = some x) :
    (x.toNat / 2 ^ 112 = 0 ∧ ∃ t, s.map Char.toLower = ':' :: t) ∨
      ∃ k t, s.map Char.toLower =
          List.replicate k '0' ++ Nat.toDigits 16 (x.toNat / 2 ^ 112) ++ ':' :: t ∧
        k + (Nat.toDigits 16 (x.toNat / 2 ^ 112)).length ≤ 4 := by
  obtain ⟨zone, hs⟩ := withoutZone_prefix (s := s)
  rcases parse6_cases h with ⟨hzero, t, ht⟩ | ⟨f, t, ht, hf⟩
  · exact .inl ⟨hzero, _, by rw [← hs, ht]; rfl⟩
  · obtain ⟨hlen, k, hk⟩ := group_eq_some_iff.mp hf
    have hle := congrArg List.length hk
    simp only [List.length_map, List.length_append, List.length_replicate] at hle
    refine .inr ⟨k, (t ++ zone).map Char.toLower, ?_, by omega⟩
    rw [← hs, ht, ← hk]
    simp

/-- An IPv6 text begins with a denied prefix when its first group does, written without leading
zeros. -/
theorem startsDenied_iff (h : parse6 (Node.withoutZone s) = some x) :
    startsDenied (s.map Char.toLower) = true ↔
      startsDenied (Nat.toDigits 16 (x.toNat / 2 ^ 112)) = true ∧
        Nat.toDigits 16 (x.toNat / 2 ^ 112) <+: s.map Char.toLower := by
  rcases lower_cases h with ⟨hzero, t, ht⟩ | ⟨k, t, ht, -⟩
  · rw [ht, hzero]
    simp [startsDenied_cons (c := ':') (by decide), startsDenied_cons (c := '0') (by decide)]
  · rw [ht, startsDenied_append_colon]
    cases k with
    | zero => simp
    | succ k =>
        rw [List.replicate_succ, List.cons_append, List.cons_append,
          startsDenied_cons (c := '0') (by decide)]
        simp only [Bool.false_eq_true, false_iff, not_and]
        intro hdenied hzero
        obtain ⟨c, cs, hc⟩ :=
          List.exists_cons_of_ne_nil (Nat.toDigits_ne_nil (n := x.toNat / 2 ^ 112) (b := 16))
        rw [hc] at hdenied hzero
        obtain rfl : c = '0' := (List.cons_prefix_cons.mp hzero).1
        rw [startsDenied_cons (by decide)] at hdenied
        cases hdenied

theorem localV6_iff : LocalV6 x ↔
    x.toNat / 2 ^ 112 / 64 = 0xfe80 / 64 ∨ x.toNat / 2 ^ 112 / 512 = 0xfc00 / 512 := by
  simp [LocalV6, localV6, Block.Contains, Nat.div_div_eq_div_mul]

/-- The groups of the two blocks have four digits, and their text is denied. -/
theorem group_of_local (hg : g / 64 = 0xfe80 / 64 ∨ g / 512 = 0xfc00 / 512) :
    4 ≤ (Nat.toDigits 16 g).length ∧ startsDenied (Nat.toDigits 16 g) = true := by
  have hlink : ∀ i < 64, 4 ≤ (Nat.toDigits 16 (0xfe80 + i)).length ∧
      startsDenied (Nat.toDigits 16 (0xfe80 + i)) = true := by decide +kernel
  have hunique : ∀ i < 512, 4 ≤ (Nat.toDigits 16 (0xfc00 + i)).length ∧
      startsDenied (Nat.toDigits 16 (0xfc00 + i)) = true := by decide +kernel
  rcases hg with hg | hg
  · obtain ⟨i, rfl⟩ : ∃ i, g = 0xfe80 + i := ⟨g - 0xfe80, by omega⟩
    exact hlink i (by omega)
  · obtain ⟨i, rfl⟩ : ∃ i, g = 0xfc00 + i := ⟨g - 0xfc00, by omega⟩
    exact hunique i (by omega)

/-- An address of `fe80::/10` or `fc00::/7` is denied in every spelling. -/
theorem startsDenied_of_local (h : parse6 (Node.withoutZone s) = some x) (hx : LocalV6 x) :
    startsDenied (s.map Char.toLower) = true := by
  obtain ⟨hlen, hdenied⟩ := group_of_local (localV6_iff.mp hx)
  refine (startsDenied_iff h).mpr ⟨hdenied, ?_⟩
  rcases lower_cases h with ⟨hzero, -⟩ | ⟨k, t, ht, hle⟩
  · have hg := localV6_iff.mp hx
    omega
  · obtain rfl : k = 0 := by omega
    rw [ht]
    simp

/-! ### The checks of an IPv6 address -/

theorem withoutZone_eq (h : '%' ∉ s) : Node.withoutZone s = s := by
  have hspan : s.span (fun c => decide (c ≠ '%')) = (s, []) := by
    have hall : ∀ c ∈ s, decide (c ≠ '%') = true := by
      rintro c hc
      rw [decide_eq_true_eq]
      rintro rfl
      exact h hc
    rw [List.span_eq_takeWhile_dropWhile, List.takeWhile_eq_self_iff.mpr hall,
      List.dropWhile_eq_nil_iff.mpr hall]
  rw [Node.withoutZone, hspan]

theorem Node.matchMapped_cases (h : matchMapped s = some t) :
    s = "::ffff:".toList ++ t ∧ '.' ∈ t ∧ ∀ c ∈ t, c = '.' ∨ c.isDigit = true := by
  simp only [matchMapped] at h
  split at h
  case isFalse => cases h
  case isTrue hcond =>
    cases h
    simp only [Bool.and_eq_true, decide_eq_true_eq, List.all_eq_true] at hcond
    obtain ⟨⟨hmapped, hlen⟩, hfields⟩ := hcond
    have hsplit : ['.'].intercalate ((s.drop 7).splitOn '.') = s.drop 7 := List.intercalate_splitOn '.'
    refine ⟨(List.prefix_iff_eq_append.mp (List.isPrefixOf_iff_prefix.mp hmapped)).symm, ?_, ?_⟩
    · match hparts : (s.drop 7).splitOn '.', hlen with
      | [f₁, f₂, f₃, f₄], _ =>
          rw [← hsplit, hparts]
          simp [List.intercalate_cons_cons]
    · intro c hc
      by_contra hne
      obtain ⟨hdot, hdigit⟩ := not_or.mp hne
      rw [← hsplit] at hc
      rcases mem_intercalate hc with rfl | ⟨f, hf, hcf⟩
      · exact hdot rfl
      · have hall := (hfields f hf).2
        exact hdigit (hall c hcf)

theorem Node.matchMapped_text4 : matchMapped ("::ffff:".toList ++ text4 a) = some (text4 a) := by
  have hdrop : ("::ffff:".toList ++ text4 a).drop 7 = text4 a := rfl
  have hdigit : ∀ n, (Nat.toDigits 10 n).all Char.isDigit = true := fun n =>
    List.all_eq_true.mpr fun c hc => Nat.isDigit_of_mem_toDigits (by decide) (by decide) hc
  rw [matchMapped, hdrop, splitOn_text4, if_pos]
  simp [octets, hdigit, Nat.toDigits_ne_nil]

theorem eq_one_of_lower (h : parse6 (Node.withoutZone s) = some x)
    (hs : s.map Char.toLower = "::1".toList) : x = 1 := by
  obtain rfl : s = "::1".toList := (map_toLower_eq_iff (by simp)).mp hs
  have hone : parse6 (Node.withoutZone "::1".toList) = some 1 := by decide
  exact Option.some.inj (h.symm.trans hone)

/-- A text that is IPv4-mapped in dotted form is an address. -/
theorem exists_mapped (h : parse6 (Node.withoutZone s) = some x)
    (hs : Node.matchMapped (s.map Char.toLower) = some t) : ∃ a, t = text4 a ∧ x = mapped a := by
  obtain ⟨hlower, hdot, hchars⟩ := Node.matchMapped_cases hs
  have hnot : ∀ {c}, c ≠ '.' → Char.isDigit c = false → c ∉ t := by
    intro c hne hdigit hc
    rcases hchars c hc with rfl | htrue
    · exact hne rfl
    · rw [hdigit] at htrue
      cases htrue
  have hzone : '%' ∉ s := by
    intro hmem
    have hmem' : '%' ∈ s.map Char.toLower := List.mem_map.mpr ⟨'%', hmem, rfl⟩
    rw [hlower, List.mem_append] at hmem'
    exact hmem'.elim (by decide) (hnot (by decide) rfl)
  rw [withoutZone_eq hzone, ← parse6_map_toLower, hlower, parse6_dotted (hnot (by decide) rfl) hdot] at h
  obtain ⟨a, ha, rfl⟩ := Option.map_eq_some_iff.mp h
  exact ⟨a, parse4_eq_some_iff.mp ha, rfl⟩

/-- An IPv6 text is denied when it is `::1`, when it begins with a denied prefix, or when it is the
dotted form of an IPv4-mapped address of the list. -/
theorem Node.checkIpv6_denied_iff (h : parse6 (withoutZone s) = some x) :
    (checkIpv6 s).allowed = false ↔ s.map Char.toLower = "::1".toList ∨
      startsDenied (s.map Char.toLower) = true ∨
      ∃ a, x = mapped a ∧ ListedV4 a ∧ s.map Char.toLower = "::ffff:".toList ++ text4 a := by
  simp only [checkIpv6, startsLinkLocal_or, startsDenied, Bool.or_eq_true]
  split_ifs with hone hlink hunique
  · simp [UrlValidation.deny, hone]
  · simp [UrlValidation.deny, hlink]
  · simp [UrlValidation.deny, hunique]
  · simp only [hone, hlink, hunique, Bool.false_eq_true, false_or, or_self]
    cases hmatch : matchMapped (s.map Char.toLower) with
    | none =>
        simp only [UrlValidation.allow, Bool.true_eq_false, false_iff]
        rintro ⟨a, -, -, hs⟩
        rw [hs, matchMapped_text4] at hmatch
        cases hmatch
    | some t =>
        obtain ⟨a, rfl, rfl⟩ := exists_mapped h hmatch
        rw [checkIpv4_text4]
        constructor
        · exact fun ha => ⟨a, rfl, ha, (matchMapped_cases hmatch).1⟩
        · rintro ⟨b, -, hb, hs⟩
          rw [hs, matchMapped_text4] at hmatch
          rwa [← text4_inj.mp (Option.some.inj hmatch)]

/-! ### Literals -/

theorem Node.isIP_eq_four_iff : isIP s = 4 ↔ ∃ a, s = text4 a := by
  simp only [isIP, ← parse4_eq_some_iff, ← Option.isSome_iff_exists]
  split_ifs <;> simp_all

theorem Node.isIP_eq_zero_iff : isIP s = 0 ↔ literal s = none := by
  simp only [isIP, literal]
  cases parse4 s with
  | some a => simp
  | none => cases parse6 (withoutZone s) <;> simp

/-- The address of a literal is that of its dotted quad or of its IPv6 text. -/
theorem Node.literal_v4_iff : literal s = some (.v4 a) ↔ s = text4 a := by
  rw [← parse4_eq_some_iff, literal]
  cases parse4 s <;> simp

theorem Node.literal_v6_iff :
    literal s = some (.v6 x) ↔ isIP s ≠ 4 ∧ parse6 (withoutZone s) = some x := by
  simp only [literal, isIP]
  cases parse4 s with
  | some a => simp
  | none => cases parse6 (withoutZone s) <;> simp

theorem percent_not_mem_text6 : '%' ∉ text6 x := by
  intro h
  simp only [text6] at h
  split at h
  · rcases List.mem_append.mp h with h | h
    · exact absurd h (by decide)
    · simpa using mem_text4 h
  · rcases mem_compressed h with h | ⟨d, hd, h⟩
    · exact absurd h (by decide)
    · exact (show ∀ d < 16, '%' ≠ Nat.digitChar d by decide) d hd h

theorem Node.literal_text (a : Address) : literal a.text = some a := by
  cases a with
  | v4 a => exact literal_v4_iff.mpr rfl
  | v6 x =>
      rw [literal, Address.text, parse4_text6, withoutZone_eq percent_not_mem_text6, parse6_text6]
      rfl

/-- What Node denies of the spellings of an address. -/
def Node.Denies (s : List Char) : Address → Prop
  | .v4 a => ListedV4 a
  | .v6 x => s.map Char.toLower = "::1".toList ∨ startsDenied (s.map Char.toLower) = true ∨
      ∃ a, x = mapped a ∧ ListedV4 a ∧ s.map Char.toLower = "::ffff:".toList ++ text4 a

theorem Node.checkAddress_denied_iff {a : Address} (h : literal s = some a) :
    (checkAddress s).allowed = false ↔ Denies s a := by
  cases a with
  | v4 a =>
      obtain rfl := literal_v4_iff.mp h
      rw [checkAddress, if_pos (isIP_eq_four_iff.mpr ⟨a, rfl⟩), checkIpv4_text4]
      rfl
  | v6 x =>
      obtain ⟨hne, hx⟩ := literal_v6_iff.mp h
      rw [checkAddress, if_neg hne, checkIpv6_denied_iff hx]
      rfl

/-! ### The two stacks -/

/-- Both stacks check an IPv6 address that is not IPv4-mapped alike. -/
theorem Go.checkIPv6_eq (h : unmapped x = none) : checkIPv6 (.v6 x) = Node.checkIpv6 (text6 x) := by
  have hstring : ipString (.v6 x) = text6 x := by
    rw [ipString, to4, h]
    rfl
  have hmatch : Node.matchMapped (text6 x) = none := by
    cases hm : Node.matchMapped (text6 x) with
    | none => rfl
    | some t =>
        rw [← map_toLower_text6] at hm
        obtain ⟨a, -, hx⟩ := exists_mapped (s := text6 x) (x := x)
          (by rw [withoutZone_eq percent_not_mem_text6, parse6_text6]) hm
        rw [hx, unmapped_eq_some_iff.mpr rfl] at h
        cases h
  simp only [checkIPv6, Node.checkIpv6, hstring, map_toLower_text6, startsLinkLocal_or, hmatch]

/-- Go's verdict on an address is Node's on its canonical text. -/
theorem Go.checkAddress_eq (a : Address) : checkAddress a = Node.checkAddress a.text := by
  cases a with
  | v4 a =>
      have hfour : Node.isIP (Address.v4 a).text = 4 := Node.isIP_eq_four_iff.mpr ⟨a, rfl⟩
      rw [Node.checkAddress, if_pos hfour, Address.text, Node.checkIpv4, splitOctets_text4]
      rfl
  | v6 x =>
      have hne : Node.isIP (text6 x) ≠ 4 := (Node.literal_v6_iff.mp (Node.literal_text (.v6 x))).1
      rw [Node.checkAddress, Address.text, if_neg hne]
      cases hx : unmapped x with
      | none =>
          rw [checkAddress, to4, hx]
          exact checkIPv6_eq hx
      | some a =>
          obtain rfl := unmapped_eq_some_iff.mp hx
          have hlower := map_toLower_text6 (x := mapped a)
          rw [text6_mapped] at hlower ⊢
          have hstart : startsDenied ("::ffff:".toList ++ text4 a) = false :=
            startsDenied_cons (by decide)
          rw [startsDenied, Bool.or_eq_false_iff] at hstart
          have hone : "::ffff:".toList ++ text4 a ≠ "::1".toList := by simp
          rw [checkAddress, to4, hx, Node.checkIpv6, hlower, if_neg hone, startsLinkLocal_or, hstart.1,
            hstart.2, Node.matchMapped_text4]
          simp [checkIPv4, Node.checkIpv4, splitOctets_text4]

end

end Webhooks
