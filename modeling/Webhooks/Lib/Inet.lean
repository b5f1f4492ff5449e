import Mathlib.Algebra.Group.Nat.Defs
import Mathlib.Data.List.Forall2
import Mathlib.Data.List.Induction

/-!
# Lib — Inet

IPv4 and IPv6 addresses as machine words, their blocks, and their text.

A dotted quad has one spelling.  An IPv6 address has many: `parse6` reads every one of RFC 4291's,
`text6` writes the canonical one, lower-case with the longest run of zero groups cut out and an
IPv4-mapped address in dotted form.

* `Block`: the addresses that begin with some bits.
* **`parse4_eq_some_iff`**, **`parse6_text6`**: what is written is read back.
* `parse6_map_toLower`: letter case means nothing.
* **`parse6_cases`**: a text begins with its first group, unless that is cut out.
-/

namespace Lib.Inet

abbrev Ipv4 := BitVec 32
abbrev Ipv6 := BitVec 128

/-- The addresses whose first `len` bits are those of `base`. -/
structure Block (w : Nat) where
  base : BitVec w
  len : Nat
  deriving DecidableEq, Repr

/-- The address has the prefix of the block. -/
def Block.Contains {w : Nat} (b : Block w) (a : BitVec w) : Prop :=
  a.toNat / 2 ^ (w - b.len) = b.base.toNat / 2 ^ (w - b.len)

instance {w : Nat} (b : Block w) (a : BitVec w) : Decidable (b.Contains a) :=
  inferInstanceAs (Decidable (_ = _))

/-! ### Octets and groups -/

/-- The bytes of an address, the first one first. -/
def octets (a : Ipv4) : List Nat :=
  [a.toNat / 2 ^ 24, a.toNat / 2 ^ 16 % 256, a.toNat / 2 ^ 8 % 256, a.toNat % 256]

/-- The eight groups of 16 bits. -/
def groups (x : Ipv6) : List Nat :=
  [x.toNat / 2 ^ 112, x.toNat / 2 ^ 96 % 65536, x.toNat / 2 ^ 80 % 65536, x.toNat / 2 ^ 64 % 65536,
    x.toNat / 2 ^ 48 % 65536, x.toNat / 2 ^ 32 % 65536, x.toNat / 2 ^ 16 % 65536, x.toNat % 65536]

/-- The number with these digits. -/
def ofDigits (base : Nat) (ds : List Nat) : Nat := ds.foldl (fun n d => base * n + d) 0

def ofOctets (ds : List Nat) : Ipv4 := .ofNat 32 (ofDigits 256 ds)

def ofGroups (gs : List Nat) : Ipv6 := .ofNat 128 (ofDigits 65536 gs)

/-- `::ffff:0:0/96`, the IPv6 form of an IPv4 address. -/
def mapped (a : Ipv4) : Ipv6 := .ofNat 128 (0xffff * 2 ^ 32 + a.toNat)

/-- The IPv4 address an IPv6 address is the form of. -/
def unmapped (x : Ipv6) : Option Ipv4 :=
  if x.toNat / 2 ^ 32 = 0xffff then some (.ofNat 32 (x.toNat % 2 ^ 32)) else none

/-! ### Text -/

/-- Dotted decimal. -/
def text4 (a : Ipv4) : List Char := ['.'].intercalate ((octets a).map (Nat.toDigits 10))

/-- Hexadecimal groups between colons. -/
def joined (gs : List Nat) : List Char := [':'].intercalate (gs.map (Nat.toDigits 16))

/-- How many zeros the list begins with. -/
def zeros : List Nat → Nat
  | 0 :: gs => zeros gs + 1
  | _ => 0

/-- The run that begins at a place, when it is longer. -/
def longer (gs : List Nat) (best : Nat × Nat) (i : Nat) : Nat × Nat :=
  if best.2 < zeros (gs.drop i) then (i, zeros (gs.drop i)) else best

/-- Where the first of the longest runs of zeros begins, and how long it is. -/
def longestRun (gs : List Nat) : Nat × Nat := (List.range gs.length).foldl (longer gs) (0, 0)

/-- The canonical text of an address that is not IPv4-mapped. -/
def compressed (gs : List Nat) : List Char :=
  let (start, len) := longestRun gs
  if len < 2 then joined gs else joined (gs.take start) ++ ':' :: ':' :: joined (gs.drop (start + len))

/-- The canonical text: the last 32 bits of a mapped address in dotted form. -/
def text6 (x : Ipv6) : List Char :=
  match unmapped x with
  | some a => "::ffff:".toList ++ text4 a
  | none => compressed (groups x)

/-! ### Reading -/

/-- A byte in decimal, without leading zeros. -/
def octet (s : List Char) : Option Nat := (List.range 256).find? fun n => Nat.toDigits 10 n = s

/-- Four decimal octets. -/
def parse4 (s : List Char) : Option Ipv4 :=
  match (s.splitOn '.').mapM octet with
  | some [a, b, c, d] => some (ofOctets [a, b, c, d])
  | _ => none

/-- A hexadecimal digit of either case. -/
def hexDigit (c : Char) : Option Nat := (List.range 16).find? fun d => d.digitChar = c.toLower

/-- A group: one to four digits. -/
def group (s : List Char) : Option Nat :=
  if 1 ≤ s.length ∧ s.length ≤ 4 then (s.mapM hexDigit).map (ofDigits 16) else none

/-- What is between the colons of a part of the text. -/
def fields (s : List Char) : List (List Char) := if s = [] then [] else s.splitOn ':'

/-- Groups up to the end of the text, the last two of which may be a dotted quad. -/
def lastGroups : List (List Char) → Option (List Nat)
  | [] => some []
  | [s] =>
      if '.' ∈ s then (parse4 s).map fun a => [a.toNat / 65536, a.toNat % 65536]
      else (group s).map fun g => [g]
  | s :: ss => (group s).bind fun g => (lastGroups ss).map (g :: ·)

/-- The text before and after the first `::`. -/
def cut : List Char → Option (List Char × List Char)
  | [] => none
  | ':' :: ':' :: s => some ([], s)
  | c :: s => (cut s).map fun r => (c :: r.1, r.2)

/-- The groups of an IPv6 text; `::` stands for one zero group or more. -/
def parseGroups (s : List Char) : Option (List Nat) :=
  match cut s with
  | none => (lastGroups (fields s)).filter fun gs => gs.length = 8
  | some (front, back) =>
      ((fields front).mapM group).bind fun gs => (lastGroups (fields back)).bind fun gs' =>
        if gs.length + gs'.length < 8 then
          some (gs ++ List.replicate (8 - (gs.length + gs'.length)) 0 ++ gs')
        else none

def parse6 (s : List Char) : Option Ipv6 := (parseGroups s).map ofGroups

section

variable {α β : Type} {s t : List Char} {n : Nat} {a : Ipv4} {x : Ipv6} {gs : List Nat}

/-- A list is read when each member is. -/
theorem mapM_eq_some_iff {f : α → Option β} {l : List α} {r : List β} :
    l.mapM f = some r ↔ List.Forall₂ (fun a b => f a = some b) l r := by
  induction l generalizing r with
  | nil => simp [eq_comm]
  | cons a l ih =>
      simp only [List.mapM_cons, Option.bind_eq_bind, Option.bind_eq_some_iff, List.forall₂_cons_left_iff,
        ih, Option.pure_def, Option.some.injEq]
      constructor
      · rintro ⟨b, hb, r', hr', rfl⟩
        exact ⟨b, r', hb, hr', rfl⟩
      · rintro ⟨b, r', hb, hr', rfl⟩
        exact ⟨b, hb, r', hr', rfl⟩

/-- A character of joined texts is of one of them, or the separator. -/
theorem mem_intercalate {c sep : α} {l : List (List α)} (h : c ∈ [sep].intercalate l) :
    c = sep ∨ ∃ f ∈ l, c ∈ f := by
  induction l with
  | nil => simp at h
  | cons f l ih =>
      cases l with
      | nil => exact .inr ⟨f, by simp, by simpa using h⟩
      | cons f' l =>
          rw [List.intercalate_cons_cons, List.append_assoc, List.mem_append, List.mem_append] at h
          rcases h with h | h | h
          · exact .inr ⟨f, by simp, h⟩
          · exact .inl (List.mem_singleton.mp h)
          · rcases ih h with rfl | ⟨f'', hf'', hc⟩
            · exact .inl rfl
            · exact .inr ⟨f'', List.mem_cons_of_mem f hf'', hc⟩

/-! ### Dotted quads -/

theorem not_mem_toDigits {c : Char} (hc : c.isDigit = false) : c ∉ Nat.toDigits 10 n := fun h => by
  rw [Nat.isDigit_of_mem_toDigits (by decide) (by decide) h] at hc
  cases hc

/-- An octet is read from its own digits only: no zero stands before them. -/
theorem octet_eq_some_iff : octet s = some n ↔ n < 256 ∧ Nat.toDigits 10 n = s := by
  simp only [octet, List.find?_range_eq_some, decide_eq_true_eq, List.mem_range, Bool.not_eq_true',
    decide_eq_false_iff_not]
  constructor
  · rintro ⟨hs, hn, -⟩
    exact ⟨hn, hs⟩
  · rintro ⟨hn, hs⟩
    refine ⟨hs, hn, fun m hm heq => ?_⟩
    have hval := congrArg (Nat.ofDigitChars 10 · 0) (heq.trans hs.symm)
    simp only [Nat.ofDigitChars_ten_toDigits] at hval
    omega

theorem octets_lt : ∀ d ∈ octets a, d < 256 := by
  have ha := a.isLt
  simp only [octets, List.mem_cons, List.not_mem_nil, or_false]
  rintro d (rfl | rfl | rfl | rfl) <;> omega

/-- An address is made of its octets. -/
theorem ofOctets_octets : ofOctets (octets a) = a := by
  have ha := a.isLt
  apply BitVec.eq_of_toNat_eq
  simp only [ofOctets, ofDigits, octets, List.foldl_cons, List.foldl_nil, BitVec.toNat_ofNat]
  omega

/-- Octets are those of the address they make. -/
theorem octets_ofOctets {b c d : Nat} (hn : n < 256) (hb : b < 256) (hc : c < 256) (hd : d < 256) :
    octets (ofOctets [n, b, c, d]) = [n, b, c, d] := by
  simp only [octets, ofOctets, ofDigits, List.foldl_cons, List.foldl_nil, BitVec.toNat_ofNat,
    List.cons.injEq, and_true]
  omega

/-- The parts of a dotted quad. -/
theorem splitOn_text4 : (text4 a).splitOn '.' = (octets a).map (Nat.toDigits 10) := by
  refine List.splitOn_intercalate '.' (fun l hl => ?_) (by simp [octets])
  obtain ⟨d, -, rfl⟩ := List.mem_map.mp hl
  exact not_mem_toDigits rfl

/-- A dotted quad has one spelling. -/
theorem parse4_eq_some_iff : parse4 s = some a ↔ s = text4 a := by
  constructor
  · intro h
    simp only [parse4] at h
    split at h
    case h_1 n b c d hfields =>
      cases h
      have hparts := (mapM_eq_some_iff.mp hfields).imp fun _ _ h => octet_eq_some_iff.mp h
      obtain ⟨_, fs, ⟨hn, rfl⟩, hfs, heq⟩ := List.forall₂_cons_right_iff.mp hparts
      obtain ⟨_, fs', ⟨hb, rfl⟩, hfs', rfl⟩ := List.forall₂_cons_right_iff.mp hfs
      obtain ⟨_, fs'', ⟨hc, rfl⟩, hfs'', rfl⟩ := List.forall₂_cons_right_iff.mp hfs'
      obtain ⟨_, _, ⟨hd, rfl⟩, hnil, rfl⟩ := List.forall₂_cons_right_iff.mp hfs''
      obtain rfl := List.forall₂_nil_right_iff.mp hnil
      have hsplit : ['.'].intercalate (s.splitOn '.') = s := List.intercalate_splitOn '.'
      rw [text4, octets_ofOctets hn hb hc hd, ← hsplit, heq]
      rfl
    case h_2 => cases h
  · rintro rfl
    have hoctets : ((octets a).map (Nat.toDigits 10)).mapM octet = some (octets a) := by
      refine mapM_eq_some_iff.mpr (List.forall₂_map_left_iff.mpr (List.forall₂_same.mpr fun d hd => ?_))
      exact octet_eq_some_iff.mpr ⟨octets_lt d hd, rfl⟩
    rw [parse4, splitOn_text4, hoctets]
    exact congrArg some ofOctets_octets

/-! ### Groups -/

/-- Capital letters move by 32, other characters stay. -/
theorem toNat_toLower (c : Char) :
    c.toLower.toNat = if 65 ≤ c.toNat ∧ c.toNat ≤ 90 then c.toNat + 32 else c.toNat := by
  have hiff : (c.val ≥ 'A'.val ∧ c.val ≤ 'Z'.val) ↔ 65 ≤ c.toNat ∧ c.toNat ≤ 90 := by
    simp only [ge_iff_le, UInt32.le_iff_toNat_le]
    rfl
  delta Char.toLower
  by_cases h : 65 ≤ c.toNat ∧ c.toNat ≤ 90
  · rw [if_pos h, dif_pos (hiff.mpr h)]
    have hle : c.val.toNat ≤ 90 := h.2
    exact (UInt32.toNat_add c.val 32).trans (Nat.mod_eq_of_lt (Nat.lt_of_le_of_lt
      (Nat.add_le_add_right hle 32) (by decide)))
  · rw [if_neg h, dif_neg (mt hiff.mp h)]

theorem toLower_toLower (c : Char) : c.toLower.toLower = c.toLower := by
  apply Char.toNat_inj.mp
  simp only [toNat_toLower]
  split_ifs <;> omega

/-- No letter becomes a digit, a dot or a colon. -/
theorem toLower_eq_iff {c d : Char} (h : d.toNat < 65) : c.toLower = d ↔ c = d := by
  rw [← Char.toNat_inj, ← Char.toNat_inj, toNat_toLower]
  split <;> omega

/-- A hexadecimal digit is read in either case. -/
theorem hexDigit_eq_some_iff {c : Char} {d : Nat} :
    hexDigit c = some d ↔ d < 16 ∧ d.digitChar = c.toLower := by
  have hinj : ∀ d < 16, ∀ e < 16, Nat.digitChar d = Nat.digitChar e → d = e := by decide
  simp only [hexDigit, List.find?_range_eq_some, decide_eq_true_eq, List.mem_range, Bool.not_eq_true',
    decide_eq_false_iff_not]
  constructor
  · rintro ⟨hc, hd, -⟩
    exact ⟨hd, hc⟩
  · rintro ⟨hd, hc⟩
    refine ⟨hc, hd, fun e he heq => ?_⟩
    have := hinj e (by omega) d hd (heq.trans hc.symm)
    omega

/-- So is a run of them. -/
theorem mapM_hexDigit_iff {ds : List Nat} :
    s.mapM hexDigit = some ds ↔ (∀ d ∈ ds, d < 16) ∧ s.map Char.toLower = ds.map Nat.digitChar := by
  rw [mapM_eq_some_iff]
  induction s generalizing ds with
  | nil => cases ds <;> simp
  | cons c s ih =>
      cases ds with
      | nil => simp
      | cons d ds =>
          rw [List.forall₂_cons, ih, hexDigit_eq_some_iff]
          simp only [List.forall_mem_cons, List.map_cons, List.cons.injEq]
          constructor
          · rintro ⟨⟨hd, hc⟩, hds, hs⟩
            exact ⟨⟨hd, hds⟩, hc.symm, hs⟩
          · rintro ⟨⟨hd, hds⟩, hc, hs⟩
            exact ⟨⟨hd, hc.symm⟩, hds, hs⟩

theorem ofDigits_append_singleton {b d : Nat} {ds : List Nat} :
    ofDigits b (ds ++ [d]) = b * ofDigits b ds + d := by
  simp [ofDigits]

/-- Digits are the number's own behind some zeros. -/
theorem exists_replicate {ds : List Nat} (hne : ds ≠ []) (hds : ∀ d ∈ ds, d < 16) :
    ∃ k, ds.map Nat.digitChar = List.replicate k '0' ++ Nat.toDigits 16 (ofDigits 16 ds) := by
  induction ds using List.reverseRecOn with
  | nil => exact absurd rfl hne
  | append_singleton ds d ih =>
      have hd : d < 16 := hds d (by simp)
      rw [List.map_append, ofDigits_append_singleton]
      by_cases hnil : ds = []
      · subst hnil
        exact ⟨0, by simp [ofDigits, Nat.toDigits_of_lt_base hd]⟩
      · obtain ⟨k, hk⟩ := ih hnil fun e he => hds e (by simp [he])
        rw [hk]
        rcases Nat.eq_zero_or_pos (ofDigits 16 ds) with hzero | hpos
        · refine ⟨k + 1, ?_⟩
          rw [hzero, Nat.mul_zero, Nat.zero_add, Nat.toDigits_of_lt_base hd, Nat.toDigits_zero,
            ← List.replicate_succ']
          rfl
        · refine ⟨k, ?_⟩
          rw [← Nat.toDigits_append_toDigits (by decide) hpos hd, Nat.toDigits_of_lt_base hd,
            List.append_assoc]
          rfl

/-- The hexadecimal digits of a number, and its value. -/
theorem exists_digits (n : Nat) : ∃ ds, (∀ d ∈ ds, d < 16) ∧
    Nat.toDigits 16 n = ds.map Nat.digitChar ∧ ofDigits 16 ds = n := by
  induction n using Nat.strongRecOn with
  | _ n ih =>
      by_cases hlt : n < 16
      · exact ⟨[n], by simpa using hlt, by simp [Nat.toDigits_of_lt_base hlt], by simp [ofDigits]⟩
      · obtain ⟨ds, hds, htext, hval⟩ := ih (n / 16) (by omega)
        refine ⟨ds ++ [n % 16], ?_, ?_, ?_⟩
        · intro d hd
          rcases List.mem_append.mp hd with hd | hd
          · exact hds d hd
          · rw [List.mem_singleton.mp hd]
            omega
        · rw [Nat.toDigits_of_base_le (by decide) (by omega), htext, List.map_append]
          rfl
        · rw [ofDigits_append_singleton, hval]
          omega

/-- A group is its number in hexadecimal, in either case and behind zeros, in four characters at
most. -/
theorem group_eq_some_iff : group s = some n ↔ s.length ≤ 4 ∧
    ∃ k, s.map Char.toLower = List.replicate k '0' ++ Nat.toDigits 16 n := by
  simp only [group]
  constructor
  · intro h
    split at h
    case isTrue hlen =>
      obtain ⟨ds, hds, rfl⟩ := Option.map_eq_some_iff.mp h
      obtain ⟨hlt, hlower⟩ := mapM_hexDigit_iff.mp hds
      have hne : ds ≠ [] := by
        rintro rfl
        have := congrArg List.length hlower
        simp at this
        simp [this] at hlen
      rw [hlower]
      exact ⟨hlen.2, exists_replicate hne hlt⟩
    case isFalse => cases h
  · rintro ⟨hlen, k, hk⟩
    obtain ⟨ds, hds, htext, rfl⟩ := exists_digits n
    have hpos : 1 ≤ s.length := by
      have := congrArg List.length hk
      have := List.length_pos_iff.mpr (Nat.toDigits_ne_nil (n := ofDigits 16 ds) (b := 16))
      simp at *
      omega
    rw [if_pos ⟨hpos, hlen⟩]
    have hall : s.mapM hexDigit = some (List.replicate k 0 ++ ds) := by
      refine mapM_hexDigit_iff.mpr ⟨fun d hd => ?_, ?_⟩
      · rcases List.mem_append.mp hd with hd | hd
        · rw [List.eq_of_mem_replicate hd]
          decide
        · exact hds d hd
      · rw [hk, htext, List.map_append, List.map_replicate]
        rfl
    have hval : ∀ k, ofDigits 16 (List.replicate k 0 ++ ds) = ofDigits 16 ds := by
      intro k
      induction k with
      | zero => rfl
      | succ k ih => simpa [ofDigits, List.replicate_succ] using ih
    rw [hall, Option.map_some, hval]

theorem mem_toDigits_hex {c : Char} (h : c ∈ Nat.toDigits 16 n) : ∃ d < 16, c = d.digitChar := by
  obtain ⟨ds, hds, htext, -⟩ := exists_digits n
  rw [htext] at h
  obtain ⟨d, hd, rfl⟩ := List.mem_map.mp h
  exact ⟨d, hds d hd, rfl⟩

theorem not_mem_toDigits_hex {c : Char} (hc : ∀ d < 16, Nat.digitChar d ≠ c) :
    c ∉ Nat.toDigits 16 n := fun h => by
  obtain ⟨d, hd, heq⟩ := mem_toDigits_hex h
  exact hc d hd heq.symm

/-- A group is read back from its digits. -/
theorem group_toDigits (h : n < 65536) : group (Nat.toDigits 16 n) = some n := by
  have hlower : ∀ d < 16, (Nat.digitChar d).toLower = Nat.digitChar d := by decide
  refine group_eq_some_iff.mpr ⟨(Nat.length_toDigits_le_iff (by decide) (by decide)).mpr h, 0, ?_⟩
  refine (List.map_congr_left fun c hc => ?_).trans (List.map_id _)
  obtain ⟨d, hd, rfl⟩ := mem_toDigits_hex hc
  exact hlower d hd

theorem group_lt (h : group s = some n) : n < 65536 := by
  obtain ⟨hlen, k, hk⟩ := group_eq_some_iff.mp h
  have hle := congrArg List.length hk
  simp only [List.length_map, List.length_append, List.length_replicate] at hle
  exact (Nat.length_toDigits_le_iff (b := 16) (k := 4) (by decide) (by decide)).mp (by omega)

/-- It is read alike in either case. -/
theorem group_map_toLower : group (s.map Char.toLower) = group s := by
  refine Option.ext fun n => ?_
  rw [group_eq_some_iff, group_eq_some_iff, List.length_map, List.map_map]
  simp only [Function.comp_def, toLower_toLower]

theorem groups_lt : ∀ g ∈ groups x, g < 65536 := by
  have hx := x.isLt
  simp only [groups, List.mem_cons, List.not_mem_nil, or_false]
  rintro g (rfl | rfl | rfl | rfl | rfl | rfl | rfl | rfl) <;> omega

/-- An address is made of its groups. -/
theorem ofGroups_groups : ofGroups (groups x) = x := by
  have hx := x.isLt
  apply BitVec.eq_of_toNat_eq
  simp only [ofGroups, ofDigits, groups, List.foldl_cons, List.foldl_nil, BitVec.toNat_ofNat]
  omega

/-- Groups are those of the address they make. -/
theorem groups_ofGroups (hlen : gs.length = 8) (hgs : ∀ g ∈ gs, g < 65536) :
    groups (ofGroups gs) = gs := by
  obtain ⟨a, b, c, d, e, f, g, h, rfl⟩ : ∃ a b c d e f g h, gs = [a, b, c, d, e, f, g, h] := by
    match gs, hlen with
    | [a, b, c, d, e, f, g, h], _ => exact ⟨a, b, c, d, e, f, g, h, rfl⟩
  simp only [List.mem_cons, List.not_mem_nil, or_false, forall_eq_or_imp, forall_eq] at hgs
  simp only [groups, ofGroups, ofDigits, List.foldl_cons, List.foldl_nil, BitVec.toNat_ofNat,
    List.cons.injEq, and_true]
  omega

/-! ### The canonical text is read back -/

theorem joined_cons_cons {g g' : Nat} :
    joined (g :: g' :: gs) = Nat.toDigits 16 g ++ ':' :: joined (g' :: gs) := by
  simp [joined, List.intercalate_cons_cons]

theorem colon_not_mem_toDigits : ':' ∉ Nat.toDigits 16 n := not_mem_toDigits_hex (by decide)

theorem dot_not_mem_toDigits : '.' ∉ Nat.toDigits 16 n := not_mem_toDigits_hex (by decide)

/-- Groups between colons do not begin with a colon. -/
theorem joined_head (g : Nat) (gs : List Nat) : ∃ c cs, c ≠ ':' ∧ joined (g :: gs) = c :: cs := by
  obtain ⟨c, cs, hc⟩ := List.exists_cons_of_ne_nil (Nat.toDigits_ne_nil (n := g) (b := 16))
  have hne : c ≠ ':' := by
    rintro rfl
    exact colon_not_mem_toDigits (hc ▸ List.mem_cons_self)
  cases gs with
  | nil => exact ⟨c, cs, hne, by simp [joined, hc]⟩
  | cons g' gs => exact ⟨c, cs ++ ':' :: joined (g' :: gs), hne, by simp [joined_cons_cons, hc]⟩

theorem joined_eq_nil_iff : joined gs = [] ↔ gs = [] := by
  match gs with
  | [] => simp [joined]
  | [g] => simp [joined, Nat.toDigits_ne_nil]
  | g :: g' :: gs => simp [joined_cons_cons]

/-- Between the colons stand the groups. -/
theorem fields_joined : fields (joined gs) = gs.map (Nat.toDigits 16) := by
  by_cases hnil : gs = []
  · simp [hnil, fields, joined]
  · rw [fields, if_neg (mt joined_eq_nil_iff.mp hnil)]
    refine List.splitOn_intercalate ':' (fun l hl => ?_) (by simpa using hnil)
    obtain ⟨g, -, rfl⟩ := List.mem_map.mp hl
    exact colon_not_mem_toDigits

theorem mapM_group_toDigits (h : ∀ g ∈ gs, g < 65536) :
    (gs.map (Nat.toDigits 16)).mapM group = some gs :=
  mapM_eq_some_iff.mpr (List.forall₂_map_left_iff.mpr (List.forall₂_same.mpr fun g hg =>
    group_toDigits (h g hg)))

theorem lastGroups_cons_cons {f f' : List Char} {fs : List (List Char)} :
    lastGroups (f :: f' :: fs) = (group f).bind fun g => (lastGroups (f' :: fs)).map (g :: ·) := by
  rw [lastGroups]
  simp

/-- The groups are read back, none of them dotted. -/
theorem lastGroups_toDigits (h : ∀ g ∈ gs, g < 65536) :
    lastGroups (gs.map (Nat.toDigits 16)) = some gs := by
  induction gs with
  | nil => rfl
  | cons g gs ih =>
      have hg := group_toDigits (h g (by simp))
      cases gs with
      | nil => simp [lastGroups, dot_not_mem_toDigits, hg]
      | cons g' gs =>
          have hrest := ih fun e he => h e (by simp [he])
          rw [List.map_cons] at hrest ⊢
          rw [List.map_cons, lastGroups_cons_cons, hg, Option.bind_some, hrest]
          rfl

/-- The double colon is looked for behind the first field. -/
theorem cut_append {f : List Char} (hf : ':' ∉ f) :
    cut (f ++ s) = (cut s).map fun r => (f ++ r.1, r.2) := by
  induction f with
  | nil => simp
  | cons c f ih =>
      have hc : c ≠ ':' := by
        rintro rfl
        simp at hf
      have hf' : ':' ∉ f := fun hmem => hf (by simp [hmem])
      rw [List.cons_append, cut, ih hf', Option.map_map]
      · rfl
      · rintro s rfl
        exact absurd rfl hc

theorem cut_colon {c : Char} (hc : c ≠ ':') :
    cut (':' :: c :: s) = (cut (c :: s)).map fun r => (':' :: r.1, r.2) := by
  rw [cut]
  rintro s - h
  exact hc (List.cons.inj h).1

/-- Joined groups hold no double colon. -/
theorem cut_joined : cut (joined gs ++ s) = (cut s).map fun r => (joined gs ++ r.1, r.2) := by
  induction gs with
  | nil => simp [joined]
  | cons g gs ih =>
      cases gs with
      | nil =>
          rw [show joined [g] = Nat.toDigits 16 g by simp [joined]]
          exact cut_append colon_not_mem_toDigits
      | cons g' gs =>
          obtain ⟨c, cs, hne, hc⟩ := joined_head g' gs
          rw [joined_cons_cons, List.append_assoc, cut_append colon_not_mem_toDigits,
            List.cons_append]
          rw [hc, List.cons_append] at ih ⊢
          rw [cut_colon hne, ih, Option.map_map, Option.map_map]
          simp [Function.comp_def]

/-- Eight groups are read back. -/
theorem parseGroups_joined (hlen : gs.length = 8) (hgs : ∀ g ∈ gs, g < 65536) :
    parseGroups (joined gs) = some gs := by
  have hcut : cut (joined gs) = none := by
    rw [← List.append_nil (joined gs), cut_joined]
    rfl
  simp [parseGroups, hcut, fields_joined, lastGroups_toDigits hgs, hlen]

/-- On both sides of a double colon they are, with zeros between them. -/
theorem parseGroups_cut {front back : List Nat} (hlen : front.length + back.length < 8)
    (hfront : ∀ g ∈ front, g < 65536) (hback : ∀ g ∈ back, g < 65536) :
    parseGroups (joined front ++ ':' :: ':' :: joined back) =
      some (front ++ List.replicate (8 - (front.length + back.length)) 0 ++ back) := by
  have hcut : cut (joined front ++ ':' :: ':' :: joined back) = some (joined front, joined back) := by
    rw [cut_joined, cut]
    simp
  simp only [parseGroups, hcut, fields_joined, mapM_group_toDigits hfront, lastGroups_toDigits hback,
    Option.bind_some, if_pos hlen]

/-- A run of zeros may be taken out. -/
theorem eq_replicate_of_le_zeros {m : Nat} (h : m ≤ zeros gs) :
    gs = List.replicate m 0 ++ gs.drop m := by
  induction gs generalizing m with
  | nil => simp_all [zeros]
  | cons g gs ih =>
      cases m with
      | zero => simp
      | succ m =>
          cases g with
          | zero => simpa [List.replicate_succ] using ih (by simpa [zeros] using h)
          | succ g => simp [zeros] at h

/-- The run that is compressed is one of zeros. -/
theorem longestRun_le : (longestRun gs).2 ≤ zeros (gs.drop (longestRun gs).1) := by
  have hfold : ∀ (l : List Nat) (best : Nat × Nat), best.2 ≤ zeros (gs.drop best.1) →
      (l.foldl (longer gs) best).2 ≤ zeros (gs.drop (l.foldl (longer gs) best).1) := by
    intro l
    induction l with
    | nil => exact fun best h => h
    | cons i l ih =>
        intro best h
        refine ih (longer gs best i) ?_
        rw [longer]
        split
        · exact Nat.le_refl _
        · exact h
  exact hfold _ _ (Nat.zero_le _)

/-- The compressed text is read as the groups. -/
theorem parseGroups_compressed (hlen : gs.length = 8) (hgs : ∀ g ∈ gs, g < 65536) :
    parseGroups (compressed gs) = some gs := by
  have hle : (longestRun gs).2 ≤ zeros (gs.drop (longestRun gs).1) := longestRun_le
  rw [compressed]
  generalize longestRun gs = run at hle ⊢
  obtain ⟨start, len⟩ := run
  simp only at hle ⊢
  split
  · exact parseGroups_joined hlen hgs
  · -- the run is cut out between its two sides
    have hsplit := eq_replicate_of_le_zeros hle
    rw [List.drop_drop] at hsplit
    have hgroups : gs = gs.take start ++ List.replicate len 0 ++ gs.drop (start + len) := by
      rw [List.append_assoc, ← hsplit, List.take_append_drop]
    have htotal := congrArg List.length hgroups
    simp only [List.length_append, List.length_replicate, hlen] at htotal
    rw [parseGroups_cut (by omega) (fun g hg => hgs g (List.mem_of_mem_take hg))
      (fun g hg => hgs g (List.mem_of_mem_drop hg))]
    rw [show 8 - ((gs.take start).length + (gs.drop (start + len)).length) = len by omega, ← hgroups]

/-- The inverse of the embedding. -/
theorem unmapped_eq_some_iff : unmapped x = some a ↔ x = mapped a := by
  have hx := x.isLt
  have ha := a.isLt
  simp only [unmapped, mapped, ← BitVec.toNat_inj, Option.ite_none_right_eq_some, Option.some.injEq,
    BitVec.toNat_ofNat]
  omega

/-- The characters of a dotted text. -/
theorem mem_text4 {c : Char} (h : c ∈ text4 a) : c = '.' ∨ c.isDigit = true := by
  rcases mem_intercalate h with rfl | ⟨f, hf, hc⟩
  · exact .inl rfl
  · obtain ⟨n, -, rfl⟩ := List.mem_map.mp hf
    exact .inr (Nat.isDigit_of_mem_toDigits (by decide) (by decide) hc)

theorem text4_inj {b : Ipv4} : text4 a = text4 b ↔ a = b := by
  refine ⟨fun h => ?_, congrArg text4⟩
  have ha := parse4_eq_some_iff.mpr (rfl : text4 a = text4 a)
  rw [h, parse4_eq_some_iff.mpr rfl] at ha
  exact (Option.some.inj ha).symm

/-- An IPv4-mapped text in dotted form. -/
theorem parse6_dotted (hcolon : ':' ∉ t) (hdot : '.' ∈ t) :
    parse6 ("::ffff:".toList ++ t) = (parse4 t).map mapped := by
  have hfields : fields ("ffff:".toList ++ t) = ["ffff".toList, t] := by
    have hsplit : ("ffff".toList ++ ':' :: t).splitOn ':' = "ffff".toList :: t.splitOn ':' :=
      List.splitOn_append_cons_self_of_not_mem (by decide) t
    rw [List.splitOn_eq_singleton hcolon] at hsplit
    exact hsplit
  have hcut : cut ("::ffff:".toList ++ t) = some ([], "ffff:".toList ++ t) := rfl
  have hgroup : group "ffff".toList = some 0xffff := by decide
  simp only [parse6, parseGroups, hcut, hfields, lastGroups, hdot, hgroup]
  cases parse4 t with
  | none => rfl
  | some a =>
      have ha := a.isLt
      refine congrArg some (BitVec.eq_of_toNat_eq ?_)
      simp [ofGroups, ofDigits, mapped]
      omega

/-- The canonical text is read back. -/
theorem parse6_text6 : parse6 (text6 x) = some x := by
  simp only [text6]
  split
  case h_1 a ha =>
    rw [parse6_dotted, parse4_eq_some_iff.mpr rfl, Option.map_some, unmapped_eq_some_iff.mp ha]
    · exact fun h => by simpa using mem_text4 h
    · simp [text4, octets, List.intercalate_cons_cons]
  case h_2 => rw [parse6, parseGroups_compressed rfl groups_lt, Option.map_some, ofGroups_groups]

theorem toNat_mapped : (mapped a).toNat = 0xffff * 2 ^ 32 + a.toNat := by
  have ha := a.isLt
  rw [mapped, BitVec.toNat_ofNat]
  exact Nat.mod_eq_of_lt (by omega)

/-- A mapped address lies beyond the first 2^32. -/
theorem ne_mapped (h : x.toNat < 2 ^ 32) : x ≠ mapped a := by
  rintro rfl
  rw [toNat_mapped] at h
  omega

theorem mapped_inj {b : Ipv4} : mapped a = mapped b ↔ a = b := by
  rw [← unmapped_eq_some_iff, unmapped_eq_some_iff.mpr rfl, Option.some.injEq]

theorem text6_mapped : text6 (mapped a) = "::ffff:".toList ++ text4 a := by
  rw [text6, unmapped_eq_some_iff.mpr rfl]

theorem mem_joined {c : Char} (h : c ∈ joined gs) : c = ':' ∨ ∃ d < 16, c = d.digitChar := by
  rcases mem_intercalate h with rfl | ⟨f, hf, hc⟩
  · exact .inl rfl
  · obtain ⟨n, -, rfl⟩ := List.mem_map.mp hf
    exact .inr (mem_toDigits_hex hc)

/-- The characters of a compressed text. -/
theorem mem_compressed {c : Char} (h : c ∈ compressed gs) : c = ':' ∨ ∃ d < 16, c = d.digitChar := by
  simp only [compressed] at h
  split at h
  · exact mem_joined h
  · rcases List.mem_append.mp h with h | h
    · exact mem_joined h
    · rcases List.mem_cons.mp h with rfl | h
      · exact .inl rfl
      · rcases List.mem_cons.mp h with rfl | h
        · exact .inl rfl
        · exact mem_joined h

/-- An IPv6 text has a colon, and no IPv4 text has. -/
theorem colon_mem_text6 : ':' ∈ text6 x := by
  simp only [text6]
  split
  · simp
  · simp only [compressed]
    split
    · rw [groups, joined_cons_cons]
      simp
    · simp

/-- Only an IPv6 text has a colon. -/
theorem parse4_text6 : parse4 (text6 x) = none := by
  cases h : parse4 (text6 x) with
  | none => rfl
  | some a =>
      have hcolon : ':' ∈ text4 a := parse4_eq_some_iff.mp h ▸ colon_mem_text6
      simpa using mem_text4 hcolon

/-! ### Letter case -/

/-- Case does not move the separators. -/
theorem splitOn_map_toLower {c : Char} (hc : c.toNat < 65) :
    (s.map Char.toLower).splitOn c = (s.splitOn c).map (List.map Char.toLower) := by
  induction s with
  | nil => rfl
  | cons d s ih =>
      rw [List.map_cons, List.splitOn_cons_eq_if_modifyHead, List.splitOn_cons_eq_if_modifyHead, ih]
      have hiff : (d.toLower == c) = (d == c) := by
        rw [Bool.eq_iff_iff, beq_iff_eq, beq_iff_eq, toLower_eq_iff hc]
      rw [hiff]
      split
      · rfl
      · cases s.splitOn c <;> rfl

theorem fields_map_toLower : fields (s.map Char.toLower) = (fields s).map (List.map Char.toLower) := by
  simp only [fields, List.map_eq_nil_iff]
  split
  · rfl
  · exact splitOn_map_toLower (by decide)

theorem map_toLower_eq_iff (ht : ∀ c ∈ t, c.toNat < 65) : s.map Char.toLower = t ↔ s = t := by
  induction s generalizing t with
  | nil => simp
  | cons c s ih =>
      cases t with
      | nil => simp
      | cons d t =>
          rw [List.map_cons, List.cons.injEq, List.cons.injEq, toLower_eq_iff (ht d (by simp)),
            ih fun e he => ht e (by simp [he])]

theorem toNat_lt_of_mem_text4 {c : Char} (h : c ∈ text4 a) : c.toNat < 65 := by
  rcases mem_text4 h with rfl | hc
  · decide
  · rw [Char.isDigit, Bool.and_eq_true, decide_eq_true_eq, decide_eq_true_eq] at hc
    exact Nat.lt_of_le_of_lt (UInt32.le_iff_toNat_le.mp hc.2) (by decide)

/-- A dotted text has no letters. -/
theorem parse4_map_toLower : parse4 (s.map Char.toLower) = parse4 s := by
  refine Option.ext fun a => ?_
  rw [parse4_eq_some_iff, parse4_eq_some_iff, map_toLower_eq_iff fun c => toNat_lt_of_mem_text4]

/-- The groups are read alike in either case. -/
theorem lastGroups_map_toLower (fs : List (List Char)) :
    lastGroups (fs.map (List.map Char.toLower)) = lastGroups fs := by
  induction fs with
  | nil => rfl
  | cons f fs ih =>
      cases fs with
      | nil =>
          have hdot : '.' ∈ f.map Char.toLower ↔ '.' ∈ f := by
            simp [toLower_eq_iff (d := '.') (by decide)]
          simp only [List.map_cons, List.map_nil, lastGroups, hdot, parse4_map_toLower, group_map_toLower]
      | cons f' fs =>
          rw [List.map_cons] at ih ⊢
          rw [List.map_cons, lastGroups_cons_cons, lastGroups_cons_cons, group_map_toLower, ih]

theorem cut_map_toLower :
    cut (s.map Char.toLower) =
      (cut s).map fun r => (r.1.map Char.toLower, r.2.map Char.toLower) := by
  induction s using cut.induct with
  | case1 => rfl
  | case2 s => rfl
  | case3 c s hne ih =>
      rw [cut, List.map_cons, cut, ih, Option.map_map, Option.map_map]
      · rfl
      · rintro t hc ht
        obtain ⟨d, s', rfl⟩ := List.exists_cons_of_ne_nil (l := s) (by rintro rfl; cases ht)
        rw [List.map_cons, List.cons.injEq, toLower_eq_iff (by decide)] at ht
        exact hne s' ((toLower_eq_iff (by decide)).mp hc) (by rw [ht.1])
      · exact hne

/-- The canonical text is in lower case. -/
theorem map_toLower_text6 : (text6 x).map Char.toLower = text6 x := by
  simp only [text6]
  split
  · rw [List.map_append, (map_toLower_eq_iff fun c => toNat_lt_of_mem_text4).mpr rfl]
    rfl
  · refine (List.map_congr_left fun c hc => ?_).trans (List.map_id _)
    rcases mem_compressed hc with rfl | ⟨d, hd, rfl⟩
    · rfl
    · exact (show ∀ d < 16, (Nat.digitChar d).toLower = Nat.digitChar d by decide) d hd

/-- Letter case means nothing. -/
theorem parse6_map_toLower : parse6 (s.map Char.toLower) = parse6 s := by
  have hgroups : ∀ fs : List (List Char),
      (fs.map (List.map Char.toLower)).mapM group = fs.mapM group := by
    intro fs
    simp only [List.mapM_map, Function.comp_def, group_map_toLower]
  simp only [parse6, parseGroups, cut_map_toLower]
  cases cut s with
  | none => simp only [Option.map_none, fields_map_toLower, lastGroups_map_toLower]
  | some r => simp only [Option.map_some, fields_map_toLower, lastGroups_map_toLower, hgroups]

/-! ### The first group -/

/-- What stands on both sides of the first double colon. -/
theorem cut_eq_some {front back : List Char} (h : cut s = some (front, back)) :
    s = front ++ ':' :: ':' :: back := by
  induction s using cut.induct generalizing front back with
  | case1 => cases h
  | case2 s =>
      cases h
      rfl
  | case3 c s hne ih =>
      rw [cut] at h
      · obtain ⟨⟨front', back'⟩, hcut, heq⟩ := Option.map_eq_some_iff.mp h
        cases heq
        rw [ih hcut, List.cons_append]
      · exact hne

/-- The groups of a text have 16 bits. -/
theorem lastGroups_lt {fs : List (List Char)} (h : lastGroups fs = some gs) : ∀ g ∈ gs, g < 65536 := by
  induction fs generalizing gs with
  | nil =>
      cases h
      simp
  | cons f fs ih =>
      cases fs with
      | nil =>
          simp only [lastGroups] at h
          split at h
          · obtain ⟨a, -, rfl⟩ := Option.map_eq_some_iff.mp h
            have ha := a.isLt
            simp only [List.mem_cons, List.not_mem_nil, or_false]
            rintro g (rfl | rfl) <;> omega
          · obtain ⟨g, hg, rfl⟩ := Option.map_eq_some_iff.mp h
            simpa using group_lt hg
      | cons f' fs =>
          rw [lastGroups_cons_cons] at h
          obtain ⟨g, hg, h⟩ := Option.bind_eq_some_iff.mp h
          obtain ⟨gs', hgs', rfl⟩ := Option.map_eq_some_iff.mp h
          rintro e he
          rcases List.mem_cons.mp he with rfl | he
          · exact group_lt hg
          · exact ih hgs' e he

theorem mapM_group_lt {fs : List (List Char)} (h : fs.mapM group = some gs) : ∀ g ∈ gs, g < 65536 := by
  intro g hg
  obtain ⟨i, hi, rfl⟩ := List.getElem_of_mem hg
  have hall := mapM_eq_some_iff.mp h
  exact group_lt (hall.get (by rwa [hall.length_eq]) hi)

/-- The groups of an IPv6 text are eight, and the text begins with the first one unless it begins
with `::`. -/
theorem parseGroups_cases (h : parseGroups s = some gs) : gs.length = 8 ∧ (∀ g ∈ gs, g < 65536) ∧
    ((gs.head? = some 0 ∧ ∃ t, s = ':' :: ':' :: t) ∨
      ∃ f t, s = f ++ ':' :: t ∧ group f = gs.head?) := by
  simp only [parseGroups] at h
  split at h
  case h_1 hcut =>
    obtain ⟨hgs, hlen⟩ := Option.filter_eq_some_iff.mp h
    rw [decide_eq_true_eq] at hlen
    refine ⟨hlen, lastGroups_lt hgs, .inr ?_⟩
    obtain ⟨f, f', fs, hfs⟩ : ∃ f f' fs, fields s = f :: f' :: fs := by
      match hfs : fields s, hgs with
      | [], hgs =>
          cases hgs
          cases hlen
      | [f], hgs =>
          simp only [lastGroups] at hgs
          split at hgs <;> obtain ⟨_, -, rfl⟩ := Option.map_eq_some_iff.mp hgs <;> cases hlen
      | f :: f' :: fs, _ => exact ⟨f, f', fs, rfl⟩
    rw [hfs, lastGroups_cons_cons] at hgs
    obtain ⟨g, hg, hrest⟩ := Option.bind_eq_some_iff.mp hgs
    obtain ⟨gs', -, rfl⟩ := Option.map_eq_some_iff.mp hrest
    have hsplit : s.splitOn ':' = f :: f' :: fs := by
      rw [← hfs, fields, if_neg]
      rintro rfl
      cases hfs
    have hs : [':'].intercalate (s.splitOn ':') = s := List.intercalate_splitOn ':'
    rw [hsplit, List.intercalate_cons_cons, List.append_assoc] at hs
    exact ⟨f, _, hs.symm, hg⟩
  case h_2 front back hcut =>
    have hs := cut_eq_some hcut
    obtain ⟨gs₁, h₁, h⟩ := Option.bind_eq_some_iff.mp h
    obtain ⟨gs₂, h₂, h⟩ := Option.bind_eq_some_iff.mp h
    obtain ⟨hlt, heq⟩ := (Option.ite_none_right_eq_some).mp h
    cases heq
    refine ⟨by simp; omega, fun g hg => ?_, ?_⟩
    · rcases List.mem_append.mp hg with hg | hg
      · rcases List.mem_append.mp hg with hg | hg
        · exact mapM_group_lt h₁ g hg
        · rw [List.eq_of_mem_replicate hg]
          decide
      · exact lastGroups_lt h₂ g hg
    · by_cases hnil : front = []
      · subst hnil
        obtain rfl : gs₁ = [] := by simpa [fields, eq_comm] using h₁
        obtain ⟨k, hk⟩ : ∃ k, 8 - (([] : List Nat).length + gs₂.length) = k + 1 :=
          ⟨7 - gs₂.length, by simp only [List.length_nil] at *; omega⟩
        exact .inl ⟨by rw [hk]; rfl, back, hs⟩
      · rw [fields, if_neg hnil] at h₁
        obtain ⟨f, fs, hsplit⟩ := List.exists_cons_of_ne_nil (List.splitOn_ne_nil ':' front)
        have hfront : [':'].intercalate (front.splitOn ':') = front := List.intercalate_splitOn ':'
        rw [hsplit] at h₁ hfront
        obtain ⟨g, gs', hg, -, rfl⟩ := List.forall₂_cons_left_iff.mp (mapM_eq_some_iff.mp h₁)
        refine .inr ?_
        cases fs with
        | nil => exact ⟨f, ':' :: back, by rw [hs, ← hfront, List.intercalate_singleton], hg⟩
        | cons f' fs =>
            rw [List.intercalate_cons_cons, List.append_assoc] at hfront
            exact ⟨f, [':'].intercalate (f' :: fs) ++ ':' :: ':' :: back, by rw [hs, ← hfront]; simp, hg⟩

/-- An IPv6 text begins with its first group, unless it begins with `::`. -/
theorem parse6_cases (h : parse6 s = some x) :
    (x.toNat / 2 ^ 112 = 0 ∧ ∃ t, s = ':' :: ':' :: t) ∨
      ∃ f t, s = f ++ ':' :: t ∧ group f = some (x.toNat / 2 ^ 112) := by
  obtain ⟨gs, hgs, rfl⟩ := Option.map_eq_some_iff.mp h
  obtain ⟨hlen, hlt, hcases⟩ := parseGroups_cases hgs
  have hhead : gs.head? = some ((ofGroups gs).toNat / 2 ^ 112) := by
    conv_lhs => rw [← groups_ofGroups hlen hlt]
    rfl
  rw [hhead] at hcases
  simpa using hcases

end

end Lib.Inet
