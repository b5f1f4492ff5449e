import Mathlib.Data.List.TakeWhile

/-!
# Lib — Base64

Base64 over lists of bytes: the URL alphabet without padding and the standard one with it on the way
out, and on the way in three decoders.  `decode` never fails: it reads either alphabet, passes over any
other character, and stops at the first `=`; of a text in UTF-16 it sees only the low byte of each code
unit.  `decodeUrl` and `decodeStd` refuse what is not of their alphabet, line breaks apart.

* `groups`, `ungroup`: three bytes as four numbers below 64, and back.
* **`decode_encodeUrl`**, **`decodeUrl_encodeUrl`**, **`decode_encodeStd`**, **`decodeStd_encodeStd`**:
  what is encoded is read back.
-/

namespace Lib.Base64

/-- The URL alphabet. -/
def urlChar (n : Nat) : Char :=
  if n < 26 then Char.ofNat ('A'.toNat + n)
  else if n < 52 then Char.ofNat ('a'.toNat + (n - 26))
  else if n < 62 then Char.ofNat ('0'.toNat + (n - 52))
  else if n = 62 then '-' else '_'

/-- The number of a character in the standard or the URL alphabet. -/
def index? (c : Char) : Option Nat :=
  if 'A' ≤ c && c ≤ 'Z' then some (c.toNat - 'A'.toNat)
  else if 'a' ≤ c && c ≤ 'z' then some (c.toNat - 'a'.toNat + 26)
  else if '0' ≤ c && c ≤ '9' then some (c.toNat - '0'.toNat + 52)
  else if c = '+' || c = '-' then some 62
  else if c = '/' || c = '_' then some 63
  else none

/-- Three bytes as four numbers of six bits; one or two left over give two or three. -/
def groups : List UInt8 → List Nat
  | a :: b :: c :: rest =>
      [a.toNat / 4, a.toNat % 4 * 16 + b.toNat / 16, b.toNat % 16 * 4 + c.toNat / 64,
        c.toNat % 64] ++ groups rest
  | [a, b] => [a.toNat / 4, a.toNat % 4 * 16 + b.toNat / 16, b.toNat % 16 * 4]
  | [a] => [a.toNat / 4, a.toNat % 4 * 16]
  | [] => []

/-- Four numbers of six bits as three bytes.  Bits that fill no byte are dropped. -/
def ungroup : List Nat → List UInt8
  | p :: q :: r :: s :: rest =>
      [.ofNat (p * 4 + q / 16), .ofNat (q % 16 * 16 + r / 4), .ofNat (r % 4 * 64 + s)] ++
        ungroup rest
  | [p, q, r] => [.ofNat (p * 4 + q / 16), .ofNat (q % 16 * 16 + r / 4)]
  | [p, q] => [.ofNat (p * 4 + q / 16)]
  | [_] | [] => []

/-- The URL alphabet, without padding. -/
def encodeUrl (bs : List UInt8) : List Char := (groups bs).map urlChar

/-- Either alphabet, up to the first `=`. -/
def decodeLatin1 (cs : List Char) : List UInt8 :=
  ungroup ((cs.takeWhile (· ≠ '=')).filterMap index?)

/-- The low bytes of a character's UTF-16 code units, as characters. -/
def lowBytes (c : Char) : List Char :=
  if c.toNat < 0x10000 then [Char.ofNat (c.toNat % 256)]
  else [Char.ofNat ((c.toNat - 0x10000) / 0x400 % 256), Char.ofNat (c.toNat % 256)]

/-- Either alphabet, up to the first `=`, in the low bytes of the text. -/
def decode (cs : List Char) : List UInt8 := decodeLatin1 (cs.flatMap lowBytes)

/-- The number of a character in the URL alphabet. -/
def urlIndex? (c : Char) : Option Nat := if c = '+' || c = '/' then none else index? c

/-- The URL alphabet without padding; line breaks are passed over.  One number over fills no byte. -/
def decodeUrl (cs : List Char) : Option (List UInt8) :=
  ((cs.filter fun c => c ≠ '\n' && c ≠ '\r').mapM urlIndex?).bind fun ns =>
    if ns.length % 4 = 1 then none else some (ungroup ns)

/-- The standard alphabet. -/
def stdChar (n : Nat) : Char := if n = 62 then '+' else if n = 63 then '/' else urlChar n

/-- How many `=` fill up the last four characters. -/
def padding (bs : List UInt8) : Nat := (3 - bs.length % 3) % 3

/-- The standard alphabet, with padding. -/
def encodeStd (bs : List UInt8) : List Char := (groups bs).map stdChar ++ List.replicate (padding bs) '='

/-- The number of a character in the standard alphabet. -/
def stdIndex? (c : Char) : Option Nat := if c = '-' || c = '_' then none else index? c

/-- Four characters at a time; only the last four may end in `=` or `==`. -/
def decodeQuads : List Char → Option (List UInt8)
  | [] => some []
  | a :: b :: c :: d :: rest =>
      (stdIndex? a).bind fun p => (stdIndex? b).bind fun q =>
        if c = '=' then if d = '=' && rest = [] then some (ungroup [p, q]) else none
        else (stdIndex? c).bind fun r =>
          if d = '=' then if rest = [] then some (ungroup [p, q, r]) else none
          else (stdIndex? d).bind fun s => (decodeQuads rest).map (ungroup [p, q, r, s] ++ ·)
  | _ => none

/-- The standard alphabet with padding; line breaks are passed over. -/
def decodeStd (cs : List Char) : Option (List UInt8) :=
  decodeQuads (cs.filter fun c => c ≠ '\n' && c ≠ '\r')

section

variable {n : Nat} {ns : List Nat}

theorem index?_urlChar : ∀ n < 64, index? (urlChar n) = some n := by decide

theorem urlChar_ne_pad : ∀ n < 64, urlChar n ≠ '=' := by decide

theorem lt_of_mem_groups (bs : List UInt8) (h : n ∈ groups bs) : n < 64 := by
  fun_induction groups bs with
  | case1 a b c rest ih =>
      have ha := a.toNat_lt
      have hb := b.toNat_lt
      have hc := c.toNat_lt
      simp only [List.cons_append, List.nil_append, List.mem_cons] at h
      rcases h with h | h | h | h | h
      · omega
      · omega
      · omega
      · omega
      · exact ih h
  | case2 a b =>
      have ha := a.toNat_lt
      have hb := b.toNat_lt
      simp only [List.mem_cons, List.not_mem_nil, or_false] at h
      omega
  | case3 a =>
      have ha := a.toNat_lt
      simp only [List.mem_cons, List.not_mem_nil, or_false] at h
      omega
  | case4 => cases h

theorem ofNat_eq {m : Nat} (b : UInt8) (h : m = b.toNat) : UInt8.ofNat m = b := by
  rw [h, UInt8.ofNat_toNat]

theorem ungroup_groups (bs : List UInt8) : ungroup (groups bs) = bs := by
  fun_induction groups bs with
  | case1 a b c rest ih =>
      have ha := a.toNat_lt
      have hb := b.toNat_lt
      have hc := c.toNat_lt
      rw [List.cons_append, List.cons_append, List.cons_append, List.cons_append, List.nil_append,
        ungroup, ih, ofNat_eq a (by omega), ofNat_eq b (by omega), ofNat_eq c (by omega)]
      rfl
  | case2 a b =>
      have ha := a.toNat_lt
      have hb := b.toNat_lt
      rw [ungroup, ofNat_eq a (by omega), ofNat_eq b (by omega)]
  | case3 a =>
      have ha := a.toNat_lt
      rw [ungroup, ofNat_eq a (by omega)]
  | case4 => rfl

theorem filterMap_index? {char : Nat → Char} (h : ∀ n ∈ ns, n < 64)
    (hchar : ∀ n < 64, index? (char n) = some n) : (ns.map char).filterMap index? = ns := by
  induction ns with
  | nil => rfl
  | cons n ns ih =>
      rw [List.map_cons, List.filterMap_cons_some (hchar n (h n List.mem_cons_self)),
        ih fun m hm => h m (List.mem_cons_of_mem _ hm)]

theorem lowBytes_of_lt {c : Char} (h : c.toNat < 256) : lowBytes c = [c] := by
  rw [lowBytes, if_pos (h.trans (by decide)), Nat.mod_eq_of_lt h, Char.ofNat_toNat]

/-- The text is its own low bytes. -/
theorem decode_of_latin1 {cs : List Char} (h : ∀ c ∈ cs, c.toNat < 256) : decode cs = decodeLatin1 cs := by
  have hsame : cs.flatMap lowBytes = cs := by
    induction cs with
    | nil => rfl
    | cons c cs ih =>
        rw [List.flatMap_cons, lowBytes_of_lt (h c List.mem_cons_self),
          ih fun c hc => h c (List.mem_cons_of_mem _ hc)]
        rfl
  rw [decode, hsame]

theorem ascii_urlChar : ∀ n < 64, (urlChar n).toNat < 128 := by decide

/-- What is encoded is read back. -/
theorem decode_encodeUrl (bs : List UInt8) : decode (encodeUrl bs) = bs := by
  have hlatin1 : ∀ c ∈ encodeUrl bs, c.toNat < 256 := by
    intro c hc
    obtain ⟨n, hn, rfl⟩ := List.mem_map.mp hc
    exact (ascii_urlChar n (lt_of_mem_groups bs hn)).trans (by decide)
  have hall : ∀ c ∈ encodeUrl bs, decide (c ≠ '=') = true := by
    intro c hc
    obtain ⟨n, hn, rfl⟩ := List.mem_map.mp hc
    exact decide_eq_true (urlChar_ne_pad n (lt_of_mem_groups bs hn))
  rw [decode_of_latin1 hlatin1, decodeLatin1, List.takeWhile_eq_self_iff.mpr hall, encodeUrl,
    filterMap_index? (fun n hn => lt_of_mem_groups bs hn) index?_urlChar, ungroup_groups]

theorem length_groups (bs : List UInt8) : (groups bs).length % 4 ≠ 1 := by
  fun_induction groups bs with
  | case1 a b c rest ih =>
      rw [List.length_append]
      simpa [Nat.add_comm 4] using ih
  | case2 | case3 | case4 => simp

theorem urlIndex?_urlChar : ∀ n < 64, urlIndex? (urlChar n) = some n := by decide

theorem urlChar_ne_break : ∀ n < 64, urlChar n ≠ '\n' ∧ urlChar n ≠ '\r' := by decide

theorem mapM_urlIndex? (h : ∀ n ∈ ns, n < 64) : (ns.map urlChar).mapM urlIndex? = some ns := by
  induction ns with
  | nil => rfl
  | cons n ns ih =>
      rw [List.map_cons, List.mapM_cons, urlIndex?_urlChar n (h n List.mem_cons_self),
        ih fun m hm => h m (List.mem_cons_of_mem _ hm)]
      rfl

/-- What is encoded is read back. -/
theorem decodeUrl_encodeUrl (bs : List UInt8) : decodeUrl (encodeUrl bs) = some bs := by
  have hlt : ∀ n ∈ groups bs, n < 64 := fun n hn => lt_of_mem_groups bs hn
  have hbreak : (encodeUrl bs).filter (fun c => c ≠ '\n' && c ≠ '\r') = encodeUrl bs := by
    refine List.filter_eq_self.mpr fun c hc => ?_
    obtain ⟨n, hn, rfl⟩ := List.mem_map.mp hc
    simpa using urlChar_ne_break n (hlt n hn)
  rw [decodeUrl, hbreak, encodeUrl, mapM_urlIndex? hlt, Option.bind_some, if_neg (length_groups bs),
    ungroup_groups]

/-! ### The standard alphabet -/

theorem index?_stdChar : ∀ n < 64, index? (stdChar n) = some n := by decide

theorem stdIndex?_stdChar : ∀ n < 64, stdIndex? (stdChar n) = some n := by decide

theorem stdChar_plain : ∀ n < 64, stdChar n ≠ '=' ∧ stdChar n ≠ '\n' ∧ stdChar n ≠ '\r' ∧
    (stdChar n).toNat < 128 := by decide

theorem mem_encodeStd {c : Char} (bs : List UInt8) (h : c ∈ encodeStd bs) :
    c = '=' ∨ ∃ n < 64, c = stdChar n := by
  rcases List.mem_append.mp h with h | h
  · obtain ⟨n, hn, rfl⟩ := List.mem_map.mp h
    exact .inr ⟨n, lt_of_mem_groups bs hn, rfl⟩
  · exact .inl (List.eq_of_mem_replicate h)

/-- Base64 is ASCII. -/
theorem ascii_encodeStd {c : Char} (bs : List UInt8) (h : c ∈ encodeStd bs) : c.toNat < 128 := by
  rcases mem_encodeStd bs h with rfl | ⟨n, hn, rfl⟩
  · decide
  · exact (stdChar_plain n hn).2.2.2

/-- What is encoded is read back. -/
theorem decode_encodeStd (bs : List UInt8) : decode (encodeStd bs) = bs := by
  have hlt : ∀ n ∈ groups bs, n < 64 := fun n hn => lt_of_mem_groups bs hn
  have hchars : ((encodeStd bs).takeWhile (· ≠ '=')) = (groups bs).map stdChar := by
    rw [encodeStd, List.takeWhile_append_of_pos]
    · cases padding bs <;> simp [List.replicate_succ]
    · intro c hc
      obtain ⟨n, hn, rfl⟩ := List.mem_map.mp hc
      exact decide_eq_true (stdChar_plain n (hlt n hn)).1
  rw [decode_of_latin1 fun c hc => (ascii_encodeStd bs hc).trans (by decide), decodeLatin1,
    hchars, filterMap_index? hlt index?_stdChar, ungroup_groups]

/-- Four characters that are no padding. -/
theorem decodeQuads_four {p q r s : Nat} (hp : p < 64) (hq : q < 64) (hr : r < 64) (hs : s < 64)
    (rest : List Char) :
    decodeQuads (stdChar p :: stdChar q :: stdChar r :: stdChar s :: rest) =
      (decodeQuads rest).map (ungroup [p, q, r, s] ++ ·) := by
  rw [decodeQuads, stdIndex?_stdChar p hp, stdIndex?_stdChar q hq, stdIndex?_stdChar r hr,
    stdIndex?_stdChar s hs]
  simp [(stdChar_plain r hr).1, (stdChar_plain s hs).1]

theorem decodeQuads_encodeStd (bs : List UInt8) : decodeQuads (encodeStd bs) = some bs := by
  fun_induction groups bs with
  | case1 a b c rest ih =>
      have hlt : ∀ n ∈ groups (a :: b :: c :: rest), n < 64 := fun n hn => lt_of_mem_groups _ hn
      have hpad : padding (a :: b :: c :: rest) = padding rest := by
        show (3 - (rest.length + 3) % 3) % 3 = _
        rw [Nat.add_mod_right]
        rfl
      have hchars : encodeStd (a :: b :: c :: rest) = stdChar (a.toNat / 4) ::
          stdChar (a.toNat % 4 * 16 + b.toNat / 16) :: stdChar (b.toNat % 16 * 4 + c.toNat / 64) ::
            stdChar (c.toNat % 64) :: encodeStd rest := by
        rw [encodeStd, hpad]
        rfl
      have hbytes : ungroup [a.toNat / 4, a.toNat % 4 * 16 + b.toNat / 16,
          b.toNat % 16 * 4 + c.toNat / 64, c.toNat % 64] = [a, b, c] := ungroup_groups [a, b, c]
      rw [hchars, decodeQuads_four (hlt _ (by simp [groups])) (hlt _ (by simp [groups]))
        (hlt _ (by simp [groups])) (hlt _ (by simp [groups])), ih, hbytes]
      rfl
  | case2 a b =>
      have hlt : ∀ n ∈ groups [a, b], n < 64 := fun n hn => lt_of_mem_groups _ hn
      have hbytes : ungroup [a.toNat / 4, a.toNat % 4 * 16 + b.toNat / 16, b.toNat % 16 * 4] = [a, b] :=
        ungroup_groups [a, b]
      have hchars : encodeStd [a, b] = [stdChar (a.toNat / 4),
          stdChar (a.toNat % 4 * 16 + b.toNat / 16), stdChar (b.toNat % 16 * 4), '='] := rfl
      have hr : b.toNat % 16 * 4 < 64 := hlt _ (by simp [groups])
      rw [hchars, decodeQuads, stdIndex?_stdChar _ (hlt _ (by simp [groups])),
        stdIndex?_stdChar _ (hlt _ (by simp [groups])), stdIndex?_stdChar _ hr]
      simpa [(stdChar_plain _ hr).1] using hbytes
  | case3 a =>
      have hlt : ∀ n ∈ groups [a], n < 64 := fun n hn => lt_of_mem_groups _ hn
      have hbytes : ungroup [a.toNat / 4, a.toNat % 4 * 16] = [a] := ungroup_groups [a]
      have hchars : encodeStd [a] = [stdChar (a.toNat / 4), stdChar (a.toNat % 4 * 16), '=', '='] := rfl
      rw [hchars, decodeQuads, stdIndex?_stdChar _ (hlt _ (by simp [groups])),
        stdIndex?_stdChar _ (hlt _ (by simp [groups]))]
      simpa using hbytes
  | case4 => rfl

/-- What is encoded is read back. -/
theorem decodeStd_encodeStd (bs : List UInt8) : decodeStd (encodeStd bs) = some bs := by
  have hbreak : (encodeStd bs).filter (fun c => c ≠ '\n' && c ≠ '\r') = encodeStd bs := by
    refine List.filter_eq_self.mpr fun c hc => ?_
    rcases mem_encodeStd bs hc with rfl | ⟨n, hn, rfl⟩
    · decide
    · obtain ⟨-, hlf, hcr, -⟩ := stdChar_plain n hn
      simp [hlf, hcr]
  rw [decodeStd, hbreak, decodeQuads_encodeStd]

/-! ### The two decoders -/

/-- A line break stands for no number. -/
theorem filterMap_takeWhile_filter (cs : List Char) :
    ((cs.filter fun c => c ≠ '\n' && c ≠ '\r').takeWhile (· ≠ '=')).filterMap index? =
      (cs.takeWhile (· ≠ '=')).filterMap index? := by
  induction cs with
  | nil => rfl
  | cons c cs ih =>
      rw [List.filter_cons]
      split_ifs with hkeep
      · rw [List.takeWhile_cons, List.takeWhile_cons]
        split_ifs with hpad
        · rw [List.filterMap_cons, List.filterMap_cons, ih]
        · rfl
      · have hbreak : c = '\n' ∨ c = '\r' := by
          by_contra hne
          exact hkeep (by simpa [not_or] using hne)
        rw [ih]
        rcases hbreak with rfl | rfl <;> rfl

theorem stdIndex?_eq_some {c : Char} {n : Nat} (h : stdIndex? c = some n) : c ≠ '=' ∧ index? c = some n := by
  refine ⟨?_, ?_⟩
  · rintro rfl
    cases h
  · unfold stdIndex? at h
    split_ifs at h
    exact h

theorem decode_cons {c : Char} {n : Nat} (h : stdIndex? c = some n) (cs : List Char) :
    ((c :: cs).takeWhile (· ≠ '=')).filterMap index? = n :: (cs.takeWhile (· ≠ '=')).filterMap index? := by
  obtain ⟨hpad, hindex⟩ := stdIndex?_eq_some h
  rw [List.takeWhile_cons_of_pos (by simpa using hpad), List.filterMap_cons_some hindex]

theorem decodeLatin1_of_decodeQuads {cs : List Char} {bs : List UInt8} (h : decodeQuads cs = some bs) :
    decodeLatin1 cs = bs := by
  unfold decodeLatin1
  fun_induction decodeQuads cs generalizing bs with
  | case1 => exact Option.some.inj h
  | case2 a b c d rest ih =>
      obtain ⟨p, hp, h⟩ := Option.bind_eq_some_iff.mp h
      obtain ⟨q, hq, h⟩ := Option.bind_eq_some_iff.mp h
      rw [decode_cons hp, decode_cons hq]
      by_cases hc : c = '='
      · rw [if_pos hc] at h
        obtain ⟨-, h⟩ := Option.ite_none_right_eq_some.mp h
        rw [hc, ← Option.some.inj h]
        rfl
      · rw [if_neg hc] at h
        obtain ⟨r, hr, h⟩ := Option.bind_eq_some_iff.mp h
        rw [decode_cons hr]
        by_cases hd : d = '='
        · rw [if_pos hd] at h
          obtain ⟨-, h⟩ := Option.ite_none_right_eq_some.mp h
          rw [hd, ← Option.some.inj h]
          rfl
        · rw [if_neg hd] at h
          obtain ⟨s, hs, h⟩ := Option.bind_eq_some_iff.mp h
          obtain ⟨bs', hbs', rfl⟩ := Option.map_eq_some_iff.mp h
          rw [decode_cons hs, ← ih hbs']
          rfl
  | case3 => cases h

theorem ascii_of_stdIndex? {c : Char} {n : Nat} (h : stdIndex? c = some n) : c.toNat < 128 := by
  have hindex := (stdIndex?_eq_some h).2
  have hle : ∀ d : Char, c ≤ d → d.toNat < 128 → c.toNat < 128 := fun d hcd => Nat.lt_of_le_of_lt hcd
  unfold index? at hindex
  split_ifs at hindex with h₁ h₂ h₃ h₄ h₅
  · exact hle 'Z' (by simpa using (Bool.and_eq_true_iff.mp h₁).2) (by decide)
  · exact hle 'z' (by simpa using (Bool.and_eq_true_iff.mp h₂).2) (by decide)
  · exact hle '9' (by simpa using (Bool.and_eq_true_iff.mp h₃).2) (by decide)
  · rcases Bool.or_eq_true_iff.mp h₄ with h | h <;> rw [of_decide_eq_true h] <;> decide
  · rcases Bool.or_eq_true_iff.mp h₅ with h | h <;> rw [of_decide_eq_true h] <;> decide

theorem ascii_of_decodeQuads {cs : List Char} {bs : List UInt8} (h : decodeQuads cs = some bs) :
    ∀ c ∈ cs, c.toNat < 128 := by
  fun_induction decodeQuads cs generalizing bs with
  | case1 => nofun
  | case2 a b c d rest ih =>
      obtain ⟨p, hp, h⟩ := Option.bind_eq_some_iff.mp h
      obtain ⟨q, hq, h⟩ := Option.bind_eq_some_iff.mp h
      rw [List.forall_mem_cons, List.forall_mem_cons, List.forall_mem_cons, List.forall_mem_cons]
      refine ⟨ascii_of_stdIndex? hp, ascii_of_stdIndex? hq, ?_⟩
      by_cases hc : c = '='
      · rw [if_pos hc] at h
        obtain ⟨hlast, -⟩ := Option.ite_none_right_eq_some.mp h
        obtain ⟨rfl, rfl⟩ : d = '=' ∧ rest = [] := by simpa using hlast
        exact ⟨hc ▸ by decide, by decide, nofun⟩
      · rw [if_neg hc] at h
        obtain ⟨r, hr, h⟩ := Option.bind_eq_some_iff.mp h
        refine ⟨ascii_of_stdIndex? hr, ?_⟩
        by_cases hd : d = '='
        · rw [if_pos hd] at h
          obtain ⟨rfl, -⟩ := Option.ite_none_right_eq_some.mp h
          exact ⟨hd ▸ by decide, nofun⟩
        · rw [if_neg hd] at h
          obtain ⟨s, hs, h⟩ := Option.bind_eq_some_iff.mp h
          obtain ⟨bs', hbs', -⟩ := Option.map_eq_some_iff.mp h
          exact ⟨ascii_of_stdIndex? hs, ih hbs'⟩
  | case3 => cases h

/-- The lenient decoder reads whatever the strict one reads as it does. -/
theorem decode_of_decodeStd {cs : List Char} {bs : List UInt8} (h : decodeStd cs = some bs) :
    decode cs = bs := by
  have hlatin1 : ∀ c ∈ cs, c.toNat < 256 := by
    intro c hc
    by_cases hbreak : c = '\n' ∨ c = '\r'
    · rcases hbreak with rfl | rfl <;> decide
    · obtain ⟨hlf, hcr⟩ := not_or.mp hbreak
      exact (ascii_of_decodeQuads h c (List.mem_filter.mpr ⟨hc, by simp [hlf, hcr]⟩)).trans (by decide)
  rw [decode_of_latin1 hlatin1, decodeLatin1, ← filterMap_takeWhile_filter]
  exact decodeLatin1_of_decodeQuads h

end

example : encodeUrl [0x7B, 0x22, 0x73] = ['e', 'y', 'J', 'z'] := by decide

end Lib.Base64
