import Mathlib.Data.List.Basic

/-!
# Lib — Utf8

Text and its bytes: UTF-8 encoding, and the decoding that never fails.

* `encode`: the bytes of a text.
* `decode`: the text of any bytes.  Where they are not UTF-8, each maximal part that could have
  begun a character becomes one U+FFFD.
* **`isValidUTF8_encode`**, **`nul_mem_decode`**: a text always has valid bytes, and decoding makes
  no NUL and loses none.
* **`decode_encode`**, **`decode?_eq_some_iff`**: a text's bytes decode to the text.
* **`latin1_encode`**, **`encode_latin1_eq_iff`**: the bytes of ASCII text, and no others, are the
  numbers of its characters.
-/

namespace Lib.Utf8

/-- The character the bytes begin with, when they begin with one. -/
def char? (bs : List UInt8) : Option Char := bs.toByteArray.utf8DecodeChar? 0

/-- The bytes of a text. -/
def encode (cs : List Char) : List UInt8 := cs.flatMap String.utf8EncodeChar

/-- A continuation byte. -/
def isTail (b : UInt8) : Bool := 0x80 ≤ b && b ≤ 0xBF

/-- The bytes that may come second after a first byte of three or four. -/
def isSecond (first b : UInt8) : Bool :=
  if first = 0xE0 then 0xA0 ≤ b && b ≤ 0xBF
  else if first = 0xED then 0x80 ≤ b && b ≤ 0x9F
  else if first = 0xF0 then 0x90 ≤ b && b ≤ 0xBF
  else if first = 0xF4 then 0x80 ≤ b && b ≤ 0x8F
  else 0xE1 ≤ first && first ≤ 0xF3 && isTail b

/-- How many bytes after `first` go into the same U+FFFD, where no character begins. -/
def malformedTail (first : UInt8) : List UInt8 → Nat
  | b :: rest =>
      if isSecond first b then
        match rest with
        | b' :: _ => if isTail b' then 2 else 1
        | [] => 1
      else 0
  | [] => 0

/-- The text of the bytes after the first `skip` ones. -/
def decodeFrom : Nat → List UInt8 → List Char
  | _, [] => []
  | skip + 1, _ :: rest => decodeFrom skip rest
  | 0, b :: rest =>
      match char? (b :: rest) with
      | some c => c :: decodeFrom (c.utf8Size - 1) rest
      | none => '\uFFFD' :: decodeFrom (malformedTail b rest) rest

/-- The text of any bytes. -/
def decode (bs : List UInt8) : List Char := decodeFrom 0 bs

/-- The text of bytes that are UTF-8. -/
def decode? (bs : List UInt8) : Option (List Char) :=
  if encode (decode bs) = bs then some (decode bs) else none

/-- Each byte as the character of its number. -/
def latin1 (bs : List UInt8) : List Char := bs.map fun b => Char.ofNat b.toNat

section

variable {bs rest : List UInt8} {c : Char} {cs : List Char} {b : UInt8}

theorem char?_eq_some : char? bs = some c ↔ ∃ rest, bs = String.utf8EncodeChar c ++ rest := by
  constructor
  · intro h
    obtain ⟨l, hl⟩ := ByteArray.exists_of_utf8DecodeChar?_eq_some h
    refine ⟨l.data.toList, ?_⟩
    have hdata := congrArg (fun a : ByteArray => a.data.toList) hl
    simpa using hdata
  · rintro ⟨rest, rfl⟩
    simp only [char?, List.toByteArray_append]
    exact ByteArray.utf8DecodeChar?_utf8EncodeChar_append

/-- A byte below 0x80 is all of a character. -/
theorem toNat_of_mem_utf8EncodeChar (hb : b < 0x80) (h : b ∈ String.utf8EncodeChar c) :
    c.toNat = b.toNat := by
  have hb' : b.toNat < 0x80 := hb
  -- the first byte of a longer form, and every byte after it, is at least 0x80
  simp only [String.utf8EncodeChar] at h
  split at h
  · next hle =>
      simp only [List.mem_singleton] at h
      rw [h, UInt8.toNat_ofNat']
      change c.val.toNat = c.val.toNat % 256
      omega
  · split at h
    · simp [← UInt8.toNat_inj] at h
      omega
    · split at h <;> simp [← UInt8.toNat_inj] at h <;> omega

/-- Only NUL has a zero byte. -/
theorem zero_mem_utf8EncodeChar : 0 ∈ String.utf8EncodeChar c ↔ c = '\x00' := by
  constructor
  · intro h
    exact Char.ext (UInt32.toNat_inj.mp (toNat_of_mem_utf8EncodeChar (by decide) h))
  · rintro rfl
    decide

theorem isValidUTF8_encode (cs : List Char) : (encode cs).toByteArray.IsValidUTF8 :=
  ByteArray.isValidUTF8_utf8Encode

theorem zero_mem_encode : 0 ∈ encode cs ↔ '\x00' ∈ cs := by
  simp [encode, zero_mem_utf8EncodeChar]

theorem isSecond_zero (first : UInt8) : isSecond first 0 = false := by
  simp [isSecond, isTail]

/-- What goes into a U+FFFD after its first byte is no NUL. -/
theorem zero_not_mem_malformedTail (first : UInt8) (rest : List UInt8) :
    0 ∉ rest.take (malformedTail first rest) := by
  intro h
  have hsecond : ∀ b, isSecond first b = true → b ≠ 0 := by
    rintro b hb rfl
    rw [isSecond_zero] at hb
    cases hb
  match rest with
  | [] => cases h
  | b :: rest =>
      simp only [malformedTail] at h
      split at h
      · next hb =>
          split at h
          · next b' rest' =>
              split at h
              · next hb' =>
                  simp only [List.take_succ_cons, List.take_zero, List.mem_cons, List.not_mem_nil,
                    or_false] at h
                  rcases h with h | h
                  · exact hsecond b hb h.symm
                  · rw [← h] at hb'
                    exact absurd hb' (by decide)
              · simp only [List.take_succ_cons, List.take_zero, List.mem_singleton] at h
                exact hsecond b hb h.symm
          · simp only [List.take_succ_cons, List.take_zero, List.mem_singleton] at h
            exact hsecond b hb h.symm
      · cases h

theorem nul_mem_decodeFrom (skip : Nat) : '\x00' ∈ decodeFrom skip bs ↔ 0 ∈ bs.drop skip := by
  induction bs generalizing skip with
  | nil => simp [decodeFrom]
  | cons b rest ih =>
      cases skip with
      | succ skip => exact ih skip
      | zero =>
          simp only [decodeFrom, List.drop_zero]
          cases hc : char? (b :: rest) with
          | some c =>
              obtain ⟨tail, htail⟩ := char?_eq_some.mp hc
              have hrest : rest.drop (c.utf8Size - 1) = tail := by
                have hdrop := congrArg (List.drop c.utf8Size) htail
                rw [← String.length_utf8EncodeChar, List.drop_left, String.length_utf8EncodeChar,
                  ← Nat.sub_add_cancel c.utf8Size_pos, List.drop_succ_cons] at hdrop
                exact hdrop
              rw [List.mem_cons, ih, hrest, htail, List.mem_append, zero_mem_utf8EncodeChar, eq_comm]
          | none =>
              -- NUL would be a character
              have hb : b ≠ 0 := by
                rintro rfl
                have hnul : char? (0 :: rest) = some '\x00' := char?_eq_some.mpr ⟨rest, rfl⟩
                rw [hnul] at hc
                cases hc
              have hsplit : 0 ∈ rest ↔ 0 ∈ rest.drop (malformedTail b rest) := by
                conv_lhs => rw [← List.take_append_drop (malformedTail b rest) rest, List.mem_append]
                exact or_iff_right (zero_not_mem_malformedTail b rest)
              rw [List.mem_cons, List.mem_cons, ih, hsplit]
              constructor
              · rintro (h | h)
                · exact absurd h (by decide)
                · exact .inr h
              · rintro (h | h)
                · exact absurd h.symm hb
                · exact .inr h

theorem decodeFrom_append (xs : List UInt8) : decodeFrom xs.length (xs ++ rest) = decodeFrom 0 rest := by
  induction xs with
  | nil => rfl
  | cons x xs ih => exact ih

/-- The bytes of a character, and those of the text after it. -/
theorem encode_cons (c : Char) (cs : List Char) : ∃ b bs, encode (c :: cs) = b :: (bs ++ encode cs) ∧
    bs.length = c.utf8Size - 1 ∧ char? (b :: (bs ++ encode cs)) = some c := by
  have henc : encode (c :: cs) = String.utf8EncodeChar c ++ encode cs := rfl
  have hchar : char? (encode (c :: cs)) = some c := char?_eq_some.mpr ⟨encode cs, henc⟩
  obtain ⟨b, bs, hb⟩ := List.exists_cons_of_ne_nil (l := String.utf8EncodeChar c) (by
    intro h
    have hlen := String.length_utf8EncodeChar (c := c)
    rw [h, List.length_nil] at hlen
    exact absurd hlen (Nat.ne_of_lt c.utf8Size_pos))
  rw [henc, hb, List.cons_append] at hchar
  refine ⟨b, bs, by rw [henc, hb, List.cons_append], ?_, hchar⟩
  rw [← String.length_utf8EncodeChar, hb, List.length_cons, Nat.add_sub_cancel]

/-- What is encoded is read back. -/
theorem decode_encode (cs : List Char) : decode (encode cs) = cs := by
  induction cs with
  | nil => rfl
  | cons c cs ih =>
      obtain ⟨b, bs, henc, hlen, hchar⟩ := encode_cons c cs
      rw [henc, decode, decodeFrom, hchar]
      show c :: decodeFrom (c.utf8Size - 1) (bs ++ encode cs) = c :: cs
      rw [← hlen, decodeFrom_append]
      exact congrArg _ ih

theorem decode?_eq_some_iff : decode? bs = some cs ↔ bs = encode cs := by
  unfold decode?
  constructor
  · intro h
    obtain ⟨heq, hcs⟩ := Option.ite_none_right_eq_some.mp h
    rw [← Option.some.inj hcs, heq]
  · rintro rfl
    rw [decode_encode, if_pos rfl]

theorem utf8EncodeChar_ascii (h : c.toNat < 128) :
    String.utf8EncodeChar c = [UInt8.ofNat c.toNat] := by
  have hv : c.val.toNat ≤ 127 := Nat.le_of_lt_succ h
  simp only [String.utf8EncodeChar]
  rw [if_pos hv]
  rfl

/-- The bytes of ASCII text are the numbers of its characters. -/
theorem latin1_encode (h : ∀ c ∈ cs, c.toNat < 128) : latin1 (encode cs) = cs := by
  induction cs with
  | nil => rfl
  | cons c cs ih =>
      have hc : c.toNat < 128 := h c List.mem_cons_self
      have hbyte : (UInt8.ofNat c.toNat).toNat = c.toNat := by
        rw [UInt8.toNat_ofNat']
        omega
      have hhead : encode (c :: cs) = UInt8.ofNat c.toNat :: encode cs := by
        show String.utf8EncodeChar c ++ encode cs = _
        rw [utf8EncodeChar_ascii hc]
        rfl
      rw [hhead, latin1, List.map_cons, hbyte, Char.ofNat_toNat]
      exact congrArg _ (ih fun c hc => h c (List.mem_cons_of_mem _ hc))

/-! ### Bytes as characters -/

theorem toNat_latin1 (b : UInt8) : (Char.ofNat b.toNat).toNat = b.toNat := by
  have hb := b.toNat_lt
  rw [Char.ofNat, dif_pos (.inl (by omega))]
  rfl

theorem latin1_injective : Function.Injective latin1 := by
  refine List.map_injective_iff.mpr fun a b h => UInt8.toNat_inj.mp ?_
  rw [← toNat_latin1 a, h, toNat_latin1]

theorem encode_latin1_cons_ascii (hb : b < 0x80) : encode (latin1 (b :: bs)) = b :: encode (latin1 bs) := by
  show String.utf8EncodeChar (Char.ofNat b.toNat) ++ encode (latin1 bs) = _
  rw [utf8EncodeChar_ascii (by rw [toNat_latin1]; exact hb), toNat_latin1, UInt8.ofNat_toNat]
  rfl

theorem length_le_encode_latin1 (bs : List UInt8) : bs.length ≤ (encode (latin1 bs)).length := by
  induction bs with
  | nil => exact Nat.le_refl 0
  | cons b bs ih =>
      show _ ≤ (String.utf8EncodeChar (Char.ofNat b.toNat) ++ encode (latin1 bs)).length
      have hpos := (Char.ofNat b.toNat).utf8Size_pos
      rw [List.length_append, String.length_utf8EncodeChar, List.length_cons]
      omega

/-- Bytes taken for characters are encoded as themselves exactly when they are ASCII. -/
theorem encode_latin1_eq_iff : encode (latin1 bs) = bs ↔ ∀ b ∈ bs, b < 0x80 := by
  induction bs with
  | nil => simp [latin1, encode]
  | cons b bs ih =>
      rw [List.forall_mem_cons]
      by_cases hb : b < 0x80
      · rw [encode_latin1_cons_ascii hb, List.cons_inj_right, ih, and_iff_right hb]
      · refine iff_of_false (fun h => ?_) fun h => hb h.1
        -- a longer character makes a longer text
        have hsize : 1 < (Char.ofNat b.toNat).utf8Size := by
          refine Nat.lt_of_le_of_ne (Char.utf8Size_pos _) fun hone => hb ?_
          have hle : (Char.ofNat b.toNat).toNat ≤ 127 :=
            UInt32.le_iff_toNat_le.mp (Char.utf8Size_eq_one_iff.mp hone.symm)
          rw [toNat_latin1] at hle
          exact UInt8.lt_iff_toNat_lt.mpr (Nat.lt_succ_of_le hle)
        have hle := length_le_encode_latin1 bs
        have hlen := congrArg List.length h
        change (String.utf8EncodeChar (Char.ofNat b.toNat) ++ encode (latin1 bs)).length = _ at hlen
        rw [List.length_append, String.length_utf8EncodeChar, List.length_cons] at hlen
        omega

/-- Decoding makes no NUL and loses none. -/
theorem nul_mem_decode : '\x00' ∈ decode bs ↔ 0 ∈ bs := nul_mem_decodeFrom 0

end

example : decode [0x41, 0xE2, 0x82, 0xAC, 0xF0, 0x9F, 0x98, 0x42, 0xC3, 0x00] =
    ['A', '€', '\uFFFD', 'B', '\uFFFD', '\x00'] := by decide

end Lib.Utf8
