import Webhooks.Lib.Aead
import Webhooks.Lib.Base64
import Webhooks.Lib.Utf8
import Webhooks.Store.Schema

/-!
# Store — Secrets

How a signing secret is stored (`crypto.ts`, `crypto.go`): sealed with AES-256-GCM, and IV, tag and
ciphertext one after the other in base64.  Go's cipher appends the tag to the ciphertext, and its
functions cut and join the parts; a Go expression that indexes out of bounds panics.

* `Node.encryptSecret`, `Node.decryptSecret`, `Go.encryptSecret`, `Go.decryptSecret`.
* `SealedAs`: the bytes are what a plaintext is sealed to.
* **`Node.encryptSecret_eq`**, **`Go.encryptSecret_eq`**: both store the same text.
* **`Node.decryptSecret_frame`**, **`Go.decryptSecret_eq`**: what the two read from it.
-/

namespace Webhooks

open Lib

/-- `iv || authTag || ciphertext`. -/
def frame (A : Aead UInt8) (key : Bytes) (iv : Vector UInt8 12) (plaintext : Bytes) : Bytes :=
  iv.toList ++ (A.encrypt key iv.toList plaintext).2 ++ (A.encrypt key iv.toList plaintext).1

/-- The bytes are IV, tag and ciphertext of the plaintext. -/
def SealedAs (A : Aead UInt8) (key raw plaintext : Bytes) : Prop :=
  ∃ iv, raw = frame A key iv plaintext

namespace Node

/-- `random` is what `randomBytes(12)` returns, when it does not throw.  `createCipheriv` throws on a
key that has not 32 bytes. -/
def encryptSecret (A : Aead UInt8) (key : Bytes) (random : Option (Vector UInt8 12)) (plaintext : String) :
    Option String :=
  random.bind fun iv =>
    if key.length = 32 then
      let encrypted := (A.encrypt key iv.toList (Utf8.encode plaintext.toList)).1
      let authTag := (A.encrypt key iv.toList (Utf8.encode plaintext.toList)).2
      some (.ofList (Base64.encodeStd (iv.toList ++ authTag ++ encrypted)))
    else none

/-- The lengths `setAuthTag` takes. -/
def isTagLength (n : Nat) : Bool := n = 4 || n = 8 || (12 ≤ n && n ≤ 16)

/-- `subarray` reads what there is.  `createDecipheriv` throws on a key that has not 32 bytes and on
an empty IV, and `final` throws when the tag does not fit. -/
def decryptSecret (A : Aead UInt8) (key : Bytes) (stored : String) : Option String :=
  let raw := Base64.decode stored.toList
  let iv := raw.take 12
  let authTag := (raw.take 28).drop 12
  let encrypted := raw.drop 28
  if key.length = 32 && iv ≠ [] && isTagLength authTag.length then
    (A.decrypt key iv encrypted authTag).map fun plaintext => .ofList (Utf8.decode plaintext)
  else none

end Node

namespace Go

/-- `bs[lo:hi]`; it panics unless `0 ≤ lo ≤ hi ≤ len(bs)`. -/
def slice (bs : Bytes) (lo hi : Int) : Option Bytes :=
  if 0 ≤ lo ∧ lo ≤ hi ∧ hi ≤ bs.length then some ((bs.take hi.toNat).drop lo.toNat) else none

/-- `gcm.Overhead()`. -/
def overhead : Nat := 16

/-- The keys `aes.NewCipher` takes; `cipher.NewGCM` takes any AES. -/
def newCipher (key : Bytes) : Except String Unit :=
  if key.length = 16 || key.length = 24 || key.length = 32 then .ok ()
  else .error ("crypto: new cipher: crypto/aes: invalid key size " ++ toString key.length)

/-- `gcm.Open`; it panics on an IV that has not 12 bytes. -/
def gcmOpen (A : Aead UInt8) (key iv sealed : Bytes) : Option (Except String Bytes) :=
  if iv.length = 12 then
    match A.openAppended overhead key iv sealed with
    | some plaintext => some (.ok plaintext)
    | none => some (.error "cipher: message authentication failed")
  else none

/-- `random` is what `rand.Read` fills the IV with, or its error. -/
def encryptSecret (A : Aead UInt8) (key : Bytes) (random : Except String (Vector UInt8 12))
    (plaintext : Bytes) : Option (Except String Bytes) :=
  match newCipher key with
  | .error err => some (.error err)
  | .ok () =>
    match random with
    | .error err => some (.error ("crypto: generate iv: " ++ err))
    | .ok iv =>
      let sealed := A.sealAppended key iv.toList plaintext
      (slice sealed 0 (sealed.length - overhead)).bind fun ciphertext =>
      (slice sealed (sealed.length - overhead) sealed.length).map fun authTag =>
        .ok (Utf8.encode (Base64.encodeStd (iv.toList ++ authTag ++ ciphertext)))

/-- `base64.StdEncoding.DecodeString`, on any bytes; those above 127 are of no alphabet. -/
def decodeStdString (stored : Bytes) : Option Bytes := Base64.decodeStd (Utf8.latin1 stored)

/-- `illegal` is the text of the codec's own error. -/
def decryptSecret (A : Aead UInt8) (illegal : Bytes → String) (key stored : Bytes) :
    Option (Except String Bytes) :=
  match decodeStdString stored with
  | none => some (.error ("crypto: decode base64: " ++ illegal stored))
  | some raw =>
    if raw.length < 12 + 16 then some (.error "crypto: stored value too short")
    else
      (slice raw 0 12).bind fun iv =>
      (slice raw 12 28).bind fun authTag =>
      (slice raw 28 raw.length).bind fun ciphertext =>
        match newCipher key with
        | .error err => some (.error err)
        | .ok () =>
          (gcmOpen A key iv (ciphertext ++ authTag)).map fun opened =>
            opened.mapError fun err => "crypto: decrypt: " ++ err

end Go

section

variable {A : Aead UInt8} {key raw plaintext : Bytes} {iv : Vector UInt8 12} {illegal : Bytes → String}

/-! ### Framing -/

theorem take_frame : (frame A key iv plaintext).take 12 = iv.toList := by
  rw [frame, List.append_assoc]
  exact List.take_left' iv.length_toList

/-- The tag has the sixteen bytes after the IV. -/
theorem frame_tag (hA : A.Lawful 32 12 16) (hkey : key.length = 32) (iv : Vector UInt8 12)
    (plaintext : Bytes) :
    ((frame A key iv plaintext).take 28).drop 12 = (A.encrypt key iv.toList plaintext).2 ∧
      (frame A key iv plaintext).drop 28 = (A.encrypt key iv.toList plaintext).1 := by
  have hlen : (iv.toList ++ (A.encrypt key iv.toList plaintext).2).length = 28 := by
    rw [List.length_append, iv.length_toList, hA.tag_length hkey iv.length_toList]
  constructor
  · rw [frame, List.take_left' hlen]
    exact List.drop_left' iv.length_toList
  · exact List.drop_left' hlen

/-- Bytes cut into IV, tag and ciphertext open exactly when they are what a plaintext is sealed to. -/
theorem decrypt_iff_sealedAs (hA : A.Lawful 32 12 16) (hkey : key.length = 32) (hraw : 28 ≤ raw.length) :
    A.decrypt key (raw.take 12) (raw.drop 28) ((raw.take 28).drop 12) = some plaintext ↔
      SealedAs A key raw plaintext := by
  have hiv : (raw.take 12).length = 12 := by
    rw [List.length_take]
    omega
  have htag : ((raw.take 28).drop 12).length = 16 := by
    rw [List.length_drop, List.length_take]
    omega
  rw [hA.decrypt_iff hkey hiv htag]
  constructor
  · intro h
    refine ⟨⟨(raw.take 12).toArray, hiv⟩, ?_⟩
    have hjoin : raw.take 12 ++ (raw.take 28).drop 12 ++ raw.drop 28 = raw := by
      have h12 : (raw.take 28).take 12 = raw.take 12 := List.take_take ..
      rw [← h12, List.take_append_drop, List.take_append_drop]
    show raw = raw.take 12 ++ (A.encrypt key (raw.take 12) plaintext).2 ++
      (A.encrypt key (raw.take 12) plaintext).1
    rw [h, hjoin]
  · rintro ⟨iv, rfl⟩
    obtain ⟨htag, hciphertext⟩ := frame_tag hA hkey iv plaintext
    rw [take_frame, htag, hciphertext]

theorem length_frame (hA : A.Lawful 32 12 16) (hkey : key.length = 32) :
    28 ≤ (frame A key iv plaintext).length := by
  rw [frame, List.length_append, List.length_append, iv.length_toList,
    hA.tag_length hkey iv.length_toList]
  exact Nat.le_add_right ..

/-! ### Node -/

theorem Node.encryptSecret_eq (hkey : key.length = 32) (text : String) :
    Node.encryptSecret A key (some iv) text =
      some (.ofList (Base64.encodeStd (frame A key iv (Utf8.encode text.toList)))) :=
  if_pos hkey

theorem Node.decryptSecret_frame (hA : A.Lawful 32 12 16) (hkey : key.length = 32) (text : String) :
    Node.decryptSecret A key
      (.ofList (Base64.encodeStd (frame A key iv (Utf8.encode text.toList)))) = some text := by
  obtain ⟨htag, hciphertext⟩ := frame_tag hA hkey iv (Utf8.encode text.toList)
  have hiv : iv.toList ≠ [] := List.ne_nil_of_length_pos (by rw [iv.length_toList]; decide)
  have hcut : (A.encrypt key iv.toList (Utf8.encode text.toList)).2.length = 16 :=
    hA.tag_length hkey iv.length_toList
  simp only [Node.decryptSecret, String.toList_ofList, Base64.decode_encodeStd, take_frame, htag,
    hciphertext, hA.decrypt_encrypt hkey iv.length_toList, hkey, hcut]
  simp [hiv, Node.isTagLength, Utf8.decode_encode]

/-! ### Go -/

namespace Go

theorem slice_eq {bs : Bytes} {lo hi : Nat} (hlo : lo ≤ hi) (hhi : hi ≤ bs.length) :
    slice bs lo hi = some ((bs.take hi).drop lo) :=
  if_pos ⟨Int.natCast_nonneg lo, Int.ofNat_le.mpr hlo, Int.ofNat_le.mpr hhi⟩

theorem newCipher_eq (hkey : key.length = 32) : newCipher key = .ok () := by
  simp [newCipher, hkey]

/-- The appended tag goes before the ciphertext. -/
theorem encryptSecret_eq (hA : A.Lawful 32 12 16) (hkey : key.length = 32) :
    encryptSecret A key (.ok iv) plaintext =
      some (.ok (Utf8.encode (Base64.encodeStd (frame A key iv plaintext)))) := by
  have htag : (A.encrypt key iv.toList plaintext).2.length = overhead :=
    hA.tag_length hkey iv.length_toList
  have hlen : (A.sealAppended key iv.toList plaintext).length =
      (A.encrypt key iv.toList plaintext).1.length + overhead := by
    rw [Aead.sealAppended, List.length_append, htag]
  have hcut : ((A.sealAppended key iv.toList plaintext).length : Int) - (overhead : Nat) =
      ((A.encrypt key iv.toList plaintext).1.length : Nat) := by
    rw [hlen]
    omega
  have hciphertext : slice (A.sealAppended key iv.toList plaintext) 0
      (A.encrypt key iv.toList plaintext).1.length = some (A.encrypt key iv.toList plaintext).1 := by
    have h := @slice_eq (A.sealAppended key iv.toList plaintext) 0 _ (Nat.zero_le _)
      (hlen ▸ Nat.le_add_right _ _)
    refine h.trans ?_
    rw [Aead.sealAppended, List.take_left, List.drop_zero]
  have hauthTag : slice (A.sealAppended key iv.toList plaintext)
      (A.encrypt key iv.toList plaintext).1.length (A.sealAppended key iv.toList plaintext).length =
      some (A.encrypt key iv.toList plaintext).2 := by
    rw [slice_eq (hlen ▸ Nat.le_add_right _ _) le_rfl, List.take_length, Aead.sealAppended,
      List.drop_left]
  simp only [encryptSecret, newCipher_eq hkey, hcut, hciphertext, hauthTag, Option.bind_some,
    Option.map_some]
  rfl

/-- The two cuts and the join leave the tag at the end. -/
theorem decryptSecret_of_decode {stored : Bytes} (h : decodeStdString stored = some raw)
    (hraw : 28 ≤ raw.length) :
    decryptSecret A illegal key stored =
      match newCipher key with
      | .error err => some (.error err)
      | .ok () =>
        match A.decrypt key (raw.take 12) (raw.drop 28) ((raw.take 28).drop 12) with
        | some plaintext => some (.ok plaintext)
        | none => some (.error "crypto: decrypt: cipher: message authentication failed") := by
  have h12 : 12 ≤ raw.length := Nat.le_trans (by decide) hraw
  have hiv : slice raw 0 12 = some (raw.take 12) := slice_eq (Nat.zero_le 12) h12
  have hauthTag : slice raw 12 28 = some ((raw.take 28).drop 12) :=
    slice_eq (Nat.le_add_right 12 16) hraw
  have hciphertext : slice raw 28 raw.length = some (raw.drop 28) := by
    have hrest := slice_eq hraw le_rfl
    rwa [List.take_length] at hrest
  have hivlen : (raw.take 12).length = 12 := by
    rw [List.length_take]
    omega
  have htaglen : ((raw.take 28).drop 12).length = overhead := by
    rw [List.length_drop, List.length_take]
    show min 28 raw.length - 12 = 16
    omega
  simp only [decryptSecret, h, if_neg (Nat.not_lt.mpr hraw), hiv, hauthTag, hciphertext,
    Option.bind_some, gcmOpen, if_pos hivlen, Aead.openAppended_append htaglen]
  cases newCipher key with
  | error err => rfl
  | ok =>
      cases A.decrypt key (raw.take 12) (raw.drop 28) ((raw.take 28).drop 12) <;> rfl

/-- No index is out of bounds, whatever is stored and whatever the key. -/
theorem decryptSecret_ne_none (stored : Bytes) : decryptSecret A illegal key stored ≠ none := by
  cases h : decodeStdString stored with
  | none => simp [decryptSecret, h]
  | some raw =>
      by_cases hraw : raw.length < 28
      · simp [decryptSecret, h, hraw]
      · rw [decryptSecret_of_decode h (Nat.not_lt.mp hraw)]
        cases newCipher key with
        | error err => simp
        | ok =>
            cases A.decrypt key (raw.take 12) (raw.drop 28) ((raw.take 28).drop 12) <;> simp

/-- What is read is what was sealed under the key, and nothing else is. -/
theorem decryptSecret_eq_ok (hA : A.Lawful 32 12 16) (hkey : key.length = 32) {stored : Bytes} :
    decryptSecret A illegal key stored = some (.ok plaintext) ↔
      ∃ raw, decodeStdString stored = some raw ∧ SealedAs A key raw plaintext := by
  cases h : decodeStdString stored with
  | none => simp [decryptSecret, h]
  | some raw =>
      by_cases hraw : raw.length < 28
      · have hshort : ¬ SealedAs A key raw plaintext := by
          rintro ⟨iv, rfl⟩
          exact absurd (length_frame hA hkey) (Nat.not_le.mpr hraw)
        simp [decryptSecret, h, hraw, hshort]
      · rw [decryptSecret_of_decode h (Nat.not_lt.mp hraw), newCipher_eq hkey]
        simp only [Option.some.injEq, exists_eq_left', ← decrypt_iff_sealedAs hA hkey (Nat.not_lt.mp hraw)]
        cases A.decrypt key (raw.take 12) (raw.drop 28) ((raw.take 28).drop 12) <;> simp

/-- The text of sealed bytes is ASCII. -/
theorem decodeStdString_encodeStd (bs : Bytes) :
    decodeStdString (Utf8.encode (Base64.encodeStd bs)) = some bs := by
  rw [decodeStdString, Utf8.latin1_encode fun c hc => Base64.ascii_encodeStd bs hc,
    Base64.decodeStd_encodeStd]

end Go

end

end Webhooks
