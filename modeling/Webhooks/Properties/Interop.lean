import Webhooks.Store.Secrets

/-!
# Properties — Interop

Both stacks store a signing secret in one form, and each reads what either stored.

* **`secrets_interoperate`**: over any cipher that keeps the laws of an authenticated one at AES-256-GCM's
  sizes.
-/

namespace Webhooks

open Lib

/-- The stacks encrypt to the same text and read each other's; Go's `DecryptSecret` answers every string,
and with an error unless the string holds IV, tag and ciphertext of a value sealed under the key. -/
theorem secrets_interoperate {A : Aead UInt8} (hA : A.Lawful 32 12 16) (illegal : Bytes → String)
    {key : Bytes} (hkey : key.length = 32) :
    (∀ (plaintext : String) (iv : Vector UInt8 12), ∃ stored : String,
      Node.encryptSecret A key (some iv) plaintext = some stored ∧
      Go.encryptSecret A key (.ok iv) (Utf8.encode plaintext.toList) =
        some (.ok (Utf8.encode stored.toList)) ∧
      Node.decryptSecret A key stored = some plaintext ∧
      Go.decryptSecret A illegal key (Utf8.encode stored.toList) =
        some (.ok (Utf8.encode plaintext.toList))) ∧
    (∀ stored, Go.decryptSecret A illegal key stored ≠ none) ∧
    ∀ stored,
      (Go.decodeStdString stored = none ∨
        ∃ raw, Go.decodeStdString stored = some raw ∧
          (raw.length < 28 ∨ ∀ plaintext, ¬ SealedAs A key raw plaintext)) →
      ∃ err, Go.decryptSecret A illegal key stored = some (.error err) := by
  refine ⟨fun plaintext iv => ?_, Go.decryptSecret_ne_none, fun stored hbad => ?_⟩
  · refine ⟨_, Node.encryptSecret_eq hkey plaintext, ?_, Node.decryptSecret_frame hA hkey plaintext, ?_⟩
    · rw [Go.encryptSecret_eq hA hkey, String.toList_ofList]
    · rw [String.toList_ofList]
      exact (Go.decryptSecret_eq_ok hA hkey).mpr ⟨_, Go.decodeStdString_encodeStd _, iv, rfl⟩
  · have hnot : ∀ plaintext, Go.decryptSecret A illegal key stored ≠ some (.ok plaintext) := by
      intro plaintext hok
      obtain ⟨raw, hraw, hsealed⟩ := (Go.decryptSecret_eq_ok hA hkey).mp hok
      rcases hbad with hbad | ⟨raw', hraw', hbad⟩
      · rw [hbad] at hraw
        cases hraw
      · obtain rfl : raw' = raw := Option.some.inj (hraw'.symm.trans hraw)
        rcases hbad with hshort | hbad
        · obtain ⟨iv, rfl⟩ := hsealed
          exact absurd (length_frame hA hkey) (Nat.not_le.mpr hshort)
        · exact hbad plaintext hsealed
    cases h : Go.decryptSecret A illegal key stored with
    | none => exact absurd h (Go.decryptSecret_ne_none stored)
    | some opened =>
        cases opened with
        | error err => exact ⟨err, rfl⟩
        | ok plaintext => exact absurd h (hnot plaintext)

namespace Interop.Sample

/-- A key of 32 bytes, and an iv of 12. -/
def key : Bytes := Utf8.encode "abcdefghijklmnopqrstuvwxyz012345".toList

def iv : Vector UInt8 12 := .ofFn fun i => .ofNat i

/-- A secret beyond ASCII, and the tag it is sealed with. -/
def plaintext : Bytes := Utf8.encode "whsec_é".toList

/-- What AES-256-GCM makes of it. -/
def ciphertext : Bytes := [0x02, 0x01, 0xcb, 0x0d, 0x54, 0x4c, 0x1b, 0xe2]

def tag : Bytes :=
  [0xe8, 0x60, 0xf2, 0x69, 0x10, 0xd7, 0x50, 0x4e, 0x92, 0x50, 0x4d, 0x28, 0xd1, 0x22, 0xb5, 0xd8]

def zeros : Bytes := List.replicate 16 0

/-- AES-256-GCM on one input; on every other, the plaintext with a tag of zeros. -/
def cipher : Aead UInt8 where
  encrypt k v p := if k = key ∧ v = iv.toList ∧ p = plaintext then (ciphertext, tag) else (p, zeros)
  decrypt k v c t :=
    if k = key ∧ v = iv.toList ∧ c = ciphertext ∧ t = tag then some plaintext
    else if t = zeros ∧ ¬ (k = key ∧ v = iv.toList ∧ c = plaintext) then some c
    else none

/-- It has the lengths, and opens what it sealed. -/
theorem cipher_lawful : cipher.Lawful 32 12 16 where
  tag_length := by
    intro k v p _ _
    simp only [cipher]
    split <;> rfl
  decrypt_iff := by
    intro k v c t p _ _ _
    have htag : tag ≠ zeros := by decide
    simp only [cipher]
    by_cases hin : k = key ∧ v = iv.toList
    · obtain ⟨rfl, rfl⟩ := hin
      by_cases hp : p = plaintext <;> by_cases ht : t = tag <;> grind
    · grind

end Interop.Sample

open Interop.Sample in
/-- What Node wrote is read by both, and a text that is too short is refused by Go. -/
theorem secrets_interoperate_sample :
    Node.decryptSecret cipher key "AAECAwQFBgcICQoL6GDyaRDXUE6SUE0o0SK12AIByw1UTBvi" = some "whsec_é" ∧
      Go.decryptSecret cipher (fun _ => "") key
        (Utf8.encode "AAECAwQFBgcICQoL6GDyaRDXUE6SUE0o0SK12AIByw1UTBvi".toList) =
          some (.ok plaintext) ∧
      ∃ err, Go.decryptSecret cipher (fun _ => "") key (Utf8.encode "whsec_".toList) =
        some (.error err) := by
  have hkey : key.length = 32 := by decide
  obtain ⟨hround, -, hbad⟩ := secrets_interoperate cipher_lawful (fun _ => "") hkey
  obtain ⟨stored, hnode, -, hnode', hgo⟩ := hround "whsec_é" iv
  have hstored : stored = "AAECAwQFBgcICQoL6GDyaRDXUE6SUE0o0SK12AIByw1UTBvi" :=
    Option.some.inj (hnode.symm.trans (by decide +kernel))
  subst hstored
  exact ⟨hnode', hgo, hbad _ (.inl (by decide +kernel))⟩

end Webhooks
