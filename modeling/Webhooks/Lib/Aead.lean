import Mathlib.Data.List.Basic

/-!
# Lib — Aead

An authenticated cipher, abstractly: a key, an IV and a plaintext make a ciphertext and a tag, and
only these open again.  Libraries differ in where the tag goes; appended to the ciphertext it is cut
off by its length.

* `Aead`, `Aead.Lawful`: the cipher, and what it does at the sizes it is used at.
* **`Aead.openAppended_append`**: with the tag appended, a text opens as its two parts do.
* **`Aead.Lawful.decrypt_encrypt`**: what is sealed opens.
-/

namespace Lib

/-- `encrypt` gives the ciphertext and the tag, and `decrypt` takes them in this order. -/
structure Aead (β : Type*) where
  encrypt : List β → List β → List β → List β × List β
  decrypt : List β → List β → List β → List β → Option (List β)

namespace Aead

variable {β : Type*} {keySize ivSize tagSize : Nat} {key iv c t p text : List β}

/-- With keys, IVs and tags of their sizes, a ciphertext and a tag open exactly when they are what
the plaintext was sealed to. -/
structure Lawful (A : Aead β) (keySize ivSize tagSize : Nat) : Prop where
  tag_length : ∀ {key iv p}, key.length = keySize → iv.length = ivSize →
    (A.encrypt key iv p).2.length = tagSize
  decrypt_iff : ∀ {key iv c t p}, key.length = keySize → iv.length = ivSize → t.length = tagSize →
    (A.decrypt key iv c t = some p ↔ A.encrypt key iv p = (c, t))

/-- Ciphertext, then tag. -/
def sealAppended (A : Aead β) (key iv p : List β) : List β := (A.encrypt key iv p).1 ++ (A.encrypt key iv p).2

/-- The last `tagSize` elements are the tag. -/
def openAppended (A : Aead β) (tagSize : Nat) (key iv text : List β) : Option (List β) :=
  if text.length < tagSize then none
  else A.decrypt key iv (text.take (text.length - tagSize)) (text.drop (text.length - tagSize))

variable {A : Aead β}

theorem openAppended_append (ht : t.length = tagSize) :
    A.openAppended tagSize key iv (c ++ t) = A.decrypt key iv c t := by
  have hlen : (c ++ t).length - tagSize = c.length := by
    rw [List.length_append, ht, Nat.add_sub_cancel]
  rw [openAppended, hlen, List.take_left, List.drop_left, if_neg]
  rw [List.length_append, ht]
  exact Nat.not_lt.mpr (Nat.le_add_left _ _)

namespace Lawful

variable (h : A.Lawful keySize ivSize tagSize) (hkey : key.length = keySize) (hiv : iv.length = ivSize)
include h hkey hiv

/-- What is sealed opens. -/
theorem decrypt_encrypt : A.decrypt key iv (A.encrypt key iv p).1 (A.encrypt key iv p).2 = some p :=
  (h.decrypt_iff hkey hiv (h.tag_length hkey hiv)).mpr rfl

end Lawful

end Aead

end Lib
