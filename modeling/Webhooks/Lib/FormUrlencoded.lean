import Webhooks.Lib.Json
import Webhooks.Lib.Utf8

/-!
# Lib — FormUrlencoded

Pairs of texts as `application/x-www-form-urlencoded`, what a browser makes the query string of a URL from.

* `serialize`: the pairs as text.  `pairs`: the text cut into names and values, which are still escaped.
* `decode?`: the bytes that are escaped.
* **`decode?_escape`**: what is escaped is read back.
* **`pairs_serialize`**: so are the pairs.
-/

namespace Lib.FormUrlencoded

/-- A character that stands for itself. -/
def isPlain (c : Char) : Bool :=
  'a' ≤ c && c ≤ 'z' || 'A' ≤ c && c ≤ 'Z' || '0' ≤ c && c ≤ '9' || c = '*' || c = '-' || c = '.' || c = '_'

/-- An upper-case hexadecimal digit. -/
def hexDigit (n : Nat) : Char :=
  if n < 10 then Char.ofNat ('0'.toNat + n) else Char.ofNat ('A'.toNat + (n - 10))

def escapeByte (b : UInt8) : List Char :=
  if b = 0x20 then ['+']
  else if isPlain (Char.ofNat b.toNat) then [Char.ofNat b.toNat]
  else ['%', hexDigit (b.toNat / 16), hexDigit (b.toNat % 16)]

def escape (s : List Char) : List Char := (Utf8.encode s).flatMap escapeByte

/-- A name and its value. -/
def setting (p : List Char × List Char) : List Char := escape p.1 ++ '=' :: escape p.2

def serialize (ps : List (List Char × List Char)) : List Char := ['&'].intercalate (ps.map setting)

/-- What is before the first separator, and what is after it. -/
def cut (separator : Char) (s : List Char) : List Char × List Char :=
  match s.span (· ≠ separator) with
  | (before, _ :: after) => (before, after)
  | (before, []) => (before, [])

/-- The names and values of a text, escaped. -/
def pairs (s : List Char) : List (List Char × List Char) := ((s.splitOn '&').filter (· ≠ [])).map (cut '=')

/-- The bytes that are escaped; every `%` needs two hexadecimal digits. -/
def decode? : List Char → Option (List UInt8)
  | [] => some []
  | '%' :: a :: b :: rest =>
      (Json.hexValue a).bind fun a => (Json.hexValue b).bind fun b =>
        (decode? rest).map (.ofNat (a * 16 + b) :: ·)
  | '%' :: _ => none
  | '+' :: rest => (decode? rest).map (0x20 :: ·)
  | c :: rest => (decode? rest).map (Utf8.encode [c] ++ ·)

/-- A character of an escaped text. -/
def isEscaped (c : Char) : Bool := isPlain c || c = '%' || c = '+'

section

variable {s rest : List Char} {c : Char} {ps : List (List Char × List Char)} {p : List Char × List Char}

theorem hexValue_hexDigit : ∀ n < 16, Json.hexValue (hexDigit n) = some n := by decide

theorem isPlain_hexDigit : ∀ n < 16, isPlain (hexDigit n) = true := by decide

theorem toNat_of_isPlain (h : isPlain c = true) : c.toNat < 128 := by
  have hle : ∀ d : Char, c ≤ d → d.toNat < 128 → c.toNat < 128 := fun d hcd hd =>
    lt_of_le_of_lt (UInt32.le_iff_toNat_le.mp hcd) hd
  simp only [isPlain, Bool.or_eq_true, Bool.and_eq_true, decide_eq_true_eq] at h
  rcases h with (((((⟨-, h⟩ | ⟨-, h⟩) | ⟨-, h⟩) | rfl) | rfl) | rfl) | rfl
  · exact hle 'z' h (by decide)
  · exact hle 'Z' h (by decide)
  · exact hle '9' h (by decide)
  all_goals decide

theorem toNat_of_isEscaped (h : isEscaped c = true) : c.toNat < 128 := by
  simp only [isEscaped, Bool.or_eq_true, decide_eq_true_eq] at h
  rcases h with (h | rfl) | rfl
  · exact toNat_of_isPlain h
  all_goals decide

/-! ### Separators -/

theorem isEscaped_of_mem_escapeByte {b : UInt8} (h : c ∈ escapeByte b) : isEscaped c = true := by
  have hb : b.toNat < 256 := b.toNat_lt
  unfold escapeByte at h
  split_ifs at h with hspace hplain
  · rw [List.mem_singleton.mp h]
    rfl
  · rw [List.mem_singleton.mp h, isEscaped, hplain, Bool.true_or, Bool.true_or]
  · rcases List.mem_cons.mp h with rfl | h
    · rfl
    · rcases List.mem_pair.mp h with rfl | rfl
      · rw [isEscaped, isPlain_hexDigit _ (by omega), Bool.true_or, Bool.true_or]
      · rw [isEscaped, isPlain_hexDigit _ (by omega), Bool.true_or, Bool.true_or]

/-- An escaped text has no other characters. -/
theorem isEscaped_of_mem_escape (h : c ∈ escape s) : isEscaped c = true := by
  obtain ⟨b, -, h⟩ := List.mem_flatMap.mp h
  exact isEscaped_of_mem_escapeByte h

/-- A character that ends a name or a value is escaped. -/
theorem not_mem_escape (h : isEscaped c = false) : c ∉ escape s := fun hc => by
  rw [isEscaped_of_mem_escape hc] at h
  cases h

theorem cut_append {before after : List Char} (h : c ∉ before) :
    cut c (before ++ c :: after) = (before, after) := by
  have hbefore : ∀ x ∈ before, decide (x ≠ c) = true := fun x hx => by
    simp only [decide_eq_true_eq]
    rintro rfl
    exact h hx
  have hspan : (before ++ c :: after).span (· ≠ c) = (before, c :: after) := by
    rw [List.span_eq_takeWhile_dropWhile, List.takeWhile_append_of_pos hbefore,
      List.dropWhile_append_of_pos hbefore]
    simp
  rw [cut, hspan]

theorem cut_setting : cut '=' (setting p) = (escape p.1, escape p.2) := cut_append (not_mem_escape rfl)

theorem separator_not_mem_setting : '&' ∉ setting p := by
  intro h
  rcases List.mem_append.mp h with h | h
  · exact not_mem_escape rfl h
  · rcases List.mem_cons.mp h with h | h
    · exact absurd h (by decide)
    · exact not_mem_escape rfl h

theorem splitOn_serialize (h : ps ≠ []) : (serialize ps).splitOn '&' = ps.map setting := by
  refine List.splitOn_intercalate _ (fun l hl => ?_) (by simpa using h)
  obtain ⟨p, -, rfl⟩ := List.mem_map.mp hl
  exact separator_not_mem_setting

/-- The text of the pairs is cut into them. -/
theorem pairs_serialize : pairs (serialize ps) = ps.map fun p => (escape p.1, escape p.2) := by
  rcases eq_or_ne ps [] with rfl | hps
  · rfl
  · have hne : ∀ t ∈ ps.map setting, decide (t ≠ []) = true := fun t ht => by
      obtain ⟨p, -, rfl⟩ := List.mem_map.mp ht
      simp [setting]
    rw [pairs, splitOn_serialize hps, List.filter_eq_self.mpr hne, List.map_map]
    exact List.map_congr_left fun p _ => cut_setting

/-! ### Values -/

theorem decode?_cons_of_isPlain (h : isPlain c = true) :
    decode? (c :: rest) = (decode? rest).map (Utf8.encode [c] ++ ·) := by
  have hpercent : c ≠ '%' := by
    rintro rfl
    cases h
  have hplus : c ≠ '+' := by
    rintro rfl
    cases h
  rw [decode?.eq_def]
  split <;> simp_all

theorem decode?_escapeByte (b : UInt8) : decode? (escapeByte b ++ rest) = (decode? rest).map (b :: ·) := by
  have hb : b.toNat < 256 := b.toNat_lt
  unfold escapeByte
  split_ifs with hspace hplain
  · rw [hspace]
    rfl
  · have hascii : (Char.ofNat b.toNat).toNat < 128 := toNat_of_isPlain hplain
    have hencode : Utf8.encode [Char.ofNat b.toNat] = [b] := by
      rw [Utf8.encode, List.flatMap_singleton, Utf8.utf8EncodeChar_ascii hascii, Utf8.toNat_latin1,
        UInt8.ofNat_toNat]
    rw [List.singleton_append, decode?_cons_of_isPlain hplain, hencode]
    rfl
  · have hdigits : b.toNat / 16 * 16 + b.toNat % 16 = b.toNat := by omega
    show decode? ('%' :: _ :: _ :: rest) = _
    rw [decode?, hexValue_hexDigit _ (by omega), hexValue_hexDigit _ (by omega), Option.bind_some,
      Option.bind_some, hdigits, UInt8.ofNat_toNat]

/-- What is escaped is read back. -/
theorem decode?_escape (s : List Char) : decode? (escape s) = some (Utf8.encode s) := by
  unfold escape
  induction Utf8.encode s with
  | nil => rfl
  | cons b bs ih => rw [List.flatMap_cons, decode?_escapeByte, ih, Option.map_some]

theorem escape_injective : Function.Injective escape := fun s t h => by
  have hencode : Utf8.encode s = Utf8.encode t := by
    rw [← Option.some_inj, ← decode?_escape, h, decode?_escape]
  rw [← Utf8.decode_encode s, hencode, Utf8.decode_encode]

theorem escapeByte_ofNat : ∀ n < 128, isPlain (Char.ofNat n) = true →
    escapeByte (UInt8.ofNat n) = [Char.ofNat n] := by
  decide

/-- A plain text is not changed. -/
theorem escape_eq_self (h : s.all isPlain = true) : escape s = s := by
  induction s with
  | nil => rfl
  | cons c s ih =>
      simp only [List.all_cons, Bool.and_eq_true] at h
      have hc := toNat_of_isPlain h.1
      have hescape := escapeByte_ofNat c.toNat hc
      rw [Char.ofNat_toNat] at hescape
      have hhead : Utf8.encode (c :: s) = UInt8.ofNat c.toNat :: Utf8.encode s := by
        rw [Utf8.encode, List.flatMap_cons, Utf8.utf8EncodeChar_ascii hc]
        rfl
      rw [escape, hhead, List.flatMap_cons, hescape h.1]
      exact congrArg (c :: ·) (ih h.2)

end

end Lib.FormUrlencoded
