import Mathlib.Algebra.Field.Rat
import Mathlib.Data.List.TakeDrop

/-!
# Lib — Json

The JSON grammar as a parser over characters, with numbers kept exact, and the text of a string.

A string is read as code units, since `\u` escapes write a character outside the basic plane as
two; a surrogate that stands alone is read as U+FFFD.

* `parse`: the value a text denotes.
* `quote`: the text of a string, as `JSON.stringify` writes it.
* **`characters_escape`**: what `quote` writes is read back.
* `members_last`, `members_cons`, `parse_obj`: how an object is read.
-/

namespace Lib.Json

inductive Value where
  | null
  | bool (b : Bool)
  | num (q : ℚ)
  | str (s : List Char)
  | arr (elements : List Value)
  | obj (members : List (List Char × Value))

/-! ### Strings -/

/-- The value of a hexadecimal digit. -/
def hexValue (c : Char) : Option Nat :=
  if '0' ≤ c && c ≤ '9' then some (c.toNat - '0'.toNat)
  else if 'a' ≤ c && c ≤ 'f' then some (c.toNat - 'a'.toNat + 10)
  else if 'A' ≤ c && c ≤ 'F' then some (c.toNat - 'A'.toNat + 10)
  else none

/-- A lower-case hexadecimal digit. -/
def hexDigit (n : Nat) : Char :=
  if n < 10 then Char.ofNat ('0'.toNat + n) else Char.ofNat ('a'.toNat + (n - 10))

/-- The code unit of `\uXXXX`. -/
def hex4 (a b c d : Char) : Option Nat :=
  (hexValue a).bind fun a => (hexValue b).bind fun b => (hexValue c).bind fun c =>
    (hexValue d).map fun d => ((a * 16 + b) * 16 + c) * 16 + d

/-- The character of a two-character escape. -/
def unescape (c : Char) : Option Nat :=
  if c = '"' || c = '\\' || c = '/' then some c.toNat
  else if c = 'b' then some 8
  else if c = 't' then some 9
  else if c = 'n' then some 10
  else if c = 'f' then some 12
  else if c = 'r' then some 13
  else none

/-- One more code unit in front. -/
def cons (n : Nat) : List Nat × List Char → List Nat × List Char := fun r => (n :: r.1, r.2)

/-- The code units up to the closing quote, and what comes after it.  A character that is not
escaped stands for itself, also outside the basic plane. -/
def units : List Char → Option (List Nat × List Char)
  | [] => none
  | c :: rest =>
      if c = '"' then some ([], rest)
      else if c = '\\' then
        match rest with
        | 'u' :: a :: b :: c :: d :: rest =>
            (hex4 a b c d).bind fun n => (units rest).map (cons n)
        | e :: rest => (unescape e).bind fun n => (units rest).map (cons n)
        | [] => none
      else if c < ' ' then none
      else (units rest).map (cons c.toNat)

def isHigh (n : Nat) : Bool := 0xD800 ≤ n && n ≤ 0xDBFF

def isLow (n : Nat) : Bool := 0xDC00 ≤ n && n ≤ 0xDFFF

/-- The character of a code unit; a surrogate has none. -/
def character (n : Nat) : Char := if n.isValidChar then Char.ofNat n else '\uFFFD'

/-- Code units as characters: a high and a low surrogate in a row are one. -/
def join : List Nat → List Char
  | h :: l :: rest =>
      if isHigh h && isLow l then
        Char.ofNat (0x10000 + (h - 0xD800) * 0x400 + (l - 0xDC00)) :: join rest
      else character h :: join (l :: rest)
  | [n] => [character n]
  | [] => []

/-- The characters up to the closing quote, and what comes after it. -/
def characters (cs : List Char) : Option (List Char × List Char) :=
  (units cs).map fun r => (join r.1, r.2)

/-- The text of a character in a string. -/
def escape (c : Char) : List Char :=
  if c = '"' then ['\\', '"']
  else if c = '\\' then ['\\', '\\']
  else if c.toNat = 8 then ['\\', 'b']
  else if c.toNat = 9 then ['\\', 't']
  else if c.toNat = 10 then ['\\', 'n']
  else if c.toNat = 12 then ['\\', 'f']
  else if c.toNat = 13 then ['\\', 'r']
  else if c.toNat < 32 then ['\\', 'u', '0', '0', hexDigit (c.toNat / 16), hexDigit (c.toNat % 16)]
  else [c]

/-- The text of a string. -/
def quote (s : List Char) : List Char := '"' :: s.flatMap escape ++ ['"']

/-! ### Numbers -/

/-- The number a run of digits denotes. -/
def decimal (ds : List Char) : Nat := Nat.ofDigitChars 10 ds 0

/-- The leading digits, at least one. -/
def digits (cs : List Char) : Option (List Char × List Char) :=
  match cs.span Char.isDigit with
  | ([], _) => none
  | r => some r

/-- The digits before the point: `0`, or a run that does not begin with it. -/
def whole : List Char → Option (List Char × List Char)
  | '0' :: rest => some (['0'], rest)
  | cs => digits cs

/-- `.` and digits, or nothing. -/
def fraction : List Char → Option (List Char × List Char)
  | '.' :: rest => digits rest
  | cs => some ([], cs)

/-- `e` or `E`, a sign and digits, or nothing. -/
def exponent : List Char → Option (Int × List Char)
  | c :: rest =>
      if c = 'e' || c = 'E' then
        match rest with
        | '-' :: rest => (digits rest).map fun r => (-(decimal r.1 : Int), r.2)
        | '+' :: rest => (digits rest).map fun r => ((decimal r.1 : Int), r.2)
        | rest => (digits rest).map fun r => ((decimal r.1 : Int), r.2)
      else some (0, c :: rest)
  | [] => some (0, [])

/-- A number without its sign. -/
def magnitude (cs : List Char) : Option (ℚ × List Char) :=
  (whole cs).bind fun w => (fraction w.2).bind fun f => (exponent f.2).map fun e =>
    ((decimal (w.1 ++ f.1) : ℚ) * (10 : ℚ) ^ (e.1 - (f.1.length : Int)), e.2)

def number : List Char → Option (ℚ × List Char)
  | '-' :: rest => (magnitude rest).map fun r => (-r.1, r.2)
  | cs => magnitude cs

/-! ### Values -/

/-- Past the white space. -/
def skip (cs : List Char) : List Char :=
  cs.dropWhile fun c => c = ' ' || c = '\t' || c = '\n' || c = '\r'

mutual

/-- A value, and what comes after it.  The first argument bounds the depth of the recursion. -/
def value : Nat → List Char → Option (Value × List Char)
  | 0, _ => none
  | n + 1, cs =>
      match skip cs with
      | '"' :: rest => (characters rest).map fun r => (.str r.1, r.2)
      | '[' :: rest =>
          match skip rest with
          | ']' :: rest => some (.arr [], rest)
          | _ => (elements n rest).map fun r => (.arr r.1, r.2)
      | '{' :: rest =>
          match skip rest with
          | '}' :: rest => some (.obj [], rest)
          | _ => (members n rest).map fun r => (.obj r.1, r.2)
      | 'n' :: 'u' :: 'l' :: 'l' :: rest => some (.null, rest)
      | 't' :: 'r' :: 'u' :: 'e' :: rest => some (.bool true, rest)
      | 'f' :: 'a' :: 'l' :: 's' :: 'e' :: rest => some (.bool false, rest)
      | cs => (number cs).map fun r => (.num r.1, r.2)

/-- The elements of an array up to its `]`, at least one. -/
def elements : Nat → List Char → Option (List Value × List Char)
  | 0, _ => none
  | n + 1, cs =>
      (value n cs).bind fun v =>
        match skip v.2 with
        | ',' :: rest => (elements n rest).map fun r => (v.1 :: r.1, r.2)
        | ']' :: rest => some ([v.1], rest)
        | _ => none

/-- The members of an object up to its closing brace, at least one. -/
def members : Nat → List Char → Option (List (List Char × Value) × List Char)
  | 0, _ => none
  | n + 1, cs =>
      match skip cs with
      | '"' :: rest =>
          (characters rest).bind fun k =>
            match skip k.2 with
            | ':' :: rest =>
                (value n rest).bind fun v =>
                  match skip v.2 with
                  | ',' :: rest => (members n rest).map fun r => ((k.1, v.1) :: r.1, r.2)
                  | '}' :: rest => some ([(k.1, v.1)], rest)
                  | _ => none
            | _ => none
      | _ => none

end

/-- The value a text denotes.  A value in a text of `n` characters is at most `n` deep. -/
def parse (cs : List Char) : Option Value :=
  match value (2 * cs.length + 2) cs with
  | some (v, rest) => if skip rest = [] then some v else none
  | none => none

/-- The members of an object up to its closing brace, each value as the text it is written as. -/
def rawMembers : Nat → List Char → Option (List (List Char × List Char))
  | 0, _ => none
  | n + 1, cs =>
      match skip cs with
      | '"' :: rest =>
          (characters rest).bind fun k =>
            match skip k.2 with
            | ':' :: rest =>
                (value n (skip rest)).bind fun v =>
                  let raw := (skip rest).take ((skip rest).length - v.2.length)
                  match skip v.2 with
                  | ',' :: rest => (rawMembers n rest).map ((k.1, raw) :: ·)
                  | '}' :: _ => some [(k.1, raw)]
                  | _ => none
            | _ => none
      | _ => none

/-- The members of the object that is all of the text. -/
def rawObject (cs : List Char) : Option (List (List Char × List Char)) :=
  match parse cs, skip cs with
  | some (.obj []), _ => some []
  | some (.obj _), '{' :: rest => rawMembers (2 * cs.length + 2) rest
  | _, _ => none

/-- A property of a value.  Of members with one name the last counts; a value that is no object
has no property. -/
def Value.get? (name : List Char) : Value → Option Value
  | .obj ms => (ms.reverse.find? fun m => m.1 = name).map (·.2)
  | _ => none

mutual

/-- How deep arrays and objects are nested. -/
def Value.depth : Value → Nat
  | .arr vs => depthElements vs + 1
  | .obj ms => depthMembers ms + 1
  | .null | .bool _ | .num _ | .str _ => 0

def Value.depthElements : List Value → Nat
  | [] => 0
  | v :: vs => max v.depth (depthElements vs)

def Value.depthMembers : List (List Char × Value) → Nat
  | [] => 0
  | (_, v) :: ms => max v.depth (depthMembers ms)

end

mutual

/-- The numbers in a value. -/
def Value.numbers : Value → List ℚ
  | .num q => [q]
  | .arr vs => numbersElements vs
  | .obj ms => numbersMembers ms
  | .null | .bool _ | .str _ => []

def Value.numbersElements : List Value → List ℚ
  | [] => []
  | v :: vs => v.numbers ++ numbersElements vs

def Value.numbersMembers : List (List Char × Value) → List ℚ
  | [] => []
  | (_, v) :: ms => v.numbers ++ numbersMembers ms

end

/-! ### What is quoted is read back -/

section

variable {c : Char} {s rest : List Char}

theorem hexValue_hexDigit : ∀ n < 16, hexValue (hexDigit n) = some n := by decide

theorem units_cons_of_ne (hq : c ≠ '"') (hb : c ≠ '\\') (h : 32 ≤ c.toNat) :
    units (c :: rest) = (units rest).map (cons c.toNat) := by
  have hlt : ¬ c < ' ' := fun hlt => absurd (UInt32.lt_iff_toNat_lt.mp hlt) (not_lt.mpr h)
  rw [units.eq_def]
  simp only [if_neg hq, if_neg hb, if_neg hlt]

theorem units_unescape {e : Char} {n : Nat} (hu : e ≠ 'u') (he : unescape e = some n) :
    units ('\\' :: e :: rest) = (units rest).map (cons n) := by
  have hslash : '\\' ≠ '"' := by decide
  rw [units.eq_def]
  simp only [if_neg hslash, if_true]
  split
  · next heq => exact absurd (List.cons.inj heq).1 hu
  · next heq =>
      obtain ⟨rfl, rfl⟩ := List.cons.inj heq
      rw [he, Option.bind_some]
  · next heq => cases heq

theorem units_escape (c : Char) (rest : List Char) :
    units (escape c ++ rest) = (units rest).map (cons c.toNat) := by
  simp only [escape]
  split_ifs with hq hb h8 h9 h10 h12 h13 h32
  · subst hq
    exact units_unescape (by decide) (by decide)
  · subst hb
    exact units_unescape (by decide) (by decide)
  · exact h8 ▸ units_unescape (by decide) (by decide)
  · exact h9 ▸ units_unescape (by decide) (by decide)
  · exact h10 ▸ units_unescape (by decide) (by decide)
  · exact h12 ▸ units_unescape (by decide) (by decide)
  · exact h13 ▸ units_unescape (by decide) (by decide)
  · have hhex : hex4 '0' '0' (hexDigit (c.toNat / 16)) (hexDigit (c.toNat % 16)) = some c.toNat := by
      have hzero : hexValue '0' = some 0 := by decide
      simp only [hex4, hzero, hexValue_hexDigit _ (show c.toNat / 16 < 16 by omega),
        hexValue_hexDigit _ (show c.toNat % 16 < 16 by omega), Option.bind_some, Option.map_some]
      congr 1
      omega
    have hslash : '\\' ≠ '"' := by decide
    rw [List.cons_append, units.eq_def]
    simp only [List.cons_append, List.nil_append, if_neg hslash, if_true, hhex, Option.bind_some]
  · exact units_cons_of_ne hq hb (by omega)

/-- Any way to write the characters that is read back character by character. -/
theorem units_flatMap {esc : Char → List Char}
    (h : ∀ c rest, units (esc c ++ rest) = (units rest).map (cons c.toNat)) (s rest : List Char) :
    units (s.flatMap esc ++ '"' :: rest) = some (s.map Char.toNat, rest) := by
  induction s with
  | nil =>
      rw [List.flatMap_nil, List.nil_append, units.eq_def]
      rfl
  | cons c s ih =>
      rw [List.flatMap_cons, List.append_assoc, h, ih]
      rfl

theorem isHigh_toNat (c : Char) : isHigh c.toNat = false := by
  have hc := c.valid
  simp only [isHigh, Bool.and_eq_false_iff, decide_eq_false_iff_not, not_le]
  rcases hc with h | ⟨h, -⟩
  · exact .inl h
  · exact .inr (lt_trans (by decide) h)

theorem character_toNat (c : Char) : character c.toNat = c := by
  have hc : c.toNat.isValidChar := c.valid
  rw [character, if_pos hc, Char.ofNat_toNat]

theorem join_map_toNat (s : List Char) : join (s.map Char.toNat) = s := by
  induction s with
  | nil => rfl
  | cons c s ih =>
      cases s with
      | nil => exact congrArg (fun c => [c]) (character_toNat c)
      | cons d s =>
          rw [List.map_cons, List.map_cons, join, isHigh_toNat, character_toNat]
          exact congrArg (c :: ·) ih

theorem characters_flatMap {esc : Char → List Char}
    (h : ∀ c rest, units (esc c ++ rest) = (units rest).map (cons c.toNat)) (s rest : List Char) :
    characters (s.flatMap esc ++ '"' :: rest) = some (s, rest) := by
  rw [characters, units_flatMap h, Option.map_some, join_map_toNat]

/-- What is quoted is read back. -/
theorem characters_escape (s rest : List Char) :
    characters (s.flatMap escape ++ '"' :: rest) = some (s, rest) :=
  characters_flatMap units_escape s rest

/-! ### Reading back an object -/

theorem value_flatMap {esc : Char → List Char}
    (h : ∀ c rest, units (esc c ++ rest) = (units rest).map (cons c.toNat)) (n : Nat)
    (s rest : List Char) :
    value (n + 1) ('"' :: s.flatMap esc ++ ['"'] ++ rest) = some (.str s, rest) := by
  have htext : '"' :: s.flatMap esc ++ ['"'] ++ rest = '"' :: (s.flatMap esc ++ '"' :: rest) := by simp
  rw [htext, value]
  show (characters _).map _ = _
  rw [characters_flatMap h]
  rfl

theorem value_quote (n : Nat) (s rest : List Char) :
    value (n + 1) (quote s ++ rest) = some (.str s, rest) :=
  value_flatMap units_escape n s rest

/-- The last member of an object. -/
theorem members_last {n : Nat} {k text : List Char} {v : Value}
    (h : value n text = some (v, '}' :: rest)) :
    members (n + 1) (quote k ++ ':' :: text) = some ([(k, v)], rest) := by
  have htext : quote k ++ ':' :: text = '"' :: (k.flatMap escape ++ '"' :: ':' :: text) := by
    simp [quote]
  rw [htext, members]
  show (characters _).bind _ = _
  rw [characters_escape]
  show (value n text).bind _ = _
  rw [h]
  rfl

/-- A member with more behind it. -/
theorem members_cons {n : Nat} {k text text' : List Char} {v : Value}
    {ms : List (List Char × Value)} (h : value n text = some (v, ',' :: text'))
    (hms : members n text' = some (ms, rest)) :
    members (n + 1) (quote k ++ ':' :: text) = some ((k, v) :: ms, rest) := by
  have htext : quote k ++ ':' :: text = '"' :: (k.flatMap escape ++ '"' :: ':' :: text) := by
    simp [quote]
  rw [htext, members]
  show (characters _).bind _ = _
  rw [characters_escape]
  show (value n text).bind _ = _
  rw [h]
  show (members n text').map _ = _
  rw [hms]
  rfl

/-- The last member of an object, as text. -/
theorem rawMembers_last {n : Nat} {k raw : List Char} {v : Value}
    (hskip : skip (raw ++ '}' :: rest) = raw ++ '}' :: rest)
    (h : value n (raw ++ '}' :: rest) = some (v, '}' :: rest)) :
    rawMembers (n + 1) (quote k ++ ':' :: (raw ++ '}' :: rest)) = some [(k, raw)] := by
  have htext : quote k ++ ':' :: (raw ++ '}' :: rest) =
      '"' :: (k.flatMap escape ++ '"' :: ':' :: (raw ++ '}' :: rest)) := by
    simp [quote]
  rw [htext, rawMembers]
  show (characters _).bind _ = _
  rw [characters_escape]
  show (value n (skip (raw ++ '}' :: rest))).bind _ = _
  rw [hskip, h]
  show some [(k, (raw ++ '}' :: rest).take _)] = _
  simp

/-- An object that is all of the text. -/
theorem parse_obj {k text : List Char} {ms : List (List Char × Value)}
    (h : ∀ n, text.length < n → members n (quote k ++ text) = some (ms, [])) :
    parse ('{' :: (quote k ++ text)) = some (.obj ms) := by
  have hvalue : value (2 * ('{' :: (quote k ++ text)).length + 2) ('{' :: (quote k ++ text)) =
      some (.obj ms, []) := by
    rw [value]
    show (members _ (quote k ++ text)).map _ = _
    rw [h _ (by simp only [List.length_cons, List.length_append]; omega)]
    rfl
  rw [parse, hvalue]
  rfl

theorem get?_last (k : List Char) (v : Value) (ms : List (List Char × Value)) :
    (Value.obj (ms ++ [(k, v)])).get? k = some v := by
  simp [Value.get?]

theorem get?_cons_last {name k : List Char} {v v' : Value} (h : k ≠ name) :
    (Value.obj [(name, v), (k, v')]).get? name = some v := by
  simp [Value.get?, h]

theorem head_toDigits {n : Nat} {ds : List Char} (h : Nat.toDigits 10 n = '0' :: ds) : n = 0 := by
  induction n using Nat.strongRecOn generalizing ds with
  | _ n ih =>
      by_cases hn : n < 10
      · rw [Nat.toDigits_of_lt_base hn] at h
        have hdigit : ∀ n < 10, n.digitChar = '0' → n = 0 := by decide
        exact hdigit n hn (List.cons.inj h).1
      · have hdiv : n / 10 = 0 := by
          rw [Nat.toDigits_of_base_le (by decide) (not_lt.mp hn)] at h
          obtain ⟨d, ds', hd⟩ := List.exists_cons_of_ne_nil (Nat.toDigits_ne_nil (n := n / 10) (b := 10))
          rw [hd, List.cons_append] at h
          have hhead : d = '0' := (List.cons.inj h).1
          exact ih _ (by omega) (hhead ▸ hd)
        omega

theorem digits_toDigits (n : Nat) (h : ∀ c ∈ rest.head?, c.isDigit = false) :
    digits (Nat.toDigits 10 n ++ rest) = some (Nat.toDigits 10 n, rest) := by
  have hspan : (Nat.toDigits 10 n ++ rest).span Char.isDigit = (Nat.toDigits 10 n, rest) := by
    have hall : ∀ c ∈ Nat.toDigits 10 n, c.isDigit = true := fun c hc =>
      Nat.isDigit_of_mem_toDigits (by decide) (by decide) hc
    rw [List.span_eq_takeWhile_dropWhile, List.takeWhile_append_of_pos hall,
      List.dropWhile_append_of_pos hall]
    cases rest with
    | nil => simp
    | cons c rest =>
        have hc : c.isDigit = false := h c rfl
        simp [hc]
  obtain ⟨d, ds, hd⟩ := List.exists_cons_of_ne_nil (Nat.toDigits_ne_nil (n := n) (b := 10))
  rw [digits, hspan, hd]

theorem skip_digit {d : Char} (h : d.isDigit = true) (rest : List Char) :
    skip (d :: rest) = d :: rest := by
  have hne : ∀ c : Char, c.isDigit = false → d ≠ c := by
    rintro c hc rfl
    rw [h] at hc
    cases hc
  simp [skip, hne ' ' (by decide), hne '\t' (by decide), hne '\n' (by decide), hne '\r' (by decide)]

/-- The decimal digits of a number, where an object ends. -/
theorem value_toDigits (m n : Nat) :
    value (m + 1) (Nat.toDigits 10 n ++ ['}']) = some (.num n, ['}']) := by
  have hwhole : whole (Nat.toDigits 10 n ++ ['}']) = some (Nat.toDigits 10 n, ['}']) := by
    obtain ⟨d, ds, hd⟩ := List.exists_cons_of_ne_nil (Nat.toDigits_ne_nil (n := n) (b := 10))
    by_cases hzero : d = '0'
    · subst hzero
      have hn : n = 0 := head_toDigits hd
      subst hn
      rfl
    · have hdigits : digits (Nat.toDigits 10 n ++ ['}']) = some (Nat.toDigits 10 n, ['}']) :=
        digits_toDigits n (by simp)
      rw [← hdigits, hd, List.cons_append, whole]
      intro rest heq
      exact hzero (List.cons.inj heq).1
  have hnumber : magnitude (Nat.toDigits 10 n ++ ['}']) = some ((n : ℚ), ['}']) := by
    rw [magnitude, hwhole]
    simp [fraction, exponent, decimal, Nat.ofDigitChars_ten_toDigits]
  obtain ⟨d, ds, hd⟩ := List.exists_cons_of_ne_nil (Nat.toDigits_ne_nil (n := n) (b := 10))
  have hdigit : d.isDigit = true :=
    Nat.isDigit_of_mem_toDigits (b := 10) (n := n) (by decide) (by decide) (hd ▸ List.mem_cons_self)
  -- a digit begins no other value
  have hne : ∀ c : Char, c.isDigit = false → d ≠ c := by
    rintro c hc rfl
    rw [hdigit] at hc
    cases hc
  have hskip : skip (d :: (ds ++ ['}'])) = d :: (ds ++ ['}']) := skip_digit hdigit _
  rw [hd, List.cons_append] at hnumber ⊢
  rw [value, hskip]
  split
  case h_7 =>
    rw [number, hnumber]
    · rfl
    · intro rest heq
      exact hne '-' (by decide) (List.cons.inj heq).1
  all_goals
    next heq => exact absurd (List.cons.inj heq).1 (hne _ (by decide))

end

end Lib.Json
