import Mathlib.Data.List.TakeWhile
import Webhooks.Lib.Double
import Webhooks.Lib.Json

/-!
# Lib — ToNumber

The number a scripting language makes of a text, as JavaScript's `Number(text)` does: white space at
both ends is left out, nothing is zero, and what is no numeric literal is NaN.

* `toNumber`: the number of a text.
* **`toNumber_toDigits`**: a natural number below 2^53 is read back from its digits.
-/

namespace Lib.ToNumber

/-- White space and line ends. -/
def isSpace (c : Char) : Bool :=
  (9 ≤ c.toNat && c.toNat ≤ 13) || (0x2000 ≤ c.toNat && c.toNat ≤ 0x200A) ||
    [0x20, 0xA0, 0x1680, 0x2028, 0x2029, 0x202F, 0x205F, 0x3000, 0xFEFF].contains c.toNat

def trim (cs : List Char) : List Char := ((cs.dropWhile isSpace).reverse.dropWhile isSpace).reverse

/-- The base of a literal that begins with `0` and this letter. -/
def base? (c : Char) : Option Nat :=
  if c = 'x' || c = 'X' then some 16
  else if c = 'o' || c = 'O' then some 8
  else if c = 'b' || c = 'B' then some 2
  else none

/-- The number a run of digits denotes in a base, at least one of them. -/
def natural? (base : Nat) (ds : List Char) : Option Nat :=
  if ds = [] then none
  else (ds.mapM fun c => (Json.hexValue c).filter (· < base)).map fun vs =>
    vs.foldl (fun n d => n * base + d) 0

/-- Digits, with a point before, between or behind them, and an exponent. -/
def magnitude? (cs : List Char) : Option ℚ :=
  let w := cs.span Char.isDigit
  let f := match w.2 with
    | '.' :: rest => rest.span Char.isDigit
    | rest => ([], rest)
  if w.1 ++ f.1 = [] then none
  else (Json.exponent f.2).bind fun e =>
    if e.2 = [] then some ((Json.decimal (w.1 ++ f.1) : ℚ) * (10 : ℚ) ^ (e.1 - (f.1.length : Int)))
    else none

/-- A decimal literal without its sign. -/
def unsigned (isNegative : Bool) (cs : List Char) : Double :=
  if cs = "Infinity".toList then .infinite isNegative
  else match magnitude? cs with
    | some q => .ofRat (if isNegative then -q else q)
    | none => .nan

/-- A decimal literal. -/
def decimal : List Char → Double
  | '-' :: cs => unsigned true cs
  | '+' :: cs => unsigned false cs
  | cs => unsigned false cs

/-- A numeric literal, not empty.  One in another base has no sign. -/
def literal : List Char → Double
  | '0' :: c :: ds =>
      match base? c with
      | some base => match natural? base ds with
        | some n => .ofRat n
        | none => .nan
      | none => decimal ('0' :: c :: ds)
  | cs => decimal cs

def toNumber (text : List Char) : Double :=
  match trim text with
  | [] => .finite 0
  | cs => literal cs

section

variable {c : Char} {ds : List Char} {n : Nat}

theorem isDigit_range (h : c.isDigit = true) : 48 ≤ c.toNat ∧ c.toNat ≤ 57 := by
  simpa [Char.isDigit, UInt32.le_iff_toNat_le] using h

theorem isSpace_of_isDigit (h : c.isDigit = true) : isSpace c = false := by
  have hrange := isDigit_range h
  simp [isSpace]
  omega

theorem base?_of_isDigit (h : c.isDigit = true) : base? c = none := by
  have hne : ∀ d : Char, 57 < d.toNat → c ≠ d := by
    rintro d hd rfl
    have := isDigit_range h
    omega
  simp only [base?, Bool.or_eq_true, decide_eq_true_eq, hne 'x' (by decide), hne 'X' (by decide),
    hne 'o' (by decide), hne 'O' (by decide), hne 'b' (by decide), hne 'B' (by decide), or_self, if_false]

theorem dropWhile_isSpace (h : ∀ c ∈ ds, c.isDigit = true) : ds.dropWhile isSpace = ds := by
  cases ds with
  | nil => rfl
  | cons c ds =>
      rw [List.dropWhile_cons, isSpace_of_isDigit (h c List.mem_cons_self), if_neg Bool.false_ne_true]

theorem trim_digits (h : ∀ c ∈ ds, c.isDigit = true) : trim ds = ds := by
  rw [trim, dropWhile_isSpace h, dropWhile_isSpace fun c hc => h c (List.mem_reverse.mp hc),
    List.reverse_reverse]

theorem magnitude?_digits (hne : ds ≠ []) (h : ∀ c ∈ ds, c.isDigit = true) :
    magnitude? ds = some (Json.decimal ds : ℚ) := by
  have hspan : ds.span Char.isDigit = (ds, []) := by
    rw [List.span_eq_takeWhile_dropWhile, List.takeWhile_eq_self_iff.mpr h,
      List.dropWhile_eq_nil_iff.mpr h]
  simp only [magnitude?, hspan, List.append_nil, if_neg hne, Json.exponent]
  simp

/-- A run of digits has no sign, and no other base. -/
theorem literal_digits (hne : ds ≠ []) (h : ∀ c ∈ ds, c.isDigit = true) :
    literal ds = .ofRat (Json.decimal ds) := by
  have hdecimal : decimal ds = .ofRat (Json.decimal ds) := by
    have hinfinity : ds ≠ "Infinity".toList := by
      rintro rfl
      exact absurd (h 'I' (by decide)) (by decide)
    unfold decimal
    split
    · exact absurd (h '-' List.mem_cons_self) (by decide)
    · exact absurd (h '+' List.mem_cons_self) (by decide)
    · rw [unsigned, if_neg hinfinity, magnitude?_digits hne h]
      rfl
  unfold literal
  split
  · next c ds =>
      rw [base?_of_isDigit (h c (List.mem_cons_of_mem _ List.mem_cons_self))]
      exact hdecimal
  · exact hdecimal

theorem toNumber_digits (hne : ds ≠ []) (h : ∀ c ∈ ds, c.isDigit = true) :
    toNumber ds = .ofRat (Json.decimal ds) := by
  unfold toNumber
  rw [trim_digits h]
  split
  · exact absurd rfl hne
  · exact literal_digits hne h

/-- A natural number below 2^53 is read back from its digits. -/
theorem toNumber_toDigits (h : n < 2 ^ 53) : toNumber (Nat.toDigits 10 n) = .finite n := by
  have hdigits : ∀ c ∈ Nat.toDigits 10 n, c.isDigit = true := fun c hc =>
    Nat.isDigit_of_mem_toDigits (b := 10) (n := n) (by decide) (by decide) hc
  rw [toNumber_digits Nat.toDigits_ne_nil hdigits, Json.decimal, Nat.ofDigitChars_ten_toDigits,
    Double.ofRat_natCast h]

theorem trim_eq_self {cs : List Char} (h : ∀ c ∈ cs, isSpace c = false) : trim cs = cs := by
  have hdrop : ∀ cs : List Char, (∀ c ∈ cs, isSpace c = false) → cs.dropWhile isSpace = cs := by
    intro cs h
    cases cs with
    | nil => rfl
    | cons c cs => rw [List.dropWhile_cons, h c List.mem_cons_self, if_neg Bool.false_ne_true]
  rw [trim, hdrop _ h, hdrop _ fun c hc => h c (List.mem_reverse.mp hc), List.reverse_reverse]

theorem unsigned_digits {isNegative : Bool} (hne : ds ≠ []) (h : ∀ c ∈ ds, c.isDigit = true) :
    unsigned isNegative ds = .ofRat (if isNegative then -(Json.decimal ds : ℚ) else Json.decimal ds) := by
  have hinfinity : ds ≠ "Infinity".toList := by
    rintro rfl
    exact absurd (h 'I' (by decide)) (by decide)
  rw [unsigned, if_neg hinfinity, magnitude?_digits hne h]

/-- A run of digits behind a sign. -/
theorem toNumber_signed (hne : ds ≠ []) (h : ∀ c ∈ ds, c.isDigit = true) :
    toNumber ('-' :: ds) = .ofRat (-(Json.decimal ds : ℚ)) ∧
      toNumber ('+' :: ds) = .ofRat (Json.decimal ds) := by
  have hspace : ∀ sign : Char, isSpace sign = false → trim (sign :: ds) = sign :: ds := fun sign hsign =>
    trim_eq_self fun c hc => by
      rcases List.mem_cons.mp hc with rfl | hc
      · exact hsign
      · exact isSpace_of_isDigit (h c hc)
  constructor
  · rw [toNumber, hspace '-' (by decide)]
    exact unsigned_digits hne h
  · rw [toNumber, hspace '+' (by decide)]
    exact unsigned_digits hne h

end

end Lib.ToNumber
