import Mathlib.Data.Int.Log
import Mathlib.Algebra.Order.Field.Rat
import Mathlib.Data.Rat.Floor
import Mathlib.Tactic.Linarith
import Mathlib.Tactic.FieldSimp

/-!
# Lib — Double

Binary64 numbers by their values, as scripting languages have them: what a rational is rounded to,
and the digits a whole number is printed with.

* **`ofRat_natCast`**, **`ofRat_intCast`**: a whole number below 2^53 is a double.
* **`shortest_eq`**: it is printed as it is.
* `exists_ofRat_natCast`, `ofRat_nonpos`: rounding neither overflows below 2^63 nor changes the sign.
-/

namespace Lib

/-- There is one NaN and one zero. -/
inductive Double where
  | nan
  | infinite (negative : Bool)
  | finite (q : ℚ)
  deriving DecidableEq

namespace Double

/-- The nearest integer, of two the even one. -/
def roundEven (q : ℚ) : ℤ :=
  let r := q - ⌊q⌋
  if r < 1 / 2 ∨ r = 1 / 2 ∧ ⌊q⌋ % 2 = 0 then ⌊q⌋ else ⌊q⌋ + 1

/-- The distance of two neighbouring doubles at `q`: 53 significant bits, down to 2^-1074. -/
def ulp (q : ℚ) : ℚ := 2 ^ max (Int.log 2 |q| - 52) (-1074)

/-- The double nearest to `q`. -/
def ofRat (q : ℚ) : Double :=
  let v := roundEven (q / ulp q) * ulp q
  if |v| < 2 ^ 1024 then .finite v else .infinite (q < 0)

/-- The multiples of `10 ^ e` on both sides of `n`, the nearer one first. -/
def neighbours (n e : Nat) : List Nat :=
  let below := n / 10 ^ e * 10 ^ e
  let above := below + 10 ^ e
  if n - below ≤ above - n then [below, above] else [above, below]

/-- The whole number that is printed for the double nearest to `n`: the one with the most zeros at
its end that reads as the same double.  For `n` below 10^21, where no exponent is printed. -/
def shortest (n : Nat) : Nat :=
  (((List.range 22).reverse.flatMap (neighbours n)).find? fun m : Nat =>
    ofRat (m : ℚ) = ofRat (n : ℚ)).getD n

section

variable {n m : Nat}

theorem roundEven_intCast (n : ℤ) : roundEven n = n := by simp [roundEven]

theorem le_roundEven {k : ℤ} {q : ℚ} (h : (k : ℚ) ≤ q) : k ≤ roundEven q := by
  have hfloor : k ≤ ⌊q⌋ := Int.le_floor.mpr h
  simp only [roundEven]
  split
  · exact hfloor
  · exact hfloor.trans (Int.le_add_one le_rfl)

theorem log_natCast_abs (n : Nat) : Int.log 2 |(n : ℚ)| = Nat.log 2 n := by
  rw [Nat.abs_cast, Int.log_natCast]

/-- A natural number below 2^53 is a double. -/
theorem ofRat_natCast (h : n < 2 ^ 53) : ofRat (n : ℚ) = .finite n := by
  obtain ⟨k, hk⟩ : ∃ k : ℕ, max (Int.log 2 |(n : ℚ)| - 52) (-1074) = -(k : ℤ) := by
    have hlog : Nat.log 2 n < 53 := by
      rcases Nat.eq_zero_or_pos n with rfl | hn
      · decide
      · exact Nat.log_lt_of_lt_pow hn.ne' h
    rw [log_natCast_abs]
    exact ⟨52 - Nat.log 2 n, by omega⟩
  have hulp : ulp n = ((2 : ℚ) ^ k)⁻¹ := by rw [ulp, hk, zpow_neg, zpow_natCast]
  have hround : roundEven ((n : ℚ) / ulp n) = (n * 2 ^ k : ℕ) := by
    rw [hulp, div_inv_eq_mul, ← roundEven_intCast (n * 2 ^ k : ℕ)]
    push_cast
    rfl
  have hvalue : (roundEven ((n : ℚ) / ulp n) : ℚ) * ulp n = n := by
    rw [hround, hulp]
    push_cast
    field_simp
  have hlt : |(n : ℚ)| < 2 ^ 1024 := by
    calc |(n : ℚ)| = n := Nat.abs_cast n
      _ < 2 ^ 53 := by exact_mod_cast h
      _ < 2 ^ 1024 := pow_lt_pow_right₀ one_lt_two (by decide)
  simp only [ofRat, hvalue, if_pos hlt]

theorem ulp_pos (q : ℚ) : 0 < ulp q := zpow_pos two_pos _

/-- With a number that is a double its negation is one. -/
theorem ofRat_neg {q : ℚ} (h : ofRat q = .finite q) : ofRat (-q) = .finite (-q) := by
  have hvalue : (roundEven (q / ulp q) : ℚ) * ulp q = q ∧ |q| < 2 ^ 1024 := by
    simp only [ofRat] at h
    split at h
    · next hlt =>
        have hq := Double.finite.inj h
        rw [hq] at hlt
        exact ⟨hq, hlt⟩
    · cases h
  have hulp : ulp (-q) = ulp q := by rw [ulp, ulp, abs_neg]
  have hquot : -q / ulp q = ((-roundEven (q / ulp q) : ℤ) : ℚ) := by
    rw [neg_div, Int.cast_neg, (eq_div_iff (ulp_pos q).ne').mpr hvalue.1]
  have hneg : (roundEven (-q / ulp q) : ℚ) * ulp q = -q := by
    rw [hquot, roundEven_intCast]
    push_cast
    rw [neg_mul, hvalue.1]
  simp only [ofRat, hulp, hneg, abs_neg, if_pos hvalue.2]

theorem ofRat_intCast {i : ℤ} (h : |i| < 2 ^ 53) : ofRat (i : ℚ) = .finite i := by
  obtain ⟨n, rfl | rfl⟩ := i.eq_nat_or_neg
  · exact_mod_cast ofRat_natCast (by exact_mod_cast h)
  · have hn : n < 2 ^ 53 := by
      rw [abs_neg] at h
      exact_mod_cast h
    push_cast
    exact ofRat_neg (ofRat_natCast hn)

/-- From 2^53 on the doubles are whole numbers. -/
theorem ulp_natCast (h : 2 ^ 53 ≤ n) : ∃ k : ℕ, 1 ≤ k ∧ ulp n = (2 : ℚ) ^ k ∧ 2 ^ 52 * 2 ^ k ≤ n := by
  have hn : n ≠ 0 := by
    rintro rfl
    exact absurd h (by decide)
  have hlog : 53 ≤ Nat.log 2 n := Nat.le_log_of_pow_le one_lt_two h
  obtain ⟨k, hk⟩ : ∃ k : ℕ, Nat.log 2 n = 52 + k := ⟨Nat.log 2 n - 52, by omega⟩
  refine ⟨k, by omega, ?_, ?_⟩
  · rw [ulp, log_natCast_abs, hk]
    have hmax : max (((52 + k : ℕ) : ℤ) - 52) (-1074) = (k : ℤ) := by omega
    rw [hmax, zpow_natCast]
  · rw [← pow_add, ← hk]
    exact Nat.pow_log_le_self 2 hn

/-- No natural number from 2^53 on is rounded below it. -/
theorem le_of_ofRat_natCast {v : ℚ} (h : 2 ^ 53 ≤ n) (hv : ofRat (n : ℚ) = .finite v) :
    2 ^ 53 ≤ v := by
  obtain ⟨k, hk1, hulp, hpow⟩ := ulp_natCast h
  have hquot : ((2 ^ 52 : ℤ) : ℚ) ≤ (n : ℚ) / ulp n := by
    rw [hulp, le_div_iff₀ (by positivity)]
    exact_mod_cast hpow
  have hvalue : v = (roundEven ((n : ℚ) / ulp n) : ℚ) * ulp n := by
    simp only [ofRat] at hv
    split at hv
    · exact (Double.finite.inj hv).symm
    · cases hv
  have hround : ((2 ^ 52 : ℤ) : ℚ) ≤ (roundEven ((n : ℚ) / ulp n) : ℚ) :=
    Int.cast_le.mpr (le_roundEven hquot)
  have htwo : (2 : ℚ) ≤ 2 ^ k := by
    calc (2 : ℚ) = 2 ^ 1 := (pow_one 2).symm
      _ ≤ 2 ^ k := pow_le_pow_right₀ one_le_two hk1
  rw [hvalue, hulp] at *
  push_cast at hround
  nlinarith

theorem roundEven_le_add_one (q : ℚ) : (roundEven q : ℚ) ≤ q + 1 := by
  have hfloor : (⌊q⌋ : ℚ) ≤ q := Int.floor_le q
  simp only [roundEven]
  split
  · linarith
  · push_cast
    linarith

/-- A natural number of at most 63 bits is not rounded to infinity. -/
theorem exists_ofRat_natCast (h : 2 ^ 53 ≤ n) (hlt : n < 2 ^ 63) :
    ∃ v, ofRat (n : ℚ) = .finite v ∧ 2 ^ 53 ≤ v := by
  obtain ⟨k, -, hulp, hpow⟩ := ulp_natCast h
  have hlt' : (n : ℚ) < 2 ^ 63 := by exact_mod_cast hlt
  have hpos : (0 : ℚ) < 2 ^ k := by positivity
  have hle : (2 : ℚ) ^ k ≤ n := by exact_mod_cast (Nat.le_mul_of_pos_left _ (by decide)).trans hpow
  have hnonneg : (0 : ℚ) ≤ roundEven ((n : ℚ) / ulp n) := by
    have hquot : ((0 : ℤ) : ℚ) ≤ (n : ℚ) / ulp n := by
      rw [hulp, Int.cast_zero]
      positivity
    exact_mod_cast le_roundEven hquot
  have hvalue : |(roundEven ((n : ℚ) / ulp n) : ℚ) * ulp n| < 2 ^ 1024 := by
    rw [hulp] at hnonneg ⊢
    rw [abs_of_nonneg (by positivity)]
    calc (roundEven ((n : ℚ) / 2 ^ k) : ℚ) * 2 ^ k ≤ ((n : ℚ) / 2 ^ k + 1) * 2 ^ k :=
          mul_le_mul_of_nonneg_right (roundEven_le_add_one _) hpos.le
      _ = n + 2 ^ k := by field_simp
      _ ≤ n + n := by linarith
      _ < 2 ^ 63 + 2 ^ 63 := add_lt_add hlt' hlt'
      _ = 2 ^ 64 := by rw [← two_mul, ← pow_succ']
      _ < 2 ^ 1024 := pow_lt_pow_right₀ one_lt_two (by decide)
  have hfinite : ofRat (n : ℚ) = .finite (roundEven ((n : ℚ) / ulp n) * ulp n) := by
    simp only [ofRat, if_pos hvalue]
  exact ⟨_, hfinite, le_of_ofRat_natCast h hfinite⟩

/-- What is not positive is not rounded to what is. -/
theorem ofRat_nonpos {q v : ℚ} (h : q ≤ 0) (hv : ofRat q = .finite v) : v ≤ 0 := by
  have hround : roundEven (q / ulp q) ≤ 0 := by
    have hquot : q / ulp q ≤ 0 := div_nonpos_of_nonpos_of_nonneg h (ulp_pos q).le
    rcases hquot.lt_or_eq with hlt | heq
    · have hfloor : ⌊q / ulp q⌋ < 0 := Int.floor_lt.mpr (by exact_mod_cast hlt)
      simp only [roundEven]
      split <;> omega
    · rw [heq, ← Int.cast_zero, roundEven_intCast]
  simp only [ofRat] at hv
  split at hv
  · rw [← Double.finite.inj hv]
    exact mul_nonpos_of_nonpos_of_nonneg (Int.cast_nonpos.mpr hround) (ulp_pos q).le
  · cases hv

/-- The digits of a natural number below 2^53 are its own. -/
theorem shortest_eq (h : n < 2 ^ 53) : shortest n = n := by
  rcases hf : ((List.range 22).reverse.flatMap (neighbours n)).find? fun m : Nat =>
    ofRat (m : ℚ) = ofRat (n : ℚ) with _ | m
  · rw [shortest, hf]
    rfl
  · have hm : ofRat (m : ℚ) = .finite n := by
      have heq := List.find?_some hf
      rw [decide_eq_true_eq, ofRat_natCast h] at heq
      exact heq
    have hlt : m < 2 ^ 53 := by
      by_contra hle
      have hn : (2 : ℚ) ^ 53 ≤ n := le_of_ofRat_natCast (not_lt.mp hle) hm
      have hn' : 2 ^ 53 ≤ n := by exact_mod_cast hn
      exact absurd h (not_lt.mpr hn')
    rw [ofRat_natCast hlt, Double.finite.injEq, Nat.cast_inj] at hm
    rw [shortest, hf]
    exact hm

end

end Double

end Lib
