import Mathlib.Data.Int.Log
import Mathlib.Tactic.Linarith
import Mathlib.Tactic.NormNum

-- The exponents of numbers that are written with a mantissa of at least 1 / 2 and below 1.
namespace Scientific

variable {R : Type*} [Field R] [LinearOrder R] [IsStrictOrderedRing R] [FloorRing R] {x y : R}
  {e k : Int}

def exponent (x : R) : Int :=
  Int.log 2 |x| + 1

theorem abs_lt_iff (hx : x ≠ 0) : |x| < ((2 : ℕ) : R) ^ e ↔ exponent x ≤ e :=
  (Int.lt_zpow_iff_log_lt one_lt_two (abs_pos.mpr hx)).trans Int.lt_iff_add_one_le

theorem le_abs_iff (hx : x ≠ 0) : ((2 : ℕ) : R) ^ e ≤ |x| ↔ e < exponent x :=
  (Int.zpow_le_iff_le_log one_lt_two (abs_pos.mpr hx)).trans Int.lt_add_one_iff.symm

theorem abs_lt_exponent (hx : x ≠ 0) : |x| < ((2 : ℕ) : R) ^ exponent x :=
  (abs_lt_iff hx).mpr (le_refl _)

-- The exponent is determined by the two powers.
theorem exponent_eq (h₁ : ((2 : ℕ) : R) ^ (e - 1) ≤ |x|) (h₂ : |x| < ((2 : ℕ) : R) ^ e) :
    exponent x = e := by
  have hx : x ≠ 0 := abs_pos.mp ((zpow_pos (by norm_num) _).trans_le h₁)
  have hle := (abs_lt_iff hx).mp h₂
  have hlt := (le_abs_iff hx).mp h₁
  omega

-- The exponent of a power, which has the mantissa 1 / 2.
theorem exponent_zpow (e : Int) : exponent (((2 : ℕ) : R) ^ e) = e + 1 := by
  rw [exponent, abs_of_pos (zpow_pos (by norm_num) e), Int.log_zpow one_lt_two]

-- Each bit of relative precision is one between the exponents of a number and its error.
theorem exponent_sub_le (hx : x ≠ 0) (hxy : x ≠ y) (h : |x - y| ≤ ((2 : ℕ) : R) ^ (-k) * |x|) :
    exponent (x - y) ≤ exponent x - k := by
  rw [← abs_lt_iff (sub_ne_zero.mpr hxy)]
  have hk : 0 < ((2 : ℕ) : R) ^ (-k) := zpow_pos (by norm_num) _
  calc |x - y| ≤ ((2 : ℕ) : R) ^ (-k) * |x|                 := h
    _ < ((2 : ℕ) : R) ^ (-k) * ((2 : ℕ) : R) ^ exponent x :=
      mul_lt_mul_of_pos_left (abs_lt_exponent hx) hk
    _ = ((2 : ℕ) : R) ^ (exponent x - k) :=
      by rw [← zpow_add₀ (by norm_num), neg_add_eq_sub]

end Scientific
