import Mathlib.Analysis.SpecialFunctions.Complex.Arg
import Mathlib.Analysis.SpecialFunctions.Log.Base
import Mathlib.Analysis.SpecialFunctions.Pow.Real
import Mathlib.Analysis.SpecialFunctions.Trigonometric.Bounds
import Mathlib.Analysis.SpecialFunctions.Trigonometric.DerivHyp

-- The functions of a mathematical library as partial functions on the reals.
namespace RealFn

-- The functions without exceptions.
def total (f : ℝ → ℝ) (x : ℝ) : Option ℝ :=
  some (f x)

def total₂ (f : ℝ → ℝ → ℝ) (x y : ℝ) : Option ℝ :=
  some (f x y)

noncomputable section

def fma (x y z : ℝ) : Option ℝ :=
  some (x * y + z)

def div (x y : ℝ) : Option ℝ :=
  if y = 0 then none else some (x / y)

def sqrt (x : ℝ) : Option ℝ :=
  if 0 ≤ x then some x.sqrt else none

def cbrt (x : ℝ) : Option ℝ :=
  some (SignType.sign x * |x| ^ (1 / 3 : ℝ))

def floor (x : ℝ) : Option ℝ :=
  some ⌊x⌋

def ceil (x : ℝ) : Option ℝ :=
  some ⌈x⌉

def tan (x : ℝ) : Option ℝ :=
  if x.cos = 0 then none else some x.tan

def asin (x : ℝ) : Option ℝ :=
  if |x| ≤ 1 then some x.arcsin else none

def acos (x : ℝ) : Option ℝ :=
  if |x| ≤ 1 then some x.arccos else none

def log (x : ℝ) : Option ℝ :=
  if 0 < x then some x.log else none

def log10 (x : ℝ) : Option ℝ :=
  if 0 < x then some (Real.logb 10 x) else none

-- The remainder has the sign of `x`.
def fmod (x y : ℝ) : Option ℝ :=
  if y = 0 then none else some (x - y * (SignType.sign (x / y) * ⌊|x / y|⌋))

def atan2 (y x : ℝ) : Option ℝ :=
  some (Complex.arg ⟨x, y⟩)

def hypot (x y : ℝ) : Option ℝ :=
  some (x ^ 2 + y ^ 2).sqrt

-- A negative base has only integral powers.
def pow (x y : ℝ) : Option ℝ :=
  if 0 < x ∨ (x = 0 ∧ 0 ≤ y) then some (x ^ y)
  else if x < 0 ∧ y = ⌊y⌋ then some (x ^ ⌊y⌋)
  else none

def exp2 (x : ℝ) : Option ℝ :=
  some (2 ^ x)

def ldexp (x : ℝ) (n : ℤ) : Option ℝ :=
  some (x * 2 ^ n)

end

-- The functions by their parameters. Those of `scale` are a real and an integer.
inductive Fn
  | one (f : ℝ → Option ℝ)
  | two (f : ℝ → ℝ → Option ℝ)
  | three (f : ℝ → ℝ → ℝ → Option ℝ)
  | scale (f : ℝ → ℤ → Option ℝ)

inductive Arg
  | real (x : Option ℝ)
  | int (n : ℤ)

def lift₂ (f : ℝ → ℝ → Option ℝ) (x y : Option ℝ) : Option ℝ :=
  x.bind fun a => y.bind (f a)

def lift₃ (f : ℝ → ℝ → ℝ → Option ℝ) (x y z : Option ℝ) : Option ℝ :=
  x.bind fun a => lift₂ (f a) y z

namespace Fn

inductive Accepts : Fn → List Arg → Prop
  | one   {f x}     : Accepts (one f) [.real x]
  | two   {f x y}   : Accepts (two f) [.real x, .real y]
  | three {f x y z} : Accepts (three f) [.real x, .real y, .real z]
  | scale {f x n}   : Accepts (scale f) [.real x, .int n]

def apply : Fn → List Arg → Option ℝ
  | one f, [.real x]                     => x.bind f
  | two f, [.real x, .real y]            => lift₂ f x y
  | three f, [.real x, .real y, .real z] => lift₃ f x y z
  | scale f, [.real x, .int n]           => x.bind (f · n)
  | _, _                                 => none

end Fn

theorem sinh_eq_sin_iff {x : ℝ} : x.sinh = x.sin ↔ x = 0 := by
  constructor
  · intro h
    by_contra hx
    cases lt_or_gt_of_ne hx with
    | inl hn => exact absurd h ((Real.sinh_lt_self_iff.mpr hn).trans (Real.lt_sin hn)).ne
    | inr hp => exact absurd h ((Real.sin_lt hp).trans (Real.self_lt_sinh_iff.mpr hp)).ne'
  · intro h
    simp [h]

-- Scaling by a power of two changes every value but zero, unless the exponent is zero.
theorem mul_zpow_eq_self_iff {x : ℝ} {n : ℤ} : x * 2 ^ n = x ↔ x = 0 ∨ n = 0 := by
  rw [mul_right_eq_self₀, zpow_eq_one_iff_right₀ zero_le_two (by norm_num), or_comm]

end RealFn
