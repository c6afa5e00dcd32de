import PFPSanitizer.Lib.Binary64
import Mathlib.Algebra.Order.Group.Unbundled.Int

-- The distance of two doubles in units in the last place, by which errors are measured.
namespace Metadata

-- A double with zeros made equal.
def normalZero (x : Float) : Float :=
  if x == 0 then 0 else x

-- The bits of a double as a signed integer, with negative doubles below the positive ones.
def longLong (x : Float) : Int64 :=
  let xx := x.toBits.toInt64
  if xx < 0 then Int64.minValue - xx else xx

def ullongMax : UInt64 :=
  0xFFFFFFFFFFFFFFFF

def mUlpd (x y : Float) : UInt64 :=
  let x := normalZero x
  let y := normalZero y
  if x != x then ullongMax - 1
  else if y != y then ullongMax - 1
  else
    let xx := longLong x
    let yy := longLong y
    (if xx ≥ yy then xx - yy else yy - xx).toUInt64

section Ord

variable {x y : Float}

theorem toInt_eq_toNat (a : Int64) :
    a.toInt = if 2 * a.toUInt64.toNat < 2 ^ 64 then (a.toUInt64.toNat : Int) else
    (a.toUInt64.toNat : Int) - (2 ^ 64 : Nat) :=
  BitVec.toInt_eq_toNat_cond a.toBitVec

-- A difference that is not negative is exact as an unsigned integer, even where
-- the subtraction overflows.
theorem toNat_sub {a b : Int64} (h : b.toInt ≤ a.toInt) :
    ((a - b).toUInt64.toNat : Int) = a.toInt - b.toInt := by
  have hs := Int64.toInt_sub a b
  have hn := toInt_eq_toNat (a - b)
  have ha := a.toInt_lt
  have hb := b.le_toInt
  have hlt : (a - b).toUInt64.toNat < 2 ^ 64 := (a - b).toUInt64.toBitVec.isLt
  rw [Int.bmod_def] at hs
  split at hs <;> split at hn <;> omega

-- The subtraction overflows from a difference of 2 ^ 63 on.
theorem toInt_sub_eq_iff {a b : Int64} (h : b.toInt ≤ a.toInt) :
    (a - b).toInt = a.toInt - b.toInt ↔ a.toInt - b.toInt < 2 ^ 63 := by
  have hn := toInt_eq_toNat (a - b)
  have hd := toNat_sub h
  split at hn <;> omega

-- The negation of negative doubles does not overflow.
theorem toInt_longLong (x : Float) : (longLong x).toInt = Binary64.ord x := by
  have hlt : x.toBits.toNat < 2 ^ 64 := x.toBits.toBitVec.isLt
  have hx : x.toBits.toInt64.toInt =
      if 2 * x.toBits.toNat < 2 ^ 64 then (x.toBits.toNat : Int) else (x.toBits.toNat : Int) -
        (2 ^ 64 : Nat) :=
    toInt_eq_toNat x.toBits.toInt64
  have h₀ : (0 : Int64).toInt = 0 := rfl
  rw [longLong, Binary64.ord, Binary64.sign, Binary64.mag]
  by_cases h : 2 ^ 63 ≤ x.toBits.toNat
  case neg =>
    rw [if_pos (by omega)] at hx
    rw [if_neg h, if_neg (by rw [Int64.lt_iff_toInt_lt, hx]; omega), hx,
      Nat.mod_eq_of_lt (by omega)]
    rfl
  case pos =>
    rw [if_neg (by omega)] at hx
    rw [if_pos h, if_pos (by rw [Int64.lt_iff_toInt_lt, hx]; omega), Int64.toInt_sub,
      Int64.toInt_minValue, hx, Float.Model.UnpackedFloat.Sign.apply, Int.bmod_def]
    omega

theorem beq_of_isNaN (h : x.isNaN) : (x == y) = false := by
  show x.toModel.unpack.beq y.toModel.unpack = false
  rw [Binary64.unpack_eq x,
    Binary64.ofMag_notANumber ((Binary64.isNaN_iff x).mp h) (Binary64.mag_lt x)]
  rfl

theorem normalZero_eq (x : Float) :
    normalZero x = x ∨ (¬x.isNaN ∧ Binary64.ord x = 0 ∧ normalZero x = 0) := by
  rw [normalZero]
  split
  case isFalse  => exact .inl rfl
  case isTrue h =>
    have hn : ¬x.isNaN := fun hn => by simp [beq_of_isNaN hn] at h
    have ho := (Binary64.beq_iff hn (by decide)).mp h
    exact .inr ⟨hn, ho, rfl⟩

theorem ord_normalZero (x : Float) : Binary64.ord (normalZero x) = Binary64.ord x := by
  obtain h | ⟨-, ho, h⟩ := normalZero_eq x
  · rw [h]
  · rw [h, ho]
    rfl

theorem isNaN_normalZero (x : Float) : (normalZero x).isNaN = x.isNaN := by
  obtain h | ⟨hn, -, h⟩ := normalZero_eq x
  · rw [h]
  · rw [h, Bool.eq_false_iff.mpr hn]
    rfl

theorem bne_normalZero (z : Float) : (normalZero z != normalZero z) = z.isNaN := by
  rw [bne, Binary64.beq_self_iff, Bool.not_not, isNaN_normalZero]

theorem mUlpd_of_isNaN (h : x.isNaN ∨ y.isNaN) : mUlpd x y = ullongMax - 1 := by
  simp only [mUlpd, bne_normalZero]
  rcases h with h | h
  · rw [if_pos h]
  · rw [if_pos h, ite_self]

theorem toInt_longLong_normalZero (x : Float) :
    (longLong (normalZero x)).toInt = Binary64.ord x := by
  rw [toInt_longLong, ord_normalZero]

theorem toNat_mUlpd (hx : ¬x.isNaN) (hy : ¬y.isNaN) :
    ((mUlpd x y).toNat : Int) = |Binary64.ord x - Binary64.ord y| := by
  have hox := toInt_longLong_normalZero x
  have hoy := toInt_longLong_normalZero y
  simp only [mUlpd, bne_normalZero, if_neg hx, if_neg hy, ge_iff_le]
  split
  case isTrue h =>
    rw [Int64.le_iff_toInt_le] at h
    rw [toNat_sub h, hox, hoy, abs_of_nonneg (by omega)]
  case isFalse h =>
    rw [Int64.le_iff_toInt_le] at h
    rw [toNat_sub (by omega), hox, hoy, abs_of_nonpos (by omega), neg_sub]

theorem toNat_mUlpd_lt (x y : Float) (hx : ¬x.isNaN) (hy : ¬y.isNaN) :
    (mUlpd x y).toNat < 2 ^ 64 - 2 := by
  have hd := toNat_mUlpd hx hy
  have hbx := Binary64.ord_mem hx
  have hby := Binary64.ord_mem hy
  rw [Binary64.infMag] at hbx hby
  obtain ha | ha := abs_choice (Binary64.ord x - Binary64.ord y) <;> omega

end Ord

-- The place of a double on the line, from its bits.
def ord (x : Float) : Int :=
  (longLong (normalZero x)).toInt

-- Errors are distances on a line with all doubles but NaN in their order.
structure UlpMetric : Prop where
  zero      : ord 0 = 0 ∧ ord (-0) = 0
  monotone  : ∀ x y, ¬x.isNaN → ¬y.isNaN →
              (ord x < ord y ↔ ∃ a ∈ Binary64.toReal x, ∃ b ∈ Binary64.toReal y, a < b)
  distance  : ∀ x y, ¬x.isNaN → ¬y.isNaN → ((mUlpd x y).toNat : Int) = |ord x - ord y|
  symm      : ∀ x y, ¬x.isNaN → ¬y.isNaN → mUlpd x y = mUlpd y x
  eq_zero   : ∀ x y, ¬x.isNaN → ¬y.isNaN → (mUlpd x y = 0 ↔ x == y)
  triangle  : ∀ x y z, ¬x.isNaN → ¬y.isNaN → ¬z.isNaN →
              (mUlpd x y).toNat ≤ (mUlpd x z).toNat + (mUlpd z y).toNat
  additive  : ∀ x y z, ¬x.isNaN → ¬y.isNaN → ¬z.isNaN → x ≤ z → z ≤ y →
              (mUlpd x y).toNat = (mUlpd x z).toNat + (mUlpd z y).toNat
  overflow  : ∀ x y, ¬x.isNaN → ¬y.isNaN → ord y ≤ ord x →
              ((longLong (normalZero x) - longLong (normalZero y)).toInt ≠ ord x - ord y ↔
                2 ^ 63 ≤ (mUlpd x y).toNat)
  nan       : ∀ x y, x.isNaN ∨ y.isNaN → mUlpd x y = ullongMax - 1
  below     : ∀ x y, ¬x.isNaN → ¬y.isNaN → mUlpd x y < ullongMax - 1
  noWrap    : ∀ x y, (mUlpd x y + 1).toNat = (mUlpd x y).toNat + 1

theorem ulpMetric : UlpMetric := by
  have ho : ∀ x, ord x = Binary64.ord x := toInt_longLong_normalZero
  have hd : ∀ x y : Float, ¬x.isNaN → ¬y.isNaN → ((mUlpd x y).toNat : Int) = |ord x - ord y| := by
    intro x y hx hy
    rw [ho, ho, toNat_mUlpd hx hy]
  constructor
  case zero => exact ⟨rfl, rfl⟩
  case monotone =>
    intro x y hx hy
    rw [ho, ho, ← Binary64.lineValue_lt_iff hx hy, Binary64.toReal_eq hx, Binary64.toReal_eq hy]
    simp
  case distance => exact hd
  case symm =>
    intro x y hx hy
    rw [← UInt64.toNat_inj]
    have h₁ := hd x y hx hy
    have h₂ := hd y x hy hx
    rw [abs_sub_comm] at h₂
    omega
  case eq_zero =>
    intro x y hx hy
    have h := hd x y hx hy
    rw [Binary64.beq_iff hx hy, ← ho, ← ho, ← UInt64.toNat_inj, ← sub_eq_zero (a := ord x),
      ← abs_eq_zero, ← h]
    exact Int.natCast_eq_zero.symm
  case triangle =>
    intro x y z hx hy hz
    have h := abs_sub_le (ord x) (ord z) (ord y)
    rw [← hd x y hx hy, ← hd x z hx hz, ← hd z y hz hy] at h
    exact_mod_cast h
  case additive =>
    intro x y z hx hy hz hxz hzy
    rw [Binary64.le_iff hx hz, ← ho, ← ho] at hxz
    rw [Binary64.le_iff hz hy, ← ho, ← ho] at hzy
    have h := hd x y hx hy
    have h₁ := hd x z hx hz
    have h₂ := hd z y hz hy
    rw [abs_of_nonpos (by omega)] at h h₁ h₂
    omega
  case overflow =>
    intro x y hx hy h
    have hd := hd x y hx hy
    rw [abs_of_nonneg (by omega)] at hd
    rw [ne_eq, ord, ord, toInt_sub_eq_iff h]
    simp only [ord] at hd
    omega
  case nan => exact fun x y => mUlpd_of_isNaN
  case below =>
    intro x y hx hy
    exact UInt64.lt_iff_toNat_lt.mpr (toNat_mUlpd_lt x y hx hy)
  case noWrap =>
    intro x y
    have hlt : (mUlpd x y).toNat ≤ 2 ^ 64 - 2 := by
      by_cases h : x.isNaN ∨ y.isNaN
      case pos => rw [mUlpd_of_isNaN h]; rfl
      case neg =>
        obtain ⟨hx, hy⟩ := not_or.mp h
        exact (toNat_mUlpd_lt x y hx hy).le
    have h₁ : (1 : UInt64).toNat = 1 := rfl
    rw [UInt64.toNat_add, h₁, Nat.mod_eq_of_lt (by omega)]

end Metadata
