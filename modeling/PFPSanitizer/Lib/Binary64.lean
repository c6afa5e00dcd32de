import Mathlib
import PFPSanitizer.Lib.Scientific

-- Doubles as signs and magnitudes, with their order and their real values.
namespace Binary64

open Float.Model UnpackedFloat

-- The sign bit, and the other bits as a number.
def sign (x : Float) : Sign :=
  if 2 ^ 63 ≤ x.toBits.toNat then .negative else .positive

def mag (x : Float) : Nat :=
  x.toBits.toNat % 2 ^ 63

-- The place of a double on the line of all doubles.
def ord (x : Float) : Int :=
  (sign x).apply (mag x)

theorem mag_lt (x : Float) : mag x < 2 ^ 63 :=
  Nat.mod_lt _ (by decide)

-- The mantissa and the exponent field of a finite magnitude. A subnormal one has the exponent
-- of the smallest normal one.
def mant (k : Nat) : Nat :=
  if k / 2 ^ 52 = 0 then k else 2 ^ 52 + k % 2 ^ 52

def expo (k : Nat) : Nat :=
  max (k / 2 ^ 52) 1

theorem mant_pos {k : Nat} (h : k ≠ 0) : 0 < mant k := by
  rw [mant]
  split <;> omega

theorem mant_lt (k : Nat) : mant k < 2 ^ 53 := by
  rw [mant]
  split <;> omega

theorem lt_iff_lex {k l : Nat} : k < l ↔ expo k < expo l ∨ (expo k = expo l ∧ mant k < mant l) := by
  simp only [expo, mant]
  split <;> split <;> omega

-- The double with a sign and a magnitude.
def ofMag (s : Sign) (k : Nat) : UnpackedFloat :=
  if k / 2 ^ 52 = 2047 then if k % 2 ^ 52 = 0 then .infinity s else .notANumber
  else if h : k = 0 then .zero s
  else .finite s (mant k) (expo k - 1075) (mant_pos h)

theorem toNat_unpackMantissa (x : Float) :
    (@unpackMantissa Format.binary64 x.toBits.toBitVec).toNat = mag x % 2 ^ 52 := by
  have h : (@unpackMantissa Format.binary64 x.toBits.toBitVec).toNat = x.toBits.toNat % 2 ^ 52 := by
    simp [unpackMantissa, BitVec.extractLsb, BitVec.extractLsb']
  rw [h, mag]
  omega

theorem toNat_unpackExponent (x : Float) :
    (@unpackExponent Format.binary64 x.toBits.toBitVec).toNat = mag x / 2 ^ 52 := by
  have h : (@unpackExponent Format.binary64 x.toBits.toBitVec).toNat =
      x.toBits.toNat / 2 ^ 52 % 2 ^ 11 := by
    simp [unpackExponent, BitVec.extractLsb, BitVec.extractLsb', Nat.shiftRight_eq_div_pow]
  rw [h, mag]
  omega

theorem ofBitVec_unpackSign (x : Float) :
    Sign.ofBitVec (@unpackSign Format.binary64 x.toBits.toBitVec) = sign x := by
  have hlt : x.toBits.toNat < 2 ^ 64 := x.toBits.toBitVec.isLt
  have hs : (@unpackSign Format.binary64 x.toBits.toBitVec).toNat = x.toBits.toNat / 2 ^ 63 := by
    simp [unpackSign, BitVec.extractLsb, BitVec.extractLsb', Nat.shiftRight_eq_div_pow]
    omega
  have h : @unpackSign Format.binary64 x.toBits.toBitVec = 0#1 ↔ ¬2 ^ 63 ≤ x.toBits.toNat := by
    rw [← BitVec.toNat_inj, hs]
    show x.toBits.toNat / 2 ^ 63 = 0 ↔ _
    omega
  simp only [Sign.ofBitVec, sign, h]
  split <;> simp_all

theorem finite_congr {s s' : Sign} {m m' : Nat} {e e' : Int} {h : 0 < m} {h' : 0 < m'} (hs : s = s')
    (hm : m = m') (he : e = e') : UnpackedFloat.finite s m e h = .finite s' m' e' h' := by
  subst hs hm he
  rfl

theorem unpack_eq (x : Float) : x.toModel.unpack = ofMag (sign x) (mag x) := by
  let b : BitVec 64 := x.toBits.toBitVec
  have hm : (@unpackMantissa Format.binary64 b).toNat = mag x % 2 ^ 52 := toNat_unpackMantissa x
  have he : (@unpackExponent Format.binary64 b).toNat = mag x / 2 ^ 52 := toNat_unpackExponent x
  have hsign : Sign.ofBitVec (@unpackSign Format.binary64 b) = sign x := ofBitVec_unpackSign x
  have hinf : @unpackExponent Format.binary64 b = -1#_ ↔ mag x / 2 ^ 52 = 2047 := by
    rw [← BitVec.toNat_inj, he]
    exact Iff.rfl
  have hsub : @unpackExponent Format.binary64 b = 0#_ ↔ mag x / 2 ^ 52 = 0 := by
    rw [← BitVec.toNat_inj, he]
    exact Iff.rfl
  have hzero : @unpackMantissa Format.binary64 b = 0#_ ↔ mag x % 2 ^ 52 = 0 := by
    rw [← BitVec.toNat_inj, hm]
    exact Iff.rfl
  show UnpackedFloat.unpack Format.binary64 b = _
  rw [ofMag]
  by_cases h₁ : mag x / 2 ^ 52 = 2047
  case pos =>
    rw [if_pos h₁]
    by_cases h₀ : mag x % 2 ^ 52 = 0
    · simp only [UnpackedFloat.unpack, hinf.mpr h₁, hzero.mpr h₀, if_pos h₀, if_pos, hsign]
    · simp only [UnpackedFloat.unpack, hinf.mpr h₁, mt hzero.mp h₀, if_neg h₀, if_pos, if_false]
  case neg =>
    rw [if_neg h₁]
    by_cases h₂ : mag x / 2 ^ 52 = 0
    case pos =>
      by_cases h₀ : mag x % 2 ^ 52 = 0
      case pos =>
        have hz : mag x = 0 := by omega
        rw [dif_pos hz]
        simp only [UnpackedFloat.unpack, hsub.mpr h₂, hzero.mpr h₀, if_pos, dif_pos, hsign]
        rfl
      case neg =>
        have hz : mag x ≠ 0 := by omega
        have hmag : mag x = mag x % 2 ^ 52 := by omega
        rw [dif_neg hz]
        simp only [UnpackedFloat.unpack, hsub.mpr h₂, mt hzero.mp h₀, if_false, if_pos, hsign]
        refine finite_congr rfl ?_ ?_
        · rw [mant, if_pos h₂, hm, ← hmag]
        · rw [expo, h₂]
          rfl
    case neg =>
      have hz : mag x ≠ 0 := by omega
      have hone : (1#1 ++ @unpackMantissa Format.binary64 b).toNat = 2 ^ 52 + mag x % 2 ^ 52 := by
        rw [BitVec.toNat_append, hm]
        show 1 <<< 52 ||| _ = _
        rw [Nat.one_shiftLeft, Nat.or_comm, Nat.or_two_pow_eq_add_of_lt (Nat.mod_lt _ (by decide)),
          Nat.add_comm]
      rw [dif_neg hz]
      simp only [UnpackedFloat.unpack, mt hinf.mp h₁, mt hsub.mp h₂, if_false, hsign]
      refine finite_congr rfl ?_ ?_
      · rw [mant, if_neg h₂, hone]
      · rw [he, expo, Nat.max_eq_left (Nat.pos_of_ne_zero h₂)]
        rfl

-- The magnitude of infinity. Those above are of NaN.
def infMag : Nat := 2047 * 2 ^ 52

theorem ofMag_infinity {s : Sign} {k : Nat} (h : k = infMag) : ofMag s k = .infinity s := by
  subst h
  rfl

theorem ofMag_notANumber {s : Sign} {k : Nat} (h : infMag < k) (hk : k < 2 ^ 63) :
    ofMag s k = .notANumber := by
  rw [infMag] at h
  rw [ofMag, if_pos (by omega), if_neg (by omega)]

theorem ofMag_finite {s : Sign} {k : Nat} (h₀ : k ≠ 0) (h : k < infMag) :
    ofMag s k = .finite s (mant k) (expo k - 1075) (mant_pos h₀) := by
  rw [infMag] at h
  rw [ofMag, if_neg (by omega), dif_neg h₀]

theorem isNaN_iff (x : Float) : x.isNaN ↔ infMag < mag x := by
  have hk := mag_lt x
  show x.toModel.unpack.isNaN = true ↔ _
  rw [unpack_eq]
  obtain h | h | h := Nat.lt_trichotomy (mag x) infMag
  · refine iff_of_false ?_ (by omega)
    by_cases h₀ : mag x = 0
    · simp [h₀, ofMag, UnpackedFloat.isNaN]
    · simp [ofMag_finite h₀ h, UnpackedFloat.isNaN]
  · rw [ofMag_infinity h]
    simp [UnpackedFloat.isNaN, h]
  · simp [ofMag_notANumber h hk, UnpackedFloat.isNaN, h]

-- The magnitude with its exponent first.
theorem compare_lex (k l : Nat) :
    ((compare (expo k - 1075 : Int) (expo l - 1075)).then (compare (mant k) (mant l))) = compare
    (k : Int) l := by
  have hkl := lt_iff_lex (k := k) (l := l)
  have hlk := lt_iff_lex (k := l) (l := k)
  obtain h | h | h := Nat.lt_trichotomy k l
  · rw [compare_lt_iff_lt.mpr (Int.ofNat_lt.mpr h)]
    obtain he | ⟨he, hm⟩ := hkl.mp h
    · rw [compare_lt_iff_lt.mpr (by omega)]
      rfl
    · rw [he, compare_lt_iff_lt.mpr hm, compare_eq_iff_eq.mpr rfl]
      rfl
  · subst h
    simp
  · rw [compare_gt_iff_gt.mpr (Int.ofNat_lt.mpr h)]
    obtain he | ⟨he, hm⟩ := hlk.mp h
    · rw [compare_gt_iff_gt.mpr (by omega)]
      rfl
    · rw [he, compare_gt_iff_gt.mpr hm, compare_eq_iff_eq.mpr rfl]
      rfl

theorem compare_neg (a b : Int) : compare (-a) (-b) = (compare a b).swap := by
  rw [Int.compare_swap, Int.compare_eq_ite_lt, Int.compare_eq_ite_lt]
  simp only [Int.neg_lt_neg_iff]

theorem compare_lt {a b : Int} (h : a < b) : some Ordering.lt = some (compare a b) := by
  rw [compare_lt_iff_lt.mpr h]

theorem compare_gt {a b : Int} (h : b < a) : some Ordering.gt = some (compare a b) := by
  rw [compare_gt_iff_gt.mpr h]

theorem compare_ofMag {s t : Sign} {k l : Nat} (hk : k ≤ infMag) (hl : l ≤ infMag) :
    (ofMag s k).compare (ofMag t l) = some (compare (s.apply k) (t.apply l)) := by
  have hi : 0 < infMag := by decide
  obtain hk₁ | hk := Nat.eq_or_lt_of_le hk <;> obtain hl₁ | hl := Nat.eq_or_lt_of_le hl
  · rw [ofMag_infinity hk₁, ofMag_infinity hl₁, hk₁, hl₁]
    cases s <;> cases t <;> rfl
  · rw [ofMag_infinity hk₁]
    by_cases hl₀ : l = 0
    · subst hl₀ hk₁
      cases s <;> cases t <;> rfl
    · rw [ofMag_finite hl₀ hl]
      cases s <;> cases t <;> simp only [UnpackedFloat.compare, Sign.apply] <;>
        first | exact compare_lt (by omega) | exact compare_gt (by omega)
  · rw [ofMag_infinity hl₁]
    by_cases hk₀ : k = 0
    · subst hk₀ hl₁
      cases s <;> cases t <;> rfl
    · rw [ofMag_finite hk₀ hk]
      cases s <;> cases t <;> simp only [UnpackedFloat.compare, Sign.apply] <;>
        first | exact compare_lt (by omega) | exact compare_gt (by omega)
  · by_cases hk₀ : k = 0 <;> by_cases hl₀ : l = 0
    · subst hk₀ hl₀
      cases s <;> cases t <;> rfl
    · subst hk₀
      rw [ofMag_finite hl₀ hl]
      cases s <;> cases t <;> simp only [ofMag, UnpackedFloat.compare, Sign.apply] <;>
        first | exact compare_lt (by omega) | exact compare_gt (by omega)
    · subst hl₀
      rw [ofMag_finite hk₀ hk]
      cases s <;> cases t <;> simp only [ofMag, UnpackedFloat.compare, Sign.apply] <;>
        first | exact compare_lt (by omega) | exact compare_gt (by omega)
    · rw [ofMag_finite hk₀ hk, ofMag_finite hl₀ hl]
      cases s <;> cases t <;> simp only [UnpackedFloat.compare, Sign.apply, compare_lex]
      · rw [compare_neg]
      · exact compare_lt (by omega)
      · exact compare_gt (by omega)

section Order

variable {x y : Float}

theorem mag_le (h : ¬x.isNaN) : mag x ≤ infMag :=
  Nat.le_of_not_lt (mt (isNaN_iff x).mpr h)

theorem compare_eq (hx : ¬x.isNaN) (hy : ¬y.isNaN) :
    x.toModel.unpack.compare y.toModel.unpack = some (compare (ord x) (ord y)) := by
  rw [unpack_eq, unpack_eq, compare_ofMag (mag_le hx) (mag_le hy)]
  rfl

theorem lt_iff (hx : ¬x.isNaN) (hy : ¬y.isNaN) : x < y ↔ ord x < ord y := by
  show decide (x.toModel.unpack.lt y.toModel.unpack = true) = true ↔ _
  rw [UnpackedFloat.lt, compare_eq hx hy, ← Int.compare_eq_lt]
  simp

theorem le_iff (hx : ¬x.isNaN) (hy : ¬y.isNaN) : x ≤ y ↔ ord x ≤ ord y := by
  show decide (x.toModel.unpack.le y.toModel.unpack = true) = true ↔ _
  rw [UnpackedFloat.le, compare_eq hx hy, ← Int.isLE_compare]
  simp

theorem beq_iff (hx : ¬x.isNaN) (hy : ¬y.isNaN) : x == y ↔ ord x = ord y := by
  show x.toModel.unpack.beq y.toModel.unpack = true ↔ _
  rw [UnpackedFloat.beq, compare_eq hx hy, ← Int.compare_eq_eq]
  simp

theorem beq_self_iff (x : Float) : (x == x) = !x.isNaN := by
  rw [Bool.eq_iff_iff, Float.beq_self_iff]
  simp

end Order

section Value

-- A finite magnitude in units of the smallest positive double.
def units (k : Nat) : Nat :=
  mant k * 2 ^ (expo k - 1)

theorem units_strictMono {k l : Nat} (h : k < l) : units k < units l := by
  obtain he | ⟨he, hm⟩ := lt_iff_lex.mp h
  case inr =>
    rw [units, units, he]
    exact Nat.mul_lt_mul_of_pos_right hm (by positivity)
  case inl =>
    -- The larger one is normal.
    have hk : 1 ≤ expo k := Nat.le_max_right _ _
    have hl : 2 ^ 52 ≤ mant l := by
      simp only [expo] at he
      rw [mant]
      split <;> omega
    have he : expo k ≤ expo l - 1 := by omega
    calc units k < 2 ^ 53 * 2 ^ (expo k - 1) := Nat.mul_lt_mul_of_pos_right (mant_lt k) (by simp)
      _ = 2 ^ 52 * 2 ^ expo k                := by rw [← Nat.pow_add, ← Nat.pow_add]; congr 1; omega
      _ ≤ 2 ^ 52 * 2 ^ (expo l - 1)          := by gcongr; decide
      _ ≤ units l                            := Nat.mul_le_mul_right _ hl

noncomputable def magValue (k : Nat) : EReal :=
  if k = infMag then ⊤ else ((units k * (2 : ℕ) ^ (-1074 : Int) : ℝ) : EReal)

theorem magValue_zero : magValue 0 = 0 := by
  rw [magValue, if_neg (by decide)]
  simp [units, mant]

theorem magValue_strictMono {k l : Nat} (h : k < l) (hl : l ≤ infMag) :
    magValue k < magValue l := by
  have hu : (units k : ℝ) < units l := Nat.cast_lt.mpr (units_strictMono h)
  rw [magValue, magValue, if_neg (by omega)]
  split
  · exact EReal.coe_lt_top _
  · exact EReal.coe_lt_coe_iff.mpr (mul_lt_mul_of_pos_right hu (by positivity))

-- The real value of the double at a place of the line.
noncomputable def lineValue (z : Int) : EReal :=
  if 0 ≤ z then magValue z.toNat else -magValue (-z).toNat

theorem lineValue_strictMono {z w : Int} (h : z < w) (hz : -infMag ≤ z) (hw : w ≤ infMag) :
    lineValue z < lineValue w := by
  have hneg : ∀ u : Int, u < 0 → -infMag ≤ u → lineValue u < 0 := by
    intro u hu hi
    rw [lineValue, if_neg (by omega), EReal.neg_lt_comm, neg_zero, ← magValue_zero]
    exact magValue_strictMono (by omega) (by omega)
  by_cases hz₀ : 0 ≤ z
  case pos =>
    rw [lineValue, lineValue, if_pos hz₀, if_pos (by omega)]
    exact magValue_strictMono (by omega) (by omega)
  case neg =>
    by_cases hw₀ : 0 ≤ w
    case pos =>
      refine (hneg z (by omega) hz).trans_le ?_
      rw [lineValue, if_pos hw₀, ← magValue_zero]
      obtain h₀ | h₀ := Nat.eq_zero_or_pos w.toNat
      · rw [h₀]
      · exact (magValue_strictMono h₀ (by omega)).le
    case neg =>
      rw [lineValue, lineValue, if_neg hz₀, if_neg hw₀, EReal.neg_lt_neg_iff]
      exact magValue_strictMono (by omega) (by omega)

-- The value of an unpacked double.
noncomputable def value : UnpackedFloat → Option EReal
  | .notANumber             => none
  | .infinity .positive     => some ⊤
  | .infinity .negative     => some ⊥
  | .zero _                 => some 0
  | .finite .positive m e _ => some ((m * (2 : ℕ) ^ e : ℝ) : EReal)
  | .finite .negative m e _ => some ((-(m * (2 : ℕ) ^ e) : ℝ) : EReal)

noncomputable def toReal (x : Float) : Option EReal :=
  value x.toModel.unpack

theorem mant_mul_zpow (k : Nat) :
    (mant k * (2 : ℕ) ^ (expo k - 1075 : Int) : ℝ) = units k * (2 : ℕ) ^ (-1074 : Int) := by
  have hk : 1 ≤ expo k := Nat.le_max_right _ _
  have he : (expo k - 1075 : Int) = (expo k - 1 : Nat) + -1074 := by omega
  rw [he, zpow_add₀ (by norm_num), units, zpow_natCast]
  push_cast
  ring

theorem value_ofMag {s : Sign} {k : Nat} (hk : k ≤ infMag) :
    value (ofMag s k) = some (lineValue (s.apply k)) := by
  obtain h | h := Nat.eq_or_lt_of_le hk
  case inl =>
    rw [ofMag_infinity h, h]
    cases s with
    | positive => simp [value, Sign.apply, lineValue, magValue]
    | negative =>
      have hi : infMag ≠ 0 := by decide
      simp [value, Sign.apply, lineValue, magValue, hi]
  case inr =>
    by_cases h₀ : k = 0
    case pos =>
      subst h₀
      cases s <;> simp [ofMag, value, Sign.apply, lineValue, magValue_zero]
    case neg =>
      have hm : magValue k = ((mant k * (2 : ℕ) ^ (expo k - 1075 : Int) : ℝ) : EReal) := by
        rw [mant_mul_zpow, magValue, if_neg (by omega)]
      rw [ofMag_finite h₀ h]
      cases s with
      | positive => simp [value, Sign.apply, lineValue, hm]
      | negative =>
        simp [value, Sign.apply, lineValue, hm, h₀]

variable {x y : Float}

theorem toReal_eq (h : ¬x.isNaN) : toReal x = some (lineValue (ord x)) := by
  rw [toReal, unpack_eq, value_ofMag (mag_le h), ord]

theorem toReal_eq_none_iff : toReal x = none ↔ x.isNaN := by
  by_cases h : x.isNaN
  case neg => exact iff_of_false (by rw [toReal_eq h]; exact Option.some_ne_none _) h
  case pos =>
    refine iff_of_true ?_ h
    rw [toReal, unpack_eq, ofMag_notANumber ((isNaN_iff x).mp h) (mag_lt x)]
    rfl

theorem ord_mem (h : ¬x.isNaN) : -infMag ≤ ord x ∧ ord x ≤ infMag := by
  have hk := mag_le h
  rw [ord]
  cases sign x <;> simp only [Sign.apply] <;> omega

theorem lineValue_lt_iff (hx : ¬x.isNaN) (hy : ¬y.isNaN) :
    lineValue (ord x) < lineValue (ord y) ↔ ord x < ord y := by
  have hx := ord_mem hx
  have hy := ord_mem hy
  constructor
  · intro h
    by_contra hn
    obtain he | hl := Int.lt_or_eq_of_le (Int.not_lt.mp hn)
    · exact absurd h (lineValue_strictMono he hy.left hx.right).not_gt
    · rw [hl] at h
      exact absurd h (lt_irrefl _)
  · exact fun h => lineValue_strictMono h hx.left hy.right

end Value

-- A comparison with NaN is false.
theorem not_isNaN_of_lt {x y : Float} (h : x < y) : ¬x.isNaN ∧ ¬y.isNaN := by
  have hl : x.toModel.unpack.lt y.toModel.unpack = true := of_decide_eq_true h
  rw [unpack_eq x, unpack_eq y] at hl
  constructor
  · intro hn
    rw [ofMag_notANumber ((isNaN_iff x).mp hn) (mag_lt x)] at hl
    cases hl
  · intro hn
    rw [ofMag_notANumber ((isNaN_iff y).mp hn) (mag_lt y)] at hl
    revert hl
    cases ofMag (sign x) (mag x) <;> exact Bool.noConfusion

-- Neither zero nor infinite nor NaN.
def Regular (x : Float) : Prop :=
  mag x ≠ 0 ∧ mag x < infMag

instance (x : Float) : Decidable (Regular x) :=
  inferInstanceAs (Decidable (_ ∧ _))

-- The exponent of a double that is written with a mantissa of at least 1 / 2 and below 1.
def exponent (x : Float) : Int :=
  (mant (mag x)).log2 + expo (mag x) - 1074

theorem exponent_mem (h : Regular x) : -1073 ≤ exponent x ∧ exponent x ≤ 1024 := by
  have hm : (mant (mag x)).log2 < 53 := (Nat.log2_lt (mant_pos h.left).ne').mpr (mant_lt _)
  have hlo : 1 ≤ expo (mag x) := Nat.le_max_right _ _
  have hhi : expo (mag x) ≤ 2046 := by
    have := h.right
    rw [infMag] at this
    rw [expo]
    omega
  rw [exponent]
  omega

section Regular

variable {x : Float}

theorem not_isNaN_of_lt_infMag (h : mag x < infMag) : ¬x.isNaN :=
  mt (isNaN_iff x).mp (Nat.not_lt_of_lt h)

-- Regular doubles are real numbers.
theorem toReal_of_regular (h : Regular x) :
    ∃ r : ℝ, toReal x = some (r : EReal) ∧ |r| = units (mag x) * (2 : ℕ) ^ (-1074 : Int) := by
  have hne : mag x ≠ infMag := Nat.ne_of_lt h.right
  have hpos : (0 : ℝ) ≤ units (mag x) * (2 : ℕ) ^ (-1074 : Int) := by positivity
  rw [toReal_eq (not_isNaN_of_lt_infMag h.right), ord]
  cases sign x with
  | positive =>
    refine ⟨_, ?_, abs_of_nonneg hpos⟩
    simp [Sign.apply, lineValue, magValue, hne]
  | negative =>
    refine ⟨-_, ?_, (abs_neg _).trans (abs_of_nonneg hpos)⟩
    simp [Sign.apply, lineValue, magValue, hne, h.left]

-- The others are NaN, infinite or zero.
theorem regular_iff : Regular x ↔ ∃ r : ℝ, r ≠ 0 ∧ toReal x = some (r : EReal) := by
  constructor
  · intro h
    obtain ⟨r, hr, ha⟩ := toReal_of_regular h
    refine ⟨r, ?_, hr⟩
    rw [← abs_pos, ha]
    have hm := mant_pos h.left
    rw [units]
    positivity
  · rintro ⟨r, hr, h⟩
    have hn : ¬x.isNaN := by
      rw [← toReal_eq_none_iff, h]
      exact Option.some_ne_none _
    have hle := mag_le hn
    rw [toReal_eq hn, ord] at h
    generalize sign x = s at h
    refine ⟨?_, Nat.lt_of_le_of_ne hle ?_⟩
    · intro h₀
      rw [h₀] at h
      have hz : lineValue 0 = 0 := by simp [lineValue, magValue_zero]
      cases s <;> simp [Sign.apply, hz] at h <;> exact hr (EReal.coe_eq_zero.mp h.symm)
    · intro hi
      have hpos : infMag ≠ 0 := by decide
      rw [hi] at h
      cases s <;> simp [Sign.apply, lineValue, magValue, hpos] at h

theorem exponent_eq (h : Regular x) {r : ℝ} (hr : toReal x = some (r : EReal)) :
    Scientific.exponent r = exponent x := by
  obtain ⟨r', hr', ha⟩ := toReal_of_regular h
  obtain rfl : r' = r := EReal.coe_injective (Option.some.inj (hr'.symm.trans hr))
  have hm := (mant_pos h.left).ne'
  have he : 1 ≤ expo (mag x) := Nat.le_max_right _ _
  have hu : (units (mag x) : ℝ) * (2 : ℕ) ^ (-1074 : Int) = mant (mag x) * (2 : ℕ) ^
      (expo (mag x) - 1075 : Int) :=
    (mant_mul_zpow _).symm
  have hlo : ((2 : ℕ) : ℝ) ^ ((mant (mag x)).log2 : Int) ≤ mant (mag x) := by
    exact_mod_cast Nat.log2_self_le hm
  have hhi : (mant (mag x) : ℝ) < (2 : ℕ) ^ ((mant (mag x)).log2 + 1 : Int) := by
    exact_mod_cast Nat.lt_log2_self
  have hp : (0 : ℝ) < (2 : ℕ) ^ (expo (mag x) - 1075 : Int) := by positivity
  refine Scientific.exponent_eq ?_ ?_
  · rw [ha, hu]
    calc ((2 : ℕ) : ℝ) ^ (exponent x - 1)
        = (2 : ℕ) ^ ((mant (mag x)).log2 : Int) * (2 : ℕ) ^ (expo (mag x) - 1075 : Int) := by
          rw [← zpow_add₀ (by norm_num), exponent]
          congr 1
          omega
      _ ≤ mant (mag x) * (2 : ℕ) ^ (expo (mag x) - 1075 : Int) :=
        mul_le_mul_of_nonneg_right hlo hp.le
  · rw [ha, hu]
    calc (mant (mag x) : ℝ) * (2 : ℕ) ^ (expo (mag x) - 1075 : Int)
        < (2 : ℕ) ^ ((mant (mag x)).log2 + 1 : Int) * (2 : ℕ) ^ (expo (mag x) - 1075 : Int) :=
          mul_lt_mul_of_pos_right hhi hp
      _ = (2 : ℕ) ^ exponent x := by
          rw [← zpow_add₀ (by norm_num), exponent]
          congr 1
          omega

end Regular

end Binary64
