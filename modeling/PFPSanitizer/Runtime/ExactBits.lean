import PFPSanitizer.Lib.Scientific
import PFPSanitizer.Runtime.Cancellation

-- How many bits of a double the runtime takes to be exact.
namespace Metadata

open Scientific

-- Shadow values that are measured as real numbers, with subtractions that are not rounded.
structure ExactMeasures (V : Type) extends Measures V where
  toReal_setD : ∀ d, toReal (setD d) = Binary64.toReal d
  toReal_sub  : ∀ v w, ∀ x y : ℝ, toReal v = some (x : EReal) → toReal w = some (y : EReal) →
                toReal (sub v w) = some ((x - y : ℝ) : EReal)
  getExp_eq   : ∀ v, ∀ x : ℝ, toReal v = some (x : EReal) → x ≠ 0 → getExp v = exponent x
  cmpUi_zero  : ∀ v, ∀ x : ℝ, toReal v = some (x : EReal) → (cmpUi v 0 = 0 ↔ x = 0)

section

variable {V : Type} (A : ExactMeasures V) {opD : Float} {shadow : V} {s c : ℝ}

theorem cmp_eq_zero_iff {v w : V} {x y : ℝ} (hv : A.toReal v = some (x : EReal))
    (hw : A.toReal w = some (y : EReal)) :
    A.cmp v w = 0 ↔ x = y := by
  have hp := A.cmp_pos v w _ hv _ hw
  have hn := A.cmp_neg v w _ hv _ hw
  rw [gt_iff_lt, EReal.coe_lt_coe_iff] at hp
  rw [EReal.coe_lt_coe_iff] at hn
  constructor
  · intro h
    rw [h] at hp hn
    exact le_antisymm (not_lt.mp fun hl => absurd (hp.mpr hl) (lt_irrefl 0)) (not_lt.mp fun hl =>
      absurd (hn.mpr hl) (lt_irrefl 0))
  · rintro rfl
    have := mt hp.mp (lt_irrefl x)
    have := mt hn.mp (lt_irrefl x)
    omega

-- The count in terms of the two numbers.
theorem mGetExactBits_eq (hs : A.toReal shadow = some (s : EReal))
    (hc : Binary64.toReal opD = some (c : EReal)) (h : 0 < s * c) (precBits : Nat) :
    mGetExactBits A.toMeasures opD precBits shadow =
      if c = s then precBits else if exponent s ≠ exponent c then 0
      else min precBits (exponent s - exponent (s - c)).natAbs := by
  obtain ⟨hs₀, hc₀⟩ := mul_ne_zero_iff.mp h.ne'
  have hc' : A.toReal (A.setD opD) = some (c : EReal) := (A.toReal_setD opD).trans hc
  have hd := A.toReal_sub _ _ s c hs hc'
  rw [mGetExactBits, A.getExp_eq _ s hs hs₀, A.getExp_eq _ c hc' hc₀]
  simp only [cmp_eq_zero_iff A hc' hs]
  by_cases he : c = s
  case pos => rw [if_pos he, if_pos he]
  case neg =>
    have hne : s - c ≠ 0 := sub_ne_zero.mpr (Ne.symm he)
    rw [A.getExp_eq _ _ hd hne, if_neg he, if_neg he, if_pos (mt (A.cmpUi_zero _ _ hd).mp hne)]
    grind

-- A double in the binade of its shadow value has at least as many exact bits as its relative
-- precision. One in another binade has none.
theorem exactBits (hs : A.toReal shadow = some (s : EReal))
    (hc : Binary64.toReal opD = some (c : EReal)) (h : 0 < s * c) (precBits : Nat) :
    mGetExactBits A.toMeasures opD precBits shadow ≤ precBits ∧
    (exponent s ≠ exponent c → mGetExactBits A.toMeasures opD precBits shadow = 0) ∧
    ∀ k : Int, k ≤ precBits → |s - c| ≤ ((2 : ℕ) : ℝ) ^ (-k) * |s| →
      (exponent s = exponent c → k ≤ mGetExactBits A.toMeasures opD precBits shadow) ∧
      (k ≤ 1 → k - 1 ≤ mGetExactBits A.toMeasures opD precBits shadow) := by
  refine ⟨mGetExactBits_le _ _, ?_, fun k hk hr => ⟨fun he => ?_, fun _ => by omega⟩⟩
  · intro he
    have hne : c ≠ s := fun hcs => he (by rw [hcs])
    rw [mGetExactBits_eq A hs hc h, if_neg hne, if_pos he]
  · rw [mGetExactBits_eq A hs hc h]
    by_cases hcs : c = s
    case pos => rwa [if_pos hcs]
    case neg =>
      have hle := exponent_sub_le (left_ne_zero_of_mul h.ne') (Ne.symm hcs) hr
      rw [if_neg hcs, if_neg (not_not.mpr he)]
      omega

end

section Reals

-- The sign of a difference.
noncomputable def cmpReals (x y : EReal) : Int :=
  if x < y then -1 else if y < x then 1 else 0

theorem cmpReals_pos {x y : EReal} : 0 < cmpReals x y ↔ x > y := by
  rw [cmpReals]
  split_ifs with h₁ h₂
  · exact iff_of_false (by decide) h₁.asymm
  · exact iff_of_true (by decide) h₂
  · exact iff_of_false (by decide) h₂

theorem cmpReals_neg {x y : EReal} : cmpReals x y < 0 ↔ x < y := by
  rw [cmpReals]
  split_ifs with h₁ h₂
  · exact iff_of_true (by decide) h₁
  · exact iff_of_false (by decide) h₁
  · exact iff_of_false (by decide) h₁

noncomputable def onReals {α : Type} (f : EReal → EReal → α) (z : α) :
    Option EReal → Option EReal → α
  | some x, some y => f x y
  | _, _           => z

noncomputable def mpfrReals : Mpfr (Option EReal) Float :=
  { (default : Mpfr (Option EReal) Float) with
    setD := Binary64.toReal, sub := onReals (fun x y => some (x - y)) none }

noncomputable def comparisonReals : Comparison (Option EReal) where
  cmp         := onReals cmpReals 0
  isnan v     := v.isNone
  toReal v    := v
  isnan_iff v := by rw [Option.isNone_iff_eq_none]
  cmp_nan     := by
    rintro v w (rfl | rfl)
    · rfl
    · cases v <;> rfl
  cmp_pos     := by
    rintro _ _ x rfl y rfl
    exact cmpReals_pos
  cmp_neg     := by
    rintro _ _ x rfl y rfl
    exact cmpReals_neg

noncomputable def regularReals : Option EReal → Bool
  | some x => decide (x.toReal ≠ 0)
  | none   => false

noncomputable def getExpReals : Option EReal → Int
  | some x => exponent x.toReal
  | none   => 0

theorem regularReals_iff {v : Option EReal} :
    regularReals v ↔ ∃ r : ℝ, r ≠ 0 ∧ v = some (r : EReal) := by
  cases v with
  | none   => simp [regularReals]
  | some x =>
    induction x with
    | bot   => simp [regularReals]
    | top   => simp [regularReals]
    | coe r =>
      simp only [regularReals, EReal.toReal_coe, Option.some_inj, EReal.coe_eq_coe_iff,
        exists_eq_right']
      exact decide_eq_true_iff

theorem cmpReals_eq_zero_iff {x y : EReal} : cmpReals x y = 0 ↔ x = y := by
  have hp := not_congr (cmpReals_pos (x := x) (y := y))
  have hn := not_congr (cmpReals_neg (x := x) (y := y))
  constructor
  · intro h
    exact le_antisymm (not_lt.mp (hp.mp (by omega))) (not_lt.mp (hn.mp (by omega)))
  · rintro rfl
    have := hp.mpr (lt_irrefl x)
    have := hn.mpr (lt_irrefl x)
    omega

noncomputable def measuresReals : Measures (Option EReal) where
  toMpfr          := mpfrReals
  toComparison    := comparisonReals
  getD _          := 0
  getExp          := getExpReals
  regularP        := regularReals
  cmpUi v n       := onReals cmpReals 0 v (some ((n : ℝ) : EReal))
  regularP_setD d := by
    rw [Binary64.regular_iff]
    exact regularReals_iff
  getExp_setD d h := by
    obtain ⟨x, -, hx⟩ := Binary64.regular_iff.mp h
    have he : mpfrReals.setD d = some (x : EReal) := hx
    rw [he]
    exact Binary64.exponent_eq h hx

-- Shadow values without rounding. NaN is `none`.
noncomputable def exactReals : ExactMeasures (Option EReal) where
  toMeasures    := measuresReals
  toReal_setD _ := by
    show mpfrReals.setD _ = _
    rw [mpfrReals]
  toReal_sub    := by
    rintro _ _ x y rfl rfl
    exact congrArg some (EReal.coe_sub x y).symm
  getExp_eq     := by
    rintro _ x rfl -
    rfl
  cmpUi_zero    := by
    rintro _ x rfl
    have hz : ((0 : Nat) : ℝ) = 0 := Nat.cast_zero
    show cmpReals x (((0 : Nat) : ℝ) : EReal) = 0 ↔ _
    rw [cmpReals_eq_zero_iff, hz]
    exact EReal.coe_eq_zero

end Reals

theorem toReal_one : Binary64.toReal 1 = some ((1 : ℝ) : EReal) := by
  have ho : Binary64.ord 1 = (1023 * 2 ^ 52 : Nat) := by decide
  have hn : ¬(1 : Float).isNaN := by decide
  have hm : Binary64.mant (1023 * 2 ^ 52) = 2 ^ 52 := by decide
  have he : Binary64.expo (1023 * 2 ^ 52) = 1023 := by decide
  have hi : 1023 * 2 ^ 52 ≠ Binary64.infMag := by decide
  rw [Binary64.toReal_eq hn, ho, Binary64.lineValue, if_pos (Int.natCast_nonneg _),
    Int.toNat_natCast, Binary64.magValue, if_neg hi, ← Binary64.mant_mul_zpow, hm, he]
  norm_num

theorem exponent_one : exponent (1 : ℝ) = 1 := by
  simpa using exponent_zpow (R := ℝ) 0

theorem exactBits_three_halves :
    |(3 / 2 : ℝ) - 1| ≤ ((2 : ℕ) : ℝ) ^ (-1 : Int) * |(3 / 2 : ℝ)| ∧
    exponent (3 / 2 : ℝ) = exponent (1 : ℝ) ∧
    1 ≤ (mGetExactBits exactReals.toMeasures 1 52 (some ((3 / 2 : ℝ) : EReal)) : Int) := by
  have hr : |(3 / 2 : ℝ) - 1| ≤ ((2 : ℕ) : ℝ) ^ (-1 : Int) * |(3 / 2 : ℝ)| := by
    rw [abs_of_pos (by norm_num), abs_of_pos (by norm_num)]
    norm_num
  have he : exponent (3 / 2 : ℝ) = exponent (1 : ℝ) := by
    rw [exponent_one]
    exact exponent_eq (by norm_num) (by rw [abs_of_pos] <;> norm_num)
  have hs : exactReals.toReal (some ((3 / 2 : ℝ) : EReal)) = some ((3 / 2 : ℝ) : EReal) := rfl
  have hb := exactBits exactReals hs toReal_one (by norm_num) 52
  exact ⟨hr, he, (hb.right.right 1 (by norm_num) hr).left he⟩

-- A double just above its shadow value, which is in the binade below.
theorem not_exactBits :
    ¬∀ (V : Type) (A : ExactMeasures V) (opD : Float) (shadow : V) (s c : ℝ) (precBits : Nat)
    (k : Int),
    A.toReal shadow = some (s : EReal) → Binary64.toReal opD = some (c : EReal) → 0 < s * c →
    k ≤ precBits →
    |s - c| ≤ ((2 : ℕ) : ℝ) ^ (-k) * |s| →
    k - 1 ≤ mGetExactBits A.toMeasures opD precBits shadow := by
  intro h
  let s : ℝ := 1 - 1 / 2 ^ 53
  have hs : |s| = s := abs_of_pos (by norm_num [s])
  have hr : |s - 1| ≤ ((2 : ℕ) : ℝ) ^ (-52 : Int) * |s| := by
    rw [hs, abs_sub_comm, abs_of_pos (by norm_num [s])]
    norm_num [s]
  have he : exponent s = 0 := exponent_eq (by rw [hs]; norm_num [s]) (by rw [hs]; norm_num [s])
  have hp : 0 < s * 1 := by norm_num [s]
  have hne : (1 : ℝ) ≠ s := by norm_num [s]
  have hl := h _ exactReals 1 (some (s : EReal)) s 1 52 52 rfl toReal_one hp (by norm_num) hr
  rw [mGetExactBits_eq exactReals rfl toReal_one hp, if_neg hne, he, exponent_one,
    if_pos (by decide)] at hl
  exact absurd hl (by decide)

end Metadata
