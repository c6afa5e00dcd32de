import PFPSanitizer.Runtime.Branches
import PFPSanitizer.Runtime.Ulps

-- How the runtime tells a catastrophic cancellation.
namespace Metadata

-- What is measured of shadow values besides their order. MPFR's exponents are those of mantissas of
-- at least 1 / 2 and below 1.
structure Measures (V : Type) extends Mpfr V Float, Comparison V where
  getD          : V → Float
  getExp        : V → Int
  regularP      : V → Bool
  cmpUi         : V → Nat → Int
  regularP_setD : ∀ d, regularP (setD d) ↔ Binary64.Regular d
  getExp_setD   : ∀ d, Binary64.Regular d → getExp (setD d) = Binary64.exponent d

def mPrecBitsF : Nat := 23

def mPrecBitsD : Nat := 52

def mGetCbad (cbits : Int) (ebitsOp1 ebitsOp2 : Nat) : Nat :=
  let minEbits := if ebitsOp1 > ebitsOp2 then ebitsOp2 else ebitsOp1
  -- The conversion to `int`.
  let badness := (1 + cbits - minEbits).bmod (2 ^ 32)
  if badness > 0 then badness.toNat else 0

section

variable {V : Type} (A : Measures V)

def mGetExactBits (opD : Float) (precBits : Nat) (shadow : V) : Nat :=
  let computed    := A.setD opD
  let tempDiff    := A.sub shadow computed
  let expReal     := A.getExp shadow
  let expComputed := A.getExp computed
  let expDiff     := A.getExp tempDiff
  if A.cmp computed shadow = 0 then precBits
  else if expReal ≠ expComputed then 0
  else if A.cmpUi tempDiff 0 ≠ 0 then
    if precBits < (expReal - expDiff).natAbs then precBits else (expReal - expDiff).natAbs
  else 0

def mGetCancelledBits (op1 op2 res : Float) : Int :=
  let expOp1 := A.getExp (A.setD op1)
  let expOp2 := A.getExp (A.setD op2)
  let expRes := A.getExp (A.setD res)
  if !A.regularP (A.setD op1) || !A.regularP (A.setD op2) || !A.regularP (A.setD res) then 0
  else
    let maxExp := if expOp1 > expOp2 then expOp1 else expOp2
    if maxExp > expRes then (maxExp - expRes).natAbs else 0

-- `error` is that of the result.
def mCheckCc (res : Float) (precBits : Nat) (shadowOp1 shadowOp2 : TempEntry V Float)
    (error : Int) : Nat :=
  if shadowOp1.computed.isNaN || shadowOp2.computed.isNaN then 0
  else if res == 0 && error != 0 then 1
  else
    let ebitsOp1 := mGetExactBits A shadowOp1.computed precBits shadowOp1.val
    let ebitsOp2 := mGetExactBits A shadowOp2.computed precBits shadowOp2.val
    mGetCbad (mGetCancelledBits A shadowOp1.computed shadowOp2.computed res) ebitsOp1 ebitsOp2

-- The operands are regular and the result is as well, with a smaller exponent.
def CancelsBits (x y res : Float) : Prop :=
  (Binary64.Regular x ∧ Binary64.Regular y ∧ Binary64.Regular res) ∧
  Binary64.exponent res < max (Binary64.exponent x) (Binary64.exponent y)

-- An operation has really cancelled.
def Cancels (x y res : Float) (error : Int) : Prop :=
  (res == 0 ∧ error ≠ 0) ∨ CancelsBits x y res

instance (x y res : Float) : Decidable (CancelsBits x y res) :=
  inferInstanceAs (Decidable (_ ∧ _))

instance (x y res : Float) (error : Int) : Decidable (Cancels x y res error) :=
  inferInstanceAs (Decidable (_ ∨ _))

-- The double agrees with its shadow value, or at least the first bit does.
def HasExactBit (e : TempEntry V Float) : Prop :=
  A.cmp (A.setD e.computed) e.val = 0 ∨
  (A.getExp e.val = A.getExp (A.setD e.computed) ∧ A.cmpUi (A.sub e.val (A.setD e.computed)) 0 ≠ 0 ∧
    A.getExp (A.sub e.val (A.setD e.computed)) ≠ A.getExp e.val)

end

section

variable {V : Type} {A : Measures V} {x y res : Float} {precBits : Nat}
  {e e₁ e₂ : TempEntry V Float} {error : Int}

theorem mGetExactBits_le (x : Float) (v : V) : mGetExactBits A x precBits v ≤ precBits := by
  rw [mGetExactBits]
  grind

theorem mGetExactBits_pos_iff (h : 0 < precBits) :
    0 < mGetExactBits A e.computed precBits e.val ↔ HasExactBit A e := by
  rw [mGetExactBits, HasExactBit]
  grind

-- The bound is that of the exponents of doubles.
theorem mGetCancelledBits_mem (x y res : Float) :
    0 ≤ mGetCancelledBits A x y res ∧ mGetCancelledBits A x y res ≤ 2097 := by
  rw [mGetCancelledBits]
  split
  case isTrue    => omega
  case isFalse h =>
    simp only [Bool.or_eq_true, Bool.not_eq_true', not_or, Bool.not_eq_false, A.regularP_setD] at h
    obtain ⟨⟨hx, hy⟩, hr⟩ := h
    have := Binary64.exponent_mem hx
    have := Binary64.exponent_mem hy
    have := Binary64.exponent_mem hr
    rw [A.getExp_setD x hx, A.getExp_setD y hy, A.getExp_setD res hr]
    grind

theorem mGetCancelledBits_eq_zero_iff : mGetCancelledBits A x y res = 0 ↔ ¬CancelsBits x y res := by
  rw [mGetCancelledBits, CancelsBits]
  split
  case isTrue h  =>
    simp only [Bool.or_eq_true, Bool.not_eq_true', ← Bool.not_eq_true, A.regularP_setD] at h
    tauto
  case isFalse h =>
    simp only [Bool.or_eq_true, Bool.not_eq_true', not_or, Bool.not_eq_false, A.regularP_setD] at h
    obtain ⟨⟨hx, hy⟩, hr⟩ := h
    rw [A.getExp_setD x hx, A.getExp_setD y hy, A.getExp_setD res hr]
    grind

-- The conversion to `int` keeps the sign.
theorem mGetCbad_pos_iff {cbits : Int} {ebitsOp1 ebitsOp2 : Nat} (h₀ : 0 ≤ cbits)
    (hc : cbits ≤ 2097) (h₁ : ebitsOp1 ≤ precBits) (hp : precBits ≤ 52) :
    0 < mGetCbad cbits ebitsOp1 ebitsOp2 ↔ (min ebitsOp1 ebitsOp2 : Int) ≤ cbits := by
  have hm : (if ebitsOp1 > ebitsOp2 then ebitsOp2 else ebitsOp1) = min ebitsOp1 ebitsOp2 := by grind
  have hb : (1 + cbits - (min ebitsOp1 ebitsOp2 : Nat)).bmod (2 ^ 32) = 1 + cbits -
      (min ebitsOp1 ebitsOp2 : Nat) := by
    rw [Int.bmod_def]
    omega
  rw [mGetCbad, hm, hb]
  grind

-- Without cancellation the check is that for an operand with no exact bit.
theorem mCheckCc_pos_iff (hx : ¬e₁.computed.isNaN) (hy : ¬e₂.computed.isNaN) (hp : 0 < precBits)
    (hp' : precBits ≤ 52) (hc : ¬Cancels e₁.computed e₂.computed res error) :
    0 < mCheckCc A res precBits e₁ e₂ error ↔ ¬(HasExactBit A e₁ ∧ HasExactBit A e₂) := by
  obtain ⟨hz, hb⟩ := not_or.mp hc
  have hm := mGetCancelledBits_mem (A := A) e₁.computed e₂.computed res
  have h₀ := (mGetCancelledBits_eq_zero_iff (A := A)).mpr hb
  have hn : ¬(e₁.computed.isNaN || e₂.computed.isNaN) := by
    rw [Bool.or_eq_true]
    exact not_or.mpr ⟨hx, hy⟩
  rw [mCheckCc, if_neg hn, if_neg (by simpa using hz),
    mGetCbad_pos_iff hm.left hm.right (mGetExactBits_le _ _) hp', h₀, ← mGetExactBits_pos_iff hp,
    ← mGetExactBits_pos_iff hp]
  omega

end

section Doubles

def cmpDoubles (x y : Float) : Int :=
  if x < y then -1 else if y < x then 1 else 0

theorem cmpDoubles_of_isNaN {x y : Float} (h : x.isNaN ∨ y.isNaN) : cmpDoubles x y = 0 := by
  have h₁ : ¬x < y :=
    fun hl => h.elim (Binary64.not_isNaN_of_lt hl).left (Binary64.not_isNaN_of_lt hl).right
  have h₂ : ¬y < x :=
    fun hl => h.elim (Binary64.not_isNaN_of_lt hl).right (Binary64.not_isNaN_of_lt hl).left
  rw [cmpDoubles, if_neg h₁, if_neg h₂]

theorem lt_iff_of_toReal {x y : Float} {a b : EReal} (ha : Binary64.toReal x = some a)
    (hb : Binary64.toReal y = some b) :
    x < y ↔ a < b := by
  have hx : ¬x.isNaN := fun h => by simp [Binary64.toReal_eq_none_iff.mpr h] at ha
  have hy : ¬y.isNaN := fun h => by simp [Binary64.toReal_eq_none_iff.mpr h] at hb
  rw [Binary64.toReal_eq hx] at ha
  rw [Binary64.toReal_eq hy] at hb
  rw [← Option.some.inj ha, ← Option.some.inj hb, Binary64.lineValue_lt_iff hx hy,
    Binary64.lt_iff hx hy]

-- Shadow values that have the precision of doubles.
noncomputable def doubles : Measures Float where
  toMpfr        := { (default : Mpfr Float Float) with
                     setD := id, add := (· + ·), sub := (· - ·), mul := (· * ·), div := (· / ·) }
  cmp           := cmpDoubles
  isnan         := Float.isNaN
  toReal        := Binary64.toReal
  isnan_iff _   := Binary64.toReal_eq_none_iff.symm
  cmp_nan _ _ h :=
    cmpDoubles_of_isNaN (h.imp Binary64.toReal_eq_none_iff.mp Binary64.toReal_eq_none_iff.mp)
  cmp_pos       := by
    intro x y a ha b hb
    have h₁ := lt_iff_of_toReal ha hb
    have h₂ := lt_iff_of_toReal hb ha
    rw [cmpDoubles, gt_iff_lt, ← h₂]
    split_ifs with hx hy
    · exact iff_of_false (by decide) fun h => (h₁.mp hx).asymm (h₂.mp h)
    · exact iff_of_true (by decide) hy
    · exact iff_of_false (by decide) hy
  cmp_neg       := by
    intro x y a ha b hb
    rw [cmpDoubles, ← lt_iff_of_toReal ha hb]
    split_ifs with hx hy
    · exact iff_of_true (by decide) hx
    · exact iff_of_false (by decide) hx
    · exact iff_of_false (by decide) hx
  getD          := id
  getExp        := Binary64.exponent
  regularP x    := decide (Binary64.Regular x)
  cmpUi x n     := cmpDoubles x (.ofNat n)
  regularP_setD _ := decide_eq_true_iff
  getExp_setD _ _ := rfl

end Doubles

end Metadata
