import PFPSanitizer.Runtime.Temporaries
import Mathlib.Data.EReal.Basic

-- The comparisons of shadow values that decide whether a branch has flipped.
namespace Metadata

-- The predicates of LLVM's `fcmp`. Those with an `o` are false of NaN and
-- those with a `u` are true.
inductive FcmpPredicate
  | fcmpFalse | oeq | ogt | oge | olt | ole | one | ord | uno | ueq | ugt | uge | ult | ule | une
  | fcmpTrue
deriving DecidableEq

namespace FcmpPredicate

def getPredicate : FcmpPredicate → Nat
  | fcmpFalse => 0
  | oeq       => 1
  | ogt       => 2
  | oge       => 3
  | olt       => 4
  | ole       => 5
  | one       => 6
  | ord       => 7
  | uno       => 8
  | ueq       => 9
  | ugt       => 10
  | uge       => 11
  | ult       => 12
  | ule       => 13
  | une       => 14
  | fcmpTrue  => 15

-- Neither operand is NaN, and they are related.
def Ordered (r : EReal → EReal → Prop) (x y : Option EReal) : Prop :=
  ∃ a ∈ x, ∃ b ∈ y, r a b

def Unordered (x y : Option EReal) : Prop :=
  x = none ∨ y = none

-- What LLVM defines for operands that are NaN (`none`) or an extended real.
def Holds (x y : Option EReal) : FcmpPredicate → Prop
  | fcmpFalse => False
  | oeq       => Ordered (· = ·) x y
  | ogt       => Ordered (· > ·) x y
  | oge       => Ordered (· ≥ ·) x y
  | olt       => Ordered (· < ·) x y
  | ole       => Ordered (· ≤ ·) x y
  | one       => Ordered (· ≠ ·) x y
  | ord       => Ordered (fun _ _ => True) x y
  | uno       => Unordered x y
  | ueq       => Unordered x y ∨ Ordered (· = ·) x y
  | ugt       => Unordered x y ∨ Ordered (· > ·) x y
  | uge       => Unordered x y ∨ Ordered (· ≥ ·) x y
  | ult       => Unordered x y ∨ Ordered (· < ·) x y
  | ule       => Unordered x y ∨ Ordered (· ≤ ·) x y
  | une       => Unordered x y ∨ Ordered (· ≠ ·) x y
  | fcmpTrue  => True

end FcmpPredicate

-- The comparison and the NaN test on shadow values.
structure Comparison (V : Type) where
  cmp       : V → V → Int
  isnan     : V → Bool
  toReal    : V → Option EReal
  isnan_iff : ∀ v, isnan v ↔ toReal v = none
  cmp_nan   : ∀ v w, toReal v = none ∨ toReal w = none → cmp v w = 0
  cmp_pos   : ∀ v w, ∀ a ∈ toReal v, ∀ b ∈ toReal w, 0 < cmp v w ↔ a > b
  cmp_neg   : ∀ v w, ∀ a ∈ toReal v, ∀ b ∈ toReal w, cmp v w < 0 ↔ a < b

variable {V D : Type} (C : Comparison V)

def mCheckBranch (op1 op2 : V) (fcmpFlag : Nat) : Bool :=
  let ret := C.cmp op1 op2
  match fcmpFlag with
  | 0  => false
  | 1  => !C.isnan op1 && !C.isnan op2 && ret == 0
  | 2  => !C.isnan op1 && !C.isnan op2 && 0 < ret
  | 3  => !C.isnan op1 && !C.isnan op2 && (0 < ret || ret == 0)
  | 4  => !C.isnan op1 && !C.isnan op2 && ret < 0
  | 5  => !C.isnan op1 && !C.isnan op2 && (ret < 0 || ret == 0)
  | 6  => !C.isnan op1 && !C.isnan op2 && ret != 0
  | 7  => !C.isnan op1 && !C.isnan op2
  | 8  => C.isnan op1 && C.isnan op2
  | 9  => C.isnan op1 || C.isnan op2 || ret == 0
  | 10 => C.isnan op1 || C.isnan op2 || 0 < ret
  | 11 => C.isnan op1 || C.isnan op2 || 0 ≤ ret
  | 12 => C.isnan op1 || C.isnan op2 || ret < 0
  | 13 => C.isnan op1 || C.isnan op2 || ret ≤ 0
  | 14 => C.isnan op1 || C.isnan op2 || ret != 0
  | 15 => true
  | _  => false

-- The result, with the number of flips afterwards.
def checkBranch (op1 op2 : TempEntry V D) (fcmpFlag : Nat) (computedRes : Bool) (flipsCount : Nat) :
    Bool × Nat :=
  let realRes := mCheckBranch C op1.val op2.val fcmpFlag
  (realRes, if realRes != computedRes then flipsCount + 1 else flipsCount)

def checkBranchF (op1 op2 : TempEntry V D) (fcmpFlag : Nat) (computedRes : Bool)
    (flipsCount : Nat) : Bool × Nat :=
  checkBranch C op1 op2 fcmpFlag computedRes flipsCount

def checkBranchD (op1 op2 : TempEntry V D) (fcmpFlag : Nat) (computedRes : Bool)
    (flipsCount : Nat) : Bool × Nat :=
  checkBranch C op1 op2 fcmpFlag computedRes flipsCount

section Comparison

variable {C} {v w : V}

theorem Comparison.isnan_of_none (h : C.toReal v = none) : C.isnan v = true :=
  (C.isnan_iff v).mpr h

theorem Comparison.isnan_of_mem {a : EReal} (h : C.toReal v = some a) : C.isnan v = false := by
  rw [← Bool.not_eq_true, C.isnan_iff, h]
  exact Option.some_ne_none a

theorem Comparison.cmp_eq_zero_iff {a b : EReal} (ha : C.toReal v = some a)
    (hb : C.toReal w = some b) :
    C.cmp v w = 0 ↔ a = b := by
  have hp := C.cmp_pos v w a ha b hb
  have hn := C.cmp_neg v w a ha b hb
  constructor
  · intro h
    refine le_antisymm (not_lt.mp fun hl => ?_) (not_lt.mp fun hl => ?_)
    · exact absurd (hp.mpr hl) (by omega)
    · exact absurd (hn.mpr hl) (by omega)
  · intro h
    have hp := mt hp.mp (not_lt.mpr h.le)
    have hn := mt hn.mp (not_lt.mpr h.ge)
    omega

end Comparison

open FcmpPredicate

-- Two operands without NaN: each case is one of the sign of `mpfr_cmp`.
theorem mCheckBranch_iff_of_ordered {v w : V} {a b : EReal} (ha : C.toReal v = some a)
    (hb : C.toReal w = some b) (p : FcmpPredicate) :
    mCheckBranch C v w p.getPredicate ↔ p.Holds (some a) (some b) := by
  have hp := C.cmp_pos v w a ha b hb
  have hn := C.cmp_neg v w a ha b hb
  have hz := Comparison.cmp_eq_zero_iff ha hb
  have hge : 0 ≤ C.cmp v w ↔ a ≥ b := by rw [← not_lt, hn, not_lt]
  have hle : C.cmp v w ≤ 0 ↔ a ≤ b := by rw [← not_lt, hp, not_lt]
  have hgt : b < a ∨ a = b ↔ b ≤ a := by rw [le_iff_lt_or_eq, eq_comm]
  have hlt : a < b ∨ a = b ↔ a ≤ b := le_iff_lt_or_eq.symm
  cases p <;>
    simp [mCheckBranch, getPredicate, Holds, Ordered, Unordered, Comparison.isnan_of_mem ha,
      Comparison.isnan_of_mem hb, hp, hn, hz, hge, hle, hgt, hlt]

-- With a NaN, all predicates but `uno` are decided by their name.
theorem mCheckBranch_iff_of_unordered {v w : V} (h : Unordered (C.toReal v) (C.toReal w))
    (p : FcmpPredicate) (hp : p ≠ uno) :
    mCheckBranch C v w p.getPredicate ↔ p.Holds (C.toReal v) (C.toReal w) := by
  have hnan : C.isnan v = true ∨ C.isnan w = true :=
    h.imp Comparison.isnan_of_none Comparison.isnan_of_none
  have ho : ∀ r, ¬Ordered r (C.toReal v) (C.toReal w) := by
    rintro r ⟨a, ha, b, hb, -⟩
    rcases h with h | h
    · simp [h] at ha
    · simp [h] at hb
  cases p with
  | uno => exact absurd rfl hp
  | _   => rcases hnan with hn | hn <;> simp [mCheckBranch, getPredicate, Holds, hn, h, ho]

theorem mCheckBranch_uno {v w : V} :
    mCheckBranch C v w uno.getPredicate ↔ C.toReal v = none ∧ C.toReal w = none := by
  simp only [mCheckBranch, getPredicate, Bool.and_eq_true, C.isnan_iff]

-- One of the operands is NaN and the other is not.
def Mixed (v w : V) : Prop :=
  ¬(C.toReal v = none ↔ C.toReal w = none)

theorem mCheckBranch_iff (v w : V) (p : FcmpPredicate) :
    (mCheckBranch C v w p.getPredicate ↔ p.Holds (C.toReal v) (C.toReal w)) ↔
    (p = uno → ¬Mixed C v w) := by
  by_cases hp : p = uno
  case pos =>
    subst hp
    simp only [mCheckBranch_uno, Holds, Unordered, Mixed]
    tauto
  case neg =>
    refine iff_of_true ?_ fun h => absurd h hp
    by_cases h : Unordered (C.toReal v) (C.toReal w)
    case pos => exact mCheckBranch_iff_of_unordered C h p hp
    case neg =>
      obtain ⟨hv, hw⟩ := not_or.mp h
      obtain ⟨a, ha⟩ := Option.ne_none_iff_exists'.mp hv
      obtain ⟨b, hb⟩ := Option.ne_none_iff_exists'.mp hw
      rw [ha, hb]
      exact mCheckBranch_iff_of_ordered C ha hb p

-- The predicate that LLVM replaces a predicate with to swap the targets of a branch.
theorem mCheckBranch_inverse (v w : V) (p : FcmpPredicate) :
    mCheckBranch C v w (15 - p.getPredicate) = !mCheckBranch C v w p.getPredicate ↔
    (p = ord ∨ p = uno → ¬Mixed C v w) := by
  have hnan : Mixed C v w ↔ C.isnan v ≠ C.isnan w := by
    rw [Mixed, ← C.isnan_iff, ← C.isnan_iff, ← Bool.eq_iff_iff]
  rw [hnan]
  cases p <;> simp only [mCheckBranch, getPredicate] <;>
    cases C.isnan v <;> cases C.isnan w <;> simp <;> rw [Bool.eq_iff_iff] <;> simp <;> omega

-- What a comparison promises of two operands.
structure Agrees (p : FcmpPredicate) (op1 op2 : TempEntry V D) : Prop where
  result  : mCheckBranch C op1.val op2.val p.getPredicate ↔
    p.Holds (C.toReal op1.val) (C.toReal op2.val)
  noFlipF : ∀ x y computedRes n, C.toReal op1.val = x → C.toReal op2.val = y →
    (computedRes = true ↔ p.Holds x y) →
            (checkBranchF C op1 op2 p.getPredicate computedRes n).snd = n
  noFlipD : ∀ x y computedRes n, C.toReal op1.val = x → C.toReal op2.val = y →
    (computedRes = true ↔ p.Holds x y) →
            (checkBranchD C op1 op2 p.getPredicate computedRes n).snd = n
  inverse : mCheckBranch C op1.val op2.val (15 - p.getPredicate) =
    !mCheckBranch C op1.val op2.val p.getPredicate

theorem noFlip_of_iff {op1 op2 : TempEntry V D} {p : FcmpPredicate} {computedRes : Bool} {n : Nat}
    (h : mCheckBranch C op1.val op2.val p.getPredicate ↔
      p.Holds (C.toReal op1.val) (C.toReal op2.val))
    (hc : computedRes = true ↔ p.Holds (C.toReal op1.val) (C.toReal op2.val)) :
    (checkBranch C op1 op2 p.getPredicate computedRes n).snd = n := by
  have he : mCheckBranch C op1.val op2.val p.getPredicate = computedRes := by
    rw [Bool.eq_iff_iff, h, hc]
  simp [checkBranch, he]

theorem agrees_iff (p : FcmpPredicate) (op1 op2 : TempEntry V D) :
    Agrees C p op1 op2 ↔
    (p = ord ∨ p = uno → (C.toReal op1.val = none ↔ C.toReal op2.val = none)) := by
  constructor
  · intro h hp
    exact Classical.not_not.mp ((mCheckBranch_inverse C _ _ p).mp h.inverse hp)
  · intro h
    have hm : p = ord ∨ p = uno → ¬Mixed C op1.val op2.val := fun hp => Classical.not_not.mpr (h hp)
    have hr := (mCheckBranch_iff C op1.val op2.val p).mpr fun hp => hm (.inr hp)
    refine ⟨hr, ?_, ?_, (mCheckBranch_inverse C _ _ p).mpr hm⟩
    case refine_1 =>
      rintro _ _ computedRes n rfl rfl hc
      exact noFlip_of_iff C hr hc
    case refine_2 =>
      rintro _ _ computedRes n rfl rfl hc
      exact noFlip_of_iff C hr hc

-- Shadow values without rounding.
noncomputable def erealComparison : Comparison (Option EReal) where
  cmp
    | some a, some b => if a < b then -1 else if b < a then 1 else 0
    | _, _           => 0
  isnan       := Option.isNone
  toReal      := id
  isnan_iff v := Option.isNone_iff_eq_none
  cmp_nan     := by
    rintro v w (rfl | rfl)
    · rfl
    · cases v <;> rfl
  cmp_pos     := by
    rintro _ _ a rfl b rfl
    show 0 < (if a < b then -1 else if b < a then 1 else 0 : Int) ↔ b < a
    split_ifs with h₁ h₂
    · simpa using h₁.le
    · simpa using h₂
    · simpa using h₂
  cmp_neg     := by
    rintro _ _ a rfl b rfl
    show (if a < b then -1 else if b < a then 1 else 0 : Int) < 0 ↔ a < b
    split_ifs with h₁ h₂
    · simpa using h₁
    · simpa using h₁
    · simpa using h₁

-- The test of `isnan`, which compares a value to zero, for a value that is NaN.
theorem not_agrees_isnan :
    ¬∀ (V D : Type) (C : Comparison V) (p : FcmpPredicate) (op1 op2 : TempEntry V D),
    Agrees C p op1 op2 := by
  intro h
  let s : State (Option EReal) Unit := shadowSliceStart default default
  have hr :=
    (h _ _ erealComparison .uno (s.leaf none () .constant 0)
      (s.leaf (some 0) () .constant 0)).result
  have hf : mCheckBranch erealComparison none (some 0) uno.getPredicate := hr.mpr (.inl rfl)
  cases hf

end Metadata
