import PFPSanitizer.Lib.Representable

-- Integers that the producer sends to the shadow execution as doubles.
namespace Encoding

open Float.Model

-- The values that are sent, with their widths.
inductive Sent
  | switchCond (w : Nat) (le : w ≤ 64)
  | functionAddr
  | dataAddr
  | size (w : Nat) (le : w ≤ 64)
  | branchBit

namespace Sent

-- The width of the value of the program.
def width : Sent → Nat
  | switchCond w _ | size w _ => w
  | functionAddr | dataAddr   => 64
  | branchBit                 => 1

-- The width that the shadow execution decodes to.
def shadowWidth : Sent → Nat
  | switchCond w _                     => w
  | functionAddr | dataAddr | size _ _ => 64
  | branchBit                          => 1

theorem width_le (k : Sent) : k.width ≤ k.shadowWidth := by
  cases k <;> simp_all [width, shadowWidth]

theorem shadowWidth_le (k : Sent) : k.shadowWidth ≤ 64 := by
  cases k <;> simp_all [shadowWidth]

end Sent

-- LLVM's `uitofp` to double, which rounds to nearest even.
def uiToFp {w : Nat} (v : BitVec w) : Float :=
  .ofModel <| .ofNat v.toNat

-- LLVM's `fptoui`, which truncates. It is undefined if the result does not fit.
def fpToUi (w : Nat) (x : Float) : Option (BitVec w) := do
  let z ← Binary64.truncate x.toModel.unpack
  if 0 ≤ z ∧ z < 2 ^ w then some (BitVec.ofNat w z.toNat) else none

-- The target of a `switch`.
def target {w : Nat} {Block : Type} (cases : List (BitVec w × Block)) (default : Block)
    (cond : BitVec w) : Block :=
  cases.lookup cond |>.getD default

-- What the shadow execution reads is what the program had.
def Decodes (k : Sent) (v : BitVec k.width) : Prop :=
  fpToUi k.shadowWidth (uiToFp v) = some (v.setWidth k.shadowWidth)

-- The shadow switch takes the case of the program, whatever its cases are.
def SameCase (k : Sent) (v : BitVec k.width) : Prop :=
  ∀ (Block : Type) (cases : List (BitVec k.shadowWidth × Block)) (default : Block),
    (fpToUi k.shadowWidth (uiToFp v)).map (target cases default) =
      some (target cases default (v.setWidth k.shadowWidth))

theorem fpToUi_uiToFp_iff {w : Nat} (v : BitVec w) {w' : Nat} (h : w ≤ w') (h' : w' ≤ 64) :
    fpToUi w' (uiToFp v) = some (v.setWidth w') ↔ Binary64.Representable v.toNat := by
  have hlt : v.toNat < 2 ^ w' := v.isLt.trans_le (Nat.pow_le_pow_right (by decide) h)
  have hset : (v.setWidth w').toNat = v.toNat := by rw [BitVec.toNat_setWidth, Nat.mod_eq_of_lt hlt]
  constructor
  · intro he
    obtain ⟨z, hz, he⟩ := Option.bind_eq_some_iff.mp he
    split at he
    case isFalse    => cases he
    case isTrue hzb =>
      have hn : z.toNat < 2 ^ w' := (Int.toNat_lt hzb.left).mpr (by exact_mod_cast hzb.right)
      have hv := congrArg BitVec.toNat (Option.some.inj he)
      rw [BitVec.toNat_ofNat, Nat.mod_eq_of_lt hn, hset] at hv
      obtain rfl : z = v.toNat := by omega
      exact Binary64.representable_of_truncate hz
  · intro hr
    have ht : Binary64.truncate (uiToFp v).toModel.unpack = some (v.toNat : Int) :=
      Binary64.truncate_ofNat hr hlt (by omega)
    rw [fpToUi, ht, Option.bind_eq_bind, Option.bind_some, if_pos ⟨by omega, by exact_mod_cast hlt⟩]
    refine congrArg some (BitVec.eq_of_toNat_eq ?_)
    rw [hset, BitVec.toNat_ofNat, Int.toNat_natCast, Nat.mod_eq_of_lt hlt]

theorem sameCase_iff_decodes (k : Sent) (v : BitVec k.width) : SameCase k v ↔ Decodes k v := by
  constructor
  · intro h
    -- A switch with a case for the value alone.
    have h := h Bool [(v.setWidth k.shadowWidth, true)] false
    obtain ⟨u, hu, he⟩ := Option.map_eq_some_iff.mp h
    have hself : target [(v.setWidth k.shadowWidth, true)] false (v.setWidth k.shadowWidth) =
        true := by simp [target]
    rw [hself] at he
    have hv : u = v.setWidth k.shadowWidth := by
      by_contra hne
      simp [target, List.lookup, beq_eq_false_iff_ne.mpr hne] at he
    rw [Decodes, hu, hv]
  · intro h Block cases default
    rw [h]
    rfl

-- The values with at most 53 significant bits are decoded to themselves, and no others.
theorem decodes_iff_representable (k : Sent) (v : BitVec k.width) :
    (Decodes k v ∧ SameCase k v) ↔ ∃ m < 2 ^ 53, ∃ j, v.toNat = m * 2 ^ j := by
  rw [sameCase_iff_decodes, and_self, Decodes, fpToUi_uiToFp_iff v k.width_le k.shadowWidth_le,
    Binary64.Representable]

-- The 64-bit condition -1 becomes 2 ^ 64.
theorem not_decodes_neg_one : ¬∀ (k : Sent) (v : BitVec k.width), Decodes k v ∧ SameCase k v := by
  intro h
  have hd : fpToUi 64 (uiToFp (-1#64)) = some _ :=
    (h (.switchCond 64 (Nat.le_refl 64)) (-1#64)).left
  have hn : fpToUi 64 (uiToFp (-1#64)) = none := by decide
  cases hd.symm.trans hn

end Encoding
