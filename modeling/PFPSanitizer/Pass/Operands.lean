import PFPSanitizer.Pass.Execution

-- The pointers to metadata that the handlers find for operands.
namespace Pass

open Metadata (Activation Ptr)

-- What stands for the metadata of an operand: the pointer to a temporary, an operand that is a
-- pointer itself, or the `my_phi` or `my_select` that is made for an instruction.
inductive Meta
  | temporary (t : Temp)
  | value (v : Operand)
  | pointer (s : Site)
  | null

def Inst.cast? (I : Inst) : Option Operand :=
  match I.op with
  | .fptrunc v | .fpext v => some v
  | _                     => none

section

variable (M : Module) (F : Body)

def Body.cast? : Operand → Option Operand
  | .inst s => F.inst? s |>.bind Inst.cast?
  | _       => none

def consMeta (v : Operand) : Option Meta :=
  if consMap F v then v.temp?.map .temporary else none

def typeMeta (v : Operand) : Option Meta :=
  if (F.typeOf v).isMPtrTy then some (.value v) else none

-- A phi node that `GEPMap` has.
def phiMeta : Operand → Option Meta
  | .inst s => F.inst? s |>.bind fun I =>
    match I.op with
    | .phi _ => if I.ty.isFloatType then some (.temporary (.inst s)) else none
    | _      => none
  | _ => none

-- The instructions that are visited before the one at `t`.
def before (t s : Site) : Bool :=
  s.block < t.block || s.block = t.block && s.idx < t.idx

variable (seen : Site → Bool)

-- `MInsMap` when the instructions that are `seen` have been visited.
def mInsMeta : Operand → Option Meta
  | .inst s => F.inst? s |>.bind fun I =>
    if seen s && mapped M F I then
      match I.op with
      | .phi _ | .select _ _ _ => some (.pointer s)
      | _                      => some (.temporary (.inst s))
    else none
  | _ => none

-- What `handleOperand` finds.
def operandMeta (v : Operand) : Option Meta :=
  consMeta F v <|> typeMeta F v <|> phiMeta F v <|> mInsMeta M F seen v <|>
  match v with
  | .arg _   => some (.value v)
  | .undef _ => some .null
  | _        => F.cast? v |>.bind through
where
  through (u : Operand) : Option Meta :=
    match F.cast? u with
    | some w => mInsMeta M F seen w
    | none   => mInsMeta M F seen u <|> consMeta F u <|> typeMeta F u

end

section Operands

variable {F : Body} {M : Module} {t : Site} {v : Operand}

theorem consMeta_isSome : (consMeta F v).isSome = consMap F v := by
  rw [consMeta]
  cases hc : consMap F v with
  | false => rfl
  | true =>
    cases v with
    | const t n =>
      rw [consMap, Bool.and_eq_true] at hc
      simp [Operand.temp?, hc.left]
    | inst s => rfl
    | _ => cases hc

theorem typeMeta_isSome : (typeMeta F v).isSome = (F.typeOf v).isMPtrTy := by
  rw [typeMeta]
  cases (F.typeOf v).isMPtrTy <;> rfl

theorem mInsMeta_isSome : (mInsMeta M F (before t) v).isSome = mInsMap M F t v := by
  cases v with
  | inst s =>
    rw [mInsMeta, mInsMap, ← before]
    cases F.inst? s with
    | none   => simp
    | some I =>
      rw [Option.bind_some, Option.any_some]
      cases before t s && mapped M F I with
      | false => rfl
      | true  => rw [if_pos rfl]; split <;> rfl
  | _ => rfl

theorem phiMeta_isSome {s : Site} :
    (phiMeta F (.inst s)).isSome = (F.inst? s).any fun I =>
    match I.op with | .phi _ => I.ty.isFloatType | _ => false := by
  rw [phiMeta]
  cases F.inst? s with
  | none   => rfl
  | some I =>
    rw [Option.bind_some, Option.any_some]
    split
    · cases I.ty.isFloatType <;> rfl
    · rfl

theorem through_isSome {u : Operand} :
    (operandMeta.through M F (before t) u).isSome = handleOperand.through M F t u := by
  have hd : (mInsMeta M F (before t) u <|> consMeta F u <|> typeMeta F u).isSome =
      (mInsMap M F t u || consMap F u || (F.typeOf u).isMPtrTy) := by
    simp only [Option.orElse_eq_orElse, Option.isSome_or, Option.orElse_eq_or, mInsMeta_isSome,
      consMeta_isSome, typeMeta_isSome, Bool.or_assoc]
  cases u with
  | inst s =>
    simp only [handleOperand.through, operandMeta.through, Body.cast?]
    cases hI : F.inst? s with
    | none   => exact hd
    | some I =>
      simp only [Option.map_some, Option.bind_some, Inst.cast?]
      cases I.op with
      | fptrunc w | fpext w => exact mInsMeta_isSome
      | _                   => exact hd
  | _ => simpa [handleOperand.through, operandMeta.through, Body.cast?, mInsMap] using hd

-- It finds metadata exactly where `handleOperand` succeeds.
theorem operandMeta_isSome : (operandMeta M F (before t) v).isSome = handleOperand M F t v := by
  simp only [operandMeta, handleOperand, Option.orElse_eq_orElse, Option.isSome_or,
    Option.orElse_eq_or, consMeta_isSome, typeMeta_isSome, mInsMeta_isSome]
  cases v with
  | inst s =>
    rw [phiMeta_isSome]
    cases hI : F.inst? s with
    | none   => simp [Body.cast?, hI, Bool.or_assoc]
    | some I =>
      simp only [Body.cast?, hI, Option.bind_some, Option.any_some, Inst.cast?]
      cases I.op with
      | fptrunc u | fpext u => simp [through_isSome, Bool.or_assoc]
      | phi                 => simp [Bool.or_comm, Bool.or_left_comm, Bool.or_assoc]
      | _                   => simp [Bool.or_assoc]
  | _ => simp [phiMeta, Body.cast?, Bool.or_assoc]

end Operands

section Casts

variable {F : Body} {M : Module} {seen : Site → Bool} {w u : Operand}

theorem Body.cast?_eq_some (h : F.cast? w = some u) :
    ∃ s I, w = .inst s ∧ F.inst? s = some I ∧ (I.op = .fptrunc u ∨ I.op = .fpext u) := by
  cases w with
  | inst s =>
    obtain ⟨I, hI, h⟩ := Option.bind_eq_some_iff.mp h
    rw [Inst.cast?] at h
    split at h
    case h_1 ho | h_2 ho =>
      obtain rfl := Option.some.inj h
      exact ⟨s, I, rfl, hI, by simp [ho]⟩
    case h_3             => cases h
  | _      => cases h

-- A cast has no metadata of its own.
theorem consMeta_cast (h : F.cast? w = some u) : consMeta F w = none := by
  obtain ⟨s, I, rfl, hI, ho | ho⟩ := Body.cast?_eq_some h <;> simp [consMeta, consMap, hI, ho]

theorem phiMeta_cast (h : F.cast? w = some u) : phiMeta F w = none := by
  obtain ⟨s, I, rfl, hI, ho | ho⟩ := Body.cast?_eq_some h <;> simp [phiMeta, hI, ho]

theorem mInsMeta_cast (h : F.cast? w = some u) : mInsMeta M F seen w = none := by
  obtain ⟨s, I, rfl, hI, ho | ho⟩ := Body.cast?_eq_some h <;> simp [mInsMeta, mapped, hI, ho]

-- What is found for it is that of the value below.
theorem operandMeta_cast (h : F.cast? w = some u) (ht : (F.typeOf w).isMPtrTy = false) :
    operandMeta M F seen w = operandMeta.through M F seen u := by
  have htm : typeMeta F w = none := by rw [typeMeta, ht, if_neg Bool.false_ne_true]
  obtain ⟨s, I, rfl, -⟩ := Body.cast?_eq_some h
  simp only [operandMeta, consMeta_cast h, htm, phiMeta_cast h, mInsMeta_cast h, h]
  rfl

end Casts

-- The registers of an activation that hold pointers to metadata.
structure Registers where
  self    : Activation
  value   : Operand → Option Ptr
  pointer : Site → Option Ptr

namespace Registers

variable (R : Registers) (F : Body)

def temporary (t : Temp) : Ptr where
  owner := R.self
  idx   := slot F t

def get : Meta → Option Ptr
  | .temporary t => R.temporary F t
  | .value v     => R.value v
  | .pointer s   => R.pointer s
  | .null        => none

-- The slot of a value.
def operand (M : Module) (seen : Site → Bool) (v : Operand) : Option Ptr :=
  operandMeta M F seen v |>.bind (R.get F)

end Registers

end Pass
