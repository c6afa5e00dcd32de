import Mathlib.Data.List.Basic

-- The modules that the pass works on, as far as it tells their parts apart.
namespace Pass

-- `mptr` is the type `MPtrTy` of pointers to a `temp_entry`.
inductive Ty
  | void
  | int (width : Nat)
  | float
  | double
  | ptr (elem : Ty)
  | array (len : Nat) (elem : Ty)
  | struct (fields : List Ty)
  | mptr

namespace Ty

def isFloatType : Ty → Bool
  | float | double => true
  | _              => false

def isFloat : Ty → Bool
  | float => true
  | _     => false

def isMPtrTy : Ty → Bool
  | mptr => true
  | _    => false

def isArrayFloat : Ty → Bool
  | array _ e => e.isFloatType || e.isArrayFloat
  | _         => false

def isPointerFloat : Ty → Bool
  | ptr e => e.isFloatType || e.isPointerFloat || e.isArrayFloat
  | _     => false

-- The test of `checkIfBitcastFromFP` on the type of the operand. A `temp_entry` has a field of type
-- double.
def isBitcastFromFP : Ty → Bool
  | float | double | mptr => true
  | ptr (struct fs)       => fs.any isFloatType
  | ptr (array n e)       => (array n e).isArrayFloat
  | ptr (ptr e)           => (ptr e).isPointerFloat
  | ptr e                 => e.isFloatType
  | _                     => false

end Ty

def startswith (name pre : String) : Bool :=
  pre.toList.isPrefixOf name.toList

theorem startswith_of_append {n p q : String} (h : startswith n (p ++ q)) : startswith n p := by
  simp only [startswith, String.toList_append, List.isPrefixOf_iff_prefix] at h ⊢
  exact (List.prefix_append _ _).trans h

theorem startswith_append {n p : String} (q : String) (h : startswith n p) :
    startswith (n ++ q) p := by
  simp only [startswith, String.toList_append, List.isPrefixOf_iff_prefix] at h ⊢
  exact h.trans (List.prefix_append _ _)

-- No name starts with two different words of the same length.
theorem not_startswith {n p q : String} (hl : p.toList.length = q.toList.length) (hn : p ≠ q)
    (hp : startswith n p) : startswith n q = false := by
  by_contra hq
  simp only [startswith, Bool.not_eq_false, List.isPrefixOf_iff_prefix] at hp hq
  exact hn <| String.toList_inj.mp <|
    (List.prefix_of_prefix_length_le hp hq (Nat.le_of_eq hl)).eq_of_length hl

-- The place of an instruction in a function.
structure Site where
  block : Nat
  idx   : Nat
deriving DecidableEq

-- Constants of one type and one value are the same, `id` tells the others apart.
inductive Operand
  | inst (s : Site)
  | arg (n : Nat)
  | global (name : String) (ty : Ty)
  | const (ty : Ty) (id : Nat)
  | undef (ty : Ty)

namespace Operand

def isArg : Operand → Bool
  | arg _ => true
  | _     => false

def isInst (s : Site) : Operand → Bool
  | inst t => t = s
  | _      => false

def isConstantFP : Operand → Bool
  | const t _ => t.isFloatType
  | _         => false

end Operand

inductive BinaryOp
  | fadd
  | fsub
  | fmul
  | fdiv
deriving DecidableEq

-- `atomic` stands for `atomicrmw` and `cmpxchg`, `invoke` also for `callbr`, and `rest` for the
-- instructions without a handler and without an effect on memory.
inductive Op
  | load (ptr : Operand)
  | store (val ptr : Operand)
  | bitcast (val : Operand)
  | sitofp (val : Operand)
  | uitofp (val : Operand)
  | fpext (val : Operand)
  | fptrunc (val : Operand)
  | fneg (val : Operand)
  | binary (op : BinaryOp) (lhs rhs : Operand)
  | fcmp (lhs rhs : Operand)
  | select (cond lhs rhs : Operand)
  | phi (incoming : List (Operand × Nat))
  | call (callee : String) (args : List Operand)
  | icall (callee : Operand) (args : List Operand)
  | atomic (ptr : Operand) (vals : List Operand)
  | vaArg (list : Operand)
  | rest (vals : List Operand)
  | br (cond : Option Operand)
  | switch (cond : Operand)
  | ret (val : Option Operand)
  | invoke (callee : Operand) (args : List Operand)
  | unreachable

def Op.operands : Op → List Operand
  | load v | bitcast v | sitofp v | uitofp v | fpext v | fptrunc v | fneg v | vaArg v | switch v =>
    [v]
  | store v w | binary _ v w | fcmp v w => [v, w]
  | select u v w                        => [u, v, w]
  | phi vs                              => vs.map Prod.fst
  | call _ vs | rest vs                 => vs
  | icall v vs | atomic v vs | invoke v vs => v :: vs
  | br v | ret v                        => v.toList
  | unreachable                         => []

def Op.isTerminator : Op → Bool
  | br _ | switch _ | ret _ | invoke _ _ | unreachable => true
  | _                                                  => false

-- The instruction whose result decides a terminator or a select.
def Op.condition? : Op → Option Site
  | br (some (.inst t)) | switch (.inst t) | select (.inst t) _ _ => some t
  | _                                                             => none

structure Inst where
  name : String
  ty   : Ty
  op   : Op

structure Param where
  name : String
  ty   : Ty

structure Block where
  name  : String
  insts : List Inst

structure Body where
  name   : String
  params : List Param
  blocks : List Block

namespace Body

variable (F : Body)

def inst? (s : Site) : Option Inst :=
  F.blocks[s.block]?.bind (·.insts[s.idx]?)

def blockName (b : Nat) : String :=
  F.blocks[b]?.elim "" Block.name

-- The instructions of a block with their places.
def block (b : Nat) : List (Site × Inst) :=
  F.blocks[b]?.elim [] fun B => B.insts.mapIdx fun i I => ({ block := b, idx := i }, I)

def insts : List (Site × Inst) :=
  (List.range F.blocks.length).flatMap F.block

def typeOf : Operand → Ty
  | .inst s                        => F.inst? s |>.elim .void Inst.ty
  | .arg n                         => F.params[n]? |>.elim .void Param.ty
  | .global _ t | .const t _ | .undef t => t

def nameOf : Operand → String
  | .inst s           => F.inst? s |>.elim "" Inst.name
  | .arg n            => F.params[n]? |>.elim "" Param.name
  | .global n _       => n
  | .const _ _ | .undef _ => ""

theorem mem_block {s : Site} {I : Inst} {b : Nat} :
    (s, I) ∈ F.block b ↔ s.block = b ∧ F.inst? s = some I := by
  rw [block, inst?]
  cases h : F.blocks[b]? with
  | none =>
    simp only [Option.elim, List.not_mem_nil, false_iff, not_and]
    intro hb
    simp [hb, h]
  | some B =>
    simp only [Option.elim, List.mem_mapIdx, Prod.mk.injEq]
    constructor
    · intro ⟨i, hi, hs, hI⟩
      subst hs
      simp [h, hi, hI]
    · intro ⟨hb, hI⟩
      subst hb
      simp only [h, Option.bind_some] at hI
      have ⟨hi, hI⟩ := List.getElem?_eq_some_iff.mp hI
      exact ⟨s.idx, hi, rfl, hI⟩

theorem mem_insts {s : Site} {I : Inst} : (s, I) ∈ F.insts ↔ F.inst? s = some I := by
  simp only [insts, List.mem_flatMap, List.mem_range, mem_block]
  refine ⟨fun ⟨_, _, _, h⟩ => h, fun h => ⟨s.block, ?_, rfl, h⟩⟩
  by_contra hn
  simp [inst?, List.getElem?_eq_none (Nat.not_lt.mp hn)] at h

-- The places of a block come in their order.
theorem block_pairwise (b : Nat) : (F.block b).Pairwise fun x y => x.fst.idx < y.fst.idx := by
  rw [block]
  cases F.blocks[b]? with
  | none   => exact .nil
  | some B =>
    rw [Option.elim, List.pairwise_iff_getElem]
    intro i j hi hj hij
    simpa using hij

end Body

-- A function as the verifier of the IR lets it pass, in a module that has no type `MPtrTy` yet: the
-- values of a select have its type, a condition that is computed in a block is so before its use
-- there, the memory intrinsics have no FP result, and stores have no name.
structure Function extends Body where
  typed   : ∀ x ∈ toBody.insts, ∀ c l r, x.snd.op = .select c l r →
            (toBody.typeOf l).isFloatType = x.snd.ty.isFloatType ∧
            (toBody.typeOf r).isFloatType = x.snd.ty.isFloatType
  noMeta  : ∀ p ∈ toBody.params, p.ty.isMPtrTy = false
  foreign : ∀ x ∈ toBody.insts, ∀ v ∈ x.snd.op.operands, (toBody.typeOf v).isMPtrTy = false
  ordered : ∀ x ∈ toBody.insts, ∀ t ∈ x.snd.op.condition?, t.block = x.fst.block → t.idx < x.fst.idx
  memory  : ∀ x ∈ toBody.insts, ∀ g args, x.snd.op = .call g args → startswith g "llvm.mem" →
            x.snd.ty.isFloatType = false
  unnamed : ∀ x ∈ toBody.insts, ∀ v p, x.snd.op = .store v p → x.snd.name = ""

-- What the pass knows of a module besides the bodies: the functions that are defined, the names of
-- `LibFuncList` and the lines of the listing files.
structure Module where
  functions   : List Function
  libFuncList : List String
  libFunc     : List String
  mathFunc    : List String
  forbid      : List String

namespace Module

variable (M : Module)

def definition? (f : String) : Option Function :=
  M.functions.find? (·.name = f)

-- The functions of `FuncList`, which get a clone.
def cloned (f : String) : Bool :=
  (M.definition? f).isSome && f ∉ M.forbid && f ∉ M.libFuncList

end Module

namespace Body

-- The function calls one whose name starts with `pre`.
def calls (F : Body) (pre : String) : Bool :=
  F.insts.any fun (_, I) =>
    match I.op with
    | .call g _ => startswith g pre
    | _         => false

-- The functions of `SliceList`.
def isSlice (F : Body) : Bool :=
  F.calls "start_slice"

end Body

-- The type that a value has in a clone: parameters of FP type become pointers to metadata, other
-- instructions keep their types.
def Ty.shadow (t : Ty) : Ty :=
  if t.isFloatType then .mptr else t

@[simp]
theorem Ty.isFloatType_shadow (t : Ty) : t.shadow.isFloatType = false := by
  cases t <;> rfl

@[simp]
theorem Ty.isMPtrTy_shadow (t : Ty) : t.shadow.isMPtrTy = (t.isFloatType || t.isMPtrTy) := by
  cases t <;> rfl

@[simp]
theorem Ty.isBitcastFromFP_shadow (t : Ty) : t.shadow.isBitcastFromFP = t.isBitcastFromFP := by
  cases t <;> rfl

-- The clone before it is instrumented. The parameters that are not FP are replaced by
-- `undef`, which has no name.
def cloneFunction (F : Body) : Body where
  name   := F.name ++ "_shadow"
  params := F.params.map fun p =>
    { name := if p.ty.isFloatType then p.name else "", ty := p.ty.shadow }
  blocks := F.blocks

section CloneFunction

variable {F : Body}

@[simp]
theorem inst?_cloneFunction (s : Site) : (cloneFunction F).inst? s = F.inst? s := rfl

@[simp]
theorem block_cloneFunction (b : Nat) : (cloneFunction F).block b = F.block b := rfl

@[simp]
theorem insts_cloneFunction : (cloneFunction F).insts = F.insts := rfl

theorem typeOf_cloneFunction (v : Operand) :
    (cloneFunction F).typeOf v = if v.isArg then (F.typeOf v).shadow else F.typeOf v := by
  cases v with
  | arg n =>
    simp only [Body.typeOf, cloneFunction, List.getElem?_map, Operand.isArg, if_true]
    cases F.params[n]? <;> rfl
  | _ => rfl

-- The clone of a value is FP unless it is a parameter.
@[simp]
theorem isFloatType_cloneFunction (v : Operand) :
    ((cloneFunction F).typeOf v).isFloatType = ((F.typeOf v).isFloatType && !v.isArg) := by
  rw [typeOf_cloneFunction]
  cases v.isArg <;> simp

theorem isFloatType_or_isMPtrTy_cloneFunction {v : Operand} (h : (F.typeOf v).isMPtrTy = false) :
    (((cloneFunction F).typeOf v).isFloatType || ((cloneFunction F).typeOf v).isMPtrTy) =
    (F.typeOf v).isFloatType := by
  rw [typeOf_cloneFunction]
  cases v.isArg <;> simp [h]

@[simp]
theorem isBitcastFromFP_cloneFunction (v : Operand) :
    ((cloneFunction F).typeOf v).isBitcastFromFP = (F.typeOf v).isBitcastFromFP := by
  rw [typeOf_cloneFunction]
  cases v.isArg <;> simp

theorem nameOf_cloneFunction (v : Operand) :
    (cloneFunction F).nameOf v = if v.isArg && !(F.typeOf v).isFloatType then ""
    else F.nameOf v := by
  cases v with
  | arg n =>
    simp only [Body.nameOf, Body.typeOf, cloneFunction, List.getElem?_map, Operand.isArg]
    match Option.eq_none_or_eq_some F.params[n]? with
    | .inl h       => simp [h]
    | .inr ⟨p, h⟩ => cases hp : p.ty.isFloatType <;> simp [h, hp]
  | _ => rfl

end CloneFunction

end Pass
