import PFPSanitizer.Runtime.Cancellation
import PFPSanitizer.Runtime.LockKey
import PFPSanitizer.Runtime.MathLib

-- The five counts of a buffer and the functions that count.
namespace Counting

open Metadata

inductive Counter
  | errorCount | nanCount | infCount | flipsCount | ccCount
deriving DecidableEq

-- The state of a buffer with its counts and the queue `m_expr`. The other fields are a record that
-- no function of the runtime reads. Since the slice that runs was called, or since its own report,
-- it has `counted` events. The slices before it have counted `earlier` altogether, and of these
-- `left` behind the last report of the buffer. Operations have written the `results` since that
-- report, negations `negated`. What a slice does behind its own `fpsan_shadow_slice_end` stands in
-- the record of the next report.
structure Buffer (V : Type) extends State V Float where
  counts  : Counter → Nat
  mExpr   : List (Option Ptr)
  counted : List Counter
  left    : List Counter
  earlier : List Counter
  results : List (TempEntry V Float)
  negated : List (TempEntry V Float)

namespace Buffer

variable {V : Type} (b : Buffer V)

def count (c : Counter) : Buffer V :=
  { b with counts := Function.update b.counts c (b.counts c + 1), counted := b.counted ++ [c] }

def countIf (p : Bool) (c : Counter) : Buffer V :=
  if p then b.count c else b

def reset (c : Counter) : Buffer V :=
  { b with counts := Function.update b.counts c 0 }

-- The record when the next slice is called. What the last one has counted
-- behind its report is left.
def called : Buffer V :=
  { b with counted := [], left := b.left ++ b.counted, earlier := b.earlier ++ b.counted }

-- The record when the slice has been reported.
def reported : Buffer V :=
  { b with counted := [], left := [], earlier := b.earlier ++ b.counted, results := [],
           negated := [] }

end Buffer

@[irreducible]
def errorThreshold : Float := 50

section Functions

variable {V : Type} (A : Measures V) (L : Libm Float) (log2 : UInt64 → Float)

-- The bits of error, by the logarithm of an integer.
def bitsError (val : V) (computedVal : Float) : Float :=
  log2 (mUlpd (A.getD val) computedVal + 1)

-- An entry with more bits of error than the threshold.
def above (e : TempEntry V Float) : Bool :=
  bitsError A log2 e.val e.computed > errorThreshold

-- The same as an `int`.
def intBitsError (val : V) (computedVal : Float) : Int :=
  (bitsError A log2 val computedVal).toInt32.toInt

def mUpdateError (real : TempEntry V Float) (computedVal : Float) (b : Buffer V) : Buffer V × Int :=
  (b.countIf (bitsError A log2 real.val computedVal > errorThreshold) .errorCount,
    intBitsError A log2 real.val computedVal)

-- The field `error` of the result, which only `m_check_cc` reads, is returned.
def mCompute (opCode : FpOp) (op1 op2 : Ptr) (computedResd : Float) (res : Ptr) (instId : Nat)
    (b : Buffer V) :
    Option (Buffer V × Int) := do
  let s ← Metadata.mCompute A.toMpfr opCode op1 op2 computedResd res instId b.toState
  let e ← s.temps res
  let b := { b with toState := s }.countIf (computedResd != computedResd) .nanCount
  return mUpdateError A log2 e computedResd b

def handleMathD (opCode : FpOp) (op : Ptr) (computedResd : Float) (res : Ptr) (instId : Nat)
    (b : Buffer V) :
    Option (Buffer V) := do
  let s ← Metadata.handleMathD A.toMpfr opCode op computedResd res instId b.toState
  let e ← s.temps res
  let b := { b with toState := s }.countIf computedResd.isInf .infCount
  let b := b.countIf (computedResd != computedResd) .nanCount
  return (mUpdateError A log2 e computedResd b).fst

-- The end of the functions that have their own body.
def updateResult (res : Ptr) (b : Buffer V) (s : State V Float) : Option (Buffer V) := do
  let e ← s.temps res
  return (mUpdateError A log2 e e.computed { b with toState := s }).fst

def oppositeSigns (x y : Float) : Bool :=
  (x < 0 && y > 0) || (x > 0 && y < 0)

def sameSigns (x y : Float) : Bool :=
  (x < 0 && y < 0) || (x > 0 && y > 0)

-- An addition or a subtraction, with the test for operands whose leading bits can cancel.
def additive (opCode : FpOp) (f : Float → Float → Float) (signs : Float → Float → Bool)
    (precBits : Nat) (op1 op2 res : Ptr) (instId : Nat) (b : Buffer V) : Option (Buffer V) := do
  let e₁ ← b.temps op1
  let e₂ ← b.temps op2
  let computedRes := f e₁.computed e₂.computed
  let (b, error) ← mCompute A log2 opCode op1 op2 computedRes res instId b
  let e₁ ← b.temps op1
  let e₂ ← b.temps op2
  if signs e₁.computed e₂.computed then
    return b.countIf (mCheckCc A computedRes precBits e₁ e₂ error > 0) .ccCount
  else return b

def product (f : Float → Float → Float) (op1 op2 res : Ptr) (instId : Nat) (b : Buffer V) :
    Option (Buffer V) := do
  let e₁ ← b.temps op1
  let e₂ ← b.temps op2
  let (b, _) ← mCompute A log2 .fmul op1 op2 (f e₁.computed e₂.computed) res instId b
  return b

def quotient (f : Float → Float → Float) (op1 op2 res : Ptr) (instId : Nat) (b : Buffer V) :
    Option (Buffer V) := do
  let e₁ ← b.temps op1
  let e₂ ← b.temps op2
  let computedRes := f e₁.computed e₂.computed
  let (b, _) ← mCompute A log2 .fdiv op1 op2 computedRes res instId b
  return b.countIf computedRes.isInf .infCount

def mpfrFadd := additive A log2 .fadd L.add oppositeSigns mPrecBitsD

def mpfrFaddF := additive A log2 .fadd (fun x y => L.toFloat (L.add x y)) oppositeSigns mPrecBitsF

def mpfrFsub := additive A log2 .fsub L.sub sameSigns mPrecBitsD

def mpfrFsubF := additive A log2 .fsub (fun x y => L.toFloat (L.sub x y)) sameSigns mPrecBitsF

def mpfrFmul := product A log2 L.mul

def mpfrFmulF := product A log2 fun x y => L.toFloat (L.mul x y)

def mpfrFdiv := quotient A log2 L.div

def mpfrFdivF := quotient A log2 fun x y => L.toFloat (L.div x y)

-- The functions of one operand, with the opcodes and the functions that
-- `Metadata.mathOne` has for them.
def mathOne (opCode : FpOp) (f : Float → Float) (op1 res : Ptr) (instId : Nat) (b : Buffer V) :
    Option (Buffer V) := do
  let e ← b.temps op1
  handleMathD A log2 opCode op1 (f e.computed) res instId b

-- Those of two operands, with the values and the functions that `Metadata.mathFun2` has for them.
def mathFun2 (opCode : FpOp) (val : V → V → V) (f : Float → Float → Float) (op1 op2 res : Ptr)
    (instId : Nat) (b : Buffer V) : Option (Buffer V) :=
  Metadata.mathFun2 opCode val f op1 op2 res instId b.toState >>= updateResult A log2 res b

def mpfrLlvmFmaF643 (op1 op2 op3 res : Ptr) (instId : Nat) (b : Buffer V) : Option (Buffer V) :=
  Metadata.mpfrLlvmFmaF643 A.toMpfr L op1 op2 op3 res instId b.toState >>= updateResult A log2 res b

def mpfrLdexp2 (op1 : Ptr) (op2d : Int) (res : Ptr) (instId : Nat) (b : Buffer V) :
    Option (Buffer V) :=
  Metadata.mpfrLdexp2 A.toMpfr L op1 op2d res instId b.toState >>= updateResult A log2 res b

-- Nothing is counted.
def mpfrFneg (op1 res : Ptr) (b : Buffer V) : Option (Buffer V) := do
  let s ← Metadata.mpfrFneg A.toMpfr L.toDoubles op1 res b.toState
  return { b with toState := s }

def copyReturn (src : Option Ptr) (dest : Ptr) (b : Buffer V) : Option (Buffer V) := do
  let s ← Metadata.copyReturn src dest b.toState
  if src.isSome then updateResult A log2 dest b s else return { b with toState := s }

-- `fpsan_check_branch_f` and `fpsan_check_branch_d`.
def checkBranch (op1 op2 : Ptr) (fcmpFlag : Nat) (computedRes : Bool) (b : Buffer V) :
    Option (Buffer V) := do
  let e₁ ← b.temps op1
  let e₂ ← b.temps op2
  return b.countIf (mCheckBranch A.toComparison e₁.val e₂.val fcmpFlag != computedRes) .flipsCount

end Functions

section Trace

variable {V : Type} (s : State V Float)

-- An operand that is older than an entry is appended to the queue.
def olderOperand (cur : TempEntry V Float) (operand : Option Ptr) : Option (List (Option Ptr)) :=
  match operand with
  | none   => some []
  | some p => s.temps p |>.map fun e => if e.timestamp < cur.timestamp then [some p] else []

-- An entry weighs more than two older ones.
def weight : Option Ptr → Nat
  | none   => 0
  | some p => s.temps p |>.elim 0 fun e => 3 ^ e.timestamp

theorem weight_olderOperand {cur : TempEntry V Float} {operand : Option Ptr} {q : List (Option Ptr)}
    (h : olderOperand s cur operand = some q) : 3 * (q.map (weight s)).sum ≤ 3 ^ cur.timestamp := by
  cases operand with
  | none   => cases h; exact Nat.zero_le _
  | some p =>
    obtain ⟨e, he, rfl⟩ := Option.map_eq_some_iff.mp h
    split
    case isFalse   => exact Nat.zero_le _
    case isTrue ht =>
      have hw : weight s (some p) = 3 ^ e.timestamp := by rw [weight, he]; rfl
      calc
        3 * ([some p].map (weight s)).sum = 3 ^ (e.timestamp + 1) := by
          simp [hw, Nat.pow_succ, Nat.mul_comm]
        _ ≤ 3 ^ cur.timestamp := Nat.pow_le_pow_right (by decide) ht

-- The loop of `fpsan_trace`: the entries that it prints, and the queue that it leaves.
def walk : List (Option Ptr) → Option (List (TempEntry V Float) × List (Option Ptr))
  | []          => some ([], [])
  | none :: q   => some ([], none :: q)
  | some p :: q =>
    match _h : s.temps p with
    | none     => none
    | some cur =>
      if s.lockKeyMap cur.op1Lock ≠ cur.op1Key then some ([], some p :: q)
      else if s.lockKeyMap cur.op2Lock ≠ cur.op2Key then some ([], some p :: q)
      else
        match _hl : olderOperand s cur cur.lhs, _hr : olderOperand s cur cur.rhs with
        | some ls, some rs => walk (q ++ ls ++ rs) |>.map fun r => (cur :: r.fst, r.snd)
        | _, _             => none
termination_by q => (q.map (weight s)).sum
decreasing_by
  have hl := weight_olderOperand s _hl
  have hr := weight_olderOperand s _hr
  have hp : weight s (some p) = 3 ^ cur.timestamp := by rw [weight, _h]; rfl
  have hpos : 0 < 3 ^ cur.timestamp := Nat.pow_pos (by decide)
  simp only [List.map_append, List.sum_append, List.map_cons, List.sum_cons, hp]
  omega

end Trace

-- What is printed at the end of a slice.
structure Report where
  errors        : Nat
  nans          : Nat
  infs          : Nat
  flips         : Nat
  cancellations : Nat
deriving DecidableEq

section Functions

variable {V : Type} (A : Measures V) (L : Libm Float) (log2 : UInt64 → Float)

-- `m_get_depth` walks through the same entries once more.
def trace (current : Option Ptr) (b : Buffer V) : Option (Buffer V) := do
  let (printed, left) ← walk b.toState (b.mExpr ++ [current])
  let b := printed.foldl (fun b cur => (mUpdateError A log2 cur cur.computed b).fst) b
  if left ≠ [] then return { b with mExpr := left }
  let (_, left) ← walk b.toState [current]
  return { b with mExpr := left }

def debugtrace : Bool := false

def checkError (realRes : Ptr) (b : Buffer V) : Option (Buffer V) := do
  let b ← if debugtrace then trace A log2 realRes { b with mExpr := [] } else some b
  let e ← b.temps realRes
  return (mUpdateError A log2 e e.computed b).fst

-- Four of the five counts are reset.
def shadowSliceEnd (b : Buffer V) : Report × Buffer V :=
  ({ errors := b.counts .errorCount, nans := b.counts .nanCount, infs := b.counts .infCount
     flips := b.counts .flipsCount, cancellations := b.counts .ccCount },
   b.reset .errorCount |>.reset .nanCount |>.reset .flipsCount |>.reset .ccCount |>.reported)

end Functions

inductive Arith
  | fadd | faddF | fsub | fsubF | fmul | fmulF | fdiv | fdivF
deriving DecidableEq

-- The shadow operations. `one` and `two` stand for the wrappers of the
-- functions of the math library.
inductive Op (V : Type)
  | arith (k : Arith) (op1 op2 res : Ptr) (instId : Nat)
  | one (opCode : FpOp) (f : Float → Float) (op1 res : Ptr) (instId : Nat)
  | two (opCode : FpOp) (val : V → V → V) (f : Float → Float → Float) (op1 op2 res : Ptr)
      (instId : Nat)
  | fma (op1 op2 op3 res : Ptr) (instId : Nat)
  | ldexp (op1 : Ptr) (op2d : Int) (res : Ptr) (instId : Nat)

-- `sliceStart` is the call of a shadow slice by `worker`. In the code of the pass `sliceEnd` comes
-- before the `checkError` of a returned value and the `exit` of the slice.
inductive Act (V : Type)
  | op (o : Op V)
  | fneg (op1 res : Ptr)
  | copyReturn (src : Option Ptr) (dest : Ptr)
  | checkError (realRes : Ptr)
  | trace (current : Option Ptr)
  | checkBranch (op1 op2 : Ptr) (fcmpFlag : Nat) (computedRes : Bool)
  | call (k : Call V Float)
  | enter
  | exit
  | sliceStart
  | sliceEnd

-- The calls that leave the counts alone.
def quiet {V : Type} : Call V Float → Bool
  | .const _ _ _ | .copyPhi _ _ | .load _ _ _ _ | .store _ _ | .storeConst _ _ _
  | .memset _ _ _ _ | .memcpy _ _ _ => true
  | _                               => false

section Machine

variable {V : Type} (A : Measures V) (L : Libm Float) (log2 : UInt64 → Float)

def Arith.opCode : Arith → FpOp
  | fadd | faddF => .fadd
  | fsub | fsubF => .fsub
  | fmul | fmulF => .fmul
  | fdiv | fdivF => .fdiv

-- The operation of the program.
def Arith.fn : Arith → Float → Float → Float
  | fadd  => L.add
  | faddF => fun x y => L.toFloat (L.add x y)
  | fsub  => L.sub
  | fsubF => fun x y => L.toFloat (L.sub x y)
  | fmul  => L.mul
  | fmulF => fun x y => L.toFloat (L.mul x y)
  | fdiv  => L.div
  | fdivF => fun x y => L.toFloat (L.div x y)

def Arith.exec : Arith → Ptr → Ptr → Ptr → Nat → Buffer V → Option (Buffer V)
  | fadd  => mpfrFadd A L log2
  | faddF => mpfrFaddF A L log2
  | fsub  => mpfrFsub A L log2
  | fsubF => mpfrFsubF A L log2
  | fmul  => mpfrFmul A L log2
  | fmulF => mpfrFmulF A L log2
  | fdiv  => mpfrFdiv A L log2
  | fdivF => mpfrFdivF A L log2

namespace Op

def res : Op V → Ptr
  | arith _ _ _ p _ | one _ _ _ p _ | two _ _ _ _ _ p _ | fma _ _ _ p _ | ldexp _ _ p _ => p

def exec : Op V → Buffer V → Option (Buffer V)
  | arith k p q res i        => k.exec A L log2 p q res i
  | one opCode f p res i     => mathOne A log2 opCode f p res i
  | two opCode v f p q res i => mathFun2 A log2 opCode v f p q res i
  | fma p q r res i          => mpfrLlvmFmaF643 A L log2 p q r res i
  | ldexp p n res i          => mpfrLdexp2 A L log2 p n res i

-- What is done to the metadata.
def metadata : Op V → State V Float → Option (State V Float)
  | arith k p q res i        => operation A.toMpfr k.opCode (k.fn L) p q res i
  | one opCode f p res i     => Metadata.mathOne A.toMpfr opCode f p res i
  | two opCode v f p q res i => Metadata.mathFun2 opCode v f p q res i
  | fma p q r res i          => Metadata.mpfrLlvmFmaF643 A.toMpfr L p q r res i
  | ldexp p n res i          => Metadata.mpfrLdexp2 A.toMpfr L p n res i

-- What the program computes.
def computed (b : Buffer V) : Op V → Option Float
  | arith k p q _ _   => do return k.fn L (← b.temps p).computed (← b.temps q).computed
  | one _ f p _ _     => do return f (← b.temps p).computed
  | two _ _ f p q _ _ => do return f (← b.temps p).computed (← b.temps q).computed
  | fma p q r _ _     =>
    do return L.fma (← b.temps p).computed (← b.temps q).computed (← b.temps r).computed
  | ldexp p n _ _     => do return L.ldexp (← b.temps p).computed n

end Op

def exec : Act V → Buffer V → Option (Buffer V)
  | .op o, b                    => o.exec A L log2 b |>.map fun b' =>
    { b' with results := b'.results ++ (b'.temps o.res).toList }
  | .fneg p res, b              => mpfrFneg A L p res b |>.map fun b' =>
    { b' with negated := b'.negated ++ (b'.temps res).toList }
  | .copyReturn p dest, b       => copyReturn A log2 p dest b
  | .checkError p, b            => checkError A log2 p b
  | .trace p, b                 => trace A log2 p b
  | .checkBranch p q flag br, b => checkBranch A p q flag br b
  | .call k, b                  =>
    if quiet k then k.exec A.toMpfr L.toDoubles b.toState |>.map fun s =>
      { b with toState := s } else none
  | .enter, b                   => some { b with toState := funcInit b.toState }
  | .exit, b                    => some { b with toState := funcExit b.toState }
  | .sliceStart, b              => some b.called
  | .sliceEnd, b                => some (shadowSliceEnd b).snd

-- All runs of the slices of one buffer. The counts are global variables.
def machine : Machine (Buffer V) (Act V) where
  init :=
    { shadowSliceStart A.toMpfr L.toDoubles with
      counts := fun _ => 0, mExpr := [], counted := [], left := [], earlier := [],
      results := [], negated := [] }
  step := exec A L log2

end Machine

section Doubles

-- The arithmetic of doubles, and the logarithm of the integers that the examples come to.
def libmDoubles : Libm Float :=
  { (default : Libm Float) with zero := 0, neg := (- ·), add := (· + ·), sub := (· - ·),
                                mul := (· * ·), div := (· / ·) }

def log2Integer (n : UInt64) : Float :=
  if n = 1 then 0 else if n = ullongMax then 64 else 51.8073549220576

noncomputable def doubleMachine : Machine (Buffer Float) (Act Float) :=
  machine doubles libmDoubles log2Integer

def slot (idx : Nat) : Ptr where
  owner := { level := 2, id := 0 }
  idx   := idx

-- A function that computes with two constants.
def computing (k : Arith) (x y : Float) : List (Act Float) :=
  [.enter, .call (.const (slot 0) x 1), .call (.const (slot 1) y 2),
    .op (.arith k (slot 0) (slot 1) (slot 2) 3)]

-- Two operands with their shadow values.
noncomputable def operands (x v y w : Float) : Buffer Float :=
  let b := doubleMachine.init
  { b with
    temps := fun p =>
      if p = slot 0 then some (b.leaf v x .constant 1)
      else if p = slot 1 then some (b.leaf w y .constant 2)
      else none }

end Doubles

end Counting
