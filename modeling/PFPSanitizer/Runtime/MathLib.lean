import PFPSanitizer.Runtime.Temporaries

-- The functions that the pass calls for operations and for functions of the math library.
namespace Metadata

-- The arithmetic of the program. The results of functions on floats are rounded to floats.
structure Libm (D : Type) extends Doubles D where
  toFloat : D → D
  add     : D → D → D
  sub     : D → D → D
  mul     : D → D → D
  div     : D → D → D
  fma     : D → D → D → D
  ldexp   : D → Int → D
  fmod    : D → D → D
  atan2   : D → D → D
  hypot   : D → D → D
  pow     : D → D → D
  sqrt    : D → D
  cbrt    : D → D
  sqrtf   : D → D
  floor   : D → D
  tanh    : D → D
  tan     : D → D
  acos    : D → D
  cosh    : D → D
  cos     : D → D
  cosf    : D → D
  atan    : D → D
  ceil    : D → D
  exp     : D → D
  expf    : D → D
  fabs    : D → D
  abs     : D → D
  log10   : D → D
  log     : D → D
  sinh    : D → D
  sin     : D → D
  sinf    : D → D
  asin    : D → D
deriving Inhabited

section

variable {V D : Type} (A : Mpfr V D) (L : Libm D)

-- An operation of two operands whose result the program computes with `f`.
def operation (opCode : FpOp) (f : D → D → D) (op1 op2 res : Ptr) (instId : Nat) (s : State V D) :
    Option (State V D) := do
  let e₁ ← s.temps op1
  let e₂ ← s.temps op2
  mCompute A opCode op1 op2 (f e₁.computed e₂.computed) res instId s

def mpfrFadd := operation A .fadd L.add

def mpfrFaddF := operation A .fadd fun x y => L.toFloat (L.add x y)

def mpfrFsub := operation A .fsub L.sub

def mpfrFsubF := operation A .fsub fun x y => L.toFloat (L.sub x y)

def mpfrFmul := operation A .fmul L.mul

def mpfrFmulF := operation A .fmul fun x y => L.toFloat (L.mul x y)

def mpfrFdiv := operation A .fdiv L.div

def mpfrFdivF := operation A .fdiv fun x y => L.toFloat (L.div x y)

-- A function of one operand.
def mathOne (opCode : FpOp) (f : D → D) (op1 res : Ptr) (instId : Nat) (s : State V D) :
    Option (State V D) := do
  let e ← s.temps op1
  handleMathD A opCode op1 (f e.computed) res instId s

def mpfrSqrt := mathOne A .sqrt L.sqrt

def mpfrCbrt := mathOne A .cbrt L.cbrt

def mpfrSqrtf := mathOne A .sqrt L.sqrtf

def mpfrFloor := mathOne A .floor L.floor

def mpfrTanh := mathOne A .tanh L.tanh

def mpfrTan := mathOne A .tan L.tan

def mpfrAcos := mathOne A .acos L.acos

def mpfrCosh := mathOne A .cosh L.cosh

def mpfrCos := mathOne A .cos L.cos

def mpfrCosf := mathOne A .cos L.cosf

def mpfrLlvmCosF64 := mathOne A .cos L.cos

def mpfrAtan := mathOne A .atan L.atan

def mpfrLlvmCeil := mathOne A .ceil L.ceil

def mpfrLlvmFloorD := mathOne A .floor L.floor

def mpfrLlvmFloorF := mathOne A .floor L.floor

def mpfrExp := mathOne A .exp L.exp

def mpfrExpf := mathOne A .exp L.expf

def mpfrLlvmFabs := mathOne A .abs L.fabs

def mpfrAbs := mathOne A .abs L.abs

def mpfrLog10 := mathOne A .log10 L.log10

def mpfrLog := mathOne A .log L.log

def mpfrSinh := mathOne A .sin L.sinh

def mpfrSin := mathOne A .sin L.sin

def mpfrSinf := mathOne A .sin L.sinf

def mpfrLlvmSinF64 := mathOne A .sin L.sin

def mpfrAsin := mathOne A .asin L.asin

-- A function of two operands.
def mathFun2 (opCode : FpOp) (val : V → V → V) (f : D → D → D) (op1 op2 res : Ptr) (instId : Nat)
    (s : State V D) :
    Option (State V D) := do
  let e₁ ← s.temps op1
  let e₂ ← s.temps op2
  mathTwo val opCode op1 op2 (f e₁.computed e₂.computed) res instId s

def mpfrFmod2 := mathFun2 .fmod A.fmod L.fmod

def mpfrAtan22 := mathFun2 .atan2 A.atan2 L.atan2

def mpfrHypot2 := mathFun2 .hypot A.hypot L.hypot

def mpfrPow2 := mathFun2 .pow A.pow L.pow

def mpfrLlvmFmaF643 (op1 op2 op3 res : Ptr) (instId : Nat) (s : State V D) :
    Option (State V D) := do
  let e₁ ← s.temps op1
  let e₂ ← s.temps op2
  let e₃ ← s.temps op3
  mpfrFma A op1 op2 op3 (L.fma e₁.computed e₂.computed e₃.computed) res instId s

def mpfrLdexp2 (op1 : Ptr) (op2d : Int) (res : Ptr) (instId : Nat) (s : State V D) :
    Option (State V D) := do
  let e ← s.temps op1
  mpfrLdexp A op1 op2d (L.ldexp e.computed op2d) res instId s

end

-- A function that is called with pointers to its operands.
def Wrapper (V D : Type) : Type :=
  List (Option Ptr) → Ptr → Nat → State V D → Option (State V D)

namespace Wrapper

variable {V D : Type}

-- A null pointer is dereferenced in vain.
def one (f : Ptr → Ptr → Nat → State V D → Option (State V D)) : Wrapper V D
  | [some p], res, i, s => f p res i s
  | _, _, _, _          => none

def two (f : Ptr → Ptr → Ptr → Nat → State V D → Option (State V D)) : Wrapper V D
  | [some p, some q], res, i, s => f p q res i s
  | _, _, _, _                  => none

def three (f : Ptr → Ptr → Ptr → Ptr → Nat → State V D → Option (State V D)) : Wrapper V D
  | [some p, some q, some r], res, i, s => f p q r res i s
  | _, _, _, _                          => none

-- The second parameter is an `int`, to which a null pointer is passed as zero.
def scaled (f : Ptr → Int → Ptr → Nat → State V D → Option (State V D)) : Wrapper V D
  | [some p, none], res, i, s => f p 0 res i s
  | _, _, _, _                => none

end Wrapper

section

variable {V D : Type} (A : Mpfr V D) (L : Libm D)

-- The functions of the library by their names.
def wrapper : String → Option (Wrapper V D)
  | "fpsan_mpfr_fadd"          => some <| .two <| mpfrFadd A L
  | "fpsan_mpfr_fadd_f"        => some <| .two <| mpfrFaddF A L
  | "fpsan_mpfr_fsub"          => some <| .two <| mpfrFsub A L
  | "fpsan_mpfr_fsub_f"        => some <| .two <| mpfrFsubF A L
  | "fpsan_mpfr_fmul"          => some <| .two <| mpfrFmul A L
  | "fpsan_mpfr_fmul_f"        => some <| .two <| mpfrFmulF A L
  | "fpsan_mpfr_fdiv"          => some <| .two <| mpfrFdiv A L
  | "fpsan_mpfr_fdiv_f"        => some <| .two <| mpfrFdivF A L
  | "fpsan_mpfr_fneg"          => some <| .one fun p res _ => mpfrFneg A L.toDoubles p res
  | "fpsan_mpfr_sqrt"          => some <| .one <| mpfrSqrt A L
  | "fpsan_mpfr_cbrt"          => some <| .one <| mpfrCbrt A L
  | "fpsan_mpfr_sqrtf"         => some <| .one <| mpfrSqrtf A L
  | "fpsan_mpfr_floor"         => some <| .one <| mpfrFloor A L
  | "fpsan_mpfr_tanh"          => some <| .one <| mpfrTanh A L
  | "fpsan_mpfr_tan"           => some <| .one <| mpfrTan A L
  | "fpsan_mpfr_acos"          => some <| .one <| mpfrAcos A L
  | "fpsan_mpfr_cosh"          => some <| .one <| mpfrCosh A L
  | "fpsan_mpfr_cos"           => some <| .one <| mpfrCos A L
  | "fpsan_mpfr_cosf"          => some <| .one <| mpfrCosf A L
  | "fpsan_mpfr_llvm_cos_f64"  => some <| .one <| mpfrLlvmCosF64 A L
  | "fpsan_mpfr_atan"          => some <| .one <| mpfrAtan A L
  | "fpsan_mpfr_llvm_ceil"     => some <| .one <| mpfrLlvmCeil A L
  | "fpsan_mpfr_llvm_floor_d"  => some <| .one <| mpfrLlvmFloorD A L
  | "fpsan_mpfr_llvm_floor_f"  => some <| .one <| mpfrLlvmFloorF A L
  | "fpsan_mpfr_exp"           => some <| .one <| mpfrExp A L
  | "fpsan_mpfr_expf"          => some <| .one <| mpfrExpf A L
  | "fpsan_mpfr_llvm_fabs"     => some <| .one <| mpfrLlvmFabs A L
  | "fpsan_mpfr_abs"           => some <| .one <| mpfrAbs A L
  | "fpsan_mpfr_log10"         => some <| .one <| mpfrLog10 A L
  | "fpsan_mpfr_log"           => some <| .one <| mpfrLog A L
  | "fpsan_mpfr_sinh"          => some <| .one <| mpfrSinh A L
  | "fpsan_mpfr_sin"           => some <| .one <| mpfrSin A L
  | "fpsan_mpfr_sinf"          => some <| .one <| mpfrSinf A L
  | "fpsan_mpfr_llvm_sin_f64"  => some <| .one <| mpfrLlvmSinF64 A L
  | "fpsan_mpfr_asin"          => some <| .one <| mpfrAsin A L
  | "fpsan_mpfr_fmod2"         => some <| .two <| mpfrFmod2 A L
  | "fpsan_mpfr_atan22"        => some <| .two <| mpfrAtan22 A L
  | "fpsan_mpfr_hypot2"        => some <| .two <| mpfrHypot2 A L
  | "fpsan_mpfr_pow2"          => some <| .two <| mpfrPow2 A L
  | "fpsan_mpfr_llvm_fma_f643" => some <| .three <| mpfrLlvmFmaF643 A L
  | "fpsan_mpfr_ldexp2"        => some <| .scaled <| mpfrLdexp2 A L
  | _                          => none

end

end Metadata
