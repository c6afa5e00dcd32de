import Mathlib.Algebra.Group.Nat.Defs
import Mathlib.Logic.Function.Basic

-- The metadata of temporaries and the runtime functions that build it, for one buffer.
namespace Metadata

inductive FpOp
  | fadd | fsub | fmul | fdiv | constant | sqrt | cbrt | fma | ceil | floor | tan | sin | cos | atan
  | abs | log | log10 | asin | exp | pow | min | max | ldexp | fmod | atan2 | hypot | cosh | sinh
  | tanh | acos | unknown
deriving DecidableEq

-- The arithmetic on shadow values `V` for a program that computes with doubles `D`, with one
-- rounding mode. `nan` is the value that `mpfr_init2` leaves. Floats are doubles.
structure Mpfr (V D : Type) where
  nan   : V
  setD  : D → V
  setSi : Int → V
  add   : V → V → V
  sub   : V → V → V
  mul   : V → V → V
  div   : V → V → V
  fma   : V → V → V → V
  fmod  : V → V → V
  atan2 : V → V → V
  hypot : V → V → V
  pow   : V → V → V
  sqrt  : V → V
  cbrt  : V → V
  floor : V → V
  ceil  : V → V
  tan   : V → V
  tanh  : V → V
  sin   : V → V
  sinh  : V → V
  cos   : V → V
  cosh  : V → V
  acos  : V → V
  atan  : V → V
  abs   : V → V
  log   : V → V
  log10 : V → V
  asin  : V → V
  exp   : V → V
  exp2  : V → V
deriving Inhabited

-- What the runtime itself does with doubles. `ne` holds of two NaNs.
structure Doubles (D : Type) where
  zero : D
  neg  : D → D
  ne   : D → D → Bool
deriving Inhabited

-- One execution of a shadow function, told from others by `id`. `level` is its place on the stack.
structure Activation where
  level : Nat
  id    : Nat
deriving DecidableEq

-- A slot in the frame of an activation.
structure Ptr where
  owner : Activation
  idx   : Nat
deriving DecidableEq

structure TempEntry (V D : Type) where
  val       : V
  computed  : D
  instId    : Nat
  opcode    : FpOp
  lock      : Nat
  key       : Nat
  op1Lock   : Nat
  op1Key    : Nat
  lhs       : Option Ptr
  op2Lock   : Nat
  op2Key    : Nat
  rhs       : Option Ptr
  timestamp : Nat

-- The fields `lock` and `key` have 32 bits.
structure SmemEntry (V D : Type) where
  val      : V
  computed : D
  instId   : Nat
  opcode   : FpOp
  isInit   : Bool
  lock     : Nat
  key      : Nat
  tmpPtr   : Option Ptr

-- A temporary is `none` until it is written for the first time.
structure State (V D : Type) where
  lockKeyMap  : Nat → Nat
  keyStackTop : Nat
  keyCounter  : Nat
  timestamp   : Nat
  temps       : Ptr → Option (TempEntry V D)
  memory      : Nat → SmemEntry V D

namespace State

variable {V D : Type} (s : State V D)

def topKey : Nat :=
  s.lockKeyMap s.keyStackTop

def write (p : Ptr) (e : TempEntry V D) : State V D :=
  { s with temps := Function.update s.temps p (some e) }

-- With a new timestamp.
def record (p : Ptr) (e : TempEntry V D) : State V D :=
  { s.write p e with timestamp := s.timestamp + 1 }

-- The entry of a result of no operands, of one operand and of two.
def leaf (val : V) (computed : D) (opcode : FpOp) (instId : Nat) : TempEntry V D where
  val       := val
  computed  := computed
  instId    := instId
  opcode    := opcode
  lock      := s.keyStackTop
  key       := s.topKey
  op1Lock   := 0
  op1Key    := 0
  lhs       := none
  op2Lock   := 0
  op2Key    := 0
  rhs       := none
  timestamp := s.timestamp

def unary (op : Ptr) (e : TempEntry V D) (val : V) (computed : D) (opcode : FpOp) (instId : Nat) :
    TempEntry V D :=
  { s.leaf val computed opcode instId with
    op1Lock := e.lock, op1Key := s.lockKeyMap e.lock, lhs := some op }

def binary (op1 : Ptr) (e₁ : TempEntry V D) (op2 : Ptr) (e₂ : TempEntry V D) (val : V)
    (computed : D) (opcode : FpOp) (instId : Nat) : TempEntry V D :=
  { s.unary op1 e₁ val computed opcode instId with
    op2Lock := e₂.lock, op2Key := s.lockKeyMap e₂.lock, rhs := some op2 }

end State

variable {V D : Type} (A : Mpfr V D) (B : Doubles D)

-- The memory after the first `fpsan_shadow_slice_start` of a buffer.
def shadowSliceStart : State V D where
  lockKeyMap  := Function.update (fun _ => 0) 1 1
  keyStackTop := 1
  keyCounter  := 1
  timestamp   := 0
  temps       := fun _ => none
  memory      := fun _ =>
    { val := A.nan, computed := B.zero, instId := 0, opcode := .fadd, isInit := false, lock := 0,
      key := 0, tmpPtr := none }

def funcInit (s : State V D) : State V D :=
  let top := s.keyStackTop + 1
  let key := (s.keyCounter + 1) % 2 ^ 64
  { s with keyStackTop := top, keyCounter := key,
           lockKeyMap := Function.update s.lockKeyMap top key }

def funcExit (s : State V D) : State V D :=
  { s with lockKeyMap := Function.update s.lockKeyMap s.keyStackTop 0,
           keyStackTop := s.keyStackTop - 1 }

-- `fpsanx_store_tempmeta_dconst` and its variants.
def storeTempmetaConst (op : Ptr) (d : D) (instId : Nat) (s : State V D) : State V D :=
  s.record op <| s.leaf (A.setD d) d .constant instId

def setLib (d : D) (op : Ptr) (instId : Nat) (s : State V D) : State V D :=
  s.record op <| s.leaf (A.setD d) d .constant instId

def mCompute (opCode : FpOp) (op1 op2 : Ptr) (computedResd : D) (res : Ptr) (instId : Nat)
    (s : State V D) :
    Option (State V D) := do
  let e₁ ← s.temps op1
  let e₂ ← s.temps op2
  let val :=
    match opCode with
    | .fadd => A.add e₁.val e₂.val
    | .fsub => A.sub e₁.val e₂.val
    | .fmul => A.mul e₁.val e₂.val
    | .fdiv => A.div e₁.val e₂.val
    | _     => s.temps res |>.elim A.nan TempEntry.val
  return s.record res <| s.binary op1 e₁ op2 e₂ val computedResd opCode instId

-- The function for an opcode, if it is supported.
def mathFn : FpOp → Option (V → V)
  | .sqrt  => A.sqrt
  | .cbrt  => A.cbrt
  | .floor => A.floor
  | .ceil  => A.ceil
  | .tan   => A.tan
  | .tanh  => A.tanh
  | .sin   => A.sin
  | .sinh  => A.sinh
  | .cos   => A.cos
  | .cosh  => A.cosh
  | .acos  => A.acos
  | .atan  => A.atan
  | .abs   => A.abs
  | .log   => A.log
  | .log10 => A.log10
  | .asin  => A.asin
  | .exp   => A.exp
  | _      => none

def handleMathD (opCode : FpOp) (op : Ptr) (computedResd : D) (res : Ptr) (instId : Nat)
    (s : State V D) :
    Option (State V D) := do
  let e ← s.temps op
  let f ← mathFn A opCode
  return s.record res <| s.unary op e (f e.val) computedResd opCode instId

-- The body of `fpsan_mpfr_fmod2`, `fpsan_mpfr_atan22`, `fpsan_mpfr_hypot2` and `fpsan_mpfr_pow2`.
def mathTwo (f : V → V → V) (opCode : FpOp) (op1 op2 : Ptr) (computedRes : D) (res : Ptr)
    (instId : Nat) (s : State V D) : Option (State V D) := do
  let e₁ ← s.temps op1
  let e₂ ← s.temps op2
  return s.record res <| s.binary op1 e₁ op2 e₂ (f e₁.val e₂.val) computedRes opCode instId

-- The third operand is not recorded.
def mpfrFma (op1 op2 op3 : Ptr) (computedRes : D) (res : Ptr) (instId : Nat) (s : State V D) :
    Option (State V D) := do
  let e₁ ← s.temps op1
  let e₂ ← s.temps op2
  let e₃ ← s.temps op3
  return s.record res <| s.binary op1 e₁ op2 e₂ (A.fma e₁.val e₂.val e₃.val) computedRes .fma instId

def mpfrLdexp (op1 : Ptr) (op2d : Int) (computedRes : D) (res : Ptr) (instId : Nat)
    (s : State V D) :
    Option (State V D) := do
  let e ← s.temps op1
  return s.record res <|
    s.unary op1 e (A.mul e.val (A.exp2 (A.setSi op2d))) computedRes .ldexp instId

-- The result takes over the operands, the lock and the key of the operand.
def mpfrFneg (op1 res : Ptr) (s : State V D) : Option (State V D) := do
  let e ← s.temps op1
  return s.write res { e with val := A.sub (A.setD B.zero) e.val, computed := B.neg e.computed }

def copyReturn (src : Option Ptr) (dest : Ptr) (s : State V D) : Option (State V D) :=
  match src with
  | none   => s
  | some p => do
    let e ← s.temps p
    return s.write dest { e with lock := s.keyStackTop, key := s.topKey }

def copyPhi (src : Option Ptr) (dst : Ptr) (s : State V D) : Option (State V D) :=
  match src with
  | none   => s
  | some p => do
    let e ← s.temps p
    return s.record dst { e with lock := s.keyStackTop, key := s.topKey, timestamp := s.timestamp }

-- The shadow memory.

def hashTableEntries : Nat := 1024 * 1024

def getShadowaddress (address : Nat) : Nat :=
  address / 4 % hashTableEntries

def State.shadow (s : State V D) (address : Nat) : SmemEntry V D :=
  s.memory (getShadowaddress address)

def State.setShadow (s : State V D) (address : Nat) (e : SmemEntry V D) : State V D :=
  { s with memory := Function.update s.memory (getShadowaddress address) e }

-- The lock and the key that are stored in the shadow memory.
def State.lock32 (s : State V D) : Nat :=
  s.keyStackTop % 2 ^ 32

def State.key32 (s : State V D) : Nat :=
  s.topKey % 2 ^ 32

-- An entry for a constant, as by `fpsan_store_shadow_dconst`.
def State.constShadow (s : State V D) (d : D) (instId : Nat) : SmemEntry V D where
  val      := A.setD d
  computed := d
  instId   := instId
  opcode   := .constant
  isInit   := true
  lock     := s.lock32
  key      := s.key32
  tmpPtr   := none

def storeShadowFconst (toAddr : Nat) (op : D) (instId : Nat) (s : State V D) : State V D :=
  s.setShadow toAddr <| s.constShadow A op instId

def storeShadowDconst (toAddr : Nat) (op : D) (instId : Nat) (s : State V D) : State V D :=
  s.setShadow toAddr <| s.constShadow A op instId

def storeShadow (toAddr : Nat) (src : Option Ptr) (s : State V D) : Option (State V D) :=
  match src with
  | none   => s
  | some p => do
    let e ← s.temps p
    return s.setShadow toAddr
      { val := e.val, computed := e.computed, instId := e.instId, opcode := e.opcode,
        isInit := true, lock := s.lock32, key := s.key32, tmpPtr := some p }

-- The loop of `fpsan_handle_memset`, from byte `i` on.
def handleMemset (toAddr : Nat) (val : D) (instId : Nat) (i : Nat) : Nat → State V D → State V D
  | 0, s     => s
  | n + 1, s =>
    handleMemset toAddr val instId (i + 1) n <| s.setShadow (toAddr + i) <|
      s.constShadow A val instId

-- The entry that `fpsan_handle_memcpy` makes from one of the source.
def State.copyShadow (s : State V D) (e : SmemEntry V D) : SmemEntry V D :=
  { e with isInit := true, lock := s.lock32, key := s.key32 }

-- What one iteration does to the destination before it looks at the source.
def State.initShadow (s : State V D) (address : Nat) : State V D :=
  if (s.shadow address).isInit then s
  else s.setShadow address { s.shadow address with isInit := true, val := A.nan }

-- The loop of `fpsan_handle_memcpy`, from byte `i` on.
def handleMemcpy (toAddr fromAddr : Nat) (i : Nat) : Nat → State V D → State V D
  | 0, s     => s
  | n + 1, s =>
    let s   := s.initShadow A (toAddr + i)
    let src := s.shadow (fromAddr + i)
    if src.isInit then handleMemcpy toAddr fromAddr (i + 1) n <| s.setShadow (toAddr + i) <|
      s.copyShadow src else s

-- `fpsan_load_shadow_f` and `fpsan_load_shadow_d`.
def loadShadow (addr : Nat) (val : D) (src : Option Ptr) (instId : Nat) (s : State V D) :
    Option (State V D) :=
  match src with
  | none   => s
  | some p =>
    let dest := s.shadow addr
    if !dest.isInit || B.ne val dest.computed then storeTempmetaConst A p val instId s
    else
      let e := s.leaf dest.val dest.computed dest.opcode dest.instId
      match dest.tmpPtr with
      | none   => s.record p e
      | some t =>
        if s.lockKeyMap dest.lock = dest.key then do
          let e' ← s.temps t
          return s.write p
            { e with
              op1Lock := e'.op1Lock, op1Key := e'.op1Key, lhs := e'.lhs
              op2Lock := e'.op2Lock, op2Key := e'.op2Key, rhs := e'.rhs, timestamp := e'.timestamp }
        else s.record p e

end Metadata
