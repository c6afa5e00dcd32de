import PFPSanitizer.Pass.Channel

-- What the handlers make of a clone: the metadata they find for an operand, the instructions they
-- replace, and the code they insert.
namespace Pass

variable (M : Module) (F : Body)

-- The operands of an instruction that get a temporary if they are constants.
def Inst.constants (I : Inst) : List Operand :=
  .filter Operand.isConstantFP <|
    match I.op with
    | .binary _ l r | .fcmp l r      => [l, r]
    | .select _ l r                  => if I.ty.isFloatType then [l, r] else []
    | .call _ args | .icall _ args   => args
    | .phi vs                        => vs.map Prod.fst
    | .ret v                         => v.toList
    | _                              => []

-- The values for which `createGEP` makes a temporary with a constant.
def consMap : Operand → Bool
  | .const t n =>
    t.isFloatType && F.insts.any fun (_, I) => I.constants.any fun
      | .const t' n' => t.isFloat == t'.isFloat && n == n'
      | _            => false
  | .inst s =>
    F.inst? s |>.any fun I =>
      match I.op with
      | .sitofp _ | .uitofp _ => true
      | .bitcast _            => I.ty.isFloatType
      | _                     => false
  | _ => false

-- The callees for which `handleCall` calls `handleCallInst`, if that does not return at once.
def isCallInst (g : String) : Bool :=
  !(startswith g "llvm.memcpy" || startswith g "llvm.memset" || g ∈ M.mathFunc ||
    startswith g "fpsan" ||
    g = "printf" || g ∈ M.libFuncList || startswith g "pull_print")

-- The calls that `handleMathLibFunc` replaces.
def isMathCall (g : String) : Bool :=
  !(startswith g "llvm.memcpy" || startswith g "llvm.memset") && g ∈ M.mathFunc

-- The instructions whose temporary is put into `MInsMap` when they are visited.
def mapped (I : Inst) : Bool :=
  match I.op with
  | .binary _ _ _ | .fneg _ => true
  | .load _                 =>
    I.ty.isFloatType && !(startswith I.name "my_load_val" || startswith I.name "my_load_idx_c")
  | .select _ l r           => (F.typeOf l).isFloatType || (F.typeOf r).isFloatType
  | .phi _ | .icall _ _     => I.ty.isFloatType
  | .call g _               => isMathCall M g || isCallInst M g && I.ty.isFloatType
  | _                       => false

-- `MInsMap` at the visit of the instruction at `t`.
def mInsMap (t : Site) : Operand → Bool
  | .inst s =>
    (s.block < t.block || s.block = t.block && s.idx < t.idx) && (F.inst? s |>.any (mapped M F))
  | _ => false

-- Whether the instruction at `t` finds the metadata of an operand.
def handleOperand (t : Site) (v : Operand) : Bool :=
  consMap F v || (F.typeOf v).isMPtrTy || mInsMap M F t v ||
  match v with
  | .arg _ | .undef _ => true
  | .inst s           => F.inst? s |>.any fun I =>
    match I.op with
    | .phi _                => I.ty.isFloatType
    | .fptrunc u | .fpext u => through u
    | _                     => false
  | _                 => false
where
  through (u : Operand) : Bool :=
    match u with
    | .inst s =>
      match F.inst? s |>.map Inst.op with
      | some (.fptrunc w) | some (.fpext w) => mInsMap M F t w
      | _                                   =>
        mInsMap M F t u || consMap F u || (F.typeOf u).isMPtrTy
    | u => consMap F u || (F.typeOf u).isMPtrTy

def Body.callee? (v : Operand) : Option String :=
  match v with
  | .inst s =>
    match F.inst? s |>.map Inst.op with
    | some (.call g _) => some g
    | _                => none
  | _ => none

-- The loads through which `handleMemset` finds an address.
def memsetLoad (s : Site) : Bool :=
  F.insts.any fun (_, I) =>
    match I.op with
    | .call g (dst :: _) => startswith g "llvm.memset" && dst.isInst s && toFloatPtr F dst
    | _                  => false

-- The clones that know the index of their buffer.
def indexed : Bool :=
  F.isSlice || !(startswith F.name "start_slice" || startswith F.name "end_slice")

-- The instructions of `AllInstList`, which `removeOldInst` deletes.
def handled : Site × Inst → Bool
  | (s, I) =>
    match I.op with
    | .fpext _ | .fneg _ | .binary _ _ _ | .sitofp _ | .uitofp _ | .ret _ => true
    | .bitcast _    => !startswith I.name "my_bitcast"
    | .load _       => mapped M F I || memsetLoad F s
    | .store _ p    => !(startswith (F.nameOf p) "my_" || startswith I.name "my_store_buf")
    | .select _ _ _ | .phi _ => mapped M F I
    | .fcmp l _     => !(F.callee? l |>.any (startswith · "fpsanx_pull_value"))
    | .call g _     =>
      startswith g "llvm.memcpy" || startswith g "llvm.memset" || isMathCall M g ||
      !startswith g "fpsan" && g = "printf" || isCallInst M g && M.cloned g
    | .icall _ _    => indexed F
    | _             => false

-- What a clone does to memory and what it calls. `index` is a store to a global of the
-- pass, `shadow` the call of a clone, `lookup` that of a clone by its address, and `write`
-- an access of the program.
inductive Effect
  | index (global : String)
  | call (callee : String)
  | shadow (callee : String)
  | lookup
  | write (ptr : Operand)
  | invoke (callee : Operand)

-- The code that a handler inserts.
namespace Emit

-- Whether the loads of the index in a block are followed by a comparison.
def splits (b : Nat) : Bool :=
  !(startswith F.name "start_slice" || startswith F.name "end_slice" ||
    startswith (F.blockName b) "update")

-- The code behind a load of the index, for the case that the buffer is used up.
def splitReadFromBuf (b : Nat) : List Effect :=
  if splits F b then
    [.index "my_consumer_queue_idx", .call "fpsanx_shadow_task_interim", .index "my_cur_idx_c"]
  else []

def readFromBuf (b : Nat) : List Effect :=
  .index "my_consumer_queue_idx" :: splitReadFromBuf F b

def temporary : List Effect :=
  [.call "fpsanx_init_mpfr", .call "fpsanx_clear_mpfr"]

def constant (v : Operand) : List Effect :=
  .call
    (if (F.typeOf v).isFloat then "fpsanx_store_tempmeta_fconst_val"
    else "fpsanx_store_tempmeta_dconst_val")
  :: temporary

def createGEP (I : Inst) : List Effect :=
  I.constants.flatMap (constant F) ++
  match I.op with
  | .binary _ _ _ | .fneg _ => temporary
  | .load _ | .call _ _ | .icall _ _ | .phi _ => if I.ty.isFloatType then temporary else []
  | .sitofp _ | .uitofp _   => converted I
  | .bitcast _              => if I.ty.isFloatType then converted I else []
  | _                       => []
where
  converted (I : Inst) : List Effect :=
    .call
      (if I.ty.isFloat then "fpsanx_store_tempmeta_fconst" else "fpsanx_store_tempmeta_dconst") ::
      temporary

def handleLoad (I : Inst) : List Effect :=
  if mapped M F I then
    [.call (if I.ty.isFloat then "fpsan_load_shadow_f" else "fpsan_load_shadow_d")] else []

def handleStore (x : Site × Inst) (v : Operand) : List Effect :=
  if handled M F x && ((F.typeOf v).isFloatType || (F.typeOf v).isMPtrTy) then
    if handleOperand M F x.fst v then [.call "fpsan_store_shadow"]
    else if (F.typeOf v).isFloat then [.call "fpsan_store_shadow_fconst"]
    else [.call "fpsan_store_shadow_dconst"]
  else []

def opName : BinaryOp → String
  | .fadd => "fadd"
  | .fsub => "fsub"
  | .fmul => "fmul"
  | .fdiv => "fdiv"

def handleBinOp (I : Inst) (op : BinaryOp) : List Effect :=
  [.call ("fpsan_mpfr_" ++ opName op ++ if I.ty.isFloat then "_f" else "")]

def handleFcmp (x : Site × Inst) (l : Operand) : List Effect :=
  if handled M F x then
    [.call
      (if (F.typeOf l).isFloat || (F.typeOf l).isMPtrTy then "fpsan_check_branch_f"
      else "fpsan_check_branch_d")]
  else []

-- The wrapper of a function of the math library.
def funcName (callName : String) (numOperands : Nat) : String :=
  (match callName with
   | "llvm.cos.f64"   => "fpsan_mpfr_llvm_cos_f64"
   | "llvm.fma.f64"   => "fpsan_mpfr_llvm_fma_f64"
   | "llvm.sin.f64"   => "fpsan_mpfr_llvm_sin_f64"
   | "llvm.ceil.f64"  => "fpsan_mpfr_llvm_ceil"
   | "llvm.floor.f64" => "fpsan_mpfr_llvm_floor_d"
   | "llvm.floor.f32" => "fpsan_mpfr_llvm_floor_f"
   | "llvm.fabs.f32"  => "fpsan_mpfr_llvm_fabs"
   | "llvm.fabs.f64"  => "fpsan_mpfr_llvm_fabs"
   | callName         => "fpsan_mpfr_" ++ callName) ++
  if numOperands > 1 then toString numOperands else ""

def handleCallInst (g : String) : List Effect :=
  if M.cloned g then
    if M.definition? g |>.any (·.isSlice) then [] else [.shadow g]
  else if g ∈ M.libFunc then [.call "fpsan_set_lib"]
  else []

def handleCall (g : String) (args : List Operand) : List Effect :=
  if startswith g "llvm.memcpy" then
    if (memcpy F args).isEmpty then [] else [.call "fpsan_handle_memcpy"]
  else if startswith g "llvm.memset" then
    if (memset F args).isEmpty then [] else [.call "fpsan_handle_memset"]
  else if g ∈ M.mathFunc then [.call (funcName g args.length)]
  else if isCallInst M g then handleCallInst M g
  else []

def handleReturn (v : Option Operand) : List Effect :=
  (if v.any (F.typeOf · |>.isFloatType) then
    [.call (if F.isSlice then "fpsan_check_error" else "fpsan_copy_return")]
   else []) ++
  if indexed F then [.call "fpsan_func_exit"] else []

def handleIns (x : Site × Inst) : List Effect :=
  match x.snd.op with
  | .fneg _        => [.call "fpsan_mpfr_fneg"]
  | .binary op _ _ => handleBinOp x.snd op
  | .load _        => handleLoad M F x.snd
  | .store v _     => handleStore M F x v
  | .fcmp l _      => handleFcmp M F x l
  | .phi _         => if x.snd.ty.isFloatType then [.call "fpsan_copy_phi"] else []
  | .call g args   => handleCall M F g args
  | .icall _ _     => if indexed F then [.call "fpsanx_get_clone_addr", .lookup] else []
  | .ret v         => handleReturn F v
  | _              => []

-- The entry of a clone. A shadow slice pulls its FP arguments.
def enter : List Effect :=
  [.call "fpsanx_get_buf_addr_c", .index "my_cur_idx_c"] ++ splitReadFromBuf F 0 ++
  (if F.isSlice then
    (F.params.filter (·.ty.isMPtrTy)).flatMap fun _ =>
      readFromBuf F 0 ++ .call "fpsanx_store_tempmeta_dconst_val" :: temporary
   else if indexed F then [.call "fpsanx_get_buf_idx_c"]
   else []) ++
  if indexed F then [.call "fpsan_func_init"] else []

end Emit

def emitted (x : Site × Inst) : List Effect :=
  ((reads M F x).flatMap fun _ => Emit.readFromBuf F x.fst.block) ++ Emit.createGEP F x.snd ++
    Emit.handleIns M F x

end Pass
