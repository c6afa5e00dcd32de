import PFPSanitizer.Pass.IR
import PFPSanitizer.Lib.Weave
import PFPSanitizer.Lib.Pairing

-- What the pass puts into a function and into its clone to send values from one to the other.
namespace Pass

inductive Role
  | argument
  | address
  | loaded
  | condition
  | size
  | converted
  | result
  | callee

-- A transfer of the value of an operand of the original function.
structure Send where
  role : Role
  val  : Operand

variable (M : Module) (F : Body)

-- The block `update` of a condition, in front of the terminator. The block is split behind the
-- conversion of the condition to double, so the pass stops with an error at a condition that folds
-- to a constant. No such function is ever instrumented.
def pushConditions : Site × Inst → List Send
  | (s, I) =>
    if startswith (F.blockName s.block) "update" then [] else
    match I.op with
    | .br (some c) | .switch c => [⟨.condition, c⟩]
    | _                        => []

-- This loop also stops at a condition that is no instruction, for which it tests `isa<FCmpInst>`.
def handleSelectProducer : Site × Inst → List Send
  | (s, I) =>
    if startswith (F.blockName s.block) "update" || startswith I.name "my_" then [] else
    match I.op with
    | .select c l _ => if (F.typeOf l).isFloatType then [⟨.condition, c⟩] else []
    | _             => []

-- The callees that the producer looks no further at.
def skipsCallee (g : String) : Bool :=
  startswith g "fpsan" || startswith g "printf" || startswith g "fprintf" ||
    startswith g "start_slice" ||
  startswith g "end_slice" || startswith g "puts" || startswith g "llvm.dbg."

-- The result of a call of a library function is pushed behind the call.
def handleCallInstProducer : Site × Inst → List Send
  | (s, I) =>
    if startswith (F.blockName s.block) "update" || startswith I.name "my_" then [] else
    match I.op with
    | .call g _ =>
      if skipsCallee g then []
      else if g ∈ M.libFuncList then []
      else if g ∈ M.libFunc && I.ty.isFloatType then [⟨.result, .inst s⟩]
      else []
    | _ => []

def handleICallInstProducer : Site × Inst → List Send
  | (s, I) =>
    if startswith (F.blockName s.block) "update" || startswith I.name "my_" ||
        startswith F.name "start_slice" || startswith F.name "end_slice" then [] else
    match I.op with
    | .icall f _ => [⟨.callee, f⟩]
    | _          => []

-- The conditions among the values of a list of sends.
def conditions (ss : List Send) : List Site :=
  ss.filterMap fun
    | ⟨.condition, .inst t⟩ => some t
    | _                     => none

-- The conditions that the producer sends at a branch, a switch or a select. The map has only
-- comparisons, which are the only ones that are looked up.
def fcmpMapPush : List Site :=
  conditions <| F.insts.flatMap fun x => pushConditions F x ++ handleSelectProducer F x

def handleFcmpProducer : Site × Inst → List Send
  | (s, I) =>
    match I.op with
    | .fcmp _ _ => if s ∈ fcmpMapPush F then [] else [⟨.condition, .inst s⟩]
    | _         => []

-- Whether the address that is set or copied to is one of FP values.
def toFloat (F : Body) (addr : Operand) : Bool :=
  match addr with
  | .inst s =>
    match F.inst? s |>.map Inst.op with
    | some (.bitcast v) => (F.typeOf v).isBitcastFromFP
    | _                 => false
  | _ => false

-- `handleMemset` also looks through a load.
def toFloatPtr (F : Body) (addr : Operand) : Bool :=
  match addr with
  | .inst s =>
    match F.inst? s |>.map Inst.op with
    | some (.load p) => toFloat F p
    | _              => false
  | _ => false

def memset (F : Body) : List Operand → List Send
  | dst :: _ :: size :: _ =>
    (if toFloat F dst then [⟨.address, dst⟩, ⟨.size, size⟩] else []) ++
    (if toFloatPtr F dst then [⟨.address, dst⟩, ⟨.size, size⟩] else [])
  | _ => []

def memcpy (F : Body) : List Operand → List Send
  | dst :: src :: size :: _ =>
    if toFloat F dst then [⟨.address, dst⟩, ⟨.address, src⟩, ⟨.size, size⟩] else []
  | _ => []

-- Whether an instruction still is in a block named like those of the pass. What is behind a
-- comparison that has been pushed is in another block by then.
def inUpdate (s : Site) : Bool :=
  startswith (F.blockName s.block) "update" &&
  (F.block s.block).all fun (t, I) => s.idx ≤ t.idx || (handleFcmpProducer F (t, I)).isEmpty

-- The values that the last loop of the producer pushes, behind the instruction.
def pushValues : Site × Inst → List Send
  | (s, I) =>
    if inUpdate F s || startswith I.name "my_" then [] else
    match I.op with
    | .bitcast _            => if I.ty.isFloatType then [⟨.converted, .inst s⟩] else []
    | .sitofp _ | .uitofp _ => [⟨.converted, .inst s⟩]
    | .call g args          =>
      (if startswith g "llvm.memset" then memset F args else []) ++
      (if startswith g "llvm.memcpy" then memcpy F args else [])
    | .load p    => if I.ty.isFloatType then [⟨.address, p⟩, ⟨.loaded, .inst s⟩] else []
    | .store v p =>
      if startswith (F.nameOf p) "my_" then []
      else if (F.typeOf v).isFloatType || (F.typeOf v).isMPtrTy then [⟨.address, p⟩]
      else []
    | _ => []

-- The instrumented function, one loop of the producer after the other.
def producer (b : Nat) : List (Weave.Item (Site × Inst) Send) :=
  Weave.code (F.block b)
  |> Weave.before (pushConditions F)
  |> Weave.after (fun x => handleSelectProducer F x ++ handleCallInstProducer M F x)
  |> Weave.before (handleICallInstProducer F)
  |> Weave.after (handleFcmpProducer F)
  |> Weave.after (pushValues F)

def pushesBefore (x : Site × Inst) : List Send :=
  pushConditions F x ++ handleICallInstProducer F x

def pushesAfter (x : Site × Inst) : List Send :=
  pushValues F x ++
    (handleFcmpProducer F x ++ (handleSelectProducer F x ++ handleCallInstProducer M F x))

def pushes (x : Site × Inst) : List Send :=
  pushesBefore F x ++ pushesAfter M F x

theorem ops_producer (b : Nat) : Weave.ops (producer M F b) = (F.block b).flatMap (pushes M F) := by
  simp only [producer, Weave.before, Weave.after, Weave.weave_weave_code, Weave.ops_weave_code]
  exact List.flatMap_congr fun _ _ => by simp [pushes, pushesBefore, pushesAfter]

-- The functions in which `handleBranch` and `RemoveEveryThingButFloat` do nothing.
def skipped : Bool :=
  startswith F.name "start_slice" || startswith F.name "end_slice" || startswith F.name "fpsan"

-- The reads of the clone. They stand for the operands of the original function that the values read
-- are taken to be.
def handleBranch : Site × Inst → List Send
  | (_, I) =>
    if skipped F then [] else
    match I.op with
    | .br (some c) | .switch c => [⟨.condition, c⟩]
    | _                        => []

def createGEP : Site × Inst → List Send
  | (s, I) =>
    match I.op with
    | .sitofp _ | .uitofp _ => [⟨.converted, .inst s⟩]
    | .bitcast _            => if I.ty.isFloatType then [⟨.converted, .inst s⟩] else []
    | _                     => []

def handleLoad : Site × Inst → List Send
  | (s, I) =>
    match I.op with
    | .load p =>
      if startswith I.name "my_load_val" || startswith I.name "my_load_idx_c" then []
      else if I.ty.isFloatType then [⟨.address, p⟩, ⟨.loaded, .inst s⟩]
      else []
    | _ => []

def handleStore : Site × Inst → List Send
  | (_, I) =>
    match I.op with
    | .store v p =>
      if startswith (F.nameOf p) "my_" || startswith I.name "my_store_buf" then []
      else if (F.typeOf v).isFloatType || (F.typeOf v).isMPtrTy then [⟨.address, p⟩]
      else []
    | _ => []

def handleSelect : Site × Inst → List Send
  | (_, I) =>
    match I.op with
    | .select c l r =>
      if (F.typeOf l).isFloatType || (F.typeOf r).isFloatType then [⟨.condition, c⟩] else []
    | _ => []

def handleCallInst : Site × Inst → List Send
  | (s, I) =>
    match I.op with
    | .call g _ =>
      if g ∈ M.libFuncList || startswith g "pull_print" || M.cloned g then []
      else if g ∈ M.libFunc && I.ty.isFloatType then [⟨.result, .inst s⟩]
      else []
    | _ => []

def handleCall : Site × Inst → List Send
  | (s, I) =>
    match I.op with
    | .call g args =>
      if startswith g "llvm.memcpy" then memcpy F args
      else if startswith g "llvm.memset" then memset F args
      else if g ∈ M.mathFunc || startswith g "fpsan" || g = "printf" then []
      else handleCallInst M (s, I)
    | .icall f _ => [⟨.callee, f⟩]
    | _          => []

def handleIns (x : Site × Inst) : List Send :=
  handleLoad x ++ handleStore F x ++ handleSelect F x ++ handleCall M F x

-- The comparisons whose result the clone has read at a branch, a switch or a select.
def fcmpMap : List Site :=
  conditions <| F.insts.flatMap fun x => handleBranch F x ++ handleSelect F x

def handleFcmp : Site × Inst → List Send
  | (s, I) =>
    match I.op with
    | .fcmp _ _ => if s ∈ fcmpMap F then [] else [⟨.condition, .inst s⟩]
    | _         => []

def consumer (b : Nat) : List (Weave.Item (Site × Inst) Send) :=
  Weave.code (F.block b)
  |> Weave.before (handleBranch F)
  |> Weave.before createGEP
  |> Weave.before (handleIns M F)
  |> Weave.after (handleFcmp F)

def reads (x : Site × Inst) : List Send :=
  handleBranch F x ++ createGEP x ++ handleIns M F x ++ handleFcmp F x

theorem ops_consumer (b : Nat) : Weave.ops (consumer M F b) = (F.block b).flatMap (reads M F) := by
  simp only [consumer, Weave.before, Weave.after, Weave.weave_weave_code, Weave.ops_weave_code]
  exact List.flatMap_congr fun _ _ => by simp [reads]

-- Whether a value is pushed or read at an instruction, by the tests of the handlers.
def setsFloats : List Operand → Bool
  | dst :: _ :: _ :: _ => toFloat F dst || toFloatPtr F dst
  | _                  => false

def copiesFloats : List Operand → Bool
  | dst :: _ :: _ :: _ => toFloat F dst
  | _                  => false

def sends : Site × Inst → Bool
  | (s, I) =>
    let update    := startswith (F.blockName s.block) "update"
    let skip      := update || startswith I.name "my_"
    let skipValue := inUpdate F s || startswith I.name "my_"
    match I.op with
    | .load _ | .bitcast _     => I.ty.isFloatType && !skipValue
    | .sitofp _ | .uitofp _    => !skipValue
    | .store v p               =>
      ((F.typeOf v).isFloatType || (F.typeOf v).isMPtrTy) &&
        !(skipValue || startswith (F.nameOf p) "my_")
    | .fcmp _ _                => s ∉ fcmpMapPush F
    | .select _ l _            => (F.typeOf l).isFloatType && !skip
    | .br (some _) | .switch _ => !update
    | .call g args             =>
      startswith g "llvm.memset" && setsFloats F args && !skipValue ||
      startswith g "llvm.memcpy" && copiesFloats F args && !skipValue ||
      !skip && !skipsCallee g && g ∉ M.libFuncList && g ∈ M.libFunc && I.ty.isFloatType
    | .icall _ _               =>
      !(skip || startswith F.name "start_slice" || startswith F.name "end_slice")
    | _                        => false

def receives : Site × Inst → Bool
  | (s, I) =>
    match I.op with
    | .load _                  =>
      I.ty.isFloatType && !(startswith I.name "my_load_val" || startswith I.name "my_load_idx_c")
    | .store v p               =>
      ((F.typeOf v).isFloatType || (F.typeOf v).isMPtrTy) &&
      !(startswith (F.nameOf p) "my_" || startswith I.name "my_store_buf")
    | .bitcast _               => I.ty.isFloatType
    | .sitofp _ | .uitofp _    => true
    | .icall _ _               => true
    | .select _ l r            => (F.typeOf l).isFloatType || (F.typeOf r).isFloatType
    | .br (some _) | .switch _ => !skipped F
    | .fcmp _ _                => s ∉ fcmpMap F
    | .call g args             =>
      if startswith g "llvm.memcpy" then copiesFloats F args
      else if startswith g "llvm.memset" then setsFloats F args
      else
        !(g ∈ M.mathFunc || startswith g "fpsan" || g = "printf") &&
        !(g ∈ M.libFuncList || startswith g "pull_print" || M.cloned g) && g ∈ M.libFunc &&
          I.ty.isFloatType
    | _                        => false

-- The operations that are pushed in front of the instruction, and only there.
def Op.sendsFirst : Op → Bool
  | .br (some _) | .switch _ | .icall _ _ => true
  | _                                     => false

-- Whether an instruction is in the part of its block in front of the first value that is pushed
-- there. The block is split where a value is pushed.
def inHead (s : Site) : Bool :=
  (F.block s.block).all fun (t, I) =>
    !sends M F (t, I) || s.idx < t.idx || s.idx = t.idx && !I.op.sendsFirst

variable {M F}

theorem memset_eq_nil {args : List Operand} : memset F args = [] ↔ setsFloats F args = false := by
  rw [memset.eq_def, setsFloats.eq_def]
  split <;> simp

theorem memcpy_eq_nil {args : List Operand} : memcpy F args = [] ↔ copiesFloats F args = false := by
  rw [memcpy.eq_def, copiesFloats.eq_def]
  split <;> simp

-- The tests are those of the handlers.
theorem pushes_eq_nil {x : Site × Inst} : pushes M F x = [] ↔ sends M F x = false := by
  obtain ⟨s, n, ty, op⟩ := x
  simp only [pushes, pushesBefore, pushesAfter, pushConditions, handleSelectProducer,
    handleCallInstProducer, handleICallInstProducer, handleFcmpProducer, pushValues, sends]
  cases op with
  | br c => cases c <;> simp
  | call g args =>
    simp [memset_eq_nil, memcpy_eq_nil]
    grind
  | _    => simp <;> grind

theorem reads_eq_nil {x : Site × Inst} : reads M F x = [] ↔ receives M F x = false := by
  obtain ⟨s, n, ty, op⟩ := x
  simp only [reads, handleBranch, createGEP, handleIns, handleLoad, handleStore, handleSelect,
    handleCall, handleFcmp, handleCallInst, receives]
  cases op with
  | call g args =>
    by_cases hc : startswith g "llvm.memcpy"
    case pos => simp [hc, memcpy_eq_nil]
    case neg =>
      by_cases hs : startswith g "llvm.memset"
      case pos => simp [hc, hs, memset_eq_nil]
      case neg => simp [hc, hs]
  | br c => cases c <;> simp
  | _    => simp <;> grind

end Pass
