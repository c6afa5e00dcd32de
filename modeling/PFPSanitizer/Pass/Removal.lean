import PFPSanitizer.Pass.Shadow

-- What is left of a clone, and whether it can touch the memory of the program.
namespace Pass

def named (ps : List String) (name : String) : Bool :=
  ps.any (startswith name)

-- The names that `RemoveEveryThingButFloat` takes for those of the pass.
def keptNames : List String :=
  ["my_gep", "my_load_idx_c", "my_si_fp", "my_trunc", "my_gep_buf_c", "my_load_val_c",
    "my_store_idx_c",
   "my_incr_idx_c", "my_alloca", "my_func", "my_bitcast", "arg_alloca", "my_phi", "my_phi_c",
   "my_select"]

-- The same for values that are not FP, as long as they are used.
def keptUsedNames : List String :=
  ["my_gep", "my_load_idx_c", "my_si_fp", "my_gep_buf_c", "my_load_val_c", "my_store_idx",
    "my_incr_idx",
   "my_alloca", "my_func", "my_bitcast", "arg_alloca", "my_phi", "my_phi_c", "my_select"]

section Removal

variable (M : Module) (F : Body)

def isHandled : Operand → Bool
  | .inst s => F.inst? s |>.any fun I => handled M F (s, I)
  | _       => false

-- The name of an operand after `removeOldInst`.
def nameLeft (v : Operand) : String :=
  if isHandled M F v then "" else F.nameOf v

-- Whether the code that stands for an instruction after `removeOldInst` uses the result of the
-- instruction at `s`. The conditions of terminators are read from the buffer.
def isUse (s : Site) : Site × Inst → Bool
  | (t, I) =>
    if handled M F (t, I) then
      match I.op with
      | .store v _             => v.isInst s && (F.typeOf v).isFloatType && !handleOperand M F t v
      | .call g args@(_ :: v :: _) =>
        startswith g "llvm.memset" && !(memset F args).isEmpty && v.isInst s
      | _                      => false
    else
      match I.op with
      | .br _ | .switch _ => false
      | op                => op.operands.any (Operand.isInst s)

def isUsed (s : Site) : Bool :=
  F.insts.any (isUse M F s)

def keepsCall (g : String) : Bool :=
  startswith g "pull_print" || startswith g "fpsan" || startswith g "end_slice" ||
    startswith g "start_slice"

-- The instructions that `RemoveEveryThingButFloat` does not delete.
def kept : Site × Inst → Bool
  | (s, I) =>
    skipped F || named keptNames I.name ||
    match I.op with
    | .store _ p => startswith (nameLeft M F p) "my_"
    | .call g _  => keepsCall g
    | .icall _ _ => true
    | op         =>
      op.isTerminator || isUsed M F s && (I.ty.isFloatType || named keptUsedNames I.name)

-- What an instruction of the program does.
def Inst.effects (I : Inst) : List Effect :=
  match I.op with
  | .store _ p | .atomic p _ | .vaArg p => [.write p]
  | .call g _                           => [.call g]
  | .icall f _ | .invoke f _            => [.invoke f]
  | _                                   => []

-- The callee that the last loop over the calls of a clone leaves.
def target (g : String) : String :=
  if startswith g "start_slice" then "fpsan_shadow_slice_start"
  else if startswith g "end_slice" then "fpsan_shadow_slice_end"
  else g

def finish : Effect → List Effect
  | .call g   =>
    if startswith g "end_slice" then [.call (target g), .index "my_consumer_queue_idx"]
      else [.call (target g)]
  | .shadow g =>
    if startswith g "end_slice" then [.call (target g), .index "my_consumer_queue_idx"]
    else if startswith g "start_slice" then [.call (target g)]
    else [.shadow g]
  | e         => [e]

-- The instructions of the program that are left.
def survives (x : Site × Inst) : Bool :=
  !handled M F x && kept M F x

def survivors : List Effect :=
  (F.insts.filter (survives M F)).flatMap (·.snd.effects)

-- The code of the pass. It has the names that are kept.
def inserted : List Effect :=
  Emit.enter F ++ F.insts.flatMap (emitted M F)

def effects : List Effect :=
  (inserted M F ++ survivors M F).flatMap finish

end Removal

-- The functions that the runtime defines under their names in C.
def runtimeFunctions : List String :=
  ["fpsan_fpcore", "fpsan_get_fpcore", "fpsan_trace", "fpsan_check_branch",
   "fpsan_check_conversion", "fpsan_check_error", "fpsan_check_error_f", "fpsan_check_error_d",
   "fpsanx_print_index", "fpsanx_print_slice_flag", "pull_print", "fpsanx_push_print",
   "fpsanx_get_buf_addr", "fpsanx_get_buf_addr_c", "fpsanx_get_buf_idx_c", "fpsan_slice_end",
   "fpsanx_slice_end_interim", "fpsanx_shadow_task_interim", "dummy", "fpsanx_get_clone_addr",
   "fpsan_shadow_slice_end", "fpsan_slice_start", "fpsan_shadow_slice_start", "fpsan_finish",
   "fpsan_init", "fpsanx_init_mpfr_all", "fpsanx_init_mpfr", "fpsanx_clear_mpfr_all",
   "fpsanx_clear_mpfr", "fpsan_set_lib", "fpsanx_store_tempmeta_fconst",
   "fpsanx_store_tempmeta_dconst", "fpsanx_store_tempmeta_fconst_val",
   "fpsanx_store_tempmeta_dconst_val", "m_store_tempmeta_dconst", "fpsan_handle_memset",
   "fpsan_handle_memcpy", "fpsanx_get_real", "fpsan_print_real", "fpsan_store_shadow_fconst",
   "fpsan_store_shadow_dconst", "fpsan_copy_return", "fpsan_copy_phi", "fpsan_store_shadow",
   "fpsan_load_shadow_f", "fpsan_load_shadow_d", "fpsan_mpfr_fadd_f", "fpsan_mpfr_fsub_f",
   "fpsan_mpfr_fmul_f", "fpsan_mpfr_fdiv_f", "fpsan_mpfr_fneg", "fpsan_mpfr_fadd",
   "fpsan_mpfr_fsub", "fpsan_mpfr_fmul", "fpsan_mpfr_fdiv", "fpsan_check_branch_f",
   "fpsan_check_branch_d", "fpsan_func_init", "fpsan_func_exit", "fpsan_get_error",
   "fpsan_mpfr_sqrt", "fpsan_mpfr_cbrt", "fpsan_mpfr_sqrtf", "fpsan_mpfr_floor", "fpsan_mpfr_tanh",
   "fpsan_mpfr_tan", "fpsan_mpfr_acos", "fpsan_mpfr_cosh", "fpsan_mpfr_cos", "fpsan_mpfr_cosf",
   "fpsan_mpfr_llvm_fma_f643", "fpsan_mpfr_llvm_cos_f64", "fpsan_mpfr_atan",
   "fpsan_mpfr_llvm_ceil", "fpsan_mpfr_llvm_floor_d", "fpsan_mpfr_llvm_floor_f", "fpsan_mpfr_exp",
   "fpsan_mpfr_expf", "fpsan_mpfr_ldexp2", "fpsan_mpfr_fmod2", "fpsan_mpfr_atan22",
   "fpsan_mpfr_hypot2", "fpsan_mpfr_pow2", "fpsan_mpfr_llvm_fabs", "fpsan_mpfr_abs",
   "fpsan_mpfr_log10", "fpsan_mpfr_log", "fpsan_mpfr_sinh", "fpsan_mpfr_sin", "fpsan_mpfr_sinf",
   "fpsan_mpfr_llvm_sin_f64", "fpsan_mpfr_asin"]

-- A call of `g` goes to the runtime, unless the module has a function of that name.
def Module.isRuntime (M : Module) (g : String) : Bool :=
  g ∈ runtimeFunctions && (M.definition? g).isNone

-- Whether an effect is confined to what the tool owns.
def Effect.Owned (M : Module) : Effect → Prop
  | .index _ | .lookup  => True
  | .call g             => M.isRuntime g
  | .shadow g           => M.cloned g
  | .write _ | .invoke _ => False

def Module.clones (M : Module) : List Function :=
  M.functions.filter (M.cloned ·.name)

-- What the executions of a clone do, without regard to its branches. An address is looked up in the
-- map of the clones.
inductive Run (M : Module) : Function → List Effect → Prop
  | done : Run M F []
  | step : e ∈ effects M (cloneFunction F.toBody) → Run M F es → Run M F (e :: es)
  | call : .shadow g ∈ effects M (cloneFunction F.toBody) → M.definition? g = some G →
           Run M G gs → Run M F es → Run M F (.shadow g :: (gs ++ es))
  | lookup : .lookup ∈ effects M (cloneFunction F.toBody) → G ∈ M.clones →
             Run M G gs → Run M F es → Run M F (.lookup :: (gs ++ es))

-- The instructions of the program that survive and reach what the tool does not own: stores through
-- pointers with a name of the pass, accesses whose own name is one of the pass or whose result is
-- used, and calls that are neither replaced nor go to the runtime.
def Harmful (M : Module) (F : Function) : Site × Inst → Prop
  | (s, I) =>
    let C := cloneFunction F.toBody
    match I.op with
    | .store _ p => startswith (C.nameOf p) "my_" ∧ (skipped C ∨ isHandled M C p = false)
    | .atomic _ _ | .vaArg _ =>
      skipped C ∨ named keptNames I.name ∨ isUsed M C s ∧
        (I.ty.isFloatType ∨ named keptUsedNames I.name)
    | .call g _ =>
      handled M C (s, I) = false ∧ (skipped C ∨ named keptNames I.name ∨ keepsCall g) ∧
        M.isRuntime (target g) = false
    | .icall _ _  => indexed C = false
    | .invoke _ _ => True
    | _           => False

-- The functions that the clone calls in the code of the pass are those of the runtime: the wrapper
-- of each function of the math library exists, and the module defines none of them itself.
structure Linked (M : Module) (F : Function) : Prop where
  wrapped   : ∀ x ∈ F.insts, ∀ g args, x.snd.op = .call g args → isMathCall M g →
              Emit.funcName g args.length ∈ runtimeFunctions
  undefined : ∀ g, .call g ∈ (inserted M (cloneFunction F.toBody)).flatMap finish →
    M.definition? g = none

variable {M : Module} {F : Function}

theorem mem_clones : F ∈ M.clones ↔ F ∈ M.functions ∧ M.cloned F.name := by
  simp [Module.clones]

theorem mem_clones_of_definition? {g : String} (h : M.definition? g = some F) (hc : M.cloned g) :
    F ∈ M.clones := by
  have hn : F.name = g := by simpa using List.find?_some h
  exact mem_clones.mpr ⟨List.mem_of_find?_eq_some h, hn ▸ hc⟩

-- The wrapper of a function of the math library that a clone calls.
def Wraps (M : Module) (C : Body) (g : String) : Prop :=
  ∃ x ∈ C.insts, ∃ f args, x.snd.op = .call f args ∧ isMathCall M f ∧
    g = Emit.funcName f args.length

-- Every call that a handler inserts goes to a clone, to such a wrapper or to the runtime.
def Effect.Inserted (M : Module) (C : Body) : Effect → Prop
  | .index _ | .lookup   => True
  | .call g              => g ∈ runtimeFunctions ∨ Wraps M C g
  | .shadow g            => M.cloned g
  | .write _ | .invoke _ => False

section Inserted

variable {C : Body} {x : Site × Inst}

theorem inserted_call {g : String} (h : g ∈ runtimeFunctions) : (Effect.call g).Inserted M C :=
  .inl h

theorem inserted_call_singleton {g : String} (h : g ∈ runtimeFunctions) :
    ∀ e ∈ [Effect.call g], e.Inserted M C :=
  List.forall_mem_singleton.mpr (inserted_call h)

-- Both names of a choice are those of runtime functions.
theorem inserted_call_ite {c : Prop} [Decidable c] {g g' : String} (h : g ∈ runtimeFunctions)
    (h' : g' ∈ runtimeFunctions) : (Effect.call (if c then g else g')).Inserted M C := by
  split
  · exact .inl h
  · exact .inl h'

theorem inserted_ite_nil {c : Prop} [Decidable c] {l : List Effect} (h : ∀ e ∈ l, e.Inserted M C) :
    ∀ e ∈ if c then l else [], e.Inserted M C := by
  split
  · exact h
  · exact List.forall_mem_nil _

theorem inserted_temporary : ∀ e ∈ Emit.temporary, e.Inserted M C :=
  List.forall_mem_cons.mpr ⟨inserted_call (by decide), inserted_call_singleton (by decide)⟩

theorem inserted_splitReadFromBuf {b : Nat} : ∀ e ∈ Emit.splitReadFromBuf C b, e.Inserted M C := by
  refine inserted_ite_nil <| List.forall_mem_cons.mpr ⟨trivial, List.forall_mem_cons.mpr ⟨?_, ?_⟩⟩
  · exact inserted_call (by decide)
  · exact List.forall_mem_singleton.mpr trivial

theorem inserted_readFromBuf {b : Nat} : ∀ e ∈ Emit.readFromBuf C b, e.Inserted M C :=
  List.forall_mem_cons.mpr ⟨trivial, inserted_splitReadFromBuf⟩

theorem inserted_createGEP (I : Inst) : ∀ e ∈ Emit.createGEP C I, e.Inserted M C := by
  have hc : ∀ e ∈ Emit.createGEP.converted I, e.Inserted M C :=
    List.forall_mem_cons.mpr ⟨inserted_call_ite (by decide) (by decide), inserted_temporary⟩
  have ht : ∀ e ∈ if I.ty.isFloatType then Emit.temporary else [], e.Inserted M C :=
    inserted_ite_nil inserted_temporary
  refine List.forall_mem_append.mpr ⟨List.forall_mem_flatMap.mpr fun v _ => ?_, ?_⟩
  · exact List.forall_mem_cons.mpr ⟨inserted_call_ite (by decide) (by decide), inserted_temporary⟩
  · split
    · exact inserted_temporary
    · exact inserted_temporary
    · exact ht
    · exact ht
    · exact ht
    · exact ht
    · exact hc
    · exact hc
    · exact inserted_ite_nil hc
    · exact List.forall_mem_nil _

theorem inserted_handleCall (hx : x ∈ C.insts) {g : String} {args : List Operand}
    (ho : x.snd.op = .call g args) :
    ∀ e ∈ Emit.handleCall M C g args, e.Inserted M C := by
  rw [Emit.handleCall]
  split
  · split
    · exact List.forall_mem_nil _
    · exact inserted_call_singleton (by decide)
  split
  · split
    · exact List.forall_mem_nil _
    · exact inserted_call_singleton (by decide)
  split
  case isTrue hm =>
    have hw : isMathCall M g := by simp_all [isMathCall]
    exact List.forall_mem_singleton.mpr (.inr ⟨x, hx, g, args, ho, hw, rfl⟩)
  split
  · rw [Emit.handleCallInst]
    split
    case isTrue hc =>
      split
      · exact List.forall_mem_nil _
      · exact List.forall_mem_singleton.mpr hc
    case isFalse => exact inserted_ite_nil (inserted_call_singleton (by decide))
  · exact List.forall_mem_nil _

theorem inserted_handleReturn (v : Option Operand) :
    ∀ e ∈ Emit.handleReturn C v, e.Inserted M C := by
  refine List.forall_mem_append.mpr ⟨?_, ?_⟩
  · split
    · exact List.forall_mem_singleton.mpr (inserted_call_ite (by decide) (by decide))
    · exact List.forall_mem_nil _
  · exact inserted_ite_nil (inserted_call_singleton (by decide))

theorem inserted_handleStore (x : Site × Inst) (v : Operand) :
    ∀ e ∈ Emit.handleStore M C x v, e.Inserted M C := by
  rw [Emit.handleStore]
  split
  · split
    · exact inserted_call_singleton (by decide)
    split
    · exact inserted_call_singleton (by decide)
    · exact inserted_call_singleton (by decide)
  · exact List.forall_mem_nil _

theorem inserted_handleBinOp (I : Inst) (op : BinaryOp) :
    ∀ e ∈ Emit.handleBinOp I op, e.Inserted M C := by
  rw [Emit.handleBinOp]
  refine inserted_call_singleton ?_
  cases op <;> split <;> decide

theorem inserted_handleIns (hx : x ∈ C.insts) : ∀ e ∈ Emit.handleIns M C x, e.Inserted M C := by
  obtain ⟨s, name, ty, op⟩ := x
  cases op with
  | fneg v => exact inserted_call_singleton (by decide)
  | binary op l r => exact inserted_handleBinOp _ op
  | load p =>
    simp only [Emit.handleIns, Emit.handleLoad]
    exact inserted_ite_nil
      (List.forall_mem_singleton.mpr (inserted_call_ite (by decide) (by decide)))
  | store v p => exact inserted_handleStore _ v
  | fcmp l r =>
    simp only [Emit.handleIns, Emit.handleFcmp]
    exact inserted_ite_nil
      (List.forall_mem_singleton.mpr (inserted_call_ite (by decide) (by decide)))
  | phi vs =>
    simp only [Emit.handleIns]
    exact inserted_ite_nil (inserted_call_singleton (by decide))
  | call g args => exact inserted_handleCall hx rfl
  | icall f args =>
    simp only [Emit.handleIns]
    exact inserted_ite_nil
      (List.forall_mem_cons.mpr ⟨inserted_call (by decide), List.forall_mem_singleton.mpr trivial⟩)
  | ret v => exact inserted_handleReturn v
  | _     => exact List.forall_mem_nil _

theorem inserted_emitted (hx : x ∈ C.insts) : ∀ e ∈ emitted M C x, e.Inserted M C :=
  List.forall_mem_append.mpr ⟨List.forall_mem_append.mpr
    ⟨List.forall_mem_flatMap.mpr fun _ _ => inserted_readFromBuf, inserted_createGEP x.snd⟩,
    inserted_handleIns hx⟩

theorem inserted_enter : ∀ e ∈ Emit.enter C, e.Inserted M C := by
  refine List.forall_mem_append.mpr
    ⟨List.forall_mem_append.mpr ⟨List.forall_mem_append.mpr ⟨?_, ?_⟩, ?_⟩, ?_⟩
  · exact List.forall_mem_cons.mpr
      ⟨inserted_call (by decide), List.forall_mem_singleton.mpr trivial⟩
  · exact inserted_splitReadFromBuf
  · split
    · refine List.forall_mem_flatMap.mpr fun _ _ =>
        List.forall_mem_append.mpr ⟨inserted_readFromBuf, ?_⟩
      exact List.forall_mem_cons.mpr ⟨inserted_call (by decide), inserted_temporary⟩
    exact inserted_ite_nil (inserted_call_singleton (by decide))
  · exact inserted_ite_nil (inserted_call_singleton (by decide))

theorem inserted_of_mem : ∀ e ∈ inserted M C, e.Inserted M C :=
  List.forall_mem_append.mpr ⟨inserted_enter, List.forall_mem_flatMap.mpr fun _ hx =>
    inserted_emitted hx⟩

theorem startswith_funcName (g : String) (n : Nat) :
    startswith (Emit.funcName g n) "fpsan_mpfr_" := by
  refine startswith_append _ ?_
  split
  case h_9 => exact startswith_append _ (by decide)
  all_goals decide

-- The last loop over the calls of a clone leaves those of the pass alone.
theorem finish_call {g : String} (h : g ∈ runtimeFunctions ∨ Wraps M C g) :
    finish (.call g) = [.call g] := by
  have hs : startswith g "start_slice" = false ∧ startswith g "end_slice" = false := by
    obtain hg | ⟨-, -, f, args, -, -, rfl⟩ := h
    · exact (by
        decide : ∀ g ∈ runtimeFunctions, startswith g "start_slice" = false ∧
        startswith g "end_slice" = false) g hg
    · have hp := startswith_funcName f args.length
      refine ⟨not_startswith (by decide) (by decide) hp, ?_⟩
      exact not_startswith (p := "fpsan_mpf") (by decide) (by decide)
        (startswith_of_append (q := "r_") hp)
  simp [finish, target, hs]

theorem isRuntime_target {g : String} (h : startswith g "end_slice" ∨ startswith g "start_slice") :
    M.isRuntime (target g) ↔ M.definition? (target g) = none := by
  have hm : target g ∈ runtimeFunctions := by
    rw [target]
    split
    · decide
    · rw [if_pos (by simp_all)]
      decide
  simp [Module.isRuntime, hm]

-- The code of the pass is owned as long as its calls reach the runtime.
theorem owned_iff_of_inserted {e : Effect} (h : e.Inserted M C) :
    (∀ e' ∈ finish e, e'.Owned M) ↔
    (∀ g, e = .call g → g ∈ runtimeFunctions) ∧ ∀ g, .call g ∈ finish e →
    M.definition? g = none := by
  cases e with
  | index | lookup   => simp [finish, Effect.Owned]
  | write | invoke   => cases h
  | call g           => simp [finish_call h, Effect.Owned, Module.isRuntime]
  | shadow g =>
    rw [finish]
    split
    case isTrue he => simp [isRuntime_target (.inl he), Effect.Owned]
    split
    case isTrue hs => simp [isRuntime_target (.inr hs), Effect.Owned]
    case isFalse   => simpa [Effect.Owned] using show M.cloned g = true from h

end Inserted

@[simp]
theorem finish_write (p : Operand) : finish (.write p) = [.write p] := rfl

@[simp]
theorem finish_invoke (f : Operand) : finish (.invoke f) = [.invoke f] := rfl

theorem owned_finish_call {g : String} :
    (∀ e ∈ finish (.call g), e.Owned M) ↔ M.isRuntime (target g) := by
  rw [finish]
  split <;> simp [Effect.Owned]

-- What is left of an instruction of the program is owned if and only if the instruction is not
-- harmful.
theorem owned_iff_not_harmful {x : Site × Inst} (hx : x ∈ F.insts) :
    (survives M (cloneFunction F.toBody) x → ∀ e ∈ x.snd.effects, ∀ e' ∈ finish e, e'.Owned M) ↔
    ¬Harmful M F x := by
  have hn := F.unnamed x hx
  obtain ⟨s, name, ty, op⟩ := x
  cases op with
  | store v p =>
    have hn : name = "" := hn v p rfl
    have h₁ : startswith "" "my_store_buf" = false := by decide
    have h₂ : named keptNames "" = false := by decide
    have h₃ : startswith "" "my_" = false := by decide
    subst hn
    simp only [survives, handled, kept, nameLeft, Harmful, Inst.effects, h₁, h₂]
    cases isHandled M (cloneFunction F.toBody) p <;>
      cases hp : startswith ((cloneFunction F.toBody).nameOf p) "my_" <;>
        simp [Effect.Owned, h₃, hp]
  | atomic p vs =>
    simp [survives, handled, kept, Harmful, Inst.effects, Effect.Owned, Op.isTerminator, or_assoc]
  | vaArg p     =>
    simp [survives, handled, kept, Harmful, Inst.effects, Effect.Owned, Op.isTerminator, or_assoc]
  | call g args =>
    simp only [survives, kept, Harmful, Inst.effects, List.forall_mem_singleton, owned_finish_call]
    simp [or_assoc]
  | icall f args => simp [survives, handled, kept, Harmful, Inst.effects, Effect.Owned]
  | invoke f args =>
    simp [survives, handled, kept, Harmful, Inst.effects, Effect.Owned, Op.isTerminator]
  | _ => simp [Harmful, Inst.effects]

-- The wrapper of a listed function is called for each call of it.
theorem call_funcName_mem_inserted {x : Site × Inst} (hx : x ∈ F.insts) {g : String}
    {args : List Operand} (ho : x.snd.op = .call g args) (hm : isMathCall M g) :
    .call (Emit.funcName g args.length) ∈ inserted M (cloneFunction F.toBody) := by
  have he : Effect.call (Emit.funcName g args.length) ∈ Emit.handleIns M
      (cloneFunction F.toBody) x := by
    simp_all [Emit.handleIns, Emit.handleCall, isMathCall]
  exact List.mem_append_right _ (List.mem_flatMap.mpr ⟨x, hx, List.mem_append_right _ he⟩)

theorem owned_inserted_iff :
    (∀ e ∈ inserted M (cloneFunction F.toBody), ∀ e' ∈ finish e, e'.Owned M) ↔ Linked M F := by
  constructor
  · intro h
    have h := fun e he => (owned_iff_of_inserted (inserted_of_mem e he)).mp (h e he)
    constructor
    case wrapped   =>
      exact fun x hx g args ho hm => (h _ (call_funcName_mem_inserted hx ho hm)).left _ rfl
    case undefined =>
      intro g hg
      obtain ⟨e, he, hg⟩ := List.mem_flatMap.mp hg
      exact (h e he).right g hg
  · intro h e he
    refine (owned_iff_of_inserted (inserted_of_mem e he)).mpr ⟨fun g hg => ?_, fun g hg => ?_⟩
    · obtain hr | ⟨x, hx, f, args, ho, hm, rfl⟩ := hg ▸ inserted_of_mem e he
      · exact hr
      · exact h.wrapped x hx f args ho hm
    · exact h.undefined g (List.mem_flatMap.mpr ⟨e, he, hg⟩)

theorem owned_effects_iff :
    (∀ e ∈ effects M (cloneFunction F.toBody), e.Owned M) ↔
    (∀ x ∈ F.insts, ¬Harmful M F x) ∧ Linked M F := by
  have hi := owned_inserted_iff (M := M) (F := F)
  have hs : (∀ e ∈ survivors M (cloneFunction F.toBody), ∀ e' ∈ finish e, e'.Owned M) ↔
      ∀ x ∈ F.insts, ¬Harmful M F x := by
    simp only [survivors, List.forall_mem_flatMap, List.mem_filter, insts_cloneFunction]
    constructor
    · exact fun h x hx => (owned_iff_not_harmful hx).mp fun hs => h x ⟨hx, hs⟩
    · exact fun h x ⟨hx, hs⟩ => (owned_iff_not_harmful hx).mpr (h x hx) hs
  rw [effects, List.forall_mem_flatMap, List.forall_mem_append, hi, hs, and_comm]

-- The effects of a run are those of the clones that it goes through.
theorem owned_of_run (h : ∀ G ∈ M.clones, ∀ e ∈ effects M (cloneFunction G.toBody), e.Owned M)
    (hF : F ∈ M.clones) {es : List Effect} (hr : Run M F es) : ∀ e ∈ es, e.Owned M := by
  induction hr with
  | done            => exact List.forall_mem_nil _
  | step he _ ih    => exact List.forall_mem_cons.mpr ⟨h _ hF _ he, ih hF⟩
  | call he hg _ _ ihg ih =>
    have hc := h _ hF _ he
    refine List.forall_mem_cons.mpr ⟨hc, List.forall_mem_append.mpr ⟨ihg ?_, ih hF⟩⟩
    exact mem_clones_of_definition? hg hc
  | lookup _ hG _ _ ihg ih =>
    exact List.forall_mem_cons.mpr ⟨trivial, List.forall_mem_append.mpr ⟨ihg hG, ih hF⟩⟩

-- The clones of a module write and call nothing but what the tool owns if and only
-- if no instruction of the program is harmful and the code of the pass calls
-- functions of the runtime only.
theorem owned_of_run_iff (M : Module) :
    (∀ F ∈ M.clones, ∀ es, Run M F es → ∀ e ∈ es, e.Owned M) ↔
    ∀ F ∈ M.clones, (∀ x ∈ F.insts, ¬Harmful M F x) ∧ Linked M F := by
  constructor
  · intro h F hF
    exact owned_effects_iff.mp fun e he => h F hF [e] (.step he .done) e (List.mem_singleton_self e)
  · intro h F hF es hr
    exact owned_of_run (fun G hG => owned_effects_iff.mpr (h G hG)) hF hr

-- A function that adds to a global whose name starts like those of the pass.
def accumulate : Function where
  name    := "accumulate"
  params  := [⟨"x", .double⟩]
  blocks  := [⟨"entry", [⟨"0", .double, .load (.global "my_total" (.ptr .double))⟩,
    ⟨"add", .double, .binary .fadd (.inst ⟨0, 0⟩) (.arg 0)⟩,
    ⟨"", .void, .store (.inst ⟨0, 1⟩) (.global "my_total" (.ptr .double))⟩,
    ⟨"", .void, .ret none⟩]⟩]
  typed   := by simp [Body.insts, Body.block]
  noMeta  := by simp [Ty.isMPtrTy]
  foreign := by simp [Body.insts, Body.block, Body.typeOf, Op.operands, Body.inst?, Ty.isMPtrTy]
  ordered := by simp [Body.insts, Body.block, Op.condition?]
  memory  := by simp [Body.insts, Body.block]
  unnamed := by simp [Body.insts, Body.block]

-- Its clone stores to the global, too.
theorem not_owned_accumulate :
    ¬∀ M : Module, ∀ F ∈ M.clones, ∀ es, Run M F es → ∀ e ∈ es, e.Owned M := by
  intro h
  have hF : accumulate ∈ (⟨[accumulate], [], [], [], []⟩ : Module).clones :=
    mem_clones.mpr ⟨List.mem_singleton_self _, by decide⟩
  have he : .write (.global "my_total" (.ptr .double)) ∈
      effects ⟨[accumulate], [], [], [], []⟩ (cloneFunction accumulate.toBody) := by
    refine List.mem_flatMap.mpr ⟨.write _, List.mem_append_right _ ?_, List.mem_singleton_self _⟩
    exact List.mem_flatMap.mpr ⟨accumulate.insts[2],
      List.mem_filter.mpr ⟨List.getElem_mem (by decide), by decide⟩, List.mem_singleton_self _⟩
  exact h _ accumulate hF _ (.step he .done) _ (List.mem_singleton_self _)

end Pass
