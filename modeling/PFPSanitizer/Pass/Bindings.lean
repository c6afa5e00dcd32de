import PFPSanitizer.Lib.Filtering
import PFPSanitizer.Pass.Operands

-- What the formals of a clone are bound to by the call of it.
namespace Pass

-- A function with what its type has besides the parameters.
structure Callee extends Function where
  ret    : Ty
  varArg : Bool

namespace Callee

variable (G : Callee)

-- The parameters with those that `cloneFunction` replaces by pointers, and one
-- more for an FP result.
def argTypes : List Ty :=
  G.params.map (·.ty.shadow) ++ if G.ret.isFloatType then [.mptr] else []

-- The pointers stay. The clone of a slice is called by the runtime,
-- `removeArgs` gives it an index only.
def formals : List Ty :=
  if G.isSlice then [.int 32] else G.argTypes.filter Ty.isMPtrTy

-- The new formal that takes the name and the uses of an old one, `i2` is the next of them.
def moved (i2 : Nat) : List Ty → List (Option Nat)
  | []      => []
  | t :: ts => if t.isMPtrTy then some i2 :: moved (i2 + 1) ts else none :: moved i2 ts

-- The formal that stands for a parameter in the clone.
def formal (n : Nat) : Option Nat :=
  if G.isSlice then none
  else if n < G.params.length then (moved 0 G.argTypes)[n]?.join
  else none

-- The formal that `handleReturn` passes to `fpsan_copy_return`.
def returnFormal : Option Nat :=
  if G.isSlice || !G.ret.isFloatType then none else some (G.formals.length - 1)

end Callee

section Handlers

variable (M : Module) (C : Body)

def Body.isPassed (v : Operand) : Bool :=
  (C.typeOf v).isFloatType || (C.typeOf v).isMPtrTy

-- The operands that the handlers of calls push. One without metadata ends the compilation.
def pushArgs (seen : Site → Bool) : List Operand → Option (List Meta)
  | []      => some []
  | v :: vs =>
    if C.isPassed v then do
      let opIdx ← operandMeta M C seen v
      let args ← pushArgs seen vs
      return opIdx :: args
    else pushArgs seen vs

-- The slot of the call is the last argument if it has an FP result.
def shadowArgs (x : Site × Inst) (args : List Operand) : Option (List Meta) := do
  let args ← pushArgs M C (before x.fst) args
  return args ++ if x.snd.ty.isFloatType then [.temporary (.inst x.fst)] else []

-- The arguments of the call that `handleCallInst` or `handleCallInstIndirect` puts
-- in front of a call, if any.
def shadowCall (x : Site × Inst) : Option (List Meta) :=
  match x.snd.op with
  | .call g args  =>
    if isCallInst M g && M.cloned g && !(M.definition? g |>.any (·.isSlice)) then
      shadowArgs M C x args else none
  | .icall _ args => if indexed C then shadowArgs M C x args else none
  | _             => none

end Handlers

-- A call of a function, for which the handlers make a call of the clone. What it passes fits
-- the type of the function.
structure ShadowCall (M : Module) (F : Function) (G : Callee) where
  site    : Site
  inst    : Inst
  args    : List Operand
  actuals : List Meta
  mem     : F.inst? site = some inst
  callee  : inst.op = .call G.name args ∧ M.definition? G.name = some G.toFunction ∨
    ∃ v, inst.op = .icall v args
  result  : inst.ty = G.ret
  fixed   : (args.take G.params.length).map F.typeOf = G.params.map Param.ty
  extra   : G.varArg = false → args.length = G.params.length
  made    : shadowCall M (cloneFunction F.toBody) (site, inst) = some actuals

namespace ShadowCall

variable {M : Module} {F : Function} {G : Callee} (c : ShadowCall M F G)

def fpArgs : List Operand :=
  c.args.filter fun v => (F.typeOf v).isFloatType

-- The metadata of an operand in the clone of the caller.
def slot (v : Operand) : Option Meta :=
  operandMeta M (cloneFunction F.toBody) (before c.site) v

-- The formals are bound to the slots of the FP actuals in their order, the one for the
-- result to that of the call.
structure Binds : Prop where
  formals : ∀ n i, G.formal n = some i → ∃ v, c.args[n]? = some v ∧ c.fpArgs[i]? = some v ∧
            ∃ m, c.slot v = some m ∧ c.actuals[i]? = some m
  result  : ∀ i, G.returnFormal = some i → c.actuals[i]? = some (.temporary (.inst c.site))

-- No FP value is passed for the variadic part of a function with an FP result.
def Fits : Prop :=
  G.isSlice = false → G.ret.isFloatType →
    ∀ v ∈ c.args.drop G.params.length, (F.typeOf v).isFloatType = false

end ShadowCall

section Formals

variable {G : Callee}

theorem moved_eq_some {ts : List Ty} {k n i : Nat} (h : (Callee.moved k ts)[n]?.join = some i) :
    ∃ t, ts[n]? = some t ∧ t.isMPtrTy ∧ i = k + Filtering.rank Ty.isMPtrTy ts n := by
  induction ts generalizing k n with
  | nil          => cases h
  | cons t ts ih =>
    rw [Callee.moved] at h
    cases n with
    | zero   =>
      split at h
      case isTrue ht => exact ⟨t, rfl, ht, (Option.some.inj h).symm⟩
      case isFalse   => cases h
    | succ n =>
      split at h
      case isTrue ht  =>
        obtain ⟨t', ht', hm, rfl⟩ := ih h
        exact ⟨t', ht', hm, by rw [Filtering.rank_cons_succ, if_pos ht]; omega⟩
      case isFalse ht =>
        obtain ⟨t', ht', hm, rfl⟩ := ih h
        exact ⟨t', ht', hm, by rw [Filtering.rank_cons_succ, if_neg ht]; omega⟩

theorem isMPtrTy_shadow_param {p : Param} (h : p ∈ G.params) :
    p.ty.shadow.isMPtrTy = p.ty.isFloatType := by
  rw [Ty.isMPtrTy_shadow, G.noMeta p h, Bool.or_false]

theorem map_isMPtrTy_params :
    (G.params.map (·.ty.shadow)).map Ty.isMPtrTy = (G.params.map Param.ty).map Ty.isFloatType := by
  simp only [List.map_map]
  exact List.map_congr_left fun p hp => isMPtrTy_shadow_param hp

-- A formal of the clone has as many in front of it as its parameter has FP parameters.
theorem formal_eq_some {n i : Nat} (h : G.formal n = some i) :
    n < G.params.length ∧ (∃ p, G.params[n]? = some p ∧ p.ty.isFloatType) ∧
    i = Filtering.rank Ty.isFloatType (G.params.map Param.ty) n := by
  rw [Callee.formal] at h
  split at h
  · cases h
  split at h
  case isFalse   => cases h
  case isTrue hn =>
    obtain ⟨t, ht, hm, rfl⟩ := moved_eq_some h
    have hp := List.getElem?_eq_getElem hn
    have hl : n < (G.params.map fun p => p.ty.shadow).length := by rwa [List.length_map]
    rw [Callee.argTypes, List.getElem?_append_left hl, List.getElem?_map, hp] at ht
    obtain rfl := Option.some.inj ht
    rw [isMPtrTy_shadow_param (List.getElem_mem hn)] at hm
    refine ⟨hn, ⟨_, hp, hm⟩, ?_⟩
    rw [Nat.zero_add]
    refine Filtering.rank_congr ?_
    rw [Callee.argTypes, List.take_append_of_le_length (Nat.le_of_lt hl), List.map_take,
      map_isMPtrTy_params, ← List.map_take]

theorem length_formals (hs : G.isSlice = false) (hr : G.ret.isFloatType) :
    G.formals.length - 1 = (G.params.map Param.ty).countP Ty.isFloatType := by
  rw [Callee.formals, hs, if_neg Bool.false_ne_true, Callee.argTypes, if_pos hr, List.filter_append,
    List.length_append, ← List.countP_eq_length_filter, Filtering.countP_congr map_isMPtrTy_params]
  rfl

end Formals

section Actuals

variable {M : Module} {C : Body} {F : Function} {G : Callee}

theorem pushArgs_forall₂ {seen : Site → Bool} {vs : List Operand} {ms : List Meta}
    (h : pushArgs M C seen vs = some ms) :
    List.Forall₂ (fun v m => operandMeta M C seen v = some m) (vs.filter C.isPassed) ms := by
  induction vs generalizing ms with
  | nil          =>
    obtain rfl := Option.some.inj h
    exact .nil
  | cons v vs ih =>
    rw [pushArgs] at h
    split at h
    case isTrue hv  =>
      obtain ⟨m, hm, h⟩ := Option.bind_eq_some_iff.mp h
      obtain ⟨ms', hms, h⟩ := Option.bind_eq_some_iff.mp h
      obtain rfl := Option.some.inj h
      rw [List.filter_cons_of_pos (p := C.isPassed) hv]
      exact .cons hm (ih hms)
    case isFalse hv =>
      rw [List.filter_cons_of_neg (p := C.isPassed) hv]
      exact ih h

theorem shadowCall_eq_some {x : Site × Inst} {args : List Operand} {ms : List Meta}
    (ho : (∃ g, x.snd.op = .call g args) ∨ ∃ v, x.snd.op = .icall v args)
    (h : shadowCall M C x = some ms) :
    shadowArgs M C x args = some ms := by
  rw [shadowCall] at h
  obtain ⟨g, ho⟩ | ⟨v, ho⟩ := ho <;>
    · rw [ho] at h
      exact (Option.ite_none_right_eq_some.mp h).right

-- The handler puts the call of the clone there.
theorem handleIns_of_shadowCall {x : Site × Inst} {ms : List Meta}
    (h : shadowCall M C x = some ms) :
    (∃ g, Emit.handleIns M C x = [.shadow g]) ∨
    Emit.handleIns M C x = [.call "fpsanx_get_clone_addr", .lookup] := by
  rw [shadowCall] at h
  split at h
  case h_1 g args ho =>
    obtain ⟨hc, -⟩ := Option.ite_none_right_eq_some.mp h
    simp only [Bool.and_eq_true, Bool.not_eq_true'] at hc
    obtain ⟨⟨hi, hm⟩, hs⟩ := hc
    refine .inl ⟨g, ?_⟩
    have hn := hi
    simp only [isCallInst, Bool.not_eq_true', Bool.or_eq_false_iff, decide_eq_false_iff_not] at hn
    simp only [Emit.handleIns, ho, Emit.handleCall, hn, hi, Emit.handleCallInst, hm, hs]
    rfl
  case h_2 v args ho =>
    obtain ⟨hc, -⟩ := Option.ite_none_right_eq_some.mp h
    refine .inr ?_
    simp only [Emit.handleIns, ho, if_pos hc]
  case h_3           => cases h

def Op.isCall : Op → Bool
  | .call _ _ | .icall _ _ => true
  | _                      => false

variable {s : Site} {I : Inst} {v : Operand}

theorem consMeta_ne (hs : C.inst? s = some I) (ho : I.op.isCall) :
    consMeta C v ≠ some (.temporary (.inst s)) := by
  intro h
  rw [consMeta] at h
  split at h
  case isFalse   => cases h
  case isTrue hc =>
    cases v with
    | inst t    =>
      cases h
      rw [consMap, hs, Option.any_some] at hc
      split at hc
      case h_1 hI | h_2 hI | h_3 hI =>
        rw [hI] at ho
        cases ho
      case h_4                      => cases hc
    | const t n =>
      rw [Operand.temp?] at h
      split at h <;> cases h
    | _         => cases h

theorem phiMeta_ne (hs : C.inst? s = some I) (ho : I.op.isCall) :
    phiMeta C v ≠ some (.temporary (.inst s)) := by
  intro h
  cases v with
  | inst t =>
    obtain ⟨J, hJ, h⟩ := Option.bind_eq_some_iff.mp h
    split at h
    case h_1 hp =>
      obtain ⟨-, h⟩ := Option.ite_none_right_eq_some.mp h
      cases h
      obtain rfl := Option.some.inj (hs.symm.trans hJ)
      rw [hp] at ho
      cases ho
    case h_2    => cases h
  | _      => cases h

theorem typeMeta_ne : typeMeta C v ≠ some (.temporary (.inst s)) := by
  intro h
  rw [typeMeta] at h
  split at h <;> cases h

-- An instruction is not visited before itself.
theorem mInsMeta_ne : mInsMeta M C (before s) v ≠ some (.temporary (.inst s)) := by
  intro h
  cases v with
  | inst t =>
    obtain ⟨J, hJ, h⟩ := Option.bind_eq_some_iff.mp h
    obtain ⟨hb, h⟩ := Option.ite_none_right_eq_some.mp h
    split at h <;> cases h
    simp [before] at hb
  | _      => cases h

-- A call does not find its own slot.
theorem operandMeta_ne (hs : C.inst? s = some I) (ho : I.op.isCall) :
    operandMeta M C (before s) v ≠ some (.temporary (.inst s)) := by
  intro h
  simp only [operandMeta, Option.orElse_eq_orElse, Option.orElse_eq_or, Option.or_eq_some_iff,
    consMeta_ne hs ho, typeMeta_ne, phiMeta_ne hs ho, mInsMeta_ne, false_or] at h
  obtain ⟨-, -, -, -, h⟩ := h
  have hc
      (h : ((C.cast? v).bind (operandMeta.through M C (before s))) = some (.temporary (.inst s))) :
      False := by
    obtain ⟨u, -, h⟩ := Option.bind_eq_some_iff.mp h
    rw [operandMeta.through] at h
    split at h
    · exact mInsMeta_ne h
    · simp only [Option.orElse_eq_orElse, Option.orElse_eq_or, Option.or_eq_some_iff,
        consMeta_ne hs ho, typeMeta_ne, mInsMeta_ne, false_or, and_false] at h
  cases v with
  | arg n | undef t => cases h
  | _               => exact hc h

namespace ShadowCall

variable (c : ShadowCall M F G)

theorem exists_actuals : ∃ ms, List.Forall₂ (fun v m => c.slot v = some m) c.fpArgs ms ∧
    c.actuals = ms ++ if G.ret.isFloatType then [.temporary (.inst c.site)] else [] := by
  have ho : (∃ g, c.inst.op = .call g c.args) ∨ ∃ v, c.inst.op = .icall v c.args :=
    c.callee.imp_left fun h => ⟨_, h.left⟩
  obtain ⟨ms, hms, h⟩ := Option.bind_eq_some_iff.mp (shadowCall_eq_some ho c.made)
  obtain h := Option.some.inj h
  refine ⟨ms, ?_, by rw [← h, c.result]⟩
  have hf : c.fpArgs = c.args.filter (cloneFunction F.toBody).isPassed := by
    refine List.filter_congr fun v hv =>
      (isFloatType_or_isMPtrTy_cloneFunction (F.foreign (c.site, c.inst) ?_ v ?_)).symm
    · exact F.toBody.mem_insts.mpr c.mem
    · obtain ⟨g, ho⟩ | ⟨f, ho⟩ := ho
      · rwa [ho]
      · rw [ho]
        exact List.mem_cons_of_mem _ hv
  rw [hf]
  exact pushArgs_forall₂ hms

theorem map_isFloatType_take :
    ((c.args.take G.params.length).map fun v => (F.typeOf v).isFloatType) =
    (G.params.map Param.ty).map Ty.isFloatType := by
  rw [← c.fixed, List.map_map]
  rfl

theorem length_params_le : G.params.length ≤ c.args.length := by
  have h := congrArg List.length c.fixed
  rw [List.length_map, List.length_map, List.length_take] at h
  omega

theorem length_fpArgs : c.fpArgs.length = (G.params.map Param.ty).countP Ty.isFloatType +
    (c.args.drop G.params.length).countP fun v => (F.typeOf v).isFloatType := by
  rw [← Filtering.countP_congr c.map_isFloatType_take, ← List.countP_append, List.take_append_drop,
    fpArgs, List.countP_eq_length_filter]

theorem binds_formals {n i : Nat} (h : G.formal n = some i) :
    ∃ v, c.args[n]? = some v ∧ c.fpArgs[i]? = some v ∧
    ∃ m, c.slot v = some m ∧ c.actuals[i]? = some m := by
  obtain ⟨hn, ⟨p, hp, hf⟩, rfl⟩ := formal_eq_some h
  obtain ⟨v, hv⟩ : ∃ v, c.args[n]? = some v :=
    ⟨_, List.getElem?_eq_getElem (Nat.lt_of_lt_of_le hn c.length_params_le)⟩
  have ht : (F.typeOf v).isFloatType := by
    have ht := congrArg (·[n]?) c.fixed
    simp only [List.getElem?_map, List.getElem?_take_of_lt hn, hv, hp, Option.map_some,
      Option.some.injEq] at ht
    rw [ht, hf]
  have hr : Filtering.rank Ty.isFloatType (G.params.map Param.ty) n =
      Filtering.rank (fun v => (F.typeOf v).isFloatType) c.args n := by
    refine Filtering.rank_congr ?_
    rw [← c.fixed, ← List.map_take, List.take_take, Nat.min_eq_left (Nat.le_of_lt hn), List.map_map]
    rfl
  obtain ⟨ms, hms, ha⟩ := c.exists_actuals
  have hk := Filtering.getElem?_filter_rank (p := fun v => (F.typeOf v).isFloatType) hv ht
  rw [← hr] at hk
  obtain ⟨m, hm, hs⟩ := Filtering.getElem?_of_forall₂ hms hk
  refine ⟨_, hv, hk, m, hs, ?_⟩
  rw [ha, List.getElem?_append_left (List.getElem?_eq_some_iff.mp hm).fst, hm]

-- The slot of the call comes behind those of the FP actuals.
theorem actuals_result (hr : G.ret.isFloatType) :
    c.actuals[c.fpArgs.length]? = some (.temporary (.inst c.site)) := by
  obtain ⟨ms, hms, ha⟩ := c.exists_actuals
  rw [ha, if_pos hr, hms.length_eq, List.getElem?_concat_length]

theorem actuals_ne {i : Nat} (h : i < c.fpArgs.length) :
    c.actuals[i]? ≠ some (.temporary (.inst c.site)) := by
  obtain ⟨ms, hms, ha⟩ := c.exists_actuals
  obtain ⟨m, hm, hs⟩ := Filtering.getElem?_of_forall₂ hms (List.getElem?_eq_getElem h)
  rw [ha, List.getElem?_append_left (List.getElem?_eq_some_iff.mp hm).fst, hm]
  intro he
  rw [he] at hs
  have ho : c.inst.op.isCall := by
    obtain ⟨h, -⟩ | ⟨v, h⟩ := c.callee <;> rw [h] <;> rfl
  exact operandMeta_ne (C := cloneFunction F.toBody) c.mem ho hs

theorem returnFormal_eq_some {i : Nat} :
    G.returnFormal = some i ↔ G.isSlice = false ∧ G.ret.isFloatType ∧
    i = (G.params.map Param.ty).countP Ty.isFloatType := by
  rw [Callee.returnFormal]
  by_cases hs : G.isSlice
  · simp [hs]
  by_cases hr : G.ret.isFloatType
  · rw [length_formals (Bool.eq_false_iff.mpr hs) hr]
    simp [hs, hr, eq_comm]
  · simp [hr]

-- The formals for parameters are bound rightly in any case. The one for the result is so exactly if
-- no FP value comes between the parameters and the slot of the call.
theorem binds_iff (c : ShadowCall M F G) : c.Binds ↔ c.Fits := by
  constructor
  · intro h hs hr
    have hk := h.result _ (returnFormal_eq_some.mpr ⟨hs, hr, rfl⟩)
    have hl := fun hlt => c.actuals_ne hlt hk
    rw [c.length_fpArgs, Nat.lt_add_right_iff_pos, List.countP_pos_iff] at hl
    exact fun v hv => Bool.eq_false_iff.mpr fun hf => hl ⟨v, hv, hf⟩
  · intro h
    refine ⟨fun n i hi => c.binds_formals hi, fun i hi => ?_⟩
    obtain ⟨hs, hr, rfl⟩ := returnFormal_eq_some.mp hi
    have hd : (c.args.drop G.params.length).countP (fun v => (F.typeOf v).isFloatType) = 0 :=
      List.countP_eq_zero.mpr fun v hv => Bool.eq_false_iff.mp (h hs hr v hv)
    have ha := c.actuals_result hr
    rwa [c.length_fpArgs, hd] at ha

end ShadowCall

end Actuals

section Sum

-- `double sum(int n, ...)` and a function that returns `sum(1, term)`.
def sum : Callee where
  name    := "sum"
  params  := [⟨"n", .int 32⟩]
  blocks  := [⟨"entry", [⟨"", .void, .ret (some (.const .double 0))⟩]⟩]
  ret     := .double
  varArg  := true
  typed   := by simp [Body.insts, Body.block]
  noMeta  := by simp [Ty.isMPtrTy]
  foreign := by simp [Body.insts, Body.block, Body.typeOf, Op.operands, Ty.isMPtrTy]
  ordered := by simp [Body.insts, Body.block, Op.condition?]
  memory  := by simp [Body.insts, Body.block]
  unnamed := by simp [Body.insts, Body.block]

def sumOne : Function where
  name    := "sum_one"
  params  := [⟨"term", .double⟩]
  blocks  := [⟨"entry", [⟨"call", .double, .call "sum" [.const (.int 32) 1, .arg 0]⟩,
    ⟨"", .void, .ret (some (.inst ⟨0, 0⟩))⟩]⟩]
  typed   := by simp [Body.insts, Body.block]
  noMeta  := by simp [Ty.isMPtrTy]
  foreign := by simp [Body.insts, Body.block, Body.typeOf, Op.operands, Body.inst?, Ty.isMPtrTy]
  ordered := by simp [Body.insts, Body.block, Op.condition?]
  memory  := by simp [Body.insts, Body.block, startswith]
  unnamed := by simp [Body.insts, Body.block]

def sumModule : Module where
  functions   := [sum.toFunction, sumOne]
  libFuncList := []
  libFunc     := []
  mathFunc    := []
  forbid      := []

def sumCall : ShadowCall sumModule sumOne sum where
  site    := ⟨0, 0⟩
  inst    := ⟨"call", .double, .call "sum" [.const (.int 32) 1, .arg 0]⟩
  args    := [.const (.int 32) 1, .arg 0]
  actuals := [.value (.arg 0), .temporary (.inst ⟨0, 0⟩)]
  mem     := rfl
  callee  := .inl ⟨rfl, rfl⟩
  result  := rfl
  fixed   := rfl
  extra h := by cases h
  made    := rfl

-- The value of `sum` goes to the slot of the argument.
theorem not_binds :
    ¬∀ (M : Module) (F : Function) (G : Callee) (c : ShadowCall M F G), c.Binds := by
  intro h
  cases (h _ _ _ sumCall).result 0 rfl

end Sum

end Pass
