import PFPSanitizer.Pass.Splitting

-- What the pass makes of two modules that differ only in the names of local values and blocks.
namespace Pass

-- The same without the names.
def Inst.anonymous (I : Inst) : Inst :=
  { I with name := "" }

def Param.anonymous (p : Param) : Param :=
  { p with name := "" }

def Block.anonymous (B : Block) : Block where
  name  := ""
  insts := B.insts.map Inst.anonymous

def Body.anonymous (F : Body) : Body where
  name   := F.name
  params := F.params.map Param.anonymous
  blocks := F.blocks.map Block.anonymous

structure Module.Renamed (M N : Module) : Prop where
  functions   : M.functions.map (·.toBody.anonymous) = N.functions.map (·.toBody.anonymous)
  libFuncList : M.libFuncList = N.libFuncList
  libFunc     : M.libFunc = N.libFunc
  mathFunc    : M.mathFunc = N.mathFunc
  forbid      : M.forbid = N.forbid

section Anonymous

variable (F : Body)

@[simp]
theorem Inst.anonymous_ty (I : Inst) : I.anonymous.ty = I.ty := rfl

@[simp]
theorem Inst.anonymous_op (I : Inst) : I.anonymous.op = I.op := rfl

@[simp]
theorem name_anonymous : F.anonymous.name = F.name := rfl

@[simp]
theorem inst?_anonymous (s : Site) : F.anonymous.inst? s = (F.inst? s).map Inst.anonymous := by
  simp only [Body.inst?, Body.anonymous, List.getElem?_map]
  cases F.blocks[s.block]? with
  | none   => rfl
  | some B => simp [Block.anonymous]

theorem block_anonymous (b : Nat) :
    F.anonymous.block b = (F.block b).map fun x => (x.fst, x.snd.anonymous) := by
  simp only [Body.block, Body.anonymous, List.getElem?_map]
  cases F.blocks[b]? with
  | none   => rfl
  | some B =>
    exact List.ext_getElem (by simp [Block.anonymous]) fun i _ _ => by simp [Block.anonymous]

theorem insts_anonymous : F.anonymous.insts = F.insts.map fun x => (x.fst, x.snd.anonymous) := by
  have hl : F.anonymous.blocks.length = F.blocks.length := List.length_map _
  rw [Body.insts, hl, Body.insts, List.map_flatMap]
  exact List.flatMap_congr fun b _ => block_anonymous F b

@[simp]
theorem typeOf_anonymous (v : Operand) : F.anonymous.typeOf v = F.typeOf v := by
  cases v with
  | inst s =>
    simp only [Body.typeOf, inst?_anonymous]
    cases F.inst? s <;> rfl
  | arg n =>
    simp only [Body.typeOf, Body.anonymous, List.getElem?_map]
    cases F.params[n]? <;> rfl
  | _ => rfl

-- A test that does not look at names.
theorem any_insts_anonymous {p : Site × Inst → Bool} (h : ∀ s I, p (s, I.anonymous) = p (s, I)) :
    F.anonymous.insts.any p = F.insts.any p := by
  rw [insts_anonymous, List.any_map]
  congr 1
  funext ⟨s, I⟩
  exact h s I

theorem any_inst?_anonymous {p : Inst → Bool} (h : ∀ I : Inst, p I.anonymous = p I) (s : Site) :
    (F.anonymous.inst? s).any p = (F.inst? s).any p := by
  rw [inst?_anonymous]
  cases F.inst? s with
  | none   => rfl
  | some I => exact h I

theorem op_anonymous (s : Site) : (F.anonymous.inst? s).map Inst.op = (F.inst? s).map Inst.op := by
  rw [inst?_anonymous, Option.map_map]
  rfl

@[simp]
theorem toFloat_anonymous (v : Operand) : toFloat F.anonymous v = toFloat F v := by
  cases v with
  | inst s => simp only [toFloat, op_anonymous, typeOf_anonymous]
  | _      => rfl

@[simp]
theorem toFloatPtr_anonymous (v : Operand) : toFloatPtr F.anonymous v = toFloatPtr F v := by
  cases v with
  | inst s => simp only [toFloatPtr, op_anonymous, toFloat_anonymous]
  | _      => rfl

@[simp]
theorem memset_anonymous (vs : List Operand) : memset F.anonymous vs = memset F vs := by
  simp only [memset, toFloat_anonymous, toFloatPtr_anonymous]

@[simp]
theorem memcpy_anonymous (vs : List Operand) : memcpy F.anonymous vs = memcpy F vs := by
  simp only [memcpy, toFloat_anonymous]

@[simp]
theorem isSlice_anonymous : F.anonymous.isSlice = F.isSlice :=
  any_insts_anonymous F fun _ _ => rfl

@[simp]
theorem indexed_anonymous : indexed F.anonymous = indexed F := by
  simp [indexed]

@[simp]
theorem consMap_anonymous (v : Operand) : consMap F.anonymous v = consMap F v := by
  cases v with
  | const t n =>
    simp only [consMap]
    congr 1
    exact any_insts_anonymous F fun _ _ => rfl
  | inst s => exact any_inst?_anonymous F (fun _ => rfl) s
  | _      => rfl

theorem anonymous_cloneFunction :
    (cloneFunction F.anonymous).anonymous = (cloneFunction F).anonymous := by
  simp [cloneFunction, Body.anonymous, Param.anonymous, Block.anonymous, Inst.anonymous,
    Function.comp_def]

end Anonymous

def Body.Renamed (F G : Body) : Prop :=
  F.anonymous = G.anonymous

section Observations

variable (M : Module) (F : Body)

-- The reads at an instruction, whether a comparison precedes them and whether they compute their
-- address behind it.
def checkedReads (x : Site × Inst) : List (Send × Bool × Bool) :=
  (reads M F x).map (·, Emit.splits F x.fst.block, reloads F x.fst.block)

-- An instruction of the program that is left gets a comparison, too, if it is named
-- like a load of the index.
def compared (x : Site × Inst) : Bool :=
  survives M F x && startswith x.snd.name "my_load_idx_c" && Emit.splits F x.fst.block

-- The calls of a clone that load from and store to the shadow memory.
def shadowAccesses (x : Site × Inst) : List Effect :=
  match x.snd.op with
  | .load _      => Emit.handleLoad M F x.snd
  | .store v _   => Emit.handleStore M F x v
  | .call g args =>
    if startswith g "llvm.memcpy" || startswith g "llvm.memset" then Emit.handleCall M F g args
      else []
  | _            => []

-- The parameters that the clone of a slice reads, in the same way.
def checkedArgs (F : Function) : List (Send × Bool × Bool) :=
  let C := cloneFunction F.toBody
  (removeArgs F).map (·, Emit.splits C 0, reloads C 0)

-- Whether the producer jumps over an instruction, when `entered` tells to which blocks an
-- unconditional branch leads. To leave out one that does nothing but lead to a block without phis
-- for it makes no difference.
def leftOut (entered : Nat → Bool) (F : Function) : Site × Inst → Bool
  | (s, I) =>
    passed M F (entered s.block) s &&
    match I.op with
    | .br none => F.insts.any fun (_, J) =>
      match J.op with
      | .phi vs => vs.any (·.snd = s.block)
      | _       => false
    | _ => true

end Observations

-- What the pass makes of an instruction under two names: whether the producer jumps over it, where
-- the slice flag is set and cleared, what is pushed and read, the accesses to the shadow memory,
-- and whether it is left in the clone.
structure SameAt (M N : Module) (entered : Nat → Bool) (F G : Function) (s : Site) (I J : Inst) :
    Prop where
  jump     : leftOut M entered F (s, I) = leftOut N entered G (s, J)
  start    : marks F "start_slice" s = marks G "start_slice" s
  «end»    : marks F "end_slice" s = marks G "end_slice" s
  before   : pushesBefore F.toBody (s, I) = pushesBefore G.toBody (s, J)
  after    : pushesAfter M F.toBody (s, I) = pushesAfter N G.toBody (s, J)
  reads    : checkedReads M (cloneFunction F.toBody) (s, I) =
    checkedReads N (cloneFunction G.toBody) (s, J)
  compared : compared M (cloneFunction F.toBody) (s, I) = compared N (cloneFunction G.toBody) (s, J)
  shadow   : shadowAccesses M (cloneFunction F.toBody) (s, I) =
    shadowAccesses N (cloneFunction G.toBody) (s, J)
  left     : survives M (cloneFunction F.toBody) (s, I) = survives N (cloneFunction G.toBody) (s, J)

-- The same for a function: the parameters that are pushed and read, what the clone does at its
-- entry, its instructions, and those among them that the pass takes for its own in the last loop.
structure Same (M N : Module) (entered : Nat → Bool) (F G : Function) : Prop where
  pushed  : createUpdateBlockArg1 F = createUpdateBlockArg1 G
  read    : checkedArgs F = checkedArgs G
  enter   : Emit.enter (cloneFunction F.toBody) = Emit.enter (cloneFunction G.toBody)
  body    : ∀ s I J, F.inst? s = some I → G.inst? s = some J → SameAt M N entered F G s I J
  loadIdx : ∀ b, loadIdx M F b = loadIdx N G b

-- The tests of names that matter at an instruction.
section Tests

variable (M : Module)

-- Whether an instruction is left in a clone. A store is for the name of its pointer, a bitcast for
-- its own, and any other one that is not replaced for its name, its callee or its uses.
def leftByName (F : Body) : Site × Inst → Bool
  | (s, I) =>
    match I.op with
    | .store _ p => startswith (F.nameOf p) "my_" && (skipped F || !isHandled M F p)
    | .bitcast _ => startswith I.name "my_bitcast"
    | op         =>
      !handled M F (s, I) && (skipped F || named keptNames I.name ||
        match op with
        | .call g _  => keepsCall g
        | .icall _ _ => true
        | op         =>
          op.isTerminator || isUsed M F s && (I.ty.isFloatType || named keptUsedNames I.name))

-- The tests on which it depends whether an instruction pushes and reads its values.
def sendTests (F : Function) : Site × Inst → List Bool
  | (s, I) =>
    let update    := startswith (F.blockName s.block) "update"
    let skip      := update || startswith I.name "my_"
    let skipValue := inUpdate F.toBody s || startswith I.name "my_"
    match I.op with
    | .load _               =>
      if I.ty.isFloatType then
        [skipValue, startswith I.name "my_load_val" || startswith I.name "my_load_idx_c"]
      else []
    | .store v p            =>
      if (F.typeOf v).isFloatType then
        [skipValue || startswith (F.nameOf p) "my_",
          startswith ((cloneFunction F.toBody).nameOf p) "my_"]
      else []
    | .bitcast _            => if I.ty.isFloatType then [skipValue] else []
    | .sitofp _ | .uitofp _ => [skipValue]
    | .select _ l _         => if (F.typeOf l).isFloatType then [skip] else []
    | .br (some _) | .switch _ => [update]
    | .call g args          =>
      if startswith g "llvm.memset" then
        if (memset F.toBody args).isEmpty then [] else [skipValue]
      else if startswith g "llvm.memcpy" then
        if (memcpy F.toBody args).isEmpty then [] else [skipValue]
      else if startswith g "start_slice" || startswith g "end_slice" then [skip]
      else if !skipsCallee g && g ∉ M.libFuncList && g ∈ M.libFunc && I.ty.isFloatType then [skip]
      else []
    | .icall _ _            =>
      if startswith F.name "start_slice" || startswith F.name "end_slice" then [] else [skip]
    | _                     => []

def tests (entered : Nat → Bool) (F : Function) (x : Site × Inst) : List Bool :=
  let C    := cloneFunction F.toBody
  let b    := x.fst.block
  let left := leftByName M C x
  [leftOut M entered F x, receives M C x && Emit.splits C b, receives M C x && reloads C b,
   left, left && startswith x.snd.name "my_load_idx_c" && Emit.splits C b] ++ sendTests M F x

def isFcmp : Site × Inst → Bool
  | (_, I) =>
    match I.op with
    | .fcmp _ _ => true
    | _         => false

-- The instructions of a block that are named like those of a read.
def loadIdxByName (F : Function) (b : Nat) : List Site × List Site :=
  let C := cloneFunction F.toBody
  sweep F b <|
    lines F (fun x => (receives M C x && !isFcmp x).toNat)
      (fun x => (receives M C x && isFcmp x).toNat)
      (leftByName M C) b

end Tests

-- The names of two functions make no difference: the tests have the same outcome at the
-- entry and at each instruction.
structure Alike (M N : Module) (entered : Nat → Bool) (F G : Function) : Prop where
  entry   : Emit.splits (cloneFunction F.toBody) 0 = Emit.splits (cloneFunction G.toBody) 0
  args    : (pulls F && reloads (cloneFunction F.toBody) 0) =
    (pulls G && reloads (cloneFunction G.toBody) 0)
  body    : ∀ s I J, F.inst? s = some I → G.inst? s = some J →
    tests M entered F (s, I) = tests N entered G (s, J)
  loadIdx : ∀ b, loadIdxByName M F b = loadIdxByName N G b

section

variable {M N : Module} {e : Nat → Bool} {F G : Function} {s : Site} {I J : Inst}

namespace Body.Renamed

variable {A B : Body}

theorem cloneFunction (h : A.Renamed B) : (cloneFunction A).Renamed (cloneFunction B) := by
  rw [Body.Renamed, ← anonymous_cloneFunction, h, anonymous_cloneFunction]

theorem name (h : A.Renamed B) : A.name = B.name := by
  simpa using congrArg (Body.name ·) h

theorem skipped (h : A.Renamed B) : skipped A = Pass.skipped B := by
  simp only [Pass.skipped, h.name]

theorem typeOf (h : A.Renamed B) (v : Operand) : A.typeOf v = B.typeOf v := by
  simpa using congrArg (Body.typeOf · v) h

theorem memset (h : A.Renamed B) (vs : List Operand) : memset A vs = Pass.memset B vs := by
  simpa using congrArg (Pass.memset · vs) h

theorem memcpy (h : A.Renamed B) (vs : List Operand) : memcpy A vs = Pass.memcpy B vs := by
  simpa using congrArg (Pass.memcpy · vs) h

theorem indexed (h : A.Renamed B) : indexed A = Pass.indexed B := by
  simpa using congrArg Pass.indexed h

theorem consMap (h : A.Renamed B) (v : Operand) : consMap A v = Pass.consMap B v := by
  simpa using congrArg (Pass.consMap · v) h

theorem inst? (h : A.Renamed B) {s : Site} {I J : Inst} (hI : A.inst? s = some I)
    (hJ : B.inst? s = some J) :
    I.ty = J.ty ∧ I.op = J.op := by
  have he := congrArg (Body.inst? · s) h
  simp only [inst?_anonymous, hI, hJ, Option.map_some, Option.some.injEq] at he
  exact ⟨by simpa using congrArg (Inst.ty ·) he, by simpa using congrArg (Inst.op ·) he⟩

end Body.Renamed

namespace Module.Renamed

theorem cloned (h : M.Renamed N) (f : String) : M.cloned f = N.cloned f := by
  have hn : M.functions.map (·.name) = N.functions.map (·.name) := by
    simpa [Function.comp_def] using congrArg (List.map Body.name) h.functions
  have hd : (M.definition? f).isSome = (N.definition? f).isSome := by
    have ha (L : Module) : (L.definition? f).isSome = (L.functions.map (·.name)).any (· = f) := by
      rw [Bool.eq_iff_iff]
      simp [Module.definition?]
    rw [ha M, ha N, hn]
  simp only [Module.cloned, hd, h.forbid, h.libFuncList]

theorem isMathCall (h : M.Renamed N) (g : String) : isMathCall M g = Pass.isMathCall N g := by
  simp only [Pass.isMathCall, h.mathFunc]

theorem isCallInst (h : M.Renamed N) (g : String) : isCallInst M g = Pass.isCallInst N g := by
  simp only [Pass.isCallInst, h.mathFunc, h.libFuncList]

end Module.Renamed

theorem survives_eq_leftByName (hI : F.inst? s = some I) :
    survives M (cloneFunction F.toBody) (s, I) = leftByName M (cloneFunction F.toBody) (s, I) := by
  have hu := F.unnamed (s, I) (F.mem_insts.mpr hI)
  obtain ⟨n, ty, op⟩ := I
  cases op with
  | store v p =>
    obtain rfl : n = "" := hu v p rfl
    have h₁ : startswith "" "my_store_buf" = false := by decide
    have h₂ : named keptNames "" = false := by decide
    have h₃ : startswith "" "my_" = false := by decide
    simp only [survives, handled, kept, leftByName, nameLeft, h₁, h₂]
    cases hp : startswith ((cloneFunction F.toBody).nameOf p) "my_" <;>
      cases hh : isHandled M (cloneFunction F.toBody) p <;> simp [h₃, hp]
  | bitcast v =>
    simp only [survives, handled, kept, leftByName]
    cases hb : startswith n "my_bitcast"
    case false => simp
    case true  => simp [named, keptNames, hb]
  | _ => simp only [survives, kept, leftByName]

theorem map_pair_eq_iff {α β : Type} {l l' : List α} {c c' : β} :
    l.map (·, c) = l'.map (·, c') ↔ l = l' ∧ (l = [] ∨ c = c') := by
  constructor
  case mp =>
    intro h
    have hl : l = l' := by simpa [Function.comp_def] using congrArg (List.map Prod.fst) h
    refine ⟨hl, ?_⟩
    subst hl
    cases l with
    | nil      => exact .inl rfl
    | cons a l => exact .inr (Prod.ext_iff.mp (List.cons.inj h).left).right
  case mpr =>
    rintro ⟨rfl, rfl | rfl⟩ <;> rfl

theorem receives_eq {A B : Body} {x y : Site × Inst} (h : reads M A x = reads N B y) :
    receives M A x = receives N B y := by
  have hr : receives M A x = false ↔ receives N B y = false := by
    rw [← reads_eq_nil, ← reads_eq_nil, h]
  cases hx : receives M A x <;> cases hy : receives N B y <;> simp_all

-- Reads that are the same are compared with the size of a buffer, and reload its
-- address, in the same cases.
theorem checkedReads_eq_iff {A B : Body} :
    checkedReads M A (s, I) = checkedReads N B (s, J) ↔
    reads M A (s, I) = reads N B (s, J) ∧
      (receives M A (s, I) && Emit.splits A s.block) =
      (receives N B (s, J) && Emit.splits B s.block) ∧
      (receives M A (s, I) && reloads A s.block) = (receives N B (s, J) && reloads B s.block) := by
  rw [checkedReads, checkedReads, map_pair_eq_iff, Prod.mk.injEq]
  refine and_congr_right fun h => ?_
  rw [reads_eq_nil, ← receives_eq h]
  cases receives M A (s, I) <;> simp

theorem checkedArgs_eq_iff (h : removeArgs F = removeArgs G) :
    checkedArgs F = checkedArgs G ↔
    pulls F = false ∨
    Emit.splits (cloneFunction F.toBody) 0 = Emit.splits (cloneFunction G.toBody) 0 ∧
      reloads (cloneFunction F.toBody) 0 = reloads (cloneFunction G.toBody) 0 := by
  rw [checkedArgs, checkedArgs, map_pair_eq_iff, Prod.mk.injEq, removeArgs_eq,
    createUpdateBlockArg1_eq_nil]
  exact and_iff_right (removeArgs_eq ▸ h)

-- A test decides whether something is pushed or nothing.
theorem eq_of_ite_nil {α : Type} (b b' : Bool) (l : List α) (hl : l ≠ [])
    (h : (if b then [] else l) = if b' then [] else l) :
    b = b' := by
  cases b <;> cases b' <;> simp_all [eq_comm]

theorem marks_eq {pre g : String} {args : List Operand} {n : String} {ty : Ty}
    (hI : F.inst? s = some ⟨n, ty, .call g args⟩) (hg : startswith g pre) :
    marks F pre s = !(startswith (F.blockName s.block) "update" || startswith n "my_") := by
  simp [marks, hI, hg]

-- What is pushed and read tells the outcome of the tests. A load is pushed
-- with its value, and read.
theorem sendTests_load {n n' : String} {ty : Ty} {p : Operand}
    (ha : pushesAfter M F.toBody (s, ⟨n, ty, .load p⟩) =
      pushesAfter N G.toBody (s, ⟨n', ty, .load p⟩))
    (hr : reads M (cloneFunction F.toBody) (s, ⟨n, ty, .load p⟩) = reads N (cloneFunction G.toBody)
      (s, ⟨n', ty, .load p⟩)) :
    sendTests M F (s, ⟨n, ty, .load p⟩) = sendTests N G (s, ⟨n', ty, .load p⟩) := by
  simp only [pushesAfter, pushValues, handleFcmpProducer, handleSelectProducer,
    handleCallInstProducer, reads, handleIns, handleBranch, createGEP, handleLoad, handleStore,
    handleSelect, handleCall, handleFcmp] at ha hr
  simp only [sendTests]
  cases hy : ty.isFloatType
  case false => rfl
  case true  =>
    simp only [hy] at ha hr
    generalize (inUpdate F.toBody s || startswith n "my_") = b at *
    generalize (inUpdate G.toBody s || startswith n' "my_") = b' at *
    generalize (startswith n "my_load_val" || startswith n "my_load_idx_c") = c at *
    generalize (startswith n' "my_load_val" || startswith n' "my_load_idx_c") = c' at *
    cases b <;> cases b' <;> cases c <;> cases c' <;> simp at ha hr <;> rfl

-- A store has no name, and the two sides test that of its pointer.
theorem sendTests_store {ty : Ty} {v p : Operand} (ht : F.typeOf v = G.typeOf v)
    (hv : (F.typeOf v).isMPtrTy = false)
    (ha : pushesAfter M F.toBody (s, ⟨"", ty, .store v p⟩) =
      pushesAfter N G.toBody (s, ⟨"", ty, .store v p⟩))
    (hr : reads M (cloneFunction F.toBody) (s, ⟨"", ty, .store v p⟩) =
      reads N (cloneFunction G.toBody) (s, ⟨"", ty, .store v p⟩)) :
    sendTests M F (s, ⟨"", ty, .store v p⟩) = sendTests N G (s, ⟨"", ty, .store v p⟩) := by
  have hv' : (G.typeOf v).isMPtrTy = false := ht ▸ hv
  have hs : startswith "" "my_store_buf" = false := by decide
  simp only [pushesAfter, pushValues, handleFcmpProducer, handleSelectProducer,
    handleCallInstProducer, reads, handleIns, handleBranch, createGEP, handleLoad, handleStore,
    handleSelect, handleCall, handleFcmp, isFloatType_or_isMPtrTy_cloneFunction hv,
    isFloatType_or_isMPtrTy_cloneFunction hv', hv, hs, ← ht] at ha hr
  simp only [sendTests, ← ht]
  cases hy : (F.typeOf v).isFloatType
  case false => rfl
  case true  =>
    simp only [hy] at ha hr
    generalize (inUpdate F.toBody s || startswith "" "my_") = b at *
    generalize (inUpdate G.toBody s || startswith "" "my_") = b' at *
    generalize startswith (F.nameOf p) "my_" = c at *
    generalize startswith (G.nameOf p) "my_" = c' at *
    generalize startswith ((cloneFunction F.toBody).nameOf p) "my_" = d at *
    generalize startswith ((cloneFunction G.toBody).nameOf p) "my_" = d' at *
    cases b <;> cases b' <;> cases c <;> cases c' <;> cases d <;> cases d' <;> simp at ha hr <;> rfl

-- A call sets memory, copies it, sets or clears the flag of the slice, or is
-- pushed with its result.
theorem sendTests_call (hM : M.Renamed N) (hF : F.toBody.Renamed G.toBody) {n n' g : String}
    {ty : Ty} {args : List Operand} (hI : F.inst? s = some ⟨n, ty, .call g args⟩)
    (hJ : G.inst? s = some ⟨n', ty, .call g args⟩)
    (h : SameAt M N e F G s ⟨n, ty, .call g args⟩ ⟨n', ty, .call g args⟩) :
    sendTests M F (s, ⟨n, ty, .call g args⟩) = sendTests N G (s, ⟨n', ty, .call g args⟩) := by
  have ha := h.after
  have hm := F.memory _ (F.mem_insts.mpr hI) g args rfl
  simp only [pushesAfter, pushValues, handleFcmpProducer, handleSelectProducer,
    handleCallInstProducer, ← hF.memset args, ← hF.memcpy args, ← hM.libFunc, ← hM.libFuncList]
    at ha
  simp only [sendTests, ← hF.memset args, ← hF.memcpy args, ← hM.libFunc, ← hM.libFuncList]
  by_cases hs : startswith g "llvm.memset"
  case pos =>
    have hy : ty.isFloatType = false := hm (startswith_of_append (p := "llvm.mem") (q := "set") hs)
    simp only [hs, not_memcpy_of_memset hs, hy] at ha ⊢
    cases he : (memset F.toBody args).isEmpty
    case true  => rfl
    case false =>
      have hb :=
        eq_of_ite_nil (inUpdate F.toBody s || startswith n "my_")
          (inUpdate G.toBody s || startswith n' "my_")
        (memset F.toBody args) (by simpa using he) (by simpa using ha)
      simp [hb]
  case neg =>
    by_cases hc : startswith g "llvm.memcpy"
    case pos =>
      have hy : ty.isFloatType = false :=
        hm (startswith_of_append (p := "llvm.mem") (q := "cpy") hc)
      simp only [hs, hc, hy] at ha ⊢
      cases he : (memcpy F.toBody args).isEmpty
      case true  => rfl
      case false =>
        have hb :=
          eq_of_ite_nil (inUpdate F.toBody s || startswith n "my_")
            (inUpdate G.toBody s || startswith n' "my_")
          (memcpy F.toBody args) (by simpa using he) (by simpa using ha)
        simp [hb]
    case neg =>
      simp only [hs, hc]
      by_cases hf : startswith g "start_slice" || startswith g "end_slice"
      case pos =>
        obtain hf | hf := Bool.or_eq_true_iff.mp hf
        · have hb := Bool.not_inj ((marks_eq hI hf).symm.trans (h.start.trans (marks_eq hJ hf)))
          simp [hf, hb]
        · have hb := Bool.not_inj ((marks_eq hI hf).symm.trans (h.end.trans (marks_eq hJ hf)))
          simp [hf, hb]
      case neg =>
        simp only [hf]
        cases hk : (!skipsCallee g && g ∉ M.libFuncList && g ∈ M.libFunc && ty.isFloatType : Bool)
        case false => rfl
        case true  =>
          have hb := eq_of_ite_nil (startswith (F.blockName s.block) "update" || startswith n "my_")
            (startswith (G.blockName s.block) "update" || startswith n' "my_")
              [(⟨.result, .inst s⟩ : Send)] (by simp)
            (by simp_all)
          simp [hb]

theorem sendTests_eq (hM : M.Renamed N) (hF : F.toBody.Renamed G.toBody) (hI : F.inst? s = some I)
    (hJ : G.inst? s = some J) (h : SameAt M N e F G s I J) :
    sendTests M F (s, I) = sendTests N G (s, J) := by
  have hr := (checkedReads_eq_iff.mp h.reads).left
  have hb := h.before
  have ha := h.after
  have ht := hF.typeOf
  obtain ⟨n, ty, op⟩ := I
  obtain ⟨n', ty', op'⟩ := J
  obtain ⟨rfl, rfl⟩ : ty = ty' ∧ op = op' := hF.inst? hI hJ
  cases op with
  | load p      => exact sendTests_load ha hr
  | store v p   =>
    obtain rfl : n = "" := F.unnamed _ (F.mem_insts.mpr hI) v p rfl
    obtain rfl : n' = "" := G.unnamed _ (G.mem_insts.mpr hJ) v p rfl
    exact sendTests_store (ht v) (F.foreign _ (F.mem_insts.mpr hI) v (by simp [Op.operands])) ha hr
  | call g args => exact sendTests_call hM hF hI hJ h
  | bitcast v =>
    simp only [pushesAfter, pushValues, handleFcmpProducer, handleSelectProducer,
      handleCallInstProducer] at ha
    simp only [sendTests]
    cases hy : ty.isFloatType
    case false => rfl
    case true =>
      simp only [hy] at ha
      generalize (inUpdate F.toBody s || startswith n "my_") = b at *
      generalize (inUpdate G.toBody s || startswith n' "my_") = b' at *
      cases b <;> cases b' <;> simp at ha <;> rfl
  | sitofp v | uitofp v =>
    simp only [pushesAfter, pushValues, handleFcmpProducer, handleSelectProducer,
      handleCallInstProducer] at ha
    simp only [sendTests]
    generalize (inUpdate F.toBody s || startswith n "my_") = b at *
    generalize (inUpdate G.toBody s || startswith n' "my_") = b' at *
    cases b <;> cases b' <;> simp at ha <;> rfl
  | select c l r =>
    simp only [pushesAfter, pushValues, handleFcmpProducer, handleSelectProducer,
      handleCallInstProducer, ← ht l] at ha
    simp only [sendTests, ← ht l]
    cases hy : (F.typeOf l).isFloatType
    case false => rfl
    case true =>
      simp only [hy] at ha
      generalize (startswith (F.blockName s.block) "update" || startswith n "my_") = b at *
      generalize (startswith (G.blockName s.block) "update" || startswith n' "my_") = b' at *
      cases b <;> cases b' <;> simp at ha <;> rfl
  | br c =>
    cases c with
    | none   => rfl
    | some c =>
      simp only [pushesBefore, pushConditions, handleICallInstProducer] at hb
      simp only [sendTests]
      generalize startswith (F.blockName s.block) "update" = b at *
      generalize startswith (G.blockName s.block) "update" = b' at *
      cases b <;> cases b' <;> simp at hb <;> rfl
  | switch c =>
    simp only [pushesBefore, pushConditions, handleICallInstProducer] at hb
    simp only [sendTests]
    generalize startswith (F.blockName s.block) "update" = b at *
    generalize startswith (G.blockName s.block) "update" = b' at *
    cases b <;> cases b' <;> simp at hb <;> rfl
  | icall f args =>
    simp only [pushesBefore, pushConditions, handleICallInstProducer, ← hF.name] at hb
    simp only [sendTests, ← hF.name]
    cases hs : startswith F.name "start_slice" || startswith F.name "end_slice"
    case true  => simp
    case false =>
      simp only [Bool.or_eq_false_iff] at hs
      simp only [hs.left, hs.right, Bool.or_false] at hb
      generalize (startswith (F.blockName s.block) "update" || startswith n "my_") = b at *
      generalize (startswith (G.blockName s.block) "update" || startswith n' "my_") = b' at *
      cases b <;> cases b' <;> simp at hb <;> rfl
  | _ => rfl

-- The tests of two instructions by what they decide.
structure TestsEq (M N : Module) (e : Nat → Bool) (F G : Function) (s : Site) (I J : Inst) :
    Prop where
  jump     : leftOut M e F (s, I) = leftOut N e G (s, J)
  splits   :
    (receives M (cloneFunction F.toBody) (s, I) && Emit.splits (cloneFunction F.toBody) s.block) =
    (receives N (cloneFunction G.toBody) (s, J) && Emit.splits (cloneFunction G.toBody) s.block)
  reloads  :
    (receives M (cloneFunction F.toBody) (s, I) && reloads (cloneFunction F.toBody) s.block) =
    (receives N (cloneFunction G.toBody) (s, J) && reloads (cloneFunction G.toBody) s.block)
  left     :
    leftByName M (cloneFunction F.toBody) (s, I) = leftByName N (cloneFunction G.toBody) (s, J)
  compared :
    (leftByName M (cloneFunction F.toBody) (s, I) && startswith I.name "my_load_idx_c" &&
      Emit.splits (cloneFunction F.toBody) s.block) =
    (leftByName N (cloneFunction G.toBody) (s, J) && startswith J.name "my_load_idx_c" &&
      Emit.splits (cloneFunction G.toBody) s.block)
  sends    : sendTests M F (s, I) = sendTests N G (s, J)

theorem tests_eq_iff : tests M e F (s, I) = tests N e G (s, J) ↔ TestsEq M N e F G s I J := by
  simp only [tests, List.cons_append, List.nil_append, List.cons.injEq]
  constructor
  case mp =>
    intro ⟨ho, hp, hr, hl, hc, hs⟩
    exact ⟨ho, hp, hr, hl, hc, hs⟩
  case mpr =>
    intro h
    exact ⟨h.jump, h.splits, h.reloads, h.left, h.compared, h.sends⟩

theorem tests_eq_of_sameAt (hM : M.Renamed N) (hF : F.toBody.Renamed G.toBody)
    (hI : F.inst? s = some I) (hJ : G.inst? s = some J) (h : SameAt M N e F G s I J) :
    tests M e F (s, I) = tests N e G (s, J) := by
  have ⟨_, hp, hr⟩ := checkedReads_eq_iff.mp h.reads
  have hl := h.left
  have hc := h.compared
  rw [survives_eq_leftByName hI, survives_eq_leftByName hJ] at hl
  rw [compared, compared, survives_eq_leftByName hI, survives_eq_leftByName hJ] at hc
  exact tests_eq_iff.mpr {
    jump     := h.jump
    splits   := hp
    reloads  := hr
    left     := hl
    compared := hc
    sends    := sendTests_eq hM hF hI hJ h
  }

-- The reads of a comparison are behind it, all others in front of the instruction.
theorem length_reads {A : Body} {x : Site × Inst} :
    readsBefore M A x = (if isFcmp x then [] else reads M A x).length ∧
    readsAfter A x = (if isFcmp x then reads M A x else []).length := by
  obtain ⟨s, n, ty, op⟩ := x
  cases op with
  | fcmp l r => 
    simp [readsBefore, readsAfter, reads, isFcmp, handleBranch, createGEP, handleIns, handleLoad,
      handleStore, handleSelect, handleCall]
  | _ => simp [readsBefore, readsAfter, reads, isFcmp, handleFcmp]

theorem length_eq_zero_iff {A : Body} {x : Site × Inst} (b : Bool) :
    (if b then reads M A x else []).length = 0 ↔ (receives M A x && b).toNat = 0 := by
  cases b <;> simp [reads_eq_nil]

-- The names tell what the last loop takes for code of the pass.
theorem loadIdx_eq (F : Function) (b : Nat) : loadIdx M F b = loadIdxByName M F b :=
  sweep_congr
    (fun x _ => by rw [length_reads.left, ← length_eq_zero_iff]; cases isFcmp x <;> rfl)
    (fun x _ => by rw [length_reads (M := M) |>.right, length_eq_zero_iff])
    fun x hx => survives_eq_leftByName (F.mem_block.mp hx).right

theorem handleCallInstProducer_call {A : Body} {n g : String} {ty : Ty} {args : List Operand} :
    handleCallInstProducer M A (s, ⟨n, ty, .call g args⟩) =
    if startswith (A.blockName s.block) "update" || startswith n "my_" then []
    else if !skipsCallee g && g ∉ M.libFuncList && g ∈ M.libFunc &&
    ty.isFloatType then [⟨.result, .inst s⟩]
    else [] := by
  simp only [handleCallInstProducer]
  cases skipsCallee g <;> by_cases hl : g ∈ M.libFuncList <;> simp [hl]

theorem not_mem_of_slice {g pre : String} (hp : pre = "start_slice" ∨ pre = "end_slice")
    (hg : startswith g pre) :
    startswith g "llvm.mem" = false := by
  have hl : startswith g "l" = false := by
    obtain rfl | rfl := hp
    · exact not_startswith (p := "s") (by decide) (by decide)
        (startswith_of_append (p := "s") (q := "tart_slice") hg)
    · exact not_startswith (p := "e") (by decide) (by decide)
        (startswith_of_append (p := "e") (q := "nd_slice") hg)
  exact not_startswith_append "l" "lvm.mem" hl

-- The other direction: the outcome of the tests tells what is pushed and read.
section

variable (hM : M.Renamed N) (hF : F.toBody.Renamed G.toBody) (hI : F.inst? s = some I)
  (hJ : G.inst? s = some J) (h : sendTests M F (s, I) = sendTests N G (s, J))

include hF hI hJ h

theorem pushConditions_eq : pushConditions F.toBody (s, I) = pushConditions G.toBody (s, J) := by
  obtain ⟨n, ty, op⟩ := I
  obtain ⟨n', ty', op'⟩ := J
  obtain ⟨rfl, rfl⟩ : ty = ty' ∧ op = op' := hF.inst? hI hJ
  cases op with
  | br c =>
    cases c with
    | none   => simp [pushConditions]
    | some c => simp_all [sendTests, pushConditions]
  | switch c => simp_all [sendTests, pushConditions]
  | _        => simp [pushConditions]

theorem handleSelectProducer_eq :
    handleSelectProducer F.toBody (s, I) = handleSelectProducer G.toBody (s, J) := by
  have ht := hF.typeOf
  obtain ⟨n, ty, op⟩ := I
  obtain ⟨n', ty', op'⟩ := J
  obtain ⟨rfl, rfl⟩ : ty = ty' ∧ op = op' := hF.inst? hI hJ
  cases op with
  | select c l r =>
    simp only [sendTests, handleSelectProducer, ← ht l] at h ⊢
    cases hy : (F.typeOf l).isFloatType
    case false => simp
    case true  =>
      simp only [hy, if_true, List.cons.injEq, and_true] at h
      simp only [h]
  | _ => simp [handleSelectProducer]

theorem handleICallInstProducer_eq :
    handleICallInstProducer F.toBody (s, I) = handleICallInstProducer G.toBody (s, J) := by
  obtain ⟨n, ty, op⟩ := I
  obtain ⟨n', ty', op'⟩ := J
  obtain ⟨rfl, rfl⟩ : ty = ty' ∧ op = op' := hF.inst? hI hJ
  cases op with
  | icall f args =>
    simp only [sendTests, handleICallInstProducer, ← hF.name] at h ⊢
    cases hs : startswith F.name "start_slice" || startswith F.name "end_slice"
    case true  => simp [Bool.or_assoc, hs]
    case false =>
      simp only [hs, if_false, List.cons.injEq, and_true, Bool.false_eq_true] at h
      simp only [h]
  | _ => simp [handleICallInstProducer]

theorem marks_congr {pre : String} (hp : pre = "start_slice" ∨ pre = "end_slice") :
    marks F pre s = marks G pre s := by
  obtain ⟨n, ty, op⟩ := I
  obtain ⟨n', ty', op'⟩ := J
  obtain ⟨rfl, rfl⟩ : ty = ty' ∧ op = op' := hF.inst? hI hJ
  cases op with
  | call g args =>
    cases hg : startswith g pre
    case false => simp [marks, hI, hJ, hg]
    case true  =>
      rw [marks_eq hI hg, marks_eq hJ hg]
      have hm := not_mem_of_slice hp hg
      have hs : startswith g "llvm.memset" = false := not_startswith_append "llvm.mem" "set" hm
      have hc : startswith g "llvm.memcpy" = false := not_startswith_append "llvm.mem" "cpy" hm
      have hf : (startswith g "start_slice" || startswith g "end_slice") = true := by
        obtain rfl | rfl := hp <;> simp [hg]
      simp only [sendTests, hs, hc, hf] at h
      simp_all
  | _ => simp [marks, hI, hJ]

theorem pushValues_eq : pushValues F.toBody (s, I) = pushValues G.toBody (s, J) := by
  have ht := hF.typeOf
  have hf := F.foreign (s, I) (F.mem_insts.mpr hI)
  have hu := F.unnamed _ (F.mem_insts.mpr hI)
  have hu' := G.unnamed _ (G.mem_insts.mpr hJ)
  obtain ⟨n, ty, op⟩ := I
  obtain ⟨n', ty', op'⟩ := J
  obtain ⟨rfl, rfl⟩ : ty = ty' ∧ op = op' := hF.inst? hI hJ
  cases op with
  | load p =>
    simp only [sendTests, pushValues] at h ⊢
    cases hy : ty.isFloatType
    case false => simp
    case true  => simp_all
  | store v p =>
    obtain rfl : n = "" := hu v p rfl
    obtain rfl : n' = "" := hu' v p rfl
    have hv := hf v (by simp [Op.operands])
    simp only [sendTests, pushValues, ← ht v, hv] at h ⊢
    cases hy : (F.typeOf v).isFloatType
    case false => simp
    case true  =>
      simp only [hy, if_true, List.cons.injEq, and_true] at h
      have hs := h.left
      generalize (inUpdate F.toBody s || startswith "" "my_") = b at *
      generalize (inUpdate G.toBody s || startswith "" "my_") = b' at *
      cases b <;> cases b' <;> simp_all
  | bitcast v =>
    simp only [sendTests, pushValues] at h ⊢
    cases hy : ty.isFloatType
    case false => simp
    case true  => simp_all
  | sitofp v | uitofp v => simp_all [sendTests, pushValues]
  | call g args =>
    simp only [sendTests, pushValues, ← hF.memset, ← hF.memcpy] at h ⊢
    by_cases hs : startswith g "llvm.memset"
    case pos =>
      simp only [hs, not_memcpy_of_memset hs, if_true] at h ⊢
      cases he : memset F.toBody args with
      | nil      => simp
      | cons e l => simp_all
    case neg =>
      by_cases hc : startswith g "llvm.memcpy"
      case pos =>
        simp only [hs, hc, if_true] at h ⊢
        cases he : memcpy F.toBody args with
        | nil      => simp
        | cons e l => simp_all
      case neg => simp [hs, hc]
  | _ => simp [pushValues]

include hM

theorem handleCallInstProducer_eq :
    handleCallInstProducer M F.toBody (s, I) = handleCallInstProducer N G.toBody (s, J) := by
  have hm := F.memory (s, I) (F.mem_insts.mpr hI)
  obtain ⟨n, ty, op⟩ := I
  obtain ⟨n', ty', op'⟩ := J
  obtain ⟨rfl, rfl⟩ : ty = ty' ∧ op = op' := hF.inst? hI hJ
  cases op with
  | call g args =>
    rw [handleCallInstProducer_call, handleCallInstProducer_call, ← hM.libFunc, ← hM.libFuncList]
    cases hk : (!skipsCallee g && g ∉ M.libFuncList && g ∈ M.libFunc && ty.isFloatType : Bool)
    case false => simp
    case true  =>
      have hy : ty.isFloatType := (Bool.and_eq_true_iff.mp hk).right
      have hs : startswith g "llvm.memset" = false := by
        by_contra hs
        have :=
          hm g args rfl (startswith_of_append (p := "llvm.mem") (q := "set") (by simpa using hs))
        simp_all
      have hc : startswith g "llvm.memcpy" = false := by
        by_contra hc
        have :=
          hm g args rfl (startswith_of_append (p := "llvm.mem") (q := "cpy") (by simpa using hc))
        simp_all
      simp only [sendTests, ← hM.libFunc, ← hM.libFuncList, hk, hs, hc] at h
      simp_all
  | _ => simp [handleCallInstProducer]

theorem mapped_eq : mapped M (cloneFunction F.toBody) I = mapped N (cloneFunction G.toBody) J := by
  have ht := hF.cloneFunction.typeOf
  obtain ⟨n, ty, op⟩ := I
  obtain ⟨n', ty', op'⟩ := J
  obtain ⟨rfl, rfl⟩ : ty = ty' ∧ op = op' := hF.inst? hI hJ
  cases op with
  | load p =>
    simp only [sendTests, mapped] at h ⊢
    cases hy : ty.isFloatType
    case false => rfl
    case true  => simp_all
  | select c l r => simp only [mapped, ht]
  | call g args  => simp only [mapped, hM.isMathCall, hM.isCallInst]
  | _            => rfl

theorem shared_reads_eq (hc : fcmpMap (cloneFunction F.toBody) = fcmpMap (cloneFunction G.toBody)) :
    reads M (cloneFunction F.toBody) (s, I) = reads N (cloneFunction G.toBody) (s, J) := by
  have ht := hF.cloneFunction.typeOf
  have hf := F.foreign (s, I) (F.mem_insts.mpr hI)
  have hu := F.unnamed _ (F.mem_insts.mpr hI)
  have hu' := G.unnamed _ (G.mem_insts.mpr hJ)
  obtain ⟨n, ty, op⟩ := I
  obtain ⟨n', ty', op'⟩ := J
  obtain ⟨rfl, rfl⟩ : ty = ty' ∧ op = op' := hF.inst? hI hJ
  simp only [reads, handleBranch, createGEP, handleIns, handleLoad, handleStore, handleSelect,
    handleCall, handleFcmp, handleCallInst, ← ht, ← hF.cloneFunction.memset,
    ← hF.cloneFunction.memcpy, ← hM.libFunc, ← hM.libFuncList, ← hM.mathFunc, ← hM.cloned, hc,
    hF.cloneFunction.skipped]
  cases op with
  | load p =>
    simp only [sendTests] at h
    cases hy : ty.isFloatType
    case false => simp
    case true  => simp_all
  | store v p =>
    obtain rfl : n = "" := hu v p rfl
    obtain rfl : n' = "" := hu' v p rfl
    have hv := hf v (by simp [Op.operands])
    simp only [sendTests, ← hF.typeOf v, isFloatType_or_isMPtrTy_cloneFunction hv] at h ⊢
    cases hy : (F.typeOf v).isFloatType
    case false => simp
    case true  =>
      simp only [hy, if_true, List.cons.injEq, and_true] at h
      simp only [h.right]
  | _ => rfl

end

-- The same values are looked at in both.
theorem map_insts_eq {A B : Body} (h : A.Renamed B) {α : Type} {f g : Site × Inst → α}
    (hf : ∀ s I J, A.inst? s = some I → B.inst? s = some J → f (s, I) = g (s, J)) :
    A.insts.map f = B.insts.map g := by
  have hi : A.insts.map (fun x => (x.fst, x.snd.anonymous)) = B.insts.map fun x =>
    (x.fst, x.snd.anonymous) := by
    rw [← insts_anonymous, ← insts_anonymous, h]
  have hl : A.insts.length = B.insts.length := by simpa using congrArg List.length hi
  refine List.ext_getElem (by simpa using hl) fun i hA hB => ?_
  simp only [List.length_map] at hA hB
  have he : A.insts[i].fst = B.insts[i].fst := by
    have := congrArg (·[i]?.map Prod.fst) hi
    simpa [hA, hB] using this
  have hI : A.inst? A.insts[i].fst = some A.insts[i].snd := A.mem_insts.mp (List.getElem_mem hA)
  have hJ : B.inst? B.insts[i].fst = some B.insts[i].snd := B.mem_insts.mp (List.getElem_mem hB)
  rw [List.getElem_map, List.getElem_map]
  generalize A.insts[i] = x at *
  generalize B.insts[i] = y at *
  obtain ⟨s, I⟩ := x
  obtain ⟨t, J⟩ := y
  obtain rfl : s = t := he
  exact hf s I J hI hJ

theorem flatMap_insts_eq {A B : Body} (h : A.Renamed B) {α : Type} {f g : Site × Inst → List α}
    (hf : ∀ s I J, A.inst? s = some I → B.inst? s = some J → f (s, I) = g (s, J)) :
    A.insts.flatMap f = B.insts.flatMap g := by
  rw [List.flatMap_def, List.flatMap_def, map_insts_eq h hf]

theorem any_inst?_eq {A B : Body} (h : A.Renamed B) {p q : Inst → Bool}
    (hp : ∀ I J, A.inst? s = some I → B.inst? s = some J → p I = q J) :
    (A.inst? s).any p = (B.inst? s).any q := by
  have hi : (A.inst? s).map Inst.anonymous = (B.inst? s).map Inst.anonymous := by
    simpa using congrArg (Body.inst? · s) h
  cases hA : A.inst? s with
  | none   => cases hB : B.inst? s <;> simp_all
  | some I =>
    cases hB : B.inst? s with
    | none   => simp_all
    | some J => exact hp I J hA hB

theorem map_op_eq {A B : Body} (h : A.Renamed B) :
    (A.inst? s).map Inst.op = (B.inst? s).map Inst.op := by
  rw [← op_anonymous, h, op_anonymous]

section

variable (hM : M.Renamed N) (hF : F.toBody.Renamed G.toBody) (h : Alike M N e F G)

include hF

theorem fcmpMap_eq : fcmpMap (cloneFunction F.toBody) = fcmpMap (cloneFunction G.toBody) := by
  have ht := hF.cloneFunction.typeOf
  refine congrArg conditions (flatMap_insts_eq hF.cloneFunction fun s I J hI hJ => ?_)
  obtain ⟨n, ty, op⟩ := I
  obtain ⟨n', ty', op'⟩ := J
  obtain ⟨rfl, rfl⟩ : ty = ty' ∧ op = op' := hF.inst? hI hJ
  simp only [handleBranch, handleSelect, hF.cloneFunction.skipped, ht]

include h

theorem fcmpMapPush_eq : fcmpMapPush F.toBody = fcmpMapPush G.toBody := by
  refine congrArg conditions (flatMap_insts_eq hF fun s I J hI hJ => ?_)
  have hs := (tests_eq_iff.mp (h.body s I J hI hJ)).sends
  rw [pushConditions_eq hF hI hJ hs, handleSelectProducer_eq hF hI hJ hs]

include hM

theorem mInsMap_eq {t : Site} {v : Operand} :
    mInsMap M (cloneFunction F.toBody) t v = mInsMap N (cloneFunction G.toBody) t v := by
  cases v with
  | inst s =>
    simp only [mInsMap]
    rw [any_inst?_eq hF.cloneFunction fun I J hI hJ =>
      mapped_eq hM hF hI hJ (tests_eq_iff.mp (h.body s I J hI hJ)).sends]
  | _ => rfl

theorem through_eq {t : Site} {u : Operand} :
    handleOperand.through M (cloneFunction F.toBody) t u = handleOperand.through N
      (cloneFunction G.toBody) t u := by
  cases u with
  | inst s =>
    simp only [handleOperand.through, map_op_eq hF.cloneFunction, mInsMap_eq hM hF h,
      hF.cloneFunction.consMap, hF.cloneFunction.typeOf]
  | _ => simp only [handleOperand.through, hF.cloneFunction.consMap, hF.cloneFunction.typeOf]

theorem handleOperand_eq {t : Site} {v : Operand} :
    handleOperand M (cloneFunction F.toBody) t v =
    handleOperand N (cloneFunction G.toBody) t v := by
  simp only [handleOperand, mInsMap_eq hM hF h, hF.cloneFunction.consMap, hF.cloneFunction.typeOf]
  congr 1
  cases v with
  | inst s =>
    refine any_inst?_eq hF.cloneFunction fun I J hI hJ => ?_
    obtain ⟨n, ty, op⟩ := I
    obtain ⟨n', ty', op'⟩ := J
    obtain ⟨rfl, rfl⟩ : ty = ty' ∧ op = op' := hF.inst? hI hJ
    cases op <;> first | rfl | exact through_eq hM hF h
  | _ => rfl

theorem shadowAccesses_eq (hI : F.inst? s = some I) (hJ : G.inst? s = some J) :
    shadowAccesses M (cloneFunction F.toBody) (s, I) =
    shadowAccesses N (cloneFunction G.toBody) (s, J) := by
  have hs := (tests_eq_iff.mp (h.body s I J hI hJ)).sends
  have hm := mapped_eq hM hF hI hJ hs
  have ht := hF.cloneFunction.typeOf
  have hf := F.foreign (s, I) (F.mem_insts.mpr hI)
  have hu := F.unnamed _ (F.mem_insts.mpr hI)
  have hu' := G.unnamed _ (G.mem_insts.mpr hJ)
  obtain ⟨n, ty, op⟩ := I
  obtain ⟨n', ty', op'⟩ := J
  obtain ⟨rfl, rfl⟩ : ty = ty' ∧ op = op' := hF.inst? hI hJ
  cases op with
  | load p => simp only [shadowAccesses, Emit.handleLoad, hm]
  | store v p =>
    obtain rfl : n = "" := hu v p rfl
    obtain rfl : n' = "" := hu' v p rfl
    have hv := hf v (by simp [Op.operands])
    simp only [shadowAccesses, Emit.handleStore, handled, handleOperand_eq hM hF h, ← ht,
      isFloatType_or_isMPtrTy_cloneFunction hv]
    simp only [sendTests, ← hF.typeOf v] at hs
    cases hy : (F.typeOf v).isFloatType
    case false => simp
    case true  =>
      simp only [hy, if_true, List.cons.injEq, and_true] at hs
      simp only [hs.right]
  | call g args =>
    simp only [shadowAccesses, Emit.handleCall, hF.cloneFunction.memset, hF.cloneFunction.memcpy]
    by_cases hc : startswith g "llvm.memcpy"
    case pos => simp [hc]
    case neg => by_cases hs : startswith g "llvm.memset" <;> simp [hc, hs]
  | _ => rfl

theorem sameAt_of_alike (hI : F.inst? s = some I) (hJ : G.inst? s = some J) :
    SameAt M N e F G s I J := by
  have ht := tests_eq_iff.mp (h.body s I J hI hJ)
  have hs := ht.sends
  have hp := fcmpMapPush_eq hF h
  have ho := (hF.inst? hI hJ).right
  exact {
    jump     := ht.jump
    start    := marks_congr hF hI hJ hs (.inl rfl)
    «end»    := marks_congr hF hI hJ hs (.inr rfl)
    before   := by
      rw [pushesBefore, pushConditions_eq hF hI hJ hs, handleICallInstProducer_eq hF hI hJ hs,
        ← pushesBefore]
    after    := by
      have hf : handleFcmpProducer F.toBody (s, I) = handleFcmpProducer G.toBody (s, J) := by
        simp only [handleFcmpProducer, hp, ho]
      rw [pushesAfter, pushValues_eq hF hI hJ hs, hf, handleSelectProducer_eq hF hI hJ hs,
        handleCallInstProducer_eq hM hF hI hJ hs, ← pushesAfter]
    reads    :=
      checkedReads_eq_iff.mpr
        ⟨shared_reads_eq hM hF hI hJ hs (fcmpMap_eq hF), ht.splits, ht.reloads⟩
    compared := by
      rw [compared, compared, survives_eq_leftByName hI, survives_eq_leftByName hJ, ht.compared]
    shadow   := shadowAccesses_eq hM hF h hI hJ
    left     := by rw [survives_eq_leftByName hI, survives_eq_leftByName hJ, ht.left]
  }

end

section Entry

variable {A B : Body}

theorem mem_enter_iff :
    .call "fpsanx_shadow_task_interim" ∈ Emit.enter A ↔ Emit.splits A 0 = true := by
  simp only [Emit.enter, Emit.splitReadFromBuf, Emit.readFromBuf, Emit.temporary]
  cases Emit.splits A 0
  case true  => simp
  case false => cases A.isSlice <;> cases indexed A <;> simp

theorem Body.Renamed.params (h : A.Renamed B) : A.params.map Param.ty = B.params.map Param.ty := by
  simpa [Body.anonymous, Param.anonymous, Function.comp_def] using congrArg
    (·.params.map Param.ty) h

theorem Body.Renamed.isSlice (h : A.Renamed B) : A.isSlice = B.isSlice := by
  simpa using congrArg Body.isSlice h

theorem enter_eq (h : A.Renamed B) (hs : Emit.splits A 0 = Emit.splits B 0) :
    Emit.enter A = Emit.enter B := by
  have hp (es : List Effect) (C : Body) :
      ((C.params.filter (·.ty.isMPtrTy)).flatMap fun _ => es) =
        ((C.params.map Param.ty).filter Ty.isMPtrTy).flatMap fun _ => es := by
    rw [List.filter_map, List.flatMap_map]
    rfl
  simp only [Emit.enter, Emit.splitReadFromBuf, Emit.readFromBuf, hp, h.params, h.isSlice,
    h.indexed, hs]

theorem createUpdateBlockArg1_eq (h : F.toBody.Renamed G.toBody) :
    createUpdateBlockArg1 F = createUpdateBlockArg1 G := by
  have hl : F.params.length = G.params.length := by simpa using congrArg List.length h.params
  simp only [createUpdateBlockArg1, h.isSlice, h.typeOf, hl]

end Entry

theorem removeArgs_congr (h : F.toBody.Renamed G.toBody) : removeArgs F = removeArgs G := by
  rw [removeArgs_eq, removeArgs_eq, createUpdateBlockArg1_eq h]

theorem pulls_eq (h : F.toBody.Renamed G.toBody) : pulls F = pulls G := by
  have hp : pulls F = false ↔ pulls G = false := by
    rw [← createUpdateBlockArg1_eq_nil, ← createUpdateBlockArg1_eq_nil, createUpdateBlockArg1_eq h]
  cases hF : pulls F <;> cases hG : pulls G <;> simp_all

theorem Module.Renamed.function (h : M.Renamed N) {p : Function × Function}
    (hp : p ∈ M.functions.zip N.functions) :
    p.fst.toBody.Renamed p.snd.toBody := by
  obtain ⟨i, hi, rfl⟩ := List.getElem_of_mem hp
  rw [List.length_zip, Nat.lt_min] at hi
  have hf := congrArg (·[i]?) h.functions
  simpa [Body.Renamed, hi.left, hi.right] using hf

-- The names make no difference to what the pass makes of a module if and only if they make none to
-- its tests.
theorem same_iff_alike (h : M.Renamed N) (entered : String → Nat → Bool) :
    (∀ p ∈ M.functions.zip N.functions, M.cloned p.fst.name →
      Same M N (entered p.fst.name) p.fst p.snd) ↔
    ∀ p ∈ M.functions.zip N.functions, M.cloned p.fst.name →
    Alike M N (entered p.fst.name) p.fst p.snd := by
  refine forall₃_congr fun p hp _ => ?_
  have hF := h.function hp
  constructor
  case mp =>
    intro hs
    have he : Emit.splits (cloneFunction p.fst.toBody) 0 =
        Emit.splits (cloneFunction p.snd.toBody) 0 := by
      rw [Bool.eq_iff_iff, ← mem_enter_iff, ← mem_enter_iff, hs.enter]
    exact {
      entry   := he
      args    := by
        obtain ha | ha := (checkedArgs_eq_iff (removeArgs_congr hF)).mp hs.read
        · simp [← pulls_eq hF, ha]
        · rw [pulls_eq hF, ha.right]
      body    := fun s I J hI hJ => tests_eq_of_sameAt h hF hI hJ (hs.body s I J hI hJ)
      loadIdx := fun b => by rw [← loadIdx_eq, ← loadIdx_eq, hs.loadIdx b]
    }
  case mpr =>
    intro ha
    exact {
      pushed  := createUpdateBlockArg1_eq hF
      read    := by
        refine (checkedArgs_eq_iff (removeArgs_congr hF)).mpr ?_
        have hr := ha.args
        rw [← pulls_eq hF] at hr
        cases hp : pulls p.fst
        case false => exact .inl rfl
        case true  => exact .inr ⟨ha.entry, by simpa [hp] using hr⟩
      enter   := enter_eq hF.cloneFunction ha.entry
      body    := fun s I J hI hJ => sameAt_of_alike h hF ha hI hJ
      loadIdx := fun b => by rw [loadIdx_eq, loadIdx_eq, ha.loadIdx b]
    }

end

section Fetch

-- A function that loads a value and returns it.
def fetch (name : String) : Function where
  name    := "fetch"
  params  := [⟨"p", .ptr .double⟩]
  blocks  := [⟨"entry", [⟨name, .double, .load (.arg 0)⟩, ⟨"", .void, .ret (some (.inst ⟨0, 0⟩))⟩]⟩]
  typed   := by simp [Body.insts, Body.block]
  noMeta  := by simp [Ty.isMPtrTy]
  foreign := by simp [Body.insts, Body.block, Body.typeOf, Op.operands, Body.inst?, Ty.isMPtrTy]
  ordered := by simp [Body.insts, Body.block, Op.condition?]
  memory  := by simp [Body.insts, Body.block]
  unnamed := by simp [Body.insts, Body.block]

def fetchModule (name : String) : Module :=
  ⟨[fetch name], [], [], [], []⟩

theorem renamed_fetchModule (n n' : String) : (fetchModule n).Renamed (fetchModule n') where
  functions   := rfl
  libFuncList := rfl
  libFunc     := rfl
  mathFunc    := rfl
  forbid      := rfl

theorem alike_fetch :
    Alike (fetchModule "x") (fetchModule "y") (fun _ => false) (fetch "x") (fetch "y") where
  entry   := by decide
  args    := by decide
  body    := by
    intro s I J hI hJ
    have hI := (fetch "x").mem_insts.mpr hI
    have hJ := (fetch "y").mem_insts.mpr hJ
    have hx : (fetch "x").insts =
        [(⟨0, 0⟩, ⟨"x", .double, .load (.arg 0)⟩),
          (⟨0, 1⟩, ⟨"", .void, .ret (some (.inst ⟨0, 0⟩))⟩)] := rfl
    have hy : (fetch "y").insts =
        [(⟨0, 0⟩, ⟨"y", .double, .load (.arg 0)⟩),
          (⟨0, 1⟩, ⟨"", .void, .ret (some (.inst ⟨0, 0⟩))⟩)] := rfl
    rw [hx] at hI
    rw [hy] at hJ
    simp only [List.mem_cons, Prod.mk.injEq, List.not_mem_nil, or_false] at hI hJ
    obtain ⟨rfl, rfl⟩ | ⟨rfl, rfl⟩ := hI
    case inl =>
      obtain rfl : J = ⟨"y", .double, .load (.arg 0)⟩ := by simpa using hJ
      decide
    case inr =>
      obtain rfl : J = ⟨"", .void, .ret (some (.inst ⟨0, 0⟩))⟩ := by simpa using hJ
      decide
  loadIdx := by
    intro b
    cases b with
    | zero   => decide
    | succ b => rfl

theorem same_fetch :
    Same (fetchModule "x") (fetchModule "y") (fun _ => false) (fetch "x") (fetch "y") :=
  (same_iff_alike (renamed_fetchModule "x" "y") fun _ _ => false).mpr
    (by
      intro p hp _
      obtain rfl : p = (fetch "x", fetch "y") := by simpa [fetchModule] using hp
      exact alike_fetch)
    (fetch "x", fetch "y") (List.mem_singleton_self _) (by decide)

-- A load with a name that begins like those of the pass is not pushed.
theorem not_same_fetch :
    ¬∀ M N : Module, M.Renamed N →
    ∀ entered : String → Nat → Bool, ∀ p ∈ M.functions.zip N.functions,
      M.cloned p.fst.name → Same M N (entered p.fst.name) p.fst p.snd := by
  intro h
  have hs := h (fetchModule "x") (fetchModule "my_x") (renamed_fetchModule _ _) (fun _ _ => false)
    (fetch "x", fetch "my_x") (List.mem_singleton_self _) (by decide)
  have ha := congrArg List.length (hs.body ⟨0, 0⟩ _ _ rfl rfl).after
  exact absurd ha (by decide)

end Fetch

end Pass
