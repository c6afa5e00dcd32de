import PFPSanitizer.Pass.Paths

namespace Pass

-- The execution of a function: its instructions, and the instrumented functions that are entered
-- while one of them, a call, is executed (the callee, or what an external callee calls back).
-- `clone` tells of an indirect call whether `fpsanx_get_clone_addr` finds the clone of its callee,
-- `jump` of a call whether the producer jumps over it. The modules are those that the pass
-- instruments, after it has moved each `start_slice` to the head of its block.
mutual

inductive Steps
  | done
  | inst (s : Site) (rest : Steps)
  | call (s : Site) (clone jump : Bool) (inner : Calls) (rest : Steps)

inductive Calls
  | done
  | enter (F : Function) (body : Steps) (rest : Calls)

end

-- A value of a run and the number of the step that sends or receives it.
structure Token where
  step : Nat
  send : Send

def stamp (n : Nat) (es : List Send) : List Token :=
  es.map (⟨n, ·⟩)

variable (M : Module) (F : Function)

-- What a handler does at an instruction.
def Body.sendsAt (F : Body) (f : Site × Inst → List Send) (s : Site) : List Send :=
  F.inst? s |>.elim [] fun I => f (s, I)

-- The call sets the slice flag, in the blocks and under the names that the producer looks at.
def marks (pre : String) (s : Site) : Bool :=
  F.inst? s |>.any fun I =>
    !startswith (F.blockName s.block) "update" && !startswith I.name "my_" &&
    match I.op with
    | .call g _ => startswith g pre
    | _         => false

def handleEndSliceCallInstP (s : Site) (flag : Bool) : Bool :=
  flag && !marks F "end_slice" s

def handleStartSliceCallInstP (s : Site) (flag : Bool) : Bool :=
  flag || marks F "start_slice" s

-- The parameters that the entry of a slice function pushes, and those that its clone reads.
def createUpdateBlockArg1 : List Send :=
  if F.isSlice then
    (List.range F.params.length).filter (fun n => (F.typeOf (.arg n)).isFloatType) |>.map
      fun n => ⟨.argument, .arg n⟩
  else
    []

def removeArgs : List Send :=
  if F.isSlice then
    (List.range F.params.length).filter
      (fun n => ((cloneFunction F.toBody).typeOf (.arg n)).isMPtrTy) |>.map
      fun n => ⟨.argument, .arg n⟩
  else
    []

-- Whether an entry has parameters to push.
def pulls : Bool :=
  F.isSlice && F.params.any (·.ty.isFloatType)

-- The functions in which the last loop of the pass removes the tests of the slice flag. It does so
-- for all blocks that are named like those of the tests: an unconditional branch to one of them
-- goes to the first successor of that block instead.
def unconditional : Bool :=
  F.calls "end_slice"

-- Whether the producer jumps over an instruction of the program. A block with such a name
-- is left out up to the first value that is pushed there. `entered` says that an
-- unconditional branch has led to it.
def passed (entered : Bool) (s : Site) : Bool :=
  unconditional F && startswith (F.blockName s.block) "u_cmp" && entered && inHead M F.toBody s

def jumps (s : Site) : Bool :=
  F.inst? s |>.any fun I =>
    match I.op with
    | .br none => true
    | _        => false

-- The slice flag behind a call, when it is `b` before and `inner` behind what is below.
def flagBehind (s : Site) (jump b inner : Bool) : Bool :=
  if jump then b else handleStartSliceCallInstP F s inner

-- The clone of the callee is called. The calls of `start_slice` and `end_slice` are replaced.
def follows (s : Site) (clone : Bool) : Bool :=
  F.inst? s |>.any fun I =>
    match I.op with
    | .call g _ =>
      !startswith g "llvm.memcpy" && !startswith g "llvm.memset" && g ∉ M.mathFunc &&
      !startswith g "fpsan" && g ≠ "printf" && g ∉ M.libFuncList && !startswith g "pull_print" &&
      !startswith g "start_slice" && !startswith g "end_slice" && M.cloned g &&
      !(M.definition? g).any (·.isSlice)
    | .icall _ _ => clone
    | _          => false

mutual

def Steps.size : Steps → Nat
  | .done           => 0
  | .inst _ r       => r.size + 1
  | .call _ _ _ i r => i.size + r.size + 1

def Calls.size : Calls → Nat
  | .done       => 0
  | .enter _ b r => b.size + r.size + 1

end

-- The slice flag after an execution.
mutual

def Steps.flag (F : Function) : Steps → Bool → Bool
  | .done, b           => b
  | .inst _ r, b       => r.flag F b
  | .call s _ o i r, b => r.flag F (flagBehind F s o b (i.flag (handleEndSliceCallInstP F s b)))

def Calls.flag : Calls → Bool → Bool
  | .done, b           => b
  | .enter F body r, b => r.flag (body.flag F b)

end

-- The values pushed. `on` is what the function has found in the slice flag at its entry,
-- `n` numbers the next step.
mutual

def Steps.pushed (F : Function) (on : Bool) : Steps → Bool → Nat → List Token
  | .done, _, _     => []
  | .inst s r, b, n =>
    stamp n (if on then F.sendsAt (pushes M F.toBody) s else []) ++ r.pushed F on b (n + 1)
  | .call s _ o i r, b, n =>
    let b' := handleEndSliceCallInstP F s b
    stamp n (if on then F.sendsAt (pushesBefore F.toBody) s else []) ++
    ((if o then [] else i.pushed b' (n + 1)) ++
    (stamp n (if on then F.sendsAt (pushesAfter M F.toBody) s else []) ++
    r.pushed F on (flagBehind F s o b (i.flag b')) (n + 1 + i.size)))

def Calls.pushed : Calls → Bool → Nat → List Token
  | .done, _, _           => []
  | .enter F body r, b, n =>
    stamp n (createUpdateBlockArg1 F) ++
    (body.pushed F (unconditional F || b) b (n + 1) ++ r.pushed (body.flag F b) (n + 1 + body.size))

end

-- The values that the clones read.
mutual

def Steps.read (F : Function) : Steps → Nat → List Token
  | .done, _     => []
  | .inst s r, n => stamp n (F.sendsAt (reads M (cloneFunction F.toBody)) s) ++ r.read F (n + 1)
  | .call s c _ i r, n =>
    stamp n (F.sendsAt (reads M (cloneFunction F.toBody)) s) ++
    ((if follows M F s c then i.read (n + 1) else []) ++ r.read F (n + 1 + i.size))

def Calls.read : Calls → Nat → List Token
  | .done, _           => []
  | .enter F body r, n =>
    stamp n (removeArgs F) ++ (body.read F (n + 1) ++ r.read (n + 1 + body.size))

end

-- The instructions that only one of the function and its clone instruments.
def uneven : Site × Inst → Bool
  | (s, I) =>
    let update := startswith (F.blockName s.block) "update"
    let skip := update || startswith I.name "my_"
    let skipValue := inUpdate F.toBody s || startswith I.name "my_"
    match I.op with
    | .load _ =>
      I.ty.isFloatType && skipValue &&
        !(startswith I.name "my_load_val" || startswith I.name "my_load_idx_c")
    | .store v p =>
      (F.typeOf v).isFloatType &&
      (skipValue || startswith (F.nameOf p) "my_") !=
        (startswith ((cloneFunction F.toBody).nameOf p) "my_" || startswith I.name "my_store_buf")
    | .bitcast _               => I.ty.isFloatType && skipValue
    | .sitofp _ | .uitofp _    => skipValue
    | .fcmp _ _                =>
      decide (s ∈ fcmpMapPush F.toBody) != decide (s ∈ fcmpMap (cloneFunction F.toBody))
    | .select _ l r            => I.ty.isFloatType && skip != (l.isArg && r.isArg)
    | .br (some _) | .switch _ => update != unbranched F.toBody
    | .call g args             =>
      if startswith g "llvm.memset" then
        skipValue && setsFloats F.toBody args
      else if startswith g "llvm.memcpy" then
        skipValue && copiesFloats F.toBody args
      else
        I.ty.isFloatType && g ∈ M.libFunc && g ∉ M.libFuncList &&
        (skip || skipsCallee g) !=
          ((g ∈ M.mathFunc || startswith g "fpsan" || g = "printf") ||
            (startswith g "pull_print" || M.cloned g))
    | .icall _ _ => skip || startswith F.name "start_slice" || startswith F.name "end_slice"
    | _          => false

-- The executions that exist: a call of an instrumented function enters it and nothing
-- else, and so does an indirect call whose clone is found. What is below a call that the
-- producer jumps over is what the clone executes there. `jumped` says that the instruction
-- before is an unconditional branch.
mutual

def Steps.Valid (F : Function) : Steps → Bool → Bool → Prop
  | .done, _, _                      => True
  | .inst s r, jumped, entered       =>
    (∃ I, F.inst? s = some I ∧
      match I.op with
      | .call _ _ | .icall _ _ | .invoke _ _ => False
      | _                                    => True) ∧
    r.Valid F (jumps F s) (if s.idx = 0 then jumped else entered)
  | .call s c o i r, jumped, entered =>
    (∃ I, F.inst? s = some I ∧
      match I.op with
      | .call g _   => M.cloned g → ∃ G body, M.definition? g = some G ∧ i = .enter G body .done
      | .icall _ _  => c → ∃ G body, i = .enter G body .done
      | .invoke _ _ => True
      | _           => False) ∧
    o = passed M F (if s.idx = 0 then jumped else entered) s ∧
    i.Valid ∧ r.Valid F false (if s.idx = 0 then jumped else entered)

def Calls.Valid : Calls → Prop
  | .done           => True
  | .enter F body r =>
    M.definition? F.name = some F ∧ M.cloned F.name ∧ body.Valid F false false ∧ r.Valid

end

-- The execution of a slice, from the entry of its function on.
structure SliceRun where
  F       : Function
  steps   : Steps
  isSlice : F.isSlice
  valid   : (Calls.enter F steps .done).Valid M

namespace SliceRun

variable {M} (r : SliceRun M)

def pushed : List Token :=
  (Calls.enter r.F r.steps .done).pushed M false 0

def read : List Token :=
  (Calls.enter r.F r.steps .done).read M 0

end SliceRun

-- An instruction is instrumented on both sides or on neither, a function that does not push is not
-- read from.
def Even (on : Bool) (s : Site) : Prop :=
  ∀ I, F.inst? s = some I →
    if on then uneven M F (s, I) = false else receives M (cloneFunction F.toBody) (s, I) = false

-- No value is pushed.
mutual

def Steps.Silent (F : Function) (on : Bool) : Steps → Bool → Prop
  | .done, _           => True
  | .inst s r, b       =>
    (on → ∀ I, F.inst? s = some I → sends M F.toBody (s, I) = false) ∧ r.Silent F on b
  | .call s _ o i r, b =>
    let b' := handleEndSliceCallInstP F s b
    (on → ∀ I, F.inst? s = some I → sends M F.toBody (s, I) = false) ∧
    (o = false → i.Silent b') ∧ r.Silent F on (flagBehind F s o b (i.flag b'))

def Calls.Silent : Calls → Bool → Prop
  | .done, _           => True
  | .enter F body r, b =>
    pulls F = false ∧ body.Silent F (unconditional F || b) b ∧ r.Silent (body.flag F b)

end

-- No value is read.
mutual

def Steps.Deaf (F : Function) : Steps → Prop
  | .done           => True
  | .inst s r       =>
    (∀ I, F.inst? s = some I → receives M (cloneFunction F.toBody) (s, I) = false) ∧ r.Deaf F
  | .call s c _ i r =>
    (∀ I, F.inst? s = some I → receives M (cloneFunction F.toBody) (s, I) = false) ∧
    (follows M F s c → i.Deaf) ∧ r.Deaf F

def Calls.Deaf : Calls → Prop
  | .done           => True
  | .enter F body r => pulls F = false ∧ body.Deaf F ∧ r.Deaf

end

-- Every instruction that the clones execute is even, every call that they do not follow is silent,
-- and every call that the producer jumps over is deaf.
mutual

def Steps.Matched (F : Function) (on : Bool) : Steps → Bool → Prop
  | .done, _           => True
  | .inst s r, b       => Even M F on s ∧ r.Matched F on b
  | .call s c o i r, b =>
    let b' := handleEndSliceCallInstP F s b
    Even M F on s ∧
    (if o then follows M F s c → i.Deaf M else if follows M F s c then i.Matched b'
      else i.Silent M b') ∧
    r.Matched F on (flagBehind F s o b (i.flag b'))

def Calls.Matched : Calls → Bool → Prop
  | .done, _           => True
  | .enter F body r, b => body.Matched F (unconditional F || b) b ∧ r.Matched (body.flag F b)

end

def SliceRun.Matched {M : Module} (r : SliceRun M) : Prop :=
  (Calls.enter r.F r.steps .done).Matched M false

variable {M F}

theorem pushes_eq_reads_iff {x : Site × Inst} (hx : x ∈ F.insts) :
    pushes M F.toBody x = reads M (cloneFunction F.toBody) x ↔ uneven M F x = false := by
  have ht := F.typed x hx
  have hp := F.foreign x hx
  have hm := F.memory x hx
  obtain ⟨s, name, ty, op⟩ := x
  simp only [pushes, pushesBefore, pushesAfter, pushConditions, handleSelectProducer,
    handleCallInstProducer, handleICallInstProducer, handleFcmpProducer, pushValues, reads,
    handleBranch_cloneFunction, createGEP, handleIns, handleLoad, handleStore, handleSelect,
    handleCall, handleCallInst, handleFcmp, uneven]
  cases op with
  | load p =>
    cases hn : startswith name "my_" with
    | false =>
      have hv := not_startswith_append "my_" "load_val" hn
      have hi := not_startswith_append "my_" "load_idx_c" hn
      simp only [String.reduceAppend] at hv hi
      cases hy : ty.isFloatType <;> cases hb : inUpdate F.toBody s <;> simp [hv, hi]
    | true =>
      cases hy : ty.isFloatType <;> cases hv : startswith name "my_load_val" <;>
        cases hi : startswith name "my_load_idx_c" <;> simp
  | store v p =>
    have hm := isFloatType_or_isMPtrTy_cloneFunction (hp v (by simp [Op.operands]))
    simp only [hm, hp v (by simp [Op.operands]), Bool.or_false]
    cases hy : (F.typeOf v).isFloatType <;> cases hb : inUpdate F.toBody s <;>
      cases hn : startswith name "my_" <;> cases startswith (F.nameOf p) "my_" <;>
      cases startswith ((cloneFunction F.toBody).nameOf p) "my_" <;>
        cases startswith name "my_store_buf" <;> simp
  | bitcast v =>
    cases hy : ty.isFloatType <;> cases hb : inUpdate F.toBody s <;>
      cases hn : startswith name "my_" <;> simp
  | sitofp v => cases hb : inUpdate F.toBody s <;> cases hn : startswith name "my_" <;> simp
  | uitofp v => cases hb : inUpdate F.toBody s <;> cases hn : startswith name "my_" <;> simp
  | fcmp a b =>
    by_cases hd : s ∈ fcmpMapPush F.toBody <;>
      by_cases hl : s ∈ fcmpMap (cloneFunction F.toBody) <;> simp [hd, hl]
  | select c l r =>
    obtain ⟨hl, hr⟩ := ht c l r rfl
    simp only [isFloatType_cloneFunction, hl, hr]
    cases hy : ty.isFloatType <;> cases l.isArg <;> cases r.isArg <;>
      cases hb : startswith (F.blockName s.block) "update" <;> cases hn : startswith name "my_" <;>
      simp
  | br c =>
    cases c <;> cases hb : startswith (F.blockName s.block) "update" <;>
      cases hu : unbranched F.toBody <;> simp
  | switch c =>
    cases hb : startswith (F.blockName s.block) "update" <;> cases hu : unbranched F.toBody <;> simp
  | call g args =>
    by_cases hs : startswith g "llvm.memset"
    · have hf := hm g args rfl (startswith_of_append (p := "llvm.mem") (q := "set") hs)
      simp only at hf
      cases hb : inUpdate F.toBody s <;> cases hn : startswith name "my_" <;>
        simp [hs, not_memcpy_of_memset hs, hf, memset_cloneFunction, @eq_comm _ [], memset_eq_nil]
    · by_cases hc : startswith g "llvm.memcpy"
      · have hf := hm g args rfl (startswith_of_append (p := "llvm.mem") (q := "cpy") hc)
        simp only at hf
        cases hb : inUpdate F.toBody s <;> cases hn : startswith name "my_" <;>
          simp [hs, hc, hf, memcpy_cloneFunction, @eq_comm _ [], memcpy_eq_nil]
      · simp only [hs, hc, if_false, List.append_nil, Bool.false_eq_true, ite_self]
        cases hy : ty.isFloatType with
        | false => simp
        | true =>
          by_cases hf : g ∈ M.libFunc
          case neg => simp [hf]
          by_cases hl : g ∈ M.libFuncList
          case pos => simp [hl]
          cases hk : (startswith (F.blockName s.block) "update" || startswith name "my_") <;>
            cases hp : skipsCallee g <;>
            cases hq : (decide (g ∈ M.mathFunc) || startswith g "fpsan" ||
              decide (g = "printf")) <;>
            cases startswith g "pull_print" <;> cases M.cloned g <;> simp [hf, hl]
  | icall f args =>
    cases hb : startswith (F.blockName s.block) "update" <;> cases hn : startswith name "my_" <;>
      cases hs : startswith F.name "start_slice" <;> cases he : startswith F.name "end_slice" <;>
        simp
  | _ => simp

theorem stamp_inj {n : Nat} {es es' : List Send} : stamp n es = stamp n es' ↔ es = es' :=
  (List.map_injective_iff.mpr fun _ _ h => (Token.mk.inj h).right).eq_iff

@[simp]
theorem stamp_eq_nil {n : Nat} {es : List Send} : stamp n es = [] ↔ es = [] :=
  List.map_eq_nil_iff

theorem step_of_mem_stamp {n : Nat} {es : List Send} {t : Token} (h : t ∈ stamp n es) :
    t.step = n := by
  have ⟨_, _, he⟩ := List.mem_map.mp h
  exact he ▸ rfl

-- Two sequences of tokens agree if and only if they do so below and from a step on.
theorem append_eq_append_iff {n : Nat} {p q p' q' : List Token} (hp : ∀ t ∈ p, t.step < n)
    (hp' : ∀ t ∈ p', t.step < n) (hq : ∀ t ∈ q, n ≤ t.step) (hq' : ∀ t ∈ q', n ≤ t.step) :
    p ++ q = p' ++ q' ↔ p = p' ∧ q = q' := by
  refine ⟨fun h => ?_, fun ⟨h, h'⟩ => h ▸ h' ▸ rfl⟩
  have hl {r : List Token} (hr : ∀ t ∈ r, t.step < n) : r.filter (·.step < n) = r :=
    List.filter_eq_self.mpr (by simpa using hr)
  have hg {r : List Token} (hr : ∀ t ∈ r, n ≤ t.step) : r.filter (·.step < n) = [] :=
    List.filter_eq_nil_iff.mpr (by simpa using hr)
  have hf := congrArg (List.filter (·.step < n)) h
  rw [List.filter_append, List.filter_append, hl hp, hl hp', hg hq, hg hq'] at hf
  simp only [List.append_nil] at hf
  exact ⟨hf, List.append_cancel_left (hf ▸ h)⟩

-- The steps of the tokens that an execution of `size` steps from `n` on sends or reads.
def Within (n size : Nat) (ts : List Token) : Prop :=
  ∀ t ∈ ts, n ≤ t.step ∧ t.step < n + size

mutual

theorem Steps.pushed_within (F : Function) (on : Bool) :
    ∀ (e : Steps) (b : Bool) (n : Nat), Within n e.size (e.pushed M F on b n)
  | .done, b, n     => fun _ h => nomatch h
  | .inst s r, b, n => fun t h => by
    simp only [Steps.pushed, List.mem_append] at h
    simp only [Steps.size]
    cases h with
    | inl h => have := step_of_mem_stamp h; omega
    | inr h => have := r.pushed_within F on b (n + 1) t h; omega
  | .call s c o i r, b, n => fun t h => by
    simp only [Steps.pushed, List.mem_append] at h
    simp only [Steps.size]
    obtain h | h | h | h := h
    · have := step_of_mem_stamp h; omega
    · split at h
      · cases h
      · have := i.pushed_within _ _ t h; omega
    · have := step_of_mem_stamp h; omega
    · have := r.pushed_within F on _ _ t h; omega

theorem Calls.pushed_within :
    ∀ (e : Calls) (b : Bool) (n : Nat), Within n e.size (e.pushed M b n)
  | .done, b, n           => fun _ h => nomatch h
  | .enter F body r, b, n => fun t h => by
    simp only [Calls.pushed, List.mem_append] at h
    simp only [Calls.size]
    obtain h | h | h := h
    · have := step_of_mem_stamp h; omega
    · have := body.pushed_within F _ _ _ t h; omega
    · have := r.pushed_within _ _ t h; omega

end

mutual

theorem Steps.read_within (F : Function) :
    ∀ (e : Steps) (n : Nat), Within n e.size (e.read M F n)
  | .done, n     => fun _ h => nomatch h
  | .inst s r, n => fun t h => by
    simp only [Steps.read, List.mem_append] at h
    simp only [Steps.size]
    cases h with
    | inl h => have := step_of_mem_stamp h; omega
    | inr h => have := r.read_within F (n + 1) t h; omega
  | .call s c o i r, n => fun t h => by
    simp only [Steps.read, List.mem_append] at h
    simp only [Steps.size]
    obtain h | h | h := h
    · have := step_of_mem_stamp h; omega
    · split at h
      · have := i.read_within _ t h; omega
      · cases h
    · have := r.read_within F _ t h; omega

theorem Calls.read_within : ∀ (e : Calls) (n : Nat), Within n e.size (e.read M n)
  | .done, n           => fun _ h => nomatch h
  | .enter F body r, n => fun t h => by
    simp only [Calls.read, List.mem_append] at h
    simp only [Calls.size]
    obtain h | h | h := h
    · have := step_of_mem_stamp h; omega
    · have := body.read_within F _ t h; omega
    · have := r.read_within _ t h; omega

end

theorem sendsAt_append (f g : Site × Inst → List Send) (s : Site) :
    F.sendsAt f s ++ F.sendsAt g s = F.sendsAt (fun x => f x ++ g x) s := by
  rw [Body.sendsAt, Body.sendsAt, Body.sendsAt]
  cases F.inst? s <;> rfl

theorem sendsAt_eq_nil {f : Site × Inst → List Send} {s : Site} :
    F.sendsAt f s = [] ↔ ∀ I, F.inst? s = some I → f (s, I) = [] := by
  rw [Body.sendsAt]
  cases F.inst? s <;> simp

theorem removeArgs_eq : removeArgs F = createUpdateBlockArg1 F := by
  have h (n : Nat) : ((cloneFunction F.toBody).typeOf (.arg n)).isMPtrTy =
      (F.typeOf (.arg n)).isFloatType := by
    rw [typeOf_cloneFunction]
    simp only [Operand.isArg, if_true, Ty.isMPtrTy_shadow, Body.typeOf]
    obtain h | ⟨p, h⟩ := Option.eq_none_or_eq_some F.params[n]?
    · simp [h, Ty.isMPtrTy]
    · simp [h, F.noMeta p (List.mem_of_getElem? h)]
  simp only [removeArgs, createUpdateBlockArg1, h]

theorem createUpdateBlockArg1_eq_nil : createUpdateBlockArg1 F = [] ↔ pulls F = false := by
  have hp : (∀ n < F.params.length, (F.typeOf (.arg n)).isFloatType = false) ↔
      ∀ p ∈ F.params, p.ty.isFloatType = false := by
    rw [List.forall_mem_iff_forall_getElem]
    exact forall₂_congr fun n hn => by simp [Body.typeOf, hn]
  cases hs : F.isSlice
  case false => simp [createUpdateBlockArg1, pulls, hs]
  case true  => simpa [createUpdateBlockArg1, pulls, hs] using hp

theorem even_iff {on : Bool} {s : Site} :
    (if on then F.sendsAt (pushes M F.toBody) s else []) =
      F.sendsAt (reads M (cloneFunction F.toBody)) s ↔ Even M F on s := by
  rw [Even, Body.sendsAt, Body.sendsAt]
  match Option.eq_none_or_eq_some (F.inst? s) with
  | .inl h      => simp [h]
  | .inr ⟨I, h⟩ =>
    cases on with
    | true  => simp [h, ←pushes_eq_reads_iff (F.mem_insts.mpr h)]
    | false => simp [h, @eq_comm _ [], reads_eq_nil]

-- Nothing is sent behind a call that the clone follows if the clone reads
-- nothing more than is sent.
theorem pushesAfter_of_follows {s : Site} {c : Bool} (h : follows M F s c = true) {I : Inst}
    (hI : F.inst? s = some I) :
    pushesAfter M F.toBody (s, I) = [] ∨ reads M (cloneFunction F.toBody) (s, I) = [] := by
  obtain ⟨name, ty, op⟩ := I
  simp only [follows, hI, Option.any_some] at h
  cases op with
  | call g args =>
    right
    simp only [Bool.and_eq_true, Bool.not_eq_true', decide_eq_true_eq] at h
    simp [reads, handleBranch_cloneFunction, createGEP, handleIns, handleLoad, handleStore,
      handleSelect, handleCall, handleCallInst, handleFcmp, h]
  | icall f args =>
    left
    simp [pushesAfter, pushValues, handleFcmpProducer, handleSelectProducer, handleCallInstProducer]
  | _ => simp at h

-- A call with the executions below it.
theorem call_iff {n size : Nat} {pre post rd : List Send} {ts ts' : List Token}
    (ht : Within (n + 1) size ts) (ht' : Within (n + 1) size ts')
    (hs : pre ++ post = rd → ts = ts' → post = [] ∨ ts = []) :
    stamp n pre ++ (ts ++ stamp n post) = stamp n rd ++ ts' ↔ pre ++ post = rd ∧ ts = ts' := by
  constructor
  case mp =>
    intro h
    have hl {r : List Send} : (stamp n r).filter (·.step = n) = stamp n r :=
      List.filter_eq_self.mpr fun t ht => by simp [step_of_mem_stamp ht]
    have hl' {r : List Send} : (stamp n r).filter (·.step ≠ n) = [] :=
      List.filter_eq_nil_iff.mpr fun t ht => by simp [step_of_mem_stamp ht]
    have hg {r : List Token} (hr : Within (n + 1) size r) : r.filter (·.step = n) = [] :=
      List.filter_eq_nil_iff.mpr fun t ht => by have := hr t ht; simp; omega
    have hg' {r : List Token} (hr : Within (n + 1) size r) : r.filter (·.step ≠ n) = r :=
      List.filter_eq_self.mpr fun t ht => by have := hr t ht; simp; omega
    have he := congrArg (List.filter (·.step = n)) h
    have hi := congrArg (List.filter (·.step ≠ n)) h
    simp only [List.filter_append, hl, hl', hg ht, hg ht', hg' ht, hg' ht', List.nil_append,
      List.append_nil] at he hi
    refine ⟨?_, hi⟩
    rw [stamp, stamp, ←List.map_append] at he
    exact stamp_inj.mp he
  case mpr =>
    intro ⟨h, hi⟩
    cases hs h hi with
    | inl hp => simp [←h, ←hi, hp]
    | inr hn => simp [←h, ←hi, hn, stamp]

theorem call_step {on : Bool} {s : Site} {c : Bool} {n size size' : Nat}
    {ts ts' rs rs' : List Token} (ht : Within (n + 1) size ts) (ht' : Within (n + 1) size ts')
    (hr : Within (n + 1 + size) size' rs) (hr' : Within (n + 1 + size) size' rs')
    (hf : follows M F s c = false → ts = ts' → ts = []) :
    stamp n (if on then F.sendsAt (pushesBefore F.toBody) s else []) ++
      (ts ++ (stamp n (if on then F.sendsAt (pushesAfter M F.toBody) s else []) ++ rs)) =
    stamp n (F.sendsAt (reads M (cloneFunction F.toBody)) s) ++ (ts' ++ rs') ↔
    Even M F on s ∧ ts = ts' ∧ rs = rs' := by
  have he : (if on then F.sendsAt (pushesBefore F.toBody) s else []) ++
      (if on then F.sendsAt (pushesAfter M F.toBody) s else []) =
      if on then F.sendsAt (pushes M F.toBody) s else [] := by
    cases on with
    | true  => exact sendsAt_append _ _ s
    | false => rfl
  have hs : (if on then F.sendsAt (pushesBefore F.toBody) s else []) ++
      (if on then F.sendsAt (pushesAfter M F.toBody) s else []) =
      F.sendsAt (reads M (cloneFunction F.toBody)) s → ts = ts' →
      (if on then F.sendsAt (pushesAfter M F.toBody) s else []) = [] ∨ ts = [] := by
    intro hp hi
    cases hw : follows M F s c with
    | false => exact .inr (hf hw hi)
    | true  =>
      left
      match Option.eq_none_or_eq_some (F.inst? s) with
      | .inl h      => simp [Body.sendsAt, h]
      | .inr ⟨I, h⟩ =>
        cases pushesAfter_of_follows hw h with
        | inl ha => simp [Body.sendsAt, h, ha]
        | inr hd =>
          simp only [Body.sendsAt, h, Option.elim, hd, List.append_eq_nil_iff] at hp ⊢
          exact hp.right
  generalize (if on then F.sendsAt (pushesBefore F.toBody) s else []) = pre at *
  generalize (if on then F.sendsAt (pushesAfter M F.toBody) s else []) = post at *
  have hl : ∀ t ∈ stamp n pre ++ (ts ++ stamp n post), t.step < n + 1 + size := by
    intro t hm
    simp only [List.mem_append] at hm
    obtain hm | hm | hm := hm
    · have := step_of_mem_stamp hm; omega
    · exact (ht t hm).right
    · have := step_of_mem_stamp hm; omega
  have hl' : ∀ t ∈ stamp n (F.sendsAt (reads M (cloneFunction F.toBody)) s) ++ ts',
      t.step < n + 1 + size := by
    intro t hm
    cases List.mem_append.mp hm with
    | inl hm => have := step_of_mem_stamp hm; omega
    | inr hm => exact (ht' t hm).right
  have ha := append_eq_append_iff hl hl' (fun t hm => (hr t hm).left) fun t hm => (hr' t hm).left
  simp only [List.append_assoc] at ha
  rw [ha, call_iff ht ht' hs, he, even_iff, and_assoc]

mutual

theorem Steps.pushed_eq_nil_iff (F : Function) (on : Bool) :
    ∀ (e : Steps) (b : Bool) (n : Nat), e.pushed M F on b n = [] ↔ e.Silent M F on b
  | .done, b, n     => by simp [Steps.pushed, Steps.Silent]
  | .inst s r, b, n => by
    have hr := r.pushed_eq_nil_iff F on b (n + 1)
    simp only [Steps.pushed, Steps.Silent, List.append_eq_nil_iff, stamp_eq_nil, hr]
    cases on <;> simp [sendsAt_eq_nil, pushes_eq_nil]
  | .call s _ o i r, b, n => by
    have hi := i.pushed_eq_nil_iff (handleEndSliceCallInstP F s b) (n + 1)
    have hr := r.pushed_eq_nil_iff F on
      (flagBehind F s o b (i.flag (handleEndSliceCallInstP F s b))) (n + 1 + i.size)
    have ho : (if o then [] else i.pushed M (handleEndSliceCallInstP F s b) (n + 1)) = [] ↔
        (o = false → i.Silent M (handleEndSliceCallInstP F s b)) := by
      rw [← hi]
      cases o <;> simp
    simp only [Steps.pushed, Steps.Silent, List.append_eq_nil_iff, stamp_eq_nil, ho, hr]
    cases on with
    | false => simp
    | true  =>
      simp only [if_true, sendsAt_eq_nil, ← pushes_eq_nil, pushes, List.append_eq_nil_iff,
        true_implies]
      constructor
      · exact fun ⟨hb, hi, ha, hr⟩ => ⟨fun I hI => ⟨hb I hI, ha I hI⟩, hi, hr⟩
      · exact fun ⟨h, hi, hr⟩ => ⟨fun I hI => (h I hI).left, hi, fun I hI => (h I hI).right, hr⟩

theorem Calls.pushed_eq_nil_iff :
    ∀ (e : Calls) (b : Bool) (n : Nat), e.pushed M b n = [] ↔ e.Silent M b
  | .done, b, n           => by simp [Calls.pushed, Calls.Silent]
  | .enter F body r, b, n => by
    have hb := body.pushed_eq_nil_iff F (unconditional F || b) b (n + 1)
    have hr := r.pushed_eq_nil_iff (body.flag F b) (n + 1 + body.size)
    simp only [Calls.pushed, Calls.Silent, List.append_eq_nil_iff, stamp_eq_nil,
      createUpdateBlockArg1_eq_nil, hb, hr]

end

mutual

theorem Steps.read_eq_nil_iff (F : Function) :
    ∀ (e : Steps) (n : Nat), e.read M F n = [] ↔ e.Deaf M F
  | .done, n           => by simp [Steps.read, Steps.Deaf]
  | .inst s r, n       => by
    have hr := r.read_eq_nil_iff F (n + 1)
    simp only [Steps.read, Steps.Deaf, List.append_eq_nil_iff, stamp_eq_nil, sendsAt_eq_nil,
      reads_eq_nil, hr]
  | .call s c _ i r, n => by
    have hi := i.read_eq_nil_iff (n + 1)
    have hr := r.read_eq_nil_iff F (n + 1 + i.size)
    have hf : (if follows M F s c then i.read M (n + 1) else []) = [] ↔
        (follows M F s c → i.Deaf M) := by
      rw [← hi]
      cases follows M F s c <;> simp
    simp only [Steps.read, Steps.Deaf, List.append_eq_nil_iff, stamp_eq_nil, sendsAt_eq_nil,
      reads_eq_nil, hf, hr]

theorem Calls.read_eq_nil_iff : ∀ (e : Calls) (n : Nat), e.read M n = [] ↔ e.Deaf M
  | .done, n           => by simp [Calls.read, Calls.Deaf]
  | .enter F body r, n => by
    have hb := body.read_eq_nil_iff F (n + 1)
    have hr := r.read_eq_nil_iff (n + 1 + body.size)
    simp only [Calls.read, Calls.Deaf, List.append_eq_nil_iff, stamp_eq_nil, removeArgs_eq,
      createUpdateBlockArg1_eq_nil, hb, hr]

end

mutual

theorem Steps.pushed_eq_read (F : Function) (on : Bool) :
    ∀ (e : Steps) (b : Bool) (n : Nat), e.pushed M F on b n = e.read M F n ↔ e.Matched M F on b
  | .done, b, n     => by simp [Steps.pushed, Steps.read, Steps.Matched]
  | .inst s r, b, n => by
    have hr := r.pushed_eq_read F on b (n + 1)
    simp only [Steps.pushed, Steps.read, Steps.Matched, ←hr, ←even_iff, ←stamp_inj (n := n)]
    exact append_eq_append_iff
      (fun t ht => Nat.lt_succ_of_le (Nat.le_of_eq (step_of_mem_stamp ht)))
      (fun t ht => Nat.lt_succ_of_le (Nat.le_of_eq (step_of_mem_stamp ht)))
      (fun t ht => (r.pushed_within F on b (n + 1) t ht).left)
      (fun t ht => (r.read_within F (n + 1) t ht).left)
  | .call s c o i r, b, n => by
    let b' := handleEndSliceCallInstP F s b
    have hr := r.pushed_eq_read F on (flagBehind F s o b (i.flag b')) (n + 1 + i.size)
    have hi : Within (n + 1) i.size (if o then [] else i.pushed M b' (n + 1)) := by
      split
      · exact fun _ h => nomatch h
      · exact i.pushed_within b' (n + 1)
    have hi' : Within (n + 1) i.size (if follows M F s c then i.read M (n + 1) else []) := by
      split
      · exact i.read_within (n + 1)
      · exact fun _ h => nomatch h
    -- What is below the call is executed by both, by one of them or by none.
    have hm : (if o then [] else i.pushed M b' (n + 1)) =
      (if follows M F s c then i.read M (n + 1) else []) ↔
        if o then follows M F s c → i.Deaf M else if follows M F s c then i.Matched M b'
          else i.Silent M b' := by
      cases o with
      | true  =>
        cases follows M F s c with
        | true  => simpa [@eq_comm _ []] using i.read_eq_nil_iff (n + 1)
        | false => simp
      | false =>
        cases follows M F s c with
        | true  => exact i.pushed_eq_read b' (n + 1)
        | false => exact i.pushed_eq_nil_iff b' (n + 1)
    have hn : follows M F s c = false →
        (if o then [] else i.pushed M b' (n + 1)) =
          (if follows M F s c then i.read M (n + 1) else []) →
        (if o then [] else i.pushed M b' (n + 1)) = [] :=
      fun h he => he.trans (by rw [h]; rfl)
    have hw := r.pushed_within (M := M) F on (flagBehind F s o b (i.flag b')) (n + 1 + i.size)
    have hw' := r.read_within (M := M) F (n + 1 + i.size)
    simp only [Steps.pushed, Steps.read, Steps.Matched]
    exact (call_step hi hi' hw hw' hn).trans <| and_congr_right fun _ => and_congr hm hr

theorem Calls.pushed_eq_read :
    ∀ (e : Calls) (b : Bool) (n : Nat), e.pushed M b n = e.read M n ↔ e.Matched M b
  | .done, b, n           => by simp [Calls.pushed, Calls.read, Calls.Matched]
  | .enter F body r, b, n => by
    have hb := body.pushed_eq_read F (unconditional F || b) b (n + 1)
    have hr := r.pushed_eq_read (body.flag F b) (n + 1 + body.size)
    simp only [Calls.pushed, Calls.read, Calls.Matched, ←hr, ←hb, removeArgs_eq,
      List.append_cancel_left_eq]
    exact append_eq_append_iff
      (fun t ht => (body.pushed_within F _ b (n + 1) t ht).right)
      (fun t ht => (body.read_within F (n + 1) t ht).right)
      (fun t ht => (r.pushed_within _ _ t ht).left)
      (fun t ht => (r.read_within _ t ht).left)

end

end Pass
