import PFPSanitizer.Pass.MathCalls

-- The shadow execution of straight-line code against its evaluation over the reals.
namespace Pass

open RealFn (Arg Fn total)
open Metadata (Reals)

-- What a clone gets of the arguments: its integers are null.
def Inputs.null (ρ : Inputs) : Inputs :=
  { ρ with intArg := fun _ => 0 }

-- The operands whose metadata is there when the instructions `l` are executed.
inductive Ready (F : Body) (l : List (Site × Inst)) : Operand → Prop
  | inst {t I} (h : (t, I) ∈ l) (ho : (I.op.fn? mathLib).isSome) : Ready F l (.inst t)
  | arg {n}                                                     : Ready F l (.arg n)
  | const {t n} (h : consMap F (.const t n))                    : Ready F l (.const t n)

namespace Frame

variable {F : Body} {D : Type} (E : Frame F (Option ℝ) D) (R : Reals D)

def inputs : Inputs where
  arg n      := (E.state.temps (E.args n)).bind (·.val)
  const b n  := R.real (E.literal b n)
  intArg     := E.intArgs
  intConst   := E.intLiteral

-- The metadata holds what the functions of the runtime make of the program.
def Agrees (l : List (Site × Inst)) (s : Metadata.State (Option ℝ) D) : Prop :=
  ∀ v, Ready F l v →
  s.Held (E.pointer v) ((E.inputs R).null.value F (eval shadowLib (E.inputs R).null F l) v)

theorem agrees_enter : E.Agrees R [] (E.enter R.mpfr) := by
  intro v hv
  cases hv with
  | inst h => cases h
  | @arg n =>
    cases hn : (F.typeOf (.arg n)).isFloatType with
    | true =>
      obtain ⟨e, he⟩ := Option.isSome_iff_exists.mp (E.held n hn)
      have hv : (E.inputs R).null.arg n = e.val := by simp [Inputs.null, inputs, he]
      simp only [pointer, Inputs.value, hn, if_true, hv]
      exact .real (by rw [E.temps_enter_args, he])
    | false =>
      simp only [pointer, Inputs.value, hn]
      exact .null
  | @const t n h =>
    obtain ⟨ht, hc⟩ := consMap_const.mp h
    obtain ⟨e, he, hv⟩ := E.temps_enter_const (A := R.mpfr) hc
    have hv : (E.inputs R).null.const t.isFloat n = e.val := hv.symm
    simp only [pointer, Inputs.value, ht, if_true, hv]
    exact .real he

end Frame

section Step

variable {F : Body} {l : List (Site × Inst)} {x : Site × Inst} {v : Operand} {ρ : Inputs}

theorem ready_concat (h : Ready F (l ++ [x]) v) (hl : ∀ y ∈ l, y.fst ≠ x.fst) :
    (v = .inst x.fst ∧ (x.snd.op.fn? mathLib).isSome) ∨ (Ready F l v ∧ v ≠ .inst x.fst) := by
  cases h with
  | inst h ho =>
    cases List.mem_append.mp h with
    | inl h =>
      refine .inr ⟨.inst h ho, ?_⟩
      intro he
      cases he
      exact hl _ h rfl
    | inr h =>
      cases List.mem_singleton.mp h
      exact .inl ⟨rfl, ho⟩
  | arg     => exact .inr ⟨.arg, nofun⟩
  | const h => exact .inr ⟨.const h, nofun⟩

theorem value_concat {lib : String → Option Fn} (h : v ≠ .inst x.fst) :
    ρ.value F (eval lib ρ F (l ++ [x])) v = ρ.value F (eval lib ρ F l) v := by
  cases v with
  | inst t =>
    have ht : t ≠ x.fst := fun he => h (he ▸ rfl)
    simp only [Inputs.value, eval]
    rw [SingleAssignment.eval_concat_of_ne ht]
  | _ => rfl

variable {D : Type} {s s' : Metadata.State (Option ℝ) D}

theorem held_of_update {p : Option Metadata.Ptr} {a : Arg} {res : Metadata.Ptr}
    {e : Option (Metadata.TempEntry (Option ℝ) D)} (h : s.Held p a) (hp : p ≠ some res)
    (hs : s'.temps = Function.update s.temps res e) : s'.Held p a := by
  cases h with
  | @real q _ h =>
    apply Metadata.State.Held.real
    rw [hs, Function.update_of_ne (fun he => hp (congrArg some he)), h]
  | null => exact .null

-- An operation writes to a slot of its own.
theorem pointer_ne (E : Frame F (Option ℝ) D) {t : Site} (ht : .inst t ∈ temps F)
    (hv : v ≠ .inst t) :
    E.pointer v ≠ some (E.temporary (.inst t)) := by
  intro h
  cases v with
  | inst u =>
    have hi := congrArg Metadata.Ptr.idx (Option.some.inj h)
    cases (slot_inj ht).mp hi.symm
    exact hv rfl
  | arg n =>
    rw [Frame.pointer] at h
    split at h
    · exact E.outer n (congrArg Metadata.Ptr.owner (Option.some.inj h))
    · exact nomatch h
  | const =>
    have hi := congrArg Metadata.Ptr.idx (Option.some.inj h)
    exact nomatch (slot_inj ht).mp hi.symm
  | _ => exact nomatch h

end Step

namespace StraightLine

variable {M : Module} (P : StraightLine M) {l r : List (Site × Inst)} {x : Site × Inst}

theorem idx_of_append (h : l ++ x :: r = P.insts) :
    (∀ y ∈ l, y.fst.idx < x.fst.idx) ∧ ∀ y ∈ r, x.fst.idx < y.fst.idx := by
  have hp := P.pairwise
  rw [← h, List.pairwise_append, List.pairwise_cons] at hp
  exact ⟨fun y hy => hp.right.right y hy x (List.mem_cons_self ..), hp.right.left.left⟩

-- Where the operands are found, the metadata is there.
theorem ready_of_found {v : Operand} (h : l ++ x :: r = P.insts)
    (hv : Source P.toBody x.fst v ∨ Exponent P.toBody v)
    (hf : handleOperand M (cloneFunction P.toBody) x.fst v) : Ready P.toBody l v := by
  cases v with
  | inst t =>
    have ⟨_, hlt, I, hI, ho⟩ := hv.resolve_right nofun
    have hm := P.mem_insts.mpr hI
    rw [← h, List.mem_append, List.mem_cons] at hm
    match hm with
    | .inl hm         => exact .inst hm ho
    | .inr (.inl hm)  => cases hm; exact absurd hlt (Nat.lt_irrefl _)
    | .inr (.inr hm)  => exact absurd hlt (Nat.lt_asymm <| (P.idx_of_append h).right _ hm)
  | arg n => exact .arg
  | const t n =>
    apply Ready.const
    rwa [handleOperand_const] at hf
    cases hv with
    | inl hs => cases t <;> first | rfl | exact nomatch hs
    | inr he => have ⟨_, he⟩ := he; rw [he]; rfl
  | _ => exact nomatch hv.resolve_right nofun

theorem ownsTemp {f : Fn} {args : List Operand} (hx : x ∈ P.insts)
    (hf : x.snd.op.fn? mathLib = some (f, args)) :
    x.snd.ownsTemp := by
  cases P.supported x hx with
  | @op _ I _ _ _ _ ht =>
    cases ho : I.op with
    | fneg | binary | call => simp [Inst.ownsTemp, ho, ht]
    | _ => simp [ho, Op.fn?] at hf
  | ret hr => rw [hr] at hf; cases hf

-- The operands of an operation are found. Those of a return are not looked up here.
def Found (x : Site × Inst) : Prop :=
  (x.snd.op.fn? mathLib).isSome →
    x.snd.op.operands.all (handleOperand M (cloneFunction P.toBody) x.fst)

variable {D : Type} (R : Reals D) (E : Frame P.toBody (Option ℝ) D)
  {s : Metadata.State (Option ℝ) D}

theorem visit_of_not_op (hx : x ∈ P.insts) (h : x.snd.op.fn? mathLib = none) :
    E.visit M R.mpfr R.toLibm x s = some s := by
  have ⟨v, hr⟩ := P.eq_ret hx h
  simp [Frame.visit, computeReal, hr]

-- An operation writes its value to its slot.
theorem visit_of_op {f : Fn} {args : List Operand} (hf : x.snd.op.fn? mathLib = some (f, args))
    (h : l ++ x :: r = P.insts) (ho : P.Found x) (hs : E.Agrees R l s) :
    Metadata.Yields (E.visit M R.mpfr R.toLibm x s) s (E.temporary (.inst x.fst))
      (result shadowLib (E.inputs R).null P.toBody (eval shadowLib (E.inputs R).null P.toBody l)
        x) := by
  have hx : x ∈ P.insts := h ▸ List.mem_append_right _ (List.mem_cons_self ..)
  have ⟨name, w, f', hn, hw, hc, hf', ht⟩ := computeReal_computes R (P.supported x hx) hf
  have ho := ho (hf ▸ rfl)
  have hv : E.visit M R.mpfr R.toLibm x s = w (args.map E.pointer) (E.temporary (.inst x.fst))
      (E.instId x.fst) s := by
    rw [← operands_fn? hf]
    simp only [Frame.visit, hn, if_pos ho, hw, Option.bind_eq_bind, Option.bind_some]
  have hr (env) : result shadowLib (E.inputs R).null P.toBody env x =
      f'.apply (args.map <| (E.inputs R).null.value P.toBody env) := by
    rw [result, hf', Option.bind_some]
  rw [hv, hr]
  apply hc _ ht.accepts
  rw [List.forall₂_map_left_iff, List.forall₂_map_right_iff, List.forall₂_same]
  intro v hv
  apply hs
  apply P.ready_of_found h (ht.source_or_exponent hv)
  rw [operands_fn? hf] at ho
  exact List.all_eq_true.mp ho v hv

theorem visit_agrees (h : l ++ x :: r = P.insts) (ho : P.Found x) (hs : E.Agrees R l s) :
    ∃ s', E.visit M R.mpfr R.toLibm x s = some s' ∧ E.Agrees R (l ++ [x]) s' := by
  have hx : x ∈ P.insts := h ▸ List.mem_append_right _ (List.mem_cons_self ..)
  have hl : ∀ y ∈ l, y.fst ≠ x.fst :=
    fun y hy he => absurd (he ▸ (P.idx_of_append h).left y hy) (Nat.lt_irrefl _)
  cases hf : x.snd.op.fn? mathLib with
  | none =>
    refine ⟨s, P.visit_of_not_op R E hx hf, ?_⟩
    intro v hv
    match ready_concat hv hl with
    | .inl ⟨_, hi⟩ => simp [hf] at hi
    | .inr ⟨hv, hn⟩ =>
      rw [value_concat hn]
      exact hs v hv
  | some fa =>
    have ⟨s', e, hv, ht, he⟩ := P.visit_of_op R E hf h ho hs
    refine ⟨s', hv, ?_⟩
    intro v hv
    match ready_concat hv hl with
    | .inl ⟨hv, _⟩ =>
      subst hv
      rw [Inputs.value, eval, SingleAssignment.eval_concat, Function.update_self]
      exact he ▸ .real (by rw [ht, Function.update_self])
    | .inr ⟨hv, hn⟩ =>
      rw [value_concat hn]
      exact held_of_update (hs v hv) (pointer_ne E (mem_temps_inst hx (P.ownsTemp hx hf)) hn) ht

-- The shadow execution evaluates the program with the functions of the runtime.
theorem run_agrees (h : ∀ x ∈ P.insts, P.Found x) :
    ∃ s, E.run M R.mpfr R.toLibm = some s ∧ E.Agrees R P.insts s := by
  suffices ∀ l r, l ++ r = P.insts → ∃ s,
      l.foldlM (fun s x => E.visit M R.mpfr R.toLibm x s) (E.enter R.mpfr) = some s ∧
        E.Agrees R l s from
    this P.insts [] (List.append_nil _)
  intro l
  induction l using List.reverseRecOn with
  | nil => exact fun _ _ => ⟨_, rfl, E.agrees_enter R⟩
  | append_singleton l x ih =>
    intro r hr
    rw [List.append_assoc, List.singleton_append] at hr
    have ⟨s, hs, ha⟩ := ih _ hr
    have ⟨s', hs', ha'⟩ := P.visit_agrees R E hr (h x (hr ▸ by simp)) ha
    exact ⟨s', by simp [List.foldlM_append, hs, hs'], ha'⟩

-- The code is there only if all operands are found.
theorem found_of_run (h : E.run M R.mpfr R.toLibm = some s) : ∀ x ∈ P.insts, P.Found x := by
  suffices ∀ (l : List (Site × Inst)) s₀, (∀ x ∈ l, x ∈ P.insts) →
    l.foldlM (fun s x => E.visit M R.mpfr R.toLibm x s) s₀ = some s →
      ∀ x ∈ l, P.Found x from this _ _ (fun _ => id) h
  intro l
  induction l with
  | nil => exact fun _ _ _ _ h => nomatch h
  | cons x l ih =>
    intro s₀ hl h
    rw [List.foldlM_cons] at h
    have ⟨s₁, hv, h⟩ := Option.bind_eq_some_iff.mp h
    rw [List.forall_mem_cons] at hl ⊢
    refine ⟨?_, ih s₁ hl.right h⟩
    intro ho
    have ⟨_, hf⟩ := Option.isSome_iff_exists.mp ho
    have ⟨_, _, _, hn, _⟩ := computeReal_computes R (P.supported x hl.left) hf
    rw [Frame.visit, hn] at hv
    by_contra hc
    exact nomatch (if_neg hc).symm.trans hv

end StraightLine

section Comparison

variable {F : Body} {ρ : Inputs} {env : Site → Option ℝ} {v : Operand}

theorem Source.value_null {s : Site} (h : Source F s v) :
    ρ.null.value F env v = ρ.value F env v := by
  cases v with
  | arg n =>
    have h : (F.typeOf (.arg n)).isFloatType := h
    simp [Inputs.value, Inputs.null, h]
  | _ => rfl

theorem Exponent.value_null (h : Exponent F v) (ha : v.isArg) : ρ.null.value F env v = .int 0 := by
  cases v with
  | arg n =>
    obtain ⟨w, h⟩ := h
    rw [Inputs.value, h]
    rfl
  | _ => cases ha

theorem fn?_shadowLib_of_ne {o : Op} (h : ∀ args, o ≠ .call "sinh" args) :
    o.fn? shadowLib = o.fn? mathLib := by
  cases o with
  | call g args =>
    have hg : g ≠ "sinh" := fun he => h args (he ▸ rfl)
    rw [Op.fn?, shadowLib_of_ne hg]
    rfl
  | _ => rfl

-- The sine of a value is its hyperbolic sine only for zero.
theorem bind_sin_eq_iff {y : Option ℝ} :
    y.bind (total Real.sin) = y.bind (total Real.sinh) ↔ ∀ r, y = some r → r = 0 := by
  cases y with
  | none   => simp
  | some a => simp [total, eq_comm (a := Real.sin a), RealFn.sinh_eq_sin_iff]

theorem bind_ldexp_eq_iff {y : Option ℝ} {n : ℤ} :
    y.bind (RealFn.ldexp · 0) = y.bind (RealFn.ldexp · n) ↔ ∀ r, y = some r → r = 0 ∨ n = 0 := by
  cases y with
  | none   => simp
  | some a => simp [RealFn.ldexp, eq_comm (a := a), RealFn.mul_zpow_eq_self_iff]

end Comparison

namespace StraightLine

variable {M : Module} (P : StraightLine M) {x : Site × Inst} {ρ : Inputs} {env : Site → Option ℝ}
  {f : Fn} {args : List Operand}

theorem result_null_of_ne (hx : x ∈ P.insts) (hf : x.snd.op.fn? mathLib = some (f, args))
    (hs : ∀ args, x.snd.op ≠ .call "sinh" args) (hl : ∀ args, x.snd.op ≠ .call "ldexp" args) :
    result shadowLib ρ.null P.toBody env x = result mathLib ρ P.toBody env x := by
  have hv : args.map (ρ.null.value P.toBody env) = args.map (ρ.value P.toBody env) := by
    apply List.map_congr_left
    intro v hv
    cases (P.takes hx hf).source_or_exponent hv with
    | inl h => exact h.value_null
    | inr h =>
      have ⟨u, ho⟩ := h.eq_ldexp hv (P.takes hx hf) hf
      exact absurd ho (hl [u, v])
  simp only [result, fn?_shadowLib_of_ne hs, hf, Option.bind_some, hv]

theorem result_null_sinh {u : Operand} (hx : x ∈ P.insts) (ho : x.snd.op = .call "sinh" [u]) :
    result shadowLib ρ.null P.toBody env x = result mathLib ρ P.toBody env x ↔
    ∀ r, ρ.value P.toBody env u = .real (some r) → r = 0 := by
  have hf : x.snd.op.fn? mathLib = some (.one <| total Real.sinh, [u]) := by rw [ho]; rfl
  have hg : x.snd.op.fn? shadowLib = some (.one <| total Real.sin, [u]) := by rw [ho]; rfl
  have ⟨_, he, hu⟩ := (P.takes hx hf).of_one
  cases he
  have ⟨y, hy⟩ := hu.value_eq ρ env
  have hm : result mathLib ρ P.toBody env x = y.bind (total Real.sinh) := by
    simp [result, hf, hy, Fn.apply]
  have hn : result shadowLib ρ.null P.toBody env x = y.bind (total Real.sin) := by
    simp [result, hg, hu.value_null, hy, Fn.apply]
  rw [hm, hn, bind_sin_eq_iff, hy]
  simp only [Arg.real.injEq]

theorem result_null_ldexp {u n : Operand} (hx : x ∈ P.insts) (ho : x.snd.op = .call "ldexp" [u, n])
    (ha : n.isArg) :
    result shadowLib ρ.null P.toBody env x = result mathLib ρ P.toBody env x ↔
    ∀ r, ρ.value P.toBody env u = .real (some r) → r = 0 ∨ ρ.value P.toBody env n = .int 0 := by
  have hf : x.snd.op.fn? mathLib = some (.scale RealFn.ldexp, [u, n]) := by rw [ho]; rfl
  have hg : x.snd.op.fn? shadowLib = some (.scale RealFn.ldexp, [u, n]) := by rw [ho]; rfl
  have ⟨_, _, he, hu, hn⟩ := (P.takes hx hf).of_scale
  cases he
  have ⟨y, hy⟩ := hu.value_eq ρ env
  have ⟨k, hk⟩ := hn.value_eq ρ env
  have hm : result mathLib ρ P.toBody env x = y.bind (RealFn.ldexp · k) := by
    simp [result, hf, hy, hk, Fn.apply]
  have hz : result shadowLib ρ.null P.toBody env x = y.bind (RealFn.ldexp · 0) := by
    simp [result, hg, hu.value_null, hn.value_null ha, hy, Fn.apply]
  rw [hm, hz, bind_ldexp_eq_iff, hy, hk]
  simp only [Arg.real.injEq, Arg.int.injEq]

-- What an instruction demands so that the runtime computes its value.
structure Meets (ρ : Inputs) (env : Site → Option ℝ) (x : Site × Inst) : Prop where
  sinh  : ∀ u r, x.snd.op = .call "sinh" [u] → ρ.value P.toBody env u = .real (some r) → r = 0
  ldexp : ∀ u n r, x.snd.op = .call "ldexp" [u, n] → ρ.value P.toBody env u = .real (some r) →
          r = 0 ∨ ρ.value P.toBody env n = .int 0

theorem result_null_iff (hx : x ∈ P.insts) (hf : x.snd.op.fn? mathLib = some (f, args))
    (ha : ∀ u n, x.snd.op = .call "ldexp" [u, n] → n.isArg) :
    result shadowLib ρ.null P.toBody env x = result mathLib ρ P.toBody env x ↔ P.Meets ρ env x := by
  by_cases hs : ∃ args, x.snd.op = .call "sinh" args
  · have ⟨args', ho⟩ := hs
    have ht : Takes P.toBody x.fst (.one <| total Real.sinh) args' := P.takes hx (by rw [ho]; rfl)
    have ⟨u, he, _⟩ := ht.of_one
    subst he
    rw [P.result_null_sinh hx ho]
    constructor
    · intro h
      refine ⟨?_, by simp [ho]⟩
      intro v r ho' hv
      cases ho.symm.trans ho'
      exact h r hv
    · exact fun h r => h.sinh u r ho
  · by_cases hl : ∃ args, x.snd.op = .call "ldexp" args
    · have ⟨args', ho⟩ := hl
      have ht : Takes P.toBody x.fst (.scale RealFn.ldexp) args' := P.takes hx (by rw [ho]; rfl)
      have ⟨u, n, he, _⟩ := ht.of_scale
      subst he
      rw [P.result_null_ldexp hx ho (ha u n ho)]
      constructor
      · intro h
        refine ⟨by simp [ho], ?_⟩
        intro v m r ho' hv
        cases ho.symm.trans ho'
        exact h r hv
      · exact fun h r => h.ldexp u n r ho
    · have he : result shadowLib ρ.null P.toBody env x = result mathLib ρ P.toBody env x :=
        P.result_null_of_ne hx hf (fun args h => hs ⟨args, h⟩) (fun args h => hl ⟨args, h⟩)
      exact iff_of_true he ⟨fun u _ ho => absurd ⟨[u], ho⟩ hs, fun u n _ ho =>
        absurd ⟨[u, n], ho⟩ hl⟩

theorem result_of_not_op {lib : String → Option Fn} (h : x.snd.op.fn? lib = none) :
    result lib ρ P.toBody env x = none := by
  rw [result, h]
  rfl

variable {D : Type} (R : Reals D) (E : Frame P.toBody (Option ℝ) D)

-- The values of the program, and those that the runtime computes.
noncomputable def exact : Site → Option ℝ :=
  eval mathLib (E.inputs R) P.toBody P.insts

noncomputable def shadow : Site → Option ℝ :=
  eval shadowLib (E.inputs R).null P.toBody P.insts

theorem exact_eq (hx : x ∈ P.insts) :
    P.exact R E x.fst = result mathLib (E.inputs R) P.toBody (P.exact R E) x :=
  SingleAssignment.eval_key (local_result fun _ => rfl) P.ordered x hx

theorem shadow_eq (hx : x ∈ P.insts) :
    P.shadow R E x.fst = result shadowLib (E.inputs R).null P.toBody (P.shadow R E) x :=
  SingleAssignment.eval_key (local_result fn?_shadowLib) P.ordered x hx

-- The shadow execution reaches the return, and the temporary of each value has the exact value.
def Exact : Prop :=
  ∃ s, E.run M R.mpfr R.toLibm = some s ∧ ∀ x ∈ P.insts, (x.snd.op.fn? mathLib).isSome →
  ∃ e, s.temps (E.temporary (.inst x.fst)) = some e ∧ e.val = P.exact R E x.fst

-- What an instruction demands so that its temporary gets its value: a negated constant
-- that is also an operand of another instruction, a parameter as exponent, and values
-- that hide the wrong function.
structure Avoids (x : Site × Inst) : Prop extends P.Meets (E.inputs R) (P.exact R E) x where
  fneg     : ∀ v, x.snd.op = .fneg v → v.isConstantFP → consMap P.toBody v
  exponent : ∀ u n, x.snd.op = .call "ldexp" [u, n] → n.isArg

theorem avoids_of_not_op (hx : x ∈ P.insts) (h : x.snd.op.fn? mathLib = none) : P.Avoids R E x := by
  have ⟨v, hr⟩ := P.eq_ret hx h
  refine { sinh := ?_, ldexp := ?_, fneg := ?_, exponent := ?_ }
  all_goals
    intros
    simp_all

theorem exists_temporary {s : Metadata.State (Option ℝ) D} (hs : E.Agrees R P.insts s)
    (hx : x ∈ P.insts) (ho : (x.snd.op.fn? mathLib).isSome) :
    ∃ e, s.temps (E.temporary (.inst x.fst)) = some e ∧ e.val = P.shadow R E x.fst := by
  have h := hs _ (.inst hx ho)
  rw [Inputs.value] at h
  generalize hv : eval shadowLib (E.inputs R).null P.toBody P.insts x.fst = y at h
  cases h with
  | real h => exact ⟨_, h, hv.symm⟩

theorem exact_of_avoids (h : ∀ x ∈ P.insts, P.Avoids R E x) : P.Exact R E := by
  have hf : ∀ x ∈ P.insts, P.Found x := by
    intro x hx ho
    have ⟨_, hf⟩ := Option.isSome_iff_exists.mp ho
    exact (P.found_iff hx hf).mpr ⟨(h x hx).fneg, (h x hx).exponent⟩
  have he : P.shadow R E = P.exact R E := by
    apply SingleAssignment.eval_congr (local_result fun _ => rfl)
      (local_result fn?_shadowLib) P.ordered
    intro x hx
    cases hf : x.snd.op.fn? mathLib with
    | some fa => exact (P.result_null_iff hx hf (h x hx).exponent).mpr (h x hx).toMeets
    | none =>
      have hs := fn?_shadowLib x.snd.op
      rw [hf, Option.map_none, Option.map_eq_none_iff] at hs
      rw [P.result_of_not_op hf, P.result_of_not_op hs]
  have ⟨s, hr, hs⟩ := P.run_agrees R E hf
  exact ⟨s, hr, fun x hx ho => he ▸ P.exists_temporary R E hs hx ho⟩

theorem avoids_of_exact (h : P.Exact R E) : ∀ x ∈ P.insts, P.Avoids R E x := by
  have ⟨s, hr, hv⟩ := h
  have hf := P.found_of_run R E hr
  have ⟨s', hr', hs⟩ := P.run_agrees R E hf
  cases hr.symm.trans hr'
  have he : ∀ x ∈ P.insts, (x.snd.op.fn? mathLib).isSome →
      P.exact R E x.fst = P.shadow R E x.fst := by
    intro x hx ho
    have ⟨e, ht, he⟩ := hv x hx ho
    have ⟨e', ht', he'⟩ := P.exists_temporary R E hs hx ho
    cases ht.symm.trans ht'
    exact he.symm.trans he'
  intro x hx
  cases hfa : x.snd.op.fn? mathLib with
  | none => exact P.avoids_of_not_op R E hx hfa
  | some fa =>
    have ho : (x.snd.op.fn? mathLib).isSome := hfa ▸ rfl
    have ⟨hn, hl⟩ := (P.found_iff hx hfa).mp (hf x hx ho)
    have hk : result shadowLib (E.inputs R).null P.toBody (P.exact R E) x =
        result shadowLib (E.inputs R).null P.toBody (P.shadow R E) x := by
      apply local_result fn?_shadowLib
      intro t ⟨args, ha, ht⟩
      rw [hfa] at ha
      cases ha
      have ⟨_, _, I, hI, hIo⟩ := ((P.takes hx hfa).source_or_exponent ht).resolve_right nofun
      exact he _ (P.mem_insts.mpr hI) hIo
    have hm : P.Meets (E.inputs R) (P.exact R E) x := by
      apply (P.result_null_iff hx hfa hl).mp
      rw [hk, ← P.shadow_eq R E hx, ← P.exact_eq R E hx, he x hx ho]
    exact { hm with fneg := hn, exponent := hl }

-- The shadow execution is exact if and only if no instruction falls to one of the defects.
theorem exact_iff : P.Exact R E ↔ ∀ x ∈ P.insts, P.Avoids R E x :=
  ⟨P.avoids_of_exact R E, P.exact_of_avoids R E⟩

end StraightLine

-- A function that returns the hyperbolic sine of its argument.
def hyperbolic : StraightLine ⟨[], [], [], ["sinh"], []⟩ where
  name      := "hyperbolic"
  params    := [⟨"x", .double⟩]
  blocks    :=
    [⟨"entry", [⟨"y", .double, .call "sinh" [.arg 0]⟩, ⟨"", .void, .ret (some (.inst ⟨0, 0⟩))⟩]⟩]
  single    := rfl
  supported := by
    intro x hx
    match List.mem_pair.mp hx with
    | .inl hx =>
      subst hx
      refine .op rfl (.one rfl) rfl ?_
      intro g args ho
      cases ho
      decide
    | .inr hx =>
      subst hx
      exact .ret rfl

-- It is called with one.
noncomputable def hyperbolicOfOne : Frame hyperbolic.toBody (Option ℝ) ℝ where
  state      := Metadata.storeTempmetaConst Metadata.Reals.plain.mpfr ⟨⟨1, 0⟩, 0⟩ 1 0 <|
                Metadata.shadowSliceStart Metadata.Reals.plain.mpfr Metadata.Reals.plain.toDoubles
  self       := ⟨2, 1⟩
  args _     := ⟨⟨1, 0⟩, 0⟩
  intArgs _  := 0
  literal _ _ := 0
  intLiteral _ := 0
  instId s   := s.idx
  held _ _   := rfl
  outer _    := by decide

-- The runtime takes the sine.
theorem not_exact_hyperbolic :
    ¬∀ (M : Module) (P : StraightLine M) (D : Type) (R : Reals D) (E : Frame P.toBody (Option ℝ) D),
    P.Exact R E := by
  intro h
  have hx : (⟨0, 0⟩, ⟨"y", .double, .call "sinh" [.arg 0]⟩) ∈ hyperbolic.insts :=
    List.mem_cons_self ..
  have ha :=
    hyperbolic.avoids_of_exact _ _ (h _ hyperbolic ℝ Metadata.Reals.plain hyperbolicOfOne) _ hx
  exact one_ne_zero (ha.sinh (.arg 0) 1 rfl rfl)

end Pass
