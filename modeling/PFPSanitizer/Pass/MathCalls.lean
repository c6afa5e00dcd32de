import PFPSanitizer.Runtime.Exact
import PFPSanitizer.Pass.Execution
import PFPSanitizer.Pass.StraightLine

-- The code of a clone for straight-line code: the functions that it calls and
-- the operands that it finds.
namespace Pass

open RealFn (Fn total)
open Metadata (Reals)

-- What the runtime computes for the functions of the math library.
noncomputable def shadowLib : String → Option Fn
  | "sinh" => some <| .one <| total Real.sin
  | g      => mathLib g

section Lib

theorem shadowLib_of_ne {g : String} (h : g ≠ "sinh") : shadowLib g = mathLib g := by
  rw [shadowLib]
  exact h

@[simp]
theorem isSome_shadowLib (g : String) : (shadowLib g).isSome = (mathLib g).isSome := by
  cases Decidable.eq_or_ne g "sinh" with
  | inl h => subst h; rfl
  | inr h => rw [shadowLib_of_ne h]

theorem fn?_shadowLib (o : Op) : (o.fn? shadowLib).map Prod.snd = (o.fn? mathLib).map Prod.snd := by
  cases o with
  | call g args =>
    simp only [Op.fn?, Option.map_map]
    have h := isSome_shadowLib g
    cases hs : shadowLib g <;> cases hm : mathLib g <;> simp_all
  | _ => rfl

variable {D : Type} (R : Reals D)

-- The wrapper of a function is one that computes the entry of `shadowLib`.
theorem wrapper_one {g : String} {f : ℝ → Option ℝ} (h : mathLib g = some (.one f)) :
    ∃ w f', Metadata.wrapper R.mpfr R.toLibm (Emit.funcName g 1) = some w ∧ w.Computes (.one f') ∧
    shadowLib g = some (.one f') := by
  rw [mathLib.eq_def] at h
  split at h <;> cases h
  all_goals exact ⟨_, _, rfl, Metadata.mathOne_computes R _ rfl, rfl⟩

theorem wrapper_two {g : String} {f : ℝ → ℝ → Option ℝ} (h : mathLib g = some (.two f)) :
    ∃ w, Metadata.wrapper R.mpfr R.toLibm (Emit.funcName g 2) = some w ∧ w.Computes (.two f) ∧
    shadowLib g = some (.two f) := by
  rw [mathLib.eq_def] at h
  split at h <;> cases h
  all_goals exact ⟨_, rfl, Metadata.mathFun2_computes _, rfl⟩

theorem wrapper_three {g : String} {f : ℝ → ℝ → ℝ → Option ℝ} (h : mathLib g = some (.three f)) :
    ∃ w, Metadata.wrapper R.mpfr R.toLibm (Emit.funcName g 3) = some w ∧ w.Computes (.three f) ∧
    shadowLib g = some (.three f) := by
  rw [mathLib.eq_def] at h
  split at h <;> cases h
  exact ⟨_, rfl, Metadata.mpfrLlvmFmaF643_computes R, rfl⟩

theorem wrapper_scale {g : String} {f : ℝ → ℤ → Option ℝ} (h : mathLib g = some (.scale f)) :
    ∃ w, Metadata.wrapper R.mpfr R.toLibm (Emit.funcName g 2) = some w ∧ w.Computes (.scale f) ∧
    shadowLib g = some (.scale f) := by
  rw [mathLib.eq_def] at h
  split at h <;> cases h
  exact ⟨_, rfl, Metadata.mpfrLdexp2_computes R, rfl⟩

theorem wrapper_binary (op : BinaryOp) (float : Bool) :
    ∃ w, Metadata.wrapper R.mpfr R.toLibm
      ("fpsan_mpfr_" ++ Emit.opName op ++ if float then "_f" else "") = some w ∧
    w.Computes op.fn := by
  cases op <;> cases float
  all_goals exact ⟨_, rfl, Metadata.operation_computes R _ (by simp)⟩

end Lib

section Code

variable {M : Module} {F : Body} {s : Site} {v : Operand}

-- Operands for the parameters of a function, reals and exponents.
inductive Passes (S T : Operand → Prop) : Fn → List Operand → Prop
  | one   {f u} (hu : S u) : Passes S T (.one f) [u]
  | two   {f u v} (hu : S u) (hv : S v) : Passes S T (.two f) [u, v]
  | three {f u v w} (hu : S u) (hv : S v) (hw : S w) : Passes S T (.three f) [u, v, w]
  | scale {f u n} (hu : S u) (hn : T n) : Passes S T (.scale f) [u, n]

theorem Takes.passes {f : Fn} {args : List Operand} (h : Takes F s f args) :
    Passes (Source F s) (Exponent F) f args := by
  cases h with
  | one hu         => exact .one hu
  | two hu hv      => exact .two hu hv
  | three hu hv hw => exact .three hu hv hw
  | scale hu hn    => exact .scale hu hn

theorem Passes.takes {f : Fn} {args : List Operand} (h : Passes (Source F s) (Exponent F) f args) :
    Takes F s f args := by
  cases h with
  | one hu         => exact .one hu
  | two hu hv      => exact .two hu hv
  | three hu hv hw => exact .three hu hv hw
  | scale hu hn    => exact .scale hu hn

-- The code for an operation calls a function that computes what `shadowLib` has for it.
theorem computeReal_passes {D : Type} (R : Reals D) {S T : Operand → Prop} {I : Inst} {f : Fn}
    {args : List Operand} (hf : I.op.fn? mathLib = some (f, args)) (ha : Passes S T f args)
    (hm : ∀ g args, I.op = .call g args → isMathCall M g) :
    ∃ name w f', computeReal M I = some name ∧ Metadata.wrapper R.mpfr R.toLibm name = some w ∧
    w.Computes f' ∧
    I.op.fn? shadowLib = some (f', args) ∧ Passes S T f' args := by
  cases ho : I.op with
  | fneg =>
    rw [ho] at hf
    cases hf
    exact ⟨_, _, _, by rw [computeReal, ho], rfl, Metadata.mpfrFneg_computes R, rfl, ha⟩
  | binary op =>
    rw [ho] at hf
    cases hf
    obtain ⟨w, hw, hc⟩ := wrapper_binary R op I.ty.isFloat
    exact ⟨_, w, _, by rw [computeReal, ho], hw, hc, rfl, ha⟩
  | call g =>
    rw [ho] at hf
    obtain ⟨f, hg, hf⟩ := Option.map_eq_some_iff.mp hf
    cases hf
    have hn : computeReal M I = some (Emit.funcName g args.length) := by
      simp [computeReal, ho, hm g args ho]
    cases ha with
    | one hu =>
      obtain ⟨w, f', hw, hc, hs⟩ := wrapper_one R hg
      exact ⟨_, w, _, hn, hw, hc, by rw [Op.fn?, hs]; rfl, .one hu⟩
    | two hu hv =>
      obtain ⟨w, hw, hc, hs⟩ := wrapper_two R hg
      exact ⟨_, w, _, hn, hw, hc, by rw [Op.fn?, hs]; rfl, .two hu hv⟩
    | three hu hv hw' =>
      obtain ⟨w, hw, hc, hs⟩ := wrapper_three R hg
      exact ⟨_, w, _, hn, hw, hc, by rw [Op.fn?, hs]; rfl, .three hu hv hw'⟩
    | scale hu hn' =>
      obtain ⟨w, hw, hc, hs⟩ := wrapper_scale R hg
      exact ⟨_, w, _, hn, hw, hc, by rw [Op.fn?, hs]; rfl, .scale hu hn'⟩
  | _ => rw [ho] at hf; cases hf

theorem computeReal_computes {D : Type} (R : Reals D) {I : Inst} {f : Fn} {args : List Operand}
    (hx : Supported M F (s, I)) (hf : I.op.fn? mathLib = some (f, args)) :
    ∃ name w f', computeReal M I = some name ∧ Metadata.wrapper R.mpfr R.toLibm name = some w ∧
    w.Computes f' ∧
    I.op.fn? shadowLib = some (f', args) ∧ Takes F s f' args := by
  cases hx with
  | ret hr => rw [hr] at hf; cases hf
  | op hf' ha _ hm =>
    cases hf.symm.trans hf'
    obtain ⟨name, w, f', hn, hw, hc, hs, hp⟩ := computeReal_passes R hf ha.passes hm
    exact ⟨name, w, f', hn, hw, hc, hs, hp.takes⟩

theorem consMap_cloneFunction (v : Operand) : consMap (cloneFunction F) v = consMap F v := by
  cases v <;> rfl

-- The constants that `createGEP` looks for are found.
theorem consMap_of_mem {I : Inst} (h : (s, I) ∈ F.insts) (hv : v ∈ I.constants) : consMap F v := by
  have hc : v.isConstantFP := (List.mem_filter.mp hv).right
  cases v with
  | const t n => exact consMap_const.mpr ⟨hc, mem_temps_const h hv hc⟩
  | _         => exact nomatch hc

theorem handleOperand_const {t : Ty} {n : Nat} (h : t.isMPtrTy = false) :
    handleOperand M (cloneFunction F) s (.const t n) = consMap F (.const t n) := by
  simp [handleOperand, consMap_cloneFunction, Body.typeOf, mInsMap, h]

theorem handleOperand_exponent (h : Exponent F v) :
    handleOperand M (cloneFunction F) s v = v.isArg := by
  cases v with
  | arg n => simp [handleOperand, Operand.isArg]
  | const t n =>
    obtain ⟨w, h⟩ := h
    subst h
    rw [handleOperand_const rfl]
    rfl
  | _ => cases h

namespace StraightLine

variable (P : StraightLine M)

theorem mapped_of_fn? {t : Site} {I : Inst} (h : P.inst? t = some I)
    (hI : (I.op.fn? mathLib).isSome) :
    mapped M (cloneFunction P.toBody) I := by
  cases P.supported _ (P.mem_insts.mpr h) with
  | op hf _ _ hm =>
    cases ho : I.op with
    | fneg | binary => simp [mapped, ho]
    | call g args   => simp [mapped, ho, hm g args ho]
    | _             => simp [ho, Op.fn?] at hI
  | ret hr => simp [hr, Op.fn?] at hI

theorem handleOperand_source (h : Source P.toBody s v) :
    handleOperand M (cloneFunction P.toBody) s v = (!v.isConstantFP || consMap P.toBody v) := by
  cases v with
  | inst t =>
    have ⟨hb, hi, I, hI, ho⟩ := h
    have hm := P.mapped_of_fn? hI ho
    simp [handleOperand, mInsMap, Operand.isConstantFP, hb, hi, hI, hm]
  | arg n => simp [handleOperand, Operand.isConstantFP]
  | const t n =>
    have ht : t.isMPtrTy = false := by
      cases t <;> first | rfl | exact nomatch h
    have hc : (Operand.const t n).isConstantFP = true := h
    rw [handleOperand_const ht, hc, Bool.not_true, Bool.false_or]
  | _ => exact nomatch h

-- No metadata is found for a negated constant that is not an operand elsewhere, nor for a constant
-- exponent. For the other operands there is some.
theorem found_iff {x : Site × Inst} {f : Fn} {args : List Operand} (hx : x ∈ P.insts)
    (hf : x.snd.op.fn? mathLib = some (f, args)) :
    x.snd.op.operands.all (handleOperand M (cloneFunction P.toBody) x.fst) ↔
    (∀ v, x.snd.op = .fneg v → v.isConstantFP → consMap P.toBody v) ∧
    ∀ u n, x.snd.op = .call "ldexp" [u, n] → n.isArg := by
  have ha := P.takes hx hf
  rw [operands_fn? hf, List.all_eq_true]
  constructor
  · intro h
    constructor
    · intro v ho hc
      rw [ho] at hf
      cases hf
      obtain ⟨hv⟩ := ha
      have hv' := h v (List.mem_singleton_self v)
      rwa [P.handleOperand_source hv, hc] at hv'
    · intro u n ho
      rw [ho] at hf
      cases hf
      obtain _ | _ | _ | ⟨hu, hn⟩ := ha
      rw [← handleOperand_exponent (M := M) (s := x.fst) hn]
      exact h n (by simp)
  · rintro ⟨hn, hl⟩ v hv
    cases ha.source_or_exponent hv with
    | inl hs =>
      rw [P.handleOperand_source hs, Bool.or_eq_true, Bool.not_eq_true']
      cases hc : v.isConstantFP with
      | false => exact .inl rfl
      | true =>
        refine .inr ?_
        cases ho : x.snd.op with
        | fneg u =>
          rw [ho] at hf
          cases hf
          cases List.mem_singleton.mp hv
          exact hn _ ho hc
        | binary | call =>
          apply consMap_of_mem (s := x.fst) (I := x.snd) hx
          rw [← operands_fn? hf, ho] at hv
          simp only [Inst.constants, ho, List.mem_filter]
          exact ⟨hv, hc⟩
        | _ => rw [ho] at hf; cases hf
    | inr he =>
      obtain ⟨u, ho⟩ := he.eq_ldexp hv ha hf
      rw [handleOperand_exponent he]
      exact hl u v ho

end StraightLine

end Code

end Pass
