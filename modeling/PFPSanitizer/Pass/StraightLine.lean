import PFPSanitizer.Lib.RealFunctions
import PFPSanitizer.Lib.SingleAssignment
import PFPSanitizer.Pass.Shadow

-- Straight-line code over the operations that the runtime supports, and what it evaluates to.
namespace Pass

open RealFn (Arg Fn total total₂)

-- The functions of the math library by the names under which programs call them.
noncomputable def mathLib : String → Option Fn
  | "sqrt" | "sqrtf"                              => some <| .one RealFn.sqrt
  | "cbrt"                                        => some <| .one RealFn.cbrt
  | "floor" | "llvm.floor.f64" | "llvm.floor.f32" => some <| .one RealFn.floor
  | "llvm.ceil.f64"                               => some <| .one RealFn.ceil
  | "abs" | "llvm.fabs.f64" | "llvm.fabs.f32"     => some <| .one <| total abs
  | "exp" | "expf"                                => some <| .one <| total Real.exp
  | "log"                                         => some <| .one RealFn.log
  | "log10"                                       => some <| .one RealFn.log10
  | "sin" | "sinf" | "llvm.sin.f64"               => some <| .one <| total Real.sin
  | "cos" | "cosf" | "llvm.cos.f64"               => some <| .one <| total Real.cos
  | "tan"                                         => some <| .one RealFn.tan
  | "asin"                                        => some <| .one RealFn.asin
  | "acos"                                        => some <| .one RealFn.acos
  | "atan"                                        => some <| .one <| total Real.arctan
  | "sinh"                                        => some <| .one <| total Real.sinh
  | "cosh"                                        => some <| .one <| total Real.cosh
  | "tanh"                                        => some <| .one <| total Real.tanh
  | "fmod"                                        => some <| .two RealFn.fmod
  | "atan2"                                       => some <| .two RealFn.atan2
  | "hypot"                                       => some <| .two RealFn.hypot
  | "pow"                                         => some <| .two RealFn.pow
  | "llvm.fma.f64"                                => some <| .three RealFn.fma
  | "ldexp"                                       => some <| .scale RealFn.ldexp
  | _                                             => none

noncomputable def BinaryOp.fn : BinaryOp → Fn
  | fadd => .two <| total₂ (· + ·)
  | fsub => .two <| total₂ (· - ·)
  | fmul => .two <| total₂ (· * ·)
  | fdiv => .two RealFn.div

noncomputable def Op.fn? (lib : String → Option Fn) : Op → Option (Fn × List Operand)
  | fneg v        => some (.one <| total (-·), [v])
  | binary op l r => some (op.fn, [l, r])
  | call g args   => (lib g).map (·, args)
  | _             => none

theorem operands_fn? {lib : String → Option Fn} {o : Op} {f : Fn} {args : List Operand}
    (h : o.fn? lib = some (f, args)) :
    o.operands = args := by
  cases o with
  | fneg | binary => cases h; rfl
  | call g =>
    have ⟨_, _, h⟩ := Option.map_eq_some_iff.mp h
    cases h
    rfl
  | _ => exact nomatch h

-- The operands that stand for a value when `s` is reached.
def Source (F : Body) (s : Site) : Operand → Prop
  | .inst t    => t.block = s.block ∧ t.idx < s.idx ∧ ∃ I, F.inst? t = some I ∧
      (I.op.fn? mathLib).isSome
  | .arg n     => (F.typeOf (.arg n)).isFloatType
  | .const t _ => t.isFloatType
  | _          => False

-- Exponents are integers that the program does not compute.
def Exponent (F : Body) : Operand → Prop
  | .arg n     => ∃ w, F.typeOf (.arg n) = .int w
  | .const t _ => ∃ w, t = .int w
  | _          => False

inductive Takes (F : Body) (s : Site) : Fn → List Operand → Prop
  | one   {f u} (hu : Source F s u) : Takes F s (.one f) [u]
  | two   {f u v} (hu : Source F s u) (hv : Source F s v) : Takes F s (.two f) [u, v]
  | three {f u v w} (hu : Source F s u) (hv : Source F s v) (hw : Source F s w) :
      Takes F s (.three f) [u, v, w]
  | scale {f u n} (hu : Source F s u) (hn : Exponent F n) : Takes F s (.scale f) [u, n]

inductive Supported (M : Module) (F : Body) : Site × Inst → Prop
  | op {s I f args} (hf : I.op.fn? mathLib = some (f, args)) (ha : Takes F s f args)
      (ht : I.ty.isFloatType)
    (hm : ∀ g args, I.op = .call g args → isMathCall M g) : Supported M F (s, I)
  | ret {s I v} (hr : I.op = .ret v) : Supported M F (s, I)

-- A function of one block of operations on arguments, constants and results of operations before.
structure StraightLine (M : Module) extends Body where
  single    : blocks.length = 1
  supported : ∀ x ∈ toBody.insts, Supported M toBody x

-- What a program computes with.
structure Inputs where
  arg      : Nat → Option ℝ
  const    : Bool → Nat → Option ℝ
  intArg   : Nat → ℤ
  intConst : Nat → ℤ
deriving Inhabited

-- The value of an operand where `env` has the values of the instructions.
def Inputs.value (ρ : Inputs) (F : Body) (env : Site → Option ℝ) : Operand → Arg
  | .inst t    => .real (env t)
  | .arg n     => if (F.typeOf (.arg n)).isFloatType then .real (ρ.arg n) else .int (ρ.intArg n)
  | .const t n => if t.isFloatType then .real (ρ.const t.isFloat n) else .int (ρ.intConst n)
  | _          => .real none

-- The value of an instruction.
noncomputable def result (lib : String → Option Fn) (ρ : Inputs) (F : Body) (env : Site → Option ℝ)
    (x : Site × Inst) :
    Option ℝ :=
  (x.snd.op.fn? lib).bind fun (f, args) => f.apply <| args.map <| ρ.value F env

-- The evaluation of the instructions `l` over the reals, where `lib` has the
-- functions that are called.
noncomputable def eval (lib : String → Option Fn) (ρ : Inputs) (F : Body) (l : List (Site × Inst)) :
    Site → Option ℝ :=
  SingleAssignment.eval Prod.fst (result lib ρ F) (fun _ => none) l

-- The instruction computes with the value of another.
def refers (x : Site × Inst) (s : Site) : Prop :=
  ∃ args ∈ (x.snd.op.fn? mathLib).map Prod.snd, .inst s ∈ args

section Operands

variable {F : Body} {ρ : Inputs} {env : Site → Option ℝ} {s : Site} {v : Operand}

theorem eq_ldexp_of_scale {g : String} {f : ℝ → ℤ → Option ℝ} (h : mathLib g = some (.scale f)) :
    g = "ldexp" := by
  rw [mathLib.eq_def] at h
  split at h <;> simp_all

theorem Source.value_eq (h : Source F s v) (ρ : Inputs) (env : Site → Option ℝ) :
    ∃ y, ρ.value F env v = .real y := by
  cases v with
  | inst t    => exact ⟨_, rfl⟩
  | arg n     => exact ⟨_, if_pos h⟩
  | const t n => exact ⟨_, if_pos h⟩
  | _         => exact nomatch h

theorem Exponent.value_eq (h : Exponent F v) (ρ : Inputs) (env : Site → Option ℝ) :
    ∃ n, ρ.value F env v = .int n := by
  cases v with
  | arg n =>
    have ⟨w, h⟩ := h
    exact ⟨_, by rw [Inputs.value, h]; rfl⟩
  | const t n =>
    have ⟨w, h⟩ := h
    subst h
    exact ⟨_, rfl⟩
  | _ => exact nomatch h

theorem Takes.accepts {f : Fn} {args : List Operand} (h : Takes F s f args) :
    f.Accepts (args.map (ρ.value F env)) := by
  cases h with
  | one hu =>
    have ⟨_, hu⟩ := hu.value_eq ρ env
    simp only [List.map, hu]
    exact .one
  | two hu hv =>
    have ⟨_, hu⟩ := hu.value_eq ρ env
    have ⟨_, hv⟩ := hv.value_eq ρ env
    simp only [List.map, hu, hv]
    exact .two
  | three hu hv hw =>
    have ⟨_, hu⟩ := hu.value_eq ρ env
    have ⟨_, hv⟩ := hv.value_eq ρ env
    have ⟨_, hw⟩ := hw.value_eq ρ env
    simp only [List.map, hu, hv, hw]
    exact .three
  | scale hu hn =>
    have ⟨_, hu⟩ := hu.value_eq ρ env
    have ⟨_, hn⟩ := hn.value_eq ρ env
    simp only [List.map, hu, hn]
    exact .scale

theorem Takes.of_one {f : ℝ → Option ℝ} {args : List Operand} (h : Takes F s (.one f) args) :
    ∃ u, args = [u] ∧ Source F s u := by
  cases h with
  | one hu => exact ⟨_, rfl, hu⟩

theorem Takes.of_scale {f : ℝ → ℤ → Option ℝ} {args : List Operand}
    (h : Takes F s (.scale f) args) :
    ∃ u n, args = [u, n] ∧ Source F s u ∧ Exponent F n := by
  cases h with
  | scale hu hn => exact ⟨_, _, rfl, hu, hn⟩

theorem Takes.source_or_exponent {f : Fn} {args : List Operand} (h : Takes F s f args)
    (hv : v ∈ args) :
    Source F s v ∨ Exponent F v := by
  cases h <;> grind

theorem Takes.idx_lt {f : Fn} {args : List Operand} {t : Site} (h : Takes F s f args)
    (ht : .inst t ∈ args) :
    t.idx < s.idx :=
  match h.source_or_exponent ht with
  | .inl h => h.right.left
  | .inr h => nomatch h

theorem Source.not_exponent (h : Source F s v) : ¬Exponent F v := by
  intro he
  have ⟨_, hr⟩ := h.value_eq default fun _ => none
  have ⟨_, hi⟩ := he.value_eq default fun _ => none
  exact nomatch hr.symm.trans hi

theorem Exponent.eq_ldexp {o : Op} {f : Fn} {args : List Operand} (h : Exponent F v) (hv : v ∈ args)
    (ha : Takes F s f args) (hf : o.fn? mathLib = some (f, args)) :
    ∃ u, o = .call "ldexp" [u, v] := by
  cases ha <;> simp only [List.mem_cons, List.not_mem_nil, or_false] at hv
  case one hu | two hu hv' | three hu hv' hw => grind [Source.not_exponent]
  case scale u n hu hn =>
    have hv : v = n := hv.resolve_left fun he => (he ▸ hu).not_exponent h
    subst hv
    cases o with
    | binary op => cases op <;> cases hf
    | call g =>
      have ⟨f, hg, hf⟩ := Option.map_eq_some_iff.mp hf
      cases hf
      exact ⟨u, by rw [eq_ldexp_of_scale hg]⟩
    | _ => exact nomatch hf

end Operands

section Evaluation

variable {lib : String → Option Fn} {ρ : Inputs} {F : Body}

theorem local_result (h : ∀ o : Op, (o.fn? lib).map Prod.snd = (o.fn? mathLib).map Prod.snd) :
    SingleAssignment.Local refers (result lib ρ F) := by
  intro env env' x hk
  rw [result, result]
  cases hf : x.snd.op.fn? lib with
  | none => rfl
  | some fa =>
    have hv : fa.snd.map (ρ.value F env) = fa.snd.map (ρ.value F env') := by
      apply List.map_congr_left
      intro v hv
      cases v with
      | inst t =>
        rw [Inputs.value, Inputs.value, hk t]
        refine ⟨fa.snd, ?_, hv⟩
        rw [← h, hf]
        rfl
      | _ => rfl
    exact congrArg fa.fst.apply hv

namespace StraightLine

variable {M : Module} (P : StraightLine M)

theorem insts_eq : P.insts = P.block 0 := by
  simp [Body.insts, P.single]

theorem pairwise : P.insts.Pairwise fun x y => x.fst.idx < y.fst.idx :=
  P.insts_eq ▸ P.block_pairwise 0

theorem takes {x : Site × Inst} {f : Fn} {args : List Operand} (hx : x ∈ P.insts)
    (hf : x.snd.op.fn? mathLib = some (f, args)) : Takes P.toBody x.fst f args := by
  cases P.supported x hx with
  | op hf' ha => cases hf.symm.trans hf'; exact ha
  | ret hr    => rw [hr] at hf; exact nomatch hf

theorem eq_ret {x : Site × Inst} (hx : x ∈ P.insts) (h : x.snd.op.fn? mathLib = none) :
    ∃ v, x.snd.op = .ret v := by
  cases P.supported x hx with
  | op hf  => exact nomatch h.symm.trans hf
  | ret hr => exact ⟨_, hr⟩

theorem refers_lt {x : Site × Inst} {s : Site} (hx : x ∈ P.insts) (h : refers x s) :
    s.idx < x.fst.idx := by
  have ⟨args, ha, hs⟩ := h
  have ⟨fa, hf, ha⟩ := Option.map_eq_some_iff.mp ha
  cases ha
  exact (P.takes hx hf).idx_lt hs

theorem ordered : SingleAssignment.Ordered Prod.fst refers P.insts where
  pairwise := by
    apply P.pairwise.imp_of_mem
    intro x y hx _ hlt
    constructor
    · intro he
      exact absurd (he ▸ hlt) (Nat.lt_irrefl _)
    · intro hr
      exact absurd (P.refers_lt hx hr) (Nat.lt_asymm hlt)
  irrefl x hx hr := absurd (P.refers_lt hx hr) (Nat.lt_irrefl _)

end StraightLine

end Evaluation

end Pass
