import PFPSanitizer.Lib.RealFunctions
import PFPSanitizer.Runtime.MathLib

-- The runtime with an MPFR whose operations are exact.
namespace Metadata

open RealFn

-- The doubles with the reals that they stand for. An infinity or a NaN stands for none.
structure Reals (D : Type) extends Libm D where
  real      : D → Option ℝ
  real_zero : real zero = some 0

variable {D : Type}

-- Doubles that are not rounded, with the function of the program that is of interest below.
noncomputable def Reals.plain : Reals ℝ where
  __        := (default : Libm ℝ)
  zero      := 0
  sinh      := Real.sinh
  real      := some
  real_zero := rfl

-- A shadow value is `none` where a function has no real value.
noncomputable def Reals.mpfr (R : Reals D) : Mpfr (Option ℝ) D where
  nan     := none
  setD    := R.real
  setSi n := some n
  add     := lift₂ <| total₂ (· + ·)
  sub     := lift₂ <| total₂ (· - ·)
  mul     := lift₂ <| total₂ (· * ·)
  div     := lift₂ RealFn.div
  fma     := lift₃ RealFn.fma
  fmod    := lift₂ RealFn.fmod
  atan2   := lift₂ RealFn.atan2
  hypot   := lift₂ RealFn.hypot
  pow     := lift₂ RealFn.pow
  sqrt x  := x.bind RealFn.sqrt
  cbrt x  := x.bind RealFn.cbrt
  floor x := x.bind RealFn.floor
  ceil x  := x.bind RealFn.ceil
  tan x   := x.bind RealFn.tan
  tanh x  := x.bind <| total Real.tanh
  sin x   := x.bind <| total Real.sin
  sinh x  := x.bind <| total Real.sinh
  cos x   := x.bind <| total Real.cos
  cosh x  := x.bind <| total Real.cosh
  acos x  := x.bind RealFn.acos
  atan x  := x.bind <| total Real.arctan
  abs x   := x.bind <| total abs
  log x   := x.bind RealFn.log
  log10 x := x.bind RealFn.log10
  asin x  := x.bind RealFn.asin
  exp x   := x.bind <| total Real.exp
  exp2 x  := x.bind RealFn.exp2

-- What a pointer to metadata says about an argument. A null pointer passes for zero.
inductive State.Held (s : State (Option ℝ) D) : Option Ptr → Arg → Prop
  | real {p e} (h : s.temps p = some e) : Held s (some p) (.real e.val)
  | null                                : Held s none (.int 0)

-- A function of the runtime writes the value of its result and no other temporary.
def Yields (s' : Option (State (Option ℝ) D)) (s : State (Option ℝ) D) (res : Ptr) (x : Option ℝ) :
    Prop :=
  ∃ s₁ e, s' = some s₁ ∧ s₁.temps = Function.update s.temps res (some e) ∧ e.val = x

def Wrapper.Computes (w : Wrapper (Option ℝ) D) (f : Fn) : Prop :=
  ∀ {s : State (Option ℝ) D} {ps args}, List.Forall₂ s.Held ps args → f.Accepts args →
  ∀ res i, Yields (w ps res i s) s res (f.apply args)

namespace Wrapper

theorem one_computes {w : Ptr → Ptr → Nat → State (Option ℝ) D → Option (State (Option ℝ) D)}
    {f : ℝ → Option ℝ}
    (h : ∀ {s p e}, s.temps p = some e → ∀ res i, Yields (w p res i s) s res (e.val.bind f)) :
    (one w).Computes (.one f) := by
  intro s ps args hs ha res i
  cases ha
  obtain _ | ⟨⟨hp⟩, _ | _⟩ := hs
  exact h hp res i

theorem two_computes {w : Ptr → Ptr → Ptr → Nat → State (Option ℝ) D → Option (State (Option ℝ) D)}
    {f : ℝ → ℝ → Option ℝ}
    (h : ∀ {s p q e e'}, s.temps p = some e → s.temps q = some e' → ∀ res i,
      Yields (w p q res i s) s res (lift₂ f e.val e'.val)) : (two w).Computes (.two f) := by
  intro s ps args hs ha res i
  cases ha
  obtain _ | ⟨⟨hp⟩, _ | ⟨⟨hq⟩, _ | _⟩⟩ := hs
  exact h hp hq res i

theorem three_computes
    {w : Ptr → Ptr → Ptr → Ptr → Nat → State (Option ℝ) D → Option (State (Option ℝ) D)}
    {f : ℝ → ℝ → ℝ → Option ℝ}
    (h : ∀ {s p q r e e' e''}, s.temps p = some e → s.temps q = some e' → s.temps r = some e'' →
      ∀ res i,
      Yields (w p q r res i s) s res (lift₃ f e.val e'.val e''.val)) : (three w).Computes
        (.three f) := by
  intro s ps args hs ha res i
  cases ha
  obtain _ | ⟨⟨hp⟩, _ | ⟨⟨hq⟩, _ | ⟨⟨hr⟩, _ | _⟩⟩⟩ := hs
  exact h hp hq hr res i

theorem scaled_computes
    {w : Ptr → Int → Ptr → Nat → State (Option ℝ) D → Option (State (Option ℝ) D)}
    {f : ℝ → ℤ → Option ℝ}
    (h : ∀ {s p e}, s.temps p = some e →
      ∀ n res i, Yields (w p n res i s) s res (e.val.bind (f · n))) :
    (scaled w).Computes (.scale f) := by
  intro s ps args hs ha res i
  cases ha
  obtain _ | ⟨⟨hp⟩, _ | ⟨⟨⟩, _ | _⟩⟩ := hs
  exact h hp 0 res i

end Wrapper

variable (R : Reals D)

theorem operation_computes {opCode : FpOp} {f : ℝ → ℝ → Option ℝ} (g : D → D → D)
    (h : (opCode, f) ∈ [(.fadd, total₂ (· + ·)), (.fsub, total₂ (· - ·)), (.fmul, total₂ (· * ·)),
      (.fdiv, RealFn.div)]) :
    (Wrapper.two <| operation R.mpfr opCode g).Computes (.two f) := by
  apply Wrapper.two_computes
  intro s p q e e' hp hq res i
  simp only [List.mem_cons, List.not_mem_nil, Prod.mk.injEq, or_false] at h
  simp only [operation, mCompute, hp, hq, Option.bind_eq_bind, Option.bind_some]
  match h with
  | .inl ⟨ho, hf⟩ | .inr (.inl ⟨ho, hf⟩) | .inr (.inr (.inl ⟨ho, hf⟩)) | .inr
      (.inr (.inr ⟨ho, hf⟩)) =>
    subst ho hf
    exact ⟨_, _, rfl, rfl, rfl⟩

theorem mathOne_computes {opCode : FpOp} {f : ℝ → Option ℝ} (g : D → D)
    (h : mathFn R.mpfr opCode = some (·.bind f)) :
    (Wrapper.one <| mathOne R.mpfr opCode g).Computes (.one f) := by
  apply Wrapper.one_computes
  intro s p e hp res i
  simp only [mathOne, handleMathD, hp, h, Option.bind_eq_bind, Option.bind_some]
  exact ⟨_, _, rfl, rfl, rfl⟩

theorem mathFun2_computes {opCode : FpOp} {f : ℝ → ℝ → Option ℝ} (g : D → D → D) :
    (Wrapper.two <| mathFun2 opCode (lift₂ f) g).Computes (.two f) := by
  apply Wrapper.two_computes
  intro s p q e e' hp hq res i
  simp only [mathFun2, mathTwo, hp, hq, Option.bind_eq_bind, Option.bind_some]
  exact ⟨_, _, rfl, rfl, rfl⟩

theorem mpfrLlvmFmaF643_computes :
    (Wrapper.three <| mpfrLlvmFmaF643 R.mpfr R.toLibm).Computes (.three RealFn.fma) := by
  apply Wrapper.three_computes
  intro s p q r e e' e'' hp hq hr res i
  simp only [mpfrLlvmFmaF643, mpfrFma, hp, hq, hr, Option.bind_eq_bind, Option.bind_some]
  exact ⟨_, _, rfl, rfl, rfl⟩

theorem mpfrLdexp2_computes :
    (Wrapper.scaled <| mpfrLdexp2 R.mpfr R.toLibm).Computes (.scale RealFn.ldexp) := by
  apply Wrapper.scaled_computes
  intro s p e hp n res i
  simp only [mpfrLdexp2, mpfrLdexp, hp, Option.bind_eq_bind, Option.bind_some]
  refine ⟨_, _, rfl, rfl, ?_⟩
  cases he : e.val with
  | none   => rfl
  | some x =>
    simp [State.unary, State.leaf, Reals.mpfr, lift₂, total₂, RealFn.exp2, RealFn.ldexp,
      Real.rpow_intCast]

-- The result is the difference of zero and the operand.
theorem mpfrFneg_computes :
    (Wrapper.one fun p res _ => mpfrFneg R.mpfr R.toDoubles p res).Computes
      (.one <| total (-·)) := by
  apply Wrapper.one_computes
  intro s p e hp res i
  simp only [mpfrFneg, hp, Option.bind_eq_bind, Option.bind_some]
  refine ⟨_, _, rfl, rfl, ?_⟩
  cases he : e.val with
  | none   => simp [Reals.mpfr, lift₂, R.real_zero]
  | some x => simp [Reals.mpfr, lift₂, total, total₂, R.real_zero]

end Metadata
