import PFPSanitizer.Runtime.Reports

-- How far the counts are those of one slice, of its results and of its errors.
namespace Counting

open Metadata

section Carried

variable {V : Type} {A : Measures V} {L : Libm Float} {log2 : UInt64 → Float} {b b' : Buffer V}
  {a : Act V} {es : List Counter} {rs ns : List (TempEntry V Float)}

-- A step begins a slice, reports one, or adds to what it has counted.
theorem called_or_sliceEnd_or_adds (h : exec A L log2 a b = some b') :
    b' = b.called ∨ b' = (shadowSliceEnd b).snd ∨ ∃ es rs ns, Adds b b' es rs ns := by
  have ho := outcome h
  cases a with
  | op                     => obtain ⟨_, _, _, -, ha⟩ := ho; exact .inr (.inr ⟨_, _, _, ha⟩)
  | fneg | checkError      => obtain ⟨_, -, ha⟩ := ho; exact .inr (.inr ⟨_, _, _, ha⟩)
  | copyReturn p           =>
    cases p with
    | none   => exact .inr (.inr ⟨_, _, _, ho⟩)
    | some p => obtain ⟨_, -, ha⟩ := ho; exact .inr (.inr ⟨_, _, _, ha⟩)
  | checkBranch            => obtain ⟨_, ha⟩ := ho; exact .inr (.inr ⟨_, _, _, ha⟩)
  | trace | call           => exact .inr (.inr ⟨_, _, _, ho⟩)
  | enter | exit           => exact .inr (.inr ⟨_, _, _, ho⟩)
  | sliceStart             => exact .inl ho
  | sliceEnd               => exact .inr (.inl ho)

-- A count is that of the slice and of what was left before it, except for the infinities, to which
-- those of all earlier slices add.
structure Carried (b : Buffer V) : Prop where
  own : ∀ c, c ≠ .infCount → b.counts c = b.left.count c + b.counted.count c
  inf : b.counts .infCount = b.earlier.count .infCount + b.counted.count .infCount

theorem Carried.adds (h : Carried b) (ha : Adds b b' es rs ns) : Carried b' where
  own c hc := by rw [ha.counts, ha.counted, ha.left, h.own c hc, List.count_append, Nat.add_assoc]
  inf      := by rw [ha.counts, ha.counted, ha.earlier, h.inf, List.count_append, Nat.add_assoc]

theorem Carried.called (h : Carried b) : Carried b.called where
  own c hc := (h.own c hc).trans List.count_append.symm
  inf      := h.inf.trans List.count_append.symm

theorem counts_shadowSliceEnd (b : Buffer V) (c : Counter) :
    (shadowSliceEnd b).snd.counts c = if c = .infCount then b.counts c else 0 := by
  cases c <;> rfl

theorem Carried.sliceEnd (h : Carried b) : Carried (shadowSliceEnd b).snd where
  own c hc := by rw [counts_shadowSliceEnd, if_neg hc]; rfl
  inf      := by
    have he : (shadowSliceEnd b).snd.earlier = b.earlier ++ b.counted := rfl
    rw [counts_shadowSliceEnd, if_pos rfl, he, h.inf, List.count_append]
    rfl

theorem carried (h : (machine A L log2).Reachable b) : Carried b := by
  refine Machine.Reachable.invariant ⟨fun _ _ => rfl, rfl⟩ ?_ h
  intro a b b' _ hc e
  obtain rfl | rfl | ⟨es, rs, ns, ha⟩ := called_or_sliceEnd_or_adds e
  · exact hc.called
  · exact hc.sliceEnd
  · exact hc.adds ha

-- Two slices that count the same are reported alike exactly if the slices before them have counted
-- as many infinities, and behind the last report as many events of each other kind.
theorem report_eq_iff {b₁ b₂ : Buffer V} (h₁ : (machine A L log2).Reachable b₁)
    (h₂ : (machine A L log2).Reachable b₂) (h : b₁.counted = b₂.counted) :
    (shadowSliceEnd b₁).fst = (shadowSliceEnd b₂).fst ↔
    b₁.earlier.count .infCount = b₂.earlier.count .infCount ∧
      ∀ c, c ≠ .infCount → b₁.left.count c = b₂.left.count c := by
  have hc₁ := carried h₁
  have hc₂ := carried h₂
  have hown : ∀ c, c ≠ .infCount →
      (b₁.counts c = b₂.counts c ↔ b₁.left.count c = b₂.left.count c) := by
    intro c hc
    rw [hc₁.own c hc, hc₂.own c hc, h, Nat.add_right_cancel_iff]
  have hinf : b₁.counts .infCount = b₂.counts .infCount ↔
      b₁.earlier.count .infCount = b₂.earlier.count .infCount := by
    rw [hc₁.inf, hc₂.inf, h, Nat.add_right_cancel_iff]
  simp only [shadowSliceEnd, Report.mk.injEq]
  constructor
  · intro ⟨herror, hnan, hi, hflips, hcc⟩
    refine ⟨hinf.mp hi, fun c hc => (hown c hc).mp ?_⟩
    cases c with
    | infCount => exact absurd rfl hc
    | _        => assumption
  · intro ⟨hi, hl⟩
    have hn : ∀ c, c ≠ .infCount → b₁.counts c = b₂.counts c :=
      fun c hc => (hown c hc).mpr (hl c hc)
    exact ⟨hn _ (by decide), hn _ (by decide), hinf.mpr hi, hn _ (by decide), hn _ (by decide)⟩

-- A slice that divides and returns the result, up to the call of the next slice.
def dividing (x y : Float) : List (Act Float) :=
  .sliceStart :: computing .fdiv x y ++ [.sliceEnd, .checkError (slot 2), .exit, .sliceStart]

-- Whether one or two slices have returned a NaN, only the error of the last one is left.
theorem report_eq_invalid :
    (shadowSliceEnd (doubleMachine.after (dividing 0 0) (by decide +kernel))).fst =
      (shadowSliceEnd
        (doubleMachine.after (dividing 0 0 ++ dividing 0 0) (by decide +kernel))).fst := by
  refine (report_eq_iff (doubleMachine.reachable_after _ _) (doubleMachine.reachable_after _ _)
    ?_).mpr ⟨?_, ?_⟩
  · decide +kernel
  · decide +kernel
  · intro c _
    cases c <;> decide +kernel

-- A slice that counts nothing is reported with the infinity of an earlier one.
theorem not_report_eq : ¬∀ (V : Type) (A : Measures V) (L : Libm Float) (log2 : UInt64 → Float)
    (b₁ b₂ : Buffer V), (machine A L log2).Reachable b₁ → (machine A L log2).Reachable b₂ →
    b₁.counted = b₂.counted → (shadowSliceEnd b₁).fst = (shadowSliceEnd b₂).fst := by
  intro h
  have hr := doubleMachine.reachable_after (dividing 1 0) (by decide +kernel)
  exact absurd (h _ _ _ _ _ _ hr ⟨.init⟩ (by decide +kernel)) (by decide +kernel)

-- So is it with the error of a value that an earlier one has returned.
example : (shadowSliceEnd (doubleMachine.after (dividing 0 0) (by decide +kernel))).fst =
    { errors := 1, nans := 0, infs := 0, flips := 0, cancellations := 0 } := by
  decide +kernel

end Carried

section Exact

variable {V : Type} (A : Measures V) (L : Libm Float) (log2 : UInt64 → Float)

-- The results that are NaN or infinite are counted, and nothing else.
structure ExactResults (b : Buffer V) : Prop where
  nan : b.counts .nanCount = b.results.countP (·.computed.isNaN)
  inf : b.counts .infCount = b.results.countP (·.computed.isInf)

-- The condition on a step: the operation counts what it computes, and no infinity has been counted
-- when a slice is reported.
def Act.CountsResult : Act V → Buffer V → Prop
  | .op o, b     => ∀ d ∈ o.computed L b, (d.isNaN → o.countsNaN) ∧ (d.isInf → o.countsInf)
  | .sliceEnd, b => b.counts .infCount = 0
  | _, _         => True

-- Each result with more bits of error than the threshold is counted, and nothing else.
def ExactErrors (b : Buffer V) : Prop :=
  b.counts .errorCount = (b.results ++ b.negated).countP (above A log2)

instance (b : Buffer V) : Decidable (ExactErrors A log2 b) :=
  inferInstanceAs (Decidable (_ = _))

-- The entries that a step measures though it has not computed them, or does
-- not measure though it has.
def Act.misjudged : Act V → Buffer V → List (TempEntry V Float)
  | .copyReturn (some p) _, b | .checkError p, b => b.temps p |>.toList
  | .trace p, b                                  => printed p b
  | .fneg p _, b                                 => b.temps p |>.toList.map (negation A L)
  | _, _                                         => []

-- The condition on a step: these entries are below the threshold.
def Act.MeasuresOnce (a : Act V) (b : Buffer V) : Prop :=
  ∀ e ∈ a.misjudged A L b, ¬above A log2 e

variable {A L log2} {b b' : Buffer V} {a : Act V} {es : List Counter}
  {rs ns : List (TempEntry V Float)}

theorem count_flatMap_errorEvent (rs : List (TempEntry V Float)) (c : Counter) :
    (rs.flatMap (errorEvent A log2)).count c = if c = .errorCount then rs.countP (above A log2)
    else 0 := by
  induction rs with
  | nil          => exact (ite_self 0).symm
  | cons e rs ih =>
    rw [List.flatMap_cons, List.count_append, ih, errorEvent, count_once, List.countP_cons]
    cases above A log2 e <;> cases c <;> simp [Nat.add_comm]

theorem ExactResults.adds_iff (h : ExactResults b) (ha : Adds b b' es rs ns) :
    ExactResults b' ↔ es.count .nanCount = rs.countP (·.computed.isNaN) ∧
    es.count .infCount = rs.countP (·.computed.isInf) := by
  have hn := ha.counts .nanCount
  have hi := ha.counts .infCount
  constructor
  · intro h'
    have hn' := h'.nan
    have hi' := h'.inf
    rw [ha.results, List.countP_append, ← h.nan] at hn'
    rw [ha.results, List.countP_append, ← h.inf] at hi'
    omega
  · rintro ⟨hn', hi'⟩
    constructor
    · rw [hn, ha.results, List.countP_append, ← h.nan, hn']
    · rw [hi, ha.results, List.countP_append, ← h.inf, hi']

theorem ExactErrors.adds_iff (h : ExactErrors A log2 b) (ha : Adds b b' es rs ns) :
    ExactErrors A log2 b' ↔ es.count .errorCount = (rs ++ ns).countP (above A log2) := by
  rw [ExactErrors, List.countP_append] at h
  rw [ExactErrors, ha.counts, ha.results, ha.negated, List.countP_append, List.countP_append,
    List.countP_append, List.countP_append, h]
  omega

-- The event of a result, if it is counted.
theorem toNat_and_eq_iff (p t : Bool) : (p && t).toNat = (if t then 1 else 0) ↔ (t → p) := by
  cases p <;> cases t <;> decide

-- A step that is no operation keeps the two counts.
theorem ExactResults.of_quiet (h : ExactResults b) (ha : Adds b b' es [] ns)
    (hn : es.count .nanCount = 0) (hi : es.count .infCount = 0) : ExactResults b' :=
  (h.adds_iff ha).mpr ⟨hn, hi⟩

theorem exactResults_step (h : ExactResults b) (e : exec A L log2 a b = some b') :
    ExactResults b' ↔ a.CountsResult L b := by
  have ho := outcome e
  cases a with
  | op o =>
    obtain ⟨b₁, x, es, ho, ha⟩ := ho
    rw [h.adds_iff ha, ho.nan, ho.inf, Act.CountsResult, ho.computed, List.countP_singleton,
      List.countP_singleton, toNat_and_eq_iff, toNat_and_eq_iff]
    exact ⟨fun hx d hd => Option.some.inj hd ▸ hx, fun hx => hx _ rfl⟩
  | fneg =>
    obtain ⟨x, -, ha⟩ := ho
    exact iff_of_true (h.of_quiet ha rfl rfl) trivial
  | copyReturn p =>
    refine iff_of_true ?_ trivial
    cases p with
    | none   => exact h.of_quiet ho rfl rfl
    | some p =>
      obtain ⟨x, -, ha⟩ := ho
      exact h.of_quiet ha (count_once ..) (count_once ..)
  | checkError =>
    obtain ⟨x, -, ha⟩ := ho
    exact iff_of_true (h.of_quiet ha (count_once ..) (count_once ..)) trivial
  | trace =>
    exact iff_of_true (h.of_quiet ho (count_flatMap_errorEvent ..) (count_flatMap_errorEvent ..))
      trivial
  | checkBranch =>
    obtain ⟨t, ha⟩ := ho
    exact iff_of_true (h.of_quiet ha (count_once ..) (count_once ..)) trivial
  | call | enter | exit => exact iff_of_true (h.of_quiet ho rfl rfl) trivial
  | sliceStart =>
    subst ho
    exact iff_of_true ⟨h.nan, h.inf⟩ trivial
  | sliceEnd =>
    subst ho
    have hi : (shadowSliceEnd b).snd.counts .infCount = b.counts .infCount := rfl
    exact ⟨fun h' => h'.inf, fun h₀ => ⟨rfl, hi.trans h₀⟩⟩

-- A step that measures `ms` again, and does nothing else, is right if they are
-- all below the threshold.
theorem ExactErrors.measured_iff {ms : List (TempEntry V Float)} (h : ExactErrors A log2 b)
    (ha : Adds b b' (ms.flatMap (errorEvent A log2)) [] []) :
    ExactErrors A log2 b' ↔ ∀ e ∈ ms, ¬above A log2 e := by
  rw [h.adds_iff ha, count_flatMap_errorEvent, if_pos rfl]
  exact List.countP_eq_zero

theorem exactErrors_step (h : ExactErrors A log2 b) (e : exec A L log2 a b = some b') :
    ExactErrors A log2 b' ↔ a.MeasuresOnce A L log2 b := by
  have ho := outcome e
  have hs : ∀ x : TempEntry V Float, errorEvent A log2 x = [x].flatMap (errorEvent A log2) :=
    fun x =>
    (List.append_nil _).symm
  cases a with
  | op o =>
    obtain ⟨b₁, x, es, ho, ha⟩ := ho
    refine iff_of_true ((h.adds_iff ha).mpr ?_) (List.forall_mem_nil _)
    rw [ho.error, List.append_nil, List.countP_singleton]
    cases above A log2 x <;> rfl
  | fneg p res =>
    obtain ⟨x, hx, ha⟩ := ho
    rw [h.adds_iff ha, Act.MeasuresOnce, Act.misjudged, hx]
    exact eq_comm.trans List.countP_eq_zero
  | copyReturn p dest =>
    cases p with
    | none   => exact iff_of_true ((h.adds_iff ho).mpr rfl) (List.forall_mem_nil _)
    | some p =>
      obtain ⟨x, hx, ha⟩ := ho
      rw [hs] at ha
      rw [h.measured_iff ha, Act.MeasuresOnce, Act.misjudged, hx]
      rfl
  | checkError p =>
    obtain ⟨x, hx, ha⟩ := ho
    rw [hs] at ha
    rw [h.measured_iff ha, Act.MeasuresOnce, Act.misjudged, hx]
    rfl
  | trace p => exact h.measured_iff ho
  | checkBranch =>
    obtain ⟨t, ha⟩ := ho
    exact iff_of_true ((h.adds_iff ha).mpr (count_once ..)) (List.forall_mem_nil _)
  | call | enter | exit => exact iff_of_true ((h.adds_iff ho).mpr rfl) (List.forall_mem_nil _)
  | sliceStart =>
    subst ho
    exact iff_of_true h (List.forall_mem_nil _)
  | sliceEnd =>
    subst ho
    exact iff_of_true rfl (List.forall_mem_nil _)

-- The counts of NaN and infinities are right in a run exactly if every operation counts its result.
theorem always_exactResults_iff (r : (machine A L log2).Run b) :
    r.Always ExactResults ↔ r.Each fun a b => a.CountsResult L b :=
  r.always_iff_each ⟨rfl, rfl⟩ (fun _ h => h) (fun _ h hc e => (exactResults_step h e).mpr hc)
    (fun _ h hn e => mt (exactResults_step h e).mp hn)

-- A sum that overflows.
theorem not_always_exactResults :
    ¬∀ (V : Type) (A : Measures V) (L : Libm Float) (log2 : UInt64 → Float) (b : Buffer V)
    (r : (machine A L log2).Run b), r.Always ExactResults := by
  intro h
  let x : Float := .ofBits 0x7FE0000000000000
  obtain ⟨r⟩ := doubleMachine.reachable_after (computing .fadd x x) (by decide +kernel)
  exact absurd (h _ _ _ _ _ r).last.inf (by decide +kernel)

-- Errors are counted once in a run exactly if nothing that is above the
-- threshold is measured again.
theorem always_exactErrors_iff (r : (machine A L log2).Run b) :
    r.Always (ExactErrors A log2) ↔ r.Each (Act.MeasuresOnce A L log2) :=
  have h₀ : ExactErrors A log2 (machine A L log2).init := rfl
  r.always_iff_each h₀ (fun _ h => h) (fun _ h hc e => (exactErrors_step h e).mpr hc)
    (fun _ h hn e => mt (exactErrors_step h e).mp hn)

-- An invalid operation whose result is returned.
theorem not_always_exactErrors :
    ¬∀ (V : Type) (A : Measures V) (L : Libm Float) (log2 : UInt64 → Float) (b : Buffer V)
    (r : (machine A L log2).Run b), r.Always (ExactErrors A log2) := by
  intro h
  let dest : Ptr := { owner := { level := 1, id := 1 }, idx := 0 }
  obtain ⟨r⟩ :=
    doubleMachine.reachable_after (computing .fdiv 0 0 ++ [.copyReturn (some (slot 2)) dest])
      (by decide +kernel)
  exact absurd (h _ _ _ _ _ r).last (by decide +kernel)

end Exact

section Cancellation

variable {V : Type} (A : Measures V) (L : Libm Float) (log2 : UInt64 → Float)

namespace Arith

-- The operation on shadow values.
def val : Arith → V → V → V
  | fadd | faddF => A.add
  | fsub | fsubF => A.sub
  | fmul | fmulF => A.mul
  | fdiv | fdivF => A.div

-- The signs with which the operation can cancel.
def signs : Arith → Float → Float → Bool
  | fadd | faddF => oppositeSigns
  | fsub | fsubF => sameSigns
  | _            => fun _ _ => false

-- The operation on two entries really cancels.
def Cancels (k : Arith) (e₁ e₂ : TempEntry V Float) : Prop :=
  Metadata.Cancels e₁.computed e₂.computed (k.fn L e₁.computed e₂.computed)
    (intBitsError A log2 (k.val A e₁.val e₂.val) (k.fn L e₁.computed e₂.computed))

end Arith

variable {A L log2} {k : Arith} {b b' : Buffer V} {op1 op2 res : Ptr} {i : Nat}
  {e₁ e₂ e : TempEntry V Float}

theorem not_isNaN_of_signs {x y : Float} (h : k.signs x y) : ¬x.isNaN ∧ ¬y.isNaN := by
  have hn : ∀ z : Float, z < 0 ∨ z > 0 → ¬z.isNaN := by
    rintro z (hz | hz)
    · exact (Binary64.not_isNaN_of_lt hz).left
    · exact (Binary64.not_isNaN_of_lt hz).right
  cases k with
  | fadd | faddF | fsub | fsubF =>
    simp only [Arith.signs, oppositeSigns, sameSigns, Bool.or_eq_true, Bool.and_eq_true,
      decide_eq_true_eq] at h
    exact ⟨hn x (by tauto), hn y (by tauto)⟩
  | fmul | fmulF | fdiv | fdivF => cases h

theorem val_mCompute {s s' : State V Float} {d : Float}
    (h : Metadata.mCompute A.toMpfr k.opCode op1 op2 d res i s = some s')
    (h₁ : s.temps op1 = some e₁) (h₂ : s.temps op2 = some e₂) (he : s'.temps res = some e) :
    e.val = k.val A e₁.val e₂.val := by
  simp only [Metadata.mCompute, h₁, h₂, Option.bind_eq_bind, Option.bind_some] at h
  obtain rfl := Option.some.inj h
  have hu : ∀ x : TempEntry V Float, (s.record res x).temps res = some x :=
    fun x => Function.update_self ..
  obtain rfl := Option.some.inj ((hu _).symm.trans he)
  cases k <;> rfl

-- What an operation adds to the count of cancellations, and the entry that it writes.
theorem ccCount_exec (h : k.exec A L log2 op1 op2 res i b = some b') (h₁ : b.temps op1 = some e₁)
    (h₂ : b.temps op2 = some e₂) (hr₁ : op1 ≠ res) (hr₂ : op2 ≠ res) (he : b'.temps res = some e) :
    e.val = k.val A e₁.val e₂.val ∧ e.computed = k.fn L e₁.computed e₂.computed ∧
    ∃ precBits, 0 < precBits ∧ precBits ≤ 52 ∧
    (b.counts .ccCount < b'.counts .ccCount ↔ k.signs e₁.computed e₂.computed ∧
      0 < mCheckCc A (k.fn L e₁.computed e₂.computed) precBits e₁ e₂
        (intBitsError A log2 e.val e.computed)) := by
  cases k with
  | fadd | faddF | fsub | fsubF =>
    simp only [Arith.exec, mpfrFadd, mpfrFaddF, mpfrFsub, mpfrFsubF] at h
    obtain ⟨x₁, x₂, x, t, hx₁, hx₂, hc, ht, hm⟩ := additive_spec h
    obtain rfl := Option.some.inj (h₁.symm.trans hx₁)
    obtain rfl := Option.some.inj (h₂.symm.trans hx₂)
    obtain rfl := Option.some.inj (he.symm.trans hc.temps)
    refine ⟨val_mCompute hm h₁ h₂ he, hc.computed, _, by
      decide, by decide, Iff.trans ?_ (ht hr₁ hr₂)⟩
    rw [hc.adds.counts]
    cases t <;> simp
  | fmul | fmulF =>
    simp only [Arith.exec, mpfrFmul, mpfrFmulF] at h
    obtain ⟨x₁, x₂, x, hx₁, hx₂, hc, hm⟩ := product_spec h
    obtain rfl := Option.some.inj (h₁.symm.trans hx₁)
    obtain rfl := Option.some.inj (h₂.symm.trans hx₂)
    refine ⟨val_mCompute hm h₁ h₂ he, ?_, 52, by
      decide, by decide, iff_of_false ?_ fun h => Bool.false_ne_true h.left⟩
    · exact Option.some.inj (he.symm.trans hc.temps) ▸ hc.computed
    · rw [hc.adds.counts]
      simp
  | fdiv | fdivF =>
    simp only [Arith.exec, mpfrFdiv, mpfrFdivF] at h
    obtain ⟨x₁, x₂, x, hx₁, hx₂, hc, hm⟩ := quotient_spec h
    obtain rfl := Option.some.inj (h₁.symm.trans hx₁)
    obtain rfl := Option.some.inj (h₂.symm.trans hx₂)
    refine ⟨val_mCompute hm h₁ h₂ he, ?_, 52, by
      decide, by decide, iff_of_false ?_ fun h => Bool.false_ne_true h.left⟩
    · exact Option.some.inj (he.symm.trans hc.temps) ▸ hc.computed
    · rw [hc.adds.counts]
      simp

-- Cancellations are counted only where an operation has really cancelled exactly if the operands of
-- all others agree with their shadow values in a bit.
theorem cancels_iff (h : k.exec A L log2 op1 op2 res i b = some b') (h₁ : b.temps op1 = some e₁)
    (h₂ : b.temps op2 = some e₂) (hr₁ : op1 ≠ res) (hr₂ : op2 ≠ res) (he : b'.temps res = some e) :
    (b.counts .ccCount < b'.counts .ccCount →
      Metadata.Cancels e₁.computed e₂.computed e.computed (intBitsError A log2 e.val e.computed)) ↔
    (k.signs e₁.computed e₂.computed → ¬k.Cancels A L log2 e₁ e₂ → HasExactBit A e₁ ∧
      HasExactBit A e₂) := by
  obtain ⟨hv, hd, precBits, hp, hp', hc⟩ := ccCount_exec h h₁ h₂ hr₁ hr₂ he
  rw [hc, hv, hd]
  by_cases hs : k.signs e₁.computed e₂.computed
  case neg => exact iff_of_true (fun h => absurd h.left hs) fun h => absurd h hs
  case pos =>
    have hn := not_isNaN_of_signs hs
    by_cases hcc : k.Cancels A L log2 e₁ e₂
    case pos => exact iff_of_true (fun _ => hcc) fun _ h => absurd hcc h
    case neg =>
      have hpos := mCheckCc_pos_iff (A := A) hn.left hn.right hp hp' hcc
      rw [hpos]
      constructor
      · intro hx _ _
        by_contra hne
        exact hcc (hx ⟨hs, hne⟩)
      · intro hx hy
        exact absurd (hx hs hcc) hy.right

-- Operands without error.
theorem cancels_exact : ∃ b' e,
    Arith.fadd.exec doubles libmDoubles log2Integer (slot 0) (slot 1) (slot 2) 3
      (operands 5 5 (-0.5) (-0.5)) = some b' ∧
    b'.temps (slot 2) = some e ∧
    ((operands 5 5 (-0.5) (-0.5)).counts .ccCount < b'.counts .ccCount →
      Metadata.Cancels 5 (-0.5) e.computed
        (intBitsError doubles log2Integer e.val e.computed)) := by
  let b := operands 5 5 (-0.5) (-0.5)
  have hs :
      (Arith.fadd.exec doubles libmDoubles log2Integer (slot 0) (slot 1) (slot 2) 3 b).isSome := by
    decide +kernel
  obtain ⟨b', h⟩ := Option.isSome_iff_exists.mp hs
  obtain ⟨e, es, ho⟩ := Arith.outcome h
  have h₁ : b.temps (slot 0) = some (b.leaf 5 5 .constant 1) := rfl
  have h₂ : b.temps (slot 1) = some (b.leaf (-0.5) (-0.5) .constant 2) := rfl
  have hc := cancels_iff h h₁ h₂ (by decide) (by decide) ho.computes.temps
  exact ⟨b', e, h, ho.computes.temps, hc.mpr fun _ _ =>
    ⟨.inl (by decide +kernel), .inl (by decide +kernel)⟩⟩

-- An operand with no exact bit, and a sum that has the exponent of that operand.
theorem not_cancels :
    ¬∀ (V : Type) (A : Measures V) (L : Libm Float) (log2 : UInt64 → Float) (k : Arith)
    (b b' : Buffer V) (op1 op2 res : Ptr) (i : Nat) (e₁ e₂ e : TempEntry V Float),
    k.exec A L log2 op1 op2 res i b = some b' →
    b.temps op1 = some e₁ → b.temps op2 = some e₂ → op1 ≠ res → op2 ≠ res → b'.temps res = some e →
    b.counts .ccCount < b'.counts .ccCount →
    Metadata.Cancels e₁.computed e₂.computed e.computed (intBitsError A log2 e.val e.computed) := by
  intro h
  let b  := operands 5 3 (-0.5) (-0.5)
  let b' := Arith.fadd.exec doubles libmDoubles log2Integer (slot 0) (slot 1) (slot 2) 3 b
    |>.get (by decide +kernel)
  let e  := b'.temps (slot 2) |>.get (by decide +kernel)
  have hc :=
    h Float doubles libmDoubles log2Integer .fadd b b' (slot 0) (slot 1) (slot 2) 3
      (b.leaf 3 5 .constant 1)
    (b.leaf (-0.5) (-0.5) .constant 2) e (Option.some_get _).symm rfl rfl (by decide) (by decide)
      (Option.some_get _).symm
    (by decide +kernel)
  exact absurd hc (by decide +kernel)

end Cancellation

end Counting
