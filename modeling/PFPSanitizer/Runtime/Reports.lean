import PFPSanitizer.Runtime.Counters

-- What is counted in a slice and what is reported of it.
namespace Counting

open Metadata

-- The event `c` if `p` holds.
def once (p : Bool) (c : Counter) : List Counter :=
  if p then [c] else []

@[simp]
theorem count_once (p : Bool) (c c' : Counter) :
    (once p c).count c' = if c = c' then p.toNat else 0 := by
  cases p with
  | true  => simp [once, List.count_singleton]
  | false => exact (ite_self 0).symm

section Adds

variable {V : Type}

-- A step counts the events `es` and adds the entries `rs` and `ns` to the record.
structure Adds (b b' : Buffer V) (es : List Counter) (rs ns : List (TempEntry V Float)) : Prop where
  counts  : ∀ c, b'.counts c = b.counts c + es.count c
  counted : b'.counted = b.counted ++ es
  left    : b'.left = b.left
  earlier : b'.earlier = b.earlier
  results : b'.results = b.results ++ rs
  negated : b'.negated = b.negated ++ ns

variable {b b₁ b₂ : Buffer V} {es es₁ es₂ : List Counter}
  {rs rs₁ rs₂ ns ns₁ ns₂ : List (TempEntry V Float)}

namespace Adds

theorem setState (s : State V Float) : Adds b { b with toState := s } [] [] [] :=
  ⟨fun _ => rfl, (List.append_nil _).symm, rfl, rfl, (List.append_nil _).symm,
    (List.append_nil _).symm⟩

theorem setExpr (q : List (Option Ptr)) : Adds b { b with mExpr := q } [] [] [] :=
  ⟨fun _ => rfl, (List.append_nil _).symm, rfl, rfl, (List.append_nil _).symm,
    (List.append_nil _).symm⟩

theorem trans (h₁ : Adds b b₁ es₁ rs₁ ns₁) (h₂ : Adds b₁ b₂ es₂ rs₂ ns₂) :
    Adds b b₂ (es₁ ++ es₂) (rs₁ ++ rs₂) (ns₁ ++ ns₂) where
  counts c := by rw [h₂.counts, h₁.counts, List.count_append, Nat.add_assoc]
  counted  := by rw [h₂.counted, h₁.counted, List.append_assoc]
  left     := h₂.left.trans h₁.left
  earlier  := h₂.earlier.trans h₁.earlier
  results  := by rw [h₂.results, h₁.results, List.append_assoc]
  negated  := by rw [h₂.negated, h₁.negated, List.append_assoc]

theorem count (c : Counter) : Adds b (b.count c) [c] [] [] where
  counts c' := by
    by_cases h : c' = c
    case pos =>
      subst h
      simp [Buffer.count]
    case neg => simp [Buffer.count, Function.update_of_ne h, Ne.symm h]
  counted   := rfl
  left      := rfl
  earlier   := rfl
  results   := (List.append_nil _).symm
  negated   := (List.append_nil _).symm

theorem countIf (p : Bool) (c : Counter) : Adds b (b.countIf p c) (once p c) [] [] := by
  cases p with
  | true  => exact count c
  | false => exact setState b.toState

theorem addResult (h : Adds b b₁ es [] []) (e : TempEntry V Float) :
    Adds b { b₁ with results := b₁.results ++ [e] } es [e] [] :=
  { h with results := by rw [h.results, List.append_nil] }

theorem addNegated (h : Adds b b₁ es [] []) (e : TempEntry V Float) :
    Adds b { b₁ with negated := b₁.negated ++ [e] } es [] [e] :=
  { h with negated := by rw [h.negated, List.append_nil] }

end Adds

@[simp]
theorem toState_countIf (p : Bool) (c : Counter) : (b.countIf p c).toState = b.toState := by
  cases p <;> rfl

end Adds

section Results

variable {V : Type} {A : Measures V} {L : Libm Float} {log2 : UInt64 → Float} {b b' : Buffer V}
  {s s' : State V Float} {o : FpOp} {p q r res : Ptr} {d : Float} {i : Nat} {e : TempEntry V Float}

theorem bne_self (x : Float) : (x != x) = x.isNaN := by
  rw [bne, Binary64.beq_self_iff, Bool.not_not]

theorem toState_mUpdateError : (mUpdateError A log2 e d b).fst.toState = b.toState :=
  toState_countIf ..

-- An operation has written `e` and counted `es`.
structure Computes (b b' : Buffer V) (res : Ptr) (d : Float) (e : TempEntry V Float)
    (es : List Counter) : Prop where
  temps     : b'.temps res = some e
  unchanged : ∀ p ≠ res, b'.temps p = b.temps p
  computed  : e.computed = d
  adds      : Adds b b' es [] []

theorem computes_of_written (hw : Written b.toState s res d) (he : s.temps res = some e) :
    Computes b { b with toState := s } res d e [] where
  temps          := he
  unchanged _ hp := hw.temps_of_ne hp
  computed       := hw.computed he
  adds           := .setState s

theorem Computes.countIf {es : List Counter} (h : Computes b b' res d e es) (t : Bool)
    (c : Counter) :
    Computes b (b'.countIf t c) res d e (es ++ once t c) where
  temps     := by rw [toState_countIf, h.temps]
  unchanged := by rw [toState_countIf]; exact h.unchanged
  computed  := h.computed
  adds      := h.adds.trans (.countIf t c)

theorem Computes.mUpdateError {es : List Counter} (h : Computes b b' res d e es) :
    Computes b (mUpdateError A log2 e d b').fst res d e
      (es ++ once (above A log2 e) .errorCount) := by
  obtain rfl := h.computed
  exact h.countIf _ _

theorem computes_mCompute {error : Int} (h : mCompute A log2 o p q d res i b = some (b', error)) :
    ∃ e, Computes b b' res d e (once d.isNaN .nanCount ++ once (above A log2 e) .errorCount) ∧
      error = intBitsError A log2 e.val e.computed ∧
      Metadata.mCompute A.toMpfr o p q d res i b.toState = some b'.toState := by
  obtain ⟨s, hs, h⟩ := Option.bind_eq_some_iff.mp h
  obtain ⟨e, he, h⟩ := Option.bind_eq_some_iff.mp h
  have hc := computes_of_written (written_mCompute hs) he
  rw [bne_self] at h
  obtain ⟨rfl, rfl⟩ := Prod.mk.inj (Option.some.inj h)
  refine ⟨e, (hc.countIf ..).mUpdateError, by rw [hc.computed], ?_⟩
  rw [hs, toState_countIf, toState_countIf]

theorem computes_handleMathD (h : handleMathD A log2 o p d res i b = some b') :
    ∃ e, Computes b b' res d e
      (once d.isInf .infCount ++ once d.isNaN .nanCount ++ once (above A log2 e) .errorCount) ∧
      Metadata.handleMathD A.toMpfr o p d res i b.toState = some b'.toState := by
  obtain ⟨s, hs, h⟩ := Option.bind_eq_some_iff.mp h
  obtain ⟨e, he, h⟩ := Option.bind_eq_some_iff.mp h
  have hc := computes_of_written (written_handleMathD hs) he
  rw [bne_self] at h
  cases h
  refine ⟨e, (hc.countIf ..).countIf .. |>.mUpdateError, ?_⟩
  rw [hs, toState_mUpdateError, toState_countIf, toState_countIf]

theorem computes_updateResult (hw : Written b.toState s res d)
    (h : updateResult A log2 res b s = some b') :
    ∃ e, Computes b b' res d e (once (above A log2 e) .errorCount) ∧ b'.toState = s := by
  obtain ⟨e, he, h⟩ := Option.bind_eq_some_iff.mp h
  have hc := computes_of_written hw he
  obtain rfl := hc.computed
  cases h
  exact ⟨e, hc.mUpdateError, toState_mUpdateError⟩

theorem additive_spec {f : Float → Float → Float} {signs : Float → Float → Bool} {precBits : Nat}
    (h : additive A log2 o f signs precBits p q res i b = some b') :
    ∃ e₁ e₂ e t, b.temps p = some e₁ ∧ b.temps q = some e₂ ∧
      Computes b b' res (f e₁.computed e₂.computed) e
        (once (f e₁.computed e₂.computed).isNaN .nanCount ++ once (above A log2 e) .errorCount ++
          once t .ccCount) ∧
      (p ≠ res → q ≠ res → (t ↔ signs e₁.computed e₂.computed ∧
        0 < mCheckCc A (f e₁.computed e₂.computed) precBits e₁ e₂
          (intBitsError A log2 e.val e.computed))) ∧
      Metadata.mCompute A.toMpfr o p q (f e₁.computed e₂.computed) res i b.toState =
      some b'.toState := by
  obtain ⟨e₁, h₁, h⟩ := Option.bind_eq_some_iff.mp h
  obtain ⟨e₂, h₂, h⟩ := Option.bind_eq_some_iff.mp h
  obtain ⟨⟨b₁, error⟩, hm, h⟩ := Option.bind_eq_some_iff.mp h
  obtain ⟨e, hc, rfl, hs⟩ := computes_mCompute hm
  obtain ⟨e₁', h₁', h⟩ := Option.bind_eq_some_iff.mp h
  obtain ⟨e₂', h₂', h⟩ := Option.bind_eq_some_iff.mp h
  -- The operands are read again, after the result has been written.
  have hu₁ : p ≠ res → e₁' = e₁ :=
    fun hp => Option.some.inj <| h₁'.symm.trans ((hc.unchanged p hp).trans h₁)
  have hu₂ : q ≠ res → e₂' = e₂ :=
    fun hq => Option.some.inj <| h₂'.symm.trans ((hc.unchanged q hq).trans h₂)
  refine ⟨e₁, e₂, e, signs e₁'.computed e₂'.computed &&
    mCheckCc A (f e₁.computed e₂.computed) precBits e₁' e₂' (intBitsError A log2 e.val e.computed) >
      0, h₁, h₂, ?_, ?_, ?_⟩
  · split at h
    case isTrue ht =>
      cases h
      rw [ht, Bool.true_and]
      exact hc.countIf ..
    case isFalse ht =>
      cases h
      rw [Bool.eq_false_iff.mpr ht, Bool.false_and]
      exact hc.countIf false .ccCount
  · intro hp hq
    rw [hu₁ hp, hu₂ hq]
    simp
  · split at h <;> cases h
    · rw [hs, toState_countIf]
    · exact hs

theorem product_spec {f : Float → Float → Float} (h : product A log2 f p q res i b = some b') :
    ∃ e₁ e₂ e, b.temps p = some e₁ ∧ b.temps q = some e₂ ∧
      Computes b b' res (f e₁.computed e₂.computed) e
        (once (f e₁.computed e₂.computed).isNaN .nanCount ++ once (above A log2 e) .errorCount) ∧
      Metadata.mCompute A.toMpfr .fmul p q (f e₁.computed e₂.computed) res i b.toState =
      some b'.toState := by
  obtain ⟨e₁, h₁, h⟩ := Option.bind_eq_some_iff.mp h
  obtain ⟨e₂, h₂, h⟩ := Option.bind_eq_some_iff.mp h
  obtain ⟨⟨b₁, error⟩, hm, h⟩ := Option.bind_eq_some_iff.mp h
  obtain ⟨e, hc, -, hs⟩ := computes_mCompute hm
  cases h
  exact ⟨e₁, e₂, e, h₁, h₂, hc, hs⟩

theorem quotient_spec {f : Float → Float → Float} (h : quotient A log2 f p q res i b = some b') :
    ∃ e₁ e₂ e, b.temps p = some e₁ ∧ b.temps q = some e₂ ∧
      Computes b b' res (f e₁.computed e₂.computed) e
        (once (f e₁.computed e₂.computed).isNaN .nanCount ++ once (above A log2 e) .errorCount ++
          once (f e₁.computed e₂.computed).isInf .infCount) ∧
      Metadata.mCompute A.toMpfr .fdiv p q (f e₁.computed e₂.computed) res i b.toState =
      some b'.toState := by
  obtain ⟨e₁, h₁, h⟩ := Option.bind_eq_some_iff.mp h
  obtain ⟨e₂, h₂, h⟩ := Option.bind_eq_some_iff.mp h
  obtain ⟨⟨b₁, error⟩, hm, h⟩ := Option.bind_eq_some_iff.mp h
  obtain ⟨e, hc, -, hs⟩ := computes_mCompute hm
  cases h
  refine ⟨e₁, e₂, e, h₁, h₂, hc.countIf .., ?_⟩
  rw [hs, toState_countIf]

end Results

-- The operations that count the results that are NaN, and those that are infinite.
def Op.countsNaN {V : Type} : Op V → Bool
  | .arith _ _ _ _ _ | .one _ _ _ _ _ => true
  | _                                 => false

def Op.countsInf {V : Type} : Op V → Bool
  | .arith .fdiv _ _ _ _ | .arith .fdivF _ _ _ _ | .one _ _ _ _ _ => true
  | _                                                             => false

section Outcome

variable {V : Type} (A : Measures V) (L : Libm Float) (log2 : UInt64 → Float)

-- What an operation does besides what it does to the metadata: it writes `e` and counts `es`.
structure Op.Outcome (o : Op V) (b b' : Buffer V) (e : TempEntry V Float) (es : List Counter) :
    Prop where
  computes : Computes b b' o.res e.computed e es
  metadata : o.metadata A L b.toState = some b'.toState
  computed : o.computed L b = some e.computed
  error    : es.count .errorCount = (above A log2 e).toNat
  nan      : es.count .nanCount = (o.countsNaN && e.computed.isNaN).toNat
  inf      : es.count .infCount = (o.countsInf && e.computed.isInf).toNat

variable {A L log2} {b b' : Buffer V} {o : Op V} {p q r res : Ptr} {d : Float} {i : Nat}
  {e : TempEntry V Float} {es : List Counter}

theorem Computes.outcome (h : Computes b b' o.res d e es)
    (hm : o.metadata A L b.toState = some b'.toState) (hd : o.computed L b = some d)
    (herror : es.count .errorCount = (above A log2 e).toNat)
    (hnan : es.count .nanCount = (o.countsNaN && d.isNaN).toNat)
    (hinf : es.count .infCount = (o.countsInf && d.isInf).toNat) :
    o.Outcome A L log2 b b' e es := by
  obtain rfl := h.computed
  exact ⟨h, hm, hd, herror, hnan, hinf⟩

theorem computed_arith {k : Arith} {e₁ e₂ : TempEntry V Float} (h₁ : b.temps p = some e₁)
    (h₂ : b.temps q = some e₂) :
    (Op.arith k p q res i).computed L b = some (k.fn L e₁.computed e₂.computed) := by
  rw [Op.computed, h₁, h₂]
  rfl

theorem metadata_arith {k : Arith} {e₁ e₂ : TempEntry V Float} (h₁ : b.temps p = some e₁)
    (h₂ : b.temps q = some e₂)
    (h : Metadata.mCompute A.toMpfr k.opCode p q (k.fn L e₁.computed e₂.computed) res i b.toState =
      some b'.toState) :
    (Op.arith k p q res i).metadata A L b.toState = some b'.toState := by
  rw [Op.metadata, operation, h₁, h₂]
  exact h

theorem Arith.outcome {k : Arith} (h : k.exec A L log2 p q res i b = some b') :
    ∃ e es, (Op.arith k p q res i).Outcome A L log2 b b' e es := by
  cases k with
  | fadd | faddF | fsub | fsubF =>
    simp only [exec, mpfrFadd, mpfrFaddF, mpfrFsub, mpfrFsubF] at h
    obtain ⟨e₁, e₂, e, t, h₁, h₂, hc, -, hm⟩ := additive_spec h
    refine ⟨e, _, hc.outcome (metadata_arith h₁ h₂ hm) (computed_arith h₁ h₂) ?_ ?_ ?_⟩
    · simp
    · simp [Op.countsNaN, fn]
    · simp [Op.countsInf]
  | fmul | fmulF =>
    simp only [exec, mpfrFmul, mpfrFmulF] at h
    obtain ⟨e₁, e₂, e, h₁, h₂, hc, hm⟩ := product_spec h
    refine ⟨e, _, hc.outcome (metadata_arith h₁ h₂ hm) (computed_arith h₁ h₂) ?_ ?_ ?_⟩
    · simp
    · simp [Op.countsNaN, fn]
    · simp [Op.countsInf]
  | fdiv | fdivF =>
    simp only [exec, mpfrFdiv, mpfrFdivF] at h
    obtain ⟨e₁, e₂, e, h₁, h₂, hc, hm⟩ := quotient_spec h
    refine ⟨e, _, hc.outcome (metadata_arith h₁ h₂ hm) (computed_arith h₁ h₂) ?_ ?_ ?_⟩
    · simp
    · simp [Op.countsNaN, fn]
    · simp [Op.countsInf, fn]

theorem Op.outcome (h : o.exec A L log2 b = some b') : ∃ e es, o.Outcome A L log2 b b' e es := by
  cases o with
  | arith k p q res i => exact Arith.outcome h
  | one opCode f p res i =>
    obtain ⟨e₁, h₁, h⟩ := Option.bind_eq_some_iff.mp h
    obtain ⟨e, hc, hm⟩ := computes_handleMathD h
    refine ⟨e, _, hc.outcome ?_ ?_ (by simp) (by simp [Op.countsNaN]) (by simp [Op.countsInf])⟩
    · rw [Op.metadata, Metadata.mathOne, h₁]
      exact hm
    · rw [Op.computed, h₁]
      rfl
  | two opCode v f p q res i =>
    obtain ⟨s, hm, h⟩ := Option.bind_eq_some_iff.mp h
    obtain ⟨e₁, h₁, hs⟩ := Option.bind_eq_some_iff.mp hm
    obtain ⟨e₂, h₂, hs⟩ := Option.bind_eq_some_iff.mp hs
    obtain ⟨e, hc, rfl⟩ := computes_updateResult (written_mathTwo hs) h
    refine ⟨e, _, hc.outcome hm ?_ (by simp) (by simp [Op.countsNaN]) (by simp [Op.countsInf])⟩
    rw [Op.computed, h₁, h₂]
    rfl
  | fma p q r res i =>
    obtain ⟨s, hm, h⟩ := Option.bind_eq_some_iff.mp h
    obtain ⟨e₁, h₁, hs⟩ := Option.bind_eq_some_iff.mp hm
    obtain ⟨e₂, h₂, hs⟩ := Option.bind_eq_some_iff.mp hs
    obtain ⟨e₃, h₃, hs⟩ := Option.bind_eq_some_iff.mp hs
    obtain ⟨e, hc, rfl⟩ := computes_updateResult (written_mpfrFma hs) h
    refine ⟨e, _, hc.outcome hm ?_ (by simp) (by simp [Op.countsNaN]) (by simp [Op.countsInf])⟩
    rw [Op.computed, h₁, h₂, h₃]
    rfl
  | ldexp p n res i =>
    obtain ⟨s, hm, h⟩ := Option.bind_eq_some_iff.mp h
    obtain ⟨e₁, h₁, hs⟩ := Option.bind_eq_some_iff.mp hm
    obtain ⟨e, hc, rfl⟩ := computes_updateResult (written_mpfrLdexp hs) h
    refine ⟨e, _, hc.outcome hm ?_ (by simp) (by simp [Op.countsNaN]) (by simp [Op.countsInf])⟩
    rw [Op.computed, h₁]
    rfl

end Outcome

section Step

variable {V : Type} (A : Measures V) (L : Libm Float) (log2 : UInt64 → Float)

-- The result of a negation.
def negation (e : TempEntry V Float) : TempEntry V Float :=
  { e with val := A.sub (A.setD L.zero) e.val, computed := L.neg e.computed }

-- The entries that `fpsan_trace` prints.
def printed (current : Option Ptr) (b : Buffer V) : List (TempEntry V Float) :=
  walk b.toState (b.mExpr ++ [current]) |>.elim [] Prod.fst

-- The event that `m_update_error` counts.
def errorEvent (e : TempEntry V Float) : List Counter :=
  once (above A log2 e) .errorCount

-- What a step can do.
def Act.Outcome (b : Buffer V) : Act V → Buffer V → Prop
  | .op o, b'                 => ∃ b₁ e es, o.Outcome A L log2 b b₁ e es ∧ Adds b b' es [e] []
  | .fneg p _, b'             => ∃ e, b.temps p = some e ∧ Adds b b' [] [] [negation A L e]
  | .copyReturn (some p) _, b' => ∃ e, b.temps p = some e ∧ Adds b b' (errorEvent A log2 e) [] []
  | .checkError p, b'         => ∃ e, b.temps p = some e ∧ Adds b b' (errorEvent A log2 e) [] []
  | .trace p, b'              => Adds b b' ((printed p b).flatMap (errorEvent A log2)) [] []
  | .checkBranch _ _ _ _, b'  => ∃ t, Adds b b' (once t .flipsCount) [] []
  | .sliceStart, b'           => b' = b.called
  | .sliceEnd, b'             => b' = (shadowSliceEnd b).snd
  | _, b'                     => Adds b b' [] [] []

variable {A L log2} {b b' : Buffer V} {p : Ptr}

theorem adds_mUpdateError (e : TempEntry V Float) :
    Adds b (mUpdateError A log2 e e.computed b).fst (errorEvent A log2 e) [] [] :=
  .countIf _ _

-- By induction over the entries that are printed.
theorem adds_foldl (es : List (TempEntry V Float)) :
    Adds b (es.foldl (fun b cur => (mUpdateError A log2 cur cur.computed b).fst) b)
      (es.flatMap (errorEvent A log2)) [] [] := by
  induction es generalizing b with
  | nil          => exact .setState b.toState
  | cons e es ih => exact (adds_mUpdateError e).trans ih

theorem adds_trace {current : Option Ptr} (h : trace A log2 current b = some b') :
    Adds b b' ((printed current b).flatMap (errorEvent A log2)) [] [] := by
  obtain ⟨⟨es, left⟩, hw, h⟩ := Option.bind_eq_some_iff.mp h
  have hp : printed current b = es := by rw [printed, hw]; rfl
  have hf : Adds b (es.foldl (fun b cur => (mUpdateError A log2 cur cur.computed b).fst) b) _ []
      [] := adds_foldl es
  rw [hp]
  dsimp only at h
  split at h
  case isTrue =>
    cases h
    simpa using hf.trans (.setExpr left)
  case isFalse =>
    obtain ⟨⟨_, left'⟩, -, h⟩ := Option.bind_eq_some_iff.mp h
    cases h
    simpa using hf.trans (.setExpr left')

theorem checkError_spec (h : checkError A log2 p b = some b') :
    ∃ e, b.temps p = some e ∧ Adds b b' (errorEvent A log2 e) [] [] := by
  rw [checkError, if_neg (by decide)] at h
  obtain ⟨b₁, h₁, h⟩ := Option.bind_eq_some_iff.mp h
  cases h₁
  obtain ⟨e, he, h⟩ := Option.bind_eq_some_iff.mp h
  cases h
  exact ⟨e, he, adds_mUpdateError e⟩

theorem copyReturn_spec {dest : Ptr} (h : copyReturn A log2 (some p) dest b = some b') :
    ∃ e, b.temps p = some e ∧ Adds b b' (errorEvent A log2 e) [] [] := by
  obtain ⟨s, hs, h⟩ := Option.bind_eq_some_iff.mp h
  obtain ⟨e, he, hs⟩ := Option.bind_eq_some_iff.mp hs
  obtain ⟨e', he', h⟩ := Option.bind_eq_some_iff.mp h
  cases hs
  cases h
  have hd : (b.write dest { e with lock := b.keyStackTop, key := b.topKey }).temps dest = _ :=
    Function.update_self ..
  cases hd.symm.trans he'
  exact ⟨e, he, (Adds.setState _).trans (adds_mUpdateError _)⟩

theorem mpfrFneg_spec {res : Ptr} (h : mpfrFneg A L p res b = some b') :
    ∃ e, b.temps p = some e ∧ b'.temps res = some (negation A L e) ∧ Adds b b' [] [] [] := by
  obtain ⟨s, hs, h⟩ := Option.bind_eq_some_iff.mp h
  obtain ⟨e, he, hs⟩ := Option.bind_eq_some_iff.mp hs
  cases hs
  cases h
  exact ⟨e, he, Function.update_self .., .setState _⟩

theorem outcome {a : Act V} (h : exec A L log2 a b = some b') : a.Outcome A L log2 b b' := by
  cases a with
  | op o =>
    obtain ⟨b₁, h₁, rfl⟩ := Option.map_eq_some_iff.mp h
    obtain ⟨e, es, ho⟩ := Op.outcome h₁
    refine ⟨b₁, e, es, ho, ?_⟩
    rw [ho.computes.temps]
    exact ho.computes.adds.addResult e
  | fneg p res =>
    obtain ⟨b₁, h₁, rfl⟩ := Option.map_eq_some_iff.mp h
    obtain ⟨e, he, hr, ha⟩ := mpfrFneg_spec h₁
    refine ⟨e, he, ?_⟩
    rw [hr]
    exact ha.addNegated _
  | copyReturn src dest =>
    cases src with
    | none   => cases h; exact .setState _
    | some p => exact copyReturn_spec h
  | checkError p => exact checkError_spec h
  | trace p      => exact adds_trace h
  | checkBranch p q flag br =>
    obtain ⟨e₁, -, h⟩ := Option.bind_eq_some_iff.mp h
    obtain ⟨e₂, -, h⟩ := Option.bind_eq_some_iff.mp h
    cases h
    exact ⟨_, .countIf _ _⟩
  | call k =>
    rw [exec] at h
    split at h
    case isFalse => cases h
    case isTrue  =>
      obtain ⟨s, -, rfl⟩ := Option.map_eq_some_iff.mp h
      exact .setState s
  | enter      => cases h; exact .setState _
  | exit       => cases h; exact .setState _
  | sliceStart => cases h; rfl
  | sliceEnd   => cases h; rfl

end Step

end Counting
