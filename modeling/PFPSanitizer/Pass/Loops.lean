import PFPSanitizer.Pass.Casts
import PFPSanitizer.Pass.Exactness

-- The shadow execution of functions with branches and loops, along the way that the program takes.
namespace Pass

open RealFn (Arg Fn)
open Metadata (Ptr Reals)

-- The instructions whose value is pulled from the program and stored as a constant.
def Op.isConversion : Op → Bool
  | sitofp _ | uitofp _ | bitcast _ => true
  | _                               => false

-- The instructions that leave the temporaries of their function alone.
def Inst.silent (I : Inst) : Bool :=
  match I.op with
  | .fcmp _ _ | .br _ | .switch _ | .ret _ | .unreachable => true
  | .phi _ | .rest _                                      => !I.ty.isFloatType
  | _                                                     => false

-- The instructions with a value in a temporary.
inductive Inst.HasValue (I : Inst) : Prop
  | op (h : (I.op.fn? mathLib).isSome)
  | conversion (h : I.op.isConversion)
  | phi {vs} (ho : I.op = .phi vs) (ht : I.ty.isFloatType)

-- The operands that stand for a value at a place.
def Fed (F : Body) (fl : Flow F) (place : Site) : Operand → Prop
  | .inst t    => fl.Dominates t place ∧ ∃ I, F.inst? t = some I ∧ I.HasValue
  | .arg n     => (F.typeOf (.arg n)).isFloatType
  | .const t _ => t.isFloatType
  | _          => False

inductive Executable (M : Module) (F : Body) (fl : Flow F) : Site × Inst → Prop
  | op {s I f args} (hf : I.op.fn? mathLib = some (f, args))
      (ha : Passes (Fed F fl s) (Exponent F) f args)
      (ht : I.ty.isFloatType) (hm : ∀ g args, I.op = .call g args → isMathCall M g) :
        Executable M F fl (s, I)
  | conversion {s I} (ho : I.op.isConversion) (ht : I.ty.isFloatType) : Executable M F fl (s, I)
  | phi {s I vs} (ho : I.op = .phi vs) (ht : I.ty.isFloatType)
      (hv : ∀ v ∈ vs, Fed F fl ⟨v.snd, (F.block v.snd).length⟩ v.fst) : Executable M F fl (s, I)
  | silent {s I} (h : I.silent) : Executable M F fl (s, I)

-- A function of operations, conversions, phi nodes and branches. A phi node
-- has one value for each edge.
structure Looping (M : Module) extends Body where
  flow       : Flow toBody
  executable : ∀ x ∈ toBody.insts, Executable M toBody flow x
  entry      : toBody.phis 0 = []
  incoming   : ∀ b, ∀ b' ∈ flow.succ b, ∀ x ∈ toBody.phis b', ∃! v, (v, b) ∈ x.snd

def Arg.val : Arg → Option ℝ
  | .real x => x
  | .int _  => none

section Evaluation

variable (lib : String → Option Fn) (ρ : Inputs) (F : Body)

-- All phi nodes of the block take their values for the edge at once.
def takePhis (e b : Nat) (env : Site → Option ℝ) (s : Site) : Option ℝ :=
  match F.phis b |>.find? (·.fst = s) with
  | some x => taken e x |>.elim none fun v => Arg.val (ρ.value F env v)
  | none   => env s
where
  taken (e : Nat) (x : Site × List (Operand × Nat)) : Option Operand :=
    x.snd.find? (·.snd = e) |>.map Prod.fst

noncomputable def assign (fed : Site → Option ℝ) (env : Site → Option ℝ) (x : Site × Inst) :
    Site → Option ℝ :=
  if x.snd.op.isConversion then Function.update env x.fst (fed x.fst)
  else if (x.snd.op.fn? lib).isSome then Function.update env x.fst (result lib ρ F env x)
  else env

-- The evaluation over the reals along a way, whose last block comes first. `fed` has the values of
-- conversions in each of the blocks.
noncomputable def evalAlong (fed : Nat → Site → Option ℝ) : List Nat → Site → Option ℝ
  | []            => fun _ => none
  | [b]           => F.block b |>.foldl (assign lib ρ F (fed 0)) fun _ => none
  | b' :: b :: p  =>
    F.block b'
      |>.foldl (assign lib ρ F (fed (p.length + 1))) (takePhis ρ F b b' (evalAlong fed (b :: p)))

end Evaluation

namespace Frame

variable {F : Body} {V D : Type} (E : Frame F V D)

-- A clone gets pointers for its parameters.
def registers : Registers where
  self      := E.self
  value     := E.pointer
  pointer _ := none

section

variable (M : Module) (A : Metadata.Mpfr V D) (L : Metadata.Libm D)

def execute (fed : Site → D) (s : Metadata.State V D) (x : Site × Inst) :
    Option (Metadata.State V D) :=
  if x.snd.op.isConversion then
    Metadata.storeTempmetaConst A (E.temporary (.inst x.fst)) (fed x.fst) (E.instId x.fst) s
  else E.visit M A L x s

-- The execution of the clone along the same way.
def along (fed : Nat → Site → D) : List Nat → Option (Metadata.State V D)
  | []           => none
  | [b]          => F.block b |>.foldlM (E.execute M A L (fed 0)) (E.enter A)
  | b' :: b :: p => do
    let s ← along fed (b :: p)
    let calls ← copyCalls M (cloneFunction F) b'
    let s ← E.registers.copyPhis (cloneFunction F) b calls s
    F.block b' |>.foldlM (E.execute M A L (fed (p.length + 1))) s

end

end Frame

namespace Looping

variable {M : Module} (P : Looping M)

-- The pass finds the metadata of the operands.
def Found : Prop :=
  ∀ x ∈ P.insts, (x.snd.op.fn? mathLib).isSome →
    x.snd.op.operands.all (handleOperand M (cloneFunction P.toBody) x.fst)

-- On no edge a phi node takes its own value or that of a phi node before it.
structure Unentangled : Prop where
  moved    : ∀ b, ∀ b' ∈ P.flow.succ b, ∀ x ∈ P.phis b', (.inst x.fst, b) ∉ x.snd
  pairwise : ∀ b, ∀ b' ∈ P.flow.succ b, (P.phis b').Pairwise fun x y => (.inst x.fst, b) ∉ y.snd

end Looping

-- The operands whose metadata is there when the instructions at the places `S` have been executed.
inductive Available (F : Body) (S : Site → Prop) : Operand → Prop
  | inst {t} (h : S t)                       : Available F S (.inst t)
  | arg {n}                                  : Available F S (.arg n)
  | const {t n} (h : consMap F (.const t n)) : Available F S (.const t n)

theorem Available.mono {F : Body} {S S' : Site → Prop} {v : Operand} (h : Available F S v)
    (hi : ∀ t, S t → S' t) :
    Available F S' v := by
  cases h with
  | inst h  => exact .inst (hi _ h)
  | arg     => exact .arg
  | const h => exact .const h

namespace Passes

variable {S T : Operand → Prop} {f : Fn} {args : List Operand} {v : Operand}

theorem mem (h : Passes S T f args) (hv : v ∈ args) : S v ∨ T v := by
  cases h <;> grind

theorem accepts (h : Passes S T f args) {g : Operand → Arg} (hS : ∀ v, S v → ∃ y, g v = .real y)
    (hT : ∀ v, T v → ∃ n, g v = .int n) : f.Accepts (args.map g) := by
  cases h with
  | one hu =>
    have ⟨_, hu⟩ := hS _ hu
    simp only [List.map, hu]
    exact .one
  | two hu hv =>
    have ⟨_, hu⟩ := hS _ hu
    have ⟨_, hv⟩ := hS _ hv
    simp only [List.map, hu, hv]
    exact .two
  | three hu hv hw =>
    have ⟨_, hu⟩ := hS _ hu
    have ⟨_, hv⟩ := hS _ hv
    have ⟨_, hw⟩ := hS _ hw
    simp only [List.map, hu, hv, hw]
    exact .three
  | scale hu hn =>
    have ⟨_, hu⟩ := hS _ hu
    have ⟨_, hn⟩ := hT _ hn
    simp only [List.map, hu, hn]
    exact .scale

end Passes

theorem Fed.value_eq {F : Body} {fl : Flow F} {place : Site} {v : Operand} (h : Fed F fl place v)
    (ρ : Inputs) (env : Site → Option ℝ) : ∃ y, ρ.value F env v = .real y := by
  cases v with
  | inst t    => exact ⟨_, rfl⟩
  | arg n     => exact ⟨_, if_pos h⟩
  | const t n => exact ⟨_, if_pos h⟩
  | _         => exact nomatch h

section Tracks

variable {F : Body} {D : Type} {E : Frame F (Option ℝ) D} {ρ : Inputs} {S S' : Site → Prop}
  {env : Site → Option ℝ} {s s' : Metadata.State (Option ℝ) D} {t : Site}
  {e : Metadata.TempEntry (Option ℝ) D}

-- The metadata holds the values.
def Frame.Tracks (E : Frame F (Option ℝ) D) (ρ : Inputs) (S : Site → Prop) (env : Site → Option ℝ)
    (s : Metadata.State (Option ℝ) D) : Prop :=
  ∀ v, Available F S v → s.Held (E.pointer v) (ρ.value F env v)

namespace Frame.Tracks

theorem mono (h : E.Tracks ρ S env s) (hi : ∀ t, S' t → S t) : E.Tracks ρ S' env s :=
  fun v hv => h v (hv.mono hi)

theorem enter (E : Frame F (Option ℝ) D) (R : Reals D) :
    E.Tracks (E.inputs R).null (fun _ => False) (fun _ => none) (E.enter R.mpfr) := by
  intro v hv
  have h := E.agrees_enter R v
  cases hv with
  | inst hf  => exact hf.elim
  | arg      => exact h .arg
  | const hc => exact h (.const hc)

-- An instruction gets its value.
theorem update (h : E.Tracks ρ S env s) (ht : .inst t ∈ temps F)
    (hs : s'.temps = Function.update s.temps (E.temporary (.inst t)) (some e)) :
    E.Tracks ρ (fun u => S u ∨ u = t) (Function.update env t e.val) s' := by
  intro v hv
  by_cases hvt : v = .inst t
  case pos =>
    subst hvt
    rw [Inputs.value, Function.update_self]
    exact .real (by rw [hs, Function.update_self])
  case neg =>
    have hS : Available F S v := by
      cases hv with
      | inst hu  => exact .inst (hu.resolve_right fun he => hvt (he ▸ rfl))
      | arg      => exact .arg
      | const hc => exact .const hc
    have he : ρ.value F (Function.update env t e.val) v = ρ.value F env v := by
      cases v with
      | inst u =>
        rw [Inputs.value, Inputs.value, Function.update_of_ne fun he =>
          hvt (congrArg Operand.inst he)]
      | _      => rfl
    rw [he]
    exact held_of_update (h v hS) (pointer_ne E ht hvt) hs

end Frame.Tracks

end Tracks

section Reaches

variable {F : Body} {fl : Flow F} {b : Nat} {p : List Nat}

theorem Flow.Reaches.exists_cons (h : fl.Reaches b p) : ∃ q, p = b :: q := by
  cases h with
  | entry     => exact ⟨[], rfl⟩
  | step _ _  => exact ⟨_, rfl⟩

theorem Flow.Reaches.mem (h : fl.Reaches b p) : b ∈ p := by
  obtain ⟨q, rfl⟩ := h.exists_cons
  exact List.mem_cons_self

end Reaches

namespace Looping

variable {M : Module} (P : Looping M) {x : Site × Inst} {t : Site} {I : Inst} {b b' : Nat}
  {p : List Nat} {v : Operand}

theorem executable_of (hI : P.inst? t = some I) : Executable M P.toBody P.flow (t, I) :=
  P.executable (t, I) (P.mem_insts.mpr hI)

theorem not_hasValue_of_silent (h : I.silent) : ¬I.HasValue := by
  intro hv
  rw [Inst.silent] at h
  cases hv with
  | op hf           => split at h <;> simp_all [Op.fn?]
  | conversion hc   => split at h <;> simp_all [Op.isConversion]
  | phi ho ht       => simp_all

theorem isFloatType_of_hasValue (hI : P.inst? t = some I) (hv : I.HasValue) : I.ty.isFloatType := by
  cases P.executable_of hI with
  | op _ _ ht           => exact ht
  | conversion _ ht     => exact ht
  | phi _ ht            => exact ht
  | silent h            => exact absurd hv (not_hasValue_of_silent h)

theorem mem_temps (hI : P.inst? t = some I) (hv : I.HasValue) : .inst t ∈ temps P.toBody := by
  have ht := P.isFloatType_of_hasValue hI hv
  refine mem_temps_inst (P.mem_insts.mpr hI) ?_
  cases hv with
  | op hf           => cases ho : I.op <;> simp_all [Inst.ownsTemp, Op.fn?]
  | conversion hc   => cases ho : I.op <;> simp_all [Inst.ownsTemp, Op.isConversion]
  | phi ho          => simp [Inst.ownsTemp, ho, ht]

-- An instruction that gets its value where it stands. A phi node gets its own
-- at the head of its block.
def Assigns (x : Site × Inst) : Prop :=
  x.snd.op.isConversion ∨ (x.snd.op.fn? mathLib).isSome

theorem isSome_fn?_shadowLib (o : Op) : (o.fn? shadowLib).isSome = (o.fn? mathLib).isSome := by
  rw [← Option.isSome_map (f := Prod.snd), fn?_shadowLib, Option.isSome_map]

theorem computeReal_eq_none (hx : x ∈ P.insts) (hn : ¬Assigns x) : computeReal M x.snd = none := by
  rw [Assigns, not_or] at hn
  cases P.executable x hx with
  | op hf          => simp [hf] at hn
  | conversion ho  => exact absurd ho hn.left
  | phi ho         => simp [computeReal, ho]
  | @silent _ I h  => cases ho : I.op <;> simp_all [Inst.silent, computeReal]

variable {D : Type} (R : Reals D) (E : Frame P.toBody (Option ℝ) D) {fed : Site → D} {ρ : Inputs}
  {S : Site → Prop} {env : Site → Option ℝ} {s : Metadata.State (Option ℝ) D}

theorem passes (hx : x ∈ P.insts) {f : Fn} {args : List Operand}
    (hf : x.snd.op.fn? mathLib = some (f, args)) :
    Passes (Fed P.toBody P.flow x.fst) (Exponent P.toBody) f args ∧
    ∀ g args, x.snd.op = .call g args → isMathCall M g := by
  cases P.executable x hx with
  | op hf' ha _ hm    => cases hf.symm.trans hf'; exact ⟨ha, hm⟩
  | @conversion _ I h => cases ho : I.op <;> simp_all [Op.isConversion, Op.fn?]
  | phi ho            => rw [ho] at hf; cases hf
  | silent h          => exact absurd (.op (by rw [hf]; rfl)) (not_hasValue_of_silent h)

-- An operation writes the value that the runtime computes to its slot.
theorem visit_of_op {f : Fn} {args : List Operand} (hx : x ∈ P.insts)
    (hf : x.snd.op.fn? mathLib = some (f, args)) (hc : P.Found) (hs : E.Tracks ρ S env s)
    (ha : ∀ v ∈ args, Available P.toBody S v) :
    Metadata.Yields (E.visit M R.mpfr R.toLibm x s) s (E.temporary (.inst x.fst))
      (result shadowLib ρ P.toBody env x) := by
  obtain ⟨hp, hm⟩ := P.passes hx hf
  obtain ⟨name, w, f', hn, hw, hcw, hf', ht⟩ := computeReal_passes R hf hp hm
  have ho := hc x hx (by rw [hf]; rfl)
  have hv : E.visit M R.mpfr R.toLibm x s = w (args.map E.pointer) (E.temporary (.inst x.fst))
      (E.instId x.fst) s := by
    rw [← operands_fn? hf]
    simp only [Frame.visit, hn, if_pos ho, hw, Option.bind_eq_bind, Option.bind_some]
  have hr : result shadowLib ρ P.toBody env x = f'.apply (args.map <| ρ.value P.toBody env) := by
    rw [result, hf', Option.bind_some]
  rw [hv, hr]
  apply hcw _ (ht.accepts (fun v hv => hv.value_eq ρ env) fun v hv => hv.value_eq ρ env)
  rw [List.forall₂_map_left_iff, List.forall₂_map_right_iff, List.forall₂_same]
  exact fun v hv => hs v (ha v hv)

-- One instruction.
theorem execute_tracks (hx : x ∈ P.insts) (hc : P.Found) (hs : E.Tracks ρ S env s)
    (ha : ∀ f args, x.snd.op.fn? mathLib = some (f, args) → ∀ v ∈ args, Available P.toBody S v) :
    ∃ s', E.execute M R.mpfr R.toLibm fed s x = some s' ∧
      E.Tracks ρ (fun u => S u ∨ (u = x.fst ∧ Assigns x))
        (assign shadowLib ρ P.toBody (fun t => R.real (fed t)) env x) s' := by
  have hI : P.inst? x.fst = some x.snd := P.mem_insts.mp hx
  rw [Frame.execute, assign, isSome_fn?_shadowLib]
  cases hcv : x.snd.op.isConversion with
  | true  =>
    simp only [if_true]
    refine ⟨_, rfl, ?_⟩
    refine Frame.Tracks.mono ?_ fun u => Or.imp_right And.left
    exact hs.update (e := s.leaf (R.mpfr.setD (fed x.fst)) (fed x.fst) .constant (E.instId x.fst))
      (P.mem_temps hI (.conversion hcv)) rfl
  | false =>
    simp only [Bool.false_eq_true, if_false]
    cases hf : x.snd.op.fn? mathLib with
    | none    =>
      have hn : ¬Assigns x := by simp [Assigns, hcv, hf]
      refine ⟨s, by rw [Frame.visit, P.computeReal_eq_none hx hn], ?_⟩
      simpa [hn] using hs
    | some fa =>
      obtain ⟨s', e, hv, ht, he⟩ := P.visit_of_op R E hx hf hc hs (ha _ _ hf)
      refine ⟨s', hv, ?_⟩
      simp only [Option.isSome_some, if_true, ← he]
      exact (hs.update (P.mem_temps hI (.op (by rw [hf]; rfl))) ht).mono fun u =>
        Or.imp_right And.left

-- The places that have a value when the block `b` is entered behind the way `p`.
def Entered (p : List Nat) (b : Nat) (t : Site) : Prop :=
  ∃ I, P.inst? t = some I ∧ I.HasValue ∧ (t.block ∈ p ∨ t.block = b ∧ ¬Assigns (t, I))

-- And when its instructions `l` have been executed.
def Executed (p : List Nat) (b : Nat) (l : List (Site × Inst)) (t : Site) : Prop :=
  P.Entered p b t ∨ ∃ y ∈ l, y.fst = t ∧ Assigns y

theorem executed_nil : P.Executed p b [] t ↔ P.Entered p b t := by
  simp [Executed]

-- What comes before an instruction in its block has been executed before it.
theorem mem_of_idx_lt {l r : List (Site × Inst)} (hl : l ++ x :: r = P.block b)
    (hI : (t, I) ∈ P.block b) (hi : t.idx < x.fst.idx) : (t, I) ∈ l := by
  have hp := P.block_pairwise b
  rw [← hl, List.pairwise_append, List.pairwise_cons] at hp
  rw [← hl, List.mem_append, List.mem_cons] at hI
  match hI with
  | .inl h         => exact h
  | .inr (.inl h)  => rw [← h] at hi; exact absurd hi (Nat.lt_irrefl _)
  | .inr (.inr h)  => exact absurd hi (Nat.lt_asymm (hp.right.left.left _ h))

-- The operands of an instruction have their values.
theorem available (hc : P.Found) (hr : P.flow.Reaches b (b :: p)) {l r : List (Site × Inst)}
    (hl : l ++ x :: r = P.block b) {f : Fn} {args : List Operand}
    (hf : x.snd.op.fn? mathLib = some (f, args)) :
    ∀ v ∈ args, Available P.toBody (P.Executed p b l) v := by
  intro v hv
  have hxb : x ∈ P.block b := hl ▸ List.mem_append_right l (List.mem_cons_self ..)
  have hx : x ∈ P.insts := P.mem_insts.mpr (P.mem_block.mp hxb).right
  have hb : x.fst.block = b := (P.mem_block.mp hxb).left
  have hS := (P.passes hx hf).left.mem hv
  have ho := List.all_eq_true.mp (hc x hx (by rw [hf]; rfl)) v (by rwa [operands_fn? hf])
  cases v with
  | arg n     => exact .arg
  | const u n =>
    have hu : u.isMPtrTy = false := by
      cases hS with
      | inl h => cases u <;> first | rfl | exact nomatch h
      | inr h => obtain ⟨w, rfl⟩ := h; rfl
    rw [handleOperand_const hu] at ho
    exact .const ho
  | inst t    =>
    obtain ⟨hd, I, hI, hv⟩ := hS.resolve_right nofun
    rw [Flow.Dominates, hb] at hd
    refine .inst ?_
    split at hd
    case isTrue htb =>
      by_cases hat : Assigns (t, I)
      case pos => exact .inr ⟨(t, I), P.mem_of_idx_lt hl (P.mem_block.mpr ⟨htb, hI⟩) hd, rfl, hat⟩
      case neg => exact .inl ⟨I, hI, hv, .inr ⟨htb, hat⟩⟩
    case isFalse htb =>
      exact .inl ⟨I, hI, hv, .inl ((List.mem_cons.mp (hd _ hr)).resolve_left htb)⟩
  | _         => exact nomatch hS.resolve_right nofun

-- The instructions of a block, by induction over those that are left.
theorem execute_block (hc : P.Found) (hr : P.flow.Reaches b (b :: p)) {r : List (Site × Inst)} :
    ∀ {l : List (Site × Inst)} {env s}, l ++ r = P.block b → E.Tracks ρ (P.Executed p b l) env s →
    ∃ s', r.foldlM (E.execute M R.mpfr R.toLibm fed) s = some s' ∧
      E.Tracks ρ (P.Executed p b (P.block b))
        (r.foldl (assign shadowLib ρ P.toBody fun t => R.real (fed t)) env) s' := by
  induction r with
  | nil         => exact fun hl hs => ⟨_, rfl, by rwa [← hl, List.append_nil]⟩
  | cons x r ih =>
    intro l env s hl hs
    have hx : x ∈ P.insts :=
      P.mem_insts.mpr (P.mem_block.mp (hl ▸ List.mem_append_right l (List.mem_cons_self ..))).right
    obtain ⟨s₁, he, hs₁⟩ : ∃ s₁, E.execute M R.mpfr R.toLibm fed s x = some s₁ ∧ _ :=
      P.execute_tracks R E hx hc hs fun f args hf => P.available hc hr hl hf
    rw [List.foldlM_cons, he]
    refine ih (l := l ++ [x]) (by rw [List.append_assoc]; exact hl) (hs₁.mono fun u hu => ?_)
    obtain hu | ⟨y, hy, hu⟩ := hu
    · exact .inl (.inl hu)
    · rw [List.mem_append, List.mem_singleton] at hy
      cases hy with
      | inl hy => exact .inl (.inr ⟨y, hy, hu⟩)
      | inr hy => exact .inr ⟨hy ▸ hu.left.symm, hy ▸ hu.right⟩

end Looping

section Phis

variable {V D : Type} {F : Body} {M : Module} {R : Registers} {ed : Edge F} {s : Metadata.State V D}

open Registers (content)

-- If the incoming values are so ordered, each phi node gets the metadata of its value
-- and nothing else is changed.
theorem exists_copyPhis {calls : List (Site × List (Meta × Nat))}
    (h : copyCalls M F ed.target = some calls) (ho : R.Ordered M ed s) :
    ∃ s', R.copyPhis F ed.source calls s = some s' ∧ R.Parallel M ed s s' ∧
      ∀ p, (∀ x ∈ F.phis ed.target, p = R.target (F := F) x → R.incoming M ed x = none) →
      content s' p = content s p := by
  have hq : ∀ x ∈ F.phis ed.target, (ed.value x).any (·.isInst x.fst) = false := by
    intro x hx
    cases hv : ed.value x with
    | none   => rfl
    | some v =>
      rw [Option.any_some, Bool.eq_false_iff, ne_eq, isInst_iff]
      rintro rfl
      exact ho.moved x hx hv
  rw [copyPhis_eq (fun _ hx => hx) h, foldlM_of_forall hq]
  obtain ⟨env', he, hp, hf⟩ := ((ordered_iff_independent ho.moved s).mp ho).parallel nodup_copies
  rw [← content_foldlM, Registers.copies, List.foldlM_map] at he
  obtain ⟨s', hs, rfl⟩ := Option.map_eq_some_iff.mp he
  refine ⟨s', hs, fun x hx => hp _ (List.mem_map_of_mem hx), fun p hp' => hf p ?_⟩
  intro c hc
  obtain ⟨x, hx, rfl⟩ := List.mem_map.mp hc
  exact hp' x hx

theorem exists_of_content {p q : Ptr} {s' : Metadata.State V D} {e : Metadata.TempEntry V D}
    (h : content s' q = content s p) (he : s.temps p = some e) :
    ∃ e', s'.temps q = some e' ∧ e'.val = e.val := by
  simp only [content, he, Option.map_some] at h
  obtain ⟨e', he', hv⟩ := Option.map_eq_some_iff.mp h
  exact ⟨e', he', by injection hv⟩

theorem held_of_content {D : Type} {s s' : Metadata.State (Option ℝ) D} {o : Option Ptr} {a : Arg}
    (h : s.Held o a) (hc : ∀ p ∈ o, content s' p = content s p) : s'.Held o a := by
  cases h with
  | null          => exact .null
  | @real p e he  =>
    obtain ⟨e', he', hv⟩ := exists_of_content (hc p rfl) he
    exact hv ▸ .real he'

theorem exists_of_held {D : Type} {s : Metadata.State (Option ℝ) D} {o : Option Ptr} {y : Option ℝ}
    (h : s.Held o (.real y)) :
    ∃ p e, o = some p ∧ s.temps p = some e ∧ y = e.val := by
  cases h with
  | real he => exact ⟨_, _, rfl, he, rfl⟩

theorem exists_mapM {α β : Type} {f : α → Option β} {l : List α} (h : ∀ a ∈ l, (f a).isSome) :
    ∃ l', l.mapM f = some l' := by
  induction l with
  | nil         => exact ⟨[], rfl⟩
  | cons a l ih =>
    obtain ⟨ha, hl⟩ := List.forall_mem_cons.mp h
    obtain ⟨b, hb⟩ := Option.isSome_iff_exists.mp ha
    obtain ⟨l', hl'⟩ := ih hl
    exact ⟨b :: l', by rw [List.mapM_cons, hb, hl']; rfl⟩

end Phis

namespace Looping

variable {M : Module} (P : Looping M) {D : Type} (R : Reals D) (E : Frame P.toBody (Option ℝ) D)
  {ρ : Inputs} {env : Site → Option ℝ} {s : Metadata.State (Option ℝ) D} {b b' : Nat} {p : List Nat}
  {v : Operand} {x : Site × List (Operand × Nat)} {place : Site}

theorem mapped_of_hasValue {t : Site} {I : Inst} (hI : P.inst? t = some I) (hv : I.HasValue)
    (hc : I.op.isConversion = false) : mapped M (cloneFunction P.toBody) I := by
  cases P.executable_of hI with
  | op hf _ _ hm      => cases ho : I.op <;> simp_all [mapped, Op.fn?]
  | conversion ho     => rw [ho] at hc; cases hc
  | phi ho ht         => simp [mapped, ho, ht]
  | silent h          => exact absurd hv (not_hasValue_of_silent h)

theorem operandMeta_inst {t : Site} {I : Inst} (hI : P.inst? t = some I) (hv : I.HasValue) :
    operandMeta M (cloneFunction P.toBody) visited (.inst t) = some (.temporary (.inst t)) := by
  have hty := P.isFloatType_of_hasValue hI hv
  have ht : typeMeta (cloneFunction P.toBody) (.inst t) = none := by
    rw [typeMeta, Body.typeOf, inst?_cloneFunction, hI]
    cases h : I.ty <;> simp_all [Ty.isFloatType, Ty.isMPtrTy]
  cases hc : I.op.isConversion with
  | true  =>
    have hm : consMap (cloneFunction P.toBody) (.inst t) := by
      cases ho : I.op <;> simp_all [consMap, Op.isConversion]
    simp [operandMeta, consMeta, hm, Operand.temp?]
  | false =>
    have hm : consMap (cloneFunction P.toBody) (.inst t) = false := by
      cases ho : I.op <;> simp_all [consMap, Op.isConversion]
    have he : early (cloneFunction P.toBody) (.inst t) = false := by rw [early, hm]; rfl
    obtain ⟨m, hh, hf⟩ := found_mapped he ht hI (P.mapped_of_hasValue hI hv hc)
    have hm : m = .temporary (.inst t) := by
      cases hv with
      | op hf           => cases ho : I.op <;> simp_all [home, Op.fn?]
      | conversion hc'  => rw [hc'] at hc; cases hc
      | phi ho          => simpa [home, hI, ho, eq_comm] using hh
    have hcast : (cloneFunction P.toBody).cast? (.inst t) = none := by
      cases hv with
      | op hf           => cases ho : I.op <;> simp_all [Body.cast?, Inst.cast?, Op.fn?]
      | conversion hc'  => rw [hc'] at hc; cases hc
      | phi ho          => simp [Body.cast?, hI, ho, Inst.cast?]
    rw [← hm]
    cases hf with
    | early he'             => rw [he'] at he; cases he
    | phi _ _ _ hp hc       => exact operandMeta_of_phi hc hp
    | late _ hs _ hp hc hi  => rw [operandMeta_of_late hs hc hp hcast, hi]; rfl

-- The metadata that is found for the incoming values of phi nodes is that of the values.
theorem operandMeta_fed (h : Fed P.toBody P.flow place v)
    (hc : v.isConstantFP → consMap P.toBody v) :
    ∃ m, operandMeta M (cloneFunction P.toBody) visited v = some m ∧
      ∀ {D : Type} (E : Frame P.toBody (Option ℝ) D), E.registers.get (cloneFunction P.toBody) m =
      E.pointer v := by
  cases v with
  | inst t    =>
    obtain ⟨-, I, hI, hv⟩ := h
    exact ⟨_, P.operandMeta_inst hI hv, fun _ => rfl⟩
  | arg n     =>
    have hf : (P.typeOf (.arg n)).isFloatType := h
    have ht : typeMeta (cloneFunction P.toBody) (.arg n) = some (.value (.arg n)) := by
      simp [typeMeta, typeOf_cloneFunction, Operand.isArg, hf]
    refine ⟨.value (.arg n), operandMeta_of_early ?_, fun _ => rfl⟩
    rw [ht]
    rfl
  | const t n =>
    have hm : consMap (cloneFunction P.toBody) (.const t n) := by
      rw [consMap_cloneFunction]; exact hc h
    have ht : t.isFloatType := h
    refine ⟨.temporary (.const t.isFloat n), operandMeta_of_early ?_, fun _ => rfl⟩
    simp [consMeta, hm, Operand.temp?, ht]
  | _         => exact h.elim

theorem fed_of_phi (hx : x ∈ P.phis b') {w : Operand × Nat} (hw : w ∈ x.snd) :
    Fed P.toBody P.flow ⟨w.snd, (P.block w.snd).length⟩ w.fst ∧
    (w.fst.isConstantFP → consMap P.toBody w.fst) := by
  obtain ⟨I, hI, ho, ht⟩ := mem_phis.mp hx
  have hm := (P.mem_block.mp hI).right
  constructor
  · cases P.executable_of hm with
    | op hf           => rw [ho] at hf; cases hf
    | conversion hc   => rw [ho] at hc; cases hc
    | phi ho' _ hv    => cases ho.symm.trans ho'; exact hv w hw
    | silent h        => simp [Inst.silent, ho, ht] at h
  · intro hc
    refine consMap_of_mem (P.mem_insts.mpr hm) ?_
    simp only [Inst.constants, ho, List.mem_filter]
    exact ⟨List.mem_map_of_mem hw, hc⟩

theorem exists_copyCalls (b' : Nat) :
    ∃ calls, copyCalls M (cloneFunction P.toBody) b' = some calls := by
  refine exists_mapM fun x hx => ?_
  rw [Option.isSome_map, Option.isSome_iff_exists]
  refine exists_mapM fun w hw => ?_
  obtain ⟨hf, hc⟩ := P.fed_of_phi hx (List.mem_of_mem_filter hw)
  obtain ⟨m, hm, -⟩ := P.operandMeta_fed hf hc
  rw [hm]
  rfl

def edge (hb : b' ∈ P.flow.succ b) : Edge (cloneFunction P.toBody) where
  source := b
  target := b'
  unique := P.incoming b b' hb

theorem value_edge (hb : b' ∈ P.flow.succ b) (hx : x ∈ P.phis b') :
    ∃ v, (P.edge hb).value x = some v ∧ (v, b) ∈ x.snd := by
  obtain ⟨v, hv, hu⟩ := (P.edge hb).value_isSome hx
  refine ⟨v, hv, ?_⟩
  rw [Edge.value] at hv
  obtain ⟨w, hw, rfl⟩ := Option.map_eq_some_iff.mp hv
  have hm := List.mem_of_find?_eq_some hw
  rwa [(hu w hm).mp (by simpa using List.find?_some hw)] at hm

theorem incoming_edge (hb : b' ∈ P.flow.succ b) (hx : x ∈ P.phis b')
    (hv : (P.edge hb).value x = some v) (hm : (v, b) ∈ x.snd) :
    E.registers.incoming M (P.edge hb) x = E.pointer v := by
  obtain ⟨hf, hc⟩ := P.fed_of_phi hx hm
  obtain ⟨m, hm, hg⟩ := P.operandMeta_fed hf hc
  rw [Registers.incoming, hv, Option.bind_some, Registers.operand, hm, Option.bind_some, hg]

-- The places that have a value behind a way.
def Behind (p : List Nat) (t : Site) : Prop :=
  ∃ I, P.inst? t = some I ∧ I.HasValue ∧ t.block ∈ p

theorem executed_of_behind {t : Site} (h : P.Behind (b :: p) t) : P.Executed p b (P.block b) t := by
  obtain ⟨I, hI, hv, ht⟩ := h
  cases List.mem_cons.mp ht with
  | inl ht =>
    by_cases ha : Assigns (t, I)
    case pos => exact .inr ⟨(t, I), P.mem_block.mpr ⟨ht, hI⟩, rfl, ha⟩
    case neg => exact .inl ⟨I, hI, hv, .inr ⟨ht, ha⟩⟩
  | inr ht => exact .inl ⟨I, hI, hv, .inl ht⟩

-- The values of phi nodes are there at the end of the block that they come from.
theorem available_of_phi (hr : P.flow.Reaches b p) (hx : x ∈ P.phis b') (hm : (v, b) ∈ x.snd) :
    Available P.toBody (P.Behind p) v := by
  obtain ⟨hf, hc⟩ := P.fed_of_phi hx hm
  cases v with
  | arg n     => exact .arg
  | const t n => exact .const (hc hf)
  | inst t    =>
    obtain ⟨hd, I, hI, hv⟩ := hf
    refine .inst ⟨I, hI, hv, ?_⟩
    rw [Flow.Dominates] at hd
    split at hd
    case isTrue ht => rw [ht]; exact hr.mem
    case isFalse   => exact hd p hr
  | _         => exact nomatch hf

-- The slot of the value that a phi node takes holds it.
theorem held_of_phi (hr : P.flow.Reaches b p) (hb : b' ∈ P.flow.succ b)
    (hs : E.Tracks ρ (P.Behind p) env s) (hx : x ∈ P.phis b') :
    ∃ v q e, (P.edge hb).value x = some v ∧ (v, b) ∈ x.snd ∧
      E.registers.incoming M (P.edge hb) x = some q ∧ E.pointer v = some q ∧
      s.temps q = some e ∧ ρ.value P.toBody env v = .real e.val := by
  obtain ⟨v, hv, hm⟩ := P.value_edge hb hx
  obtain ⟨y, hy⟩ := (P.fed_of_phi hx hm).left.value_eq ρ env
  have hh := hs v (P.available_of_phi hr hx hm)
  rw [hy] at hh
  obtain ⟨q, e, hq, he, rfl⟩ := exists_of_held hh
  exact ⟨v, q, e, hv, hm, by rw [P.incoming_edge E hb hx hv hm, hq], hq, he, hy⟩

theorem mem_temps_of_phi (hx : x ∈ P.phis b') : .inst x.fst ∈ temps P.toBody := by
  obtain ⟨I, hI, ho, ht⟩ := mem_phis.mp hx
  exact P.mem_temps (P.mem_block.mp hI).right (.phi ho ht)

theorem ordered_edge (hu : P.Unentangled) (hr : P.flow.Reaches b p) (hb : b' ∈ P.flow.succ b)
    (hs : E.Tracks ρ (P.Behind p) env s) : E.registers.Ordered M (P.edge hb) s where
  moved x hx hv          := by
    obtain ⟨v, q, e, hv', hm, -⟩ := P.held_of_phi E hr hb hs hx
    cases hv.symm.trans hv'
    exact hu.moved b b' hb x hx hm
  written x hx q hq      := by
    obtain ⟨v, q', e, -, -, hi, -, he, -⟩ := P.held_of_phi E hr hb hs hx
    cases hi.symm.trans hq
    rw [he]
    rfl
  pairwise               := by
    refine (hu.pairwise b b' hb).imp_of_mem fun {x y} hx hy hn ht => ?_
    obtain ⟨v, q, e, -, hm, hi, hq, -⟩ := P.held_of_phi E hr hb hs hy
    have hv : v ≠ .inst x.fst := fun he => hn (he ▸ hm)
    refine absurd ?_ (pointer_ne E (P.mem_temps_of_phi hx) hv)
    rw [hq, ← hi]
    exact ht

-- A block is entered: its phi nodes get their values.
theorem enter_block (hu : P.Unentangled) (hr : P.flow.Reaches b p) (hb : b' ∈ P.flow.succ b)
    (hs : E.Tracks ρ (P.Behind p) env s) :
    ∃ calls s', copyCalls M (cloneFunction P.toBody) b' = some calls ∧
      E.registers.copyPhis (cloneFunction P.toBody) b calls s = some s' ∧
      E.Tracks ρ (P.Executed p b' []) (takePhis ρ P.toBody b b' env) s' := by
  obtain ⟨calls, hcalls⟩ := P.exists_copyCalls b'
  obtain ⟨s', hs', hp, hf⟩ : ∃ s', E.registers.copyPhis (cloneFunction P.toBody) b calls s =
    some s' ∧ _ :=
    exists_copyPhis hcalls (P.ordered_edge E hu hr hb hs)
  refine ⟨calls, s', hcalls, hs', fun v hv => ?_⟩
  by_cases hphi : ∃ x ∈ P.phis b', v = .inst x.fst
  case pos =>
    obtain ⟨x, hx, rfl⟩ := hphi
    obtain ⟨y, hy⟩ := Option.isSome_iff_exists.mp
      (List.find?_isSome.mpr ⟨x, hx, by simp⟩ : ((P.phis b').find? (·.fst = x.fst)).isSome)
    have hyx : y.fst = x.fst := by simpa using List.find?_some hy
    have hym := List.mem_of_find?_eq_some hy
    obtain ⟨v, q, e, hv, -, hi, -, he, hval⟩ := P.held_of_phi E hr hb hs hym
    obtain ⟨e', he', hev⟩ := exists_of_content (hp y hym q hi) he
    have ht : takePhis.taken b y = some v := hv
    have hval' : takePhis ρ P.toBody b b' env x.fst = e'.val := by
      rw [takePhis, hy, hev]
      simp only [ht, Option.elim, hval]
      rfl
    rw [Inputs.value, hval', ← hyx]
    exact .real he'
  case neg =>
    have hB : Available P.toBody (P.Behind p) v := by
      cases hv with
      | arg       => exact .arg
      | const hc  => exact .const hc
      | @inst t h =>
        obtain ⟨I, hI, hval, ht | ⟨ht, ha⟩⟩ := P.executed_nil.mp h
        · exact .inst ⟨I, hI, hval, ht⟩
        · cases hval with
          | op hf           => exact absurd (.inr hf) ha
          | conversion hc   => exact absurd (.inl hc) ha
          | @phi vs ho hty  =>
            exact absurd ⟨(t, vs), mem_phis.mpr ⟨I, P.mem_block.mpr ⟨ht, hI⟩, ho, hty⟩, rfl⟩ hphi
    have hval : ρ.value P.toBody (takePhis ρ P.toBody b b' env) v = ρ.value P.toBody env v := by
      cases v with
      | inst t =>
        have hn : (P.phis b').find? (·.fst = t) = none :=
          List.find?_eq_none.mpr fun x hx he => hphi ⟨x, hx, by simp at he; rw [he]⟩
        rw [Inputs.value, Inputs.value, takePhis, hn]
      | _      => rfl
    rw [hval]
    refine held_of_content (hs v hB) fun q hq => hf q fun x hx he => ?_
    refine absurd ?_ (pointer_ne E (P.mem_temps_of_phi hx) fun hv => hphi ⟨x, hx, hv⟩)
    rw [Option.mem_def.mp hq, he]
    rfl

-- The shadow execution evaluates the program along the way with the functions of the runtime, by
-- induction over the blocks of the way.
theorem along_tracks (hc : P.Found) (hu : P.Unentangled) (fed : Nat → Site → D)
    (hr : P.flow.Reaches b p) :
    ∃ s, E.along M R.mpfr R.toLibm fed p = some s ∧ E.Tracks (E.inputs R).null (P.Behind p)
      (evalAlong shadowLib (E.inputs R).null P.toBody (fun n t => R.real (fed n t)) p) s := by
  induction hr with
  | entry                     =>
    have h₀ : E.Tracks (E.inputs R).null (P.Executed [] 0 []) (fun _ => none) (E.enter R.mpfr) := by
      refine (Frame.Tracks.enter E R).mono fun t ht => ?_
      obtain ⟨I, hI, hv, ht | ⟨ht, ha⟩⟩ := P.executed_nil.mp ht
      · cases ht
      · cases hv with
        | op hf           => exact ha (.inr hf)
        | conversion hc   => exact ha (.inl hc)
        | @phi vs ho hty  =>
          have hx : (t, vs) ∈ P.phis 0 := mem_phis.mpr ⟨I, P.mem_block.mpr ⟨ht, hI⟩, ho, hty⟩
          rw [P.entry] at hx
          cases hx
    obtain ⟨s, hs, ht⟩ : ∃ s, (P.block 0).foldlM (E.execute M R.mpfr R.toLibm (fed 0))
      (E.enter R.mpfr) = some s ∧ _ :=
      P.execute_block R E hc .entry (List.nil_append _) h₀
    exact ⟨s, hs, ht.mono fun t => P.executed_of_behind⟩
  | @step b b' p hr hb ih     =>
    obtain ⟨s, hs, ht⟩ := ih
    obtain ⟨q, rfl⟩ := hr.exists_cons
    obtain ⟨calls, s₁, hcalls, hs₁, ht₁⟩ := P.enter_block E hu hr hb ht
    obtain ⟨s₂, hs₂, ht₂⟩ : ∃ s₂, (P.block b').foldlM
      (E.execute M R.mpfr R.toLibm (fed (q.length + 1))) s₁ = some s₂ ∧ _ :=
      P.execute_block R E hc (hr.step hb) (List.nil_append _) ht₁
    refine ⟨s₂, ?_, ht₂.mono fun t => P.executed_of_behind⟩
    simp only [Frame.along, hs, hcalls, hs₁, Option.bind_eq_bind, Option.bind_some]
    exact hs₂

-- The function calls none of the two functions that the runtime gets wrong.
def Faithful : Prop :=
  ∀ x ∈ P.insts, ∀ args, x.snd.op ≠ .call "sinh" args ∧ x.snd.op ≠ .call "ldexp" args

end Looping

section Faithful

variable {M : Module} {P : Looping M} {ρ : Inputs} {env : Site → Option ℝ} {place : Site}
  {v : Operand}

theorem Fed.value_null (h : Fed P.toBody P.flow place v) :
    ρ.null.value P.toBody env v = ρ.value P.toBody env v := by
  cases v with
  | arg n =>
    have h : (P.typeOf (.arg n)).isFloatType := h
    simp [Inputs.value, Inputs.null, h]
  | _     => rfl

namespace Looping.Faithful

-- Without `ldexp` all operands are reals.
theorem fed (h : P.Faithful) {x : Site × Inst} (hx : x ∈ P.insts) {f : Fn} {args : List Operand}
    (hf : x.snd.op.fn? mathLib = some (f, args)) : ∀ v ∈ args, Fed P.toBody P.flow x.fst v := by
  intro v hv
  cases (P.passes hx hf).left with
  | one hu          => grind
  | two hu hv'      => grind
  | three hu hv' hw => grind
  | scale hu hn     =>
    cases ho : x.snd.op with
    | binary op  => rw [ho] at hf; cases op <;> cases hf
    | call g     =>
      rw [ho] at hf
      obtain ⟨f, hg, hf⟩ := Option.map_eq_some_iff.mp hf
      cases hf
      rw [eq_ldexp_of_scale hg] at ho
      exact absurd ho (h x hx _).right
    | _          => rw [ho] at hf; cases hf

theorem assign_eq (h : P.Faithful) {x : Site × Inst} (hx : x ∈ P.insts) (fed : Site → Option ℝ) :
    assign shadowLib ρ.null P.toBody fed env x = assign mathLib ρ P.toBody fed env x := by
  have hl : x.snd.op.fn? shadowLib = x.snd.op.fn? mathLib := fn?_shadowLib_of_ne fun args =>
    (h x hx args).left
  have hr : result shadowLib ρ.null P.toBody env x = result mathLib ρ P.toBody env x := by
    rw [result, result, hl]
    cases hf : x.snd.op.fn? mathLib with
    | none    => rfl
    | some fa =>
      have hv : fa.snd.map (ρ.null.value P.toBody env) = fa.snd.map (ρ.value P.toBody env) :=
        List.map_congr_left fun v hv => (h.fed hx hf v hv).value_null
      rw [Option.bind_some, Option.bind_some]
      exact congrArg fa.fst.apply hv
  rw [assign, assign, hl, hr]

theorem takePhis_eq (b b' : Nat) :
    takePhis ρ.null P.toBody b b' env = takePhis ρ P.toBody b b' env := by
  funext t
  rw [takePhis, takePhis]
  split
  case h_2      => rfl
  case h_1 x hx =>
    cases hv : takePhis.taken b x with
    | none   => rfl
    | some v =>
      obtain ⟨w, hw, rfl⟩ := Option.map_eq_some_iff.mp hv
      have hf := (P.fed_of_phi (List.mem_of_find?_eq_some hx) (List.mem_of_find?_eq_some hw)).left
      rw [Option.elim, Option.elim, hf.value_null]

theorem evalAlong_eq (h : P.Faithful) (fed : Nat → Site → Option ℝ) (p : List Nat) :
    evalAlong shadowLib ρ.null P.toBody fed p = evalAlong mathLib ρ P.toBody fed p := by
  have hb : ∀ b, ∀ x ∈ P.block b, x ∈ P.insts :=
    fun b x hx => P.mem_insts.mpr (P.mem_block.mp hx).right
  match p with
  | []          => rfl
  | [b]         => exact List.foldl_ext _ _ _ fun env x hx => h.assign_eq (hb b x hx) _
  | b' :: b :: p =>
    rw [evalAlong, evalAlong, takePhis_eq, h.evalAlong_eq fed (b :: p)]
    exact List.foldl_ext _ _ _ fun env x hx => h.assign_eq (hb b' x hx) _

end Looping.Faithful

end Faithful

-- On every way through the function, loops and phi nodes included, all
-- temporaries hold the exact values.
theorem Looping.exact_along {M : Module} (P : Looping M) {D : Type} (R : Reals D)
    (E : Frame P.toBody (Option ℝ) D) (fed : Nat → Site → D) (hc : P.Found) (hu : P.Unentangled)
    (hl : P.Faithful) {b : Nat} {p : List Nat} (hr : P.flow.Reaches b p) :
    ∃ s, E.along M R.mpfr R.toLibm fed p = some s ∧ ∀ t I, P.inst? t = some I → I.HasValue →
    t.block ∈ p →
      ∃ e, s.temps (E.temporary (.inst t)) = some e ∧
        e.val = evalAlong mathLib (E.inputs R) P.toBody (fun n t => R.real (fed n t)) p t := by
  obtain ⟨s, hs, ht⟩ := P.along_tracks R E hc hu fed hr
  refine ⟨s, hs, fun t I hI hv hb => ?_⟩
  have hh := ht _ (.inst ⟨I, hI, hv, hb⟩)
  rw [hl.evalAlong_eq, Inputs.value] at hh
  obtain ⟨q, e, hq, he, hy⟩ := exists_of_held hh
  cases hq
  exact ⟨e, he, hy.symm⟩

-- A number is multiplied by an integer in a loop.
def powersBody : Body where
  name   := "powers"
  params := [⟨"x", .double⟩, ⟨"n", .int 32⟩]
  blocks := [⟨"entry", [⟨"", .void, .br none⟩]⟩,
    ⟨"loop", [⟨"a", .double, .phi [(.arg 0, 0), (.inst ⟨1, 2⟩, 1)]⟩,
      ⟨"conv", .double, .sitofp (.arg 1)⟩,
      ⟨"mul", .double, .binary .fmul (.inst ⟨1, 0⟩) (.inst ⟨1, 1⟩)⟩,
      ⟨"cmp", .int 1, .fcmp (.inst ⟨1, 2⟩) (.inst ⟨1, 0⟩)⟩,
      ⟨"", .void, .br (some (.inst ⟨1, 3⟩))⟩]⟩,
    ⟨"end", [⟨"", .void, .ret (some (.inst ⟨1, 2⟩))⟩]⟩]

theorem returns_powers : returns powersBody = [⟨2, 0⟩] := rfl

def powersFlow : Flow powersBody where
  succ b := if b = 0 then [1] else if b = 1 then [1, 2] else []
  entry  := by grind
  leaves := by simp [returns_powers]
  unique := by simp [returns_powers]

theorem succ_powers {b b' : Nat} (h : b' ∈ powersFlow.succ b) : (b' = 1 ∧ b < 2) ∨ b' = 2 := by
  simp only [powersFlow] at h
  grind

theorem dominates_powers {i j : Nat} (h : i < j) : powersFlow.Dominates ⟨1, i⟩ ⟨1, j⟩ := by
  simpa [Flow.Dominates] using h

def powers : Looping ⟨[], [], [], [], []⟩ where
  __         := powersBody
  flow       := powersFlow
  entry      := rfl
  incoming b b' hb x hx := by
    obtain ⟨rfl, hb⟩ | rfl := succ_powers hb
    · obtain rfl := List.mem_singleton.mp hx
      obtain rfl | rfl : b = 0 ∨ b = 1 := by omega
      all_goals simp [ExistsUnique]
    · cases hx
  executable x hx := by
    fin_cases hx
    · exact .silent rfl
    · refine .phi rfl rfl fun v hv => ?_
      cases List.mem_pair.mp hv with
      | inl hv => subst hv; rfl
      | inr hv => subst hv; exact ⟨dominates_powers (by decide), _, rfl, .op rfl⟩
    · exact .conversion rfl rfl
    · refine .op rfl (.two ?_ ?_) rfl nofun
      · exact ⟨dominates_powers (by decide), _, rfl, .phi rfl rfl⟩
      · exact ⟨dominates_powers (by decide), _, rfl, .conversion rfl⟩
    · exact .silent rfl
    · exact .silent rfl
    · exact .silent rfl

-- The number, in the frame of the caller.
noncomputable def powersState : Metadata.State (Option ℝ) ℝ :=
  Metadata.storeTempmetaConst Metadata.Reals.plain.mpfr ⟨⟨1, 0⟩, 0⟩ (-1) 0 <|
    Metadata.shadowSliceStart Metadata.Reals.plain.mpfr Metadata.Reals.plain.toDoubles

theorem held_powers (n : Nat) (_h : (powers.toBody.typeOf (.arg n)).isFloatType) :
    (powersState.temps ⟨⟨1, 0⟩, 0⟩).isSome :=
  Option.isSome_some

theorem outer_powers (_n : Nat) : (⟨1, 0⟩ : Metadata.Activation) ≠ ⟨2, 1⟩ := by
  simp

noncomputable def powersFrame : Frame powers.toBody (Option ℝ) ℝ where
  state         := powersState
  self          := ⟨2, 1⟩
  args _        := ⟨⟨1, 0⟩, 0⟩
  intArgs _     := 3
  literal _ _   := 0
  intLiteral _  := 0
  instId s      := s.idx
  held          := held_powers
  outer         := outer_powers

theorem found_powers : powers.Found := by
  intro x hx ho
  fin_cases hx <;> first | rfl | cases ho

theorem unentangled_powers : powers.Unentangled where
  moved b b' hb x hx := by
    obtain ⟨rfl, -⟩ | rfl := succ_powers hb
    · obtain rfl := List.mem_singleton.mp hx
      simp
    · cases hx
  pairwise b b' hb   := by
    obtain ⟨rfl, -⟩ | rfl := succ_powers hb
    · exact List.pairwise_singleton ..
    · exact .nil

-- The loop runs twice.
theorem exact_along_powers :
    ∃ s, powersFrame.along ⟨[], [], [], [], []⟩ Metadata.Reals.plain.mpfr
      Metadata.Reals.plain.toLibm (fun _ _ => 3) [2, 1, 1, 0] = some s ∧
      ∀ t I, powers.inst? t = some I → I.HasValue → t.block ∈ [2, 1, 1, 0] →
      ∃ e, s.temps (powersFrame.temporary (.inst t)) = some e ∧
        e.val = evalAlong mathLib (powersFrame.inputs Metadata.Reals.plain) powers.toBody
          (fun _ _ => some 3) [2, 1, 1, 0] t := by
  refine powers.exact_along Metadata.Reals.plain powersFrame
    (fun _ _ => 3) found_powers unentangled_powers ?_ (b := 2) ?_
  · intro x hx args
    fin_cases hx <;> exact ⟨nofun, nofun⟩
  · refine .step (.step (.step .entry ?_) ?_) ?_ <;> simp [powers, powersFlow]

end Pass
