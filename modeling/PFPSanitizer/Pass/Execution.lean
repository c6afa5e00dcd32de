import PFPSanitizer.Pass.Shadow
import PFPSanitizer.Runtime.MathLib

-- The temporaries of a clone and its execution, as far as it is a sequence of operations.
namespace Pass

open Metadata (Activation Doubles Libm Mpfr Ptr State TempEntry)

-- What a temporary is made for: an instruction, or a constant of type float or double.
inductive Temp
  | inst (s : Site)
  | const (float : Bool) (id : Nat)
deriving DecidableEq

def Operand.temp? : Operand → Option Temp
  | .inst s    => some <| .inst s
  | .const t n => if t.isFloatType then some <| .const t.isFloat n else none
  | _          => none

-- The instructions for which `createGEP` makes a temporary.
def Inst.ownsTemp (I : Inst) : Bool :=
  match I.op with
  | .binary _ _ _ | .fneg _ | .sitofp _ | .uitofp _ => true
  | .load _ | .call _ _ | .icall _ _ | .phi _ | .bitcast _ => I.ty.isFloatType
  | _ => false

def Inst.temps (s : Site) (I : Inst) : List Temp :=
  (if I.ownsTemp then [.inst s] else []) ++ I.constants.filterMap Operand.temp?

-- The temporaries in the order of their slots. A constant has one at each of its uses.
def temps (F : Body) : List Temp :=
  F.insts.flatMap fun (s, I) => I.temps s

-- The slot that `GEPMap` or `ConsMap` has. An entry that is there is not replaced.
def slot (F : Body) (t : Temp) : Nat :=
  (temps F).idxOf t

section Temps

variable {F : Body}

theorem mem_temps_inst {s : Site} {I : Inst} (h : (s, I) ∈ F.insts) (ho : I.ownsTemp) :
    .inst s ∈ temps F := by
  simp only [temps, List.mem_flatMap]
  exact ⟨_, h, by simp [Inst.temps, ho]⟩

theorem mem_temps_const {s : Site} {I : Inst} {t : Ty} {n : Nat} (h : (s, I) ∈ F.insts)
    (hc : .const t n ∈ I.constants) (ht : t.isFloatType) : .const t.isFloat n ∈ temps F := by
  simp only [temps, List.mem_flatMap]
  refine ⟨_, h, ?_⟩
  simp only [Inst.temps, List.mem_append, List.mem_filterMap]
  exact .inr ⟨_, hc, by simp [Operand.temp?, ht]⟩

theorem slot_inj {t u : Temp} (h : t ∈ temps F) : slot F t = slot F u ↔ t = u :=
  List.idxOf_inj h

-- A constant is found if it has a temporary.
theorem consMap_const {t : Ty} {n : Nat} :
    consMap F (.const t n) ↔ t.isFloatType ∧ .const t.isFloat n ∈ temps F := by
  simp only [consMap, Bool.and_eq_true, List.any_eq_true]
  refine and_congr_right fun ht => ?_
  constructor
  · rintro ⟨x, hx, v, hv, h⟩
    cases v with
    | const t' n' =>
      obtain ⟨hf, hn⟩ := Bool.and_eq_true_iff.mp h
      rw [beq_iff_eq.mp hf, beq_iff_eq.mp hn]
      have ht' : t'.isFloatType := by
        simp only [Inst.constants, List.mem_filter] at hv
        exact hv.right
      exact mem_temps_const hx hv ht'
    | _ => cases h
  · intro h
    simp only [temps, List.mem_flatMap] at h
    obtain ⟨x, hx, h⟩ := h
    simp only [Inst.temps, List.mem_append, List.mem_filterMap] at h
    obtain h | ⟨v, hv, h⟩ := h
    · split at h <;> simp at h
    · refine ⟨x, hx, v, hv, ?_⟩
      cases v with
      | const t' n' =>
        simp only [Operand.temp?] at h
        split at h
        · simp only [Option.some.injEq, Temp.const.injEq] at h
          simp [h]
        · cases h
      | _ => simp [Operand.temp?] at h

end Temps

-- The call of a clone: the frame of its caller with the pointers to FP arguments, and its own
-- frame. `intArgs` are the arguments of the program that the clone does not get, `literal` and
-- `intLiteral` what its constants stand for.
structure Frame (F : Body) (V D : Type) where
  state      : State V D
  self       : Activation
  args       : Nat → Ptr
  intArgs    : Nat → Int
  literal    : Bool → Nat → D
  intLiteral : Nat → Int
  instId     : Site → Nat
  held       : ∀ n, (F.typeOf (.arg n)).isFloatType → (state.temps (args n)).isSome
  outer      : ∀ n, (args n).owner ≠ self

-- The function that the handler of an operation calls.
def computeReal (M : Module) (I : Inst) : Option String :=
  match I.op with
  | .fneg _        => some "fpsan_mpfr_fneg"
  | .binary op _ _ => some <| "fpsan_mpfr_" ++ Emit.opName op ++ if I.ty.isFloat then "_f" else ""
  | .call g args   => if isMathCall M g then some <| Emit.funcName g args.length else none
  | _              => none

theorem handleIns_computeReal {M : Module} {F : Body} {s : Site} {I : Inst} {f : String}
    (h : computeReal M I = some f) :
    Emit.handleIns M F (s, I) = [.call f] := by
  rw [computeReal] at h
  split at h
  case h_1 ho | h_2 ho =>
    cases h
    simp [Emit.handleIns, Emit.handleBinOp, ho]
  case h_3 g args ho =>
    split at h
    case isTrue hm =>
      cases h
      simp only [isMathCall, Bool.and_eq_true, Bool.not_eq_true', Bool.or_eq_false_iff,
        decide_eq_true_eq] at hm
      simp [Emit.handleIns, Emit.handleCall, ho, hm]
    case isFalse => exact nomatch h
  case h_4 => exact nomatch h

namespace Frame

variable {F : Body} {V D : Type} (E : Frame F V D)

def temporary (t : Temp) : Ptr where
  owner := E.self
  idx   := slot F t

-- The pointer to the metadata of an operand. A parameter that is not FP is `undef` in the clone.
def pointer : Operand → Option Ptr
  | .arg n     => if (F.typeOf (.arg n)).isFloatType then E.args n else none
  | .inst s    => E.temporary <| .inst s
  | .const t n => E.temporary <| .const t.isFloat n
  | _          => none

section

variable (M : Module) (A : Mpfr V D) (L : Libm D)

-- The constants are stored before the first instruction, `i` is the next slot.
def storeConstants (i : Nat) : List Temp → State V D → State V D
  | [], s                => s
  | .inst _ :: l, s      => storeConstants (i + 1) l s
  | .const b n :: l, s =>
    storeConstants (i + 1) l <| Metadata.storeTempmetaConst A ⟨E.self, i⟩ (E.literal b n) 0 s

def enter : State V D :=
  E.storeConstants A 0 (temps F) <| Metadata.funcInit E.state

-- An operand without metadata ends the compilation. A return leaves the temporaries as they are.
def visit (x : Site × Inst) (s : State V D) : Option (State V D) :=
  match computeReal M x.snd with
  | none   => s
  | some f =>
    if x.snd.op.operands.all (handleOperand M (cloneFunction F) x.fst) then do
      let w ← Metadata.wrapper A L f
      w (x.snd.op.operands.map E.pointer) (E.temporary (.inst x.fst)) (E.instId x.fst) s
    else none

def run : Option (State V D) :=
  F.insts.foldlM (fun s x => E.visit M A L x s) (E.enter A)

end

section StoreConstants

variable {A : Mpfr V D}

theorem temps_storeConstants_of_lt {l : List Temp} {p : Ptr} {i : Nat} {s : State V D}
    (h : p.owner = E.self → p.idx < i) :
    (E.storeConstants A i l s).temps p = s.temps p := by
  induction l generalizing i s with
  | nil => rfl
  | cons t l ih =>
    cases t with
    | inst => exact ih fun ho => Nat.lt_succ_of_lt (h ho)
    | const b n =>
      rw [storeConstants, ih fun ho => Nat.lt_succ_of_lt (h ho)]
      apply Function.update_of_ne
      intro hp
      subst hp
      exact absurd (h rfl) (Nat.lt_irrefl i)

theorem temps_storeConstants_const {l : List Temp} {b : Bool} {n i : Nat} {s : State V D}
    (h : .const b n ∈ l) :
    ∃ e, (E.storeConstants A i l s).temps ⟨E.self, i + l.idxOf (.const b n)⟩ = some e ∧
    e.val = A.setD (E.literal b n) := by
  induction l generalizing i s with
  | nil => exact nomatch h
  | cons t l ih =>
    cases Decidable.eq_or_ne t (.const b n) with
    | inl ht =>
      subst ht
      rw [storeConstants, List.idxOf_cons_self, temps_storeConstants_of_lt _ fun _ =>
        Nat.lt_succ_self i]
      exact ⟨_, Function.update_self .., rfl⟩
    | inr ht =>
      rw [List.idxOf_cons_ne _ ht, Nat.succ_eq_add_one, ← Nat.add_assoc, Nat.add_right_comm]
      have hl := (List.mem_cons.mp h).resolve_left ht.symm
      cases t <;> exact ih hl

theorem temps_enter_args (n : Nat) : (E.enter A).temps (E.args n) = E.state.temps (E.args n) :=
  E.temps_storeConstants_of_lt fun h => absurd h (E.outer n)

theorem temps_enter_const {b : Bool} {n : Nat} (h : .const b n ∈ temps F) :
    ∃ e, (E.enter A).temps (E.temporary (.const b n)) = some e ∧
    e.val = A.setD (E.literal b n) := by
  have := E.temps_storeConstants_const (A := A) (i := 0) (s := Metadata.funcInit E.state) h
  rwa [Nat.zero_add] at this

end StoreConstants

end Frame

end Pass
