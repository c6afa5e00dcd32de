import PFPSanitizer.Runtime.RoundTrip

-- The runtime as it is built without tracing: temporaries and shadow memory have no locks,
-- keys, operands and timestamps.
namespace Metadata.Plain

structure SmemEntry (V D : Type) extends Record V D where
  isInit : Bool

structure State (V D : Type) where
  temps  : Ptr → Option (Record V D)
  memory : Nat → SmemEntry V D

section

variable {V D : Type} (A : Mpfr V D) (B : Doubles D)

def State.write (s : State V D) (p : Ptr) (r : Record V D) : State V D :=
  { s with temps := Function.update s.temps p (some r) }

@[simp]
theorem State.temps_write (s : State V D) (p : Ptr) (r : Record V D) :
    (s.write p r).temps p = some r := by
  rw [State.write]
  exact Function.update_self ..

def State.shadow (s : State V D) (address : Nat) : SmemEntry V D :=
  s.memory (getShadowaddress address)

def State.setShadow (s : State V D) (address : Nat) (e : SmemEntry V D) : State V D :=
  { s with memory := Function.update s.memory (getShadowaddress address) e }

def shadowSliceStart : State V D where
  temps  := fun _ => none
  memory :=
    fun _ => { val := A.nan, computed := B.zero, instId := 0, opcode := .fadd, isInit := false }

def storeTempmetaConst (op : Ptr) (d : D) (instId : Nat) (s : State V D) : State V D :=
  s.write op { val := A.setD d, computed := d, opcode := .constant, instId := instId }

def mCompute (opCode : FpOp) (op1 op2 : Ptr) (computedResd : D) (res : Ptr) (instId : Nat)
    (s : State V D) :
    Option (State V D) := do
  let e₁ ← s.temps op1
  let e₂ ← s.temps op2
  let val :=
    match opCode with
    | .fadd => A.add e₁.val e₂.val
    | .fsub => A.sub e₁.val e₂.val
    | .fmul => A.mul e₁.val e₂.val
    | .fdiv => A.div e₁.val e₂.val
    | _     => s.temps res |>.elim A.nan Record.val
  return s.write res { val := val, computed := computedResd, opcode := opCode, instId := instId }

def handleMathD (opCode : FpOp) (op : Ptr) (computedResd : D) (res : Ptr) (instId : Nat)
    (s : State V D) :
    Option (State V D) := do
  let e ← s.temps op
  let f ← mathFn A opCode
  return s.write res { val := f e.val, computed := computedResd, opcode := opCode,
                       instId := instId }

def mathTwo (f : V → V → V) (opCode : FpOp) (op1 op2 : Ptr) (computedRes : D) (res : Ptr)
    (instId : Nat) (s : State V D) : Option (State V D) := do
  let e₁ ← s.temps op1
  let e₂ ← s.temps op2
  return s.write res { val := f e₁.val e₂.val, computed := computedRes, opcode := opCode,
                       instId := instId }

def mpfrFma (op1 op2 op3 : Ptr) (computedRes : D) (res : Ptr) (instId : Nat) (s : State V D) :
    Option (State V D) := do
  let e₁ ← s.temps op1
  let e₂ ← s.temps op2
  let e₃ ← s.temps op3
  return s.write res
    { val := A.fma e₁.val e₂.val e₃.val, computed := computedRes, opcode := .fma, instId := instId }

def mpfrLdexp (op1 : Ptr) (op2d : Int) (computedRes : D) (res : Ptr) (instId : Nat)
    (s : State V D) :
    Option (State V D) := do
  let e ← s.temps op1
  return s.write res
    { val := A.mul e.val (A.exp2 (A.setSi op2d)), computed := computedRes, opcode := .ldexp,
      instId := instId }

def mpfrFneg (op1 res : Ptr) (s : State V D) : Option (State V D) := do
  let e ← s.temps op1
  return s.write res { e with val := A.sub (A.setD B.zero) e.val, computed := B.neg e.computed }

def copyReturn (src : Option Ptr) (dest : Ptr) (s : State V D) : Option (State V D) :=
  match src with
  | none   => s
  | some p => do
    let e ← s.temps p
    return s.write dest e

def copyPhi (src : Option Ptr) (dst : Ptr) (s : State V D) : Option (State V D) :=
  match src with
  | none   => s
  | some p => do
    let e ← s.temps p
    return s.write dst e

def constShadow (d : D) (instId : Nat) : SmemEntry V D where
  val      := A.setD d
  computed := d
  instId   := instId
  opcode   := .constant
  isInit   := true

def storeShadowDconst (toAddr : Nat) (op : D) (instId : Nat) (s : State V D) : State V D :=
  s.setShadow toAddr <| constShadow A op instId

def storeShadow (toAddr : Nat) (src : Option Ptr) (s : State V D) : Option (State V D) :=
  match src with
  | none   => s
  | some p => do
    let e ← s.temps p
    return s.setShadow toAddr { e with isInit := true }

def handleMemset (toAddr : Nat) (val : D) (instId : Nat) (i : Nat) : Nat → State V D → State V D
  | 0, s     => s
  | n + 1, s =>
    handleMemset toAddr val instId (i + 1) n <| s.setShadow (toAddr + i) <| constShadow A val instId

def State.initShadow (s : State V D) (address : Nat) : State V D :=
  if (s.shadow address).isInit then s
  else s.setShadow address { s.shadow address with isInit := true, val := A.nan }

def handleMemcpy (toAddr fromAddr : Nat) (i : Nat) : Nat → State V D → State V D
  | 0, s     => s
  | n + 1, s =>
    let s   := s.initShadow A (toAddr + i)
    let src := s.shadow (fromAddr + i)
    if src.isInit then handleMemcpy toAddr fromAddr (i + 1) n <|
      s.setShadow (toAddr + i) { src with isInit := true }
    else s

def loadShadow (addr : Nat) (val : D) (src : Option Ptr) (instId : Nat) (s : State V D) :
    State V D :=
  match src with
  | none   => s
  | some p =>
    let dest := s.shadow addr
    if !dest.isInit || B.ne val dest.computed then storeTempmetaConst A p val instId s
    else s.write p dest.toRecord

-- The calls of the runtime in this build.
def exec (s : State V D) : Call V D → Option (State V D)
  | .const op d i               => storeTempmetaConst A op d i s
  | .compute o p q d res i      => mCompute A o p q d res i s
  | .math o p d res i           => handleMathD A o p d res i s
  | .mathTwo f o p q d res i    => mathTwo f o p q d res i s
  | .fma p q r d res i          => mpfrFma A p q r d res i s
  | .ldexp p n d res i          => mpfrLdexp A p n d res i s
  | .fneg p res                 => mpfrFneg A B p res s
  | .copyReturn p dest          => copyReturn p dest s
  | .copyPhi p dst              => copyPhi p dst s
  | .load addr d p i            => loadShadow A B addr d p i s
  | .store addr p               => storeShadow addr p s
  | .storeConst addr d i        => storeShadowDconst A addr d i s
  | .memset addr n d i          => handleMemset A addr d i 0 n s
  | .memcpy addr source n       => handleMemcpy A addr source 0 n s

-- The state with the frames of the program. `fpsan_func_init` and `fpsan_func_exit` do nothing.
structure Config (V D : Type) extends State V D where
  frames : List Activation
  next   : Nat

def Config.enter (c : Config V D) : Config V D :=
  { c with frames := { level := c.frames.length + 2, id := c.next } :: c.frames,
           next := c.next + 1 }

def step : Act V D → Config V D → Option (Config V D)
  | .enter, c  => some c.enter
  | .exit, c   => if c.frames.isEmpty then none else some { c with frames := c.frames.tail }
  | .call k, c =>
    if k.Fits c.frames then exec A B c.toState k |>.map fun s => { c with toState := s } else none

def machine : Machine (Config V D) (Act V D) where
  init := { shadowSliceStart A B with frames := [], next := 0 }
  step := step A B

end

end Metadata.Plain

namespace Metadata

variable {V D : Type} {A : Mpfr V D} {B : Doubles D}

def SmemEntry.erase (e : SmemEntry V D) : Plain.SmemEntry V D :=
  { e.toRecord with isInit := e.isInit }

-- What is left of a state without tracing.
def State.erase (s : State V D) : Plain.State V D where
  temps p  := s.temps p |>.map TempEntry.toRecord
  memory i := (s.memory i).erase

def Config.erase (c : Config V D) : Plain.Config V D :=
  { c.toState.erase with frames := c.frames, next := c.next }

section Erase

variable {s : State V D} {p q r res : Ptr} {e : TempEntry V D} {d : D} {i n addr : Nat}

theorem State.erase_temps (s : State V D) (p : Ptr) :
    s.erase.temps p = (s.temps p).map TempEntry.toRecord :=
  rfl

@[simp]
theorem erase_write (s : State V D) (p : Ptr) (e : TempEntry V D) :
    (s.write p e).erase = s.erase.write p e.toRecord := by
  simp only [State.erase, State.write, Plain.State.write, Plain.State.mk.injEq, and_true]
  funext q
  by_cases h : q = p
  case pos => simp [h]
  case neg => simp [h]

@[simp]
theorem erase_record (s : State V D) (p : Ptr) (e : TempEntry V D) :
    (s.record p e).erase = s.erase.write p e.toRecord :=
  erase_write s p e

@[simp]
theorem erase_setShadow (s : State V D) (addr : Nat) (e : SmemEntry V D) :
    (s.setShadow addr e).erase = s.erase.setShadow addr e.erase := by
  simp only [State.erase, State.setShadow, Plain.State.setShadow, Plain.State.mk.injEq, true_and]
  funext i
  by_cases h : i = getShadowaddress addr
  case pos => simp [h]
  case neg => simp [h]

@[simp]
theorem erase_shadow (s : State V D) (addr : Nat) : s.erase.shadow addr = (s.shadow addr).erase :=
  rfl

theorem erase_initShadow (s : State V D) (addr : Nat) :
    (s.initShadow A addr).erase = s.erase.initShadow A addr := by
  rw [State.initShadow, Plain.State.initShadow]
  have hi : (s.erase.shadow addr).isInit = (s.shadow addr).isInit := rfl
  rw [hi]
  split
  · rfl
  · rw [erase_setShadow]
    rfl

theorem erase_memset :
    (handleMemset A addr d i n m s).erase = Plain.handleMemset A addr d i n m s.erase := by
  induction m generalizing s n with
  | zero      => rfl
  | succ m ih =>
    rw [handleMemset, Plain.handleMemset, ih, erase_setShadow]
    rfl

theorem erase_memcpy {source m : Nat} :
    (handleMemcpy A addr source n m s).erase = Plain.handleMemcpy A addr source n m s.erase := by
  induction m generalizing s n with
  | zero      => rfl
  | succ m ih =>
    rw [handleMemcpy, Plain.handleMemcpy]
    simp only [← erase_initShadow]
    have hi : ((s.initShadow A (addr + n)).erase.shadow (source + n)).isInit =
        ((s.initShadow A (addr + n)).shadow (source + n)).isInit := rfl
    rw [hi]
    split
    · rw [ih, erase_setShadow]
      rfl
    · rfl

-- Every pointer in the shadow memory is to a temporary that has been written.
def State.TmpWritten (s : State V D) : Prop :=
  ∀ i, ∀ t ∈ (s.memory i).tmpPtr, (s.temps t).isSome

theorem State.TmpWritten.setShadow (h : s.TmpWritten) {e : SmemEntry V D}
    (he : ∀ t ∈ e.tmpPtr, (s.temps t).isSome) :
    (s.setShadow addr e).TmpWritten := by
  intro i t ht
  by_cases hi : i = getShadowaddress addr
  case pos => simp only [hi, State.setShadow, Function.update_self] at ht; exact he t ht
  case neg => simp only [State.setShadow, Function.update_of_ne hi] at ht; exact h i t ht

theorem erase_loadShadow {o : Option Ptr} (h : s.TmpWritten) :
    (loadShadow A B addr d o i s).map State.erase =
    some (Plain.loadShadow A B addr d o i s.erase) := by
  cases o with
  | none   => rfl
  | some p =>
    have hi : (s.erase.shadow addr).isInit = (s.shadow addr).isInit := rfl
    have hr : (s.erase.shadow addr).toRecord = (s.shadow addr).toRecord := rfl
    have hc : (s.shadow addr).toRecord.computed = (s.shadow addr).computed := rfl
    simp only [loadShadow, Plain.loadShadow, hi, hr, hc]
    split
    · exact congrArg some (erase_record s p _)
    split
    · exact congrArg some (erase_record s p _)
    case h_2 t ht =>
      split
      · obtain ⟨e, he⟩ := Option.isSome_iff_exists.mp (h _ t ht)
        rw [he]
        exact congrArg some (erase_write s p _)
      · exact congrArg some (erase_record s p _)

variable {o : Option Ptr}

theorem erase_copyReturn :
    (copyReturn o res s).map State.erase = Plain.copyReturn o res s.erase := by
  cases o with
  | none   => rfl
  | some p =>
    simp only [copyReturn, Plain.copyReturn, State.erase_temps]
    cases s.temps p with
    | none   => rfl
    | some e => exact congrArg some (erase_write s res _)

theorem erase_copyPhi : (copyPhi o res s).map State.erase = Plain.copyPhi o res s.erase := by
  cases o with
  | none   => rfl
  | some p =>
    simp only [copyPhi, Plain.copyPhi, State.erase_temps]
    cases s.temps p with
    | none   => rfl
    | some e => exact congrArg some (erase_record s res _)

theorem erase_storeShadow :
    (storeShadow addr o s).map State.erase = Plain.storeShadow addr o s.erase := by
  cases o with
  | none   => rfl
  | some p =>
    simp only [storeShadow, Plain.storeShadow, State.erase_temps]
    cases s.temps p with
    | none   => rfl
    | some e => exact congrArg some (erase_setShadow s addr _)

-- What tracing adds has no influence on the values.
theorem erase_exec (h : s.TmpWritten) (k : Call V D) :
    (k.exec A B s).map State.erase = Plain.exec A B s.erase k := by
  cases k with
  | const p d i => exact congrArg some (erase_record s p _)
  | compute o p q d res i =>
    simp only [Call.exec, mCompute, Plain.exec, Plain.mCompute, State.erase_temps]
    cases s.temps p with
    | none    => rfl
    | some e₁ =>
      cases s.temps q with
      | none    => rfl
      | some e₂ =>
        refine congrArg some ((erase_record s res _).trans (congrArg _ ?_))
        cases s.temps res <;> cases o <;> rfl
  | math o p d res i =>
    simp only [Call.exec, handleMathD, Plain.exec, Plain.handleMathD, State.erase_temps]
    cases s.temps p with
    | none   => rfl
    | some e =>
      cases hf : mathFn A o with
      | none   => rfl
      | some f => exact congrArg some (erase_record s res _)
  | mathTwo f o p q d res i =>
    simp only [Call.exec, mathTwo, Plain.exec, Plain.mathTwo, State.erase_temps]
    cases s.temps p with
    | none    => rfl
    | some e₁ =>
      cases s.temps q with
      | none    => rfl
      | some e₂ => exact congrArg some (erase_record s res _)
  | fma p q r d res i =>
    simp only [Call.exec, mpfrFma, Plain.exec, Plain.mpfrFma, State.erase_temps]
    cases s.temps p with
    | none    => rfl
    | some e₁ =>
      cases s.temps q with
      | none    => rfl
      | some e₂ =>
        cases s.temps r with
        | none    => rfl
        | some e₃ => exact congrArg some (erase_record s res _)
  | ldexp p n d res i =>
    simp only [Call.exec, mpfrLdexp, Plain.exec, Plain.mpfrLdexp, State.erase_temps]
    cases s.temps p with
    | none   => rfl
    | some e => exact congrArg some (erase_record s res _)
  | fneg p res =>
    simp only [Call.exec, mpfrFneg, Plain.exec, Plain.mpfrFneg, State.erase_temps]
    cases s.temps p with
    | none   => rfl
    | some e => exact congrArg some (erase_write s res _)
  | copyReturn p dest => exact erase_copyReturn
  | copyPhi p dst     => exact erase_copyPhi
  | load addr d p i => exact erase_loadShadow h
  | store addr p => exact erase_storeShadow
  | storeConst addr d i => exact congrArg some (erase_setShadow s addr _)
  | memset addr n d i => exact congrArg some erase_memset
  | memcpy addr source n => exact congrArg some erase_memcpy

theorem State.TmpWritten.write (h : s.TmpWritten) : (s.write p e).TmpWritten := by
  intro j t ht
  by_cases hp : t = p
  case pos => simp [State.write, hp]
  case neg => simpa [State.write, hp] using h j t ht

theorem State.TmpWritten.memset (h : s.TmpWritten) {m : Nat} :
    (handleMemset A addr d i n m s).TmpWritten := by
  induction m generalizing s n with
  | zero      => exact h
  | succ m ih => exact ih (h.setShadow nofun)

theorem State.TmpWritten.memcpy (h : s.TmpWritten) {source m : Nat} :
    (handleMemcpy A addr source n m s).TmpWritten := by
  induction m generalizing s n with
  | zero      => exact h
  | succ m ih =>
    have hi : (s.initShadow A (addr + n)).TmpWritten := by
      rw [State.initShadow]
      split
      · exact h
      · exact h.setShadow (h _)
    rw [handleMemcpy]
    split
    · exact ih (hi.setShadow (hi _))
    · exact hi

theorem Call.Outcome.tmpWritten {k : Call V D} {s' : State V D} (e : k.Outcome A s s')
    (h : s.TmpWritten) :
    s'.TmpWritten := by
  cases e with
  | none | storeNone => exact h
  | write | record   => exact h.write
  | store he         =>
    refine h.setShadow fun t ht => ?_
    obtain rfl := Option.some.inj ht
    rw [he]
    rfl
  | storeConst       => exact h.setShadow nofun
  | memset           => exact h.memset
  | memcpy           => exact h.memcpy

end Erase

section Run

variable {c c' : Config V D} {a : Act V D}

-- What the builds rely on to agree.
structure Erasable (c : Config V D) : Prop where
  tmpWritten  : c.TmpWritten
  keyStackTop : c.keyStackTop = c.frames.length + 1

theorem Erasable.step (h : Erasable c) (e : exec A B a c = some c') : Erasable c' := by
  obtain ⟨rfl, rfl⟩ | ⟨rfl, hf, rfl⟩ | ⟨k, s, rfl, _, hs, rfl⟩ := exec_cases e
  · exact ⟨h.tmpWritten, congrArg (· + 1) h.keyStackTop⟩
  · refine ⟨h.tmpWritten, ?_⟩
    have hl : 0 < c.frames.length := List.length_pos_iff.mpr hf
    simp only [Config.exit, funcExit, h.keyStackTop, List.length_tail]
    omega
  · exact ⟨(Call.outcome hs).tmpWritten h.tmpWritten,
      (Call.outcome hs).sameKeys.keyStackTop.trans h.keyStackTop⟩

theorem erase_step (h : Erasable c) (a : Act V D) :
    (exec A B a c).map Config.erase = Plain.step A B a c.erase := by
  cases a with
  | enter =>
    have hl : c.keyStackTop + 1 = c.frames.length + 2 := congrArg (· + 1) h.keyStackTop
    simp only [exec, Plain.step, Option.map_some, Config.erase, Config.enter, Plain.Config.enter,
      hl]
    rfl
  | exit =>
    simp only [exec, Plain.step, show c.erase.frames = c.frames from rfl]
    split <;> rfl
  | call k =>
    simp only [exec, Plain.step]
    show Option.map _ _ = if k.Fits c.frames then _ else none
    split
    · have he := erase_exec (A := A) (B := B) h.tmpWritten k
      show _ = Option.map _ (Plain.exec A B c.toState.erase k)
      rw [← he, Option.map_map, Option.map_map]
      rfl
    · rfl

theorem erase_acts (h : Erasable c) (acts : List (Act V D)) :
    ((machine A B).exec acts c).map Config.erase = (Plain.machine A B).exec acts c.erase := by
  have he : ((machine A B).exec acts c).map Config.erase =
      ((Plain.machine A B).exec acts c.erase).map id :=
    Machine.map_exec_eq (R := fun c p => Erasable c ∧ c.erase = p) (C := fun _ => True)
      (fun {a c p} _ ⟨hc, hp⟩ => by
        subst hp
        show Option.Rel _ (exec A B a c) (Plain.step A B a c.erase)
        rw [← erase_step (A := A) (B := B) hc a]
        cases hs : exec A B a c with
        | none    => exact .none
        | some c' => exact .some ⟨hc.step hs, rfl⟩)
      (fun _ _ => trivial) ⟨h, rfl⟩ And.right
  rwa [Option.map_id] at he

end Run

end Metadata
