import PFPSanitizer.Runtime.Temporaries
import PFPSanitizer.Lib.Machine

-- Whether the locks and keys of temporaries tell live frames from dead ones.
namespace Metadata

-- The calls of the runtime in shadow functions. The results of operations are in the frame of the
-- function that calls them, that of a return is in the frame of its caller.
inductive Call (V D : Type)
  | const (op : Ptr) (d : D) (instId : Nat)
  | compute (opCode : FpOp) (op1 op2 : Ptr) (computed : D) (res : Ptr) (instId : Nat)
  | math (opCode : FpOp) (op : Ptr) (computed : D) (res : Ptr) (instId : Nat)
  | mathTwo (f : V → V → V) (opCode : FpOp) (op1 op2 : Ptr) (computed : D) (res : Ptr)
      (instId : Nat)
  | fma (op1 op2 op3 : Ptr) (computed : D) (res : Ptr) (instId : Nat)
  | ldexp (op : Ptr) (op2d : Int) (computed : D) (res : Ptr) (instId : Nat)
  | fneg (op res : Ptr)
  | copyReturn (src : Option Ptr) (dest : Ptr)
  | copyPhi (src : Option Ptr) (dst : Ptr)
  | load (addr : Nat) (val : D) (src : Option Ptr) (instId : Nat)
  | store (toAddr : Nat) (src : Option Ptr)
  | storeConst (toAddr : Nat) (d : D) (instId : Nat)
  | memset (toAddr size : Nat) (val : D) (instId : Nat)
  | memcpy (toAddr fromAddr size : Nat)

-- The state of a buffer with the frames that are live, innermost first. `next` counts the
-- activations.
structure Config (V D : Type) extends State V D where
  frames : List Activation
  next   : Nat

inductive Act (V D : Type)
  | enter
  | exit
  | call (c : Call V D)

-- A result is recorded with what the program computes.
def Written {V D : Type} (s s' : State V D) (res : Ptr) (d : D) : Prop :=
  ∃ e, e.computed = d ∧ s' = s.record res e

section Written

variable {V D : Type} {A : Mpfr V D} {s s' : State V D} {o : FpOp} {p q r res : Ptr} {d : D}
  {i : Nat}

theorem written_mCompute (h : mCompute A o p q d res i s = some s') : Written s s' res d := by
  obtain ⟨e₁, -, h⟩ := Option.bind_eq_some_iff.mp h
  obtain ⟨e₂, -, h⟩ := Option.bind_eq_some_iff.mp h
  cases h
  exact ⟨_, rfl, rfl⟩

theorem written_handleMathD (h : handleMathD A o p d res i s = some s') : Written s s' res d := by
  obtain ⟨e, -, h⟩ := Option.bind_eq_some_iff.mp h
  obtain ⟨f, -, h⟩ := Option.bind_eq_some_iff.mp h
  cases h
  exact ⟨_, rfl, rfl⟩

theorem written_mathTwo {f : V → V → V} (h : mathTwo f o p q d res i s = some s') :
    Written s s' res d := by
  obtain ⟨e₁, -, h⟩ := Option.bind_eq_some_iff.mp h
  obtain ⟨e₂, -, h⟩ := Option.bind_eq_some_iff.mp h
  cases h
  exact ⟨_, rfl, rfl⟩

theorem written_mpfrFma (h : mpfrFma A p q r d res i s = some s') : Written s s' res d := by
  obtain ⟨e₁, -, h⟩ := Option.bind_eq_some_iff.mp h
  obtain ⟨e₂, -, h⟩ := Option.bind_eq_some_iff.mp h
  obtain ⟨e₃, -, h⟩ := Option.bind_eq_some_iff.mp h
  cases h
  exact ⟨_, rfl, rfl⟩

theorem written_mpfrLdexp {n : Int} (h : mpfrLdexp A p n d res i s = some s') :
    Written s s' res d := by
  obtain ⟨e, -, h⟩ := Option.bind_eq_some_iff.mp h
  cases h
  exact ⟨_, rfl, rfl⟩

theorem Written.computed {e : TempEntry V D} (h : Written s s' res d) (he : s'.temps res = some e) :
    e.computed = d := by
  obtain ⟨e', hd, rfl⟩ := h
  have hs : (s.record res e').temps res = some e' := Function.update_self ..
  obtain rfl : e' = e := Option.some.inj (hs.symm.trans he)
  exact hd

theorem Written.temps_of_ne (h : Written s s' res d) (hp : p ≠ res) : s'.temps p = s.temps p := by
  obtain ⟨e, -, rfl⟩ := h
  exact Function.update_of_ne hp ..

end Written

namespace Call

variable {V D : Type}

def operands : Call V D → List Ptr
  | const _ _ _ | load _ _ _ _ | storeConst _ _ _ | memset _ _ _ _ | memcpy _ _ _ => []
  | compute _ p q _ _ _ | mathTwo _ _ p q _ _ _        => [p, q]
  | math _ p _ _ _ | ldexp p _ _ _ _ | fneg p _        => [p]
  | fma p q r _ _ _                                    => [p, q, r]
  | copyReturn p _ | copyPhi p _ | store _ p           => p.toList

def result : Call V D → Option Ptr
  | const p _ _ | compute _ _ _ _ p _ | math _ _ _ p _ | mathTwo _ _ _ _ _ p _ | fma _ _ _ _ p _
  | ldexp _ _ _ p _ | fneg _ p | copyPhi _ p => p
  | load _ _ p _                             => p
  | _                                        => none

-- The frame of the caller.
def returned : Call V D → Option Ptr
  | copyReturn _ p => p
  | _              => none

def Fits (c : Call V D) (frames : List Activation) : Prop :=
  (∀ p ∈ c.operands, p.owner ∈ frames) ∧ (∀ p ∈ c.result, frames[0]? = some p.owner) ∧
  ∀ p ∈ c.returned, frames[1]? = some p.owner

instance (c : Call V D) (frames : List Activation) : Decidable (c.Fits frames) :=
  inferInstanceAs (Decidable (_ ∧ _ ∧ _))

def exec (A : Mpfr V D) (B : Doubles D) : Call V D → State V D → Option (State V D)
  | const op d i, s             => storeTempmetaConst A op d i s
  | compute o p q d res i, s    => mCompute A o p q d res i s
  | math o p d res i, s         => handleMathD A o p d res i s
  | mathTwo f o p q d res i, s  => Metadata.mathTwo f o p q d res i s
  | fma p q r d res i, s        => mpfrFma A p q r d res i s
  | ldexp p n d res i, s        => mpfrLdexp A p n d res i s
  | fneg p res, s               => mpfrFneg A B p res s
  | copyReturn p dest, s        => Metadata.copyReturn p dest s
  | copyPhi p dst, s            => Metadata.copyPhi p dst s
  | load addr d p i, s          => loadShadow A B addr d p i s
  | store addr p, s             => storeShadow addr p s
  | storeConst addr d i, s      => storeShadowDconst A addr d i s
  | memset addr n d i, s        => handleMemset A addr d i 0 n s
  | memcpy addr source n, s     => handleMemcpy A addr source 0 n s

-- The calls that write to the shadow memory.
def isStore : Call V D → Bool
  | store _ _ | storeConst _ _ _ | memset _ _ _ _ | memcpy _ _ _ => true
  | _                                                            => false

-- What a call can do: the stores write to the shadow memory, and any other call to one temporary.
inductive Outcome (A : Mpfr V D) (s : State V D) : Call V D → State V D → Prop
  | none       : k.isStore = false → Outcome A s k s
  | storeNone  : Outcome A s (.store addr none) s
  | write      : k.isStore = false → Outcome A s k (s.write p e)
  | record     : k.isStore = false → Outcome A s k (s.record p e)
  | store      : s.temps p = some e → Outcome A s (.store addr (some p)) (s.setShadow addr
      { val := e.val, computed := e.computed, instId := e.instId, opcode := e.opcode,
        isInit := true,
        lock := s.lock32, key := s.key32, tmpPtr := some p })
  | storeConst : Outcome A s (.storeConst addr d i) (s.setShadow addr (s.constShadow A d i))
  | memset     : Outcome A s (.memset addr n d i) (handleMemset A addr d i 0 n s)
  | memcpy     : Outcome A s (.memcpy addr source n) (handleMemcpy A addr source 0 n s)

theorem outcome_of_load {A : Mpfr V D} {B : Doubles D} {s s' : State V D} {addr : Nat} {d : D}
    {p : Option Ptr} {i : Nat} (e : loadShadow A B addr d p i s = some s') :
    Outcome A s (.load addr d p i) s' := by
  cases p with
  | none   => cases e; exact .none rfl
  | some p =>
    simp only [loadShadow] at e
    split at e
    · cases e; exact .record rfl
    split at e
    · cases e; exact .record rfl
    split at e
    · obtain ⟨e', _, hs⟩ := Option.bind_eq_some_iff.mp e
      cases hs; exact .write rfl
    · cases e; exact .record rfl

theorem outcome {A : Mpfr V D} {B : Doubles D} {k : Call V D} {s s' : State V D}
    (e : k.exec A B s = some s') : k.Outcome A s s' := by
  cases k with
  | const p d i => cases e; exact .record rfl
  | compute o p q d res i =>
    obtain ⟨_, -, rfl⟩ := written_mCompute e
    exact .record rfl
  | math o p d res i =>
    obtain ⟨_, -, rfl⟩ := written_handleMathD e
    exact .record rfl
  | mathTwo f o p q d res i =>
    obtain ⟨_, -, rfl⟩ := written_mathTwo e
    exact .record rfl
  | fma p q r d res i =>
    obtain ⟨_, -, rfl⟩ := written_mpfrFma e
    exact .record rfl
  | ldexp p n d res i =>
    obtain ⟨_, -, rfl⟩ := written_mpfrLdexp e
    exact .record rfl
  | fneg p res =>
    obtain ⟨e₁, _, e⟩ := Option.bind_eq_some_iff.mp e
    cases e; exact .write rfl
  | copyReturn p dest =>
    cases p with
    | none   => cases e; exact .none rfl
    | some p =>
      obtain ⟨e₁, _, e⟩ := Option.bind_eq_some_iff.mp e
      cases e; exact .write rfl
  | copyPhi p dst =>
    cases p with
    | none   => cases e; exact .none rfl
    | some p =>
      obtain ⟨e₁, _, e⟩ := Option.bind_eq_some_iff.mp e
      cases e; exact .record rfl
  | load addr d p i => exact outcome_of_load e
  | store addr p =>
    cases p with
    | none   => cases e; exact .storeNone
    | some p =>
      obtain ⟨e₁, he, e⟩ := Option.bind_eq_some_iff.mp e
      cases e; exact .store he
  | storeConst addr d i      => cases e; exact .storeConst
  | memset addr n d i        => cases e; exact .memset
  | memcpy addr source n     => cases e; exact .memcpy

end Call

-- A state with the same locks and keys.
structure State.SameKeys {V D : Type} (s s' : State V D) : Prop where
  lockKeyMap  : s'.lockKeyMap = s.lockKeyMap
  keyStackTop : s'.keyStackTop = s.keyStackTop
  keyCounter  : s'.keyCounter = s.keyCounter

section SameKeys

variable {V D : Type} {A : Mpfr V D} {s s' s'' : State V D}

namespace State.SameKeys

theorem refl : s.SameKeys s :=
  ⟨rfl, rfl, rfl⟩

theorem trans (h₁ : s.SameKeys s') (h₂ : s'.SameKeys s'') : s.SameKeys s'' :=
  ⟨h₂.lockKeyMap.trans h₁.lockKeyMap, h₂.keyStackTop.trans h₁.keyStackTop,
    h₂.keyCounter.trans h₁.keyCounter⟩

theorem setShadow {addr : Nat} {e : SmemEntry V D} : s.SameKeys (s.setShadow addr e) :=
  ⟨rfl, rfl, rfl⟩

theorem memset {addr : Nat} {d : D} {instId i n : Nat} :
    s.SameKeys (handleMemset A addr d instId i n s) := by
  induction n generalizing s i with
  | zero      => exact refl
  | succ n ih => exact setShadow.trans ih

theorem initShadow {addr : Nat} : s.SameKeys (s.initShadow A addr) := by
  rw [State.initShadow]
  split
  · exact refl
  · exact setShadow

theorem memcpy {addr source i n : Nat} : s.SameKeys (handleMemcpy A addr source i n s) := by
  induction n generalizing s i with
  | zero      => exact refl
  | succ n ih =>
    rw [handleMemcpy]
    split
    · exact initShadow.trans (setShadow.trans ih)
    · exact initShadow

end State.SameKeys

theorem Call.Outcome.sameKeys {k : Call V D} (h : k.Outcome A s s') : s.SameKeys s' := by
  cases h with
  | none | storeNone               => exact .refl
  | write | record                 => exact ⟨rfl, rfl, rfl⟩
  | store | storeConst             => exact .setShadow
  | memset                         => exact .memset
  | memcpy                         => exact .memcpy

end SameKeys

variable {V D : Type}

namespace Config

-- A shadow function is entered.
def enter (c : Config V D) : Config V D :=
  { funcInit c.toState with
    frames := { level := c.keyStackTop + 1, id := c.next } :: c.frames, next := c.next + 1 }

-- The innermost shadow function is left.
def exit (c : Config V D) : Config V D :=
  { funcExit c.toState with frames := c.frames.tail, next := c.next }

end Config

def exec (A : Mpfr V D) (B : Doubles D) : Act V D → Config V D → Option (Config V D)
  | .enter, c  => some c.enter
  | .exit, c   => if c.frames.isEmpty then none else some c.exit
  | .call k, c =>
    if k.Fits c.frames then k.exec A B c.toState |>.map fun s => { c with toState := s } else none

-- All runs of the shadow functions of one buffer, over any number of slices.
def machine (A : Mpfr V D) (B : Doubles D) : Machine (Config V D) (Act V D) where
  init := { shadowSliceStart A B with frames := [], next := 0 }
  step := exec A B

-- What a step can do.
theorem exec_cases {A : Mpfr V D} {B : Doubles D} {a : Act V D} {c c' : Config V D}
    (e : exec A B a c = some c') :
    (a = .enter ∧ c' = c.enter) ∨ (a = .exit ∧ c.frames ≠ [] ∧ c' = c.exit) ∨
    ∃ k s, a = .call k ∧ k.Fits c.frames ∧ k.exec A B c.toState = some s ∧
    c' = { c with toState := s } := by
  cases a with
  | enter =>
    obtain rfl := Option.some.inj e
    exact .inl ⟨rfl, rfl⟩
  | exit =>
    rw [exec] at e
    split at e
    case isTrue     => cases e
    case isFalse hf =>
      obtain rfl := Option.some.inj e
      exact .inr (.inl ⟨rfl, by simpa using hf, rfl⟩)
  | call k =>
    rw [exec] at e
    split at e
    case isFalse   => cases e
    case isTrue hf =>
      obtain ⟨s, hs, rfl⟩ := Option.map_eq_some_iff.mp e
      exact .inr (.inr ⟨k, s, rfl, hf, hs, rfl⟩)

-- The entries that `fpsan_trace`, `m_get_depth` and `fpsan_fpcore` come to from one of them.
inductive Visits (s : State V D) (p : Ptr) : Ptr → Prop
  | start : Visits s p p
  | lhs : Visits s p q → s.temps q = some e → s.lockKeyMap e.op1Lock = e.op1Key →
          s.lockKeyMap e.op2Lock = e.op2Key → e.lhs = some r → Visits s p r
  | rhs : Visits s p q → s.temps q = some e → s.lockKeyMap e.op1Lock = e.op1Key →
          s.lockKeyMap e.op2Lock = e.op2Key → e.rhs = some r → Visits s p r

-- Every pointer whose check passes is one into a live frame.
structure Safe (c : Config V D) : Prop where
  lhs    : ∀ p e, p.owner ∈ c.frames → c.temps p = some e → c.lockKeyMap e.op1Lock = e.op1Key →
           ∀ q ∈ e.lhs, q.owner ∈ c.frames
  rhs    : ∀ p e, p.owner ∈ c.frames → c.temps p = some e → c.lockKeyMap e.op2Lock = e.op2Key →
           ∀ q ∈ e.rhs, q.owner ∈ c.frames
  visits : ∀ p q, p.owner ∈ c.frames → Visits c.toState p q → q.owner ∈ c.frames

-- A lock and a key that stay good for a pointer when frames are left: if the check passes now, then
-- the frame of the lock is not below that of the pointer.
def Guarded (s : State V D) (lock key : Nat) (p : Ptr) : Prop :=
  key ≠ 0 ∧ (s.lockKeyMap lock = key → p.owner.level ≤ lock)

-- The same for the pointers that `fpsan_handle_memcpy` copies, whose own check has to pass as well.
def CopyGuarded (A : Mpfr V D) (toAddr fromAddr i : Nat) : Nat → State V D → Prop
  | 0, _     => True
  | n + 1, s =>
    let s   := s.initShadow A (toAddr + i)
    let src := s.shadow (fromAddr + i)
    src.isInit →
      (∀ p ∈ src.tmpPtr, s.lockKeyMap src.lock = src.key ∧ Guarded s s.lock32 s.key32 p) ∧
    CopyGuarded A toAddr fromAddr (i + 1) n (s.setShadow (toAddr + i) <| s.copyShadow src)

-- The condition on a step.
def Act.Guarded (A : Mpfr V D) : Act V D → Config V D → Prop
  | .enter, c                              => c.keyCounter + 1 < 2 ^ 64
  | .call (.copyReturn (some p) dest), c   =>
    ∀ e, c.temps p = some e →
      (∀ q ∈ e.lhs, q.owner.level ≤ dest.owner.level ∨
        Metadata.Guarded c.toState e.op1Lock e.op1Key q) ∧
      (∀ q ∈ e.rhs, q.owner.level ≤ dest.owner.level ∨
        Metadata.Guarded c.toState e.op2Lock e.op2Key q)
  | .call (.store _ (some p)), c           => Metadata.Guarded c.toState c.lock32 c.key32 p
  | .call (.memcpy toAddr fromAddr n), c   => CopyGuarded A toAddr fromAddr 0 n c.toState
  | _, _                                   => True

-- The live activations have the levels from `top` down.
inductive Stack : Nat → List Activation → Prop
  | nil  : Stack 1 []
  | cons : a.level = top + 1 → Stack top as → Stack (top + 1) (a :: as)

namespace Stack

variable {top : Nat} {as : List Activation} {a : Activation}

theorem level_le (h : Stack top as) (ha : a ∈ as) : a.level ≤ top := by
  induction h with
  | nil          => cases ha
  | cons hl _ ih =>
    cases ha with
    | head       => exact Nat.le_of_eq hl
    | tail _ ha  => exact Nat.le_succ_of_le (ih ha)

theorem level_head (h : Stack top as) (ha : as[0]? = some a) : a ∈ as ∧ a.level = top := by
  cases h with
  | nil       => cases ha
  | cons hl _ => cases ha; exact ⟨List.mem_cons_self, hl⟩

theorem pos (h : Stack top as) : 0 < top := by
  cases h <;> omega

theorem tail (h : Stack top as) (hne : as ≠ []) : Stack (top - 1) as.tail := by
  cases h with
  | nil      => exact absurd rfl hne
  | cons _ h => exact h

theorem lt_of_mem_tail (h : Stack top as) (ha : a ∈ as.tail) : a.level < top := by
  cases h with
  | nil      => cases ha
  | cons _ h => exact Nat.lt_succ_of_le (h.level_le ha)

-- An activation that is not on top stays when the top is left.
theorem mem_tail (h : Stack top as) (ha : a ∈ as) (hl : a.level < top) : a ∈ as.tail := by
  cases h with
  | nil       => cases ha
  | cons ht _ =>
    cases ha with
    | head      => omega
    | tail _ ha => exact ha

end Stack

-- The check of a lock and a key protects a pointer: it can only pass while the frame of the pointer
-- is live and not above the one of the lock.
def Tracked (c : Config V D) (lock key : Nat) (p : Ptr) : Prop :=
  key ≠ 0 ∧ (c.lockKeyMap lock = key → p.owner ∈ c.frames ∧ p.owner.level ≤ lock)

-- A pointer of an entry in the frame at `level` stays as long as that frame, or it is tracked.
def LinkOk (c : Config V D) (level lock key : Nat) (ptr : Option Ptr) : Prop :=
  key ≤ c.keyCounter ∧
  ∀ p ∈ ptr, (p.owner ∈ c.frames ∧ p.owner.level ≤ level) ∨ Tracked c lock key p

def EntryOk (c : Config V D) (level : Nat) (e : TempEntry V D) : Prop :=
  LinkOk c level e.op1Lock e.op1Key e.lhs ∧ LinkOk c level e.op2Lock e.op2Key e.rhs

def ShadowOk (c : Config V D) (e : SmemEntry V D) : Prop :=
  e.key ≤ c.keyCounter ∧ ∀ p ∈ e.tmpPtr, Tracked c e.lock e.key p

structure Inv (c : Config V D) : Prop where
  stack   : Stack c.keyStackTop c.frames
  above   : ∀ l, c.keyStackTop < l → c.lockKeyMap l = 0
  bound   : ∀ l, c.lockKeyMap l ≤ c.keyCounter
  ids     : ∀ a ∈ c.frames, a.id < c.next
  written : ∀ p e, c.temps p = some e → p.owner.id < c.next
  entries : ∀ p e, p.owner ∈ c.frames → c.temps p = some e → EntryOk c p.owner.level e
  shadow  : ∀ i, ShadowOk c (c.memory i)

-- The part of it that is about the key stack.
structure Keys (c : Config V D) : Prop where
  stack : Stack c.keyStackTop c.frames
  above : ∀ l, c.keyStackTop < l → c.lockKeyMap l = 0
  bound : ∀ l, c.lockKeyMap l ≤ c.keyCounter

section Inv

variable {A : Mpfr V D} {B : Doubles D} {c : Config V D} {s : State V D}

theorem Inv.keys (h : Inv c) : Keys c :=
  ⟨h.stack, h.above, h.bound⟩

theorem LinkOk.live {level lock key : Nat} {ptr : Option Ptr} (h : LinkOk c level lock key ptr)
    (hk : c.lockKeyMap lock = key) : ∀ p ∈ ptr, p.owner ∈ c.frames := by
  intro p hp
  cases h.right p hp with
  | inl h => exact h.left
  | inr h => exact (h.right hk).left

theorem LinkOk.mono {level level' lock key : Nat} {ptr : Option Ptr}
    (h : LinkOk c level lock key ptr) (hl : level ≤ level') : LinkOk c level' lock key ptr :=
  ⟨h.left, fun p hp => (h.right p hp).imp (fun h => ⟨h.left, Nat.le_trans h.right hl⟩) id⟩

theorem EntryOk.mono {level level' : Nat} {e : TempEntry V D} (h : EntryOk c level e)
    (hl : level ≤ level') :
    EntryOk c level' e :=
  ⟨h.left.mono hl, h.right.mono hl⟩

theorem LinkOk.none {level : Nat} : LinkOk c level 0 0 none :=
  ⟨Nat.zero_le _, fun _ h => nomatch h⟩

-- The pointers of a live entry are live if their checks pass.
theorem Inv.safe (h : Inv c) : Safe c where
  lhs p e hp he hk := (h.entries p e hp he).left.live hk
  rhs p e hp he hk := (h.entries p e hp he).right.live hk
  visits p q hp hv := by
    induction hv with
    | start               => exact hp
    | lhs _ he h₁ _ hr ih => exact (h.entries _ _ ih he).left.live h₁ _ hr
    | rhs _ he _ h₂ hr ih => exact (h.entries _ _ ih he).right.live h₂ _ hr

-- The link that an operation makes to one of its operands.
theorem Inv.linkOk (h : Inv c) {p : Ptr} (hp : p.owner ∈ c.frames) (lock : Nat) :
    LinkOk c c.keyStackTop lock (c.lockKeyMap lock) (some p) := by
  refine ⟨h.bound lock, fun q hq => .inl ?_⟩
  obtain rfl : p = q := Option.some.inj hq
  exact ⟨hp, h.stack.level_le hp⟩

theorem Inv.leafOk {val : V} {d : D} {o : FpOp} {i : Nat} :
    EntryOk c c.keyStackTop (c.leaf val d o i) :=
  ⟨.none, .none⟩

theorem Inv.unaryOk (h : Inv c) {p : Ptr} (hp : p.owner ∈ c.frames) {e : TempEntry V D} {val : V}
    {d : D} {o : FpOp} {i : Nat} : EntryOk c c.keyStackTop (c.unary p e val d o i) :=
  ⟨h.linkOk hp e.lock, .none⟩

theorem Inv.binaryOk (h : Inv c) {p q : Ptr} (hp : p.owner ∈ c.frames) (hq : q.owner ∈ c.frames)
    {e e' : TempEntry V D} {val : V} {d : D} {o : FpOp} {i : Nat} :
    EntryOk c c.keyStackTop (c.binary p e q e' val d o i) :=
  ⟨h.linkOk hp e.lock, h.linkOk hq e'.lock⟩

-- An entry of a live frame in the frame on top.
theorem Inv.entryOk (h : Inv c) {p : Ptr} (hp : p.owner ∈ c.frames) {e : TempEntry V D}
    (he : c.temps p = some e) :
    EntryOk c c.keyStackTop e :=
  (h.entries p e hp he).mono (h.stack.level_le hp)

theorem Inv.write (h : Inv c) {p : Ptr} (hp : p.owner ∈ c.frames) {e : TempEntry V D}
    (he : EntryOk c p.owner.level e) : Inv { c with toState := c.write p e } where
  stack  := h.stack
  above  := h.above
  bound  := h.bound
  ids    := h.ids
  shadow := h.shadow
  written q e' hq := by
    by_cases hqp : q = p
    case pos => subst hqp; exact h.ids _ hp
    case neg => exact h.written q e' (by simpa [State.write, hqp] using hq)
  entries q e' hq hqe := by
    by_cases hqp : q = p
    case pos =>
      subst hqp
      obtain rfl : e = e' := by simpa [State.write] using hqe
      exact he
    case neg => exact h.entries q e' hq (by simpa [State.write, hqp] using hqe)

theorem Inv.record (h : Inv c) {p : Ptr} (hp : p.owner ∈ c.frames) {e : TempEntry V D}
    (he : EntryOk c p.owner.level e) : Inv { c with toState := c.record p e } :=
  have hw := h.write hp he
  { hw with }

theorem Inv.setShadow (h : Inv c) {addr : Nat} {e : SmemEntry V D} (he : ShadowOk c e) :
    Inv { c with toState := c.setShadow addr e } where
  stack   := h.stack
  above   := h.above
  bound   := h.bound
  ids     := h.ids
  written := h.written
  entries := h.entries
  shadow i := by
    show ShadowOk c (Function.update c.memory (getShadowaddress addr) e i)
    by_cases hi : i = getShadowaddress addr
    case pos => subst hi; rw [Function.update_self]; exact he
    case neg => rw [Function.update_of_ne hi]; exact h.shadow i

theorem Keys.of_sameKeys (h : Keys c) (e : c.toState.SameKeys s) :
    Keys { c with toState := s } where
  stack := by
    rw [show ({ c with toState := s } : Config V D).keyStackTop = _ from e.keyStackTop]
    exact h.stack
  above := by
    intro l hl
    show s.lockKeyMap l = 0
    rw [e.lockKeyMap]
    exact h.above l (e.keyStackTop ▸ hl)
  bound := by
    intro l
    show s.lockKeyMap l ≤ s.keyCounter
    rw [e.lockKeyMap, e.keyCounter]
    exact h.bound l

theorem Keys.key32_le (h : Keys c) : c.key32 ≤ c.keyCounter :=
  Nat.le_trans (Nat.mod_le _ _) (h.bound _)

theorem Inv.key32_le (h : Inv c) : c.key32 ≤ c.keyCounter :=
  h.keys.key32_le

theorem Inv.constShadowOk (h : Inv c) {d : D} {i : Nat} : ShadowOk c (c.constShadow A d i) :=
  ⟨h.key32_le, fun _ hp => nomatch hp⟩

-- A live pointer is tracked by a guarded lock and key.
theorem Guarded.tracked {lock key : Nat} {p : Ptr} (h : Guarded c.toState lock key p)
    (hp : p.owner ∈ c.frames) :
    Tracked c lock key p :=
  ⟨h.left, fun hk => ⟨hp, h.right hk⟩⟩

theorem LinkOk.map {c' : Config V D} {level lock key : Nat} {ptr : Option Ptr}
    (h : LinkOk c level lock key ptr) (hk : c.keyCounter ≤ c'.keyCounter)
    (hl : ∀ {p : Ptr}, p.owner ∈ c.frames → p.owner.level ≤ level → p.owner ∈ c'.frames)
    (ht : ∀ {p : Ptr}, key ≤ c.keyCounter → Tracked c lock key p → Tracked c' lock key p) :
    LinkOk c' level lock key ptr :=
  ⟨Nat.le_trans h.left hk, fun p hp =>
    (h.right p hp).imp (fun ⟨h₁, h₂⟩ => ⟨hl h₁ h₂, h₂⟩) (ht h.left)⟩

section Enter

variable (hg : c.keyCounter + 1 < 2 ^ 64)

include hg

theorem keyCounter_enter : c.enter.keyCounter = c.keyCounter + 1 :=
  Nat.mod_eq_of_lt hg

theorem lockKeyMap_enter :
    c.enter.lockKeyMap = Function.update c.lockKeyMap (c.keyStackTop + 1) (c.keyCounter + 1) := by
  simp only [Config.enter, funcInit, Nat.mod_eq_of_lt hg]

-- The new key differs from all that are in use.
theorem Tracked.enter {lock key : Nat} {p : Ptr} (hk : key ≤ c.keyCounter)
    (h : Tracked c lock key p) :
    Tracked c.enter lock key p := by
  refine ⟨h.left, fun hl => ?_⟩
  rw [lockKeyMap_enter hg] at hl
  by_cases hlt : lock = c.keyStackTop + 1
  case pos =>
    rw [hlt, Function.update_self] at hl
    omega
  case neg =>
    rw [Function.update_of_ne hlt] at hl
    exact ⟨List.mem_cons_of_mem _ (h.right hl).left, (h.right hl).right⟩

theorem LinkOk.enter {level lock key : Nat} {ptr : Option Ptr} (h : LinkOk c level lock key ptr) :
    LinkOk c.enter level lock key ptr :=
  h.map (keyCounter_enter hg ▸ Nat.le_succ _) (fun hp _ => List.mem_cons_of_mem _ hp)
    (Tracked.enter hg)

theorem Keys.enter (h : Keys c) : Keys c.enter where
  stack   := .cons rfl h.stack
  above l hl := by
    have hl : c.keyStackTop + 1 < l := hl
    rw [lockKeyMap_enter hg, Function.update_of_ne (by omega)]
    exact h.above l (by omega)
  bound l := by
    have hb := h.bound l
    rw [lockKeyMap_enter hg, keyCounter_enter hg]
    by_cases hl : l = c.keyStackTop + 1
    case pos => simp [hl]
    case neg => rw [Function.update_of_ne hl]; omega

theorem Inv.enter (h : Inv c) : Inv c.enter where
  stack   := (h.keys.enter hg).stack
  above   := (h.keys.enter hg).above
  bound   := (h.keys.enter hg).bound
  ids a ha := by
    cases ha with
    | head      => exact Nat.lt_succ_self _
    | tail _ ha => exact Nat.lt_succ_of_lt (h.ids a ha)
  written p e he := Nat.lt_succ_of_lt (h.written p e he)
  entries p e hp he := by
    have ho : p.owner ∈ c.frames := by
      cases List.mem_cons.mp hp with
      | inl hp => exact absurd (h.written p e he) (by simp [hp])
      | inr hp => exact hp
    have hi := h.entries p e ho he
    exact ⟨hi.left.enter hg, hi.right.enter hg⟩
  shadow i := by
    have hi := h.shadow i
    exact ⟨Nat.le_trans hi.left (keyCounter_enter hg ▸ Nat.le_succ _), fun p hp =>
      (hi.right p hp).enter hg hi.left⟩

end Enter

-- The frame that is left is on top: no passing check protects a pointer into it.
theorem Keys.tracked_exit (h : Keys c) {lock key : Nat} {p : Ptr} (ht : Tracked c lock key p) :
    Tracked c.exit lock key p := by
  refine ⟨ht.left, fun hl => ?_⟩
  have hl : Function.update c.lockKeyMap c.keyStackTop 0 lock = key := hl
  by_cases hlt : lock = c.keyStackTop
  case pos =>
    rw [hlt, Function.update_self] at hl
    exact absurd hl.symm ht.left
  case neg =>
    rw [Function.update_of_ne hlt] at hl
    have ⟨hp, hle⟩ := ht.right hl
    have hb : ¬c.keyStackTop < lock := fun hlt => ht.left (hl ▸ h.above lock hlt)
    exact ⟨h.stack.mem_tail hp (by omega), hle⟩

theorem Keys.exit (h : Keys c) (hne : c.frames ≠ []) : Keys c.exit where
  stack := h.stack.tail hne
  above l hlt := by
    have hlt : c.keyStackTop - 1 < l := hlt
    show Function.update c.lockKeyMap c.keyStackTop 0 l = 0
    by_cases hl : l = c.keyStackTop
    case pos => rw [hl, Function.update_self]
    case neg => rw [Function.update_of_ne hl]; exact h.above l (by omega)
  bound l := by
    show Function.update c.lockKeyMap c.keyStackTop 0 l ≤ c.keyCounter
    by_cases hl : l = c.keyStackTop
    case pos => rw [hl, Function.update_self]; exact Nat.zero_le _
    case neg => rw [Function.update_of_ne hl]; exact h.bound l

theorem Inv.exit (h : Inv c) (hne : c.frames ≠ []) : Inv c.exit := by
  have hk := h.keys.exit hne
  have hl {p : Ptr} {lock key : Nat} {ptr : Option Ptr} (hp : p.owner ∈ c.frames.tail)
      (ho : LinkOk c p.owner.level lock key ptr) : LinkOk c.exit p.owner.level lock key ptr := by
    have hlt := (h.stack.tail hne).level_le hp
    have ht := h.stack.pos
    exact ho.map (Nat.le_refl _) (fun hq hle => h.stack.mem_tail hq (by omega)) fun _ =>
      h.keys.tracked_exit
  exact {
    stack   := hk.stack
    above   := hk.above
    bound   := hk.bound
    ids     := fun a ha => h.ids a (List.mem_of_mem_tail ha)
    written := h.written
    entries := by
      intro p e hp he
      have ho := h.entries p e (List.mem_of_mem_tail hp) he
      exact ⟨hl hp ho.left, hl hp ho.right⟩
    shadow  :=
      fun i => ⟨(h.shadow i).left, fun p hp => h.keys.tracked_exit ((h.shadow i).right p hp)⟩ }

-- A result is written into the frame on top.
theorem Inv.writeTop (h : Inv c) {p : Ptr} (hp : c.frames[0]? = some p.owner) {e : TempEntry V D}
    (he : EntryOk c c.keyStackTop e) : Inv { c with toState := c.write p e } := by
  have ⟨hm, hl⟩ := h.stack.level_head hp
  exact h.write hm (hl ▸ he)

theorem Inv.recordTop (h : Inv c) {p : Ptr} (hp : c.frames[0]? = some p.owner) {e : TempEntry V D}
    (he : EntryOk c c.keyStackTop e) : Inv { c with toState := c.record p e } := by
  have ⟨hm, hl⟩ := h.stack.level_head hp
  exact h.record hm (hl ▸ he)

theorem Inv.memset (h : Inv c) {addr : Nat} {d : D} {instId i n : Nat} :
    Inv { c with toState := handleMemset A addr d instId i n c.toState } := by
  induction n generalizing c i with
  | zero      => exact h
  | succ n ih =>
    have hs : Inv { c with toState := c.setShadow (addr + i) (c.constShadow A d instId) } :=
      h.setShadow h.constShadowOk
    exact ih hs

theorem Inv.initShadow (h : Inv c) (addr : Nat) :
    Inv { c with toState := c.initShadow A addr } := by
  rw [State.initShadow]
  split
  · exact h
  · exact h.setShadow (h.shadow _)

-- Induction over the bytes, with the condition at each of them.
theorem Inv.memcpy (h : Inv c) {toAddr fromAddr i n : Nat}
    (hg : CopyGuarded A toAddr fromAddr i n c.toState) :
    Inv { c with toState := handleMemcpy A toAddr fromAddr i n c.toState } := by
  induction n generalizing c i with
  | zero      => exact h
  | succ n ih =>
    have hi := h.initShadow (A := A) (toAddr + i)
    rw [handleMemcpy]
    split
    case isFalse => exact hi
    case isTrue hs =>
      have ⟨hc, hg⟩ := hg hs
      refine ih (c := { c with toState := (c.initShadow A (toAddr + i)).setShadow (toAddr + i) _ })
        ?_ hg
      refine hi.setShadow ⟨hi.key32_le, fun p hp => ?_⟩
      have ⟨hk, hg⟩ := hc p hp
      exact hg.tracked (((hi.shadow _).right p hp).right hk).left

theorem Inv.load (h : Inv c) {addr : Nat} {d : D} {p : Ptr} {i : Nat}
    (hp : c.frames[0]? = some p.owner) (e : loadShadow A B addr d (some p) i c.toState = some s) :
    Inv { c with toState := s } := by
  simp only [loadShadow] at e
  split at e
  · cases e
    exact h.recordTop hp Inv.leafOk
  split at e
  · cases e
    exact h.recordTop hp Inv.leafOk
  case h_2 t ht =>
    split at e
    case isFalse =>
      cases e
      exact h.recordTop hp Inv.leafOk
    case isTrue hk =>
      -- The temporary that was stored is live, so its operands can be taken over.
      have ⟨e', he', hs⟩ := Option.bind_eq_some_iff.mp e
      obtain rfl := Option.some.inj hs
      have hl := (((h.shadow _).right t ht).right hk).left
      have ho := h.entryOk hl he'
      exact h.writeTop hp ⟨ho.left, ho.right⟩

-- The links of an entry that is returned to the frame below.
theorem LinkOk.returned {level level' lock key : Nat} {ptr : Option Ptr}
    (h : LinkOk c level lock key ptr)
    (hg : ∀ q ∈ ptr, q.owner.level ≤ level' ∨ Guarded c.toState lock key q) :
    LinkOk c level' lock key ptr := by
  refine ⟨h.left, fun q hq => ?_⟩
  cases h.right q hq with
  | inr ht => exact .inr ht
  | inl hl => exact (hg q hq).imp (⟨hl.left, ·⟩) (·.tracked hl.left)

theorem Inv.call (h : Inv c) {k : Call V D} (hf : k.Fits c.frames) (hg : (Act.call k).Guarded A c)
    (e : k.exec A B c.toState = some s) : Inv { c with toState := s } := by
  have ⟨ho, hr, hc⟩ := hf
  cases k with
  | const p d i =>
    cases e
    exact h.recordTop (hr p rfl) Inv.leafOk
  | compute o p q d res i =>
    have ⟨e₁, he₁, e⟩ := Option.bind_eq_some_iff.mp e
    have ⟨e₂, he₂, e⟩ := Option.bind_eq_some_iff.mp e
    cases e
    exact h.recordTop (hr res rfl)
      (h.binaryOk (ho p (by simp [Call.operands])) (ho q (by simp [Call.operands])))
  | math o p d res i =>
    have ⟨e₁, he₁, e⟩ := Option.bind_eq_some_iff.mp e
    have ⟨f, hf, e⟩ := Option.bind_eq_some_iff.mp e
    cases e
    exact h.recordTop (hr res rfl) (h.unaryOk (ho p (by simp [Call.operands])))
  | mathTwo f o p q d res i =>
    have ⟨e₁, he₁, e⟩ := Option.bind_eq_some_iff.mp e
    have ⟨e₂, he₂, e⟩ := Option.bind_eq_some_iff.mp e
    cases e
    exact h.recordTop (hr res rfl)
      (h.binaryOk (ho p (by simp [Call.operands])) (ho q (by simp [Call.operands])))
  | fma p q r d res i =>
    have ⟨e₁, he₁, e⟩ := Option.bind_eq_some_iff.mp e
    have ⟨e₂, he₂, e⟩ := Option.bind_eq_some_iff.mp e
    have ⟨e₃, he₃, e⟩ := Option.bind_eq_some_iff.mp e
    cases e
    exact h.recordTop (hr res rfl)
      (h.binaryOk (ho p (by simp [Call.operands])) (ho q (by simp [Call.operands])))
  | ldexp p n d res i =>
    have ⟨e₁, he₁, e⟩ := Option.bind_eq_some_iff.mp e
    cases e
    exact h.recordTop (hr res rfl) (h.unaryOk (ho p (by simp [Call.operands])))
  | fneg p res =>
    have ⟨e₁, he₁, e⟩ := Option.bind_eq_some_iff.mp e
    cases e
    have hp := h.entryOk (ho p (by simp [Call.operands])) he₁
    exact h.writeTop (hr res rfl) ⟨hp.left, hp.right⟩
  | copyReturn p dest =>
    cases p with
    | none   => cases e; exact h
    | some p =>
      have ⟨e₁, he₁, e⟩ := Option.bind_eq_some_iff.mp e
      cases e
      have hg := hg e₁ he₁
      have hp := h.entries p e₁ (ho p (by simp [Call.operands])) he₁
      exact h.write (List.mem_of_getElem? (hc dest rfl))
        ⟨hp.left.returned hg.left, hp.right.returned hg.right⟩
  | copyPhi p dst =>
    cases p with
    | none   => cases e; exact h
    | some p =>
      have ⟨e₁, he₁, e⟩ := Option.bind_eq_some_iff.mp e
      cases e
      have hp := h.entryOk (ho p (by simp [Call.operands])) he₁
      exact h.recordTop (hr dst rfl) ⟨hp.left, hp.right⟩
  | load addr d p i =>
    cases p with
    | none   => cases e; exact h
    | some p => exact h.load (hr p rfl) e
  | store addr p =>
    cases p with
    | none   => cases e; exact h
    | some p =>
      have ⟨e₁, he₁, e⟩ := Option.bind_eq_some_iff.mp e
      cases e
      refine h.setShadow ⟨h.key32_le, fun q hq => ?_⟩
      obtain rfl : p = q := Option.some.inj hq
      exact Guarded.tracked hg (ho p (by simp [Call.operands]))
  | storeConst addr d i =>
    cases e
    exact h.setShadow h.constShadowOk
  | memset addr n d i =>
    cases e
    exact h.memset
  | memcpy toAddr fromAddr n =>
    cases e
    exact h.memcpy hg

theorem inv_step {a : Act V D} {c' : Config V D} (h : Inv c) (hg : a.Guarded A c)
    (e : exec A B a c = some c') :
    Inv c' := by
  obtain ⟨rfl, rfl⟩ | ⟨rfl, hne, rfl⟩ | ⟨k, s, rfl, hf, hs, rfl⟩ := exec_cases e
  · exact h.enter hg
  · exact h.exit hne
  · exact h.call hf hg hs

theorem inv_init : Inv (machine A B).init where
  stack   := .nil
  above l hl := by
    show Function.update (fun _ => 0) 1 1 l = 0
    exact Function.update_of_ne (Nat.ne_of_gt hl) _ _
  bound l := by
    show Function.update (fun _ => 0) 1 1 l ≤ 1
    by_cases hl : l = 1
    case pos => simp [hl]
    case neg => rw [Function.update_of_ne hl]; exact Nat.zero_le _
  ids     := fun _ ha => nomatch ha
  written := fun _ _ he => nomatch he
  entries := fun _ _ hp => nomatch hp
  shadow  := fun _ => ⟨Nat.zero_le _, fun _ hp => nomatch hp⟩

end Inv

-- In a run whose steps are all guarded no passing check leads into a dead frame.
theorem safe_of_guarded {A : Mpfr V D} {B : Doubles D} {c : Config V D} (r : (machine A B).Run c)
    (h : r.Each (Act.Guarded A)) : r.Always Safe :=
  Machine.Run.Each.invariant inv_init (fun _ hi hg e => inv_step hi hg e) h
    |>.mono fun _ => Inv.safe

-- A function returns the square root of its argument. What is returned points to the argument.
theorem safe_of_guarded_sqrt :
    ∃ c, ∃ r : (machine (default : Mpfr Unit Unit) default).Run c, c.frames = [⟨2, 0⟩] ∧
      (c.temps ⟨⟨2, 0⟩, 0⟩).bind TempEntry.lhs = some ⟨⟨2, 0⟩, 1⟩ ∧ r.Always Safe := by
  let r := Machine.Run.init (M := machine (default : Mpfr Unit Unit) default)
    |>.step .enter rfl |>.step (.call (.const ⟨⟨2, 0⟩, 1⟩ () 7)) rfl |>.step .enter rfl
    |>.step (.call (.math .sqrt ⟨⟨2, 0⟩, 1⟩ () ⟨⟨3, 1⟩, 0⟩ 8)) rfl
    |>.step (.call (.copyReturn (some ⟨⟨3, 1⟩, 0⟩) ⟨⟨2, 0⟩, 0⟩)) rfl |>.step .exit rfl
  refine ⟨_, r, rfl, rfl,
    safe_of_guarded r ⟨⟨⟨⟨⟨⟨trivial, ?_⟩, trivial⟩, ?_⟩, trivial⟩, ?_⟩, trivial⟩⟩
  case refine_1 => exact (by decide : 1 + 1 < 2 ^ 64)
  case refine_2 => exact (by decide : 2 + 1 < 2 ^ 64)
  case refine_3 =>
    intro e he
    obtain rfl := Option.some.inj he
    refine ⟨fun q hq => .inl ?_, fun _ hq => nomatch hq⟩
    obtain rfl := Option.some.inj hq
    exact Nat.le_refl _

-- A function returns the square root of what another one returns.
def returnSqrt : List (Act Unit Unit) :=
  let main : Activation := ⟨2, 0⟩
  let g    : Activation := ⟨3, 1⟩
  let f    : Activation := ⟨4, 2⟩
  [.enter, .enter, .enter, .call (.const ⟨f, 0⟩ () 1), .call (.copyReturn (some ⟨f, 0⟩) ⟨g, 0⟩),
    .exit,
   .call (.math .sqrt ⟨g, 0⟩ () ⟨g, 1⟩ 2), .call (.copyReturn (some ⟨g, 1⟩) ⟨main, 0⟩), .exit]

-- The check of its operand passes after the return, since no key is zero but those of dead frames.
theorem not_safe_returnSqrt :
    ¬∀ (V D : Type) (A : Mpfr V D) (B : Doubles D) (c : Config V D) (r : (machine A B).Run c),
    r.Always Safe := by
  intro h
  have ⟨r⟩ := (machine (default : Mpfr Unit Unit) default).reachable_after returnSqrt rfl
  have hs := (h _ _ _ _ _ r).last
  have hq := hs.lhs ⟨⟨2, 0⟩, 0⟩ _ (List.mem_singleton_self _) rfl rfl ⟨⟨3, 1⟩, 0⟩ rfl
  exact absurd hq (by decide)

end Metadata
