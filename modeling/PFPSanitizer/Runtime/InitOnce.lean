import PFPSanitizer.Lib.Lifetimes
import PFPSanitizer.Runtime.ShadowMemory

-- How often the MPFR values of the shadow memory are initialised.
namespace Metadata

open Lifetimes

variable {V D : Type} (A : Mpfr V D) (B : Doubles D)

-- The calls of `mpfr_init2` and of `mpfr_set` and `mpfr_set_d` on the slots of the shadow memory
-- are the creations and uses of their values.

-- One that most functions make before they write to a slot.
def State.ensureInit (s : State V D) (addr : Nat) : List (Event Nat) :=
  ensure (s.shadow addr).isInit (getShadowaddress addr)

def State.ensureSet (s : State V D) (addr : Nat) : List (Event Nat) :=
  s.ensureInit addr ++ [.use (getShadowaddress addr)]

def mInitStoreShadowFconstEvents (addr : Nat) : List (Event Nat) :=
  [.create (getShadowaddress addr), .use (getShadowaddress addr)]

def storeShadowFconstEvents (toAddr : Nat) (s : State V D) : List (Event Nat) :=
  s.ensureInit toAddr ++ mInitStoreShadowFconstEvents toAddr

-- The loop of `fpsan_handle_memset`, from byte `i` on.
def memsetEvents (toAddr : Nat) (val : D) (instId : Nat) (i : Nat) :
    Nat → State V D → List (Event Nat)
  | 0, _     => []
  | n + 1, s =>
    s.ensureSet (toAddr + i) ++
      memsetEvents toAddr val instId (i + 1) n
        (s.setShadow (toAddr + i) <| s.constShadow A val instId)

-- The loop of `fpsan_handle_memcpy`, from byte `i` on.
def memcpyEvents (toAddr fromAddr : Nat) (i : Nat) : Nat → State V D → List (Event Nat)
  | 0, _     => []
  | n + 1, s =>
    let s'  := s.initShadow A (toAddr + i)
    let src := s'.shadow (fromAddr + i)
    s.ensureInit (toAddr + i) ++
      if src.isInit then
        .use (getShadowaddress (toAddr + i)) ::
          memcpyEvents toAddr fromAddr (i + 1) n (s'.setShadow (toAddr + i) <| s'.copyShadow src)
      else []

def Act.events : Act V D → State V D → List (Event Nat)
  | .call (.store addr (some _)), s       => s.ensureSet addr
  | .call (.storeConst addr _ _), s       => s.ensureSet addr
  | .call (.memset addr n d i), s         => memsetEvents A addr d i 0 n s
  | .call (.memcpy addr source n), s      => memcpyEvents A addr source 0 n s
  | _, _                                  => []

-- A configuration with the events of the run so far.
structure Lives (V D : Type) extends Config V D where
  events : List (Event Nat)

-- The steps that store doubles and floats.
inductive Storing (V D : Type)
  | act (a : Act V D)
  | storeFconst (toAddr : Nat) (op : D) (instId : Nat)

def Storing.isFconst : Storing V D → Bool
  | act _             => false
  | storeFconst _ _ _ => true

def lives : Machine (Lives V D) (Storing V D) where
  init := { (machine A B).init with events := [] }
  step
    | .act a, c                    =>
      exec A B a c.toConfig |>.map fun c' => { c' with events := c.events ++ a.events A c.toState }
    | .storeFconst addr d i, c     =>
      some { c with
        toState := storeShadowFconst A addr d i c.toState
        events  := c.events ++ storeShadowFconstEvents addr c.toState }

-- The value of every slot is initialised at most once and before it is set, so there are
-- no more of them than slots.
structure InitOnce (events : List (Event Nat)) : Prop where
  once    : (created events).Nodup
  before  : ∀ l₁ slot l₂, events = l₁ ++ .use slot :: l₂ → slot ∈ created l₁
  bounded : (created events).length ≤ hashTableEntries

section

variable {A : Mpfr V D} {B : Doubles D} {s : State V D} {log : List (Event Nat)} {addr : Nat}

theorem getShadowaddress_lt (addr : Nat) : getShadowaddress addr < hashTableEntries :=
  Nat.mod_lt _ (by decide)

def State.marks (s : State V D) (slot : Nat) : Bool :=
  (s.memory slot).isInit

theorem marks_setShadow {e : SmemEntry V D} (he : e.isInit) :
    (s.setShadow addr e).marks = Function.update s.marks (getShadowaddress addr) true := by
  funext slot
  simp only [State.marks, State.setShadow, Function.update_apply]
  split
  · exact he
  · rfl

theorem update_marks (hs : (s.shadow addr).isInit) :
    Function.update s.marks (getShadowaddress addr) true = s.marks := by
  have hf : s.marks (getShadowaddress addr) = true := hs
  rw [← hf, Function.update_eq_self]

theorem marks_initShadow :
    (s.initShadow A addr).marks = Function.update s.marks (getShadowaddress addr) true := by
  rw [State.initShadow]
  split
  case isFalse   => exact marks_setShadow rfl
  case isTrue hs => exact (update_marks hs).symm

-- The slots that are marked as initialised are those that `mpfr_init2` has been called on.
structure Inited (marks : Nat → Bool) (log : List (Event Nat)) : Prop extends Tracks marks log where
  lt : ∀ slot, marks slot → slot < hashTableEntries

theorem lt_update {marks : Nat → Bool} (h : ∀ slot, marks slot → slot < hashTableEntries) :
    ∀ slot, Function.update marks (getShadowaddress addr) true slot → slot < hashTableEntries := by
  intro slot hs
  rw [Function.update_apply] at hs
  split at hs
  case isTrue he => exact he ▸ getShadowaddress_lt addr
  case isFalse   => exact h slot hs

theorem Inited.ensureInit (h : Inited s.marks log) :
    Inited (s.initShadow A addr).marks (log ++ s.ensureInit addr) := by
  rw [marks_initShadow]
  exact { h.toTracks.ensure with lt := lt_update h.lt }

theorem Inited.ensureSet (h : Inited s.marks log) {e : SmemEntry V D} (he : e.isInit) :
    Inited (s.setShadow addr e).marks (log ++ s.ensureSet addr) := by
  rw [marks_setShadow he]
  exact { h.toTracks.ensure_use with lt := lt_update h.lt }

-- A slot that is initialised is written.
theorem Inited.set (h : Inited s.marks log) (hs : (s.shadow addr).isInit) {e : SmemEntry V D}
    (he : e.isInit) :
    Inited (s.setShadow addr e).marks (log ++ [.use (getShadowaddress addr)]) := by
  rw [marks_setShadow he, update_marks hs]
  exact { h.toTracks.use hs with lt := h.lt }

theorem Inited.memset (h : Inited s.marks log) {d : D} {instId i n : Nat} :
    Inited (handleMemset A addr d instId i n s).marks
      (log ++ memsetEvents A addr d instId i n s) := by
  induction n generalizing s log i with
  | zero      => rwa [handleMemset, memsetEvents, List.append_nil]
  | succ n ih =>
    rw [handleMemset, memsetEvents, ← List.append_assoc]
    exact ih (h.ensureSet rfl)

theorem Inited.memcpy (h : Inited s.marks log) {toAddr fromAddr i n : Nat} :
    Inited (handleMemcpy A toAddr fromAddr i n s).marks
      (log ++ memcpyEvents A toAddr fromAddr i n s) := by
  induction n generalizing s log i with
  | zero      => rwa [handleMemcpy, memcpyEvents, List.append_nil]
  | succ n ih =>
    have hi : Inited (s.initShadow A (toAddr + i)).marks (log ++ s.ensureInit (toAddr + i)) :=
      h.ensureInit
    simp only [handleMemcpy, memcpyEvents]
    split
    case isFalse => rwa [List.append_nil]
    case isTrue  =>
      rw [List.append_cons, ← List.append_assoc, ← List.append_assoc]
      exact ih (hi.set (isInit_initShadow_self _) rfl)

theorem Inited.initOnce {marks : Nat → Bool} (h : Inited marks log) : InitOnce log where
  once    := h.once
  before  := h.before
  bounded := by
    have hl : (created log).length ≤ (List.range hashTableEntries).length :=
      h.length_created_le fun slot hs =>
      List.mem_range.mpr (h.lt slot ((h.flags slot).mpr hs))
    rwa [List.length_range] at hl

end

section Lives

variable {A : Mpfr V D} {B : Doubles D} {a : Storing V D} {c c' : Lives V D}

theorem inited_act {a : Act V D} (h : Inited c.marks c.events) {c₁ : Config V D}
    (e : exec A B a c.toConfig = some c₁) :
    Inited c₁.marks (c.events ++ a.events A c.toState) := by
  obtain ⟨rfl, rfl⟩ | ⟨rfl, -, rfl⟩ | ⟨k, s, rfl, -, hs, rfl⟩ := exec_cases e
  case inl     => exact (List.append_nil c.events).symm ▸ h
  case inr.inl => exact (List.append_nil c.events).symm ▸ h
  case inr.inr =>
    cases Call.outcome hs with
    | none hk | write hk | record hk =>
      have he : (Act.call k).events A c.toState = [] := by cases k <;> first | rfl | cases hk
      rwa [he, List.append_nil]
    | storeNone      => exact (List.append_nil c.events).symm ▸ h
    | store hp       => exact h.ensureSet rfl
    | storeConst     => exact h.ensureSet rfl
    | memset         => exact h.memset
    | memcpy         => exact h.memcpy

theorem inited_step (h : Inited c.marks c.events) (hc : ¬a.isFconst)
    (e : (lives A B).step a c = some c') :
    Inited c'.marks c'.events := by
  cases a with
  | act a                  =>
    obtain ⟨c₁, he, rfl⟩ := Option.map_eq_some_iff.mp e
    exact inited_act h he
  | storeFconst addr d i   => exact absurd rfl hc

-- The slot has been initialised when `m_init_store_shadow_fconst` initialises it.
theorem not_initOnce_step (h : Inited c.marks c.events) (hc : a.isFconst)
    (e : (lives A B).step a c = some c') :
    ¬InitOnce c'.events := by
  cases a with
  | act a                  => cases hc
  | storeFconst addr d i   =>
    cases e
    intro hi
    have ho := hi.once
    have hm : getShadowaddress addr ∈ created (c.events ++ c.ensureInit addr) :=
      mem_created_ensure (h.flags (getShadowaddress addr))
    simp only [storeShadowFconstEvents, mInitStoreShadowFconstEvents, ← List.append_assoc] at ho
    exact not_once hm ho

end Lives

-- The values of the slots are initialised once and before they are set exactly if no
-- float is stored as a constant.
theorem always_initOnce_iff (A : Mpfr V D) (B : Doubles D) {c : Lives V D} (r : (lives A B).Run c) :
    (r.Always fun c => InitOnce c.events) ↔ r.Each fun a _ => ¬a.isFconst :=
  Machine.Run.always_iff_each (I := fun c => Inited c.marks c.events)
    { Tracks.nil with lt := fun _ h => by cases h }
    (fun _ h => h.initOnce) (fun _ h hc e => inited_step h hc e)
    (fun _ h hc e => not_initOnce_step h (not_not.mp hc) e) r

-- The first store of a float.
theorem not_always_initOnce :
    ¬∀ (V D : Type) (A : Mpfr V D) (B : Doubles D) (c : Lives V D) (r : (lives A B).Run c),
    r.Always fun c => InitOnce c.events := by
  intro h
  let r := Machine.Run.init (M := lives natMpfr default) |>.step (.act .enter) rfl
    |>.step (.storeFconst 32 5 1) rfl
  exact absurd (h _ _ _ _ _ r).last.once (by decide)

end Metadata
