import PFPSanitizer.Runtime.ShadowMemory

-- Whether the accesses to `m_lock_key_map` stay inside of the block that is mapped for it.
namespace Metadata

def maxStackSize : Nat := 20

-- In bytes: an `mpfr_t` and 12 words, one of which is shared by the opcode and the error.
def sizeofTempEntry : Nat := 32 + 12 * 8

-- The entries of the block that the first `fpsan_shadow_slice_start` of a
-- buffer maps, of type `size_t`.
def lockKeyEntries : Nat := maxStackSize * sizeofTempEntry / 8

variable {V D : Type} (A : Mpfr V D) (B : Doubles D)

section Indices

def State.locks (s : State V D) (ps : List Ptr) : List Nat :=
  ps.filterMap s.temps |>.map TempEntry.lock

-- The indices that `fpsan_handle_memcpy` reads at, from byte `i` on.
def memcpyIndices (toAddr fromAddr i : Nat) : Nat → State V D → List Nat
  | 0, _     => []
  | n + 1, s =>
    let s   := s.initShadow A (toAddr + i)
    let src := s.shadow (fromAddr + i)
    if src.isInit then
      s.keyStackTop :: memcpyIndices toAddr fromAddr (i + 1) n
        (s.setShadow (toAddr + i) <| s.copyShadow src)
    else []

-- `fpsan_mpfr_fneg` copies keys and locks.
def Call.indices : Call V D → State V D → List Nat
  | .fneg _ _, _ | .copyReturn none _, _ | .copyPhi none _, _ | .load _ _ none _, _
  | .store _ none, _                                                        => []
  | .const _ _ _, s | .copyReturn (some _) _, s | .copyPhi (some _) _, s | .store _ (some _), s
  | .storeConst _ _ _, s                                                    => [s.keyStackTop]
  | .math _ p _ _ _, s | .ldexp p _ _ _ _, s                                =>
    s.keyStackTop :: s.locks [p]
  | .compute _ p q _ _ _, s | .mathTwo _ _ p q _ _ _, s | .fma p q _ _ _ _, s  =>
    s.keyStackTop :: s.locks [p, q]
  | .load addr d (some _) _, s                                              =>
    let dest := s.shadow addr
    s.keyStackTop :: if !dest.isInit || B.ne d dest.computed || dest.tmpPtr.isNone then []
      else [dest.lock]
  | .memset _ n _ _, s                                                      =>
    List.replicate n s.keyStackTop
  | .memcpy addr source n, s                                                =>
    memcpyIndices A addr source 0 n s

-- The calls that read the key at the top, all but `fpsan_mpfr_fneg` and those without an entry.
def Call.readsTop : Call V D → State V D → Bool
  | .fneg _ _, _ | .copyReturn none _, _ | .copyPhi none _, _ | .load _ _ none _, _
  | .store _ none, _             => false
  | .memset _ n _ _, _           => 0 < n
  | .memcpy addr source n, s     => 0 < n && (s.initShadow A addr |>.shadow source).isInit
  | _, _                         => true

-- `m_key_stack_top` is a `size_t` that no function tests. Nothing keeps the calls of
-- `fpsan_func_init` and `fpsan_func_exit` balanced either: a clone with several returns leaves its
-- function a different number of times. The calls are counted, which the runtime does not do.
structure Levels (V D : Type) extends State V D where
  inits : Nat
  exits : Nat

namespace Levels

def funcInit (c : Levels V D) : Levels V D :=
  let top := (c.keyStackTop + 1) % 2 ^ 64
  let key := (c.keyCounter + 1) % 2 ^ 64
  { c with
    keyStackTop := top, keyCounter := key, lockKeyMap := Function.update c.lockKeyMap top key
    inits := c.inits + 1 }

def funcExit (c : Levels V D) : Levels V D :=
  { c with
    lockKeyMap := Function.update c.lockKeyMap c.keyStackTop 0
    keyStackTop := (c.keyStackTop + (2 ^ 64 - 1)) % 2 ^ 64
    exits := c.exits + 1 }

-- How many more functions have been entered than left.
def depth (c : Levels V D) : Int :=
  c.inits - c.exits

end Levels

-- The calls of the runtime, in any order, with those of `fpsan_trace`, `m_get_depth` and
-- `fpsan_fpcore` entry by entry.
inductive Access (V D : Type)
  | funcInit
  | funcExit
  | call (k : Call V D)
  | visit (p : Ptr)

-- The indices at which a step reads or writes.
def Access.indices : Access V D → State V D → List Nat
  | .funcInit, s  => [(s.keyStackTop + 1) % 2 ^ 64]
  | .funcExit, s  => [s.keyStackTop]
  | .call k, s    => k.indices A B s
  | .visit p, s   =>
    match s.temps p with
    | none   => []
    | some e => e.op1Lock :: if s.lockKeyMap e.op1Lock = e.op1Key then [e.op2Lock] else []

def accesses : Machine (Levels V D) (Access V D) where
  init := { shadowSliceStart A B with inits := 0, exits := 0 }
  step
    | .funcInit, c => some c.funcInit
    | .funcExit, c => some c.funcExit
    | .call k, c   => k.exec A B c.toState |>.map fun s => { c with toState := s }
    | .visit p, c  => c.temps p |>.map fun _ => c

-- The condition on a step, by the numbers of functions that have been entered and left. The slice
-- starts with the entry 1 of the block, and the top wraps below its entry 0.
def Access.Shallow : Access V D → Levels V D → Prop
  | .funcInit, c => (c.depth + 2) % (2 ^ 64 : Nat) < lockKeyEntries
  | .funcExit, c => (c.depth + 1) % (2 ^ 64 : Nat) < lockKeyEntries
  | .call k, c   => k.readsTop A c.toState → (c.depth + 1) % (2 ^ 64 : Nat) < lockKeyEntries
  | .visit _, _  => True

end Indices

-- The locks of an entry.
structure TempEntry.Below (e : TempEntry V D) (n : Nat) : Prop where
  lock    : e.lock < n
  op1Lock : e.op1Lock < n
  op2Lock : e.op2Lock < n

-- The locks of all entries are in the block.
structure State.Below (s : State V D) (n : Nat) : Prop where
  temps  : ∀ p e, s.temps p = some e → e.Below n
  memory : ∀ i, (s.memory i).lock < n

section Below

variable {A : Mpfr V D} {B : Doubles D} {s s' : State V D} {n : Nat} {e e₁ e₂ : TempEntry V D}
  {p q : Ptr} {val : V} {d : D} {o : FpOp} {i j addr : Nat}

theorem keyStackTop_initShadow : (s.initShadow A addr).keyStackTop = s.keyStackTop :=
  State.SameKeys.initShadow.keyStackTop

namespace State.Below

theorem leaf (ht : s.keyStackTop < n) : (s.leaf val d o i).Below n :=
  ⟨ht, Nat.zero_lt_of_lt ht, Nat.zero_lt_of_lt ht⟩

theorem unary (h : s.Below n) (ht : s.keyStackTop < n) (he : s.temps q = some e) :
    (s.unary p e val d o i).Below n :=
  ⟨ht, (h.temps q e he).lock, Nat.zero_lt_of_lt ht⟩

theorem binary (h : s.Below n) (ht : s.keyStackTop < n) {p' q' : Ptr} (h₁ : s.temps p' = some e₁)
    (h₂ : s.temps q' = some e₂) : (s.binary p e₁ q e₂ val d o i).Below n :=
  ⟨ht, (h.temps p' e₁ h₁).lock, (h.temps q' e₂ h₂).lock⟩

-- A copy gets the lock of the top.
theorem copy (h : s.Below n) (ht : s.keyStackTop < n) (he : s.temps q = some e)
    {key timestamp : Nat} :
    ({ e with lock := s.keyStackTop, key := key, timestamp := timestamp } : TempEntry V D).Below
      n :=
  ⟨ht, (h.temps q e he).op1Lock, (h.temps q e he).op2Lock⟩

theorem write (h : s.Below n) (he : e.Below n) : (s.write p e).Below n where
  memory := h.memory
  temps q e' hq := by
    simp only [State.write, Function.update_apply] at hq
    split at hq
    · exact Option.some.inj hq ▸ he
    · exact h.temps q e' hq

theorem record (h : s.Below n) (he : e.Below n) : (s.record p e).Below n :=
  { h.write he with }

theorem setShadow (h : s.Below n) {e : SmemEntry V D} (he : e.lock < n) :
    (s.setShadow addr e).Below n where
  temps  := h.temps
  memory j := by
    simp only [State.setShadow, Function.update_apply]
    split
    · exact he
    · exact h.memory j

theorem lock32_lt (ht : s.keyStackTop < n) : s.lock32 < n :=
  Nat.lt_of_le_of_lt (Nat.mod_le ..) ht

theorem memset (h : s.Below n) {m : Nat} (ht : 0 < m → s.keyStackTop < n) :
    (handleMemset A addr d j i m s).Below n := by
  induction m generalizing s i with
  | zero      => exact h
  | succ m ih =>
    have ht := ht (Nat.succ_pos m)
    exact ih (h.setShadow (lock32_lt ht)) fun _ => ht

theorem initShadow (h : s.Below n) : (s.initShadow A addr).Below n := by
  rw [State.initShadow]
  split
  · exact h
  · exact h.setShadow (h.memory _)

-- By induction over the bytes. The top is read for the first byte if for any.
theorem memcpy (h : s.Below n) {source m : Nat}
    (ht : 0 < m → (s.initShadow A (addr + i) |>.shadow (source + i)).isInit → s.keyStackTop < n) :
    (handleMemcpy A addr source i m s).Below n := by
  induction m generalizing s i with
  | zero      => exact h
  | succ m ih =>
    rw [handleMemcpy]
    split
    case isFalse   => exact h.initShadow
    case isTrue hi =>
      have ht : (s.initShadow A (addr + i)).keyStackTop < n :=
        keyStackTop_initShadow.symm ▸ ht (Nat.succ_pos m) hi
      exact ih (h.initShadow.setShadow (lock32_lt ht)) fun _ _ => ht

theorem load (h : s.Below n) (ht : s.keyStackTop < n)
    (hs : loadShadow A B addr d (some p) i s = some s') :
    s'.Below n := by
  simp only [loadShadow] at hs
  split at hs
  · cases hs
    exact h.record (leaf ht)
  split at hs
  · cases hs
    exact h.record (leaf ht)
  split at hs
  · obtain ⟨e', he, hs⟩ := Option.bind_eq_some_iff.mp hs
    cases hs
    exact h.write ⟨ht, (h.temps _ e' he).op1Lock, (h.temps _ e' he).op2Lock⟩
  · cases hs
    exact h.record (leaf ht)

-- The locks of a result are that of the top and those of the operands.
theorem call (h : s.Below n) {k : Call V D} (ht : k.readsTop A s → s.keyStackTop < n)
    (hs : k.exec A B s = some s') : s'.Below n := by
  cases k with
  | const p d i              => cases hs; exact h.record (leaf (ht rfl))
  | compute o p q d res i    =>
    obtain ⟨e₁, h₁, hs⟩ := Option.bind_eq_some_iff.mp hs
    obtain ⟨e₂, h₂, hs⟩ := Option.bind_eq_some_iff.mp hs
    cases hs
    exact h.record (h.binary (ht rfl) h₁ h₂)
  | math o p d res i         =>
    obtain ⟨e₁, h₁, hs⟩ := Option.bind_eq_some_iff.mp hs
    obtain ⟨f, -, hs⟩ := Option.bind_eq_some_iff.mp hs
    cases hs
    exact h.record (h.unary (ht rfl) h₁)
  | mathTwo f o p q d res i  =>
    obtain ⟨e₁, h₁, hs⟩ := Option.bind_eq_some_iff.mp hs
    obtain ⟨e₂, h₂, hs⟩ := Option.bind_eq_some_iff.mp hs
    cases hs
    exact h.record (h.binary (ht rfl) h₁ h₂)
  | fma p q r d res i        =>
    obtain ⟨e₁, h₁, hs⟩ := Option.bind_eq_some_iff.mp hs
    obtain ⟨e₂, h₂, hs⟩ := Option.bind_eq_some_iff.mp hs
    obtain ⟨e₃, -, hs⟩ := Option.bind_eq_some_iff.mp hs
    cases hs
    exact h.record (h.binary (ht rfl) h₁ h₂)
  | ldexp p m d res i        =>
    obtain ⟨e₁, h₁, hs⟩ := Option.bind_eq_some_iff.mp hs
    cases hs
    exact h.record (h.unary (ht rfl) h₁)
  | fneg p res               =>
    obtain ⟨e₁, h₁, hs⟩ := Option.bind_eq_some_iff.mp hs
    cases hs
    exact h.write ⟨(h.temps p e₁ h₁).lock, (h.temps p e₁ h₁).op1Lock, (h.temps p e₁ h₁).op2Lock⟩
  | copyReturn p dest        =>
    cases p with
    | none   => cases hs; exact h
    | some p =>
      obtain ⟨e₁, h₁, hs⟩ := Option.bind_eq_some_iff.mp hs
      cases hs
      exact h.write (h.copy (ht rfl) h₁)
  | copyPhi p dst            =>
    cases p with
    | none   => cases hs; exact h
    | some p =>
      obtain ⟨e₁, h₁, hs⟩ := Option.bind_eq_some_iff.mp hs
      cases hs
      exact h.record (h.copy (ht rfl) h₁)
  | load addr d p i          =>
    cases p with
    | none   => cases hs; exact h
    | some p => exact h.load (ht rfl) hs
  | store addr p             =>
    cases p with
    | none   => cases hs; exact h
    | some p =>
      obtain ⟨e₁, -, hs⟩ := Option.bind_eq_some_iff.mp hs
      cases hs
      exact h.setShadow (lock32_lt (ht rfl))
  | storeConst addr d i      => cases hs; exact h.setShadow (lock32_lt (ht rfl))
  | memset addr m d i        =>
    cases hs; exact h.memset fun hm => ht (by simpa [Call.readsTop] using hm)
  | memcpy addr source m     =>
    cases hs
    exact h.memcpy fun hm hi => ht (by simpa [Call.readsTop] using ⟨hm, hi⟩)

theorem locks (h : s.Below n) {ps : List Ptr} : ∀ l ∈ s.locks ps, l < n := by
  intro l hl
  obtain ⟨e, he, rfl⟩ := List.mem_map.mp hl
  obtain ⟨p, -, hp⟩ := List.mem_filterMap.mp he
  exact (h.temps p e hp).lock

end State.Below

end Below

-- The states of a run that has stayed inside of the block.
structure Inside (c : Levels V D) : Prop where
  top   : c.keyStackTop = (c.depth + 1) % (2 ^ 64 : Nat)
  below : c.toState.Below lockKeyEntries

section Inside

variable {A : Mpfr V D} {B : Doubles D} {a : Access V D} {c c' : Levels V D}

theorem Levels.depth_funcInit (c : Levels V D) : c.funcInit.depth = c.depth + 1 := by
  simp only [depth, funcInit]
  omega

theorem Levels.depth_funcExit (c : Levels V D) : c.funcExit.depth = c.depth - 1 := by
  simp only [depth, funcExit]
  omega

theorem Inside.funcInit (h : Inside c) : Inside c.funcInit where
  top   := by
    have ht := h.top
    rw [c.depth_funcInit]
    simp only [Levels.funcInit]
    omega
  below := ⟨h.below.temps, h.below.memory⟩

theorem Inside.funcExit (h : Inside c) : Inside c.funcExit where
  top   := by
    have ht := h.top
    rw [c.depth_funcExit]
    simp only [Levels.funcExit]
    omega
  below := ⟨h.below.temps, h.below.memory⟩

-- The top is in the block if it is so by the count of the functions.
theorem Inside.top_lt_iff (h : Inside c) :
    c.keyStackTop < lockKeyEntries ↔ (c.depth + 1) % (2 ^ 64 : Nat) < lockKeyEntries := by
  rw [← h.top, Int.ofNat_lt]

theorem Inside.step (h : Inside c) (hc : a.Shallow A c) (e : (accesses A B).step a c = some c') :
    Inside c' := by
  cases a with
  | funcInit => cases e; exact h.funcInit
  | funcExit => cases e; exact h.funcExit
  | visit p  =>
    obtain ⟨_, -, rfl⟩ := Option.map_eq_some_iff.mp e
    exact h
  | call k   =>
    obtain ⟨s, hs, rfl⟩ := Option.map_eq_some_iff.mp e
    have ht : s.keyStackTop = c.keyStackTop := (Call.outcome hs).sameKeys.keyStackTop
    exact ⟨ht ▸ h.top, h.below.call (fun hr => h.top_lt_iff.mpr (hc hr)) hs⟩

end Inside

-- A slice that calls a function three times whose clone is left twice reads at
-- the last index of all.
example :
    let leave : List (Access Nat Nat) := [.funcInit, .funcExit, .funcExit]
    let acts  := .funcInit :: leave ++ leave ++ leave
    ((accesses natMpfr default).after acts rfl).keyStackTop = 2 ^ 64 - 1 := by
  rfl

end Metadata
