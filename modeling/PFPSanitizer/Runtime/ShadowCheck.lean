import PFPSanitizer.Runtime.LockKey

-- Whether the check of a load from the shadow memory tells the pointers of live activations from
-- those of activations that have ended.
namespace Metadata

-- A configuration with the activation whose store has set the pointer of each
-- slot of the shadow memory.
structure Tracking (V D : Type) extends Config V D where
  storer : Nat → Option Activation

section Storer

variable {V D : Type} (A : Mpfr V D)

-- The storers after the loop of `fpsan_handle_memcpy`, from byte `i` on. A pointer that is
-- copied has been set by the activation `a` that copies it or, with `inherit`, by the one
-- that stored it at the source.
def copyStorer (inherit : Bool) (a : Option Activation) (toAddr fromAddr i : Nat) :
    Nat → State V D → (Nat → Option Activation) → Nat → Option Activation
  | 0, _, o     => o
  | n + 1, s, o =>
    let s   := s.initShadow A (toAddr + i)
    let src := s.shadow (fromAddr + i)
    if src.isInit then
      copyStorer inherit a toAddr fromAddr (i + 1) n
        (s.setShadow (toAddr + i) <| s.copyShadow src) <|
        Function.update o (getShadowaddress (toAddr + i))
          (if inherit then o (getShadowaddress (fromAddr + i)) else a)
    else o

def Call.storer (inherit : Bool) (k : Call V D) (c : Tracking V D) : Nat → Option Activation :=
  match k with
  | store addr (some _)       => Function.update c.storer (getShadowaddress addr) c.frames.head?
  | memcpy toAddr fromAddr n  =>
    copyStorer A inherit c.frames.head? toAddr fromAddr 0 n c.toState c.storer
  | _                         => c.storer

variable (B : Doubles D)

-- All calls are made by activations.
def track (inherit : Bool) : Act V D → Tracking V D → Option (Tracking V D)
  | .call k, c =>
    if c.frames.isEmpty then none
    else exec A B (.call k) c.toConfig |>.map fun c' => { c' with storer := k.storer A inherit c }
  | a, c       => exec A B a c.toConfig |>.map fun c' => { c' with storer := c.storer }

def tracking (inherit : Bool) : Machine (Tracking V D) (Act V D) where
  init := { (machine A B).init with storer := fun _ => none }
  step := track A B inherit

-- What a step can do.
theorem track_cases {A : Mpfr V D} {B : Doubles D} {inherit : Bool} {a : Act V D}
    {c c' : Tracking V D} (e : track A B inherit a c = some c') :
    (a = .enter ∧ c' = { c.enter with storer := c.storer }) ∨
    (a = .exit ∧ c.frames ≠ [] ∧ c' = { c.exit with storer := c.storer }) ∨
    ∃ k s, a = .call k ∧ c.frames ≠ [] ∧ k.exec A B c.toState = some s ∧
      c' = { c with toState := s, storer := k.storer A inherit c } := by
  cases a with
  | enter =>
    obtain rfl := Option.some.inj e
    exact .inl ⟨rfl, rfl⟩
  | exit =>
    simp only [track] at e
    obtain ⟨c₁, hc, rfl⟩ := Option.map_eq_some_iff.mp e
    obtain ⟨ha, -⟩ | ⟨-, hne, rfl⟩ | ⟨k, s, ha, -⟩ := exec_cases hc
    · cases ha
    · exact .inr (.inl ⟨rfl, hne, rfl⟩)
    · cases ha
  | call k =>
    rw [track] at e
    split at e
    case isTrue      => cases e
    case isFalse hne =>
      obtain ⟨c₁, hc, rfl⟩ := Option.map_eq_some_iff.mp e
      obtain ⟨ha, -⟩ | ⟨ha, -⟩ | ⟨k', s, ha, -, hs, rfl⟩ := exec_cases hc
      · cases ha
      · cases ha
      · cases ha
        exact .inr (.inr ⟨k, s, rfl, by simpa using hne, hs, rfl⟩)

-- The check of `fpsan_load_shadow_f` and `fpsan_load_shadow_d`.
def State.Passes (s : State V D) (i : Nat) : Prop :=
  (s.memory i).tmpPtr.isSome ∧ s.lockKeyMap (s.memory i).lock = (s.memory i).key

-- The check passes for pointers of live activations only.
def Tracking.Sound (c : Tracking V D) : Prop :=
  ∀ i, c.Passes i → ∃ a ∈ c.storer i, a ∈ c.frames

-- The lock and the key of the activation on top survive the truncation to 32 bits: the key does not
-- become zero, and it is no key of a level below.
def State.Kept (s : State V D) : Prop :=
  s.key32 ≠ 0 ∧ (s.lockKeyMap s.lock32 = s.key32 → s.keyStackTop ≤ s.lock32)

-- The same for every pointer that is copied. With `inherit` its storer is live.
def CopyKept (inherit : Bool) (frames : List Activation) (a : Option Activation)
    (toAddr fromAddr i : Nat) :
    Nat → State V D → (Nat → Option Activation) → Prop
  | 0, _, _     => True
  | n + 1, s, o =>
    let s   := s.initShadow A (toAddr + i)
    let src := s.shadow (fromAddr + i)
    src.isInit →
      (src.tmpPtr.isSome →
        s.Kept ∧ (inherit → ∃ b ∈ o (getShadowaddress (fromAddr + i)), b ∈ frames)) ∧
      CopyKept inherit frames a toAddr fromAddr (i + 1) n
        (s.setShadow (toAddr + i) <| s.copyShadow src)
        (Function.update o (getShadowaddress (toAddr + i))
          (if inherit then o (getShadowaddress (fromAddr + i)) else a))

-- The condition on a step.
def Act.Kept (inherit : Bool) : Act V D → Tracking V D → Prop
  | .enter, c                              => c.keyCounter + 1 < 2 ^ 64
  | .call (.store _ (some _)), c           => c.toState.Kept
  | .call (.memcpy toAddr fromAddr n), c   =>
    CopyKept A inherit c.frames c.frames.head? toAddr fromAddr 0 n c.toState c.storer
  | _, _                                   => True

end Storer

section Sound

variable {V D : Type} {A : Mpfr V D} {B : Doubles D}

-- An entry whose check protects its storer.
def Protected (c : Config V D) (e : SmemEntry V D) (o : Option Activation) : Prop :=
  e.key ≤ c.keyCounter ∧ (e.tmpPtr.isSome → ∃ a ∈ o, Tracked c e.lock e.key ⟨a, 0⟩)

structure Checked (c : Tracking V D) : Prop where
  keys   : Keys c.toConfig
  shadow : ∀ i, Protected c.toConfig (c.memory i) (c.storer i)

theorem Checked.sound {c : Tracking V D} (h : Checked c) : c.Sound := by
  intro i hp
  obtain ⟨a, ha, ht⟩ := (h.shadow i).right hp.left
  exact ⟨a, ha, (ht.right hp.right).left⟩

variable {c : Config V D} {o : Nat → Option Activation}

-- A slot is set with its storer.
theorem protected_setShadow (h : ∀ i, Protected c (c.memory i) (o i)) (addr : Nat)
    {e : SmemEntry V D} {a : Option Activation} (he : Protected c e a) (i : Nat) :
    Protected { c with toState := c.setShadow addr e } ((c.setShadow addr e).memory i)
      (Function.update o (getShadowaddress addr) a i) := by
  show Protected c (Function.update c.memory (getShadowaddress addr) e i)
    (Function.update o (getShadowaddress addr) a i)
  by_cases hi : i = getShadowaddress addr
  case pos => subst hi; rw [Function.update_self, Function.update_self]; exact he
  case neg => rw [Function.update_of_ne hi, Function.update_of_ne hi]; exact h i

-- A slot is set, and its storer stays.
theorem protected_setShadow_self (h : ∀ i, Protected c (c.memory i) (o i)) (addr : Nat)
    {e : SmemEntry V D} (he : Protected c e (o (getShadowaddress addr))) (i : Nat) :
    Protected { c with toState := c.setShadow addr e } ((c.setShadow addr e).memory i) (o i) := by
  have hs := protected_setShadow h addr he i
  rwa [Function.update_eq_self] at hs

theorem protected_const (hk : Keys c) {d : D} {i : Nat} {a : Option Activation} :
    Protected c (c.constShadow A d i) a :=
  ⟨hk.key32_le, fun hs => by simp [State.constShadow] at hs⟩

theorem protected_memset (hk : Keys c) (h : ∀ i, Protected c (c.memory i) (o i)) {addr : Nat}
    {d : D} {instId i n : Nat} (j : Nat) :
    Protected { c with toState := handleMemset A addr d instId i n c.toState }
      ((handleMemset A addr d instId i n c.toState).memory j) (o j) := by
  induction n generalizing c i with
  | zero      => exact h j
  | succ n ih =>
    have hs :=
      protected_setShadow_self h (addr + i) (protected_const (A := A) (d := d) (i := instId) hk)
    exact ih (c := { c with toState := c.setShadow (addr + i) (c.constShadow A d instId) })
      (hk.of_sameKeys .setShadow) hs

theorem protected_initShadow (h : ∀ i, Protected c (c.memory i) (o i)) (addr j : Nat) :
    Protected { c with toState := c.initShadow A addr } ((c.initShadow A addr).memory j) (o j) := by
  rw [State.initShadow]
  split
  · exact h j
  · have hs := h (getShadowaddress addr)
    have he : Protected c { c.shadow addr with isInit := true,
                                                 val := A.nan } (o (getShadowaddress addr)) :=
                                               ⟨hs.left, hs.right⟩
    exact protected_setShadow_self h addr he j

-- The storer of a pointer is live, and the lock is not below it.
theorem State.Kept.protected (hk : Keys c) (h : c.toState.Kept) {e : SmemEntry V D}
    (hl : e.lock = c.lock32) (he : e.key = c.key32) {a : Activation} (ha : a ∈ c.frames) :
    Protected c e (some a) := by
  refine ⟨he ▸ hk.key32_le, fun _ => ⟨a, rfl, he ▸ h.left, fun hp => ⟨ha, ?_⟩⟩⟩
  rw [hl, he] at hp
  exact hl ▸ Nat.le_trans (hk.stack.level_le ha) (h.right hp)

-- Induction over the bytes, with the condition at each of them.
theorem protected_memcpy (hk : Keys c) (h : ∀ i, Protected c (c.memory i) (o i)) {inherit : Bool}
    {a : Activation} (ha : a ∈ c.frames) {toAddr fromAddr i n : Nat}
    (hg : CopyKept A inherit c.frames (some a) toAddr fromAddr i n c.toState o) (j : Nat) :
    Protected { c with toState := handleMemcpy A toAddr fromAddr i n c.toState }
      ((handleMemcpy A toAddr fromAddr i n c.toState).memory j)
      (copyStorer A inherit (some a) toAddr fromAddr i n c.toState o j) := by
  induction n generalizing c i o with
  | zero      => exact h j
  | succ n ih =>
    have hi := protected_initShadow (A := A) h (toAddr + i)
    have hki : Keys { c with toState := c.initShadow A (toAddr + i) } := hk.of_sameKeys .initShadow
    rw [handleMemcpy, copyStorer]
    cases hs : ((c.initShadow A (toAddr + i)).shadow (fromAddr + i)).isInit
    case false => simpa [hs] using hi j
    case true  =>
      simp only [if_true]
      obtain ⟨hc, hg⟩ := hg hs
      refine ih (c := { c with toState := (c.initShadow A (toAddr + i)).setShadow (toAddr + i) _ })
        (hki.of_sameKeys .setShadow)
          (protected_setShadow hi (toAddr + i) ⟨hki.key32_le, fun hp => ?_⟩) ha hg
      obtain ⟨hkept, hb⟩ := hc hp
      cases inherit
      case false => exact (hkept.protected hki rfl rfl ha).right hp
      case true  =>
        obtain ⟨b, hb, hm⟩ := hb rfl
        rw [if_pos rfl, Option.mem_def.mp hb]
        exact (hkept.protected hki rfl rfl hm).right hp

theorem Checked.call {c : Tracking V D} (h : Checked c) {inherit : Bool} {k : Call V D}
    {s : State V D} (hne : c.frames ≠ []) (hg : (Act.call k).Kept A inherit c)
    (e : k.exec A B c.toState = some s) :
    Checked { c with toState := s, storer := k.storer A inherit c } := by
  have ho := Call.outcome e
  obtain ⟨a, ha⟩ : ∃ a, c.frames.head? = some a := by
    cases hf : c.frames with
    | nil      => exact absurd hf hne
    | cons a l => exact ⟨a, rfl⟩
  have hm := List.mem_of_head? ha
  refine ⟨h.keys.of_sameKeys ho.sameKeys, fun i => ?_⟩
  cases ho with
  | none hk | write hk | record hk =>
    have hs : k.storer A inherit c = c.storer := by cases k <;> first | rfl | cases hk
    simp only [hs]
    exact h.shadow i
  | storeNone  => exact h.shadow i
  | store he   =>
    simp only [Call.storer, ha]
    exact protected_setShadow h.shadow _ (State.Kept.protected h.keys hg rfl rfl hm) i
  | storeConst => exact protected_setShadow_self h.shadow _ (protected_const h.keys) i
  | memset     => exact protected_memset h.keys h.shadow i
  | memcpy     =>
    simp only [Call.storer, ha]
    refine protected_memcpy h.keys h.shadow hm ?_ i
    simpa only [Act.Kept, ha] using hg

theorem checked_step {inherit : Bool} {a : Act V D} {c c' : Tracking V D} (h : Checked c)
    (hg : a.Kept A inherit c) (e : track A B inherit a c = some c') : Checked c' := by
  obtain ⟨rfl, rfl⟩ | ⟨rfl, hne, rfl⟩ | ⟨k, s, rfl, hne, hs, rfl⟩ := track_cases e
  case inl =>
    refine ⟨h.keys.enter hg, fun i => ?_⟩
    obtain ⟨hk, hp⟩ := h.shadow i
    refine ⟨?_, fun hs => ?_⟩
    · rw [keyCounter_enter hg]
      exact Nat.le_succ_of_le hk
    · obtain ⟨b, hb, ht⟩ := hp hs
      exact ⟨b, hb, ht.enter hg hk⟩
  case inr.inl =>
    refine ⟨h.keys.exit hne, fun i => ?_⟩
    obtain ⟨hk, hp⟩ := h.shadow i
    refine ⟨hk, fun hs => ?_⟩
    obtain ⟨b, hb, ht⟩ := hp hs
    exact ⟨b, hb, h.keys.tracked_exit ht⟩
  case inr.inr => exact h.call hne hg hs

theorem checked_init {inherit : Bool} : Checked (tracking A B inherit).init where
  keys   := inv_init.keys
  shadow := fun _ => ⟨Nat.zero_le _, fun hp => by cases hp⟩

end Sound

-- In a run that keeps all locks and keys, the check of every load passes only while the activation
-- that has stored the pointer is live.
theorem sound_of_kept {V D : Type} {A : Mpfr V D} {B : Doubles D} {inherit : Bool}
    {c : Tracking V D} (r : (tracking A B inherit).Run c) (h : r.Each (Act.Kept A inherit)) :
    r.Always Tracking.Sound :=
  Machine.Run.Each.invariant checked_init (fun _ hi hg e => checked_step hi hg e) h
    |>.mono fun _ => Checked.sound

-- A function stores a constant.
theorem sound_of_kept_store :
    ∃ c, ∃ r : (tracking (default : Mpfr Unit Unit) default true).Run c,
    (c.memory 0).tmpPtr.isSome ∧ r.Always Tracking.Sound := by
  let r := Machine.Run.init (M := tracking (default : Mpfr Unit Unit) default true)
    |>.step .enter rfl |>.step (.call (.const ⟨⟨2, 0⟩, 0⟩ () 7)) rfl
    |>.step (.call (.store 0 (some ⟨⟨2, 0⟩, 0⟩))) rfl |>.step .exit rfl
  refine ⟨_, r, rfl, sound_of_kept r ⟨⟨⟨⟨trivial, ?_⟩, trivial⟩, ?_⟩, trivial⟩⟩
  case refine_1 => exact (by decide : 1 + 1 < 2 ^ 64)
  case refine_2 => exact ⟨(by decide : 2 % 2 ^ 32 ≠ 0), fun _ => (by decide : 2 ≤ 2 % 2 ^ 32)⟩

-- As long as keys have 32 bits, none is lost.
section Counter

variable {V D : Type} {A : Mpfr V D} {B : Doubles D}

structure Live (c : Config V D) : Prop where
  keys : Keys c
  key  : ∀ l, 0 < l → l ≤ c.keyStackTop → c.lockKeyMap l ≠ 0
  top  : c.keyStackTop ≤ c.keyCounter

theorem Live.kept {c : Config V D} (h : Live c) (hk : c.keyCounter < 2 ^ 32) : c.toState.Kept := by
  have hl : c.lock32 = c.keyStackTop := Nat.mod_eq_of_lt (Nat.lt_of_le_of_lt h.top hk)
  have hm : c.key32 = c.topKey := Nat.mod_eq_of_lt (Nat.lt_of_le_of_lt (h.keys.bound _) hk)
  exact ⟨hm ▸ h.key _ h.keys.stack.pos (Nat.le_refl _), fun _ => Nat.le_of_eq hl.symm⟩

theorem State.Kept.of_sameKeys {s s' : State V D} (h : s.Kept) (e : s.SameKeys s') : s'.Kept := by
  simpa only [State.Kept, State.key32, State.lock32, State.topKey, e.lockKeyMap, e.keyStackTop]
    using h

theorem State.Kept.copyKept {s : State V D} (h : s.Kept) {frames : List Activation}
    {a : Option Activation} {toAddr fromAddr i n : Nat} {o : Nat → Option Activation} :
    CopyKept A false frames a toAddr fromAddr i n s o := by
  induction n generalizing s i o with
  | zero      => trivial
  | succ n ih =>
    have hi : (s.initShadow A (toAddr + i)).Kept := h.of_sameKeys .initShadow
    exact fun _ => ⟨fun _ => ⟨hi, fun hf => by cases hf⟩, ih (hi.of_sameKeys .setShadow)⟩

theorem Live.enter {c : Config V D} (h : Live c) (hk : c.keyCounter < 2 ^ 32) : Live c.enter where
  keys := h.keys.enter (by omega)
  key l h₀ hl := by
    rw [lockKeyMap_enter (by omega)]
    by_cases ht : l = c.keyStackTop + 1
    case pos => simp [ht]
    case neg =>
      have hl : l ≤ c.keyStackTop + 1 := hl
      rw [Function.update_of_ne ht]
      exact h.key l h₀ (by omega)
  top  := by
    rw [keyCounter_enter (by omega)]
    exact Nat.succ_le_succ h.top

theorem Live.exit {c : Config V D} (h : Live c) (hne : c.frames ≠ []) : Live c.exit where
  keys := h.keys.exit hne
  key l h₀ hl := by
    have hl : l ≤ c.keyStackTop - 1 := hl
    show Function.update c.lockKeyMap c.keyStackTop 0 l ≠ 0
    rw [Function.update_of_ne (by omega)]
    exact h.key l h₀ (by omega)
  top  := Nat.le_trans (Nat.sub_le _ _) h.top

theorem live_step {inherit : Bool} {a : Act V D} {c c' : Tracking V D} (h : Live c.toConfig)
    (hk : c.keyCounter < 2 ^ 32) (e : track A B inherit a c = some c') : Live c'.toConfig := by
  obtain ⟨rfl, rfl⟩ | ⟨rfl, hne, rfl⟩ | ⟨k, s, rfl, -, hs, rfl⟩ := track_cases e
  · exact h.enter hk
  · exact h.exit hne
  · have hs := (Call.outcome hs).sameKeys
    refine ⟨h.keys.of_sameKeys hs, fun l h₀ hl => ?_, ?_⟩
    · show s.lockKeyMap l ≠ 0
      rw [hs.lockKeyMap]
      exact h.key l h₀ (hs.keyStackTop ▸ hl)
    · show s.keyStackTop ≤ s.keyCounter
      rw [hs.keyStackTop, hs.keyCounter]
      exact h.top

theorem sound_of_keyCounter_lt {c : Tracking V D} (r : (tracking A B false).Run c)
    (h : r.Always fun c => c.keyCounter < 2 ^ 32) : r.Always Tracking.Sound := by
  have h₀ : Live (tracking A B false).init.toConfig := by
    refine ⟨inv_init.keys, fun l h₀ hl => ?_, Nat.le_refl _⟩
    obtain rfl : l = 1 := Nat.le_antisymm hl h₀
    show Function.update (fun _ => 0) 1 1 1 ≠ 0
    simp
  have hl : r.Always fun c => Live c.toConfig :=
    Machine.Run.Each.invariant (I := fun c : Tracking V D => Live c.toConfig) (C := fun _ c =>
      c.keyCounter < 2 ^ 32) h₀
      (fun _ hi hk e => live_step hi hk e) (h.each fun _ _ hk => hk)
  refine sound_of_kept r ((hl.and h).each fun a c hc => ?_)
  cases a with
  | enter  => exact Nat.lt_of_le_of_lt hc.right (by decide)
  | exit   => trivial
  | call k =>
    have hk := hc.left.kept hc.right
    cases k with
    | store addr p =>
      cases p with
      | none   => trivial
      | some p => exact hk
    | memcpy => exact hk.copyKept
    | _      => trivial

end Counter

section Wrap

variable {inherit : Bool}

-- Functions are entered and left one after the other.
theorem exists_keyCounter (inherit : Bool) (n : Nat) (h : n + 2 < 2 ^ 64) :
    ∃ c, (tracking (default : Mpfr Unit Unit) default inherit).Reachable c ∧
      c.frames = [] ∧ c.keyStackTop = 1 ∧ c.keyCounter = n + 1 ∧ c.next = n := by
  induction n with
  | zero      => exact ⟨_, ⟨.init⟩, rfl, rfl, rfl, rfl⟩
  | succ n ih =>
    obtain ⟨c, hr, hf, ht, hk, hn⟩ := ih (by omega)
    refine ⟨_, (hr.step (p := .enter) rfl).step (p := .exit) rfl, ?_, ?_, ?_, ?_⟩
    · exact hf
    · show c.keyStackTop + 1 - 1 = 1
      rw [ht]
    · show (c.keyCounter + 1) % 2 ^ 64 = n + 1 + 1
      rw [hk, Nat.mod_eq_of_lt (by omega)]
    · show c.next + 1 = n + 1
      rw [hn]

theorem track_call {V D : Type} {A : Mpfr V D} {B : Doubles D} {c : Tracking V D} {k : Call V D}
    {s : State V D} (hne : c.frames ≠ []) (hf : k.Fits c.frames)
    (e : k.exec A B c.toState = some s) :
    (tracking A B inherit).step (.call k) c =
    some { toState := s, frames := c.frames, next := c.next, storer := k.storer A inherit c } := by
  show track A B inherit (.call k) c = _
  rw [track, if_neg (by simpa using hne), exec, if_pos hf, e]
  rfl

theorem exec_store {V D : Type} {A : Mpfr V D} {B : Doubles D} {s : State V D} {p : Ptr}
    {e : TempEntry V D} {addr : Nat} (h : s.temps p = some e) :
    (Call.store addr (some p)).exec A B s = some (s.setShadow addr
      { val := e.val, computed := e.computed, instId := e.instId, opcode := e.opcode,
        isInit := true,
        lock := s.lock32, key := s.key32, tmpPtr := some p }) := by
  simp [Call.exec, storeShadow, h]

-- A function is entered, stores a constant and is left.
theorem exists_stored {c : Tracking Unit Unit}
    (h : (tracking (default : Mpfr Unit Unit) default inherit).Reachable c) :
    ∃ c', (tracking (default : Mpfr Unit Unit) default inherit).Reachable c' ∧
    c'.frames = c.frames ∧
      c'.lockKeyMap = Function.update c.enter.lockKeyMap (c.keyStackTop + 1) 0 ∧
      (c'.memory 0).tmpPtr.isSome ∧ (c'.memory 0).lock = c.enter.lock32 ∧
      (c'.memory 0).key = c.enter.key32 ∧
      c'.storer 0 = some ⟨c.keyStackTop + 1, c.next⟩ := by
  let p : Ptr := ⟨⟨c.keyStackTop + 1, c.next⟩, 0⟩
  let c₁ : Tracking Unit Unit := { c.enter with storer := c.storer }
  have h₁ : (tracking (default : Mpfr Unit Unit) default inherit).Reachable c₁ :=
    h.step (p := .enter) rfl
  have hf : c₁.frames = p.owner :: c.frames := rfl
  have hne : c₁.frames ≠ [] := by simp [hf]
  have hc : (Call.const p () 0 : Call Unit Unit).Fits c₁.frames := by
    rw [hf]
    simp [Call.Fits, Call.operands, Call.result, Call.returned]
  have hs : (Call.store 0 (some p) : Call Unit Unit).Fits c₁.frames := by
    rw [hf]
    simp [Call.Fits, Call.operands, Call.result, Call.returned]
  let c₂ : Tracking Unit Unit := { c₁ with toState := storeTempmetaConst default p () 0 c₁.toState }
  have h₂ : (tracking (default : Mpfr Unit Unit) default inherit).Reachable c₂ :=
    h₁.step (p := .call (.const p () 0)) (track_call hne hc rfl)
  have ht : c₂.temps p = some _ := Function.update_self ..
  have h₃ := h₂.step (p := .call (.store 0 (some p))) (track_call (c := c₂) hne hs (exec_store ht))
  have h₄ := h₃.step (p := .exit) rfl
  exact ⟨_, h₄, rfl, rfl, rfl, rfl, rfl, rfl⟩

-- The key of a store is zero after 2 ^ 32 of them, as is that of the level once it has been left.
theorem not_sound_of_keyCounter :
    ¬∃ inherit : Bool,
    ∀ (V D : Type) (A : Mpfr V D) (B : Doubles D) (c : Tracking V D)
      (r : (tracking A B inherit).Run c),
      r.Always Tracking.Sound := by
  rintro ⟨inherit, h⟩
  obtain ⟨c, hr, hf, ht, hk, -⟩ := exists_keyCounter inherit (2 ^ 32 - 2) (by decide)
  obtain ⟨c', hr', hf', hm, hp, hlock, hkey, -⟩ := exists_stored hr
  obtain ⟨r⟩ := hr'
  have hl : c.enter.lock32 = 2 := by
    show (c.keyStackTop + 1) % 2 ^ 32 = 2
    rw [ht]
    rfl
  have hz : c.enter.key32 = 0 := by
    show Function.update c.lockKeyMap (c.keyStackTop + 1) ((c.keyCounter + 1) % 2 ^ 64)
      (c.keyStackTop + 1) % 2 ^ 32 = 0
    rw [Function.update_self, hk]
    rfl
  obtain ⟨a, -, ha⟩ :=
    (h _ _ _ _ _ r).last 0 ⟨hp, by rw [hm, hlock, hkey, hl, hz, ht, Function.update_self]⟩
  rw [hf', hf] at ha
  exact absurd ha List.not_mem_nil

end Wrap

end Metadata
