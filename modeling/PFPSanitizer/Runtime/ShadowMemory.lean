import PFPSanitizer.Runtime.RoundTrip

-- What `fpsan_handle_memcpy` copies, and what the slots of the shadow memory hold that
-- are marked as initialised.
namespace Metadata

variable {V D : Type} {A : Mpfr V D} {s : State V D}

@[simp]
theorem shadow_setShadow_self (addr : Nat) (e : SmemEntry V D) :
    (s.setShadow addr e).shadow addr = e :=
  Function.update_self ..

theorem shadow_setShadow_of_eq {a addr : Nat} (h : getShadowaddress a = getShadowaddress addr)
    (e : SmemEntry V D) :
    (s.setShadow addr e).shadow a = e := by
  simp [State.shadow, State.setShadow, h]

theorem shadow_setShadow_of_ne {a addr : Nat} (h : getShadowaddress a ≠ getShadowaddress addr)
    (e : SmemEntry V D) :
    (s.setShadow addr e).shadow a = s.shadow a :=
  Function.update_of_ne h ..

theorem initShadow_of_isInit {addr : Nat} (h : (s.shadow addr).isInit) : s.initShadow A addr = s :=
  if_pos h

theorem shadow_initShadow_of_ne {a addr : Nat} (h : getShadowaddress a ≠ getShadowaddress addr) :
    (s.initShadow A addr).shadow a = s.shadow a := by
  rw [State.initShadow]
  split
  · rfl
  · exact shadow_setShadow_of_ne h _

theorem isInit_initShadow_self (addr : Nat) : ((s.initShadow A addr).shadow addr).isInit := by
  rw [State.initShadow]
  split
  case isTrue h => exact h
  case isFalse  => simp

section Memcpy

variable {toAddr fromAddr n i k : Nat}

-- Two ranges of `n` bytes from addresses that are multiples of 4. Only bytes of
-- the same word share a slot.
structure Apart (toAddr fromAddr n : Nat) : Prop where
  alignedTo   : 4 ∣ toAddr
  alignedFrom : 4 ∣ fromAddr
  dst         : ∀ i < n, ∀ j < n, getShadowaddress (toAddr + i) = getShadowaddress (toAddr + j) →
    i / 4 = j / 4
  src         : ∀ i < n, ∀ j < n, getShadowaddress (fromAddr + i) =
    getShadowaddress (fromAddr + j) → i / 4 = j / 4
  disjoint    : ∀ i < n, ∀ j < n, getShadowaddress (fromAddr + i) ≠ getShadowaddress (toAddr + j)

theorem getShadowaddress_of_div_eq {a : Nat} (h : 4 ∣ a) {i j : Nat} (hd : i / 4 = j / 4) :
    getShadowaddress (a + i) = getShadowaddress (a + j) := by
  have : (a + i) / 4 = (a + j) / 4 := by omega
  rw [getShadowaddress, getShadowaddress, this]

-- Bytes that share a slot of the destination share one of the source.
theorem Apart.src_of_dst (h : Apart toAddr fromAddr n) {i j : Nat} (hi : i < n) (hj : j < n)
    (e : getShadowaddress (toAddr + i) = getShadowaddress (toAddr + j)) :
    getShadowaddress (fromAddr + i) = getShadowaddress (fromAddr + j) :=
  getShadowaddress_of_div_eq h.alignedFrom (h.dst i hi j hj e)

-- Every slot of the destination holds the record of an initialised slot of the source.
def Copies (s s' : State V D) (toAddr fromAddr n : Nat) : Prop :=
  ∀ k < n, (s.shadow (fromAddr + k)).isInit →
    (s'.shadow (toAddr + k)).toRecord = (s.shadow (fromAddr + k)).toRecord

-- A byte whose record has arrived.
def Arrived (s : State V D) (addr : Nat) (r : Record V D) : Prop :=
  (s.shadow addr).isInit ∧ (s.shadow addr).toRecord = r

-- The source does not change while it is copied.
theorem shadow_iteration (h : Apart toAddr fromAddr n) (hi : i < n) (hk : k < n)
    (e : SmemEntry V D) :
    ((s.initShadow A (toAddr + i)).setShadow (toAddr + i) e).shadow (fromAddr + k) =
    s.shadow (fromAddr + k) := by
  rw [shadow_setShadow_of_ne (h.disjoint k hk i hi), shadow_initShadow_of_ne (h.disjoint k hk i hi)]

-- What has arrived stays, by induction over the bytes that are left.
theorem Arrived.memcpy (h : Apart toAddr fromAddr (i + n)) (hk : k < i + n) {r : Record V D}
    (hr : (s.shadow (fromAddr + k)).toRecord = r) (ha : Arrived s (toAddr + k) r) :
    Arrived (handleMemcpy A toAddr fromAddr i n s) (toAddr + k) r := by
  induction n generalizing s i with
  | zero      => exact ha
  | succ n ih =>
    have hin : i < i + (n + 1) := by omega
    have hn : i + 1 + n = i + (n + 1) := by omega
    have hinit : Arrived (s.initShadow A (toAddr + i)) (toAddr + k) r := by
      by_cases hs : getShadowaddress (toAddr + k) = getShadowaddress (toAddr + i)
      case pos =>
        rw [initShadow_of_isInit]
        · exact ha
        · have := ha.left
          rwa [State.shadow, hs] at this
      case neg => rwa [Arrived, shadow_initShadow_of_ne hs]
    rw [handleMemcpy]
    split
    case isFalse   => exact hinit
    case isTrue hs =>
      refine ih (hn ▸ h) (hn ▸ hk) ?_ ?_
      · rw [shadow_iteration h hin hk, hr]
      · by_cases he : getShadowaddress (toAddr + k) = getShadowaddress (toAddr + i)
        case neg => rwa [Arrived, shadow_setShadow_of_ne he]
        case pos =>
          have hw : s.shadow (fromAddr + i) = s.shadow (fromAddr + k) :=
            congrArg s.memory (h.src_of_dst hk hin he).symm
          rw [Arrived, shadow_setShadow_of_eq he, shadow_initShadow_of_ne (h.disjoint i hin i hin),
            hw]
          exact ⟨rfl, hr⟩

-- A byte is copied if its source slot and those of all bytes before are initialised.
theorem arrived_of_isInit (h : Apart toAddr fromAddr (i + n)) (hik : i ≤ k) (hk : k < i + n)
    (hs : ∀ j, i ≤ j → j ≤ k → (s.shadow (fromAddr + j)).isInit) :
    Arrived (handleMemcpy A toAddr fromAddr i n s) (toAddr + k)
      (s.shadow (fromAddr + k)).toRecord := by
  induction n generalizing s i with
  | zero      => omega
  | succ n ih =>
    have hin : i < i + (n + 1) := by omega
    have hn : i + 1 + n = i + (n + 1) := by omega
    have hsrc : (s.initShadow A (toAddr + i)).shadow (fromAddr + i) = s.shadow (fromAddr + i) :=
      shadow_initShadow_of_ne (h.disjoint i hin i hin)
    rw [handleMemcpy, if_pos (by rw [hsrc]; exact hs i (Nat.le_refl i) hik), hsrc]
    by_cases he : i = k
    case pos =>
      subst he
      refine Arrived.memcpy (hn ▸ h) (by omega) ?_ ?_
      · rw [shadow_iteration h hin hk]
      · rw [Arrived, shadow_setShadow_self]
        exact ⟨rfl, rfl⟩
    case neg =>
      have ih := ih (s := (s.initShadow A (toAddr + i)).setShadow (toAddr + i)
        (State.copyShadow (s.initShadow A (toAddr + i)) (s.shadow (fromAddr + i)))) (hn ▸ h)
          (by omega) (hn ▸ hk)
      rw [shadow_iteration h hin hk] at ih
      refine ih fun j hj hjk => ?_
      rw [shadow_iteration h hin (by omega)]
      exact hs j (by omega) hjk

-- The first byte whose source slot is not initialised ends the loop: what
-- comes after is left as it was.
theorem memory_of_not_isInit (h : Apart toAddr fromAddr (i + n)) {j : Nat} (hij : i ≤ j)
    (hj : j < i + n) (hs : (s.shadow (fromAddr + j)).isInit = false) {slot : Nat}
    (hm : ∀ m, i ≤ m → m ≤ j → getShadowaddress (toAddr + m) ≠ slot) :
    (handleMemcpy A toAddr fromAddr i n s).memory slot = s.memory slot := by
  induction n generalizing s i with
  | zero      => rfl
  | succ n ih =>
    have hin : i < i + (n + 1) := by omega
    have hn : i + 1 + n = i + (n + 1) := by omega
    have hne := hm i (Nat.le_refl i) hij
    have hsrc : (s.initShadow A (toAddr + i)).shadow (fromAddr + i) = s.shadow (fromAddr + i) :=
      shadow_initShadow_of_ne (h.disjoint i hin i hin)
    have hinit : (s.initShadow A (toAddr + i)).memory slot = s.memory slot :=
      (State.Untouched.initShadow hne).memory
    rw [handleMemcpy, hsrc]
    split
    case isFalse   => exact hinit
    case isTrue hi =>
      have hlt : i ≠ j := by
        rintro rfl
        rw [hs] at hi
        cases hi
      rw [ih (hn ▸ h) (by omega) (hn ▸ hj) (by rw [shadow_iteration h hin hj, hs]) fun m hm₁ hm₂ =>
        hm m (by omega) hm₂]
      exact (Function.update_of_ne (Ne.symm hne) ..).trans hinit

-- A slot of the destination gets the record of its source if no source slot before it is
-- uninitialised. Otherwise it keeps its own record.
theorem copies_iff (A : Mpfr V D) (s : State V D) {toAddr fromAddr size : Nat}
    (h : Apart toAddr fromAddr size) :
    Copies s (handleMemcpy A toAddr fromAddr 0 size s) toAddr fromAddr size ↔
    ∀ k < size, (s.shadow (fromAddr + k)).isInit →
      (∀ j < k, (s.shadow (fromAddr + j)).isInit) ∨
      (s.shadow (toAddr + k)).toRecord = (s.shadow (fromAddr + k)).toRecord := by
  refine forall_congr' fun k => forall_congr' fun hk => forall_congr' fun hki => ?_
  have h₀ : Apart toAddr fromAddr (0 + size) := by rwa [Nat.zero_add]
  by_cases hj : ∀ j < k, (s.shadow (fromAddr + j)).isInit
  case pos =>
    have ha : Arrived (handleMemcpy A toAddr fromAddr 0 size s) (toAddr + k) _ :=
      arrived_of_isInit h₀ (Nat.zero_le k) (by omega) fun j _ hjk => by
        obtain rfl | hlt := Nat.eq_or_lt_of_le hjk
        · exact hki
        · exact hj j hlt
    exact iff_of_true ha.right (.inl hj)
  case neg =>
    rw [or_iff_right hj]
    obtain ⟨j, hj⟩ := Classical.not_forall.mp hj
    obtain ⟨hjk, hj⟩ := Classical.not_imp.mp hj
    -- The slot of byte `k` is not that of byte `j`, as only one of them is initialised.
    have hw : k / 4 ≠ j / 4 := by
      intro hd
      have := getShadowaddress_of_div_eq h.alignedFrom hd
      rw [State.shadow, this] at hki
      exact hj hki
    have hm : (handleMemcpy A toAddr fromAddr 0 size s).shadow (toAddr + k) =
        s.shadow (toAddr + k) := by
      refine memory_of_not_isInit h₀ (Nat.zero_le j) (by omega) (by simpa using hj)
        fun m _ hmj he => ?_
      have := h.dst m (by omega) k hk he
      omega
    rw [hm]

theorem apart_zero {b n : Nat} (h : 4 ∣ b) (hn : n ≤ b) (hb : b + n ≤ hashTableEntries) :
    Apart 0 b n := by
  rw [hashTableEntries] at hb
  refine ⟨by omega, h, ?_, ?_, ?_⟩ <;> simp only [getShadowaddress, hashTableEntries] <;> omega

-- Shadow values without rounding.
def natMpfr : Mpfr Nat Nat :=
  { (default : Mpfr Nat Nat) with setD := id }

-- An array of two doubles at address 32, whose upper halves have never been written.
def twoDoubles : State Nat Nat :=
  storeShadowDconst natMpfr 40 6 1 <| storeShadowDconst natMpfr 32 5 1 <|
    shadowSliceStart natMpfr default

-- The first double is copied to an address with no metadata.
theorem copies_eight : Copies twoDoubles (handleMemcpy natMpfr 0 32 0 8 twoDoubles) 0 32 8 := by
  refine (copies_iff natMpfr twoDoubles (apart_zero (by decide) (by decide) (by decide))).mpr ?_
  have h : ∀ k < 8, (twoDoubles.shadow (32 + k)).isInit →
      ∀ j < k, (twoDoubles.shadow (32 + j)).isInit := by decide
  exact fun k hk hi => .inl (h k hk hi)

-- The second one is not.
theorem not_copies_sixteen :
    ¬∀ (V D : Type) (A : Mpfr V D) (s : State V D) (toAddr fromAddr size : Nat),
    Apart toAddr fromAddr size →
      Copies s (handleMemcpy A toAddr fromAddr 0 size s) toAddr fromAddr size := by
  intro h
  have h₈ :=
    h Nat Nat natMpfr twoDoubles 0 32 16 (apart_zero (by decide) (by decide) (by decide)) 8
      (by decide) rfl
  exact absurd (congrArg Record.computed h₈) (by decide)

end Memcpy

-- A configuration with the value and the double that the last store, memset or copied entry has
-- written to each slot of the shadow memory.
structure Ledger (V D : Type) extends Config V D where
  written : Nat → Option (V × D)

section Written

variable (A : Mpfr V D) (B : Doubles D)

-- What the loop of `fpsan_handle_memset` has written, from byte `i` on.
def memsetWritten (pair : V × D) (toAddr i : Nat) :
    Nat → (Nat → Option (V × D)) → Nat → Option (V × D)
  | 0, w     => w
  | n + 1, w =>
    memsetWritten pair toAddr (i + 1) n <|
      Function.update w (getShadowaddress (toAddr + i)) (some pair)

-- The same for the loop of `fpsan_handle_memcpy`: what it copies has been written to the source.
def memcpyWritten (toAddr fromAddr i : Nat) :
    Nat → State V D → (Nat → Option (V × D)) → Nat → Option (V × D)
  | 0, _, w     => w
  | n + 1, s, w =>
    let s   := s.initShadow A (toAddr + i)
    let src := s.shadow (fromAddr + i)
    if src.isInit then
      memcpyWritten toAddr fromAddr (i + 1) n (s.setShadow (toAddr + i) <| s.copyShadow src) <|
        Function.update w (getShadowaddress (toAddr + i)) (w (getShadowaddress (fromAddr + i)))
    else w

def Act.written (a : Act V D) (c : Ledger V D) : Nat → Option (V × D) :=
  match a with
  | .call (.store addr (some p))    =>
    Function.update c.written (getShadowaddress addr) ((c.temps p).map fun e => (e.val, e.computed))
  | .call (.storeConst addr d _)    =>
    Function.update c.written (getShadowaddress addr) (some (A.setD d, d))
  | .call (.memset addr n d _)      => memsetWritten (A.setD d, d) addr 0 n c.written
  | .call (.memcpy addr source n)   => memcpyWritten A addr source 0 n c.toState c.written
  | _                               => c.written

def ledger : Machine (Ledger V D) (Act V D) where
  init     := { (machine A B).init with written := fun _ => none }
  step a c := exec A B a c.toConfig |>.map fun c' => { c' with written := a.written A c }

-- What is marked as initialised has been written, and a load delivers what has been written or
-- the value of the program.
structure Ledger.Written (c : Ledger V D) : Prop where
  slots : ∀ i, (c.memory i).isInit → c.written i = some ((c.memory i).val, (c.memory i).computed)
  loads : ∀ addr d p i s, loadShadow A B addr d (some p) i c.toState = some s →
    ∃ e, s.temps p = some e ∧
          ((e.val = A.setD d ∧ e.computed = d) ∨
            c.written (getShadowaddress addr) = some (e.val, e.computed))

-- The part of a step that has been done at some point: the loops may be left
-- after any of their bytes.
inductive Act.Prefix : Act V D → Act V D → Prop
  | refl   : Act.Prefix a a
  | memset : m ≤ n → Act.Prefix (.call (.memset addr m d i)) (.call (.memset addr n d i))
  | memcpy : m ≤ n → Act.Prefix (.call (.memcpy addr source m)) (.call (.memcpy addr source n))

-- A slot that is initialised when `fpsan_handle_memcpy` has come to byte `k`.
def State.InitBefore (s : State V D) (toAddr k a : Nat) : Prop :=
  (s.shadow a).isInit ∨ ∃ l < k, getShadowaddress (toAddr + l) = getShadowaddress a

-- The condition on a step: at every byte that `fpsan_handle_memcpy` comes to, the destination or
-- the source is initialised.
def Act.Initialised : Act V D → Ledger V D → Prop
  | .call (.memcpy toAddr fromAddr n), c =>
    ∀ k < n, (∀ j < k, c.InitBefore toAddr (j + 1) (fromAddr + j)) →
      c.InitBefore toAddr k (toAddr + k) ∨ c.InitBefore toAddr k (fromAddr + k)
  | _, _ => True

end Written

section Accounts

variable {w : Nat → Option (V × D)}

-- What a slot holds if it is marked as initialised.
def SmemEntry.pair (e : SmemEntry V D) : Option (V × D) :=
  if e.isInit then some (e.val, e.computed) else none

theorem SmemEntry.pair_of_isInit {e : SmemEntry V D} (h : e.isInit) :
    e.pair = some (e.val, e.computed) :=
  if_pos h

theorem SmemEntry.pair_of_not_isInit {e : SmemEntry V D} (h : e.isInit = false) : e.pair = none :=
  if_neg (by simp [h])

-- Exactly the slots that are marked as initialised have been written, and they still hold that.
def Accounts (s : State V D) (w : Nat → Option (V × D)) : Prop :=
  ∀ i, w i = (s.memory i).pair

theorem Accounts.setShadow (h : Accounts s w) {addr : Nat} {e : SmemEntry V D} {o : Option (V × D)}
    (he : o = e.pair) :
    Accounts (s.setShadow addr e) (Function.update w (getShadowaddress addr) o) := by
  intro i
  simp only [State.setShadow]
  by_cases hi : i = getShadowaddress addr
  case pos => rw [hi, Function.update_self, Function.update_self, he]
  case neg => rw [Function.update_of_ne hi, Function.update_of_ne hi, h i]

theorem Accounts.memset (h : Accounts s w) {addr : Nat} {d : D} {instId i n : Nat} :
    Accounts (handleMemset A addr d instId i n s) (memsetWritten (A.setD d, d) addr i n w) := by
  induction n generalizing s w i with
  | zero      => exact h
  | succ n ih => exact ih (h.setShadow rfl)

theorem isInit_initShadow_iff {addr a : Nat} :
    ((s.initShadow A addr).shadow a).isInit ↔ (s.shadow a).isInit ∨
    getShadowaddress addr = getShadowaddress a := by
  by_cases ha : getShadowaddress addr = getShadowaddress a
  case neg => rw [shadow_initShadow_of_ne (Ne.symm ha), or_iff_left ha]
  case pos =>
    have hs : (s.initShadow A addr).shadow a = (s.initShadow A addr).shadow addr :=
      congrArg (s.initShadow A addr).memory ha.symm
    exact iff_of_true (hs ▸ isInit_initShadow_self addr) (.inr ha)

theorem shadow_initShadow_of_isInit {addr a : Nat} (h : (s.shadow a).isInit) :
    (s.initShadow A addr).shadow a = s.shadow a := by
  by_cases ha : getShadowaddress a = getShadowaddress addr
  case neg => exact shadow_initShadow_of_ne ha
  case pos => rw [initShadow_of_isInit (by rwa [State.shadow, ha] at h)]

theorem setShadow_initShadow (addr : Nat) (e : SmemEntry V D) :
    (s.initShadow A addr).setShadow addr e = s.setShadow addr e := by
  rw [State.initShadow]
  split
  · rfl
  · simp [State.setShadow]

section Memcpy

variable {s₀ : State V D} {toAddr fromAddr i : Nat}

-- The slots that are initialised when the loop is at byte `i`.
def Reached (s₀ s : State V D) (toAddr i : Nat) : Prop :=
  ∀ a, (s.shadow a).isInit ↔ s₀.InitBefore toAddr i a

theorem initBefore_succ {a : Nat} :
    s₀.InitBefore toAddr (i + 1) a ↔ s₀.InitBefore toAddr i a ∨
    getShadowaddress (toAddr + i) = getShadowaddress a := by
  simp only [State.InitBefore, Nat.lt_succ_iff_lt_or_eq, or_and_right, exists_or, exists_eq_left,
    or_assoc]

theorem Reached.initShadow (h : Reached s₀ s toAddr i) :
    Reached s₀ (s.initShadow A (toAddr + i)) toAddr (i + 1) := by
  intro a
  rw [isInit_initShadow_iff, initBefore_succ, h a]

-- One iteration that goes on.
theorem Reached.succ (h : Reached s₀ s toAddr i) {e : SmemEntry V D} (he : e.isInit) :
    Reached s₀ ((s.initShadow A (toAddr + i)).setShadow (toAddr + i) e) toAddr (i + 1) := by
  intro a
  rw [← h.initShadow (A := A) a]
  by_cases ha : getShadowaddress a = getShadowaddress (toAddr + i)
  case neg => rw [shadow_setShadow_of_ne ha]
  case pos =>
    rw [shadow_setShadow_of_eq ha]
    exact iff_of_true he (isInit_initShadow_iff.mpr (.inr ha.symm))

theorem Accounts.succ {w : Nat → Option (V × D)} (h : Accounts s w)
    (hs : (s.shadow (fromAddr + i)).isInit) :
    Accounts ((s.initShadow A (toAddr + i)).setShadow (toAddr + i)
        (State.copyShadow (s.initShadow A (toAddr + i)) (s.shadow (fromAddr + i))))
      (Function.update w (getShadowaddress (toAddr + i))
        (w (getShadowaddress (fromAddr + i)))) := by
  rw [setShadow_initShadow]
  exact h.setShadow ((h _).trans (SmemEntry.pair_of_isInit hs))

-- The bytes that are left keep the account if they meet the condition, by induction.
theorem Accounts.memcpy {w : Nat → Option (V × D)} {n : Nat} (h : Accounts s w)
    (hr : Reached s₀ s toAddr i)
    (hc : ∀ k, i ≤ k → k < i + n →
      (∀ j, i ≤ j → j < k → s₀.InitBefore toAddr (j + 1) (fromAddr + j)) →
      s₀.InitBefore toAddr k (toAddr + k) ∨ s₀.InitBefore toAddr k (fromAddr + k)) :
    Accounts (handleMemcpy A toAddr fromAddr i n s) (memcpyWritten A toAddr fromAddr i n s w) := by
  induction n generalizing s i w with
  | zero      => exact h
  | succ n ih =>
    have hi := hc i (Nat.le_refl i) (by omega) fun j _ _ => by omega
    rw [← hr, ← hr] at hi
    rw [handleMemcpy, memcpyWritten]
    cases hs : (s.shadow (fromAddr + i)).isInit with
    | true  =>
      rw [shadow_initShadow_of_isInit hs, if_pos hs, if_pos hs]
      refine ih (h.succ hs) (hr.succ rfl) fun k hik hk hj =>
        hc k (by omega) (by omega) fun j hij hjk => ?_
      obtain rfl | hlt := Nat.eq_or_lt_of_le hij
      · exact initBefore_succ.mpr (.inl ((hr _).mp hs))
      · exact hj j hlt hjk
    | false =>
      have hd : (s.shadow (toAddr + i)).isInit := hi.resolve_right (by simp [hs])
      rw [initShadow_of_isInit hd, if_neg (by simp [hs]), if_neg (by simp [hs])]
      exact h

-- A byte that does not meet the condition, with the bytes before it that do.
theorem not_slots_memcpy {w : Nat → Option (V × D)} {m : Nat} (h : Accounts s w)
    (hr : Reached s₀ s toAddr i)
    (hj : ∀ j, i ≤ j → j < i + m → s₀.InitBefore toAddr (j + 1) (fromAddr + j))
    (hc : ∀ k, i ≤ k → k < i + m → s₀.InitBefore toAddr k (toAddr + k) ∨
      s₀.InitBefore toAddr k (fromAddr + k))
    (hn : ¬(s₀.InitBefore toAddr (i + m) (toAddr + (i + m)) ∨
      s₀.InitBefore toAddr (i + m) (fromAddr + (i + m)))) :
    ∃ slot, ((handleMemcpy A toAddr fromAddr i (m + 1) s).memory slot).isInit ∧
      memcpyWritten A toAddr fromAddr i (m + 1) s w slot = none := by
  induction m generalizing s i w with
  | zero      =>
    obtain ⟨hd, hs⟩ := not_or.mp hn
    rw [Nat.add_zero, ← hr, Bool.not_eq_true] at hd hs
    refine ⟨getShadowaddress (toAddr + i), ?_⟩
    rw [handleMemcpy, memcpyWritten]
    simp only [handleMemcpy, memcpyWritten]
    split
    case isTrue  =>
      refine ⟨by simp [State.setShadow, State.copyShadow], ?_⟩
      rw [Function.update_self]
      exact (h _).trans (SmemEntry.pair_of_not_isInit hs)
    case isFalse =>
      exact ⟨isInit_initShadow_self (toAddr + i), (h _).trans (SmemEntry.pair_of_not_isInit hd)⟩
  | succ m ih =>
    have hsrc := initBefore_succ.mp (hj i (Nat.le_refl i) (by omega))
    have hi := hc i (Nat.le_refl i) (by omega)
    rw [← hr] at hsrc
    rw [← hr, ← hr] at hi
    have hs : (s.shadow (fromAddr + i)).isInit := by
      obtain hs | he := hsrc
      · exact hs
      · obtain hd | hs := hi
        · rwa [State.shadow, he] at hd
        · exact hs
    have hm : i + 1 + m = i + (m + 1) := by omega
    rw [handleMemcpy, memcpyWritten, shadow_initShadow_of_isInit hs]
    simp only [hs, if_true]
    exact ih (h.succ hs) (hr.succ rfl) (fun j _ _ => hj j (by omega) (by omega))
      (fun k _ _ => hc k (by omega) (by omega))
      (hm ▸ hn)

end Memcpy

end Accounts

section Ledger

variable {B : Doubles D} {a b : Act V D} {c c' : Ledger V D}

theorem ledger_cases (e : (ledger A B).step a c = some c') :
    ∃ c₁, exec A B a c.toConfig = some c₁ ∧ c' = { c₁ with written := a.written A c } := by
  obtain ⟨c₁, h, rfl⟩ := Option.map_eq_some_iff.mp e
  exact ⟨c₁, h, rfl⟩

theorem accounts_memcpy (h : Accounts c.toState c.written) {toAddr fromAddr n : Nat}
    (hc : (Act.call (.memcpy toAddr fromAddr n)).Initialised c) :
    Accounts (handleMemcpy A toAddr fromAddr 0 n c.toState)
      (memcpyWritten A toAddr fromAddr 0 n c.toState c.written) := by
  have hr : Reached c.toState c.toState toAddr 0 := fun a => by simp [State.InitBefore]
  refine h.memcpy hr fun k _ hk hj => hc k (by omega) fun j hjk => hj j (Nat.zero_le j) hjk

theorem accounts_step (h : Accounts c.toState c.written) (hc : a.Initialised c)
    (e : (ledger A B).step a c = some c') : Accounts c'.toState c'.written := by
  obtain ⟨c₁, he, rfl⟩ := ledger_cases e
  obtain ⟨rfl, rfl⟩ | ⟨rfl, -, rfl⟩ | ⟨k, s, rfl, -, hs, rfl⟩ := exec_cases he
  case inl     => exact h
  case inr.inl => exact h
  case inr.inr =>
    cases Call.outcome hs with
    | none hk | write hk | record hk =>
      have hw : (Act.call k).written A c = c.written := by cases k <;> first | rfl | cases hk
      rw [hw]
      exact h
    | storeNone      => exact h
    | store hp       => exact h.setShadow (congrArg (Option.map _) hp)
    | storeConst     => exact h.setShadow rfl
    | memset         => exact h.memset
    | memcpy         => exact accounts_memcpy h hc

theorem pair_of_load {addr : Nat} {d : D} {p : Ptr} {i : Nat} {s' : State V D}
    (e : loadShadow A B addr d (some p) i s = some s') : ∃ e, s'.temps p = some e ∧
      ((e.val = A.setD d ∧ e.computed = d) ∨ (s.shadow addr).pair = some (e.val, e.computed)) := by
  simp only [loadShadow] at e
  split at e
  case isTrue =>
    cases e
    exact ⟨_, Function.update_self .., .inl ⟨rfl, rfl⟩⟩
  case isFalse h =>
    have hi : (s.shadow addr).isInit := by
      by_contra hn
      simp [hn] at h
    have hp := SmemEntry.pair_of_isInit hi
    split at e
    · cases e
      exact ⟨_, Function.update_self .., .inr hp⟩
    split at e
    · obtain ⟨e', _, hs⟩ := Option.bind_eq_some_iff.mp e
      cases hs
      exact ⟨_, Function.update_self .., .inr hp⟩
    · cases e
      exact ⟨_, Function.update_self .., .inr hp⟩

theorem Accounts.written (h : Accounts c.toState c.written) : c.Written A B where
  slots i hi := (h i).trans (SmemEntry.pair_of_isInit hi)
  loads addr d p i s e := by
    obtain ⟨e', he, hp⟩ := pair_of_load e
    exact ⟨e', he, hp.imp_right fun hp => (h _).trans hp⟩

theorem Act.Initialised.of_prefix (h : a.Initialised c) (hp : b.Prefix a) : b.Initialised c := by
  cases hp with
  | refl      => exact h
  | memset    => trivial
  | memcpy hm => exact fun k hk => h k (Nat.lt_of_lt_of_le hk hm)

-- The first byte at which a step does not meet the condition is one after
-- which the loop may be left.
theorem initialised_of_written (h : Accounts c.toState c.written)
    (hq : ∀ b, b.Prefix a → ∀ c', (ledger A B).step b c = some c' → c'.Written A B) :
    a.Initialised c := by
  cases a with
  | enter | exit => trivial
  | call k =>
    cases k with
    | memcpy toAddr fromAddr n =>
      intro k
      induction k using Nat.strongRecOn with
      | ind k ih =>
        intro hk hj
        by_contra hn
        have hr : Reached c.toState c.toState toAddr 0 := fun a => by simp [State.InitBefore]
        have hf : (Call.memcpy toAddr fromAddr (k + 1) : Call V D).Fits c.frames := by
          simp [Call.Fits, Call.operands, Call.result, Call.returned]
        have he : (ledger A B).step (.call (.memcpy toAddr fromAddr (k + 1))) c = some
            { toState := handleMemcpy A toAddr fromAddr 0 (k + 1) c.toState, frames := c.frames,
              next := c.next
              written := memcpyWritten A toAddr fromAddr 0 (k + 1) c.toState c.written } := by
          simp only [ledger, exec, if_pos hf]
          rfl
        have hs := hq _ (.memcpy hk) _ he
        obtain ⟨slot, hi, hw⟩ :=
          not_slots_memcpy (A := A) (m := k) h hr (fun j _ hjk => hj j (by omega))
          (fun l _ hl => ih l (by omega) (by omega) fun j hjl => hj j (by omega))
            (by rwa [Nat.zero_add])
        cases hw.symm.trans (hs.slots slot hi)
    | _ => trivial

end Ledger

-- The slots that are marked as initialised have been written at every point of a run, those inside
-- of the loops included, exactly if no `fpsan_handle_memcpy` of it comes to a byte with neither an
-- initialised destination nor an initialised source.
theorem always_written_iff (A : Mpfr V D) (B : Doubles D) {c : Ledger V D}
    (r : (ledger A B).Run c) :
    (r.Always (Ledger.Written A B) ∧
      r.Each fun a c => ∀ b : Act V D, b.Prefix a → ∀ c', (ledger A B).step b c = some c' →
      c'.Written A B) ↔
    r.Each Act.Initialised := by
  have h₀ : Accounts (ledger A B).init.toState (ledger A B).init.written := fun _ => rfl
  have hs : ∀ {a : Act V D} {c c' : Ledger V D}, Accounts c.toState c.written → a.Initialised c →
      (ledger A B).step a c = some c' → Accounts c'.toState c'.written := accounts_step
  rw [Machine.Run.each_iff_each (I := fun c : Ledger V D => Accounts c.toState c.written)
    (C := Act.Initialised) h₀
    (fun h hc b hp c' e => (accounts_step h (hc.of_prefix hp) e).written) hs
      (fun h _ => initialised_of_written h)]
  exact and_iff_right_of_imp fun hc => (Machine.Run.Each.invariant h₀ (fun _ => hs) hc).mono
    fun _ => Accounts.written

-- A variable is copied to another before it has been written.
theorem not_always_written :
    ¬∀ (V D : Type) (A : Mpfr V D) (B : Doubles D) (c : Ledger V D) (r : (ledger A B).Run c),
    r.Always (Ledger.Written A B) := by
  intro h
  let r := Machine.Run.init (M := ledger natMpfr default) |>.step .enter rfl
    |>.step (.call (.memcpy 0 32 8)) rfl
  have hs := (h _ _ _ _ _ r).last.slots 0 rfl
  cases hs

end Metadata
