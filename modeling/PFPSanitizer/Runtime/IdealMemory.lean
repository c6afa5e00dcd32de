import PFPSanitizer.Runtime.Plain
import PFPSanitizer.Runtime.ShadowMemory
import PFPSanitizer.Lib.DirectMapped

-- The table of `m_get_shadowaddress`, whose entries are shared by addresses, and a memory that has
-- room for every word of the program.
namespace Metadata

variable {V D : Type}

-- Four bytes share their metadata.
def word (address : Nat) : Nat :=
  address / 4

def slot (w : Nat) : Nat :=
  w % hashTableEntries

theorem slot_word (address : Nat) : slot (word address) = getShadowaddress address :=
  rfl

-- The words that a call reads or writes.
def Call.words : Call V D → Set Nat
  | .load addr _ _ _ | .store addr _ | .storeConst addr _ _ => { word addr }
  | .memset addr n _ _      => { w | ∃ k < n, word (addr + k) = w }
  | .memcpy addr source n   => { w | ∃ k < n, word (addr + k) = w ∨ word (source + k) = w }
  | _                       => ∅

def Call.usesMemory : Call V D → Bool
  | .load _ _ _ _ | .store _ _ | .storeConst _ _ _ | .memset _ _ _ _ | .memcpy _ _ _ => true
  | _                                                                                 => false

def Act.words : Act V D → Set Nat
  | .call k => k.words
  | _       => ∅

namespace Ideal

-- A word has no record until something is stored to it.
structure State (V D : Type) where
  temps  : Ptr → Option (Record V D)
  memory : Nat → Option (Record V D)

section

variable (A : Mpfr V D) (B : Doubles D)

def State.write (s : State V D) (p : Ptr) (r : Record V D) : State V D :=
  { s with temps := Function.update s.temps p (some r) }

@[simp]
theorem State.temps_write (s : State V D) (p : Ptr) (r : Record V D) :
    (s.write p r).temps p = some r := by
  rw [State.write]
  exact Function.update_self ..

def State.set (s : State V D) (w : Nat) (r : Record V D) : State V D :=
  { s with memory := Function.update s.memory w (some r) }

-- What is copied from is stored, and what is copied to is stored even if there is nothing to copy.
def unknown : Record V D where
  val      := A.nan
  computed := B.zero
  opcode   := .fadd
  instId   := 0

def State.init (s : State V D) (w : Nat) : State V D :=
  if (s.memory w).isSome then s else s.set w (unknown A B)

def loadShadow (addr : Nat) (val : D) (src : Option Ptr) (instId : Nat) (s : State V D) :
    State V D :=
  match src with
  | none   => s
  | some p =>
    match s.memory (word addr) with
    | none   => s.write p (.constant A val instId)
    | some r => if B.ne val r.computed then s.write p (.constant A val instId) else s.write p r

def storeShadow (toAddr : Nat) (src : Option Ptr) (s : State V D) : Option (State V D) :=
  match src with
  | none   => s
  | some p => do
    let r ← s.temps p
    return s.set (word toAddr) r

-- All words of the range at once.
def handleMemset (toAddr size : Nat) (val : D) (instId : Nat) (s : State V D) : State V D :=
  { s with memory := fun w => if ∃ k < size,
           word (toAddr + k) = w then some (.constant A val instId) else s.memory w }

def handleMemcpy (toAddr fromAddr : Nat) (i : Nat) : Nat → State V D → State V D
  | 0, s     => s
  | n + 1, s =>
    let s := s.init A B (word (toAddr + i))
    match s.memory (word (fromAddr + i)) with
    | none   => s
    | some r => handleMemcpy toAddr fromAddr (i + 1) n <| s.set (word (toAddr + i)) r

-- The calls that have nothing to do with memory are those of the runtime.
def exec (s : State V D) : Call V D → Option (State V D)
  | .load addr d p i          => loadShadow A B addr d p i s
  | .store addr p             => storeShadow addr p s
  | .storeConst addr d i      => s.set (word addr) (.constant A d i)
  | .memset addr n d i        => handleMemset A addr n d i s
  | .memcpy addr source n     => handleMemcpy A B addr source 0 n s
  | k                         =>
    Plain.exec A B { Plain.shadowSliceStart A B with temps := s.temps } k |>.map fun s' =>
      { s with temps := s'.temps }

structure Config (V D : Type) extends State V D where
  frames : List Activation
  next   : Nat

def Config.enter (c : Config V D) : Config V D :=
  { c with frames := { level := c.frames.length + 2, id := c.next } :: c.frames,
           next := c.next + 1 }

def step : Act V D → Config V D → Option (Config V D)
  | .enter, c  => some c.enter
  | .exit, c   => if c.frames.isEmpty then none else some { c with frames := c.frames.tail }
  | .call k, c =>
    if k.Fits c.frames then exec A B c.toState k |>.map fun s => { c with toState := s } else none

def machine : Machine (Config V D) (Act V D) where
  init := { temps := fun _ => none, memory := fun _ => none, frames := [], next := 0 }
  step := step A B

end

end Ideal

open DirectMapped (Agree)

section Refines

variable {A : Mpfr V D} {B : Doubles D} {words : Set Nat} {s s' : Plain.State V D}
  {t : Ideal.State V D} {w addr : Nat}

-- What an entry of the table has for its words.
def Plain.SmemEntry.view (e : Plain.SmemEntry V D) : Option (Record V D) :=
  if e.isInit then some e.toRecord else none

-- The words of the set have in the table what they have in the ideal memory.
structure Refines (A : Mpfr V D) (B : Doubles D) (words : Set Nat) (s : Plain.State V D)
    (t : Ideal.State V D) :
    Prop where
  temps  : s.temps = t.temps
  memory : Agree slot words Plain.SmemEntry.view s.memory t.memory
  unused : ∀ i, (s.memory i).isInit = false → (s.memory i).toRecord = Ideal.unknown A B

namespace Refines

theorem write (h : Refines A B words s t) (p : Ptr) (r : Record V D) :
    Refines A B words (s.write p r) (t.write p r) :=
  ⟨by simp only [Plain.State.write, Ideal.State.write, h.temps], h.memory, h.unused⟩

theorem set (h : Refines A B words s t) (hi : Set.InjOn slot words) (hw : word addr ∈ words)
    {e : Plain.SmemEntry V D} (he : e.isInit) :
    Refines A B words (s.setShadow addr e) (t.set (word addr) e.toRecord) where
  temps     := h.temps
  memory    := h.memory.update hi hw (if_pos he)
  unused i  := by
    simp only [Plain.State.setShadow]
    by_cases hs : i = getShadowaddress addr
    case pos => rw [hs, Function.update_self, he]; exact fun h => absurd h (by simp)
    case neg => rw [Function.update_of_ne hs]; exact h.unused i

theorem view (h : Refines A B words s t) (hw : word addr ∈ words) :
    (s.shadow addr).view = t.memory (word addr) :=
  h.memory _ hw

theorem memory_of_isInit (h : Refines A B words s t) (hw : word addr ∈ words)
    (hi : (s.shadow addr).isInit) :
    t.memory (word addr) = some (s.shadow addr).toRecord :=
  (h.view hw).symm.trans (if_pos hi)

theorem memory_of_not_isInit (h : Refines A B words s t) (hw : word addr ∈ words)
    (hi : (s.shadow addr).isInit = false) :
    t.memory (word addr) = none :=
  (h.view hw).symm.trans (if_neg (by simp [hi]))

theorem init (h : Refines A B words s t) (hi : Set.InjOn slot words) (hw : word addr ∈ words) :
    Refines A B words (s.initShadow A addr) (t.init A B (word addr)) := by
  rw [Plain.State.initShadow, Ideal.State.init]
  cases hs : (s.shadow addr).isInit with
  | true  => rw [h.memory_of_isInit hw hs]; exact h
  | false =>
    rw [h.memory_of_not_isInit hw hs]
    have hu : { (s.shadow addr).toRecord with val := A.nan } = Ideal.unknown A B := by
      rw [show (s.shadow addr).toRecord = _ from h.unused _ hs]
      rfl
    rw [← hu]
    exact h.set hi hw (e := { s.shadow addr with isInit := true, val := A.nan }) rfl

-- The loop of `fpsan_handle_memset` stores to one word after the other.
theorem memset (h : Refines A B words s t) (hi : Set.InjOn slot words) {d : D} {instId i n : Nat}
    (hw : ∀ k < n, word (addr + (i + k)) ∈ words) :
    Refines A B words (Plain.handleMemset A addr d instId i n s)
      { t with memory := fun w => if ∃ k < n,
               word (addr + (i + k)) = w then some (.constant A d instId) else t.memory w } := by
  induction n generalizing s t i with
  | zero      => simpa [Plain.handleMemset] using h
  | succ n ih =>
    have hk : ∀ k < n, word (addr + (i + 1 + k)) ∈ words := fun k hk => by
      have := hw (k + 1) (by omega)
      rwa [Nat.add_comm k 1, ← Nat.add_assoc i 1 k] at this
    have h₁ := h.set hi (hw 0 (Nat.succ_pos n)) (e := Plain.constShadow A d instId) rfl
    refine cast (congrArg (Refines A B words _) ?_) (ih h₁ hk)
    simp only [Ideal.State.set, Ideal.State.mk.injEq, true_and]
    funext w
    by_cases hex : ∃ k < n, word (addr + (i + 1 + k)) = w
    case pos =>
      obtain ⟨k, hk, he⟩ := hex
      rw [if_pos ⟨k, hk, he⟩,
        if_pos ⟨k + 1, by omega, by rwa [Nat.add_comm k 1, ← Nat.add_assoc i 1 k]⟩]
    case neg =>
      rw [if_neg hex]
      by_cases hz : w = word (addr + (i + 0))
      case pos => rw [if_pos ⟨0, Nat.succ_pos n, hz.symm⟩, hz]; exact Function.update_self ..
      case neg =>
        rw [Function.update_of_ne hz, if_neg]
        rintro ⟨k, hk, he⟩
        cases k with
        | zero   => exact hz he.symm
        | succ k => exact hex ⟨k, by omega, by rwa [Nat.add_comm k 1, ← Nat.add_assoc i 1 k] at he⟩

theorem memcpy (h : Refines A B words s t) (hi : Set.InjOn slot words) {source i n : Nat}
    (hw : ∀ k < n, word (addr + (i + k)) ∈ words ∧ word (source + (i + k)) ∈ words) :
    Refines A B words (Plain.handleMemcpy A addr source i n s)
      (Ideal.handleMemcpy A B addr source i n t) := by
  induction n generalizing s t i with
  | zero      => exact h
  | succ n ih =>
    obtain ⟨hd, hs⟩ := hw 0 (Nat.succ_pos n)
    rw [Nat.add_zero] at hd hs
    have hk : ∀ k < n, word (addr + (i + 1 + k)) ∈ words ∧ word (source + (i + 1 + k)) ∈ words :=
      fun k hk => by
      have := hw (k + 1) (by omega)
      rwa [Nat.add_comm k 1, ← Nat.add_assoc i 1 k] at this
    have h₁ := h.init hi hd
    rw [Plain.handleMemcpy, Ideal.handleMemcpy]
    cases hsrc : ((s.initShadow A (addr + i)).shadow (source + i)).isInit with
    | true  =>
      simp only [if_true, h₁.memory_of_isInit hs hsrc]
      exact ih
        (h₁.set hi hd (e := { (s.initShadow A (addr + i)).shadow (source + i) with isInit := true })
          rfl) hk
    | false =>
      simp only [Bool.false_eq_true, if_false, h₁.memory_of_not_isInit hs hsrc]
      exact h₁

theorem load (h : Refines A B words s t) (hw : word addr ∈ words) (d : D) (o : Option Ptr)
    (i : Nat) :
    Refines A B words (Plain.loadShadow A B addr d o i s) (Ideal.loadShadow A B addr d o i t) := by
  cases o with
  | none   => exact h
  | some p =>
    rw [Plain.loadShadow, Ideal.loadShadow]
    cases hs : (s.shadow addr).isInit with
    | false =>
      simp only [Bool.not_false, Bool.true_or, if_true, h.memory_of_not_isInit hw hs]
      exact h.write p _
    | true  =>
      simp only [Bool.not_true, Bool.false_or, h.memory_of_isInit hw hs]
      split
      · exact h.write p _
      · exact h.write p _

theorem store (h : Refines A B words s t) (hi : Set.InjOn slot words) (hw : word addr ∈ words)
    (o : Option Ptr) :
    Option.Rel (Refines A B words) (Plain.storeShadow addr o s) (Ideal.storeShadow addr o t) := by
  cases o with
  | none   => exact .some h
  | some p =>
    simp only [Plain.storeShadow, Ideal.storeShadow, ← h.temps]
    cases s.temps p with
    | none   => exact .none
    | some r => exact .some (h.set hi hw rfl)

end Refines

-- The calls that leave the memory alone do not depend on it.
theorem exec_temps {k : Call V D} (hk : k.usesMemory = false) (m : Nat → Plain.SmemEntry V D) :
    Plain.exec A B s k =
      (Plain.exec A B { s with memory := m } k).map fun s' =>
      { temps := s'.temps, memory := s.memory } := by
  cases k with
  | load | store | storeConst | memset | memcpy => cases hk
  | const p d i => rfl
  | compute o p q d res i =>
    simp only [Plain.exec, Plain.mCompute]
    cases s.temps p with
    | none    => rfl
    | some e₁ => cases s.temps q <;> rfl
  | math o p d res i =>
    simp only [Plain.exec, Plain.handleMathD]
    cases s.temps p with
    | none   => rfl
    | some e => cases mathFn A o <;> rfl
  | mathTwo f o p q d res i =>
    simp only [Plain.exec, Plain.mathTwo]
    cases s.temps p with
    | none    => rfl
    | some e₁ => cases s.temps q <;> rfl
  | fma p q r d res i =>
    simp only [Plain.exec, Plain.mpfrFma]
    cases s.temps p with
    | none    => rfl
    | some e₁ =>
      cases s.temps q with
      | none    => rfl
      | some e₂ => cases s.temps r <;> rfl
  | ldexp p n d res i =>
    simp only [Plain.exec, Plain.mpfrLdexp]
    cases s.temps p <;> rfl
  | fneg p res =>
    simp only [Plain.exec, Plain.mpfrFneg]
    cases s.temps p <;> rfl
  | copyReturn p dest =>
    cases p with
    | none   => rfl
    | some p =>
      simp only [Plain.exec, Plain.copyReturn]
      cases s.temps p <;> rfl
  | copyPhi p dst =>
    cases p with
    | none   => rfl
    | some p =>
      simp only [Plain.exec, Plain.copyPhi]
      cases s.temps p <;> rfl

theorem Refines.exec_temps (h : Refines A B words s t) {k : Call V D} (hk : k.usesMemory = false) :
    Option.Rel (Refines A B words) (Plain.exec A B s k) (Ideal.exec A B t k) := by
  have ht : Ideal.exec A B t k =
      (Plain.exec A B { Plain.shadowSliceStart A B with temps := t.temps } k).map
      fun s' => { t with temps := s'.temps } := by
    cases k with
    | load | store | storeConst | memset | memcpy => cases hk
    | _ => rfl
  rw [Metadata.exec_temps hk (Plain.shadowSliceStart A B).memory, ht, h.temps]
  show Option.Rel _
    (Option.map _ (Plain.exec A B { Plain.shadowSliceStart A B with temps := t.temps } k)) _
  cases Plain.exec A B { Plain.shadowSliceStart A B with temps := t.temps } k with
  | none    => exact .none
  | some s' => exact .some ⟨rfl, h.memory, h.unused⟩

theorem Refines.exec (h : Refines A B words s t) (hi : Set.InjOn slot words) {k : Call V D}
    (hk : k.words ⊆ words) :
    Option.Rel (Refines A B words) (Plain.exec A B s k) (Ideal.exec A B t k) := by
  cases k with
  | load addr d p i       => exact .some (h.load (hk rfl) d p i)
  | store addr p          => exact h.store hi (hk rfl) p
  | storeConst addr d i   => exact .some (h.set hi (hk rfl) rfl)
  | memset addr n d i     =>
    refine .some ?_
    have hs : Refines A B words (Plain.handleMemset A addr d i 0 n s) _ :=
      h.memset hi fun k hkn => hk ⟨k, hkn, by rw [Nat.zero_add]⟩
    refine cast (congrArg (Refines A B words _) ?_) hs
    refine congrArg (Ideal.State.mk t.temps) (funext fun w => ?_)
    exact if_congr (by simp only [Nat.zero_add]) rfl rfl
  | memcpy addr source n  =>
    refine .some (h.memcpy hi fun k hkn => ?_)
    rw [Nat.zero_add]
    exact ⟨hk ⟨k, hkn, .inl rfl⟩, hk ⟨k, hkn, .inr rfl⟩⟩
  | _                     => exact h.exec_temps rfl

-- With the frames, which are the same.
structure ConfigRefines (A : Mpfr V D) (B : Doubles D) (words : Set Nat) (c : Plain.Config V D)
    (c' : Ideal.Config V D) : Prop where
  state  : Refines A B words c.toState c'.toState
  frames : c.frames = c'.frames
  next   : c.next = c'.next

theorem ConfigRefines.step {c : Plain.Config V D} {c' : Ideal.Config V D}
    (h : ConfigRefines A B words c c') (hi : Set.InjOn slot words) {a : Act V D}
    (ha : a.words ⊆ words) :
    Option.Rel (ConfigRefines A B words) (Plain.step A B a c) (Ideal.step A B a c') := by
  cases a with
  | enter =>
    refine .some ⟨h.state, ?_, congrArg (· + 1) h.next⟩
    simp only [Plain.Config.enter, Ideal.Config.enter, h.frames, h.next]
  | exit =>
    simp only [Plain.step, Ideal.step, h.frames]
    split
    · exact .none
    · exact .some ⟨h.state, rfl, h.next⟩
  | call k =>
    simp only [Plain.step, Ideal.step, h.frames]
    split
    case isFalse => exact .none
    case isTrue  =>
      have he := h.state.exec hi ha
      cases hs : Plain.exec A B c.toState k with
      | none    =>
        rw [hs] at he
        cases ht : Ideal.exec A B c'.toState k with
        | none   => exact .none
        | some t => rw [ht] at he; cases he
      | some s' =>
        rw [hs] at he
        cases ht : Ideal.exec A B c'.toState k with
        | none   => rw [ht] at he; cases he
        | some t =>
          rw [ht] at he
          cases he with
          | some he => exact .some ⟨he, rfl, h.next⟩

theorem erase_temps (A : Mpfr V D) (B : Doubles D) (acts : List (Act V D)) :
    ((machine A B).exec acts (machine A B).init).map (fun c => c.erase.temps) =
      ((Plain.machine A B).exec acts (Plain.machine A B).init).map fun c => c.temps := by
  have he : Erasable (machine A B).init := ⟨fun _ _ ht => (Option.not_mem_none _ ht).elim, rfl⟩
  have ht := congrArg (Option.map fun c => c.temps) (erase_acts (A := A) (B := B) he acts)
  rwa [Option.map_map] at ht

-- In every run over words with slots of their own the values are those of the ideal memory.
theorem ideal_of_injOn (hi : Set.InjOn slot words) {acts : List (Act V D)}
    (ha : ∀ a ∈ acts, a.words ⊆ words) :
    ((Plain.machine A B).exec acts (Plain.machine A B).init).map (fun c => c.temps) =
      ((Ideal.machine A B).exec acts (Ideal.machine A B).init).map fun c => c.temps := by
  have h₀ : ConfigRefines A B words (Plain.machine A B).init (Ideal.machine A B).init :=
    ⟨⟨rfl, fun _ _ => rfl, fun _ _ => rfl⟩, rfl, rfl⟩
  exact Machine.map_exec_eq (R := ConfigRefines A B words) (C := fun a => a.words ⊆ words)
    (fun ha h => h.step hi ha) ha h₀
    fun h => h.state.temps

-- The first temporary of the first shadow function.
def firstTemp : Ptr where
  owner := { level := 2, id := 0 }
  idx   := 0

-- A constant is stored to one word, and the program finds the same number in another one.
def mixUp (d : D) (w₁ w₂ : Nat) : List (Act V D) :=
  [.enter, .call (.storeConst (4 * w₁) d 1), .call (.load (4 * w₂) d (some firstTemp) 2)]

theorem word_mul (w : Nat) : word (4 * w) = w :=
  Nat.mul_div_cancel_left w (by decide)

-- With one slot for both words it gets the metadata of the store.
theorem temps_mixUp (A : Mpfr V D) {d : D} (hd : B.ne d d = false) {w₁ w₂ : Nat}
    (hs : slot w₁ = slot w₂) :
    ((Plain.machine A B).exec (mixUp d w₁ w₂) (Plain.machine A B).init).map
      (fun c => c.temps firstTemp) =
      some (some (.constant A d 1)) := by
  let s := (Plain.shadowSliceStart A B).setShadow (4 * w₁) (Plain.constShadow A d 1)
  have hr : s.shadow (4 * w₂) = Plain.constShadow A d 1 := by
    have he : getShadowaddress (4 * w₂) = getShadowaddress (4 * w₁) := by
      rw [← slot_word, ← slot_word, word_mul, word_mul, hs]
    simp only [s, Plain.State.shadow, Plain.State.setShadow, he, Function.update_self]
  have hl : (Plain.loadShadow A B (4 * w₂) d (some firstTemp) 2 s).temps firstTemp =
      some (.constant A d 1) := by
    rw [Plain.loadShadow, hr]
    simp only [Plain.constShadow, hd, Bool.not_true, Bool.or_self, Bool.false_eq_true, if_false]
    exact s.temps_write firstTemp _
  exact congrArg some hl

-- The ideal memory has nothing for a word to which nothing has been stored.
theorem ideal_temps_mixUp (A : Mpfr V D) (B : Doubles D) (d : D) {w₁ w₂ : Nat} (hw : w₁ ≠ w₂) :
    ((Ideal.machine A B).exec (mixUp d w₁ w₂) (Ideal.machine A B).init).map
      (fun c => c.temps firstTemp) =
      some (some (.constant A d 2)) := by
  let s : Ideal.State V D :=
    { temps := fun _ => none,
        memory := Function.update (fun _ => none) (word (4 * w₁)) (some (.constant A d 1)) }
  have hr : s.memory (word (4 * w₂)) = none := by
    rw [word_mul]
    simp only [s, word_mul, Function.update_of_ne (Ne.symm hw)]
  have hl : (Ideal.loadShadow A B (4 * w₂) d (some firstTemp) 2 s).temps firstTemp =
      some (.constant A d 2) := by
    rw [Ideal.loadShadow, hr]
    exact s.temps_write firstTemp _
  exact congrArg some hl

theorem words_mixUp {d : D} {w₁ w₂ : Nat} (h₁ : w₁ ∈ words) (h₂ : w₂ ∈ words) :
    ∀ a ∈ (mixUp d w₁ w₂ : List (Act V D)), a.words ⊆ words := by
  rw [mixUp, List.forall_mem_cons, List.forall_mem_cons, List.forall_mem_singleton]
  refine ⟨Set.empty_subset _, ?_, ?_⟩
  · exact Set.singleton_subset_iff.mpr (by rwa [word_mul])
  · exact Set.singleton_subset_iff.mpr (by rwa [word_mul])

-- The programs that only touch certain words are shadowed as by the ideal memory, whatever they do,
-- exactly if no two of the words have the same slot.
theorem ideal_iff_injOn (A : Mpfr V D) (B : Doubles D) {d : D} (hd : B.ne d d = false)
    (words : Set Nat) :
    (∀ acts : List (Act V D), (∀ a ∈ acts, a.words ⊆ words) →
      ((machine A B).exec acts (machine A B).init).map (fun c => c.erase.temps) =
        ((Ideal.machine A B).exec acts (Ideal.machine A B).init).map fun c => c.temps) ↔
        Set.InjOn slot words := by
  simp only [erase_temps]
  constructor
  case mpr => exact fun hi acts ha => ideal_of_injOn hi ha
  case mp  =>
    intro h w₁ h₁ w₂ h₂ hs
    by_contra hw
    have ht := congrArg (Option.map fun t => t firstTemp) (h (mixUp d w₁ w₂) (words_mixUp h₁ h₂))
    rw [Option.map_map, Option.map_map] at ht
    have he := (temps_mixUp A hd hs).symm.trans (ht.trans (ideal_temps_mixUp A B d hw))
    simp [Record.constant] at he

-- The table is as good as the ideal memory for a program that stays within its
-- first four megabytes.
theorem ideal_iff_injOn_megabytes :
    let B : Doubles Nat := { zero := 0, neg := id, ne := fun d₁ d₂ => d₁ != d₂ }
    ∀ acts : List (Act Nat Nat), (∀ a ∈ acts, a.words ⊆ { w | w < hashTableEntries }) →
      ((machine natMpfr B).exec acts (machine natMpfr B).init).map (fun c => c.erase.temps) =
        ((Ideal.machine natMpfr B).exec acts (Ideal.machine natMpfr B).init).map
          fun c => c.temps := by
  refine (ideal_iff_injOn natMpfr _ (d := 0) rfl _).mpr fun w hw v hv he => ?_
  rwa [slot, slot, Nat.mod_eq_of_lt hw, Nat.mod_eq_of_lt hv] at he

end Refines

end Metadata
