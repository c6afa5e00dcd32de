import PFPSanitizer.Runtime.LockKey

-- Values that are stored to the shadow memory and loaded again.
namespace Metadata

variable {V D : Type}

-- What temporaries and the shadow memory both keep of a value.
structure Record (V D : Type) where
  val      : V
  computed : D
  opcode   : FpOp
  instId   : Nat

def TempEntry.toRecord (e : TempEntry V D) : Record V D where
  val      := e.val
  computed := e.computed
  opcode   := e.opcode
  instId   := e.instId

def SmemEntry.toRecord (e : SmemEntry V D) : Record V D where
  val      := e.val
  computed := e.computed
  opcode   := e.opcode
  instId   := e.instId

-- The record of a value that the program computes outside of the shadow execution.
def Record.constant (A : Mpfr V D) (d : D) (instId : Nat) : Record V D where
  val      := A.setD d
  computed := d
  opcode   := .constant
  instId   := instId

namespace Call

-- What a store has to keep. It keeps nothing of an operand without metadata.
def stored (A : Mpfr V D) (s : State V D) : Call V D → Option (Record V D)
  | store _ p        => p.bind s.temps |>.map TempEntry.toRecord
  | storeConst _ d i => some <| .constant A d i
  | _                => none

-- The slots of the shadow memory that a call may write.
def Touches (slot : Nat) : Call V D → Prop
  | store addr _ | storeConst addr _ _          => getShadowaddress addr = slot
  | memset addr n _ _ | memcpy addr _ n         => ∃ k < n, getShadowaddress (addr + k) = slot
  | _                                           => False

end Call

def Act.Touches (slot : Nat) : Act V D → Prop
  | .call k => k.Touches slot
  | _       => False

-- A later state in which a slot of the shadow memory is the same.
structure State.Untouched (slot : Nat) (s s' : State V D) : Prop where
  memory : s'.memory slot = s.memory slot
  temps  : ∀ p, (s.temps p).isSome → (s'.temps p).isSome

section Untouched

variable {A : Mpfr V D} {B : Doubles D} {s s' s'' : State V D} {slot : Nat}

namespace State.Untouched

theorem refl : s.Untouched slot s :=
  ⟨rfl, fun _ h => h⟩

theorem trans (h₁ : s.Untouched slot s') (h₂ : s'.Untouched slot s'') : s.Untouched slot s'' :=
  ⟨h₂.memory.trans h₁.memory, fun p hp => h₂.temps p (h₁.temps p hp)⟩

theorem write (p : Ptr) (e : TempEntry V D) : s.Untouched slot (s.write p e) := by
  refine ⟨rfl, fun q hq => ?_⟩
  by_cases hqp : q = p
  case pos => simp [State.write, hqp]
  case neg => simpa [State.write, hqp] using hq

theorem record (p : Ptr) (e : TempEntry V D) : s.Untouched slot (s.record p e) :=
  have h : s.Untouched slot (s.write p e) := write p e
  ⟨h.memory, h.temps⟩

theorem setShadow {addr : Nat} {e : SmemEntry V D} (h : getShadowaddress addr ≠ slot) :
    s.Untouched slot (s.setShadow addr e) :=
  ⟨Function.update_of_ne (Ne.symm h) _ _, fun _ hp => hp⟩

theorem memset {addr : Nat} {d : D} {i instId n : Nat}
    (h : ∀ k < n, getShadowaddress (addr + (i + k)) ≠ slot) :
    s.Untouched slot (handleMemset A addr d instId i n s) := by
  induction n generalizing s i with
  | zero      => exact refl
  | succ n ih =>
    refine (setShadow (h 0 (Nat.succ_pos n))).trans (ih fun k hk => ?_)
    have := h (k + 1) (Nat.succ_lt_succ hk)
    rwa [Nat.add_comm k 1, ← Nat.add_assoc i 1 k] at this

theorem initShadow {addr : Nat} (h : getShadowaddress addr ≠ slot) :
    s.Untouched slot (s.initShadow A addr) := by
  rw [State.initShadow]
  split
  · exact refl
  · exact setShadow h

theorem memcpy {addr source : Nat} {i n : Nat}
    (h : ∀ k < n, getShadowaddress (addr + (i + k)) ≠ slot) :
    s.Untouched slot (handleMemcpy A addr source i n s) := by
  induction n generalizing s i with
  | zero      => exact refl
  | succ n ih =>
    have hi : s.Untouched slot (s.initShadow A (addr + i)) := initShadow (h 0 (Nat.succ_pos n))
    rw [handleMemcpy]
    split
    case isFalse => exact hi
    case isTrue =>
      refine hi.trans ((setShadow (h 0 (Nat.succ_pos n))).trans (ih fun k hk => ?_))
      have := h (k + 1) (Nat.succ_lt_succ hk)
      rwa [Nat.add_comm k 1, ← Nat.add_assoc i 1 k] at this

end State.Untouched

theorem Call.untouched {k : Call V D} (h : ¬k.Touches slot) (e : k.exec A B s = some s') :
    s.Untouched slot s' := by
  cases outcome e with
  | none | storeNone     => exact .refl
  | write                => exact .write _ _
  | record               => exact .record _ _
  | store | storeConst   => exact .setShadow h
  | memset               => exact .memset fun k hk hs => h ⟨k, hk, by rwa [Nat.zero_add] at hs⟩
  | memcpy               => exact .memcpy fun k hk hs => h ⟨k, hk, by rwa [Nat.zero_add] at hs⟩

theorem Act.untouched {a : Act V D} {c c' : Config V D} (h : ¬a.Touches slot)
    (e : exec A B a c = some c') :
    c.toState.Untouched slot c'.toState := by
  obtain ⟨rfl, rfl⟩ | ⟨rfl, -, rfl⟩ | ⟨k, s, rfl, -, hs, rfl⟩ := exec_cases e
  · exact ⟨rfl, fun _ hp => hp⟩
  · exact ⟨rfl, fun _ hp => hp⟩
  · exact k.untouched h hs

-- Induction over the steps of a run.
theorem untouched_of_exec {acts : List (Act V D)} {c c' : Config V D}
    (h : ∀ a ∈ acts, ¬a.Touches slot) (e : (machine A B).exec acts c = some c') :
    c.toState.Untouched slot c'.toState := by
  induction acts generalizing c with
  | nil => cases e; exact .refl
  | cons a acts ih =>
    obtain ⟨c₁, h₁, e⟩ := Option.bind_eq_some_iff.mp e
    exact (a.untouched (h a (by simp)) h₁).trans (ih (fun b hb => h b (by simp [hb])) e)

-- An entry with a record whose temporary has been written.
structure Holds (s : State V D) (addr : Nat) (r : Record V D) : Prop where
  isInit : (s.shadow addr).isInit
  record : (s.shadow addr).toRecord = r
  tmpPtr : ∀ t ∈ (s.shadow addr).tmpPtr, (s.temps t).isSome

theorem Holds.later {addr : Nat} {r : Record V D} (h : Holds s addr r)
    (hu : s.Untouched (getShadowaddress addr) s') : Holds s' addr r := by
  have hs : s'.shadow addr = s.shadow addr := hu.memory
  exact ⟨hs ▸ h.isInit, hs ▸ h.record, fun t ht => hu.temps t (h.tmpPtr t (hs ▸ ht))⟩

theorem holds_setShadow {addr a : Nat} {e : SmemEntry V D}
    (h : getShadowaddress a = getShadowaddress addr) (hi : e.isInit)
    (ht : ∀ t ∈ e.tmpPtr, (s.temps t).isSome) : Holds (s.setShadow a e) addr e.toRecord := by
  have hs : (s.setShadow a e).shadow addr = e := by simp [State.shadow, State.setShadow, h]
  exact ⟨hs.symm ▸ hi, by rw [hs], fun t hm => ht t (hs ▸ hm)⟩

-- What a store records is in the shadow memory.
theorem holds_of_stored {k : Call V D} {addr : Nat} {r : Record V D}
    (hk : k.Touches (getShadowaddress addr)) (hr : r ∈ k.stored A s) (e : k.exec A B s = some s') :
    Holds s' addr r := by
  cases k with
  | store a p =>
    cases p with
    | none   => cases hr
    | some p =>
      obtain ⟨e₁, he, rfl⟩ := Option.map_eq_some_iff.mp hr
      obtain ⟨e₂, he₂, e⟩ := Option.bind_eq_some_iff.mp e
      obtain rfl : e₁ = e₂ := Option.some.inj (he.symm.trans he₂)
      cases e
      refine holds_setShadow hk rfl fun t ht => ?_
      obtain rfl : p = t := Option.some.inj ht
      exact Option.isSome_of_eq_some he
  | storeConst a d i =>
    cases e
    cases hr
    exact holds_setShadow hk rfl fun t ht => nomatch ht
  | _ => cases hr

-- What a load makes of a record: where the value of the program differs from the one in the record,
-- it takes that of the program.
def loaded (A : Mpfr V D) (B : Doubles D) (val : D) (instId : Nat) (r : Record V D) : Record V D :=
  if B.ne val r.computed then .constant A val instId else r

theorem load_of_holds {addr : Nat} {r : Record V D} (h : Holds s addr r) (val : D) (p : Ptr)
    (i : Nat) :
    ∃ s', loadShadow A B addr val (some p) i s = some s' ∧
      (s'.temps p).map TempEntry.toRecord = some (loaded A B val i r) := by
  have hw : ∀ (e : TempEntry V D), ((s.write p e).temps p).map TempEntry.toRecord =
      some e.toRecord := by
    intro e
    simp [State.write]
  have hc : B.ne val (s.shadow addr).computed = B.ne val r.computed := by rw [← h.record]; rfl
  simp only [loadShadow, loaded, h.isInit, Bool.not_true, Bool.false_or, hc]
  cases B.ne val r.computed with
  | true  => exact ⟨_, rfl, hw _⟩
  | false =>
    simp only [Bool.false_eq_true, if_false]
    split
    · exact ⟨_, rfl, (hw _).trans (congrArg some h.record)⟩
    case h_2 t ht =>
      split
      · obtain ⟨e', he'⟩ := Option.isSome_iff_exists.mp (h.tmpPtr t ht)
        rw [he']
        exact ⟨_, rfl, (hw _).trans (congrArg some h.record)⟩
      · exact ⟨_, rfl, (hw _).trans (congrArg some h.record)⟩

-- A value is kept by a store and a load if its record is in the temporary that is loaded.
def Kept (A : Mpfr V D) (B : Doubles D) (k : Call V D) (s : State V D) (addr : Nat) (val : D)
    (p : Ptr) (instId : Nat) (s' : State V D) : Prop :=
  ∃ r ∈ k.stored A s, ∃ s'', loadShadow A B addr val (some p) instId s' = some s'' ∧
    (s''.temps p).map TempEntry.toRecord = some r

-- The program value passes the test of the load, or the record is what the
-- load makes of that value.
def Keeps (A : Mpfr V D) (B : Doubles D) (val : D) (instId : Nat) (r : Record V D) : Prop :=
  B.ne val r.computed = false ∨ r = .constant A val instId

theorem loaded_eq_iff {val : D} {instId : Nat} {r : Record V D} :
    loaded A B val instId r = r ↔ Keeps A B val instId r := by
  rw [loaded, Keeps]
  cases B.ne val r.computed with
  | true  => simp [eq_comm]
  | false => simp

theorem kept_iff_keeps {k : Call V D} {acts : List (Act V D)} {c c' : Config V D} {addr : Nat}
    (hk : k.Touches (getShadowaddress addr)) (hu : ∀ a ∈ acts, ¬a.Touches (getShadowaddress addr))
    (e : (machine A B).exec (.call k :: acts) c = some c') (val : D) (p : Ptr) (i : Nat) :
    Kept A B k c.toState addr val p i c'.toState ↔
    ∃ r ∈ k.stored A c.toState, Keeps A B val i r := by
  obtain ⟨c₁, h₁, e⟩ := Option.bind_eq_some_iff.mp e
  simp only [machine, exec] at h₁
  split at h₁
  case isFalse => cases h₁
  case isTrue =>
    obtain ⟨s₁, hs, rfl⟩ := Option.map_eq_some_iff.mp h₁
    refine exists_congr fun r => and_congr_right fun hr => ?_
    have hl := (holds_of_stored hk hr hs).later (untouched_of_exec hu e)
    obtain ⟨s', hs', hp⟩ := load_of_holds (A := A) (B := B) hl val p i
    rw [← loaded_eq_iff]
    constructor
    · rintro ⟨s'', he, h⟩
      obtain rfl : s' = s'' := Option.some.inj (hs'.symm.trans he)
      exact Option.some.inj (hp.symm.trans h)
    · intro h
      exact ⟨s', hs', hp.trans (congrArg some h)⟩

end Untouched

end Metadata
