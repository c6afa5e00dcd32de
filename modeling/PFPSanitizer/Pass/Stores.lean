import PFPSanitizer.Pass.Operands
import PFPSanitizer.Runtime.RoundTrip

-- What an instrumented store records for the loads that come after it.
namespace Pass

open Metadata (Act Call Config Doubles Kept Keeps Libm Mpfr Record State getShadowaddress)

section

variable {V D : Type} (M : Module) (F : Body) (R : Registers) (value : Operand → D)

-- The call that `handleStore` inserts, with the address that is read and the values of the operands
-- in the clone.
def storeCall (x : Site × Inst) (addr instId : Nat) : Option (Call V D) :=
  match x.snd.op with
  | .store v _ =>
    if handled M F x && ((F.typeOf v).isFloatType || (F.typeOf v).isMPtrTy) then
      some <| match operandMeta M F (before x.fst) v with
        | some m => .store addr (R.get F m)
        | none   => .storeConst addr (value v) instId
    else none
  | _ => none

end

section Stores

variable {V D : Type} {M : Module} {F : Body} {R : Registers} {value : Operand → D}
  {x : Site × Inst} {v w : Operand}
variable {addr instId : Nat} {k : Call V D}

-- The runtime function of a call of a store.
def storeName (F : Body) (v : Operand) : Call V D → String
  | .store _ _ => "fpsan_store_shadow"
  | _          =>
    if (F.typeOf v).isFloat then "fpsan_store_shadow_fconst" else "fpsan_store_shadow_dconst"

theorem handleStore_eq (ho : x.snd.op = .store v w) :
    Emit.handleStore M F x v =
      ((storeCall M F R value x addr instId : Option (Call V D)).toList.map fun k =>
        .call (storeName F v k)) := by
  simp only [Emit.handleStore, storeCall, ho, ← operandMeta_isSome, Bool.and_eq_true]
  by_cases hh : handled M F x = true
  case neg => simp [hh]
  case pos =>
    by_cases ht : ((F.typeOf v).isFloatType || (F.typeOf v).isMPtrTy) = true
    case neg => simp [hh, ht]
    case pos =>
      simp only [hh, ht, and_self, if_true]
      cases operandMeta M F (before x.fst) v with
      | some m => simp [storeName]
      | none   => cases hf : (F.typeOf v).isFloat <;> simp [storeName, hf]

theorem storeCall_touches (hk : storeCall M F R value x addr instId = some k) :
    k.Touches (getShadowaddress addr) := by
  rw [storeCall] at hk
  split at hk
  · split at hk
    · cases hk
      split <;> rfl
    · cases hk
  · cases hk

-- A value survives the shadow memory exactly if the program value that the load compares is the
-- `computed` that the store recorded.
theorem kept_iff (hk : storeCall M F R value x addr instId = some k)
    (hu : ∀ a ∈ acts, ¬a.Touches (getShadowaddress addr))
    (e : (Metadata.machine A B).exec (.call k :: acts) c = some c') (val : D) (p : Metadata.Ptr)
    (i : Nat) :
    Kept A B k c.toState addr val p i c'.toState ↔ ∃ r ∈ k.stored A c.toState, Keeps A B val i r :=
  Metadata.kept_iff_keeps (storeCall_touches hk) hu e val p i

-- A store of a cast records the `computed` of the value below it, in the type of that value.
theorem kept_cast_iff (hk : storeCall M F R value x addr instId = some k)
    (ho : x.snd.op = .store v w) (hu : ∀ a ∈ acts, ¬a.Touches (getShadowaddress addr))
    (e : (Metadata.machine A B).exec (.call k :: acts) c = some c') {u : Operand}
    (hv : F.cast? v = some u) (ht : (F.typeOf v).isMPtrTy = false) {m : Meta}
    (hm : operandMeta.through M F (before x.fst) u = some m) {q : Metadata.Ptr}
    (hq : R.get F m = some q) {t : Metadata.TempEntry V D} (he : c.temps q = some t) (val : D)
    (p : Metadata.Ptr) (i : Nat) :
    Kept A B k c.toState addr val p i c'.toState ↔ Keeps A B val i t.toRecord := by
  rw [Metadata.kept_iff_keeps (storeCall_touches hk) hu e]
  have hs : k.stored A c.toState = some t.toRecord := by
    simp only [storeCall, ho, operandMeta_cast hv ht, hm] at hk
    split at hk
    · cases hk
      simp [Call.stored, hq, he]
    · cases hk
  simp [hs]

end Stores

-- A double that is stored as a float and loaded again.
def narrow : Function where
  name    := "narrow"
  params  := [⟨"x", .double⟩, ⟨"p", .ptr .float⟩]
  blocks  := [⟨"entry", [⟨"conv", .float, .fptrunc (.arg 0)⟩,
    ⟨"", .void, .store (.inst ⟨0, 0⟩) (.arg 1)⟩,
    ⟨"y", .float, .load (.arg 1)⟩,
    ⟨"", .void, .ret none⟩]⟩]
  typed   := by simp [Body.insts, Body.block]
  noMeta  := by simp [Ty.isMPtrTy]
  foreign := by simp [Body.insts, Body.block, Body.typeOf, Op.operands, Body.inst?, Ty.isMPtrTy]
  ordered := by simp [Body.insts, Body.block, Op.condition?]
  memory  := by simp [Body.insts, Body.block]
  unnamed := by simp [Body.insts, Body.block]

-- Its argument is a temporary of the caller.
def narrowRegisters : Registers where
  self      := ⟨3, 1⟩
  value _   := some ⟨⟨2, 0⟩, 0⟩
  pointer _ := none

-- The doubles and floats at the first integer that is no float.
def integers : Libm Nat where
  __      := (default : Libm Nat)
  toFloat := fun n => if n = 16777217 then 16777216 else n
  ne      := (· != ·)

def integersMpfr : Mpfr Nat Nat where
  __   := (default : Mpfr Nat Nat)
  setD := id

def callNarrow (x : Nat) : List (Act Nat Nat) :=
  [.enter, .call (.const ⟨⟨2, 0⟩, 0⟩ x 0), .enter]

def narrowStore : Site × Inst :=
  (⟨0, 1⟩, ⟨"", .void, .store (.inst ⟨0, 0⟩) (.arg 1)⟩)

-- A float survives.
theorem kept_narrow_of_float :
    let M := integersMpfr
    let L := integers.toDoubles
    ∃ k c c', storeCall ⟨[narrow], [], [], [], []⟩ (cloneFunction narrow.toBody) narrowRegisters
      (fun _ => 2) narrowStore 64 7 =
        some k ∧ (Metadata.machine M L).exec (callNarrow 2) (Metadata.machine M L).init = some c ∧
      (Metadata.machine M L).exec [.call k] c = some c' ∧
        Kept M L k c.toState 64 2 ⟨⟨3, 1⟩, 0⟩ 8 c'.toState := by
  intro M L
  have hk : storeCall ⟨[narrow], [], [], [], []⟩ (cloneFunction narrow.toBody) narrowRegisters
    (fun _ => 2) narrowStore 64 7 =
      some (.store 64 (some ⟨⟨2, 0⟩, 0⟩) : Call Nat Nat) := rfl
  exact ⟨_, _, _, hk, rfl, rfl,
    (kept_iff hk (List.forall_mem_nil _) rfl 2 _ 8).mpr ⟨_, rfl, .inl rfl⟩⟩

-- Its rounding does not.
theorem not_kept_narrow :
    ¬∀ (V D : Type) (A : Mpfr V D) (L : Libm D) (M : Module) (F : Function) (R : Registers)
      (value : Operand → D) (x : Site × Inst) (v w : Operand) (addr instId : Nat)
      (k : Call V D) (acts : List (Act V D)) (c c' : Config V D),
      x ∈ F.insts → x.snd.op = .store v w →
      storeCall M (cloneFunction F.toBody) R value x addr instId = some k →
      (∀ a ∈ acts, ¬a.Touches (getShadowaddress addr)) →
      (Metadata.machine A L.toDoubles).Reachable c →
      (Metadata.machine A L.toDoubles).exec (.call k :: acts) c = some c' →
      -- The program casts values, and the metadata of its arguments has their values.
      (∀ v u, F.cast? v = some u → value v = if (F.typeOf v).isFloat then L.toFloat (value u)
        else value u) →
      (∀ n q e, R.value (.arg n) = some q → c.temps q = some e → e.computed = value (.arg n)) →
      ∀ p i, Kept A L.toDoubles k c.toState addr (value v) p i c'.toState := by
  intro h
  let M := Metadata.machine integersMpfr integers.toDoubles
  let value : Operand → Nat := fun v => if v.isArg then 16777217 else 16777216
  have hx : narrowStore ∈ narrow.insts := by simp [narrowStore, narrow, Body.insts, Body.block]
  have hv : ∀ v u, narrow.cast? v = some u →
      value v = if (narrow.typeOf v).isFloat then integers.toFloat (value u) else value u := by
    intro v u hc
    obtain ⟨s, I, rfl, hI, ho⟩ := narrow.cast?_eq_some hc
    have hm := narrow.mem_insts.mpr hI
    simp only [narrow, Body.insts, Body.block, List.length_singleton, List.range_one,
      List.flatMap_singleton, List.getElem?_cons_zero, Option.elim, List.mapIdx_cons,
      List.mapIdx_nil, List.mem_cons, Prod.mk.injEq, List.not_mem_nil, or_false] at hm
    obtain ⟨rfl, rfl⟩ | ⟨rfl, rfl⟩ | ⟨rfl, rfl⟩ | ⟨rfl, rfl⟩ := hm <;> simp at ho
    subst ho
    rfl
  have hc : ∀ n q e, narrowRegisters.value (.arg n) = some q →
    (M.after (callNarrow 16777217) rfl).temps q = some e →
      e.computed = value (.arg n) := by
    intro n q e hq he
    cases hq
    cases he
    rfl
  obtain ⟨r, hr, s, hs, hp⟩ :=
    h Nat Nat integersMpfr integers ⟨[narrow], [], [], [], []⟩ narrow narrowRegisters value
    narrowStore _ _ 64 7 _ [] _ _ hx rfl rfl (List.forall_mem_nil _)
      (M.reachable_after (callNarrow 16777217) rfl) rfl
    hv hc ⟨⟨3, 1⟩, 0⟩ 8
  cases hr
  cases hs
  exact absurd (congrArg (·.map Record.val) hp) (by decide)

end Pass
