import PFPSanitizer.Lib.Growing
import PFPSanitizer.Pass.Returns
import PFPSanitizer.Pass.Execution
import Mathlib.Algebra.Order.BigOperators.Group.List
import Mathlib.Algebra.Order.Ring.Nat

-- The slots that `createMpfrAlloca` makes in a clone.
namespace Pass

-- A function whose blocks end with terminators.
structure Terminated extends Body where
  ends : ∀ B ∈ blocks, ∃ I ∈ B.insts.getLast?, I.op.isTerminator

namespace Slots

section Total

variable (M : Module) (F : Body)

-- The call of a function that is not in `mathFunc.txt`.
def opCall (v : Operand) : Bool :=
  F.callee? v |>.any (· ∉ M.mathFunc)

-- What `getTotalFPInst` adds for an instruction.
def fpSlots (x : Site × Inst) : Nat :=
  match x.snd.op with
  | .fneg _                      => 1
  | .binary _ l r                => 1 + [l, r].countP Operand.isConstantFP
  | .sitofp _ | .uitofp _        => 1
  | .bitcast _ | .load _         => if x.snd.ty.isFloatType then 1 else 0
  | .fcmp l r                    => [l, r].countP fun v => v.isConstantFP || opCall M F v
  | .call _ args | .icall _ args =>
    (if x.snd.ty.isFloatType then 1 else 0) + args.countP Operand.isConstantFP
  | .select _ l r                =>
    if x.snd.ty.isFloatType then [l, r].countP Operand.isConstantFP else 0
  | .phi vs                      =>
    (if x.snd.ty.isFloatType then 1 else 0) + vs.countP fun v =>
      !v.fst.isInst x.fst && v.fst.isConstantFP
  | .ret v                       =>
    v.toList.countP fun v => (F.typeOf v).isFloatType && v.isConstantFP
  | _                            => 0

def getTotalFPInst : Nat :=
  (F.insts.map (fpSlots M F)).sum

end Total

-- The instructions that `createGEP` inserts. Of their operands the constants are kept, which it
-- looks at when it comes to them.
namespace Emit

def runtime (callee : String) (args : List Operand) : Inst where
  name := ""
  ty   := .void
  op   := .call callee args

def slot : List Inst :=
  [{ name := "my_gep", ty := .mptr, op := .rest [] }, runtime "fpsanx_init_mpfr" []]

def storeTempmetaConstVal (v : Operand) : Inst :=
  match v with
  | .const .float _ => runtime "fpsanx_store_tempmeta_fconst_val" [v]
  | _               => runtime "fpsanx_store_tempmeta_dconst_val" [v]

-- In front of `Next`.
def atNext (I : Inst) : List Inst :=
  (if I.ownsTemp then slot else []) ++ I.constants.flatMap fun v =>
    slot ++ [storeTempmetaConstVal v]

-- Behind a conversion. What is read from the buffer in front of it is not visited.
def behind (I : Inst) : List Inst :=
  match I.op with
  | .sitofp _ | .uitofp _ => converted I
  | .bitcast _            => if I.ty.isFloatType then converted I else []
  | _                     => []
where
  converted (I : Inst) : List Inst :=
    if I.ty.isFloat then
      [{ name := "", ty := .float, op := .fptrunc (.undef .double) },
        runtime "fpsanx_store_tempmeta_fconst" []]
    else [runtime "fpsanx_store_tempmeta_dconst" []]

-- In front of `End`.
def atEnd (I : Inst) : List Inst :=
  List.replicate ((if I.ownsTemp then 1 else 0) + I.constants.length)
    (runtime "fpsanx_clear_mpfr" [])

end Emit

abbrev SlotItem := Weave.Item (Site × Inst) Inst

namespace SlotItem

def isAt (s : Site) : SlotItem → Bool
  | .inst (t, _) => s = t
  | .op _        => false

def toInst : SlotItem → Inst
  | .inst (_, I) => I
  | .op I        => I

-- What the slots of an instruction are for: its result, if it has a place in the
-- function, and its constants.
def keys (x : SlotItem) : List (Option Temp) :=
  (if x.toInst.ownsTemp then [result x] else []) ++ x.toInst.constants.map Operand.temp?
where
  result : SlotItem → Option Temp
    | .inst (s, _) => some (.inst s)
    | .op _        => none

end SlotItem

-- The next index, and the slots in `GEPMap` and `ConsMap`.
structure Gep where
  index : Nat
  slots : List (Option Temp × Nat)

namespace Gep

def assign (g : Gep) (t : Option Temp) : Gep where
  index := g.index + 1
  slots := g.slots ++ [(t, g.index)]

def visit (g : Gep) (x : SlotItem) : Gep :=
  (SlotItem.keys x).foldl assign g

end Gep

section Code

variable (M : Module) (F : Body)

-- The last call in the entry that gets a buffer or starts a slice.
def first? : Option Site :=
  ((F.block 0).filter fun x => isGet x.snd).getLast?.map Prod.fst
where
  isGet (I : Inst) : Bool :=
    match I.op with
    | .call g _ => startswith g "fpsanx_get" || startswith g "start_slice"
    | _         => false

def nextOf (first : Site) : Site where
  block := first.block
  idx   := first.idx + 1

def createAlloca (next : Site) : List SlotItem :=
  Weave.insertBefore (SlotItem.isAt next)
    [{ name := "my_alloca", ty := .ptr .mptr, op := .rest [] }] (Weave.code F.insts)

-- What is ahead when an instruction has been visited. What is inserted in front of `Next` or `End`
-- comes behind the walk if these do.
def grow (next last : Site) (x : SlotItem) (l : List SlotItem) : List SlotItem :=
  Weave.insertBefore (SlotItem.isAt last) (Emit.atEnd (SlotItem.toInst x)) <|
    Weave.insertBefore (SlotItem.isAt next) (Emit.atNext (SlotItem.toInst x)) <|
      (Emit.behind (SlotItem.toInst x)).map .op ++ l

def createGEP (next last : Site) (n : Nat) : Option Gep :=
  Growing.walk (grow next last) Gep.visit n (createAlloca F next) { index := 0, slots := [] }

-- Nothing is made where there is nothing to count. Without a call to insert the array
-- behind, without a return to clear the slots in front of, or without an index of the buffer
-- the result is not defined.
def createMpfrAlloca (n : Nat) : Option Gep :=
  if 0 < getTotalFPInst M F then do
    let first ← first? F
    let last ← (returns F).getLast?
    if indexed F then createGEP F (nextOf first) last n else none
  else some { index := 0, slots := [] }

-- The instructions whose slot the handlers look up.
def needsSlot (I : Inst) : Bool :=
  match I.op with
  | .binary _ _ _ | .fneg _                   => true
  | .load _ | .phi _ | .call _ _ | .icall _ _ => I.ty.isFloatType
  | _                                         => false

structure Allotted (g : Gep) : Prop where
  distinct : (g.slots.map Prod.snd).Nodup
  bounded  : ∀ x ∈ g.slots, x.snd < getTotalFPInst M F
  found    : ∀ x ∈ F.insts, needsSlot x.snd → ∃ i, (some (.inst x.fst), i) ∈ g.slots

-- The slots are made, and they are right.
structure Allots : Prop where
  made  : ∃ n, (createMpfrAlloca M F n).isSome
  right : ∀ n g, createMpfrAlloca M F n = some g → Allotted M F g

-- There is nothing to count, or there is a return, and no instruction in front of
-- the array has a constant.
def Allottable : Prop :=
  getTotalFPInst M F = 0 ∨
  indexed F ∧ returns F ≠ [] ∧ ∃ s ∈ first? F, ∀ x ∈ F.block 0, x.fst.idx ≤ s.idx →
    x.snd.constants = []

end Code

section Quiet

-- An instruction for which the visit makes nothing.
structure Quiet (I : Inst) : Prop where
  owns      : I.ownsTemp = false
  constants : I.constants = []

variable {I : Inst}

theorem quiet_runtime (g : String) : Quiet (Emit.runtime g []) :=
  ⟨rfl, rfl⟩

theorem quiet_slot : ∀ e ∈ Emit.slot, Quiet e := by
  intro e he
  obtain rfl | he := List.mem_cons.mp he
  · exact ⟨rfl, rfl⟩
  · rw [List.mem_singleton.mp he]
    exact quiet_runtime _

theorem quiet_behind : ∀ e ∈ Emit.behind I, Quiet e := by
  have hc : ∀ e ∈ Emit.behind.converted I, Quiet e := by
    intro e he
    rw [Emit.behind.converted] at he
    split at he
    · obtain rfl | he := List.mem_cons.mp he
      · exact ⟨rfl, rfl⟩
      · rw [List.mem_singleton.mp he]
        exact quiet_runtime _
    · rw [List.mem_singleton.mp he]
      exact quiet_runtime _
  intro e he
  rw [Emit.behind] at he
  split at he
  case h_1 | h_2 => exact hc e he
  case h_3       =>
    split at he
    · exact hc e he
    · cases he
  case h_4       => cases he

theorem quiet_atEnd : ∀ e ∈ Emit.atEnd I, Quiet e := by
  intro e he
  rw [List.eq_of_mem_replicate he]
  exact quiet_runtime _

theorem constants_storeTempmetaConstVal {v : Operand} (h : v.isConstantFP) :
    (Emit.storeTempmetaConstVal v).constants = [v] := by
  have hr : ∀ g, (Emit.runtime g [v]).constants = [v] := fun g => List.filter_cons_of_pos h
  unfold Emit.storeTempmetaConstVal
  split <;> exact hr _

theorem isConstantFP_of_mem {v : Operand} (h : v ∈ I.constants) : v.isConstantFP :=
  (List.mem_filter.mp h).right

theorem quiet_atNext (h : I.constants = []) : ∀ e ∈ Emit.atNext I, Quiet e := by
  intro e he
  rw [Emit.atNext, h, List.flatMap_nil, List.append_nil] at he
  split at he
  · exact quiet_slot e he
  · cases he

-- What is inserted for a constant is a call with that constant.
theorem atNext_iff : (∀ e ∈ Emit.atNext I, e.constants = []) ↔ I.constants = [] := by
  constructor
  · intro h
    by_contra hn
    obtain ⟨v, hv⟩ := List.exists_mem_of_ne_nil _ hn
    have hm : Emit.storeTempmetaConstVal v ∈ Emit.atNext I :=
      List.mem_append_right _ (List.mem_flatMap.mpr ⟨v, hv, by simp⟩)
    have hc := constants_storeTempmetaConstVal (isConstantFP_of_mem hv)
    rw [h _ hm] at hc
    cases hc
  · exact fun h e he => (quiet_atNext h e he).constants

variable {e : Inst}

theorem Quiet.visit (h : Quiet e) (g : Gep) : g.visit (.op e) = g := by
  simp [Gep.visit, SlotItem.keys, SlotItem.toInst, h.owns, h.constants]

theorem Quiet.atNext (h : Quiet e) : Emit.atNext e = [] := by
  rw [Emit.atNext, h.owns, h.constants]
  rfl

theorem Quiet.atEnd (h : Quiet e) : Emit.atEnd e = [] := by
  rw [Emit.atEnd, h.owns, h.constants]
  rfl

theorem Quiet.behind (h : Quiet e) : Emit.behind e = [] := by
  have ho := h.owns
  rw [Inst.ownsTemp] at ho
  rw [Emit.behind]
  split
  case h_1 he | h_2 he => simp [he] at ho
  case h_3 he          =>
    rw [if_neg]
    simpa [he] using ho
  case h_4             => rfl

end Quiet

section Grow

open Weave (insertBefore)

variable {next last s : Site} {p : SlotItem → Bool} {es : List Inst} {x : SlotItem}
  {l : List SlotItem}

-- No instruction in front of `next` has a constant.
def Plain (next : Site) : List SlotItem → Prop
  | []     => True
  | x :: l => (l.any (SlotItem.isAt next) → (SlotItem.toInst x).constants = []) ∧ Plain next l

@[simp]
theorem any_isAt_ops :
    (es.map Weave.Item.op ++ l).any (SlotItem.isAt s) = l.any (SlotItem.isAt s) := by
  rw [List.any_append, List.any_map]
  induction es with
  | nil          => rfl
  | cons e es ih => exact ih

@[simp]
theorem any_isAt_insertBefore :
    (insertBefore p es l).any (SlotItem.isAt s) = l.any (SlotItem.isAt s) := by
  rw [Weave.any_insertBefore]
  simp [SlotItem.isAt]

theorem plain_ops : Plain next (es.map Weave.Item.op ++ l) ↔
    (l.any (SlotItem.isAt next) → ∀ e ∈ es, e.constants = []) ∧ Plain next l := by
  induction es with
  | nil          => simp
  | cons e es ih =>
    rw [List.map_cons, List.cons_append, Plain, any_isAt_ops, ih, List.forall_mem_cons]
    tauto

theorem plain_insertBefore (h : ∀ e ∈ es, Quiet e) :
    Plain next (insertBefore p es l) ↔ Plain next l := by
  induction l with
  | nil         => rfl
  | cons x l ih =>
    rw [insertBefore]
    split
    · rw [plain_ops, and_iff_right fun _ e he => (h e he).constants]
    · rw [Plain, any_isAt_insertBefore, ih, Plain]

theorem plain_insertBefore_next : Plain next (insertBefore (SlotItem.isAt next) es l) ↔
    (l.any (SlotItem.isAt next) → ∀ e ∈ es, e.constants = []) ∧ Plain next l := by
  induction l with
  | nil         => simp [insertBefore]
  | cons x l ih =>
    rw [insertBefore]
    split
    case isTrue hx  => exact plain_ops
    case isFalse hx =>
      rw [Plain, any_isAt_insertBefore, ih, Plain, List.any_cons, Bool.eq_false_iff.mpr hx,
        Bool.false_or]
      tauto

-- The walk can only loop if it did so before.
theorem plain_grow : Plain next (grow next last x l) ↔ Plain next (x :: l) := by
  rw [grow, plain_insertBefore quiet_atEnd, plain_insertBefore_next, any_isAt_ops, plain_ops,
    atNext_iff, Plain]
  exact and_congr_right fun _ => and_iff_right fun _ e he => (quiet_behind e he).constants

theorem foldl_ops (h : ∀ e ∈ es, Quiet e) (g : Gep) :
    (es.map Weave.Item.op ++ l).foldl Gep.visit g = l.foldl Gep.visit g := by
  induction es with
  | nil          => rfl
  | cons e es ih =>
    obtain ⟨he, hes⟩ := List.forall_mem_cons.mp h
    rw [List.map_cons, List.cons_append, List.foldl_cons, he.visit, ih hes]

theorem foldl_insertBefore (h : ∀ e ∈ es, Quiet e) (g : Gep) :
    (insertBefore p es l).foldl Gep.visit g = l.foldl Gep.visit g := by
  induction l generalizing g with
  | nil         => rfl
  | cons x l ih =>
    rw [insertBefore]
    split
    · exact foldl_ops h g
    · exact ih (g.visit x)

theorem foldl_grow (h : Plain next (x :: l)) (g : Gep) :
    (grow next last x l).foldl Gep.visit g = l.foldl Gep.visit g := by
  rw [grow, foldl_insertBefore quiet_atEnd]
  cases ha : l.any (SlotItem.isAt next) with
  | true  => rw [foldl_insertBefore (quiet_atNext (h.left ha)), foldl_ops quiet_behind]
  | false =>
    rw [Weave.insertBefore_of_not_any, foldl_ops quiet_behind]
    rwa [any_isAt_ops]

-- The visits that an instruction causes, its own one among them.
def weight (x : SlotItem) : Nat :=
  1 + (Emit.atNext (SlotItem.toInst x)).length + (Emit.behind (SlotItem.toInst x)).length +
    (Emit.atEnd (SlotItem.toInst x)).length

def visits (l : List SlotItem) : Nat :=
  (l.map weight).sum

theorem visits_cons : visits (x :: l) = weight x + visits l :=
  List.sum_cons

theorem visits_ops (h : ∀ e ∈ es, Quiet e) :
    visits (es.map Weave.Item.op ++ l) = es.length + visits l := by
  induction es with
  | nil          => rw [List.map_nil, List.nil_append, List.length_nil, Nat.zero_add]
  | cons e es ih =>
    obtain ⟨he, hes⟩ := List.forall_mem_cons.mp h
    have hw : weight (.op e) = 1 := by
      simp [weight, SlotItem.toInst, he.atNext, he.behind, he.atEnd]
    rw [List.map_cons, List.cons_append, visits_cons, ih hes, hw, List.length_cons]
    omega

theorem visits_insertBefore (h : ∀ e ∈ es, Quiet e) :
    visits (insertBefore p es l) ≤ es.length + visits l := by
  induction l with
  | nil         => exact Nat.zero_le _
  | cons x l ih =>
    rw [insertBefore]
    split
    · exact Nat.le_of_eq (visits_ops h)
    · rw [visits_cons, visits_cons]
      omega

theorem visits_grow (h : Plain next (x :: l)) : visits (grow next last x l) < visits (x :: l) := by
  have he := visits_insertBefore (p := SlotItem.isAt last)
    (l := insertBefore (SlotItem.isAt next) (Emit.atNext (SlotItem.toInst x))
      ((Emit.behind (SlotItem.toInst x)).map .op ++ l)) (quiet_atEnd (I := SlotItem.toInst x))
  have hn : visits (insertBefore (SlotItem.isAt next) (Emit.atNext (SlotItem.toInst x))
      ((Emit.behind (SlotItem.toInst x)).map .op ++ l)) ≤
      (Emit.atNext (SlotItem.toInst x)).length +
        ((Emit.behind (SlotItem.toInst x)).length + visits l) := by
    rw [← visits_ops (quiet_behind (I := SlotItem.toInst x))]
    cases ha : l.any (SlotItem.isAt next) with
    | true  => exact visits_insertBefore (quiet_atNext (h.left ha))
    | false =>
      rw [Weave.insertBefore_of_not_any (by rwa [any_isAt_ops])]
      exact Nat.le_add_left _ _
  rw [grow, visits_cons, weight]
  omega

end Grow

section Total

variable {M : Module} {F : Body}

-- Each FP constant has a slot.
theorem map_temp? {vs : List Operand} (h : ∀ v ∈ vs, v.isConstantFP) :
    vs.map Operand.temp? = (vs.filterMap Operand.temp?).map some := by
  induction vs with
  | nil          => rfl
  | cons v vs ih =>
    obtain ⟨hv, hvs⟩ := List.forall_mem_cons.mp h
    cases v with
    | const t n =>
      have ht : (Operand.const t n).temp? = some (.const t.isFloat n) := if_pos hv
      rw [List.map_cons, List.filterMap_cons_some ht, List.map_cons, ht, ih hvs]
    | _         => cases hv

theorem keys_inst (x : Site × Inst) : SlotItem.keys (.inst x) = (x.snd.temps x.fst).map some := by
  have hc := map_temp? fun v (hv : v ∈ x.snd.constants) => isConstantFP_of_mem hv
  rw [Inst.temps, List.map_append, ← hc, SlotItem.keys]
  cases ho : x.snd.ownsTemp <;> simp [SlotItem.toInst, SlotItem.keys.result, ho]

theorem length_temps (x : Site × Inst) :
    (x.snd.temps x.fst).length = (if x.snd.ownsTemp then 1 else 0) + x.snd.constants.length := by
  have hc :=
    congrArg List.length (map_temp? fun v (hv : v ∈ x.snd.constants) => isConstantFP_of_mem hv)
  rw [List.length_map, List.length_map] at hc
  rw [Inst.temps, List.length_append, ← hc]
  cases x.snd.ownsTemp <;> rfl

-- `getTotalFPInst` counts at least the slots of `createGEP`, and more for comparisons
-- with the result of a call.
theorem length_temps_le_fpSlots (x : Site × Inst) : (x.snd.temps x.fst).length ≤ fpSlots M F x := by
  rw [length_temps, Inst.ownsTemp, Inst.constants, ← List.countP_eq_length_filter, fpSlots]
  cases x.snd.op with
  | fcmp l r        =>
    rw [if_neg Bool.false_ne_true, Nat.zero_add]
    exact List.countP_mono_left fun v _ hv => by rw [hv, Bool.true_or]
  | select c l r    =>
    rw [if_neg Bool.false_ne_true, Nat.zero_add]
    cases x.snd.ty.isFloatType <;> exact Nat.le_refl _
  | phi vs          =>
    rw [List.countP_map]
    refine Nat.add_le_add_left (List.countP_mono_left fun v _ hv => ?_) _
    rw [Function.comp_apply] at hv
    rw [hv, Bool.and_true]
    cases hf : v.fst <;> rw [hf] at hv <;> first | rfl | cases hv
  | ret v           =>
    rw [if_neg Bool.false_ne_true, Nat.zero_add]
    refine List.countP_mono_left fun v _ hv => ?_
    rw [hv, Bool.and_true]
    cases v with
    | const t n => exact hv
    | _         => cases hv
  | _               => simp

theorem length_temps_le : (temps F).length ≤ getTotalFPInst M F := by
  rw [temps, List.length_flatMap, getTotalFPInst]
  exact List.sum_le_sum fun x _ => length_temps_le_fpSlots x

end Total

section Assign

variable {M : Module} {F : Body} {next last : Site}

-- The slots come in the order of what they are for.
theorem foldl_assign (g : Gep) (ts : List (Option Temp)) :
    ts.foldl Gep.assign g = { index := g.index + ts.length,
                              slots := g.slots ++ ts.zipIdx g.index } := by
  induction ts generalizing g with
  | nil          => simp
  | cons t ts ih => simp [ih, Gep.assign, Nat.add_comm, Nat.add_left_comm]

theorem foldl_visit (l : List (Site × Inst)) (g : Gep) :
    (Weave.code l).foldl Gep.visit g = ((l.flatMap fun x => x.snd.temps x.fst).map some).foldl
      Gep.assign g := by
  induction l generalizing g with
  | nil         => rfl
  | cons x l ih =>
    rw [List.flatMap_cons, List.map_append, List.foldl_append, ← keys_inst]
    exact ih _

theorem quiet_alloca :
    ∀ e ∈ [({ name := "my_alloca", ty := .ptr .mptr, op := .rest [] } : Inst)], Quiet e :=
  List.forall_mem_singleton.mpr ⟨rfl, rfl⟩

theorem createGEP_eq {n : Nat} {g : Gep} (h : Plain next (createAlloca F next))
    (hg : createGEP F next last n = some g) :
    g = { index := (temps F).length, slots := ((temps F).map some).zipIdx } := by
  rw [Growing.walk_eq (fun _ _ => plain_grow.mpr) (fun _ _ g h => foldl_grow h g) h hg,
    createAlloca, foldl_insertBefore quiet_alloca, foldl_visit, foldl_assign, List.length_map,
    Nat.zero_add, List.nil_append]
  rfl

theorem exists_createGEP (h : Plain next (createAlloca F next)) :
    ∃ n, (createGEP F next last n).isSome :=
  Growing.exists_walk visits (fun _ _ => plain_grow.mpr) (fun _ _ => visits_grow) h

-- A constant in front of `next` is stored by a call in front of `next`, which has a
-- constant. The walk does not end.
theorem plain_of_createGEP {n : Nat} {g : Gep} (h : createGEP F next last n = some g) :
    Plain next (createAlloca F next) := by
  by_contra hn
  have he : createGEP F next last n = none :=
    Growing.walk_eq_none (I := fun l => ¬Plain next l) (not_not.mpr trivial)
      (fun _ _ => plain_grow.not.mpr) hn n
  rw [he] at h
  cases h

end Assign

section Entry

variable {F : Body} {s : Site}

theorem plain_of_not_any {next : Site} {l : List SlotItem}
    (h : l.any (SlotItem.isAt next) = false) : Plain next l := by
  induction l with
  | nil         => trivial
  | cons x l ih =>
    obtain ⟨-, hl⟩ := Bool.or_eq_false_iff.mp h
    exact ⟨fun ha => absurd ha (Bool.eq_false_iff.mp hl), ih hl⟩

theorem plain_append {next : Site} {x : SlotItem} {l l' : List SlotItem} (hx : SlotItem.isAt next x)
    (hl' : l'.any (SlotItem.isAt next) = false) :
    Plain next (l ++ x :: l') ↔ ∀ y ∈ l, (SlotItem.toInst y).constants = [] := by
  induction l with
  | nil         =>
    refine iff_of_true ⟨fun ha => absurd ha (Bool.eq_false_iff.mp hl'), plain_of_not_any hl'⟩
      (List.forall_mem_nil _)
  | cons y l ih =>
    have ha : (l ++ x :: l').any (SlotItem.isAt next) := List.any_eq_true.mpr ⟨x, by simp, hx⟩
    rw [List.cons_append, Plain, ih, List.forall_mem_cons]
    exact and_congr_left fun _ => ⟨fun h => h ha, fun h _ => h⟩

theorem mem_first (h : s ∈ first? F) : ∃ I g args, (s, I) ∈ F.block 0 ∧ I.op = .call g args := by
  obtain ⟨x, hx, rfl⟩ := Option.map_eq_some_iff.mp h
  obtain ⟨hm, hg⟩ := List.mem_filter.mp (List.mem_of_getLast? hx)
  rw [first?.isGet] at hg
  split at hg
  case h_1 g args ho => exact ⟨x.snd, g, args, hm, ho⟩
  case h_2           => cases hg

theorem exists_insts (h : s ∈ first? F) : ∃ l, F.insts = F.block 0 ++ l := by
  obtain ⟨I, g, args, hm, -⟩ := mem_first h
  cases hb : F.blocks with
  | nil       =>
    rw [Body.block, hb] at hm
    cases hm
  | cons B Bs =>
    rw [Body.insts, hb, List.length_cons, List.range_succ_eq_map, List.flatMap_cons]
    exact ⟨_, rfl⟩

-- A call is not the last instruction of its block.
theorem exists_next {F : Terminated} (h : s ∈ first? F.toBody) :
    ∃ J, (nextOf s, J) ∈ F.block 0 := by
  obtain ⟨I, g, args, hm, ho⟩ := mem_first h
  obtain ⟨hb, hI⟩ := F.mem_block.mp hm
  obtain ⟨B, hB, hi⟩ := Option.bind_eq_some_iff.mp hI
  obtain ⟨hlt, hi⟩ := List.getElem?_eq_some_iff.mp hi
  have hn : s.idx + 1 < B.insts.length := by
    refine Nat.lt_of_not_le fun hle => ?_
    obtain ⟨T, hT, ht⟩ := F.ends B (List.mem_of_getElem? hB)
    obtain rfl : I = T := by
      have he : B.insts.length - 1 = s.idx := by omega
      rw [Option.mem_def, List.getLast?_eq_getElem?, he, List.getElem?_eq_getElem hlt, hi] at hT
      exact Option.some.inj hT
    rw [ho] at ht
    cases ht
  refine ⟨B.insts[s.idx + 1], F.mem_block.mpr ⟨hb, ?_⟩⟩
  rw [Body.inst?, nextOf, hB, Option.bind_some, List.getElem?_eq_getElem hn]

theorem plain_createAlloca {F : Terminated} (h : s ∈ first? F.toBody) :
    Plain (nextOf s) (createAlloca F.toBody (nextOf s)) ↔
    ∀ x ∈ F.block 0, x.fst.idx ≤ s.idx → x.snd.constants = [] := by
  obtain ⟨J, hJ⟩ := exists_next h
  obtain ⟨l, hl⟩ := exists_insts h
  obtain ⟨front, back, hb⟩ := List.append_of_mem hJ
  have hp := F.block_pairwise 0
  rw [hb, List.pairwise_append, List.pairwise_cons] at hp
  have hc : (Weave.code F.insts : List SlotItem) =
      Weave.code front ++ .inst (nextOf s, J) :: Weave.code (back ++ l) := by
    simp [Weave.code, hl, hb]
  have hn : (Weave.code (back ++ l)).any (SlotItem.isAt (nextOf s)) = false := by
    have hd := nodup_sites (F := F.toBody)
    rw [hl, hb, List.append_assoc, List.cons_append, List.map_append, List.map_cons,
      List.nodup_append, List.nodup_cons] at hd
    rw [List.any_eq_false]
    intro x hx
    obtain ⟨y, hy, rfl⟩ := List.mem_map.mp hx
    rw [SlotItem.isAt, decide_eq_true_eq]
    exact fun he => hd.right.left.left (List.mem_map.mpr ⟨y, hy, he.symm⟩)
  have hx : SlotItem.isAt (nextOf s) (.inst (nextOf s, J)) := decide_eq_true rfl
  rw [createAlloca, plain_insertBefore quiet_alloca, hc, plain_append hx hn, hb, Weave.code,
    List.forall_mem_map]
  constructor
  · intro hf x hx hi
    obtain hx | hx := List.mem_append.mp hx
    · exact hf x hx
    obtain rfl | hx := List.mem_cons.mp hx
    · exact absurd hi (Nat.not_succ_le_self _)
    · exact absurd (Nat.lt_of_lt_of_le (hp.right.left.left x hx) hi)
        (Nat.not_lt.mpr (Nat.le_succ _))
  · intro hf x hx
    exact hf x (List.mem_append_left _ hx)
      (Nat.lt_succ_iff.mp (hp.right.right x hx _ List.mem_cons_self))

end Entry

section Main

variable {M : Module} {F : Body}

theorem ownsTemp_of_needsSlot {I : Inst} (h : needsSlot I) : I.ownsTemp := by
  rw [needsSlot] at h
  rw [Inst.ownsTemp]
  cases ho : I.op <;> rw [ho] at h <;> first | exact h | rfl | cases h

theorem allotted {g : Gep} (hg : g.slots = ((temps F).map some).zipIdx) : Allotted M F g where
  distinct      := by
    rw [hg, List.zipIdx_map_snd]
    exact List.nodup_range'
  bounded x hx  := by
    rw [hg] at hx
    have hl := List.snd_lt_of_mem_zipIdx hx
    rw [List.length_map, Nat.add_zero] at hl
    exact Nat.lt_of_lt_of_le hl length_temps_le
  found x hx hn := by
    have hm := List.mem_map_of_mem (f := some) (mem_temps_inst hx (ownsTemp_of_needsSlot hn))
    obtain ⟨i, hi⟩ := List.mem_iff_getElem?.mp hm
    exact ⟨i, hg ▸ List.mk_mem_zipIdx_iff_getElem?.mpr hi⟩

theorem temps_eq_nil (h : ¬0 < getTotalFPInst M F) : temps F = [] :=
  List.length_eq_zero_iff.mp (Nat.le_zero.mp (Nat.le_trans length_temps_le (Nat.le_of_not_lt h)))

theorem createMpfrAlloca_eq_some {n : Nat} {g : Gep} (ht : 0 < getTotalFPInst M F) :
    createMpfrAlloca M F n = some g ↔
    ∃ s ∈ first? F, ∃ r ∈ (returns F).getLast?, indexed F ∧
    createGEP F (nextOf s) r n = some g := by
  rw [createMpfrAlloca, if_pos ht]
  simp only [Option.bind_eq_bind, Option.bind_eq_some_iff, Option.ite_none_right_eq_some,
    Option.mem_def]

-- What is made is one slot for each temporary, in their order.
theorem slots_eq {n : Nat} {g : Gep} (h : createMpfrAlloca M F n = some g) :
    g.slots = ((temps F).map some).zipIdx := by
  by_cases ht : 0 < getTotalFPInst M F
  case neg =>
    rw [createMpfrAlloca, if_neg ht] at h
    obtain rfl := Option.some.inj h
    rw [temps_eq_nil ht]
    rfl
  case pos =>
    obtain ⟨s, -, r, -, -, hg⟩ := (createMpfrAlloca_eq_some ht).mp h
    exact congrArg Gep.slots (createGEP_eq (plain_of_createGEP hg) hg)

-- The slots are made rightly exactly if there is no need for one, or there is a return to clear
-- them in front of and no instruction in front of the array has a constant.
theorem allots_iff (M : Module) (F : Terminated) : Allots M F.toBody ↔ Allottable M F.toBody := by
  have ha : Allots M F.toBody ↔ ∃ n, (createMpfrAlloca M F.toBody n).isSome :=
    ⟨Allots.made, fun h => ⟨h, fun n g hg => allotted (slots_eq hg)⟩⟩
  rw [ha]
  by_cases ht : 0 < getTotalFPInst M F.toBody
  case neg =>
    exact iff_of_true ⟨0, by rw [createMpfrAlloca, if_neg ht]; rfl⟩
      (.inl (Nat.eq_zero_of_not_pos ht))
  case pos =>
    constructor
    · rintro ⟨n, hn⟩
      obtain ⟨g, hg⟩ := Option.isSome_iff_exists.mp hn
      obtain ⟨s, hs, r, hr, hi, hg⟩ := (createMpfrAlloca_eq_some ht).mp hg
      have hp := (plain_createAlloca hs).mp (plain_of_createGEP hg)
      exact .inr ⟨hi, List.ne_nil_of_mem (List.mem_of_getLast? hr), s, hs, hp⟩
    · rintro (h | ⟨hi, hr, s, hs, hp⟩)
      · exact absurd h (Nat.ne_of_gt ht)
      have hl := List.getLast?_eq_some_getLast hr
      obtain ⟨n, hn⟩ : ∃ n,
        (createGEP F.toBody (nextOf s) ((returns F.toBody).getLast hr) n).isSome :=
        exists_createGEP ((plain_createAlloca hs).mpr hp)
      obtain ⟨g, hg⟩ := Option.isSome_iff_exists.mp hn
      exact ⟨n,
        Option.isSome_iff_exists.mpr ⟨g, (createMpfrAlloca_eq_some ht).mpr ⟨s, hs, _, hl, hi, hg⟩⟩⟩

end Main

section Fail

-- A function that ends with a call of `abort`, behind what the pass puts at the entry of its clone.
def fail : Terminated where
  name   := "fail_shadow"
  params := [⟨"x", .mptr⟩]
  blocks := [⟨"entry", [⟨"0", .int 32, .call "fpsanx_get_buf_idx_c" []⟩,
    ⟨"1", .ptr .double, .call "fpsanx_get_buf_addr_c" []⟩,
    ⟨"my_load_idx_c", .int 64, .load (.global "QIdx" (.ptr (.int 64)))⟩,
    ⟨"mul", .double, .binary .fmul (.arg 0) (.arg 0)⟩,
    ⟨"", .void, .call "report" [.inst ⟨0, 3⟩]⟩,
    ⟨"", .void, .call "abort" []⟩,
    ⟨"", .void, .unreachable⟩]⟩]
  ends   := by simp [Op.isTerminator]

-- There is no return to clear the slots in front of.
theorem not_allots : ¬∀ (M : Module) (F : Terminated), Allots M F.toBody := by
  intro h
  obtain ⟨n, hn⟩ := (h ⟨[], [], [], [], []⟩ fail).made
  cases hn

end Fail

end Slots

end Pass
