import PFPSanitizer.Pass.Operands
import PFPSanitizer.Lib.ParallelCopy

-- The phi nodes of a clone and the calls of `fpsan_copy_phi` at the head of their block.
namespace Pass

open Metadata (Ptr State TempEntry)

section

variable (M : Module) (F : Body)

-- The phi nodes of a block that `handlePhi` visits, with their incoming values and blocks.
def Body.phis (b : Nat) : List (Site × List (Operand × Nat)) :=
  (F.block b).filterMap fun (s, I) =>
    match I.op with
    | .phi vs => if I.ty.isFloatType then some (s, vs) else none
    | _       => none

-- All instructions, since `handleNewPhi` runs when they have been visited.
def visited (_ : Site) : Bool :=
  true

-- The incoming pointers of a `my_phi`. There is none for an edge on which the phi node keeps its
-- value. A value without metadata ends the compilation.
def handleNewPhi (s : Site) (vs : List (Operand × Nat)) : Option (List (Meta × Nat)) :=
  vs.filter (!·.fst.isInst s) |>.mapM fun v => operandMeta M F visited v.fst |>.map (·, v.snd)

-- The calls of `fpsan_copy_phi` in a block. Each is put behind those that are there.
def copyCalls (b : Nat) : Option (List (Site × List (Meta × Nat))) :=
  F.phis b |>.mapM fun x => handleNewPhi M F x.fst x.snd |>.map (x.fst, ·)

-- An edge of the control flow graph. Each phi node has one value for it.
structure Edge where
  source : Nat
  target : Nat
  unique : ∀ x ∈ F.phis target, ∃! v, (v, source) ∈ x.snd

end

-- The value that a phi node takes on an edge.
def Edge.value {F : Body} (E : Edge F) (x : Site × List (Operand × Nat)) : Option Operand :=
  x.snd.find? (·.snd = E.source) |>.map Prod.fst

namespace Registers

variable {V D : Type} (R : Registers) (F : Body)

-- The head of a block that is entered from `e`. All `my_phi` select their pointers before the first
-- call. A pointer that is missing is undefined.
def copyPhis (e : Nat) (calls : List (Site × List (Meta × Nat))) (s : State V D) :
    Option (State V D) :=
  calls.foldlM (fun s c => do
    let m ← c.snd.find? (·.snd = e)
    Metadata.copyPhi (R.get F m.fst) (R.temporary F (.inst c.fst)) s) s

-- The metadata at a pointer, without what `fpsan_copy_phi` replaces.
def content (s : State V D) (p : Ptr) : Option (TempEntry V D) :=
  s.temps p |>.map fun e => { e with lock := 0, key := 0, timestamp := 0 }

variable {F} (M : Module) (E : Edge F)

-- The slot of the value that a phi node takes.
def incoming (x : Site × List (Operand × Nat)) : Option Ptr :=
  E.value x |>.bind (R.operand F M visited)

-- The slot of a phi node.
def target (x : Site × List (Operand × Nat)) : Ptr :=
  R.temporary F (.inst x.fst)

def copies : List (Copy Ptr) :=
  F.phis E.target |>.map fun x => ⟨R.incoming M E x, R.target (F := F) x⟩

-- The slot of each phi node holds what the slot of its incoming value held before.
def Parallel (s s' : State V D) : Prop :=
  ∀ x ∈ F.phis E.target, ∀ p ∈ R.incoming M E x, content s' (R.target (F := F) x) = content s p

-- No phi node keeps its value, and none takes the value in the slot of an earlier one, unless that
-- one takes the same value.
structure Ordered (s : State V D) : Prop where
  moved    : ∀ x ∈ F.phis E.target, .inst x.fst ∉ E.value x
  written  : ∀ x ∈ F.phis E.target, ∀ p ∈ R.incoming M E x, (s.temps p).isSome
  pairwise : F.phis E.target |>.Pairwise fun x y => R.target (F := F) x ∈ R.incoming M E y →
             ∀ p ∈ R.incoming M E x, content s p = content s (R.target (F := F) x)

end Registers

section Copies

variable {F : Body} {M : Module} {V D : Type} {R : Registers} {E : Edge F}

open Registers (content)

theorem content_copyPhi (c : Copy Ptr) (s : State V D) :
    (Metadata.copyPhi c.src c.dst s).map content = c.run (content s) := by
  obtain ⟨src, dst⟩ := c
  cases src with
  | none   => rfl
  | some p =>
    simp only [Metadata.copyPhi, Copy.run, content]
    cases s.temps p with
    | none   => rfl
    | some e =>
      simp only [Option.map, Option.bind_eq_bind, Option.bind, Option.pure_def, Option.some.injEq]
      funext q
      by_cases hq : q = dst
      case pos => simp [content, State.record, State.write, hq]
      case neg => simp [content, State.record, State.write, hq]

theorem content_foldlM (l : List (Copy Ptr)) (s : State V D) :
    (l.foldlM (fun s c => Metadata.copyPhi c.src c.dst s) s).map content =
    l.foldlM Copy.run (content s) := by
  induction l generalizing s with
  | nil         => rfl
  | cons c l ih =>
    rw [List.foldlM_cons, List.foldlM_cons, ← content_copyPhi c s]
    cases Metadata.copyPhi c.src c.dst s with
    | none    => rfl
    | some s' => exact ih s'

theorem mem_phis {b : Nat} {x : Site × List (Operand × Nat)} :
    x ∈ F.phis b ↔ ∃ I, (x.fst, I) ∈ F.block b ∧ I.op = .phi x.snd ∧ I.ty.isFloatType := by
  simp only [Body.phis, List.mem_filterMap]
  constructor
  · rintro ⟨⟨s, I⟩, hm, h⟩
    split at h
    · split at h
      · cases h
        exact ⟨I, hm, ‹_›, ‹_›⟩
      · cases h
    · cases h
  · rintro ⟨I, hm, ho, ht⟩
    exact ⟨_, hm, by simp [ho, ht]⟩

-- The pointer for an edge comes from the first value for it, if that is not the phi node itself.
theorem find?_handleNewPhi {s : Site} {vs : List (Operand × Nat)} {ps : List (Meta × Nat)}
    (h : handleNewPhi M F s vs = some ps) (e : Nat) :
    ps.find? (·.snd = e) =
      (vs.filter (!·.fst.isInst s) |>.find? (·.snd = e)).bind fun v => operandMeta M F visited v.fst
      |>.map (·, v.snd) := by
  rw [handleNewPhi] at h
  generalize vs.filter (!·.fst.isInst s) = l at h ⊢
  induction l generalizing ps with
  | nil => cases h; rfl
  | cons v l ih =>
    rw [List.mapM_cons] at h
    obtain ⟨m, hm, h⟩ := Option.bind_eq_some_iff.mp h
    obtain ⟨ms, hl, h⟩ := Option.bind_eq_some_iff.mp h
    cases h
    obtain ⟨a, ha, rfl⟩ := Option.map_eq_some_iff.mp hm
    by_cases he : v.snd = e
    case pos => simp [he, ha]
    case neg => simp [he, ih hl]

theorem isSome_of_mapM {α β : Type} {f : α → Option β} {l : List α} {l' : List β}
    (h : l.mapM f = some l') :
    ∀ a ∈ l, (f a).isSome := by
  induction l generalizing l' with
  | nil => simp
  | cons a l ih =>
    rw [List.mapM_cons] at h
    obtain ⟨b, hb, h⟩ := Option.bind_eq_some_iff.mp h
    obtain ⟨bs, hl, _⟩ := Option.bind_eq_some_iff.mp h
    exact List.forall_mem_cons.mpr ⟨by simp [hb], ih hl⟩

theorem find?_of_unique {α : Type} {q : α → Bool} {l : List α} {a : α} (ha : a ∈ l) (hq : q a)
    (hu : ∀ b ∈ l, q b → b = a) : l.find? q = some a := by
  obtain ⟨b, hb⟩ := Option.isSome_iff_exists.mp (List.find?_isSome.mpr ⟨a, ha, hq⟩)
  rw [hb, hu b (List.mem_of_find?_eq_some hb) (List.find?_some hb)]

variable {x : Site × List (Operand × Nat)} (hx : x ∈ F.phis E.target)

include hx

theorem Edge.value_isSome :
    ∃ v, E.value x = some v ∧ ∀ w ∈ x.snd, w.snd = E.source ↔ w = (v, E.source) := by
  obtain ⟨v, hv, hu⟩ := E.unique x hx
  have hw : ∀ w ∈ x.snd, w.snd = E.source ↔ w = (v, E.source) := by
    rintro ⟨w, n⟩ hw
    constructor
    · rintro rfl
      rw [hu w hw]
    · rintro h
      rw [h]
  refine ⟨v, ?_, hw⟩
  rw [Edge.value, find?_of_unique hv (by simp) fun w hm hs => (hw w hm).mp (by simpa using hs)]
  rfl

-- The call for a phi node copies from its incoming slot, unless it has no pointer for the edge.
theorem copyPhi_handleNewPhi {ps : List (Meta × Nat)} (h : handleNewPhi M F x.fst x.snd = some ps)
    (s : State V D) :
    (do
      let m ← ps.find? (·.snd = E.source)
      Metadata.copyPhi (R.get F m.fst) (R.target (F := F) x) s) =
      if (E.value x).any (·.isInst x.fst) then none
      else Metadata.copyPhi (R.incoming M E x) (R.target (F := F) x) s := by
  obtain ⟨v, hv, hu⟩ := E.value_isSome hx
  have hm : (v, E.source) ∈ x.snd := by
    rw [Edge.value] at hv
    obtain ⟨w, hw, rfl⟩ := Option.map_eq_some_iff.mp hv
    have hs : w.snd = E.source := by simpa using List.find?_some hw
    exact hs ▸ List.mem_of_find?_eq_some hw
  rw [find?_handleNewPhi h, hv, Option.any_some]
  cases hi : v.isInst x.fst with
  | true =>
    have hn : (x.snd.filter (!·.fst.isInst x.fst) |>.find? (·.snd = E.source)) = none := by
      rw [List.find?_eq_none]
      intro w hw hs
      rw [List.mem_filter] at hw
      rw [(hu w hw.left).mp (by simpa using hs)] at hw
      simp [hi] at hw
    rw [hn]
    rfl
  | false =>
    have hf : (v, E.source) ∈ x.snd.filter (!·.fst.isInst x.fst) :=
      List.mem_filter.mpr ⟨hm, by simp [hi]⟩
    rw [find?_of_unique hf (by simp) fun w hw hs =>
      (hu w (List.mem_of_mem_filter hw)).mp (by simpa using hs)]
    rw [handleNewPhi] at h
    obtain ⟨m, ho⟩ := Option.isSome_iff_exists.mp (isSome_of_mapM h _ hf)
    obtain ⟨a, ha, _⟩ := Option.map_eq_some_iff.mp ho
    simp [Registers.incoming, Registers.operand, hv, ha]

omit hx

theorem copyPhis_eq {l : List (Site × List (Operand × Nat))}
    {calls : List (Site × List (Meta × Nat))} (hl : ∀ x ∈ l, x ∈ F.phis E.target)
    (h : (l.mapM fun x => handleNewPhi M F x.fst x.snd |>.map (x.fst, ·)) = some calls)
    (s : State V D) :
    R.copyPhis F E.source calls s =
      l.foldlM (fun s x =>
        if (E.value x).any (·.isInst x.fst) then none
        else Metadata.copyPhi (R.incoming M E x) (R.target (F := F) x) s) s := by
  induction l generalizing calls s with
  | nil => cases h; rfl
  | cons x l ih =>
    rw [List.mapM_cons] at h
    obtain ⟨c, hc, h⟩ := Option.bind_eq_some_iff.mp h
    obtain ⟨cs, hs, h⟩ := Option.bind_eq_some_iff.mp h
    cases h
    obtain ⟨ps, hps, rfl⟩ := Option.map_eq_some_iff.mp hc
    rw [List.foldlM_cons, ← copyPhi_handleNewPhi (hl x (by simp)) hps, Registers.copyPhis,
      List.foldlM_cons]
    exact bind_congr fun s' => ih (fun y hy => hl y (by simp [hy])) hs s'

theorem isInst_iff {s : Site} {v : Operand} : v.isInst s ↔ v = .inst s := by
  cases v <;> simp [Operand.isInst]

section FoldlM

variable {α σ : Type} {q : α → Bool} {f : σ → α → Option σ} {l : List α}

theorem foldlM_of_exists {a : α} (ha : a ∈ l) (hq : q a) (s : σ) :
    l.foldlM (fun s a => if q a then none else f s a) s = none := by
  induction l generalizing s with
  | nil => cases ha
  | cons b l ih =>
    rw [List.foldlM_cons]
    cases ha with
    | head      => simp [hq]
    | tail _ ha =>
      rw [Option.bind_eq_bind, Option.bind_eq_none_iff]
      exact fun s' _ => ih ha s'

theorem foldlM_of_forall (hq : ∀ a ∈ l, q a = false) (s : σ) :
    l.foldlM (fun s a => if q a then none else f s a) s = l.foldlM f s := by
  induction l generalizing s with
  | nil => rfl
  | cons b l ih =>
    rw [List.foldlM_cons, List.foldlM_cons, hq b (by simp)]
    exact bind_congr fun s' => ih (fun a ha => hq a (by simp [ha])) s'

end FoldlM

theorem phis_pairwise (b : Nat) : (F.phis b).Pairwise fun x y => x.fst.idx < y.fst.idx := by
  rw [Body.phis, List.pairwise_filterMap]
  have hs : ∀ {z : Site × Inst} {c : Site × List (Operand × Nat)},
      (match z.snd.op with
        | .phi vs => if z.snd.ty.isFloatType then some (z.fst, vs) else none
        | _       => none) = some c → c.fst = z.fst := by
    intro z c hc
    split at hc
    · split at hc
      · cases hc; rfl
      · cases hc
    · cases hc
  refine (F.block_pairwise b).imp fun {x y} h a ha b hb => ?_
  rw [hs ha, hs hb]
  exact h

-- Each phi node has a slot of its own.
theorem nodup_copies : ((R.copies M E).map Copy.dst).Nodup := by
  rw [Registers.copies, List.map_map, List.nodup_iff_pairwise_ne, List.pairwise_map]
  refine (phis_pairwise _).imp_of_mem fun {x y} hx hy hl he => ?_
  obtain ⟨I, hI, ho, ht⟩ := mem_phis.mp hx
  have hm : .inst x.fst ∈ temps F :=
    mem_temps_inst (F.mem_insts.mpr (F.mem_block.mp hI).right) (by simp [Inst.ownsTemp, ho, ht])
  have hs : slot F (.inst x.fst) = slot F (.inst y.fst) := congrArg Ptr.idx he
  rw [slot_inj hm, Temp.inst.injEq] at hs
  rw [hs] at hl
  exact Nat.lt_irrefl _ hl

theorem ordered_iff_independent (hm : ∀ x ∈ F.phis E.target, .inst x.fst ∉ E.value x)
    (s : State V D) :
    R.Ordered M E s ↔ Copy.Independent (content s) (R.copies M E) := by
  have hw : ∀ p, (content s p).isSome = (s.temps p).isSome := by simp [content]
  constructor
  · intro h
    refine ⟨?_, List.pairwise_map.mpr h.pairwise⟩
    intro c hc p hp
    obtain ⟨x, hx, rfl⟩ := List.mem_map.mp hc
    rw [hw]
    exact h.written x hx p hp
  · intro h
    refine ⟨hm, ?_, List.pairwise_map.mp h.pairwise⟩
    intro x hx p hp
    rw [← hw]
    exact h.written _ (List.mem_map_of_mem hx) p hp

theorem parallel_iff_copies {s : State V D} :
    (∃ s',
      ((F.phis E.target).foldlM
      (fun s x => Metadata.copyPhi (R.incoming M E x) (R.target (F := F) x) s) s) = some s' ∧
      R.Parallel M E s s') ↔
    ∃ env', (R.copies M E).foldlM Copy.run (content s) = some env' ∧
    Copy.Parallel (content s) (R.copies M E) env' := by
  rw [← content_foldlM, Registers.copies, List.foldlM_map]
  constructor
  · rintro ⟨s', he, hp⟩
    refine ⟨content s', by rw [he]; rfl, ?_⟩
    intro c hc p hs
    obtain ⟨x, hx, rfl⟩ := List.mem_map.mp hc
    exact hp x hx p hs
  · rintro ⟨env', he, hp⟩
    obtain ⟨s', hs, rfl⟩ := Option.map_eq_some_iff.mp he
    exact ⟨s', hs, fun x hx => hp _ (List.mem_map_of_mem hx)⟩

-- Exactly if the incoming values are so ordered, the copies act as the phi nodes do.
theorem parallel_iff_ordered {calls : List (Site × List (Meta × Nat))}
    (h : copyCalls M F E.target = some calls) (s : State V D) :
    (∃ s', R.copyPhis F E.source calls s = some s' ∧ R.Parallel M E s s') ↔ R.Ordered M E s := by
  rw [copyPhis_eq (fun _ hx => hx) h]
  by_cases hm : ∀ x ∈ F.phis E.target, .inst x.fst ∉ E.value x
  case neg =>
    have hn : ¬R.Ordered M E s := fun ho => hm ho.moved
    simp only [not_forall, not_not] at hm
    obtain ⟨x, hx, hv⟩ := hm
    rw [foldlM_of_exists hx (by simp [Option.mem_def.mp hv, Operand.isInst])]
    simp [hn]
  case pos =>
    have hq : ∀ x ∈ F.phis E.target, (E.value x).any (·.isInst x.fst) = false := by
      intro x hx
      cases hv : E.value x with
      | none   => rfl
      | some v =>
        rw [Option.any_some, Bool.eq_false_iff, ne_eq, isInst_iff]
        rintro rfl
        exact hm x hx hv
    rw [foldlM_of_forall hq, parallel_iff_copies, Copy.parallel_iff nodup_copies,
      ordered_iff_independent hm]

end Copies

-- Two phi nodes of a loop that exchange their values.
def swap : Function where
  name    := "swap"
  params  := [⟨"x", .double⟩, ⟨"y", .double⟩]
  blocks  := [⟨"entry", [⟨"", .void, .br none⟩]⟩,
    ⟨"loop", [⟨"a", .double, .phi [(.arg 0, 0), (.inst ⟨1, 1⟩, 1)]⟩,
      ⟨"b", .double, .phi [(.arg 1, 0), (.inst ⟨1, 0⟩, 1)]⟩,
      ⟨"cmp", .int 1, .fcmp (.inst ⟨1, 0⟩) (.inst ⟨1, 1⟩)⟩,
      ⟨"", .void, .br (some (.inst ⟨1, 2⟩))⟩]⟩,
    ⟨"end", [⟨"", .void, .ret none⟩]⟩]
  typed   := by simp [Body.insts, Body.block, List.range, List.range.loop]
  noMeta  := by simp [Ty.isMPtrTy]
  foreign := by
    simp [Body.insts, Body.block, List.range, List.range.loop, Body.typeOf, Op.operands, Body.inst?,
      Ty.isMPtrTy]
  ordered := by simp [Body.insts, Body.block, List.range, List.range.loop, Op.condition?]
  memory  := by simp [Body.insts, Body.block, List.range, List.range.loop]
  unnamed := by simp [Body.insts, Body.block, List.range, List.range.loop]

theorem phis_swap : (cloneFunction swap.toBody).phis 1 =
    [(⟨1, 0⟩, [(.arg 0, 0), (.inst ⟨1, 1⟩, 1)]), (⟨1, 1⟩, [(.arg 1, 0), (.inst ⟨1, 0⟩, 1)])] := rfl

def swapEntry : Edge (cloneFunction swap.toBody) where
  source := 0
  target := 1
  unique := by simp [phis_swap, ExistsUnique]

def swapLoop : Edge (cloneFunction swap.toBody) where
  source := 1
  target := 1
  unique := by simp [phis_swap, ExistsUnique]

def swapRegisters : Registers where
  self      := ⟨3, 1⟩
  value _   := some ⟨⟨2, 0⟩, 7⟩
  pointer _ := none

-- Each slot holds its own index.
def swapState : State Nat Unit :=
  let s := Metadata.shadowSliceStart default default
  { s with temps := fun p => some <| s.leaf p.idx () .constant 0 }

-- The loop is entered well.
theorem parallel_swapEntry :
    let M : Module := ⟨[swap], [], [], [], []⟩
    ∃ calls s', copyCalls M (cloneFunction swap.toBody) 1 = some calls ∧
      swapRegisters.copyPhis (cloneFunction swap.toBody) 0 calls swapState = some s' ∧
      swapRegisters.Parallel M swapEntry swapState s' := by
  intro M
  have ho : swapRegisters.Ordered M swapEntry swapState := by
    refine ⟨?_, fun _ _ _ _ => rfl, ?_⟩
    · show ∀ x ∈ (cloneFunction swap.toBody).phis 1, _
      simp [phis_swap, Edge.value, swapEntry]
    · show ((cloneFunction swap.toBody).phis 1).Pairwise _
      rw [phis_swap]
      refine .cons (fun x hx ha => ?_) (List.pairwise_singleton _ _)
      obtain rfl := List.mem_singleton.mp hx
      exact absurd (Option.some.inj ha) (by decide)
  obtain ⟨s', hs, hp⟩ := (parallel_iff_ordered rfl swapState).mpr ho
  exact ⟨_, s', rfl, hs, hp⟩

theorem not_parallel_swapLoop :
    ¬∀ (V D : Type) (M : Module) (F : Function) (E : Edge (cloneFunction F.toBody)) (R : Registers)
      (s : State V D) (calls : List (Site × List (Meta × Nat))),
      copyCalls M (cloneFunction F.toBody) E.target = some calls →
      (∀ x ∈ (cloneFunction F.toBody).phis E.target, ∀ p ∈ R.incoming M E x, (s.temps p).isSome) →
      ∃ s', R.copyPhis (cloneFunction F.toBody) E.source calls s = some s' ∧
      R.Parallel M E s s' := by
  intro h
  obtain ⟨s', he, hp⟩ :=
    h Nat Unit ⟨[swap], [], [], [], []⟩ swap swapLoop swapRegisters swapState _ rfl fun _ _ _ _ =>
    rfl
  cases he
  have hx : (⟨1, 1⟩, [(.arg 1, 0), (.inst ⟨1, 0⟩, 1)]) ∈ (cloneFunction swap.toBody).phis 1 := by
    simp [phis_swap]
  have hb := hp _ hx ⟨⟨3, 1⟩, 0⟩ rfl
  exact absurd (congrArg (·.map TempEntry.val) hb) (by decide)

end Pass
