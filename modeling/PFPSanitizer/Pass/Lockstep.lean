import PFPSanitizer.Pass.Paths
import PFPSanitizer.Pass.Encoding

-- The way that the clone of a function takes, when all that it knows of the program are
-- the values that it reads.
namespace Pass

open Encoding (uiToFp fpToUi target)

-- Where control goes at the end of a block.
inductive Exit
  | leave
  | jump (b : Nat)
  | branch (yes no : Nat)
  | switch (w : Nat) (cases : List (BitVec w × Nat)) (default : Nat)

namespace Exit

-- The width of the condition.
def width? : Exit → Option Nat
  | leave | jump _ => none
  | branch _ _     => some 1
  | switch w _ _   => some w

def next : Exit → Nat → Option Nat
  | leave, _                  => none
  | jump b, _                 => some b
  | branch yes no, n          => some (if n = 0 then no else yes)
  | switch w cases default, n => some (target cases default (BitVec.ofNat w n))

-- The clone decodes its condition from a double.
def decide (e : Exit) (x : Option Float) : Option (Option Nat) :=
  match e.width? with
  | none   => some (e.next 0)
  | some w => x.bind (fpToUi w) |>.map fun v => e.next v.toNat

end Exit

-- The condition of the terminator.
def Body.condition? (F : Body) (b : Nat) : Option Operand :=
  F.block b |>.getLast? |>.bind fun x =>
    match x.snd.op with
    | .br (some c) | .switch c => some c
    | _                        => none

structure Exits (F : Body) where
  exit    : Nat → Exit
  width   : ∀ b w, (exit b).width? = some w → w ≤ 64
  decides : ∀ b w, (exit b).width? = some w → (F.condition? b).isSome

-- The values of a run as the program sends them. A condition is an integer.
structure Values {F : Body} (ex : Exits F) where
  double : Event → Float
  number : Event → Nat
  sent   : ∀ b w c seen, (ex.exit b).width? = some w → F.condition? b = some c →
           number (Send.event seen ⟨.condition, c⟩) < 2 ^ w ∧
           double (Send.event seen ⟨.condition, c⟩) =
             uiToFp (BitVec.ofNat w (number (Send.event seen ⟨.condition, c⟩)))

section Follow

variable {F : Body} {ex : Exits F} (v : Values ex)

def Values.choice (b : Nat) (seen : Nat → Option Nat) : Nat :=
  F.condition? b |>.elim 0 fun c => v.number (Send.event seen ⟨.condition, c⟩)

-- The blocks of a path, each with the visits so far.
def visits : List Nat → Nat → (Nat → Option Nat) → List (Nat × (Nat → Option Nat)) :=
  along (fun b => [b]) fun seen b => (b, seen)

-- The path is the one that the program takes.
def Chooses : List Nat → Nat → (Nat → Option Nat) → Prop
  | b :: b' :: p, n, seen =>
    let seen := Function.update seen b (some n)
    (ex.exit b).next (v.choice b seen) = some b' ∧ Chooses (b' :: p) (n + 1) seen
  | _, _, _ => True

-- What the clone reads on a path.
def readFrom (M : Module) (F : Body) : List Nat → Nat → (Nat → Option Nat) → List Event :=
  along (fun b => Weave.ops (consumer M (cloneFunction F) b)) Send.event

-- A double for each read, as long as there are some.
def readAll : List Send → List Float → Option (List (Send × Float) × List Float)
  | [], vs           => some ([], vs)
  | e :: es, x :: vs => readAll es vs |>.map fun r => ((e, x) :: r.fst, r.snd)
  | _ :: _, []       => none

-- The clone for a number of blocks: the ones that it visits, and what it takes the doubles to be
-- that it reads. Its terminator uses the last one.
def follow (M : Module) (F : Body) (ex : Exits F) :
    Nat → Nat → Nat → (Nat → Option Nat) → List Float → Option (List Nat × List (Event × Float))
  | 0, _, _, _, _          => some ([], [])
  | fuel + 1, b, n, seen, vs => do
    let seen := Function.update seen b (some n)
    let (l, rest) ← readAll (Weave.ops (consumer M (cloneFunction F) b)) vs
    let log := l.map fun x => (x.fst.event seen, x.snd)
    match ← (ex.exit b).decide (l.getLast?.map Prod.snd) with
    | none    => some ([b], log)
    | some b' =>
      let (p, log') ← follow M F ex fuel b' (n + 1) seen rest
      some (b :: p, log ++ log')

end Follow

theorem readAll_append {es : List Send} {f : Send → Float} {vs : List Float} :
    readAll es (es.map f ++ vs) = some (es.map fun e => (e, f e), vs) := by
  induction es with
  | nil          => rfl
  | cons e es ih =>
    rw [List.map_cons, List.cons_append, readAll, ih]
    rfl

-- The condition of a terminator is what the clone reads last in the block.
theorem getLast?_consumer {M : Module} {F : Body} {b : Nat} {c : Operand}
    (hu : unbranched F = false) (h : F.condition? b = some c) :
    (Weave.ops (consumer M (cloneFunction F) b)).getLast? = some ⟨.condition, c⟩ := by
  obtain ⟨⟨s, I⟩, hl, hc⟩ := Option.bind_eq_some_iff.mp h
  obtain ⟨l, hl⟩ := List.getLast?_eq_some_iff.mp hl
  have hr : reads M (cloneFunction F) (s, I) = [⟨.condition, c⟩] := by
    rw [unbranched] at hu
    obtain ⟨name, ty, op⟩ := I
    split at hc
    case h_1 ho | h_2 ho =>
      obtain rfl := Option.some.inj hc
      cases ho
      simp_all [reads, handleBranch, skipped, createGEP, handleIns, handleLoad, handleStore,
        handleSelect, handleCall, handleFcmp]
    case h_3 => cases hc
  rw [ops_consumer, block_cloneFunction, hl, List.flatMap_append, List.flatMap_singleton, hr,
    List.getLast?_concat]

theorem representable_of_lt {n : Nat} (h : n < 2 ^ 1) : Binary64.Representable n :=
  ⟨n, by omega, 0, by rw [Nat.pow_zero, Nat.mul_one]⟩

section Lockstep

variable {M : Module} {F : Body} {ex : Exits F} (v : Values ex)

-- A condition with few significant bits decides the clone as it decides the program.
theorem Values.decide_eq {b : Nat} {seen : Nat → Option Nat} (hu : unbranched F = false)
    (hr : ∀ w cases d, ex.exit b = .switch w cases d → Binary64.Representable (v.choice b seen)) :
    (ex.exit b).decide
      (((Weave.ops (consumer M (cloneFunction F) b)).map fun e =>
      (e, v.double (e.event seen))).getLast?.map
      Prod.snd) = some ((ex.exit b).next (v.choice b seen)) := by
  rw [Exit.decide]
  split
  case h_1 hw => cases he : ex.exit b <;> simp_all [Exit.width?, Exit.next]
  case h_2 w hw =>
    obtain ⟨c, hc⟩ := Option.isSome_iff_exists.mp (ex.decides b w hw)
    obtain ⟨hn, hd⟩ := v.sent b w c seen hw hc
    have hch : v.choice b seen = v.number (Send.event seen ⟨.condition, c⟩) := by
      rw [Values.choice, hc]; rfl
    have hr : Binary64.Representable (v.choice b seen) := by
      cases he : ex.exit b with
      | leave | jump  => rw [he] at hw; cases hw
      | branch        =>
        rw [he] at hw
        obtain rfl := Option.some.inj hw
        exact representable_of_lt (hch ▸ hn)
      | switch        => exact hr _ _ _ he
    have ht : (BitVec.ofNat w (v.choice b seen)).toNat = v.choice b seen := by
      rw [BitVec.toNat_ofNat, Nat.mod_eq_of_lt (hch ▸ hn)]
    rw [← ht] at hr
    have hf := (Encoding.fpToUi_uiToFp_iff _ (Nat.le_refl w) (ex.width b w hw)).mpr hr
    rw [List.getLast?_map, getLast?_consumer hu hc]
    simp only [Option.map_some, Option.bind_some, hd, ← hch, hf, BitVec.setWidth_eq, ht]

-- One block.
theorem follow_succ (hu : unbranched F = false) (b n fuel : Nat) (seen : Nat → Option Nat)
    (vs : List Float) (hr : ∀ w cases d, ex.exit b = .switch w cases d →
      Binary64.Representable (v.choice b (Function.update seen b (some n)))) :
    let read :=
    (Weave.ops (consumer M (cloneFunction F) b)).map (Send.event (Function.update seen b (some n)))
    follow M F ex (fuel + 1) b n seen (read.map v.double ++ vs) =
    match (ex.exit b).next (v.choice b (Function.update seen b (some n))) with
    | none    => some ([b], read.map fun e => (e, v.double e))
    | some b' =>
      follow M F ex fuel b' (n + 1) (Function.update seen b (some n)) vs |>.map fun r =>
        (b :: r.fst, (read.map fun e => (e, v.double e)) ++ r.snd) := by
  intro read
  have hd := v.decide_eq hu hr (M := M)
  have ha : readAll (Weave.ops (consumer M (cloneFunction F) b))
      ((Weave.ops (consumer M (cloneFunction F) b)).map
        (fun e => v.double (e.event (Function.update seen b (some n)))) ++ vs) = _ :=
    readAll_append
  simp only [read, follow, List.map_map, Function.comp_def, ha, hd, Option.bind_eq_bind,
    Option.bind_some]
  cases (ex.exit b).next (v.choice b (Function.update seen b (some n))) with
  | none    => rfl
  | some b' => exact (Option.map_eq_bind ..).symm

-- The clone takes the path of the program, by induction over the path.
theorem follow_eq (hu : unbranched F = false) {b : Nat} {p : List Nat} {n : Nat}
    {seen : Nat → Option Nat} (hp : Chooses v (b :: p) n seen)
    (hr : ∀ x ∈ visits (b :: p) n seen, ∀ w cases d, ex.exit x.fst = .switch w cases d →
      Binary64.Representable (v.choice x.fst x.snd)) :
    follow M F ex (p.length + 1) b n seen ((readFrom M F (b :: p) n seen).map v.double) =
      some (b :: p, (readFrom M F (b :: p) n seen).map fun e => (e, v.double e)) := by
  induction p generalizing b n seen with
  | nil           =>
    have hs := follow_succ v hu b n 0 seen [] (hr _ (List.mem_cons_self ..)) (M := M)
    simp only [List.append_nil] at hs
    simp only [readFrom, along, List.append_nil, List.length_nil]
    rw [hs]
    split
    · rfl
    · simp [follow]
  | cons b' p ih  =>
    obtain ⟨hn, hp⟩ := hp
    have hi := ih hp fun x hx => hr x (List.mem_cons_of_mem _ hx)
    have hs := follow_succ v hu b n (p.length + 1) seen
      ((readFrom M F (b' :: p) (n + 1) (Function.update seen b (some n))).map v.double)
        (hr _ (List.mem_cons_self ..)) (M := M)
    simp only [hn, hi, Option.map_some, ← List.map_append] at hs
    exact hs

-- The clone takes the path of the program and finds each of the values that it reads
-- where the program sent it.
theorem lockstep {F : Function} {ex : Exits F.toBody} (v : Values ex) (hc : CleanNames F.toBody)
    (hf : CallFree F.toBody) (hu : unbranched F.toBody = false) {b : Nat} {p : List Nat}
    (hp : Chooses v (b :: p) 0 fun _ => none)
    (hr : ∀ x ∈ visits (b :: p) 0 fun _ => none, ∀ w cases d, ex.exit x.fst = .switch w cases d →
      Binary64.Representable (v.choice x.fst x.snd))
    (ha : CaughtUp F.toBody (b :: p)) :
    follow M F.toBody ex (p.length + 1) b 0 (fun _ => none)
      ((pushed M F.toBody (b :: p)).map v.double) =
      some (b :: p, (pushed M F.toBody (b :: p)).map fun e => (e, v.double e)) := by
  have he : pushed M F.toBody (b :: p) = readFrom M F.toBody (b :: p) 0 fun _ => none := by
    simp only [pushed, readFrom, ops_producer_eq hc hf, ops_consumer_eq hc hf, ← firsts_along,
      ← seconds_along]
    exact (separate (by simp)).eq_iff.mpr ha
  rw [he]
  exact follow_eq v hu hp hr

end Lockstep

-- A loop that reads numbers until a comparison fails.
def readWhile : Function where
  name    := "read_while"
  params  := [⟨"p", .ptr .double⟩, ⟨"bound", .double⟩]
  blocks  := [⟨"entry", [⟨"", .void, .br none⟩]⟩,
    ⟨"loop", [⟨"x", .double, .load (.arg 0)⟩, ⟨"cmp", .int 1, .fcmp (.inst ⟨1, 0⟩) (.arg 1)⟩,
      ⟨"", .void, .br (some (.inst ⟨1, 1⟩))⟩]⟩,
    ⟨"exit", [⟨"", .void, .ret none⟩]⟩]
  typed   := by simp [Body.insts, Body.block, Body.typeOf, List.range_succ]
  noMeta  := by simp [Ty.isMPtrTy]
  foreign := by
    simp [Body.insts, Body.block, Body.typeOf, Op.operands, Body.inst?, Ty.isMPtrTy,
      List.range_succ]
  ordered := by simp [Body.insts, Body.block, Op.condition?, List.range_succ]
  memory  := by simp [Body.insts, Body.block, List.range_succ]
  unnamed := by simp [Body.insts, Body.block, List.range_succ]

def readWhileExits : Exits readWhile.toBody where
  exit
    | 0 => .jump 1
    | 1 => .branch 1 2
    | _ => .leave
  width b w h := by
    split at h <;> simp [Exit.width?] at h
    omega
  decides b w h := by
    split at h <;> first | rfl | simp [Exit.width?] at h

-- The third number is the last one.
def readWhileThrice : Values readWhileExits where
  double e := uiToFp (BitVec.ofNat 1 (if e.time = some 3 then 0 else 1))
  number e := if e.time = some 3 then 0 else 1
  sent b w c seen h _ := by
    have hw : w = 1 := by
      simp only [readWhileExits] at h
      split at h <;> simp [Exit.width?] at h
      exact h.symm
    subst hw
    exact ⟨by split <;> decide, rfl⟩

theorem lockstep_readWhile :
    follow ⟨[], [], [], [], []⟩ readWhile.toBody readWhileExits 5 0 0 (fun _ => none)
      ((pushed ⟨[], [], [], [], []⟩ readWhile.toBody [0, 1, 1, 1, 2]).map readWhileThrice.double) =
    some ([0, 1, 1, 1, 2], (pushed ⟨[], [], [], [], []⟩ readWhile.toBody [0, 1, 1, 1, 2]).map
      fun e => (e, readWhileThrice.double e)) := by
  refine lockstep readWhileThrice ⟨?_, ?_, ?_⟩ ?_ (by decide) ⟨rfl, rfl, rfl, rfl, trivial⟩ ?_ ?_
  case refine_5 =>
    intro x _ w cases d h
    simp only [readWhileExits] at h
    split at h <;> cases h
  case refine_6 =>
    refine caughtUp_of_not_lost ?_ _
    simp [readWhile, Body.insts, Body.block, List.range_succ, lost, unbranched, cloneFunction]
    decide
  all_goals simp [CallFree, readWhile, Body.insts, Body.block, Body.blockName, Body.nameOf,
    Body.inst?, Op.operands, List.range_succ]
  all_goals decide

end Pass
