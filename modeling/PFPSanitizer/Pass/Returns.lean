import PFPSanitizer.Pass.Removal
import PFPSanitizer.Runtime.LockKey
import Mathlib.Data.List.Nodup
import Mathlib.Data.List.Count
import Mathlib.Algebra.BigOperators.Group.List.Basic
import Mathlib.Algebra.GroupWithZero.Nat

-- What a clone does to the key stack and to its temporaries on the way from its entry to a return.
namespace Pass

-- The calls that the pass puts at the entry of a clone and in front of its returns. `ret` is the
-- return whose operand is copied or checked.
inductive Insertion
  | funcInit
  | funcExit
  | init (slot : Nat)
  | clear (slot : Nat)
  | copyReturn (ret : Site)
  | checkError (ret : Site)
deriving DecidableEq

-- The call of the runtime that it is.
def Insertion.effect : Insertion → Effect
  | funcInit     => .call "fpsan_func_init"
  | funcExit     => .call "fpsan_func_exit"
  | init _       => .call "fpsanx_init_mpfr"
  | clear _      => .call "fpsanx_clear_mpfr"
  | copyReturn _ => .call "fpsan_copy_return"
  | checkError _ => .call "fpsan_check_error"

def Insertion.isResult : Insertion → Bool
  | copyReturn _ | checkError _ => true
  | _                           => false

def Effect.isInit : Effect → Bool
  | .call g => g = "fpsanx_init_mpfr"
  | _       => false

def Inst.isReturn (I : Inst) : Bool :=
  match I.op with
  | .ret _ => true
  | _      => false

abbrev CloneItem := Weave.Item (Site × Inst) Insertion

def CloneItem.isAt (s : Site) : CloneItem → Bool
  | .inst (t, _) => s = t
  | .op _        => false

def CloneItem.isClear : CloneItem → Bool
  | .inst (_, I) =>
    match I.op with
    | .call g _ => startswith g "fpsanx_clear_mpfr"
    | _         => false
  | .op e        =>
    match e with
    | .clear _ => true
    | _        => false

section Code

variable (F : Body)

def returns : List Site :=
  (F.insts.filter (·.snd.isReturn)).map Prod.fst

-- The slots of `createGEP` and those of the parameters of a slice.
def temporaries : Nat :=
  (F.insts.flatMap (Emit.createGEP F ·.snd)).countP Effect.isInit

def arguments : Nat :=
  (Emit.enter F).countP Effect.isInit

def slots : Nat :=
  temporaries F + arguments F

def inits : List Insertion :=
  (List.range (slots F)).map .init

-- The parameters come first.
def clears : List Insertion :=
  (List.range' (temporaries F) (arguments F) ++ List.range (temporaries F)).map .clear

-- `removeArgs` and `createGEP` put the slots into the entry and clear them in front of `End`, the
-- last return in the order of the blocks.
def placeSlots : List (List CloneItem) :=
  (List.range F.blocks.length).map fun b =>
    (if b = 0 then (inits F).map .op else []) ++
    match (returns F).getLast? with
    | some r => Weave.insertBefore (CloneItem.isAt r) (clears F) (Weave.code (F.block b))
    | none   => Weave.code (F.block b)

def handleFuncInit (code : List (List CloneItem)) : List (List CloneItem) :=
  if indexed F then code.modify 0 (.op .funcInit :: ·) else code

-- The last block with a call of `fpsanx_clear_mpfr`. The `break` of the search leaves the loop
-- over the instructions only.
def clearBlock (code : List (List CloneItem)) : Option Nat :=
  ((List.range code.length).filter fun b => code[b]?.any (·.any CloneItem.isClear)).getLast?

def returned (r : Site) : Insertion :=
  if F.isSlice then .checkError r else .copyReturn r

def returnCalls (r : Site) : List Insertion :=
  (match F.inst? r |>.map Inst.op with
   | some (.ret (some v)) => if (F.typeOf v).isFloatType then [returned F r] else []
   | _                    => []) ++
  if indexed F then [.funcExit] else []

-- What belongs to a return is put in front of the first call that clears a slot, in whichever block
-- that is, and in front of the return only if there is none.
def handleReturn (code : List (List CloneItem)) (r : Site) : List (List CloneItem) :=
  match clearBlock code with
  | some b => code.modify b (Weave.insertBefore CloneItem.isClear (returnCalls F r))
  | none   => code.modify r.block (Weave.insertBefore (CloneItem.isAt r) (returnCalls F r))

-- The calls are those of the handler.
theorem effect_returnCalls {r : Site} {v : Option Operand}
    (h : (F.inst? r |>.map Inst.op) = some (.ret v)) :
    (returnCalls F r).map Insertion.effect = Emit.handleReturn F v := by
  rw [returnCalls, h, Emit.handleReturn, returned]
  cases v with
  | none   => cases indexed F <;> rfl
  | some v =>
    by_cases hf : (F.typeOf v).isFloatType <;> by_cases hi : indexed F <;>
      by_cases hs : F.isSlice <;>
      simp [hf, hi, hs, Insertion.effect]

def instrumented : List (List CloneItem) :=
  (returns F).foldl (handleReturn F) (handleFuncInit F (placeSlots F))

end Code

-- The branches of a function: its entry has no predecessors, and a return ends its block and has no
-- successors.
structure Flow (F : Body) where
  succ    : Nat → List Nat
  entry   : ∀ b, 0 ∉ succ b
  leaves  : ∀ r ∈ returns F, succ r.block = []
  unique  : ∀ r ∈ returns F, ∀ r' ∈ returns F, r.block = r'.block → r = r'

-- No block of the function ends with a branch.
def Flow.straight {F : Body} (h : ∀ r ∈ returns F, ∀ r' ∈ returns F, r.block = r'.block → r = r') :
    Flow F where
  succ _ := []
  entry  := by simp
  leaves := by simp
  unique := h

-- A way from a block to a return.
inductive Flow.Path {F : Body} (fl : Flow F) : Nat → List Nat → Site → Prop
  | ret  : r ∈ returns F → fl.Path r.block [r.block] r
  | step : c ∈ fl.succ b → fl.Path c p r → fl.Path b (b :: p) r

section Executed

variable (F : Function)

def trace (p : List Nat) : List CloneItem :=
  p.flatMap fun b => (instrumented (cloneFunction F.toBody))[b]?.getD []

def executed (p : List Nat) : List Insertion :=
  Weave.ops (trace F p)

-- What the callers and the runtime rely on, on a way to the return `r`. A slice has no caller, the
-- value that it returns is checked.
structure Once (p : List Nat) (r : Site) : Prop where
  init   : (executed F p).count .funcInit = 1
  exit   : (executed F p).count .funcExit = 1
  slots  : ∀ k < slots (cloneFunction F.toBody), (executed F p).count (.init k) = 1 ∧
    (executed F p).count (.clear k) = 1
  result : ∀ v, (F.inst? r |>.map Inst.op) = some (.ret (some v)) → (F.typeOf v).isFloatType →
           (executed F p).filter Insertion.isResult = [returned (cloneFunction F.toBody) r]

end Executed

section Place

variable (F : Body)

-- The blocks of a clone with calls of `fpsanx_clear_mpfr`: those of the program, and `End`
-- if the clone has any slot.
def hasClear (b : Nat) : Bool :=
  (F.block b).any (fun x => CloneItem.isClear (.inst x)) ||
  0 < slots F && (returns F).getLast?.any (·.block = b)

def lastClear : Option Nat :=
  ((List.range F.blocks.length).filter (hasClear F)).getLast?

end Place

-- The clone has an index, the value returned is no parameter, and if something is cleared, there is
-- one return, and its way goes through the last block with a clear once.
structure Fits (F : Function) (p : List Nat) (r : Site) : Prop where
  indexed : indexed (cloneFunction F.toBody)
  value   : ∀ v, (F.inst? r |>.map Inst.op) = some (.ret (some v)) → (F.typeOf v).isFloatType →
    v.isArg = false
  single  : ∀ b ∈ lastClear (cloneFunction F.toBody), p.count b = 1 ∧ (returns F.toBody).length = 1

section Returns

variable {F : Body}

theorem mem_returns {s : Site} :
    s ∈ returns F ↔ ∃ v, (F.inst? s |>.map Inst.op) = some (.ret v) := by
  simp only [returns, List.mem_map, List.mem_filter, Prod.exists, Body.mem_insts, exists_and_right,
    exists_eq_right, Option.map_eq_some_iff]
  constructor
  · rintro ⟨⟨n, ty, op⟩, hI, hr⟩
    cases op with
    | ret v => exact ⟨v, _, hI, rfl⟩
    | _     => exact absurd hr (by simp [Inst.isReturn])
  · rintro ⟨v, I, hI, ho⟩
    exact ⟨I, hI, by simp [Inst.isReturn, ho]⟩

@[simp]
theorem returns_cloneFunction : returns (cloneFunction F) = returns F := rfl

theorem any_isAt {r : Site} (h : r ∈ returns F) (b : Nat) :
    (Weave.code (F.block b)).any (CloneItem.isAt r) = decide (r.block = b) := by
  obtain ⟨v, hv⟩ := mem_returns.mp h
  obtain ⟨I, hI, -⟩ := Option.map_eq_some_iff.mp hv
  rw [Bool.eq_iff_iff]
  simp only [Weave.code, List.any_map, List.any_eq_true, Function.comp_apply, CloneItem.isAt,
    decide_eq_true_eq, Prod.exists]
  constructor
  · rintro ⟨s, J, hm, rfl⟩
    exact (F.mem_block.mp hm).left
  · intro hb
    exact ⟨r, I, F.mem_block.mpr ⟨hb, hI⟩, rfl⟩

theorem nodup_sites : (F.insts.map Prod.fst).Nodup := by
  rw [Body.insts, List.map_flatMap, List.nodup_flatMap]
  constructor
  · intro b _
    rw [List.nodup_iff_pairwise_ne, List.pairwise_map]
    exact (F.block_pairwise b).imp fun h he => Nat.ne_of_lt h (congrArg Site.idx he)
  · refine List.nodup_iff_pairwise_ne.mp List.nodup_range |>.imp fun hb s h h' => ?_
    obtain ⟨⟨_, I⟩, hm, rfl⟩ := List.mem_map.mp h
    obtain ⟨⟨_, J⟩, hm', he⟩ := List.mem_map.mp h'
    have hs := (F.mem_block.mp hm).left
    have hs' := (F.mem_block.mp hm').left
    simp only at he
    exact hb (hs.symm.trans (he ▸ hs'))

theorem nodup_returns : (returns F).Nodup :=
  nodup_sites.sublist (List.filter_sublist.map Prod.fst)

end Returns

section Path

variable {F : Body} {fl : Flow F} {b : Nat} {p : List Nat} {r : Site}

theorem Flow.Path.mem (h : fl.Path b p r) : r ∈ returns F := by
  induction h with
  | ret h        => exact h
  | step _ _ ih  => exact ih

-- The entry is not entered again.
theorem Flow.Path.exists_cons (h : fl.Path b p r) : ∃ p', p = b :: p' ∧ 0 ∉ p' := by
  induction h with
  | ret _          => exact ⟨[], rfl, List.not_mem_nil⟩
  | step hc _ ih   =>
    obtain ⟨p', rfl, hp⟩ := ih
    refine ⟨_, rfl, fun hm => ?_⟩
    obtain h | h := List.mem_cons.mp hm
    · exact fl.entry _ (h ▸ hc)
    · exact hp h

theorem Flow.Path.count_entry (h : fl.Path 0 p r) : p.count 0 = 1 := by
  obtain ⟨p', rfl, hp⟩ := h.exists_cons
  rw [List.count_cons_self, List.count_eq_zero.mpr hp]

-- A way goes through the block of one return only.
theorem Flow.Path.count_return (h : fl.Path b p r) {r' : Site} (hr : r' ∈ returns F) :
    p.count r'.block = if r' = r then 1 else 0 := by
  induction h with
  | @ret r h =>
    by_cases he : r' = r
    case pos => simp [he]
    case neg =>
      have hb : r.block ≠ r'.block := fun hb => he (fl.unique r h r' hr hb).symm
      simp [he, hb]
  | @step b c p r hc _ ih =>
    have hb : b ≠ r'.block := fun hb => by simp [hb, fl.leaves r' hr] at hc
    rw [List.count_cons_of_ne hb, ih]

end Path

-- The number of executed calls of a kind in a block.
def countIn (code : List (List CloneItem)) (q : Insertion → Bool) (b : Nat) : Nat :=
  (Weave.ops (code[b]?.getD [])).countP q

section HandleReturn

variable {F : Body} {code : List (List CloneItem)} {r : Site}

theorem lt_of_mem_clearBlock {b : Nat} (h : b ∈ clearBlock code) :
    ∃ l, code[b]? = some l ∧ l.any CloneItem.isClear := by
  have hm := List.mem_of_getLast? h
  obtain ⟨-, ha⟩ := List.mem_filter.mp hm
  simpa [Option.any_eq_true] using ha

-- Where the calls of a return are put.
theorem exists_handleReturn (h : code[r.block]?.any (·.any (CloneItem.isAt r))) :
    ∃ q l, handleReturn F code r = code.modify ((clearBlock code).getD r.block)
      (Weave.insertBefore q (returnCalls F r)) ∧
      code[(clearBlock code).getD r.block]? = some l ∧ l.any q ∧ q (.op .funcInit) = false := by
  rw [handleReturn]
  cases hc : clearBlock code with
  | none   =>
    obtain ⟨l, hl, ha⟩ := (Option.any_eq_true _ _).mp h
    exact ⟨_, l, rfl, hl, ha, rfl⟩
  | some b =>
    obtain ⟨l, hl, ha⟩ := lt_of_mem_clearBlock hc
    exact ⟨_, l, rfl, hl, ha, rfl⟩

-- Each return has its instruction.
def Complete (F : Body) (code : List (List CloneItem)) : Prop :=
  ∀ r ∈ returns F, code[r.block]?.any (·.any (CloneItem.isAt r))

-- A test that the calls at a return fail finds the same blocks as before.
theorem any_handleReturn (h : code[r.block]?.any (·.any (CloneItem.isAt r))) {q : CloneItem → Bool}
    (hq : ∀ e ∈ returnCalls F r, q (.op e) = false) (b : Nat) :
    (handleReturn F code r)[b]?.any (·.any q) = code[b]?.any (·.any q) := by
  obtain ⟨q', l, he, -, -, -⟩ := exists_handleReturn (F := F) h
  have hn : ((returnCalls F r).any fun e => q (.op e)) = false := by simpa using hq
  rw [he, List.getElem?_modify]
  cases code[b]? with
  | none   => rfl
  | some l =>
    simp only [Option.map_eq_map, Option.map_some, Option.any_some]
    split
    · rw [Weave.any_insertBefore, hn, Bool.and_false, Bool.or_false]
    · rfl

theorem length_handleReturn : (handleReturn F code r).length = code.length := by
  rw [handleReturn]
  split <;> simp

theorem mem_returnCalls {e : Insertion} (h : e ∈ returnCalls F r) :
    e = returned F r ∨ e = .funcExit := by
  rw [returnCalls, List.mem_append] at h
  obtain h | h := h
  · left
    split at h
    · split at h <;> simp_all
    · simp at h
  · right
    split at h <;> simp_all

theorem clearBlock_handleReturn (h : code[r.block]?.any (·.any (CloneItem.isAt r))) :
    clearBlock (handleReturn F code r) = clearBlock code := by
  have hq : ∀ e ∈ returnCalls F r, CloneItem.isClear (.op e) = false := by
    intro e he
    obtain rfl | rfl := mem_returnCalls he
    · rw [returned]
      split <;> rfl
    · rfl
  simp only [clearBlock, length_handleReturn, any_handleReturn h hq]

theorem Complete.handleReturn (h : Complete F code) (hr : r ∈ returns F) :
    Complete F (handleReturn F code r) := by
  intro r' hr'
  rw [any_handleReturn (h r hr) fun _ _ => rfl]
  exact h r' hr'

theorem countIn_handleReturn (h : code[r.block]?.any (·.any (CloneItem.isAt r)))
    (q : Insertion → Bool) (b : Nat) :
    countIn (handleReturn F code r) q b =
    countIn code q b + if (clearBlock code).getD r.block = b then (returnCalls F r).countP q
    else 0 := by
  obtain ⟨q', l, he, hl, ha, -⟩ := exists_handleReturn (F := F) h
  rw [countIn, countIn, he, List.getElem?_modify]
  split
  case isTrue hb  =>
    subst hb
    simp only [hl, Option.map_eq_map, Option.map_some, Option.getD_some, Weave.countP_insertBefore,
      ha, if_true]
  case isFalse hb => simp

-- The call at the head of the entry stays there.
theorem head_handleReturn (h : code[r.block]?.any (·.any (CloneItem.isAt r)))
    (hc : ∃ l, code[0]? = some (.op .funcInit :: l)) :
    ∃ l, (handleReturn F code r)[0]? = some (.op .funcInit :: l) := by
  obtain ⟨q', l, he, -, -, hq⟩ := exists_handleReturn (F := F) h
  obtain ⟨l', hl'⟩ := hc
  rw [he, List.getElem?_modify, hl']
  simp only [Option.map_eq_map, Option.map_some, Option.some.injEq]
  split
  · exact ⟨_, by rw [Weave.insertBefore, hq]; rfl⟩
  · exact ⟨_, rfl⟩

theorem countIn_foldl {rs : List Site} (hs : ∀ r ∈ rs, r ∈ returns F) (h : Complete F code)
    (q : Insertion → Bool) (b : Nat) :
    countIn (rs.foldl (handleReturn F) code) q b =
    countIn code q b +
    (rs.map fun r => if (clearBlock code).getD r.block = b then (returnCalls F r).countP q
      else 0).sum := by
  induction rs generalizing code with
  | nil          => simp
  | cons r rs ih =>
    have hr := hs r List.mem_cons_self
    rw [List.foldl_cons, ih (fun r h => hs r (List.mem_cons_of_mem _ h)) (h.handleReturn hr),
      countIn_handleReturn (h r hr), clearBlock_handleReturn (h r hr), List.map_cons, List.sum_cons,
      Nat.add_assoc]

theorem head_foldl {rs : List Site} (hs : ∀ r ∈ rs, r ∈ returns F) (h : Complete F code)
    (hc : ∃ l, code[0]? = some (.op .funcInit :: l)) :
    ∃ l, (rs.foldl (handleReturn F) code)[0]? = some (.op .funcInit :: l) := by
  induction rs generalizing code with
  | nil          => exact hc
  | cons r rs ih =>
    have hr := hs r List.mem_cons_self
    exact ih (fun r h => hs r (List.mem_cons_of_mem _ h)) (h.handleReturn hr)
      (head_handleReturn (h r hr) hc)

end HandleReturn

section Base

variable {F : Body}

-- A block before the calls at the returns.
def placed (F : Body) (b : Nat) : List CloneItem :=
  (if b = 0 then (inits F).map .op else []) ++
  match (returns F).getLast? with
  | some r => Weave.insertBefore (CloneItem.isAt r) (clears F) (Weave.code (F.block b))
  | none   => Weave.code (F.block b)

theorem getElem?_placeSlots (b : Nat) :
    (placeSlots F)[b]? = if b < F.blocks.length then some (placed F b) else none := by
  by_cases hb : b < F.blocks.length <;> simp [placeSlots, placed, hb]

theorem getElem?_handleFuncInit (b : Nat) :
    (handleFuncInit F (placeSlots F))[b]? =
    if b < F.blocks.length then
      some ((if b = 0 ∧ indexed F then [.op .funcInit] else []) ++ placed F b) else none := by
  rw [handleFuncInit]
  by_cases hb : b < F.blocks.length <;> cases hi : indexed F <;>
    by_cases h : b = 0 <;> simp [getElem?_placeSlots, hb, h, eq_comm (a := 0)]

theorem lt_of_mem_returns {r : Site} (h : r ∈ returns F) : r.block < F.blocks.length := by
  obtain ⟨v, hv⟩ := mem_returns.mp h
  obtain ⟨I, hI, -⟩ := Option.map_eq_some_iff.mp hv
  by_contra hn
  simp [Body.inst?, List.getElem?_eq_none (Nat.not_lt.mp hn)] at hI

theorem complete_handleFuncInit : Complete F (handleFuncInit F (placeSlots F)) := by
  intro r hr
  have hl := lt_of_mem_returns hr
  have hc := any_isAt hr r.block
  rw [getElem?_handleFuncInit, if_pos hl]
  simp only [Option.any_some, List.any_append, placed]
  cases (returns F).getLast? with
  | none   => simp [hc]
  | some e => simp [hc, Weave.any_insertBefore]

theorem any_clears :
    ((clears F).any fun e => CloneItem.isClear (.op e)) = decide (0 < slots F) := by
  rw [Bool.eq_iff_iff, decide_eq_true_iff, slots]
  simp only [clears, List.any_map, List.any_eq_true, Function.comp_apply, CloneItem.isClear,
    and_true, List.mem_append, List.mem_range', List.mem_range]
  constructor
  · rintro ⟨k, ⟨i, hi, -⟩ | hk⟩ <;> omega
  · intro h
    by_cases ht : 0 < temporaries F
    case pos => exact ⟨0, .inr ht⟩
    case neg => exact ⟨temporaries F, .inl ⟨0, by omega, by simp⟩⟩

theorem any_isClear_code (b : Nat) :
    (Weave.code (F.block b)).any CloneItem.isClear = (F.block b).any fun x =>
    CloneItem.isClear (.inst x) := by
  simp only [Weave.code, List.any_map, Function.comp_def]

theorem any_isClear_placed (b : Nat) : (placed F b).any CloneItem.isClear = hasClear F b := by
  have hi :
      (((if b = 0 then (inits F).map Weave.Item.op else []) : List CloneItem).any
        CloneItem.isClear) = false := by
    split
    · simp [inits, CloneItem.isClear]
    · rfl
  rw [placed, List.any_append, hi, Bool.false_or, hasClear]
  cases he : (returns F).getLast? with
  | none   => simp [any_isClear_code]
  | some e =>
    have hm := List.mem_of_getLast? he
    simp only [Weave.any_insertBefore, any_isAt hm, any_clears, any_isClear_code, Option.any_some]
    rw [Bool.and_comm (decide (e.block = b))]

theorem clearBlock_handleFuncInit : clearBlock (handleFuncInit F (placeSlots F)) = lastClear F := by
  have hl : (handleFuncInit F (placeSlots F)).length = F.blocks.length := by
    rw [handleFuncInit]
    split <;> simp [placeSlots]
  rw [clearBlock, lastClear, hl]
  congr 1
  refine List.filter_congr fun b hb => ?_
  rw [getElem?_handleFuncInit, if_pos (List.mem_range.mp hb), Option.any_some, List.any_append,
    any_isClear_placed]
  split <;> simp [CloneItem.isClear]

-- What is executed in a block apart from the calls at the returns.
theorem countIn_handleFuncInit {r : Site} (hr : r ∈ returns F) (q : Insertion → Bool) (b : Nat) :
    countIn (handleFuncInit F (placeSlots F)) q b =
    (if 0 = b then ((if indexed F then [Insertion.funcInit] else []) ++ inits F).countP q else 0) +
    if (returns F).getLast?.any (·.block = b) then (clears F).countP q else 0 := by
  have hc (b : Nat) : Weave.ops (Weave.code (F.block b) : List CloneItem) = [] := by
    induction F.block b with
    | nil          => rfl
    | cons x l ih  => exact ih
  by_cases hb : b < F.blocks.length
  case neg =>
    have h₀ : ¬0 = b := by have := lt_of_mem_returns hr; omega
    have hl : ((returns F).getLast?.any (·.block = b)) = false := by
      rw [Option.any_eq_false]
      intro e he
      have := lt_of_mem_returns (List.mem_of_getLast? he)
      simp only [decide_eq_false_iff_not]
      omega
    rw [countIn, getElem?_handleFuncInit, if_neg hb, if_neg h₀, hl]
    rfl
  rw [countIn, getElem?_handleFuncInit, if_pos hb]
  simp only [Option.getD_some, Weave.ops_append, placed, List.countP_append]
  have he : (Weave.ops (match (returns F).getLast? with
      | some r => Weave.insertBefore (CloneItem.isAt r) (clears F) (Weave.code (F.block b))
      | none   => Weave.code (F.block b))).countP q =
      if (returns F).getLast?.any (·.block = b) then (clears F).countP q else 0 := by
    cases he : (returns F).getLast? with
    | none   => simp [hc]
    | some e => simp [Weave.countP_insertBefore, hc, any_isAt (List.mem_of_getLast? he)]
  rw [he]
  by_cases h : b = 0
  case pos => cases indexed F <;> simp [h, Weave.ops]; omega
  case neg => simp [h, Ne.symm h, Weave.ops]

end Base

section Executed

variable {F : Function} {fl : Flow F.toBody} {p : List Nat} {r : Site}

theorem sum_map_ite {α : Type} [DecidableEq α] (p : List α) (c : α) (x : Nat) :
    (p.map fun b => if c = b then x else 0).sum = p.count c * x := by
  induction p with
  | nil          => simp
  | cons b p ih =>
    rw [List.map_cons, List.sum_cons, ih, List.count_cons]
    by_cases h : c = b <;> simp [h, eq_comm (a := b), Nat.add_mul, Nat.add_comm]

theorem sum_map_sum (p : List Nat) (rs : List Site) (f : Nat → Site → Nat) :
    (p.map fun b => (rs.map (f b)).sum).sum = (rs.map fun r => (p.map fun b => f b r).sum).sum := by
  induction p with
  | nil          => simp
  | cons b p ih => simp only [List.map_cons, List.sum_cons, ih, List.sum_map_add]

theorem ops_flatMap {ι ε α : Type} (l : List α) (f : α → List (Weave.Item ι ε)) :
    Weave.ops (l.flatMap f) = l.flatMap fun a => Weave.ops (f a) := by
  induction l with
  | nil          => rfl
  | cons a l ih => rw [List.flatMap_cons, List.flatMap_cons, Weave.ops_append, ih]

-- What is executed on a way to a return.
theorem countP_executed (h : fl.Path 0 p r) (q : Insertion → Bool) :
    (executed F p).countP q =
    ((if indexed (cloneFunction F.toBody) then [Insertion.funcInit] else []) ++
      inits (cloneFunction F.toBody)).countP q +
    (if (returns F.toBody).getLast? = some r then (clears (cloneFunction F.toBody)).countP q
      else 0) +
    ((returns F.toBody).map fun r' =>
      p.count ((lastClear (cloneFunction F.toBody)).getD r'.block) *
      (returnCalls (cloneFunction F.toBody) r').countP q).sum := by
  let C := cloneFunction F.toBody
  have hr : r ∈ returns C := h.mem
  have hb (b : Nat) : countIn (instrumented C) q b =
      (if 0 = b then ((if indexed C then [Insertion.funcInit] else []) ++ inits C).countP q
        else 0) +
      (if (returns C).getLast?.any (·.block = b) then (clears C).countP q else 0) +
      ((returns C).map fun r' =>
        if (lastClear C).getD r'.block = b then (returnCalls C r').countP q else 0).sum := by
    rw [instrumented, countIn_foldl (fun _ h => h) complete_handleFuncInit,
      clearBlock_handleFuncInit, countIn_handleFuncInit hr]
  have he : (executed F p).countP q = (p.map (countIn (instrumented C) q)).sum := by
    rw [executed, trace, ops_flatMap, List.countP_flatMap]
    rfl
  have hl : (p.map fun b =>
    if (returns C).getLast?.any (·.block = b) then (clears C).countP q else 0).sum =
      if (returns C).getLast? = some r then (clears C).countP q else 0 := by
    cases hl : (returns C).getLast? with
    | none   => simp
    | some e =>
      have hc := h.count_return (List.mem_of_getLast? hl)
      simp only [Option.any_some, decide_eq_true_eq, sum_map_ite, hc, Option.some.injEq]
      split <;> simp
  rw [he, List.map_congr_left (fun b _ => hb b)]
  simp only [List.sum_map_add, sum_map_sum, sum_map_ite, hl, h.count_entry, Nat.one_mul]
  rfl

-- The only return of a function whose clone clears something is the last one.
theorem sum_eq_of_single (h : fl.Path 0 p r)
    (hs : ∀ b ∈ lastClear (cloneFunction F.toBody), p.count b = 1 ∧ (returns F.toBody).length = 1)
    (f : Site → Nat) :
    ((returns F.toBody).map fun r' =>
      p.count ((lastClear (cloneFunction F.toBody)).getD r'.block) * f r').sum = f r := by
  cases hl : lastClear (cloneFunction F.toBody) with
  | none   =>
    have he : ∀ r' ∈ returns F.toBody, p.count r'.block * f r' = if r = r' then f r else 0 := by
      intro r' hr'
      rw [h.count_return hr']
      by_cases he : r = r'
      case pos => simp [he]
      case neg => simp [he, Ne.symm he]
    simp only [Option.getD_none]
    rw [List.map_congr_left he, sum_map_ite, List.count_eq_one_of_mem nodup_returns h.mem,
      Nat.one_mul]
  | some b =>
    obtain ⟨hb, hn⟩ := hs b hl
    obtain ⟨r', hr'⟩ := List.length_eq_one_iff.mp hn
    obtain rfl : r = r' := by simpa [hr'] using h.mem
    simp [hr', hb]

theorem countP_executed_of_single (h : fl.Path 0 p r)
    (hs : ∀ b ∈ lastClear (cloneFunction F.toBody), p.count b = 1 ∧ (returns F.toBody).length = 1)
    (q : Insertion → Bool) :
    (executed F p).countP q =
    ((if indexed (cloneFunction F.toBody) then [Insertion.funcInit] else []) ++
      inits (cloneFunction F.toBody)).countP q +
    (if (returns F.toBody).getLast? = some r then (clears (cloneFunction F.toBody)).countP q
      else 0) +
    (returnCalls (cloneFunction F.toBody) r).countP q := by
  rw [countP_executed h, sum_eq_of_single h hs]

theorem countP_inits (C : Body) (q : Insertion → Bool) (hq : ∀ k, q (.init k) = false) :
    (inits C).countP q = 0 := by
  simp [inits, List.countP_map, Function.comp_def, hq]

theorem countP_clears (C : Body) (q : Insertion → Bool) (hq : ∀ k, q (.clear k) = false) :
    (clears C).countP q = 0 := by
  simp [clears, List.countP_map, Function.comp_def, hq]

theorem countP_returnCalls (C : Body) (q : Insertion → Bool) (he : q .funcExit = false)
    (hr : q (returned C r) = false) :
    (returnCalls C r).countP q = 0 := by
  rw [List.countP_eq_zero]
  intro e hm
  obtain rfl | rfl := mem_returnCalls hm <;> simp [*]

theorem count_funcInit (h : fl.Path 0 p r) :
    (executed F p).count .funcInit = if indexed (cloneFunction F.toBody) then 1 else 0 := by
  have hr (r' : Site) : (returnCalls (cloneFunction F.toBody) r').countP (· == .funcInit) = 0 := by
    refine countP_returnCalls _ _ rfl ?_
    rw [returned]
    split <;> rfl
  rw [List.count, countP_executed h, List.countP_append, countP_inits _ _ fun _ => rfl,
    countP_clears _ _ fun _ => rfl]
  simp only [hr, Nat.mul_zero, List.map_const', List.sum_replicate, ite_self]
  cases indexed (cloneFunction F.toBody) <;> simp

theorem count_funcExit (h : fl.Path 0 p r) (hi : indexed (cloneFunction F.toBody)) :
    (executed F p).count .funcExit =
    ((returns F.toBody).map fun r' =>
      p.count ((lastClear (cloneFunction F.toBody)).getD r'.block)).sum := by
  have hr (r' : Site) : (returnCalls (cloneFunction F.toBody) r').countP (· == .funcExit) = 1 := by
    have hn : Insertion.funcExit ≠ returned (cloneFunction F.toBody) r' := by
      rw [returned]
      split <;> simp
    rw [returnCalls, hi, List.countP_append]
    split
    · split <;> simp [hn.symm]
    · rfl
  rw [List.count, countP_executed h, List.countP_append, countP_inits _ _ fun _ => rfl,
    countP_clears _ _ fun _ => rfl, hi]
  simp [hr]

-- If the calls at the returns have one place, each return executes all of them there.
theorem single_of_count_funcExit (h : fl.Path 0 p r) (hi : indexed (cloneFunction F.toBody))
    (he : (executed F p).count .funcExit = 1) :
    ∀ b ∈ lastClear (cloneFunction F.toBody), p.count b = 1 ∧ (returns F.toBody).length = 1 := by
  intro b hb
  rw [count_funcExit h hi, Option.mem_def.mp hb] at he
  have he : (returns F.toBody).length * p.count b = 1 := by simpa using he
  exact ⟨Nat.eq_one_of_mul_eq_one_left he, Nat.eq_one_of_mul_eq_one_right he⟩

theorem Flow.Path.getLast?_returns (h : fl.Path 0 p r) (hn : (returns F.toBody).length = 1) :
    (returns F.toBody).getLast? = some r := by
  obtain ⟨r', hr⟩ := List.length_eq_one_iff.mp hn
  obtain rfl : r = r' := by simpa [hr] using h.mem
  rw [hr, List.getLast?_singleton]

-- A clone with a slot has a place where it is cleared.
theorem isSome_lastClear {C : Body} {r : Site} (hr : r ∈ returns C) (hk : 0 < slots C) :
    (lastClear C).isSome := by
  obtain ⟨e, he⟩ : ∃ e, (returns C).getLast? = some e := by
    cases hl : (returns C).getLast? with
    | none   => simp [List.getLast?_eq_none_iff.mp hl] at hr
    | some e => exact ⟨e, rfl⟩
  have hm : e.block ∈ (List.range C.blocks.length).filter (hasClear C) :=
    List.mem_filter.mpr ⟨List.mem_range.mpr (lt_of_mem_returns (List.mem_of_getLast? he)), by
      simp [hasClear, he, hk]⟩
  exact List.getLast?_isSome.mpr (List.ne_nil_of_mem hm)

theorem count_init {C : Body} {k : Nat} (hk : k < slots C) : (inits C).count (.init k) = 1 := by
  have hi : Function.Injective Insertion.init := fun _ _ h => Insertion.init.inj h
  rw [inits, List.count_map_of_injective _ _ hi, List.count_range, if_pos hk]

theorem count_clear {C : Body} {k : Nat} (hk : k < slots C) : (clears C).count (.clear k) = 1 := by
  have hi : Function.Injective Insertion.clear := fun _ _ h => Insertion.clear.inj h
  rw [slots] at hk
  rw [clears, List.count_map_of_injective _ _ hi, List.count_append, List.count_range,
    List.count_range_1']
  split <;> split <;> omega

theorem count_slot (h : fl.Path 0 p r)
    (hs : ∀ b ∈ lastClear (cloneFunction F.toBody), p.count b = 1 ∧ (returns F.toBody).length = 1)
    {k : Nat} (hk : k < slots (cloneFunction F.toBody)) :
    (executed F p).count (.init k) = 1 ∧ (executed F p).count (.clear k) = 1 := by
  have hr (e : Insertion) (hf : e ≠ .funcExit) (he : e.isResult = false) :
      (returnCalls (cloneFunction F.toBody) r).countP (· == e) = 0 := by
    refine countP_returnCalls _ _ (by simpa using hf.symm) ?_
    rw [returned]
    cases e <;> split <;> first | rfl | cases he
  have hf (e : Insertion) (hf : e ≠ .funcInit) :
      (if indexed (cloneFunction F.toBody) then [Insertion.funcInit] else []).countP (· == e) =
        0 := by
    split <;> simp [hf.symm]
  obtain ⟨b, hb⟩ :=
    Option.isSome_iff_exists.mp
      (isSome_lastClear (C := cloneFunction F.toBody) h.mem (Nat.zero_lt_of_lt hk))
  have hl := h.getLast?_returns (hs b hb).right
  constructor
  · rw [List.count, countP_executed_of_single h hs, List.countP_append,
      countP_clears _ _ fun _ => rfl, hr _ (by simp) rfl, hf _ (by simp), ← List.count,
      count_init hk]
    simp
  · rw [List.count, countP_executed_of_single h hs, List.countP_append,
      countP_inits _ _ fun _ => rfl, hr _ (by simp) rfl, hf _ (by simp), if_pos hl, ← List.count,
      count_clear hk]

theorem countP_isResult (h : fl.Path 0 p r)
    (hs : ∀ b ∈ lastClear (cloneFunction F.toBody), p.count b = 1 ∧ (returns F.toBody).length = 1)
    {v : Operand} (hv : (F.inst? r |>.map Inst.op) = some (.ret (some v)))
    (hf : (F.typeOf v).isFloatType) :
    (executed F p).countP Insertion.isResult = if v.isArg then 0 else 1 := by
  have hr : (returnCalls (cloneFunction F.toBody) r).countP Insertion.isResult =
      if v.isArg then 0 else 1 := by
    have he : (if indexed (cloneFunction F.toBody) then [Insertion.funcExit] else []).countP
        Insertion.isResult = 0 := by
      split <;> rfl
    have hn : (returned (cloneFunction F.toBody) r).isResult := by
      rw [returned]
      split <;> rfl
    rw [returnCalls, inst?_cloneFunction, hv, List.countP_append, he]
    simp only [isFloatType_cloneFunction, hf, Bool.true_and]
    cases v.isArg <;> simp [hn]
  have hi : (if indexed (cloneFunction F.toBody) then [Insertion.funcInit] else []).countP
      Insertion.isResult = 0 := by
    split <;> rfl
  rw [countP_executed_of_single h hs, List.countP_append, countP_inits _ _ fun _ => rfl,
    countP_clears _ _ fun _ => rfl, hi, hr]
  simp

-- The one call for the result of a return is that for the return itself.
theorem mem_executed (h : fl.Path 0 p r)
    (hs : ∀ b ∈ lastClear (cloneFunction F.toBody), p.count b = 1 ∧ (returns F.toBody).length = 1)
    {v : Operand} (hv : (F.inst? r |>.map Inst.op) = some (.ret (some v)))
    (hf : (F.typeOf v).isFloatType) (ha : v.isArg = false) :
    returned (cloneFunction F.toBody) r ∈ executed F p := by
  rw [← List.one_le_count_iff]
  have hr : 1 ≤ (returnCalls (cloneFunction F.toBody) r).countP
      (· == returned (cloneFunction F.toBody) r) := by
    rw [returnCalls, inst?_cloneFunction, hv]
    simp [hf, ha]
  rw [List.count, countP_executed_of_single h hs]
  omega

theorem once_iff_fits_path (h : fl.Path 0 p r) : Once F p r ↔ Fits F p r := by
  constructor
  · intro ho
    have hi : indexed (cloneFunction F.toBody) := by
      by_contra hn
      have hc := count_funcInit h
      rw [ho.init, if_neg hn] at hc
      exact absurd hc (by decide)
    have hs := single_of_count_funcExit h hi ho.exit
    refine ⟨hi, fun v hv hf => ?_, hs⟩
    by_contra ha
    have hc := countP_isResult h hs hv hf
    rw [List.countP_eq_length_filter, ho.result v hv hf, if_pos (by simpa using ha)] at hc
    exact absurd hc (by simp)
  · intro hf
    have hs := hf.single
    exact {
      init   := by rw [count_funcInit h, if_pos hf.indexed]
      exit   := by rw [count_funcExit h hf.indexed]; simpa using sum_eq_of_single h hs fun _ => 1
      slots  := fun k hk => count_slot h hs hk
      result := by
        intro v hv ht
        have ha := hf.value v hv ht
        have hc := countP_isResult h hs hv ht
        rw [ha, if_neg (by decide), List.countP_eq_length_filter] at hc
        obtain ⟨e, he⟩ := List.length_eq_one_iff.mp hc
        have hm : returned (cloneFunction F.toBody) r ∈
            (executed F p).filter Insertion.isResult := by
          refine List.mem_filter.mpr ⟨mem_executed h hs hv ht ha, ?_⟩
          rw [returned]
          split <;> rfl
        rw [he] at hm ⊢
        rw [List.mem_singleton.mp hm]
    }

end Executed

section Nest

-- The functions whose clones an instruction of a clone may call.
def CallsClone (M : Module) (F : Function) (x : Site × Inst) (G : Function) : Prop :=
  let C := cloneFunction F.toBody
  (∃ g, .shadow g ∈ (emitted M C x).flatMap finish ∧ M.definition? g = some G) ∨
  .lookup ∈ (emitted M C x).flatMap finish ∧ G ∈ M.clones

-- The insertions that are executed from some code on, with those of the clones that it calls. Each
-- clone goes a way to a return of which `P` holds.
inductive Nest (M : Module) (P : Function → List Nat → Site → Prop) :
    Function → List CloneItem → List Insertion → Prop
  | done : Nest M P F [] []
  | op   : Nest M P F l es → Nest M P F (.op e :: l) (e :: es)
  | inst : Nest M P F l es → Nest M P F (.inst x :: l) es
  | call :
      CallsClone M F x G → (fl : Flow G.toBody) → fl.Path 0 p r → P G p r →
      Nest M P G (trace G p) gs →
           Nest M P F l es → Nest M P F (.inst x :: l) (gs ++ es)

-- What the runtime does to the key stack.
def Insertion.run {V D : Type} (s : Metadata.State V D) : Insertion → Metadata.State V D
  | funcInit => Metadata.funcInit s
  | funcExit => Metadata.funcExit s
  | _        => s

-- What it does while insertions are executed. Any calls on metadata may be made in between.
inductive Evolves {V D : Type} (A : Metadata.Mpfr V D) (B : Metadata.Doubles D) :
    List Insertion → Metadata.State V D → Metadata.State V D → Prop
  | done : Evolves A B [] s s
  | op   : Evolves A B es (e.run s) s' → Evolves A B (e :: es) s s'
  | call : Metadata.Call.exec A B k s = some s₁ → Evolves A B es s₁ s' → Evolves A B es s s'

variable {V D : Type} {A : Metadata.Mpfr V D} {B : Metadata.Doubles D} {s s' : Metadata.State V D}

theorem Evolves.append {es es' : List Insertion} (h : Evolves A B (es ++ es') s s') :
    ∃ m, Evolves A B es s m ∧ Evolves A B es' m s' := by
  generalize hl : es ++ es' = l at h
  induction h generalizing es with
  | done =>
    obtain ⟨rfl, rfl⟩ := List.append_eq_nil_iff.mp hl
    exact ⟨_, .done, .done⟩
  | op h ih =>
    cases es with
    | nil       =>
      obtain rfl : es' = _ := by simpa using hl
      exact ⟨_, .done, .op h⟩
    | cons e es =>
      obtain ⟨rfl, rfl⟩ := List.cons.inj hl
      obtain ⟨m, h₁, h₂⟩ := ih rfl
      exact ⟨m, .op h₁, h₂⟩
  | call e h ih =>
    obtain ⟨m, h₁, h₂⟩ := ih hl
    exact ⟨m, .call e h₁, h₂⟩

theorem Evolves.nil (h : Evolves A B [] s s') : s'.keyStackTop = s.keyStackTop := by
  generalize hl : ([] : List Insertion) = l at h
  induction h with
  | done        => rfl
  | op          => cases hl
  | call e _ ih => exact (ih hl).trans (Metadata.Call.outcome e).sameKeys.keyStackTop

-- The first insertion is executed after some calls.
theorem Evolves.cons {e : Insertion} {es : List Insertion} (h : Evolves A B (e :: es) s s') :
    ∃ m, m.keyStackTop = s.keyStackTop ∧ Evolves A B es (e.run m) s' := by
  generalize hl : e :: es = l at h
  induction h with
  | done => cases hl
  | op h =>
    obtain ⟨rfl, rfl⟩ := List.cons.inj hl
    exact ⟨_, rfl, h⟩
  | call e _ ih =>
    obtain ⟨m, hm, h⟩ := ih hl
    exact ⟨m, hm.trans (Metadata.Call.outcome e).sameKeys.keyStackTop, h⟩

variable {M : Module} {F : Function} {fl : Flow F.toBody} {p : List Nat} {r : Site}

-- A clone starts with the call of `fpsan_func_init`.
theorem exists_trace (h : fl.Path 0 p r) (hi : indexed (cloneFunction F.toBody)) :
    ∃ l, trace F p = .op .funcInit :: l := by
  have hb : 0 < (cloneFunction F.toBody).blocks.length :=
    Nat.zero_lt_of_lt (lt_of_mem_returns (F := cloneFunction F.toBody) h.mem)
  have hc : ∃ l,
      (handleFuncInit (cloneFunction F.toBody) (placeSlots (cloneFunction F.toBody)))[0]? =
      some (.op .funcInit :: l) := by
    rw [getElem?_handleFuncInit, if_pos hb, if_pos ⟨rfl, hi⟩]
    exact ⟨_, rfl⟩
  obtain ⟨l, hl⟩ :=
    head_foldl (F := cloneFunction F.toBody) (fun _ h => h) complete_handleFuncInit hc
  obtain ⟨p', rfl, -⟩ := h.exists_cons
  have hl : (instrumented (cloneFunction F.toBody))[0]? = some (.op .funcInit :: l) := hl
  exact ⟨_, by rw [trace, List.flatMap_cons, hl, Option.getD_some, List.cons_append]⟩

-- The entry of a clone raises the key stack by one, and each exit lowers it. The calls in
-- between leave it as it is.
theorem Nest.keyStackTop {l : List CloneItem} {es : List Insertion}
    (h : Nest M Once F l es) (e : Evolves A B es s s') :
    ((Weave.ops l).count .funcInit = 0 →
      s'.keyStackTop = s.keyStackTop - (Weave.ops l).count .funcExit) ∧
    ∀ l', l = .op .funcInit :: l' → (Weave.ops l').count .funcInit = 0 →
      s'.keyStackTop = s.keyStackTop + 1 - (Weave.ops l').count .funcExit := by
  induction h generalizing s s' with
  | done =>
    refine ⟨fun _ => ?_, fun _ hl => by cases hl⟩
    simpa [Weave.ops] using e.nil
  | @op F l es a h ih =>
    obtain ⟨m, hm, e⟩ := e.cons
    obtain ⟨ih, -⟩ := ih e
    constructor
    · intro hn
      simp only [Weave.ops, List.count_cons] at hn ⊢
      have ih := ih (by omega)
      cases a with
      | funcInit => simp at hn
      | funcExit =>
        have hr : (Insertion.run m .funcExit).keyStackTop = m.keyStackTop - 1 := rfl
        rw [ih, hr, hm]
        simp
        omega
      | _ => simpa [Insertion.run, hm] using ih
    · rintro l' hl hn
      obtain ⟨rfl, rfl⟩ : a = .funcInit ∧ l = l' := by simpa using hl
      have hr : (Insertion.run m .funcInit).keyStackTop = m.keyStackTop + 1 := rfl
      rw [ih hn, hr, hm]
  | inst h ih => exact ⟨(ih e).left, fun _ hl => by cases hl⟩
  | @call F x G p r gs l es hc fl hp ho hg h ihg ih =>
    obtain ⟨m, e₁, e₂⟩ := e.append
    have hi : indexed (cloneFunction G.toBody) := ((once_iff_fits_path hp).mp ho).indexed
    obtain ⟨l', hl⟩ := exists_trace hp hi
    have hn := ho.init
    have hx := ho.exit
    rw [executed, hl] at hn hx
    simp only [Weave.ops, List.count_cons] at hn hx
    have hm := (ihg e₁).right l' hl (by simpa using hn)
    have hx : (Weave.ops l').count .funcExit = 1 := by simpa using hx
    rw [hx] at hm
    refine ⟨fun hn => ?_, fun _ hl => by cases hl⟩
    rw [(ih e₂).left hn, hm, Nat.add_sub_cancel]
    rfl

theorem Nest.mono {P Q : Function → List Nat → Site → Prop}
    (hi : ∀ {F : Function} {fl : Flow F.toBody} {p : List Nat} {r : Site}, fl.Path 0 p r → P F p r →
      Q F p r)
    {l : List CloneItem} {es : List Insertion} (h : Nest M P F l es) : Nest M Q F l es := by
  induction h with
  | done                        => exact .done
  | op _ ih                     => exact .op ih
  | inst _ ih                   => exact .inst ih
  | call hc fl hp ho _ _ ihg ih => exact .call hc fl hp (hi hp ho) ihg ih

theorem Nest.balanced (h : fl.Path 0 p r) (ho : Once F p r) {es : List Insertion}
    (hn : Nest M Once F (trace F p) es) (e : Evolves A B es s s') :
    s'.keyStackTop = s.keyStackTop := by
  obtain ⟨l, hl⟩ := exists_trace h ((once_iff_fits_path h).mp ho).indexed
  have hi := ho.init
  have hx := ho.exit
  rw [executed, hl] at hi hx
  simp only [Weave.ops, List.count_cons] at hi hx
  have ht := (hn.keyStackTop e).right l hl (by simpa using hi)
  have hx : (Weave.ops l).count .funcExit = 1 := by simpa using hx
  rw [ht, hx, Nat.add_sub_cancel]

-- On every way of a clone from its entry to a return, everything is done once exactly if the
-- condition is met, and calls of clones that meet it leave the key stack as it has been.
theorem once_iff_fits (M : Module) (h : fl.Path 0 p r) :
    (Once F p r ↔ Fits F p r) ∧
    ∀ es, Fits F p r → Nest M Fits F (trace F p) es →
      ∀ {V D : Type} (A : Metadata.Mpfr V D) (B : Metadata.Doubles D) (s s' : Metadata.State V D),
      Evolves A B es s s' → s'.keyStackTop = s.keyStackTop :=
  ⟨once_iff_fits_path h, fun _ hf hn _ _ _ _ _ _ e =>
    Nest.balanced h ((once_iff_fits_path h).mpr hf) (hn.mono fun hp => (once_iff_fits_path hp).mpr)
      e⟩

-- Code that calls no clone.
theorem Nest.plain (P : Function → List Nat → Site → Prop) (l : List CloneItem) :
    Nest M P F l (Weave.ops l) := by
  induction l with
  | nil          => exact .done
  | cons a l ih  =>
    cases a with
    | inst x => exact .inst ih
    | op e   => exact .op ih

end Nest

section Scale

-- A function with one return.
def scale : Function where
  name    := "scale"
  params  := [⟨"x", .ptr .double⟩]
  blocks  := [⟨"entry", [⟨"0", .double, .load (.arg 0)⟩,
    ⟨"mul", .double, .binary .fmul (.inst ⟨0, 0⟩) (.const .double 2)⟩,
    ⟨"", .void, .ret (some (.inst ⟨0, 1⟩))⟩]⟩]
  typed   := by simp [Body.insts, Body.block]
  noMeta  := by simp [Ty.isMPtrTy]
  foreign := by simp [Body.insts, Body.block, Body.typeOf, Op.operands, Body.inst?, Ty.isMPtrTy]
  ordered := by simp [Body.insts, Body.block, Op.condition?]
  memory  := by simp [Body.insts, Body.block]
  unnamed := by simp [Body.insts, Body.block]

theorem returns_scale : returns scale.toBody = [⟨0, 2⟩] := rfl

def scaleFlow : Flow scale.toBody where
  succ _ := []
  entry  := by simp
  leaves := by simp
  unique := by simp [returns_scale]

theorem fits_scale : Fits scale [0] ⟨0, 2⟩ where
  indexed := by decide
  value   := by
    intro v hv _
    obtain rfl : Operand.inst ⟨0, 1⟩ = v := by simpa [Body.inst?, scale] using hv
    rfl
  single  := by
    intro b hb
    obtain rfl : b = 0 := by
      have hl : lastClear (cloneFunction scale.toBody) = some 0 := by decide
      simpa [hl, eq_comm] using hb
    decide

theorem once_scale : Once scale [0] ⟨0, 2⟩ ∧
    ∀ {V D : Type} (A : Metadata.Mpfr V D) (B : Metadata.Doubles D) (s s' : Metadata.State V D),
      Evolves A B (executed scale [0]) s s' → s'.keyStackTop = s.keyStackTop :=
  have hp : scaleFlow.Path 0 [0] ⟨0, 2⟩ := .ret (r := ⟨0, 2⟩) (by decide)
  have h := once_iff_fits ⟨[scale], [], [], [], []⟩ hp
  ⟨h.left.mpr fits_scale, h.right _ fits_scale (.plain _ _)⟩

end Scale

section Pick

-- A function with two returns.
def pick : Function where
  name    := "pick"
  params  := [⟨"x", .ptr .double⟩, ⟨"c", .int 1⟩]
  blocks  := [⟨"entry", [⟨"", .void, .br (some (.arg 1))⟩]⟩,
    ⟨"then", [⟨"0", .double, .load (.arg 0)⟩, ⟨"", .void, .ret (some (.inst ⟨1, 0⟩))⟩]⟩,
    ⟨"else", [⟨"", .void, .ret (some (.const .double 0))⟩]⟩]
  typed   := by simp [Body.insts, Body.block, List.range, List.range.loop]
  noMeta  := by simp [Ty.isMPtrTy]
  foreign := by
    simp [Body.insts, Body.block, List.range, List.range.loop, Body.typeOf, Op.operands, Body.inst?,
      Ty.isMPtrTy]
  ordered := by simp [Body.insts, Body.block, List.range, List.range.loop, Op.condition?]
  memory  := by simp [Body.insts, Body.block, List.range, List.range.loop]
  unnamed := by simp [Body.insts, Body.block, List.range, List.range.loop]

theorem returns_pick : returns pick.toBody = [⟨1, 1⟩, ⟨2, 0⟩] := rfl

def pickFlow : Flow pick.toBody where
  succ b := if b = 0 then [1, 2] else []
  entry  := by intro b; split <;> simp
  leaves := by simp [returns_pick]
  unique := by simp [returns_pick]

-- The first one leaves the key stack as it is, and the second one lowers it twice.
theorem not_once_pick :
    ¬∀ (F : Function) (fl : Flow F.toBody) (p : List Nat) (r : Site), fl.Path 0 p r →
    Once F p r := by
  intro h
  have hp : pickFlow.Path 0 [0, 1] ⟨1, 1⟩ :=
    .step (by decide : 1 ∈ pickFlow.succ 0) (.ret (r := ⟨1, 1⟩) (by decide))
  have he := (h pick pickFlow _ _ hp).exit
  exact absurd he (by decide)

end Pick

end Pass
