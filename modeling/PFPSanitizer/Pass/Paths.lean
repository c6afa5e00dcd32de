import PFPSanitizer.Pass.Channel

namespace Pass

variable (F : Body)

-- The instructions that send the condition they depend on.
def decides : Site × Inst → Option Site
  | (_, I) =>
    match I.op with
    | .select c l r => if I.ty.isFloatType then (Op.select c l r).condition? else none
    | op            => op.condition?

-- The values of an instruction that its clone needs: the addresses of FP accesses, FP values that
-- come from memory or from integers, and conditions, once for all uses of a comparison.
def transfers : Site × Inst → List Send
  | (s, I) =>
    match I.op with
    | .load p                  =>
      if I.ty.isFloatType then [⟨.address, p⟩, ⟨.loaded, .inst s⟩] else []
    | .store v p               => if (F.typeOf v).isFloatType then [⟨.address, p⟩] else []
    | .bitcast _               => if I.ty.isFloatType then [⟨.converted, .inst s⟩] else []
    | .sitofp _ | .uitofp _    => [⟨.converted, .inst s⟩]
    | .br (some c) | .switch c => [⟨.condition, c⟩]
    | .select c _ _            => if I.ty.isFloatType then [⟨.condition, c⟩] else []
    | .fcmp _ _                =>
      if s ∈ F.insts.filterMap decides then [] else [⟨.condition, .inst s⟩]
    | .call g args             =>
      if startswith g "llvm.memcpy" then memcpy F args
      else if startswith g "llvm.memset" then memset F args
      else []
    | _                        => []

-- The functions whose clones keep their own branches.
def unbranched : Bool :=
  let f := (cloneFunction F).name
  startswith f "start_slice" || startswith f "end_slice" || startswith f "fpsan"

-- The conditions that are pushed but not read where they are used.
def lost : Site × Inst → Bool
  | (_, I) =>
    match I.op with
    | .br (some _) | .switch _ => unbranched F
    | .select _ l r            => I.ty.isFloatType && l.isArg && r.isArg
    | _                        => false

-- The comparisons that are read where they are computed, since all the uses
-- that push them are lost.
def late : Site × Inst → Bool
  | (s, I) =>
    match I.op with
    | .fcmp _ _ =>
      s ∈ F.insts.filterMap decides && s ∉ (F.insts.filter (!lost F ·)).filterMap decides
    | _ => false

-- No name of the program is one that the pass gives.
structure CleanNames : Prop where
  blocks   : ∀ x ∈ F.insts, startswith (F.blockName x.fst.block) "update" = false
  insts    : ∀ x ∈ F.insts, startswith x.snd.name "my_" = false
  operands : ∀ x ∈ F.insts, ∀ v ∈ x.snd.op.operands, startswith (F.nameOf v) "my_" = false

-- The only calls are those of the memory intrinsics.
def CallFree : Prop :=
  ∀ x ∈ F.insts,
    match x.snd.op with
    | .call g _                => startswith g "llvm.memset" ∨ startswith g "llvm.memcpy"
    | .icall _ _ | .invoke _ _ => False
    | _                        => True

variable {F : Function} {M : Module}

theorem mem_conditions {ss : List Send} {t : Site} :
    t ∈ conditions ss ↔ ⟨.condition, .inst t⟩ ∈ ss := by
  simp only [conditions, List.mem_filterMap]
  constructor
  · intro ⟨e, he, ht⟩
    split at ht
    case h_1 => cases ht; exact he
    case h_2 => cases ht
  · exact fun h => ⟨_, h, rfl⟩

theorem mem_conditions_flatMap {f : Site × Inst → List Send} {is : List (Site × Inst)} {t : Site} :
    t ∈ conditions (is.flatMap f) ↔ ∃ x ∈ is, ⟨.condition, .inst t⟩ ∈ f x := by
  rw [mem_conditions, List.mem_flatMap]

theorem mem_pushConditions {x : Site × Inst} (hx : x ∈ F.insts) (hc : CleanNames F.toBody)
    {t : Site} :
    ⟨.condition, .inst t⟩ ∈ pushConditions F.toBody x ++ handleSelectProducer F.toBody x ↔
    decides x = some t := by
  have hb := hc.blocks x hx
  have hn := hc.insts x hx
  have ht := F.typed x hx
  obtain ⟨s, name, ty, op⟩ := x
  simp only [pushConditions, handleSelectProducer, hb, hn, decides, Bool.or_false]
  cases op with
  | select c l r =>
    simp only [(ht c l r rfl).left]
    cases ty.isFloatType <;> cases c <;> simp [Op.condition?, eq_comm]
  | br c =>
    cases c with
    | none   => simp [Op.condition?]
    | some c => cases c <;> simp [Op.condition?, eq_comm]
  | switch c => cases c <;> simp [Op.condition?, eq_comm]
  | _ => simp [Op.condition?]

theorem mem_fcmpMapPush (hc : CleanNames F.toBody) {t : Site} :
    t ∈ fcmpMapPush F.toBody ↔ t ∈ F.insts.filterMap decides := by
  rw [fcmpMapPush, mem_conditions_flatMap, List.mem_filterMap]
  exact exists_congr fun _ => and_congr_right fun hx => mem_pushConditions hx hc

theorem CleanNames.inUpdate (hc : CleanNames F.toBody) {x : Site × Inst} (hx : x ∈ F.insts) :
    inUpdate F.toBody x.fst = false := by
  simp [Pass.inUpdate, hc.blocks x hx]

theorem not_memcpy_of_memset {g : String} (h : startswith g "llvm.memset") :
    startswith g "llvm.memcpy" = false :=
  not_startswith (by decide) (by decide) h

theorem not_memset_of_memcpy {g : String} (h : startswith g "llvm.memcpy") :
    startswith g "llvm.memset" = false :=
  not_startswith (by decide) (by decide) h

theorem pushes_eq_transfers (hc : CleanNames F.toBody) (hf : CallFree F.toBody) {x : Site × Inst}
    (hx : x ∈ F.insts) : pushes M F.toBody x = transfers F.toBody x := by
  have hb := hc.blocks x hx
  have hu := hc.inUpdate hx
  have hn := hc.insts x hx
  have ho := hc.operands x hx
  have ht := F.typed x hx
  have hp := F.foreign x hx
  have hf := hf x hx
  have hm := F.memory x hx
  obtain ⟨s, name, ty, op⟩ := x
  simp only [pushes, pushesBefore, pushesAfter, transfers, pushConditions, handleSelectProducer,
    handleCallInstProducer, handleICallInstProducer, handleFcmpProducer, pushValues, hb, hu, hn,
    mem_fcmpMapPush hc, Bool.or_false]
  cases op with
  | select c l r => simp [(ht c l r rfl).left]
  | store v p    => simp [ho p (by simp [Op.operands]), hp v (by simp [Op.operands])]
  | icall f args => cases hf
  | call g args =>
    have hv := hm g args rfl
    cases hf with
    | inl hg =>
      simp [hg, not_memcpy_of_memset hg,
        hv (startswith_of_append (p := "llvm.mem") (q := "set") hg)]
    | inr hg =>
      simp [hg, not_memset_of_memcpy hg,
        hv (startswith_of_append (p := "llvm.mem") (q := "cpy") hg)]
  | br c => cases c <;> simp
  | _ => simp

theorem handleBranch_cloneFunction (x : Site × Inst) :
    handleBranch (cloneFunction F.toBody) x =
    if unbranched F.toBody then [] else
      match x.snd.op with
      | .br (some c) | .switch c => [⟨.condition, c⟩]
      | _                        => [] :=
  rfl

theorem mem_handleBranch {x : Site × Inst} (hx : x ∈ F.insts) {t : Site} :
    ⟨.condition, .inst t⟩ ∈
      handleBranch (cloneFunction F.toBody) x ++ handleSelect (cloneFunction F.toBody) x ↔
    lost F.toBody x = false ∧ decides x = some t := by
  have ht := F.typed x hx
  obtain ⟨s, name, ty, op⟩ := x
  simp only [handleBranch_cloneFunction, handleSelect, decides, lost, isFloatType_cloneFunction]
  cases op with
  | select c l r =>
    obtain ⟨hl, hr⟩ := ht c l r rfl
    simp only [hl, hr]
    cases ty.isFloatType <;> cases l.isArg <;> cases r.isArg <;> cases c <;>
      simp [Op.condition?, @eq_comm _ t]
  | br c =>
    cases c with
    | none   => simp [Op.condition?]
    | some c => cases unbranched F.toBody <;> cases c <;> simp [Op.condition?, @eq_comm _ t]
  | switch c => cases unbranched F.toBody <;> cases c <;> simp [Op.condition?, @eq_comm _ t]
  | _ => simp [Op.condition?]

theorem mem_fcmpMap {t : Site} :
    t ∈ fcmpMap (cloneFunction F.toBody) ↔
    t ∈ (F.insts.filter (!lost F.toBody ·)).filterMap decides := by
  rw [fcmpMap, mem_conditions_flatMap, List.mem_filterMap, insts_cloneFunction]
  simp only [List.mem_filter, Bool.not_eq_eq_eq_not, Bool.not_true, and_assoc]
  exact exists_congr fun _ => and_congr_right fun hx => mem_handleBranch hx

theorem toFloat_cloneFunction (v : Operand) :
    toFloat (cloneFunction F.toBody) v = toFloat F.toBody v := by
  cases v <;> simp [toFloat]

theorem memset_cloneFunction (vs : List Operand) :
    memset (cloneFunction F.toBody) vs = memset F.toBody vs := by
  have h (v : Operand) : toFloatPtr (cloneFunction F.toBody) v = toFloatPtr F.toBody v := by
    cases v <;> simp [toFloatPtr, toFloat_cloneFunction]
  rw [memset.eq_def, memset.eq_def]
  simp only [toFloat_cloneFunction, h]

theorem memcpy_cloneFunction (vs : List Operand) :
    memcpy (cloneFunction F.toBody) vs = memcpy F.toBody vs := by
  rw [memcpy.eq_def, memcpy.eq_def]
  simp only [toFloat_cloneFunction]

theorem not_startswith_append {n : String} (p q : String) (h : startswith n p = false) :
    startswith n (p ++ q) = false := by
  by_contra hn
  simp [startswith_of_append (Bool.not_eq_false _ ▸ hn)] at h

theorem CleanNames.nameOf_cloneFunction (hc : CleanNames F.toBody) {x : Site × Inst}
    (hx : x ∈ F.insts) {v : Operand} (hv : v ∈ x.snd.op.operands) :
    startswith ((cloneFunction F.toBody).nameOf v) "my_" = false := by
  rw [Pass.nameOf_cloneFunction]
  split
  · decide
  · exact hc.operands x hx v hv

theorem reads_of_lost {x : Site × Inst} (hx : x ∈ F.insts) (h : lost F.toBody x = true) :
    reads M (cloneFunction F.toBody) x = [] := by
  have ht := F.typed x hx
  obtain ⟨s, name, ty, op⟩ := x
  simp only [reads, handleBranch_cloneFunction, createGEP, handleIns, handleLoad, handleStore,
    handleSelect, handleCall, handleFcmp, isFloatType_cloneFunction]
  cases op with
  | select c l r =>
    simp only [lost, Bool.and_eq_true] at h
    simp [h]
  | br c     => cases c <;> simp_all [lost]
  | switch c => simp_all [lost]
  | _        => cases h

theorem reads_of_late {x : Site × Inst} (h : late F.toBody x = true) :
    reads M (cloneFunction F.toBody) x = [⟨.condition, .inst x.fst⟩] := by
  obtain ⟨s, name, ty, op⟩ := x
  cases op with
  | fcmp a b =>
    simp only [late, Bool.and_eq_true, decide_eq_true_eq] at h
    simp [reads, handleBranch_cloneFunction, createGEP, handleIns, handleLoad, handleStore,
      handleSelect, handleCall, handleFcmp, mem_fcmpMap, h.right]
  | _ => cases h

-- The clone reads what it needs, but for the lost conditions and the late comparisons.
theorem reads_eq_transfers (hc : CleanNames F.toBody) (hf : CallFree F.toBody) {x : Site × Inst}
    (hx : x ∈ F.insts) (h : lost F.toBody x = false) (hl : late F.toBody x = false) :
    reads M (cloneFunction F.toBody) x = transfers F.toBody x := by
  have hn := hc.insts x hx
  have hv := not_startswith_append "my_" "load_val" hn
  have hi := not_startswith_append "my_" "load_idx_c" hn
  have hs := not_startswith_append "my_" "store_buf" hn
  have ho := fun v => hc.nameOf_cloneFunction (v := v) hx
  have ht := F.typed x hx
  have hp := F.foreign x hx
  have hf := hf x hx
  obtain ⟨s, name, ty, op⟩ := x
  simp only [reads, transfers, handleBranch_cloneFunction, createGEP, handleIns, handleLoad,
    handleStore, handleSelect, handleCall, handleFcmp]
  cases op with
  | load p => simp_all
  | store v p =>
    have hm := isFloatType_or_isMPtrTy_cloneFunction (hp v (by simp [Op.operands]))
    simp_all [Op.operands]
  | select c l r =>
    obtain ⟨hl, hr⟩ := ht c l r rfl
    simp only [lost] at h
    cases hy : ty.isFloatType <;> simp_all
  | fcmp a b =>
    simp only [late, Bool.and_eq_false_iff, decide_eq_false_iff_not, not_not] at hl
    simp only [mem_fcmpMap]
    by_cases hd : s ∈ F.insts.filterMap decides
    · simp [hd, hl.resolve_left (not_not.mpr hd)]
    · have hm : s ∉ (F.insts.filter (!lost F.toBody ·)).filterMap decides := fun hm => hd (by
        rw [List.mem_filterMap] at hm ⊢
        obtain ⟨y, hy, he⟩ := hm
        exact ⟨y, List.mem_of_mem_filter hy, he⟩)
      simp [hd, hm]
  | call g args =>
    cases hf with
    | inl hg => simp [hg, not_memcpy_of_memset hg, memset_cloneFunction]
    | inr hg => simp [hg, memcpy_cloneFunction]
  | icall f args => cases hf
  | br c =>
    simp only [lost] at h
    cases c <;> simp_all
  | switch c => simp_all [lost]
  | _ => simp

-- A value of a run, told apart by the visit of the block in which it was computed last.
structure Event where
  role : Role
  val  : Operand
  time : Option Nat

def Send.event (seen : Nat → Option Nat) (e : Send) : Event where
  role := e.role
  val  := e.val
  time :=
    match e.val with
    | .inst t => seen t.block
    | _       => none

-- What the code of the blocks does along a path whose first block is visited at `n`.
def along {α β : Type*} (code : Nat → List α) (f : (Nat → Option Nat) → α → β) :
    List Nat → Nat → (Nat → Option Nat) → List β
  | [], _, _        => []
  | b :: p, n, seen =>
    let seen := Function.update seen b (some n)
    (code b).map (f seen) ++ along code f p (n + 1) seen

-- The values that the function pushes on a path, and those that its clone reads.
def pushed (M : Module) (F : Body) (path : List Nat) : List Event :=
  along (fun b => Weave.ops (producer M F b)) Send.event path 0 fun _ => none

def read (M : Module) (F : Body) (path : List Nat) : List Event :=
  along (fun b => Weave.ops (consumer M (cloneFunction F) b)) Send.event path 0 fun _ => none

-- How an instruction of the function moves the two sequences.
def moves (F : Body) (x : Site × Inst) : List (Pairing.Step Send) :=
  if lost F x then (transfers F x).map .first
  else if late F x then [.second ⟨.condition, .inst x.fst⟩]
  else (transfers F x).map .both

-- On the path, a late comparison is followed by the lost uses of its value, one for each time that
-- it is computed and in this order, before any other value is sent.
def CaughtUp (F : Body) (path : List Nat) : Prop :=
  Pairing.Paired [] <|
    along (fun b => (F.block b).flatMap (moves F)) (fun seen => .map (Send.event seen)) path 0
      fun _ => none

theorem firsts_along {code : Nat → List (Pairing.Step Send)} {path : List Nat} {n : Nat}
    {seen : Nat → Option Nat} :
    Pairing.firsts (along code (fun v => .map (Send.event v)) path n seen) =
    along (fun b => Pairing.firsts (code b)) Send.event path n seen := by
  induction path generalizing n seen with
  | nil         => rfl
  | cons b p ih => simp [along, ih]

theorem seconds_along {code : Nat → List (Pairing.Step Send)} {path : List Nat} {n : Nat}
    {seen : Nat → Option Nat} :
    Pairing.seconds (along code (fun v => .map (Send.event v)) path n seen) =
    along (fun b => Pairing.seconds (code b)) Send.event path n seen := by
  induction path generalizing n seen with
  | nil         => rfl
  | cons b p ih => simp [along, ih]

theorem mem_along {α β : Type*} {code : Nat → List α} {f : (Nat → Option Nat) → α → β}
    {path : List Nat} {n : Nat} {seen : Nat → Option Nat} {e : β}
    (h : e ∈ along code f path n seen) :
    ∃ b v a, a ∈ code b ∧ f v a = e ∧ ∃ k, n ≤ k ∧ v b = some k := by
  induction path generalizing n seen with
  | nil         => cases h
  | cons b p ih =>
    cases List.mem_append.mp h with
    | inl h =>
      have ⟨a, ha, he⟩ := List.mem_map.mp h
      exact ⟨b, _, a, ha, he, n, Nat.le_refl n, by simp⟩
    | inr h =>
      have ⟨b', v, a, ha, he, k, hk, hv⟩ := ih h
      exact ⟨b', v, a, ha, he, k, Nat.le_of_succ_le hk, hv⟩

theorem Send.event_inj {e e' : Send} {v v' : Nat → Option Nat} (h : e.event v = e'.event v') :
    e = e' := by
  cases e
  cases e'
  simp [event] at h
  simp [h]

theorem transfers_of_late {x : Site × Inst} (h : late F.toBody x = true) :
    transfers F.toBody x = [] := by
  obtain ⟨s, name, ty, op⟩ := x
  cases op with
  | fcmp a b =>
    simp only [late, Bool.and_eq_true, decide_eq_true_eq] at h
    simp [transfers, h.left]
  | _ => cases h

theorem not_lost_of_late {x : Site × Inst} (h : late F.toBody x = true) :
    lost F.toBody x = false := by
  obtain ⟨s, name, ty, op⟩ := x
  cases op <;> first | rfl | cases h

theorem firsts_moves (x : Site × Inst) :
    Pairing.firsts (moves F.toBody x) = transfers F.toBody x := by
  rw [moves]
  split
  · simp
  · split
    case isTrue h  => simp [transfers_of_late h, Pairing.firsts]
    case isFalse h => simp

theorem seconds_moves (hc : CleanNames F.toBody) (hf : CallFree F.toBody) {x : Site × Inst}
    (hx : x ∈ F.insts) :
    Pairing.seconds (moves F.toBody x) = reads M (cloneFunction F.toBody) x := by
  rw [moves]
  split
  case isTrue h => simp [reads_of_lost hx h]
  case isFalse h =>
    split
    case isTrue hl  => rw [reads_of_late hl]; rfl
    case isFalse hl =>
      rw [reads_eq_transfers hc hf hx (Bool.not_eq_true _ ▸ h) (Bool.not_eq_true _ ▸ hl)]
      simp

-- The conditions among the values that an instruction sends.
theorem condition_of_mem_transfers {x : Site × Inst} {t : Site}
    (h : ⟨.condition, .inst t⟩ ∈ transfers F.toBody x) :
    decides x = some t ∨ x.fst = t ∧ x.fst ∉ F.insts.filterMap decides := by
  obtain ⟨s, name, ty, op⟩ := x
  simp only [transfers] at h
  cases op with
  | fcmp a b =>
    simp only at h
    split at h
    case isTrue    => cases h
    case isFalse h' => simp at h; exact .inr ⟨h.symm, h'⟩
  | select c l r =>
    cases hy : ty.isFloatType <;> simp [hy] at h
    simp [decides, hy, ←h, Op.condition?]
  | br c     => cases c <;> simp at h; simp [decides, ←h, Op.condition?]
  | switch c => simp at h; simp [decides, ←h, Op.condition?]
  | call g args =>
    simp only at h
    split at h
    · rw [memcpy.eq_def] at h
      split at h
      · split at h <;> simp at h
      · cases h
    · split at h
      · rw [memset.eq_def] at h
        split at h
        · simp only [List.mem_append] at h
          cases h with
          | inl h => split at h <;> simp at h
          | inr h => split at h <;> simp at h
        · cases h
      · cases h
  | load p   => simp only at h; split at h <;> simp at h
  | store v p => simp only at h; split at h <;> simp at h
  | bitcast v => simp only at h; split at h <;> simp at h
  | _ => simp at h

theorem second_mem_moves {x : Site × Inst} {e : Send} (h : .second e ∈ moves F.toBody x) :
    late F.toBody x = true ∧ e = ⟨.condition, .inst x.fst⟩ := by
  rw [moves] at h
  split at h
  · simp at h
  · split at h
    case isTrue hl => exact ⟨hl, by simpa using h⟩
    case isFalse   => simp at h

theorem first_mem_moves {x : Site × Inst} {e : Send} (h : .first e ∈ moves F.toBody x) :
    lost F.toBody x = true ∧ e ∈ transfers F.toBody x := by
  rw [moves] at h
  split at h
  case isTrue hl => exact ⟨hl, by simpa using h⟩
  case isFalse   => split at h <;> simp at h

theorem both_mem_moves {x : Site × Inst} {e : Send} (h : .both e ∈ moves F.toBody x) :
    lost F.toBody x = false ∧ e ∈ transfers F.toBody x := by
  rw [moves] at h
  split at h
  · simp at h
  case isFalse hl =>
    split at h
    · simp at h
    · exact ⟨Bool.not_eq_true _ ▸ hl, by simpa using h⟩

-- A late comparison decides lost instructions only.
theorem not_both_of_late {x y : Site × Inst} (hx : x ∈ F.insts) (hl : lost F.toBody x = false)
    (hy : late F.toBody y = true) : ⟨.condition, .inst y.fst⟩ ∉ transfers F.toBody x := by
  intro h
  obtain ⟨s, name, ty, op⟩ := y
  cases op with
  | fcmp a b =>
    simp only [late, Bool.and_eq_true, decide_eq_true_eq] at hy
    cases condition_of_mem_transfers h with
    | inl hd => exact hy.right <| List.mem_filterMap.mpr ⟨x, by simp [hx, hl], hd⟩
    | inr hd => exact hd.right (hd.left ▸ hy.left)
  | _ => cases hy

theorem mem_steps {b : Nat} {a : Pairing.Step Send} (h : a ∈ (F.block b).flatMap (moves F.toBody)) :
    ∃ x ∈ F.insts, x.fst.block = b ∧ a ∈ moves F.toBody x := by
  have ⟨x, hx, ha⟩ := List.mem_flatMap.mp h
  have ⟨hb, hi⟩ := F.mem_block.mp hx
  exact ⟨x, F.mem_insts.mpr hi, hb, ha⟩

theorem condition?_of_decides {x : Site × Inst} {t : Site} (h : decides x = some t) :
    t ∈ x.snd.op.condition? := by
  obtain ⟨s, name, ty, op⟩ := x
  cases op with
  | select c l r =>
    simp only [decides] at h
    split at h
    · exact h
    · cases h
  | _ => exact h

theorem decides_of_lost {x : Site × Inst} {t : Site} (hl : lost F.toBody x = true)
    (h : ⟨.condition, .inst t⟩ ∈ transfers F.toBody x) : decides x = some t := by
  cases condition_of_mem_transfers h with
  | inl hd => exact hd
  | inr hd =>
    obtain ⟨s, name, ty, op⟩ := x
    cases op with
    | fcmp a b => cases hl
    | select c l r =>
      simp only [transfers] at h
      split at h
      case isTrue hy => simp at h; simp [decides, hy, ←h, Op.condition?]
      case isFalse   => cases h
    | br c =>
      cases c with
      | none   => cases hl
      | some c => simp [transfers] at h; simp [decides, ←h, Op.condition?]
    | switch c => simp [transfers] at h; simp [decides, ←h, Op.condition?]
    | _ => cases hl

-- In a block, the uses of a comparison come after it.
theorem steps_pairwise (b : Nat) :
    (F.block b).flatMap (moves F.toBody) |>.Pairwise fun x y => ∀ e, x = .first e →
    y ≠ .second e := by
  rw [List.pairwise_flatMap]
  constructor
  case left =>
    intro x _
    refine List.pairwise_of_forall_mem_list fun a ha a' ha' e he he' => ?_
    have hl := (first_mem_moves (he ▸ ha)).left
    have hn := not_lost_of_late (second_mem_moves (he' ▸ ha')).left
    exact Bool.false_ne_true (hn.symm.trans hl)
  case right =>
    refine (List.Pairwise.and_mem.mp <| F.block_pairwise b).imp
      fun {x y} ⟨hx, hy, hi⟩ a ha a' ha' e he he' => ?_
    have ⟨hxb, hxi⟩ := F.mem_block.mp hx
    have ⟨hyb, _⟩ := F.mem_block.mp hy
    have ⟨hl, ht⟩ := first_mem_moves (he ▸ ha)
    have ⟨_, hs⟩ := second_mem_moves (he' ▸ ha')
    have hc := condition?_of_decides <| decides_of_lost hl (hs ▸ ht)
    have ho := F.ordered x (F.mem_insts.mpr hxi) _ hc (hyb.trans hxb.symm)
    exact Nat.lt_asymm hi ho

theorem separate {path : List Nat} {n : Nat} {seen : Nat → Option Nat}
    (hs : ∀ b k, seen b = some k → k < n) :
    Pairing.Separate <|
      along (fun b => (F.block b).flatMap (moves F.toBody)) (fun v => .map (Send.event v)) path n
        seen where
  both e he hn := by
    have ⟨_, _, a, ha, hae, _⟩ := mem_along he
    have ⟨_, _, a', ha', hae', _⟩ := mem_along hn
    obtain ⟨c, rfl, hce⟩ := Pairing.Step.map_eq_both.mp hae
    obtain ⟨c', rfl, rfl⟩ := Pairing.Step.map_eq_second.mp hae'
    obtain rfl := Send.event_inj hce
    have ⟨x, hx, _, hm⟩ := mem_steps ha
    have ⟨y, _, _, hm'⟩ := mem_steps ha'
    have ⟨hl, ht⟩ := both_mem_moves hm
    have ⟨hy, hs⟩ := second_mem_moves hm'
    exact not_both_of_late hx hl hy (hs ▸ ht)
  order := by
    induction path generalizing n seen with
    | nil         => exact .nil
    | cons b p ih =>
      have hu : ∀ b' k, Function.update seen b (some n) b' = some k → k < n + 1 := by
        intro b' k hk
        rw [Function.update_apply] at hk
        split at hk
        · cases hk; exact Nat.lt_succ_self n
        · exact Nat.lt_succ_of_lt (hs b' k hk)
      refine List.pairwise_append.mpr ⟨?_, ih hu, ?_⟩
      · refine List.pairwise_map.mpr <| (steps_pairwise b).imp fun {a a'} h e he he' => ?_
        obtain ⟨c, rfl, hce⟩ := Pairing.Step.map_eq_first.mp he
        obtain ⟨c', rfl, rfl⟩ := Pairing.Step.map_eq_second.mp he'
        exact h c rfl (Send.event_inj hce ▸ rfl)
      · intro a ha a' ha' e he he'
        have ⟨a, _, ha⟩ := List.mem_map.mp ha
        have ⟨b', v, a', hm, ha', k, hk, hv⟩ := mem_along ha'
        obtain ⟨c, rfl, hce⟩ := Pairing.Step.map_eq_first.mp (ha.trans he)
        obtain ⟨c', rfl, rfl⟩ := Pairing.Step.map_eq_second.mp (ha'.trans he')
        have ⟨y, _, hy, hm⟩ := mem_steps hm
        obtain ⟨_, rfl⟩ := second_mem_moves hm
        -- The value was computed by visit `n`, the comparison is executed later.
        obtain rfl := Send.event_inj hce
        have ht := congrArg Event.time hce
        simp only [Send.event, hy, hv] at ht
        exact Nat.not_lt.mpr hk (hu _ _ ht)

theorem ops_producer_eq (hc : CleanNames F.toBody) (hf : CallFree F.toBody) (b : Nat) :
    Weave.ops (producer M F.toBody b) = Pairing.firsts ((F.block b).flatMap (moves F.toBody)) := by
  rw [ops_producer, Pairing.firsts_flatMap]
  refine List.flatMap_congr fun x hx => ?_
  have hi := F.mem_insts.mpr (F.mem_block.mp hx).right
  rw [pushes_eq_transfers hc hf hi, firsts_moves]

theorem ops_consumer_eq (hc : CleanNames F.toBody) (hf : CallFree F.toBody) (b : Nat) :
    Weave.ops (consumer M (cloneFunction F.toBody) b) =
    Pairing.seconds ((F.block b).flatMap (moves F.toBody)) := by
  rw [ops_consumer, Pairing.seconds_flatMap]
  refine List.flatMap_congr fun x hx => ?_
  have hi := F.mem_insts.mpr (F.mem_block.mp hx).right
  exact (seconds_moves hc hf hi).symm

-- A function and its clone exchange the same values on a path if and only if the late comparisons
-- are caught up.
theorem pushed_eq_read_iff (hc : CleanNames F.toBody) (hf : CallFree F.toBody) (path : List Nat) :
    pushed M F.toBody path = read M F.toBody path ↔ CaughtUp F.toBody path := by
  simp only [pushed, read, ops_producer_eq hc hf, ops_consumer_eq hc hf, ←firsts_along,
    ←seconds_along]
  exact (separate (by simp)).eq_iff

-- A function that returns the bits of the larger one of its FP parameters. The pass needs no
-- metadata for the select, since only the bitcast uses it.
def maxBits : Function where
  name    := "max_bits"
  params  := [⟨"a", .double⟩, ⟨"b", .double⟩]
  blocks  := [⟨"entry", [⟨"cmp", .int 1, .fcmp (.arg 0) (.arg 1)⟩,
    ⟨"max", .double, .select (.inst ⟨0, 0⟩) (.arg 0) (.arg 1)⟩,
    ⟨"bits", .int 64, .bitcast (.inst ⟨0, 1⟩)⟩,
    ⟨"", .void, .ret (some (.inst ⟨0, 2⟩))⟩]⟩]
  typed   := by simp [Body.insts, Body.block, Body.typeOf]
  noMeta  := by simp [Ty.isMPtrTy]
  foreign := by simp [Body.insts, Body.block, Body.typeOf, Op.operands, Body.inst?, Ty.isMPtrTy]
  ordered := by simp [Body.insts, Body.block, Op.condition?]
  memory  := by simp [Body.insts, Body.block]
  unnamed := by simp [Body.insts, Body.block]

theorem pushed_eq_read_maxBits :
    pushed ⟨[], [], [], [], []⟩ maxBits.toBody [0] =
    read ⟨[], [], [], [], []⟩ maxBits.toBody [0] := by
  refine (pushed_eq_read_iff ⟨?_, ?_, ?_⟩ ?_ [0]).mpr ⟨[], rfl, rfl⟩
  all_goals simp [CallFree, maxBits, Body.insts, Body.block, Body.blockName, Body.nameOf,
    Body.inst?, Op.operands]
  all_goals decide

-- Without lost conditions every path is caught up.
theorem caughtUp_of_not_lost (h : ∀ x ∈ F.insts, lost F.toBody x = false) (path : List Nat) :
    CaughtUp F.toBody path := by
  refine Pairing.paired_of_both fun a ha => ?_
  have ⟨_, v, a', hm, hv, _⟩ := mem_along ha
  have ⟨x, hx, _, hm⟩ := mem_steps hm
  have hl : late F.toBody x = false := by
    by_contra hl
    have hf : F.insts.filter (!lost F.toBody ·) = F.insts :=
      List.filter_eq_self.mpr (by simpa using h)
    obtain ⟨s, name, ty, op⟩ := x
    cases op <;> simp [late, hf] at hl
  simp only [moves, h x hx, hl, Bool.false_eq_true, if_false] at hm
  obtain ⟨e, _, rfl⟩ := List.mem_map.mp hm
  exact ⟨_, hv.symm⟩

-- The function that returns the bits of one of its FP parameters, selected by a
-- condition on another parameter.
def chooseBits : Function where
  name    := "choose_bits"
  params  := [⟨"a", .double⟩, ⟨"b", .double⟩, ⟨"k", .int 32⟩]
  blocks  := [⟨"entry", [⟨"tobool", .int 1, .rest [.arg 2]⟩,
    ⟨"cond", .double, .select (.inst ⟨0, 0⟩) (.arg 0) (.arg 1)⟩,
    ⟨"bits", .int 64, .bitcast (.inst ⟨0, 1⟩)⟩,
    ⟨"", .void, .ret (some (.inst ⟨0, 2⟩))⟩]⟩]
  typed   := by simp [Body.insts, Body.block, Body.typeOf]
  noMeta  := by simp [Ty.isMPtrTy]
  foreign := by simp [Body.insts, Body.block, Body.typeOf, Op.operands, Body.inst?, Ty.isMPtrTy]
  ordered := by simp [Body.insts, Body.block, Op.condition?]
  memory  := by simp [Body.insts, Body.block]
  unnamed := by simp [Body.insts, Body.block]

-- Its condition is pushed but never read.
theorem pushed_ne_read_chooseBits :
    ¬∀ (M : Module) (F : Function), CleanNames F.toBody → CallFree F.toBody →
      ∀ path, pushed M F.toBody path = read M F.toBody path := by
  intro h
  have he := h ⟨[], [], [], [], []⟩ chooseBits ⟨?_, ?_, ?_⟩ ?_ [0]
  case refine_5 => exact absurd (congrArg List.length he) (by decide)
  all_goals simp [CallFree, chooseBits, Body.insts, Body.block, Body.blockName, Body.nameOf,
    Body.inst?, Op.operands]
  all_goals decide

end Pass
