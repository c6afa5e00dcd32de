import PFPSanitizer.Pass.Phis
import PFPSanitizer.Pass.Returns

-- What `handleOperand` finds for a value that is used through casts.
namespace Pass

-- A chain of casts over a value.
inductive Casts (F : Body) (v : Operand) : Nat → Operand → Prop
  | refl : Casts F v 0 v
  | cast {n : Nat} {u w : Operand} : F.cast? w = some u → Casts F v n u → Casts F v (n + 1) w

-- The blocks on a way from the entry to a block.
inductive Flow.Reaches {F : Body} (fl : Flow F) : Nat → List Nat → Prop
  | entry : fl.Reaches 0 [0]
  | step {b b' : Nat} {p : List Nat} : fl.Reaches b p → b' ∈ fl.succ b → fl.Reaches b' (b' :: p)

-- Every way to a place comes through a definition.
def Flow.Dominates {F : Body} (fl : Flow F) (s t : Site) : Prop :=
  if s.block = t.block then s.idx < t.idx else ∀ p, fl.Reaches t.block p → s.block ∈ p

-- Where an instruction uses an operand. A phi node does so at the end of the incoming block.
inductive UsedAt (F : Body) (x : Site × Inst) (v : Operand) : Site → Prop
  | operand : (∀ vs, x.snd.op ≠ .phi vs) → v ∈ x.snd.op.operands → UsedAt F x v x.fst
  | incoming {vs : List (Operand × Nat)} {b : Nat} :
    x.snd.op = .phi vs → (v, b) ∈ vs → UsedAt F x v ⟨b, (F.block b).length⟩

section

variable (M : Module) (C : Body)

-- The values in `ConsMap` and the parameters, which have metadata before the
-- first instruction is visited.
def early (v : Operand) : Bool :=
  consMap C v || v.isArg

-- The phi nodes in `GEPMap`.
def isPhi (v : Operand) : Bool :=
  (phiMeta C v).isSome

-- The values that get metadata: the early ones and those that come into `MInsMap`.
def given (v : Operand) : Bool :=
  early C v || (mInsMeta M C visited v).isSome

-- What holds the current value: the parameter, the `my_select` of a select, or the temporary. That
-- of a phi node is filled at the head of its block.
def home (v : Operand) : Option Meta :=
  match v with
  | .arg _  => some (.value v)
  | .inst s =>
    match C.inst? s |>.map Inst.op with
    | some (.select _ _ _) => some (.pointer s)
    | _                    => some (.temporary (.inst s))
  | _       => v.temp?.map .temporary

-- What has been visited when the operands of an instruction are looked up. Phi nodes, returns and
-- comparisons are completed in loops of their own, behind that over all instructions.
def lookedUp (x : Site × Inst) : Site → Bool :=
  match x.snd.op with
  | .phi _ | .ret _ | .fcmp _ _ => visited
  | _                           => before x.fst

end

-- A use of an FP value with metadata, as it is or through casts, at a place
-- that the value dominates.
structure Use (M : Module) (F : Function) where
  value     : Operand
  casts     : Nat
  operand   : Operand
  site      : Site
  inst      : Inst
  place     : Site
  flow      : Flow F.toBody
  mem       : F.inst? site = some inst
  used      : UsedAt F.toBody (site, inst) operand place
  chain     : Casts F.toBody value casts operand
  fp        : (F.typeOf value).isFloatType
  given     : given M (cloneFunction F.toBody) value
  dominates : ∀ s, value = .inst s → flow.Dominates s place

namespace Use

variable {M : Module} {F : Function} (c : Use M F)

def clone (_ : Use M F) : Body :=
  cloneFunction F.toBody

def seen : Site → Bool :=
  lookedUp (c.site, c.inst)

def find (v : Operand) : Option Meta :=
  operandMeta M c.clone c.seen v

-- The operand has the slot that the value has when it is used as it is, and this is the
-- one that holds its value.
def Resolves : Prop :=
  ∃ m, home c.clone c.value = some m ∧ c.find c.value = some m ∧ c.find c.operand = some m

-- The value is an instruction that comes earlier in the order of the blocks.
def Visited : Prop :=
  ∃ s, c.value = .inst s ∧ c.seen s

def Fits : Prop :=
  match c.casts with
  | 0 => early c.clone c.value ∨ isPhi c.clone c.value ∨ c.Visited
  | 1 => early c.clone c.value ∨ isPhi c.clone c.value = false ∧ c.Visited
  | 2 => early c.clone c.value = false ∧ isPhi c.clone c.value = false ∧ c.Visited
  | _ => False

end Use

theorem UsedAt.mem_operands {F : Body} {x : Site × Inst} {v : Operand} {t : Site}
    (h : UsedAt F x v t) :
    v ∈ x.snd.op.operands := by
  cases h with
  | operand _ h    => exact h
  | incoming ho hm =>
    rw [ho]
    exact List.mem_map_of_mem hm

section Value

variable {M : Module} {C : Body} {seen : Site → Bool} {v w u : Operand}

theorem through_cast (h : C.cast? w = some u) :
    operandMeta.through M C seen w = mInsMeta M C seen u := by
  rw [operandMeta.through, h]

theorem through_value (h : C.cast? v = none) :
    operandMeta.through M C seen v = (mInsMeta M C seen v <|> consMeta C v <|> typeMeta C v) := by
  rw [operandMeta.through, h]

-- What is found for an operand after each number of casts.
def throughCasts (M : Module) (C : Body) (seen : Site → Bool) (v : Operand) : Nat → Option Meta
  | 0 => operandMeta M C seen v
  | 1 => mInsMeta M C seen v <|> consMeta C v <|> typeMeta C v
  | 2 => mInsMeta M C seen v
  | _ => none

theorem operandMeta_casts {n : Nat} (hc : Casts C v n w) (hv : C.cast? v = none)
    (ht : ∀ u, C.cast? w = some u → (C.typeOf w).isMPtrTy = false) :
    operandMeta M C seen w = throughCasts M C seen v n := by
  cases hc with
  | refl       => rfl
  | cast h₁ hc =>
    rw [operandMeta_cast h₁ (ht _ h₁)]
    cases hc with
    | refl       => exact through_value hv
    | cast h₂ hc =>
      rw [through_cast h₂]
      cases hc with
      | refl      => rfl
      | cast h₃ _ => exact mInsMeta_cast h₃

-- The maps that have a value: `ConsMap` or none for a parameter, both `GEPMap` and
-- `MInsMap`, or `MInsMap` only.
inductive Found (M : Module) (C : Body) (v : Operand) (m : Meta) : Prop
  | early (he : early C v) (hp : phiMeta C v = none)
      (hc : (consMeta C v <|> typeMeta C v) = some m) (hi : ∀ seen, mInsMeta M C seen v = none)
  | phi (s : Site) (hv : v = .inst s) (he : early C v = false) (hp : phiMeta C v = some m)
      (hc : (consMeta C v <|> typeMeta C v) = none) (hm : m = .temporary (.inst s))
      (hi : ∀ seen, mInsMeta M C seen v = if seen s then some (.pointer s) else none)
  | late (s : Site) (hv : v = .inst s) (he : early C v = false) (hp : phiMeta C v = none)
      (hc : (consMeta C v <|> typeMeta C v) = none)
      (hi : ∀ seen, mInsMeta M C seen v = if seen s then some m else none)

section Found

variable {m : Meta}

theorem operandMeta_of_early (hc : (consMeta C v <|> typeMeta C v) = some m) :
    operandMeta M C seen v = some m := by
  simp only [operandMeta, Option.orElse_eq_orElse, Option.orElse_eq_or] at hc ⊢
  rw [← Option.or_assoc, hc, Option.some_or]

theorem operandMeta_of_phi (hc : (consMeta C v <|> typeMeta C v) = none)
    (hp : phiMeta C v = some m) :
    operandMeta M C seen v = some m := by
  simp only [operandMeta, Option.orElse_eq_orElse, Option.orElse_eq_or] at hc ⊢
  rw [← Option.or_assoc, hc, Option.none_or, hp, Option.some_or]

theorem operandMeta_of_late {s : Site} (hs : v = .inst s)
    (hc : (consMeta C v <|> typeMeta C v) = none) (hp : phiMeta C v = none)
    (hv : C.cast? v = none) : operandMeta M C seen v = mInsMeta M C seen v := by
  subst hs
  simp only [operandMeta, Option.orElse_eq_orElse, Option.orElse_eq_or] at hc ⊢
  rw [← Option.or_assoc, hc, Option.none_or, hp, Option.none_or, hv, Option.bind_none,
    Option.or_none]

end Found

theorem cast?_of_given (h : given M C v) : C.cast? v = none := by
  by_contra hn
  obtain ⟨u, hu⟩ := Option.ne_none_iff_exists'.mp hn
  have hc : consMap C v = false := by rw [← consMeta_isSome, consMeta_cast hu, Option.isSome_none]
  obtain ⟨s, I, rfl, -⟩ := Body.cast?_eq_some hu
  simp [given, early, hc, Operand.isArg, mInsMeta_cast hu] at h

theorem given_cases (h : given M C v) : early C v ∨ early C v = false ∧
    ∃ s I, v = .inst s ∧ C.inst? s = some I ∧ mapped M C I := by
  rw [given, Bool.or_eq_true] at h
  cases he : early C v with
  | true  => exact .inl rfl
  | false =>
    rw [he] at h
    obtain ⟨m, hm⟩ := Option.isSome_iff_exists.mp (h.resolve_left Bool.false_ne_true)
    cases v with
    | inst s =>
      obtain ⟨I, hI, hm⟩ := Option.bind_eq_some_iff.mp hm
      obtain ⟨hm, -⟩ := Option.ite_none_right_eq_some.mp hm
      exact .inr ⟨rfl, s, I, rfl, hI, (Bool.and_eq_true_iff.mp hm).right⟩
    | _      => cases hm

theorem consMap_inst {s : Site} (h : consMap C (.inst s)) :
    ∃ I, C.inst? s = some I ∧
    ((∃ w, I.op = .sitofp w) ∨ (∃ w, I.op = .uitofp w) ∨ ∃ w, I.op = .bitcast w) := by
  rw [consMap] at h
  cases hI : C.inst? s with
  | none   =>
    rw [hI] at h
    cases h
  | some I =>
    rw [hI, Option.any_some] at h
    split at h
    case h_1 w ho | h_2 w ho | h_3 w ho => exact ⟨I, rfl, by simp [ho]⟩
    case h_4                            => cases h

theorem found_early_inst {s : Site} (h : consMap C (.inst s)) :
    home C (.inst s) = some (.temporary (.inst s)) ∧
    Found M C (.inst s) (.temporary (.inst s)) := by
  obtain ⟨I, hI, ⟨w, ho⟩ | ⟨w, ho⟩ | ⟨w, ho⟩⟩ := consMap_inst h
  all_goals
    refine ⟨by simp [home, hI, ho], .early (by simp [early, h]) (by simp [phiMeta, hI, ho]) ?_
      fun seen => ?_⟩
    · simp [consMeta, h, Operand.temp?]
    · simp [mInsMeta, hI, mapped, ho]

theorem consMeta_of_not_early (h : early C v = false) : consMeta C v = none := by
  rw [early, Bool.or_eq_false_iff] at h
  rw [consMeta, h.left, if_neg Bool.false_ne_true]

theorem found_mapped {s : Site} {I : Inst} (he : early C (.inst s) = false)
    (ht : typeMeta C (.inst s) = none) (hI : C.inst? s = some I) (hm : mapped M C I) :
    ∃ m, home C (.inst s) = some m ∧ Found M C (.inst s) m := by
  have hc : (consMeta C (.inst s) <|> typeMeta C (.inst s)) = none := by
    rw [consMeta_of_not_early he, ht]; rfl
  cases ho : I.op with
  | phi vs       =>
    rw [mapped, ho] at hm
    refine ⟨.temporary (.inst s), by simp [home, hI, ho], .phi s rfl he ?_ hc rfl fun seen => ?_⟩
    · simp [phiMeta, hI, ho, hm]
    · simp [mInsMeta, hI, mapped, ho, hm]
  | select c l r =>
    refine ⟨.pointer s, by simp [home, hI, ho], .late s rfl he ?_ hc fun seen => ?_⟩
    · simp [phiMeta, hI, ho]
    · simp [mInsMeta, hI, hm, ho]
  | _            =>
    refine ⟨.temporary (.inst s), by simp [home, hI, ho], .late s rfl he ?_ hc fun seen => ?_⟩
    · simp [phiMeta, hI, ho]
    · simp [mInsMeta, hI, hm, ho]

end Value

section Clone

variable {M : Module} {F : Function} {v : Operand}

theorem typeMeta_clone (hf : (F.typeOf v).isFloatType) :
    typeMeta (cloneFunction F.toBody) v = if v.isArg then some (.value v) else none := by
  rw [typeMeta, typeOf_cloneFunction]
  cases v.isArg
  · cases ht : F.typeOf v <;> rw [ht] at hf <;> first | rfl | cases hf
  · simp [hf]

theorem found_of_given (hf : (F.typeOf v).isFloatType) (hg : given M (cloneFunction F.toBody) v) :
    ∃ m, home (cloneFunction F.toBody) v = some m ∧ Found M (cloneFunction F.toBody) v m := by
  have ht := typeMeta_clone hf
  obtain he | ⟨he, s, I, rfl, hI, hm⟩ := given_cases hg
  case inr =>
    exact found_mapped he ht hI hm
  cases v with
  | arg n     => exact ⟨_, rfl, .early he rfl (by rw [ht]; rfl) fun seen => rfl⟩
  | inst s    => exact ⟨_, found_early_inst (by simpa [early, Operand.isArg] using he)⟩
  | const t n =>
    have hc : consMap (cloneFunction F.toBody) (.const t n) := by
      simpa [early, Operand.isArg] using he
    have hf : t.isFloatType := hf
    have hm : (Operand.const t n).temp? = some (.const t.isFloat n) := if_pos hf
    refine ⟨.temporary (.const t.isFloat n), ?_, .early he rfl ?_ fun seen => rfl⟩
    · show (Operand.const t n).temp?.map Meta.temporary = _
      rw [hm]
      rfl
    · rw [consMeta, hc, if_pos rfl, hm]
      rfl
  | _         => cases he

end Clone

namespace Use

variable {M : Module} {F : Function} (c : Use M F)

theorem cast?_value : c.clone.cast? c.value = none :=
  cast?_of_given c.given

theorem isMPtrTy_operand {u : Operand} (h : c.clone.cast? c.operand = some u) :
    (c.clone.typeOf c.operand).isMPtrTy = false := by
  obtain ⟨s, I, hs, -⟩ := Body.cast?_eq_some h
  have ha : c.operand.isArg = false := hs ▸ rfl
  rw [clone, typeOf_cloneFunction, ha, if_neg Bool.false_ne_true]
  exact F.foreign (c.site, c.inst) (F.toBody.mem_insts.mpr c.mem) _ c.used.mem_operands

theorem casts_clone {n : Nat} {v w : Operand} (h : Casts F.toBody v n w) :
    Casts (cloneFunction F.toBody) v n w := by
  induction h with
  | refl         => exact .refl
  | cast hu _ ih => exact .cast hu ih

theorem find_operand : c.find c.operand = throughCasts M c.clone c.seen c.value c.casts :=
  operandMeta_casts (casts_clone c.chain) c.cast?_value fun _ => c.isMPtrTy_operand

theorem throughCasts_zero : throughCasts M c.clone c.seen c.value 0 = c.find c.value := rfl

theorem visited_iff {s : Site} (h : c.value = .inst s) : c.Visited ↔ c.seen s := by
  simp [Visited, h]

-- Without casts every value is found that is early, a phi node or visited, through one cast no phi
-- node is, through two casts no early value either, and nothing through more casts.
theorem resolves_iff (c : Use M F) : c.Resolves ↔ c.Fits := by
  obtain ⟨m, hm, hf⟩ : ∃ m, home c.clone c.value = some m ∧ Found M c.clone c.value m :=
    found_of_given c.fp c.given
  have hr : c.Resolves ↔ c.find c.value = some m ∧ throughCasts M c.clone c.seen c.value c.casts =
      some m := by
    rw [Resolves, c.find_operand]
    refine ⟨fun ⟨m', hm', h⟩ => ?_, fun h => ⟨m, hm, h⟩⟩
    rwa [Option.some.inj (hm.symm.trans hm')]
  rw [hr, Fits]
  cases hf with
  | early he hp hc hi       =>
    have hv : c.find c.value = some m := operandMeta_of_early hc
    rw [hv]
    match c.casts with
    | 0     => simp [he, c.throughCasts_zero, hv]
    | 1     => simp [he, throughCasts, hi, hc]
    | 2     => simp [he, throughCasts, hi]
    | n + 3 => simp [throughCasts]
  | phi s hv he hp hc hm hi =>
    have hf : c.find c.value = some m := operandMeta_of_phi hc hp
    have hs : isPhi c.clone c.value := by rw [isPhi, hp, Option.isSome_some]
    rw [hf]
    match c.casts with
    | 0     => simp [hs, c.throughCasts_zero, hf]
    | 1     => simp [he, hs, throughCasts, hi, hc, hm]
    | 2     => simp [hs, throughCasts, hi, hm]
    | n + 3 => simp [throughCasts]
  | late s hv he hp hc hi   =>
    have hs : isPhi c.clone c.value = false := by rw [isPhi, hp, Option.isSome_none]
    have hf : c.find c.value = mInsMeta M c.clone c.seen c.value :=
      operandMeta_of_late hv hc hp c.cast?_value
    rw [hf, hi, c.visited_iff hv]
    match c.casts with
    | 0     => simp [he, hs, c.throughCasts_zero, hf, hi]
    | 1     => simp [he, hs, throughCasts, hi, hc]
    | 2     => simp [he, hs, throughCasts, hi]
    | n + 3 => simp [throughCasts]

-- The pointer that is read is then that of the value.
theorem Resolves.operand_eq {c : Use M F} (h : c.Resolves) (R : Registers) :
    R.operand c.clone M c.seen c.operand = R.operand c.clone M c.seen c.value := by
  obtain ⟨m, -, hv, ho⟩ := h
  rw [find] at hv ho
  rw [Registers.operand, ho, Registers.operand, hv]

end Use

section Rounded

-- `(double)(float)wide`, times itself.
def rounded : Function where
  name    := "rounded"
  params  := [⟨"wide", .double⟩]
  blocks  := [⟨"entry", [⟨"conv", .float, .fptrunc (.arg 0)⟩,
    ⟨"conv1", .double, .fpext (.inst ⟨0, 0⟩)⟩,
    ⟨"mul", .double, .binary .fmul (.inst ⟨0, 1⟩) (.inst ⟨0, 1⟩)⟩,
    ⟨"", .void, .ret (some (.inst ⟨0, 2⟩))⟩]⟩]
  typed   := by simp [Body.insts, Body.block]
  noMeta  := by simp [Ty.isMPtrTy]
  foreign := by simp [Body.insts, Body.block, Body.typeOf, Op.operands, Body.inst?, Ty.isMPtrTy]
  ordered := by simp [Body.insts, Body.block, Op.condition?]
  memory  := by simp [Body.insts, Body.block]
  unnamed := by simp [Body.insts, Body.block]

theorem returns_rounded : returns rounded.toBody = [⟨0, 3⟩] := rfl

def roundedUse (M : Module) : Use M rounded where
  value         := .arg 0
  casts         := 2
  operand       := .inst ⟨0, 1⟩
  site          := ⟨0, 2⟩
  inst          := ⟨"mul", .double, .binary .fmul (.inst ⟨0, 1⟩) (.inst ⟨0, 1⟩)⟩
  place         := ⟨0, 2⟩
  flow          := .straight (by simp [returns_rounded])
  mem           := rfl
  used          := .operand (fun _ h => by cases h) (by simp [Op.operands])
  chain         := .cast rfl (.cast rfl .refl)
  fp            := rfl
  given         := rfl
  dominates _ h := by cases h

-- The metadata of the parameter is not found through two casts.
theorem not_resolves : ¬∀ (M : Module) (F : Function) (c : Use M F), c.Resolves := by
  intro h
  obtain ⟨m, -, -, hm⟩ := h ⟨[rounded], [], [], [], []⟩ rounded (roundedUse _)
  cases hm

end Rounded

end Pass
