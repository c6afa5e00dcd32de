import PFPSanitizer.Lib.Expressions
import PFPSanitizer.Runtime.Exact
import PFPSanitizer.Runtime.LockKey

-- The expressions that are printed for temporaries.
namespace Metadata

open Prefix

def mGetStringOpcodeFpcore : FpOp → String
  | .fadd     => "+"
  | .fmul     => "*"
  | .fsub     => "-"
  | .fdiv     => "/"
  | .constant => "CONSTANT"
  | .sqrt     => "sqrt"
  | .cbrt     => "cbrt"
  | .fma      => "fma"
  | .floor    => "floor"
  | .tan      => "tan"
  | .sin      => "sin"
  | .cos      => "cos"
  | .atan     => "atan"
  | .abs      => "abs"
  | .log      => "log"
  | .asin     => "asin"
  | .exp      => "exp"
  | .pow      => "pow"
  | .fmod     => "fmod"
  | _         => "Unknown"

-- The variables that entries have been given: `m_var_map` and `varCount`. An entry is told from
-- others by its address only, whatever it holds and whichever function has it on its stack.
structure Vars where
  map   : Ptr → Option Nat
  count : Nat

-- The number of the variable of an entry.
def Vars.variable (vs : Vars) (cur : Ptr) : Vars × Nat :=
  match vs.map cur with
  | some n => (vs, n)
  | none   =>
    ({ map := Function.update vs.map cur (some (vs.count + 1)), count := vs.count + 1 },
      vs.count + 1)

section Fpcore

variable {V D : Type} (s : State V D)

-- An operand is printed by `print` if it is older than `t`.
def fpcoreOperand (t : Nat)
    (print : Ptr → (e : TempEntry V D) → e.timestamp < t → Vars → Option (Vars × List Token))
    (operand : Option Ptr) (vs : Vars) : Option (Vars × List Token) :=
  match operand with
  | none   => some (vs, [])
  | some p =>
    match s.temps p with
    | none   => none
    | some e => if h : e.timestamp < t then print p e h vs else some (vs, [])

theorem fpcoreOperand_none {t : Nat}
    {print : Ptr → (e : TempEntry V D) → e.timestamp < t → Vars → Option (Vars × List Token)}
    {vs : Vars} : fpcoreOperand s t print none vs = some (vs, []) :=
  rfl

def fpcore (cur : Ptr) (e : TempEntry V D) (vs : Vars) : Option (Vars × List Token) :=
  if s.lockKeyMap e.op1Lock ≠ e.op1Key then
    some ((vs.variable cur).fst, [.opening (.var (vs.variable cur).snd), .closing])
  else if s.lockKeyMap e.op2Lock ≠ e.op2Key then
    some ((vs.variable cur).fst, [.opening (.var (vs.variable cur).snd), .closing])
  else do
    let (vs, head) :=
      if e.opcode = .constant then ((vs.variable cur).fst, .var (vs.variable cur).snd)
      else (vs, Head.op (mGetStringOpcodeFpcore e.opcode))
    let (vs, lhs) ← fpcoreOperand s e.timestamp (fun p e' _ vs => fpcore p e' vs) e.lhs vs
    let (vs, rhs) ← fpcoreOperand s e.timestamp (fun p e' _ vs => fpcore p e' vs) e.rhs vs
    return (vs, .opening head :: (lhs ++ (rhs ++ [.closing])))
termination_by e.timestamp

-- What is printed: the parameters and the body. `m_var_map` is kept for the next time.
structure FPCore where
  params : List Nat
  body   : List Token
  varMap : Ptr → Option Nat

def getFpcore (varMap : Ptr → Option Nat) (cur : Ptr) : Option FPCore := do
  let e ← s.temps cur
  let (vs, body) ← fpcore s cur e { map := varMap, count := 0 }
  return { params := (List.range' 1 vs.count).reverse, body := body, varMap := vs.map }

end Fpcore

section Right

variable {D : Type}

-- Each variable has the value of the entry that it stands for.
def Binds (s : State (Option ℝ) D) (varMap : Ptr → Option Nat) (env : Nat → Option ℝ) : Prop :=
  ∀ p n e, varMap p = some n → s.temps p = some e → env n = e.val

-- What is printed for an entry can be read, has only parameters as variables, which can be bound to
-- the values of their entries, and then has the value of the entry.
def Right (s : State (Option ℝ) D) (cur : Ptr) (e : TempEntry (Option ℝ) D) : Prop :=
  ∃ f x, getFpcore s (fun _ => none) cur = some f ∧ read f.body = some x ∧
    (∀ n ∈ x.vars, n ∈ f.params) ∧
    (∃ env, Binds s f.varMap env) ∧ ∀ env, Binds s f.varMap env → x.eval env = e.val

-- All entries of live frames.
def Config.Right (c : Config (Option ℝ) D) : Prop :=
  ∀ p e, p.owner ∈ c.frames → c.temps p = some e → Metadata.Right c.toState p e

namespace Call

-- The calls that build expressions.
def isOperation : Call (Option ℝ) D → Bool
  | const _ _ _ | math _ _ _ _ _ | fma _ _ _ _ _ _ | fneg _ _ => true
  | compute o _ _ _ _ _                                       =>
    (o matches .fadd | .fsub | .fmul | .fdiv)
  | _                                                         => false

end Call

-- In straight-line code no temporary is written twice.
def Act.isStraight (c : Config (Option ℝ) D) : Act (Option ℝ) D → Bool
  | .call k => k.isOperation && k.result.all fun p => (c.temps p).isNone
  | _       => true

variable (R : Reals D)

noncomputable def straightLine : Machine (Config (Option ℝ) D) (Act (Option ℝ) D) where
  init     := (machine R.mpfr R.toDoubles).init
  step a c := if a.isStraight c then exec R.mpfr R.toDoubles a c else none

-- The condition on a step: what is recorded determines the value. The third operand of an `fma` is
-- not recorded, nor is the negation of an operation, and some functions have no name.
def Act.Determined : Act (Option ℝ) D → Config (Option ℝ) D → Prop
  | .call (.math o p _ _ _), c  => mGetStringOpcodeFpcore o ≠ "Unknown" ∨
    ∀ e f, c.temps p = some e → mathFn R.mpfr o = some f → f e.val = none
  | .call (.fma p q r _ _ _), c => ∀ e₁ e₂ e₃, c.temps p = some e₁ → c.temps q = some e₂ →
      c.temps r = some e₃ →
    e₁.val = none ∨ e₂.val = none ∨ e₃.val = none
  | .call (.fneg p _), c        => ∀ e, c.temps p = some e → e.opcode = .constant ∨ e.val = none ∨
      e.val = some 0
  | _, _                        => True

end Right

section Variables

variable {vs : Vars} {cur : Ptr}

-- Entries have variables of their own, which are counted.
structure Vars.Counted (vs : Vars) : Prop where
  inj : ∀ p q n, vs.map p = some n → vs.map q = some n → p = q
  le  : ∀ p n, vs.map p = some n → 1 ≤ n ∧ n ≤ vs.count

theorem variable_map (vs : Vars) (cur : Ptr) :
    (vs.variable cur).fst.map cur = some (vs.variable cur).snd := by
  rw [Vars.variable]
  split
  case h_1 h => exact h
  case h_2   => simp

theorem variable_grows {p : Ptr} {n : Nat} (h : vs.map p = some n) :
    (vs.variable cur).fst.map p = some n := by
  rw [Vars.variable]
  split
  case h_1 => exact h
  case h_2 hn =>
    have hne : p ≠ cur := by
      rintro rfl
      rw [h] at hn
      cases hn
    show Function.update vs.map cur _ p = _
    rw [Function.update_of_ne hne, h]

theorem Vars.Counted.variable (h : vs.Counted) : (vs.variable cur).fst.Counted := by
  rw [Vars.variable]
  split
  case h_1 => exact h
  case h_2 hn =>
    have hc : ∀ p n, Function.update vs.map cur (some (vs.count + 1)) p = some n →
        (p = cur ∧ n = vs.count + 1) ∨ (p ≠ cur ∧ vs.map p = some n) := by
      intro p n hp
      by_cases hpc : p = cur
      case pos =>
        subst hpc
        rw [Function.update_self] at hp
        exact .inl ⟨rfl, (Option.some.inj hp).symm⟩
      case neg =>
        rw [Function.update_of_ne hpc] at hp
        exact .inr ⟨hpc, hp⟩
    refine ⟨fun p q n hp hq => ?_, fun p n hp => ?_⟩
    · rcases hc p n hp with ⟨hpc, hn⟩ | ⟨-, hp'⟩ <;> rcases hc q n hq with ⟨hqc, hn'⟩ | ⟨-, hq'⟩
      · rw [hpc, hqc]
      · have := (h.le q n hq').right
        omega
      · have := (h.le p n hp').right
        omega
      · exact h.inj p q n hp' hq'
    · rcases hc p n hp with ⟨-, hn⟩ | ⟨-, hp'⟩
      · exact ⟨by omega, Nat.le_of_eq hn⟩
      · exact ⟨(h.le p n hp').left, Nat.le_succ_of_le (h.le p n hp').right⟩

end Variables

section Print

variable {D : Type}

def State.valueAt (s : State (Option ℝ) D) (p : Ptr) : Option ℝ :=
  (s.temps p).bind TempEntry.val

-- The value that an entry has by its opcode and its operands.
noncomputable def State.recorded (s : State (Option ℝ) D) (e : TempEntry (Option ℝ) D) : Option ℝ :=
  if e.opcode = .constant then e.val
  else
    match e.lhs, e.rhs with
    | some l, none   => apply₁ (mGetStringOpcodeFpcore e.opcode) (s.valueAt l)
    | some l, some r => apply₂ (mGetStringOpcodeFpcore e.opcode) (s.valueAt l) (s.valueAt r)
    | _, _           => none

def Faithful (s : State (Option ℝ) D) (e : TempEntry (Option ℝ) D) : Prop :=
  s.recorded e = e.val

-- An operand that has been written before.
def Operand (c : Config (Option ℝ) D) (level timestamp : Nat) (p : Ptr) : Prop :=
  p.owner ∈ c.frames ∧ p.owner.level ≤ level ∧ ∃ e, c.temps p = some e ∧ e.timestamp < timestamp

-- An entry in a live frame. Its operands are in frames that live at least as
-- long, as are its locks.
structure Linked (c : Config (Option ℝ) D) (level : Nat) (e : TempEntry (Option ℝ) D) : Prop where
  time     : e.timestamp < c.timestamp
  lock     : e.lock ≤ level
  op1Lock  : e.op1Lock ≤ level
  op2Lock  : e.op2Lock ≤ level
  op1Key   : c.lockKeyMap e.op1Lock = e.op1Key
  op2Key   : c.lockKeyMap e.op2Lock = e.op2Key
  constant : e.opcode = .constant → e.lhs = none ∧ e.rhs = none
  lhs      : e.opcode ≠ .constant → ∃ p, e.lhs = some p
  operands : ∀ p, p ∈ e.lhs ∨ p ∈ e.rhs → Operand c level e.timestamp p

variable {c : Config (Option ℝ) D} {s : State (Option ℝ) D}

-- An expression is printed, with variables for entries.
structure Printed (s : State (Option ℝ) D) (vs vs' : Vars) (x : Expr) (v : Option ℝ) : Prop where
  grows   : ∀ p n, vs.map p = some n → vs'.map p = some n
  counted : vs.Counted → vs'.Counted
  vars    : ∀ n ∈ x.vars, ∃ p, vs'.map p = some n
  eval    : ∀ env, Binds s vs'.map env → x.eval env = v

theorem Printed.later {vs vs' vs'' : Vars} {x : Expr} {v : Option ℝ} (h : Printed s vs vs' x v)
    (hg : ∀ p n, vs'.map p = some n → vs''.map p = some n) (hc : vs'.Counted → vs''.Counted) :
    Printed s vs vs'' x v where
  grows p n hp   := hg p n (h.grows p n hp)
  counted hv     := hc (h.counted hv)
  vars n hn      := by
    obtain ⟨p, hp⟩ := h.vars n hn
    exact ⟨p, hg p n hp⟩
  eval env he    := h.eval env fun p n e hp => he p n e (hg p n hp)

-- Any live entry whose older entries are recorded faithfully is printed with the value that is
-- recorded for it, by induction on its age.
theorem fpcore_printed
    (hl : ∀ p e, p.owner ∈ c.frames → c.temps p = some e → Linked c p.owner.level e) {p : Ptr}
    {e : TempEntry (Option ℝ) D} (hp : p.owner ∈ c.frames) (he : c.temps p = some e)
    (hf : ∀ q e', q.owner ∈ c.frames → c.temps q = some e' → e'.timestamp < e.timestamp →
      Faithful c.toState e') (vs : Vars) :
    ∃ vs' x, fpcore c.toState p e vs = some (vs', x.print) ∧
    Printed c.toState vs vs' x (c.recorded e) := by
  induction ht : e.timestamp using Nat.strongRecOn generalizing p e vs with
  | ind t ih =>
    subst ht
    have hlink := hl p e hp he
    -- What an operand is printed as.
    have hop : ∀ q, q ∈ e.lhs ∨ q ∈ e.rhs → ∀ vs, ∃ vs' x,
        fpcoreOperand c.toState e.timestamp (fun p e' _ vs => fpcore c.toState p e' vs)
          (some q) vs = some (vs', x.print) ∧
        Printed c.toState vs vs' x (c.valueAt q) := by
      intro q hq vs
      obtain ⟨hqo, -, e', he', hlt⟩ := hlink.operands q hq
      obtain ⟨vs', x, hx, hpr⟩ := ih e'.timestamp hlt hqo he'
        (fun r er hr her hrt => hf r er hr her (Nat.lt_trans hrt hlt)) vs rfl
      have hv : c.valueAt q = c.recorded e' := by rw [State.valueAt, he', hf q e' hqo he' hlt]; rfl
      refine ⟨vs', x, ?_, hv ▸ hpr⟩
      simp only [fpcoreOperand, he', dif_pos hlt, hx]
    rw [fpcore, if_neg (not_not.mpr hlink.op1Key), if_neg (not_not.mpr hlink.op2Key)]
    by_cases hc : e.opcode = .constant
    case pos =>
      obtain ⟨hlhs, hrhs⟩ := hlink.constant hc
      refine ⟨(vs.variable p).fst, .leaf (.var (vs.variable p).snd), ?_, ?_⟩
      · simp [hc, hlhs, hrhs, fpcoreOperand_none, Expr.print]
      · refine ⟨fun q n => variable_grows, fun h => h.variable, fun n hn => ?_, fun env hb => ?_⟩
        · obtain rfl : n = _ := List.mem_singleton.mp hn
          exact ⟨p, variable_map vs p⟩
        · rw [State.recorded, if_pos hc]
          exact hb p _ e (variable_map vs p) he
    case neg =>
      obtain ⟨l, hlhs⟩ := hlink.lhs hc
      obtain ⟨vs₁, x, hx, hpx⟩ := hop l (.inl hlhs) vs
      cases hrhs : e.rhs with
      | none =>
        refine ⟨vs₁, .one (.op (mGetStringOpcodeFpcore e.opcode)) x, ?_, ?_⟩
        · simp [hc, hlhs, hx, fpcoreOperand_none, Expr.print]
        · refine ⟨hpx.grows, hpx.counted, hpx.vars, fun env hb => ?_⟩
          rw [State.recorded, if_neg hc, hlhs, hrhs, Expr.eval, hpx.eval env hb]
      | some r =>
        obtain ⟨vs₂, y, hy, hpy⟩ := hop r (.inr hrhs) vs₁
        have hpx := hpx.later hpy.grows hpy.counted
        refine ⟨vs₂, .two (.op (mGetStringOpcodeFpcore e.opcode)) x y, ?_, ?_⟩
        · simp [hc, hlhs, hx, hy, Expr.print]
        · refine ⟨hpx.grows, hpx.counted, fun n hn => ?_, fun env hb => ?_⟩
          · rcases List.mem_append.mp hn with hn | hn
            · exact hpx.vars n hn
            · exact hpy.vars n hn
          · rw [State.recorded, if_neg hc, hlhs, hrhs, Expr.eval, hpx.eval env hb, hpy.eval env hb]

-- Variables of their own can be bound to the values of their entries.
theorem Vars.Counted.exists_binds {vs : Vars} (h : vs.Counted) (s : State (Option ℝ) D) :
    ∃ env, Binds s vs.map env := by
  classical
  refine ⟨fun n => if h : ∃ p, vs.map p = some n then s.valueAt h.choose else none,
    fun p n e hp he => ?_⟩
  have hx : ∃ p, vs.map p = some n := ⟨p, hp⟩
  have hc : hx.choose = p := h.inj _ _ n hx.choose_spec hp
  simp only [dif_pos hx, hc, State.valueAt, he, Option.bind_some]

theorem right_iff_faithful
    (hl : ∀ p e, p.owner ∈ c.frames → c.temps p = some e → Linked c p.owner.level e) {p : Ptr}
    {e : TempEntry (Option ℝ) D} (hp : p.owner ∈ c.frames) (he : c.temps p = some e)
    (hf : ∀ q e', q.owner ∈ c.frames → c.temps q = some e' → e'.timestamp < e.timestamp →
      Faithful c.toState e') :
    Right c.toState p e ↔ Faithful c.toState e := by
  obtain ⟨vs, x, hx, hpr⟩ := fpcore_printed hl hp he hf { map := fun _ => none, count := 0 }
  have hg : getFpcore c.toState (fun _ => none) p =
      some { params := (List.range' 1 vs.count).reverse, body := x.print, varMap := vs.map } := by
    simp only [getFpcore, he, hx, Option.bind_eq_bind, Option.bind_some]
    rfl
  have hc : vs.Counted := hpr.counted ⟨fun _ _ _ h _ => (by cases h), fun _ _ h => (by cases h)⟩
  constructor
  · rintro ⟨f, y, hf', hy, -, ⟨env, hb⟩, hv⟩
    obtain rfl := Option.some.inj (hg.symm.trans hf')
    obtain rfl := Option.some.inj ((read_print x).symm.trans hy)
    exact (hpr.eval env hb).symm.trans (hv env hb)
  · intro h
    refine ⟨_, x, hg, read_print x, fun n hn => ?_, hc.exists_binds _, fun env hb =>
      (hpr.eval env hb).trans h⟩
    obtain ⟨q, hq⟩ := hpr.vars n hn
    have := hc.le q n hq
    rw [List.mem_reverse, List.mem_range']
    exact ⟨n - 1, by omega, by omega⟩

end Print

section Dag

variable {D : Type} {c c' : Config (Option ℝ) D}

-- The entries of straight-line code.
structure Dag (c : Config (Option ℝ) D) : Prop where
  stack    : Stack c.keyStackTop c.frames
  zero     : c.lockKeyMap 0 = 0
  frameIds : ∀ a ∈ c.frames, a.id < c.next
  ids      : ∀ p e, c.temps p = some e → p.owner.id < c.next
  linked   : ∀ p e, p.owner ∈ c.frames → c.temps p = some e → Linked c p.owner.level e

theorem Dag.operand (h : Dag c) {p : Ptr} {e : TempEntry (Option ℝ) D} (hp : p.owner ∈ c.frames)
    (he : c.temps p = some e) :
    Operand c c.keyStackTop c.timestamp p :=
  ⟨hp, h.stack.level_le hp, e, he, (h.linked p e hp he).time⟩

theorem Dag.lock_le (h : Dag c) {p : Ptr} {e : TempEntry (Option ℝ) D} (hp : p.owner ∈ c.frames)
    (he : c.temps p = some e) :
    e.lock ≤ c.keyStackTop :=
  Nat.le_trans (h.linked p e hp he).lock (h.stack.level_le hp)

-- A live frame is entered or left.
theorem Linked.of_frames {level : Nat} {e : TempEntry (Option ℝ) D} (h : Linked c level e)
    (hk : ∀ l ≤ level, c'.lockKeyMap l = c.lockKeyMap l) (ht : c'.timestamp = c.timestamp)
    (hm : c'.temps = c.temps) (hf : ∀ a ∈ c.frames, a.level ≤ level → a ∈ c'.frames) :
    Linked c' level e where
  time         := ht ▸ h.time
  lock         := h.lock
  op1Lock      := h.op1Lock
  op2Lock      := h.op2Lock
  op1Key       := (hk _ h.op1Lock).trans h.op1Key
  op2Key       := (hk _ h.op2Lock).trans h.op2Key
  constant     := h.constant
  lhs          := h.lhs
  operands p hp := by
    obtain ⟨ho, hl, e', he', hlt⟩ := h.operands p hp
    exact ⟨hf _ ho hl, hl, e', hm ▸ he', hlt⟩

theorem Dag.enter (h : Dag c) : Dag c.enter where
  stack      := .cons rfl h.stack
  zero       :=
    (Function.update_of_ne (Nat.succ_ne_zero c.keyStackTop).symm
      ((c.keyCounter + 1) % 2 ^ 64) c.lockKeyMap).trans h.zero
  frameIds a ha := by
    rcases List.mem_cons.mp ha with rfl | ha
    · exact Nat.lt_succ_self _
    · exact Nat.lt_succ_of_lt (h.frameIds a ha)
  ids p e he := Nat.lt_succ_of_lt (h.ids p e he)
  linked p e hp he := by
    rcases List.mem_cons.mp hp with hpo | hp
    case inl =>
      have := h.ids p e he
      rw [hpo] at this
      exact absurd this (Nat.lt_irrefl _)
    case inr =>
      refine (h.linked p e hp he).of_frames (fun l hl => ?_) rfl rfl fun a ha _ =>
        List.mem_cons_of_mem _ ha
      have := h.stack.level_le hp
      exact Function.update_of_ne (by omega) _ _

theorem Dag.exit (h : Dag c) (hne : c.frames ≠ []) : Dag c.exit where
  stack      := h.stack.tail hne
  zero       := (Function.update_of_ne (Nat.ne_of_lt h.stack.pos) _ _).trans h.zero
  frameIds a ha := h.frameIds a (List.mem_of_mem_tail ha)
  ids        := h.ids
  linked p e hp he := by
    have hlt : p.owner.level < c.keyStackTop := h.stack.lt_of_mem_tail hp
    refine (h.linked p e (List.mem_of_mem_tail hp) he).of_frames
      (fun l hl => ?_) rfl rfl fun a ha hl => ?_
    · exact Function.update_of_ne (by omega) _ _
    · exact h.stack.mem_tail ha (by omega)

-- A temporary is written for the first time.
def Config.put (c : Config (Option ℝ) D) (res : Ptr) (e : TempEntry (Option ℝ) D) (n : Nat) :
    Config (Option ℝ) D :=
  { c with temps := Function.update c.temps res (some e), timestamp := n }

section Put

variable {res : Ptr} {e : TempEntry (Option ℝ) D} {n level : Nat}

theorem temps_put {p : Ptr} {e' : TempEntry (Option ℝ) D} (h : (c.put res e n).temps p = some e') :
    (p = res ∧ e' = e) ∨ (p ≠ res ∧ c.temps p = some e') := by
  simp only [Config.put] at h
  by_cases hp : p = res
  case pos =>
    rw [hp, Function.update_self] at h
    exact .inl ⟨hp, (Option.some.inj h).symm⟩
  case neg =>
    rw [Function.update_of_ne hp] at h
    exact .inr ⟨hp, h⟩

theorem temps_put_of_some (hn : c.temps res = none) {p : Ptr} {e' : TempEntry (Option ℝ) D}
    (h : c.temps p = some e') :
    (c.put res e n).temps p = some e' := by
  have hp : p ≠ res := by
    rintro rfl
    rw [hn] at h
    cases h
  exact (Function.update_of_ne hp _ _).trans h

theorem Linked.put {e' : TempEntry (Option ℝ) D} (h : Linked c level e') (hn : c.temps res = none)
    (ht : c.timestamp ≤ n) :
    Linked (c.put res e n) level e' :=
  { h with
    time := Nat.lt_of_lt_of_le h.time ht
    operands := fun p hp => by
      obtain ⟨ho, hl, e', he', hlt⟩ := h.operands p hp
      exact ⟨ho, hl, e', temps_put_of_some hn he', hlt⟩ }

theorem Dag.put (h : Dag c) (ho : res.owner ∈ c.frames) (hn : c.temps res = none)
    (ht : c.timestamp ≤ n) (he : Linked { c with timestamp := n } res.owner.level e) :
    Dag (c.put res e n) where
  stack         := h.stack
  zero          := h.zero
  frameIds      := h.frameIds
  ids p e' hp   := by
    obtain ⟨rfl, -⟩ | ⟨-, hp⟩ := temps_put hp
    · exact h.frameIds _ ho
    · exact h.ids p e' hp
  linked p e' hpo hp := by
    obtain ⟨rfl, rfl⟩ | ⟨-, hp⟩ := temps_put hp
    · exact he.put hn (Nat.le_refl n)
    · exact (h.linked p e' hpo hp).put hn ht

-- What is recorded for an entry does not change when another temporary is written.
theorem recorded_put {e' : TempEntry (Option ℝ) D} (h : Linked c level e')
    (hn : c.temps res = none) :
    (c.put res e n).recorded e' = c.recorded e' := by
  have hv : ∀ p, p ∈ e'.lhs ∨ p ∈ e'.rhs → (c.put res e n).valueAt p = c.valueAt p := by
    intro p hp
    obtain ⟨-, -, e₁, he₁, -⟩ := h.operands p hp
    rw [State.valueAt, State.valueAt, temps_put_of_some hn he₁, he₁]
  simp only [State.recorded]
  split
  case isTrue  => rfl
  case isFalse =>
    cases hl : e'.lhs with
    | none   => rfl
    | some l =>
      have hvl := hv l (.inl hl)
      cases hr : e'.rhs with
      | none   => simp only [hvl]
      | some r => simp only [hvl, hv r (.inr hr)]

end Put

-- All live entries are recorded faithfully.
def Config.Faithful (c : Config (Option ℝ) D) : Prop :=
  ∀ p e, p.owner ∈ c.frames → c.temps p = some e → Metadata.Faithful c.toState e

theorem Dag.right (h : Dag c) (hf : c.Faithful) : c.Right :=
  fun p e hp he =>
    (right_iff_faithful h.linked hp he fun q e' hq he' _ => hf q e' hq he').mpr (hf p e hp he)

-- An entry is new, and no older one refers to it.
theorem faithful_put (h : Dag c) (hf : c.Faithful) {res : Ptr} {e : TempEntry (Option ℝ) D}
    {n : Nat} (hn : c.temps res = none) (hl : Linked { c with timestamp := n } res.owner.level e)
    (he : c.recorded e = e.val) : (c.put res e n).Faithful := by
  intro p e' hpo hp
  obtain ⟨-, rfl⟩ | ⟨-, hp⟩ := temps_put hp
  · exact (recorded_put (c := { c with timestamp := n }) hl hn).trans he
  · exact (recorded_put (h.linked p e' hpo hp) hn).trans (hf p e' hpo hp)

theorem not_right_put (h : Dag c) (hf : c.Faithful) {res : Ptr} {e : TempEntry (Option ℝ) D}
    {n : Nat} (ho : res.owner ∈ c.frames) (hn : c.temps res = none) (ht : c.timestamp ≤ n)
    (hl : Linked { c with timestamp := n } res.owner.level e) (he : c.recorded e ≠ e.val) :
    ¬(c.put res e n).Right := by
  intro hr
  have hd := h.put ho hn ht hl
  have hp : (c.put res e n).temps res = some e := Function.update_self ..
  have hr := (right_iff_faithful hd.linked ho hp fun q e' hq he' hlt => ?_).mp (hr res e ho hp)
  · exact he ((recorded_put (c := { c with timestamp := n }) hl hn).symm.trans hr)
  · obtain ⟨-, rfl⟩ | ⟨-, he'⟩ := temps_put he'
    · exact absurd hlt (Nat.lt_irrefl _)
    · exact (recorded_put (h.linked q e' hq he') hn).trans (hf q e' hq he')

end Dag

section Operations

variable {D : Type} {R : Reals D} {c : Config (Option ℝ) D} {p q res : Ptr}
  {e e₁ e₂ : TempEntry (Option ℝ) D}
variable {val : Option ℝ} {d : D} {o : FpOp} {i : Nat}

theorem Dag.linked_leaf (h : Dag c) :
    Linked { c with timestamp := c.timestamp + 1 } c.keyStackTop (c.leaf val d .constant i) where
  time     := Nat.lt_succ_self _
  lock     := Nat.le_refl _
  op1Lock  := Nat.zero_le _
  op2Lock  := Nat.zero_le _
  op1Key   := h.zero
  op2Key   := h.zero
  constant := fun _ => ⟨rfl, rfl⟩
  lhs      := fun hc => absurd rfl hc
  operands := by
    rintro p (hp | hp)
    · cases hp
    · cases hp

theorem Dag.linked_unary (h : Dag c) (hp : p.owner ∈ c.frames) (he : c.temps p = some e)
    (ho : o ≠ .constant) :
    Linked { c with timestamp := c.timestamp + 1 } c.keyStackTop (c.unary p e val d o i) where
  time     := Nat.lt_succ_self _
  lock     := Nat.le_refl _
  op1Lock  := h.lock_le hp he
  op2Lock  := Nat.zero_le _
  op1Key   := rfl
  op2Key   := h.zero
  constant := fun hc => absurd hc ho
  lhs      := fun _ => ⟨p, rfl⟩
  operands := by
    rintro q (hq | hq)
    · obtain rfl := Option.some.inj hq
      exact h.operand hp he
    · cases hq

theorem Dag.linked_binary (h : Dag c) (hp : p.owner ∈ c.frames) (he : c.temps p = some e₁)
    (hq : q.owner ∈ c.frames) (he' : c.temps q = some e₂) (ho : o ≠ .constant) :
    Linked { c with timestamp := c.timestamp + 1 } c.keyStackTop
      (c.binary p e₁ q e₂ val d o i) where
  time     := Nat.lt_succ_self _
  lock     := Nat.le_refl _
  op1Lock  := h.lock_le hp he
  op2Lock  := h.lock_le hq he'
  op1Key   := rfl
  op2Key   := rfl
  constant := fun hc => absurd hc ho
  lhs      := fun _ => ⟨p, rfl⟩
  operands := by
    rintro r (hr | hr)
    · obtain rfl := Option.some.inj hr
      exact h.operand hp he
    · obtain rfl := Option.some.inj hr
      exact h.operand hq he'

-- A negation has the links of its operand, in a frame above.
theorem Dag.linked_fneg (h : Dag c) (hp : p.owner ∈ c.frames) (he : c.temps p = some e) :
    Linked c c.keyStackTop { e with val := val, computed := d } := by
  have hl := h.linked p e hp he
  have hle := h.stack.level_le hp
  exact
    { time     := hl.time
      lock     := Nat.le_trans hl.lock hle
      op1Lock  := Nat.le_trans hl.op1Lock hle
      op2Lock  := Nat.le_trans hl.op2Lock hle
      op1Key   := hl.op1Key
      op2Key   := hl.op2Key
      constant := hl.constant
      lhs      := hl.lhs
      operands := fun q hq => by
        obtain ⟨ho, hq, hw⟩ := hl.operands q hq
        exact ⟨ho, Nat.le_trans hq hle, hw⟩ }

theorem recorded_unary (he : c.temps p = some e) (ho : o ≠ .constant) :
    c.recorded (c.unary p e val d o i) = apply₁ (mGetStringOpcodeFpcore o) e.val := by
  simp [State.recorded, State.unary, State.leaf, State.valueAt, he, ho]

theorem recorded_binary (he : c.temps p = some e₁) (he' : c.temps q = some e₂)
    (ho : o ≠ .constant) :
    c.recorded (c.binary p e₁ q e₂ val d o i) =
    apply₂ (mGetStringOpcodeFpcore o) e₁.val e₂.val := by
  simp [State.recorded, State.binary, State.unary, State.leaf, State.valueAt, he, he', ho]

-- The names are those of the functions.
theorem apply₁_of_mathFn {f : Option ℝ → Option ℝ} (hf : mathFn R.mpfr o = some f) (x : Option ℝ) :
    apply₁ (mGetStringOpcodeFpcore o) x = f x ∨ mGetStringOpcodeFpcore o = "Unknown" := by
  cases o <;> first | exact .inr rfl | (cases hf; exact .inl rfl) | cases hf

theorem apply₁_eq_iff {f : Option ℝ → Option ℝ} (hf : mathFn R.mpfr o = some f)
    (he : c.temps p = some e) :
    apply₁ (mGetStringOpcodeFpcore o) e.val = f e.val ↔
    (Act.call (.math o p d res i)).Determined R c := by
  rcases apply₁_of_mathFn hf e.val with ha | ho
  case inl =>
    refine iff_of_true ha (or_iff_not_imp_left.mpr fun hn e' f' he' hf' => ?_)
    obtain rfl := Option.some.inj (he.symm.trans he')
    obtain rfl := Option.some.inj (hf.symm.trans hf')
    rw [← ha, Classical.not_not.mp hn]
    rfl
  case inr =>
    rw [ho]
    show none = f e.val ↔ _
    constructor
    · intro h
      refine .inr fun e' f' he' hf' => ?_
      obtain rfl := Option.some.inj (he.symm.trans he')
      obtain rfl := Option.some.inj (hf.symm.trans hf')
      exact h.symm
    · rintro (hn | hv)
      · exact absurd ho hn
      · exact (hv e f he hf).symm

theorem none_eq_fma_iff (x y z : Option ℝ) :
    none = R.mpfr.fma x y z ↔ x = none ∨ y = none ∨ z = none := by
  cases x <;> cases y <;> cases z <;> simp [Reals.mpfr, RealFn.lift₃, RealFn.lift₂, RealFn.fma]

theorem neg_eq_self_iff (x : Option ℝ) :
    R.mpfr.sub (R.mpfr.setD R.zero) x = x ↔ x = none ∨ x = some 0 := by
  have hz : R.mpfr.setD R.zero = some 0 := R.real_zero
  rw [hz]
  cases x with
  | none   => exact iff_of_true rfl (.inl rfl)
  | some x =>
    show some (0 - x) = some x ↔ _
    rw [zero_sub, Option.some_inj, neg_eq_self]
    simp

-- The third operand of an `fma` is not recorded.
theorem determined_fma_iff {p q r res : Ptr} {d : D} {i : Nat} {e₁ e₂ e₃ : TempEntry (Option ℝ) D}
    (h₁ : c.temps p = some e₁) (h₂ : c.temps q = some e₂) (h₃ : c.temps r = some e₃) :
    none = R.mpfr.fma e₁.val e₂.val e₃.val ↔ (Act.call (.fma p q r d res i)).Determined R c := by
  refine (none_eq_fma_iff (R := R) e₁.val e₂.val e₃.val).trans ⟨?_, fun hd => hd e₁ e₂ e₃ h₁ h₂ h₃⟩
  rintro hd a b c' ha hb hc
  obtain rfl := Option.some.inj (h₁.symm.trans ha)
  obtain rfl := Option.some.inj (h₂.symm.trans hb)
  obtain rfl := Option.some.inj (h₃.symm.trans hc)
  exact hd

-- The links of a negation are those of its operand, and so is the recorded value.
theorem determined_fneg_iff {p res : Ptr} {e : TempEntry (Option ℝ) D} (he : c.temps p = some e)
    (hr : c.recorded e = e.val) {d : D} {v : Option ℝ}
    (hv : v = R.mpfr.sub (R.mpfr.setD R.zero) e.val) :
    c.recorded { e with val := v, computed := d } = v ↔
    (Act.call (.fneg p res)).Determined R c := by
  have hd : (Act.call (.fneg p res)).Determined R c ↔ e.opcode = .constant ∨ e.val = none ∨
      e.val = some 0 := by
    refine ⟨fun hd => hd e he, fun hd e' he' => ?_⟩
    obtain rfl := Option.some.inj (he.symm.trans he')
    exact hd
  rw [hd]
  by_cases hc : e.opcode = .constant
  case pos => exact iff_of_true (if_pos hc) (.inl hc)
  case neg =>
    have hv' : c.recorded { e with val := v, computed := d } = e.val := by
      refine Eq.trans ?_ hr
      simp only [State.recorded, if_neg hc]
    rw [hv', or_iff_right hc, ← neg_eq_self_iff, hv, eq_comm]

-- What an operation of straight-line code does, and when it records its value faithfully.
structure Puts (R : Reals D) (k : Call (Option ℝ) D) (c : Config (Option ℝ) D)
    (s : State (Option ℝ) D) (res : Ptr) (e : TempEntry (Option ℝ) D) (n : Nat) : Prop where
  owner    : res.owner ∈ c.frames
  fresh    : c.temps res = none
  state    : { c with toState := s } = c.put res e n
  time     : c.timestamp ≤ n
  linked   : Linked { c with timestamp := n } res.owner.level e
  recorded : c.recorded e = e.val ↔ (Act.call k).Determined R c

theorem exists_puts (h : Dag c) (hf : c.Faithful) {k : Call (Option ℝ) D}
    (hs : (Act.call k).isStraight c) (hfit : k.Fits c.frames) {s : State (Option ℝ) D}
    (hk : k.exec R.mpfr R.toDoubles c.toState = some s) :
    ∃ res e n, Puts R k c s res e n := by
  obtain ⟨ho, hr⟩ := Bool.and_eq_true_iff.mp hs
  obtain ⟨hops, hres, -⟩ := hfit
  have hfresh : ∀ p ∈ k.result, c.temps p = none := by
    intro p hp
    rw [Option.mem_def.mp hp] at hr
    simpa using hr
  have htop : ∀ p ∈ k.result, p.owner ∈ c.frames ∧ p.owner.level = c.keyStackTop :=
    fun p hp => h.stack.level_head (hres p hp)
  cases k with
  | const p d i =>
    obtain ⟨hpo, hpl⟩ := htop p rfl
    cases hk
    exact ⟨p, _, _, hpo, hfresh p rfl, rfl, Nat.le_succ _, hpl ▸ h.linked_leaf,
      iff_of_true rfl trivial⟩
  | compute o p q d res i =>
    obtain ⟨hpo, hpl⟩ := htop res rfl
    obtain ⟨e₁, h₁, hk⟩ := Option.bind_eq_some_iff.mp hk
    obtain ⟨e₂, h₂, hk⟩ := Option.bind_eq_some_iff.mp hk
    cases hk
    have hp := hops p (by simp [Call.operands])
    have hq := hops q (by simp [Call.operands])
    have hoc : o ≠ .constant := by
      rintro rfl
      cases ho
    refine ⟨res, _, _, hpo, hfresh res rfl, rfl, Nat.le_succ _,
      hpl ▸ h.linked_binary hp h₁ hq h₂ hoc, ?_⟩
    rw [recorded_binary h₁ h₂ hoc]
    refine iff_of_true ?_ trivial
    cases o <;> first | rfl | cases ho
  | math o p d res i =>
    obtain ⟨hpo, hpl⟩ := htop res rfl
    obtain ⟨e₁, h₁, hk⟩ := Option.bind_eq_some_iff.mp hk
    obtain ⟨f, hf, hk⟩ := Option.bind_eq_some_iff.mp hk
    cases hk
    have hp := hops p (by simp [Call.operands])
    have hoc : o ≠ .constant := by
      rintro rfl
      cases hf
    refine ⟨res, _, _, hpo, hfresh res rfl, rfl, Nat.le_succ _, hpl ▸ h.linked_unary hp h₁ hoc, ?_⟩
    rw [recorded_unary h₁ hoc]
    exact apply₁_eq_iff hf h₁
  | fma p q r d res i =>
    obtain ⟨hpo, hpl⟩ := htop res rfl
    obtain ⟨e₁, h₁, hk⟩ := Option.bind_eq_some_iff.mp hk
    obtain ⟨e₂, h₂, hk⟩ := Option.bind_eq_some_iff.mp hk
    obtain ⟨e₃, h₃, hk⟩ := Option.bind_eq_some_iff.mp hk
    cases hk
    have hp := hops p (by simp [Call.operands])
    have hq := hops q (by simp [Call.operands])
    refine ⟨res, _, _, hpo, hfresh res rfl, rfl, Nat.le_succ _,
      hpl ▸ h.linked_binary hp h₁ hq h₂ (by decide), ?_⟩
    rw [recorded_binary h₁ h₂ (by decide)]
    exact determined_fma_iff h₁ h₂ h₃
  | fneg p res =>
    obtain ⟨hpo, hpl⟩ := htop res rfl
    obtain ⟨e₁, h₁, hk⟩ := Option.bind_eq_some_iff.mp hk
    cases hk
    have hp := hops p (by simp [Call.operands])
    have hl : Linked c res.owner.level
        { e₁ with val := R.mpfr.sub (R.mpfr.setD R.zero) e₁.val, computed := R.neg e₁.computed } :=
          hpl ▸ h.linked_fneg hp h₁
    exact ⟨res, _, c.timestamp, hpo, hfresh res rfl, rfl, Nat.le_refl _, hl,
      determined_fneg_iff h₁ (hf p e₁ hp h₁) rfl⟩
  | _ => cases ho

-- A step that is not an operation.
theorem straight_cases {a : Act (Option ℝ) D} {c' : Config (Option ℝ) D}
    (e : (straightLine R).step a c = some c') :
    (a = .enter ∧ c' = c.enter) ∨ (a = .exit ∧ c.frames ≠ [] ∧ c' = c.exit) ∨
    ∃ k s, a = .call k ∧ (Act.call k).isStraight c ∧ k.Fits c.frames ∧
    k.exec R.mpfr R.toDoubles c.toState = some s ∧
      c' = { c with toState := s } := by
  simp only [straightLine] at e
  split at e
  case isFalse    => cases e
  case isTrue hst =>
    obtain h | h | ⟨k, s, rfl, hf, hs, rfl⟩ := exec_cases e
    · exact .inl h
    · exact .inr (.inl h)
    · exact .inr (.inr ⟨k, s, rfl, hst, hf, hs, rfl⟩)

-- What is recorded for an entry does not depend on the frames.
theorem Dag.faithful_of_frames (hf : c.Faithful) {c' : Config (Option ℝ) D}
    (hm : c'.temps = c.temps)
    (h : ∀ p e, p.owner ∈ c'.frames → c.temps p = some e → p.owner ∈ c.frames) : c'.Faithful := by
  intro p e hp he
  have he := hm ▸ he
  have hv : c'.recorded e = c.recorded e := by simp only [State.recorded, State.valueAt, hm]
  exact hv.trans (hf p e (h p e hp he) he)

theorem dag_init : Dag (straightLine R).init ∧ (straightLine R).init.Faithful := by
  refine ⟨⟨.nil, rfl, ?_, ?_, ?_⟩, ?_⟩
  · intro a ha
    cases ha
  · intro p e he
    cases he
  · intro p e hp
    cases hp
  · intro p e hp
    cases hp

theorem dag_step {a : Act (Option ℝ) D} {c' : Config (Option ℝ) D} (h : Dag c ∧ c.Faithful)
    (hd : a.Determined R c) (e : (straightLine R).step a c = some c') : Dag c' ∧ c'.Faithful := by
  obtain ⟨h, hf⟩ := h
  obtain ⟨rfl, rfl⟩ | ⟨rfl, hne, rfl⟩ | ⟨k, s, rfl, hst, hfit, hs, rfl⟩ := straight_cases e
  case inl =>
    refine ⟨h.enter, Dag.faithful_of_frames hf rfl fun p e hp he => ?_⟩
    rcases List.mem_cons.mp hp with hpo | hp
    · have := h.ids p e he
      rw [hpo] at this
      exact absurd this (Nat.lt_irrefl _)
    · exact hp
  case inr.inl =>
    exact ⟨h.exit hne, Dag.faithful_of_frames hf rfl fun p e hp _ => List.mem_of_mem_tail hp⟩
  case inr.inr =>
    obtain ⟨res, e, n, hp⟩ := exists_puts h hf hst hfit hs
    rw [hp.state]
    exact ⟨h.put hp.owner hp.fresh hp.time hp.linked,
      faithful_put h hf hp.fresh hp.linked (hp.recorded.mpr hd)⟩

theorem not_right_step {a : Act (Option ℝ) D} {c' : Config (Option ℝ) D} (h : Dag c ∧ c.Faithful)
    (hd : ¬a.Determined R c) (e : (straightLine R).step a c = some c') : ¬c'.Right := by
  obtain ⟨h, hf⟩ := h
  obtain ⟨rfl, -⟩ | ⟨rfl, -⟩ | ⟨k, s, rfl, hst, hfit, hs, rfl⟩ := straight_cases e
  · exact absurd trivial hd
  · exact absurd trivial hd
  · obtain ⟨res, e, n, hp⟩ := exists_puts h hf hst hfit hs
    rw [hp.state]
    exact not_right_put h hf hp.owner hp.fresh hp.time hp.linked (mt hp.recorded.mp hd)

end Operations

-- The expressions of all live temporaries are right in a run of straight-line code exactly if what
-- each operation records determines its value.
theorem always_right_iff {D : Type} (R : Reals D) {c : Config (Option ℝ) D}
    (r : (straightLine R).Run c) :
    r.Always Config.Right ↔ r.Each (Act.Determined R) := by
  exact Machine.Run.always_iff_each (I := fun c => Dag c ∧ c.Faithful) dag_init
    (fun _ h => h.left.right h.right)
    (fun _ => dag_step) (fun _ => not_right_step) r

-- The sum of 1 and 1 is negated: the expression for -2 is that of 2.
theorem not_always_right :
    ¬∀ (D : Type) (R : Reals D) (c : Config (Option ℝ) D) (r : (straightLine R).Run c),
    r.Always Config.Right := by
  intro h
  let r := Machine.Run.init (M := straightLine Reals.plain) |>.step .enter rfl
    |>.step (.call (.const ⟨⟨2, 0⟩, 0⟩ 1 7)) rfl |>.step (.call (.const ⟨⟨2, 0⟩, 1⟩ 1 8)) rfl
    |>.step (.call (.compute .fadd ⟨⟨2, 0⟩, 0⟩ ⟨⟨2, 0⟩, 1⟩ 2 ⟨⟨2, 0⟩, 2⟩ 9)) rfl
  let r' := r.step (.call (.fneg ⟨⟨2, 0⟩, 2⟩ ⟨⟨2, 0⟩, 3⟩)) rfl
  have hi :=
    (Machine.Run.Each.invariant (C := Act.Determined Reals.plain) dag_init (fun _ => dag_step)
    (show r.Each _ from ⟨⟨⟨⟨trivial, trivial⟩, trivial⟩, trivial⟩, trivial⟩)).last
  refine not_right_step (a := .call (.fneg ⟨⟨2, 0⟩, 2⟩ ⟨⟨2, 0⟩, 3⟩)) hi ?_ rfl (h _ _ _ r').last
  intro hd
  rcases hd _ rfl with ho | hv | hv
  · cases ho
  · cases hv
  · have h₂ : (1 : ℝ) + 1 = 0 := Option.some.inj hv
    norm_num at h₂

end Metadata
