import PFPSanitizer.Lib.Parentheses
import PFPSanitizer.Runtime.FpCore
import PFPSanitizer.Runtime.ShadowMemory

-- The expressions that a sequence of calls of `fpsan_get_fpcore` prints, and the variables in them.
namespace Metadata

open Prefix Parentheses

-- The variables of an expression, in the order of their occurrences.
def occurrences : List Token → List Nat
  | []                      => []
  | .opening (.var n) :: ts => n :: occurrences ts
  | _ :: ts                 => occurrences ts

def headText : Head → List Char
  | .var n   => " x_".toList ++ n.repr.toList
  | .op name => name.toList

def tokenText : Token → List Char
  | .opening h => '(' :: headText h
  | .closing   => [')']

-- What is written to the file.
def FPCore.text (f : FPCore) : List Char :=
  "(FPCore ( ".toList ++ (f.params.flatMap fun n => "x_".toList ++ n.repr.toList ++ " ".toList) ++
    ")\n".toList ++
    f.body.flatMap tokenText ++ ")\n".toList

variable {V D : Type} (s : State V D)

-- Nothing is printed for `NULL`.
def getFpcoreOf (varMap : Ptr → Option Nat) : Option Ptr → Option FPCore
  | none     => some { params := [], body := [], varMap := varMap }
  | some cur => getFpcore s varMap cur

section Leaves

def leafOperand (t : Nat) (leaves : Ptr → (e : TempEntry V D) → e.timestamp < t → List Ptr)
    (operand : Option Ptr) : List Ptr :=
  match operand with
  | none   => []
  | some p =>
    match s.temps p with
    | none   => []
    | some e => if h : e.timestamp < t then leaves p e h else []

-- The entries that `fpsan_fpcore` prints variables for, one for each occurrence.
def leaves (cur : Ptr) (e : TempEntry V D) : List Ptr :=
  if s.lockKeyMap e.op1Lock ≠ e.op1Key then [cur]
  else if s.lockKeyMap e.op2Lock ≠ e.op2Key then [cur]
  else
    (if e.opcode = .constant then [cur] else []) ++
      (leafOperand s e.timestamp (fun p e' _ => leaves p e') e.lhs ++
        leafOperand s e.timestamp (fun p e' _ => leaves p e') e.rhs)
termination_by e.timestamp

def leavesOf (cur : Option Ptr) : List Ptr :=
  (cur.bind fun p => (s.temps p).map fun e => leaves s p e).getD []

-- All variables of the body are declared, those of two occurrences are the same exactly if their
-- entries are, and the parentheses are balanced.
structure FPCore.Good (cur : Option Ptr) (f : FPCore) : Prop where
  closed   : ∀ n ∈ occurrences f.body, n ∈ f.params
  places   : (leavesOf s cur).length = (occurrences f.body).length
  faithful : ∀ a ∈ (leavesOf s cur).zip (occurrences f.body),
    ∀ b ∈ (leavesOf s cur).zip (occurrences f.body),
             a.snd = b.snd ↔ a.fst = b.fst
  balanced : Balanced f.text

end Leaves

-- The variables of several occurrences, one after the other.
def Vars.numbers (vs : Vars) : List Ptr → Vars × List Nat
  | []      => (vs, [])
  | p :: ps =>
    (((vs.variable p).fst.numbers ps).fst,
      (vs.variable p).snd :: ((vs.variable p).fst.numbers ps).snd)

section Variables

variable {vs vs' : Vars} {ps qs : List Ptr} {p : Ptr} {ns : List Nat} {n : Nat}
  {m : Ptr → Option Nat}

theorem numbers_append (vs : Vars) (ps qs : List Ptr) :
    vs.numbers (ps ++ qs) =
      (((vs.numbers ps).fst.numbers qs).fst,
        (vs.numbers ps).snd ++ ((vs.numbers ps).fst.numbers qs).snd) := by
  induction ps generalizing vs with
  | nil          => rfl
  | cons p ps ih => simp only [List.cons_append, Vars.numbers, ih]

theorem numbers_grows (h : vs.map p = some n) : (vs.numbers ps).fst.map p = some n := by
  induction ps generalizing vs with
  | nil          => exact h
  | cons q ps ih => exact ih (variable_grows h)

-- Each occurrence gets the number that its entry has in the end.
theorem map_numbers : ps.map (vs.numbers ps).fst.map = (vs.numbers ps).snd.map some := by
  induction ps generalizing vs with
  | nil          => rfl
  | cons p ps ih =>
    have hp : ((vs.variable p).fst.numbers ps).fst.map p = some (vs.variable p).snd :=
      numbers_grows (variable_map vs p)
    exact congrArg₂ List.cons hp ih

theorem variable_map_cases {cur : Ptr} (h : (vs.variable cur).fst.map p = some n) :
    vs.map p = some n ∨ p = cur := by
  rw [Vars.variable] at h
  split at h
  case h_1 => exact .inl h
  case h_2 =>
    simp only [Function.update_apply] at h
    split at h
    case isTrue hp => exact .inr hp
    case isFalse   => exact .inl h

-- Only the entries of the occurrences get one.
theorem map_numbers_cases (h : (vs.numbers ps).fst.map p = some n) :
    vs.map p = some n ∨ p ∈ ps := by
  induction ps generalizing vs with
  | nil          => exact .inl h
  | cons q ps ih =>
    obtain hv | hm := ih h
    case inr => exact .inr (List.mem_cons_of_mem q hm)
    case inl =>
      obtain hv | rfl := variable_map_cases hv
      · exact .inl hv
      · exact .inr List.mem_cons_self

-- A table that has started as `m`: the numbers up to the count are those of one new entry each.
structure Vars.Since (m : Ptr → Option Nat) (vs : Vars) : Prop where
  old  : ∀ p n, m p = some n → vs.map p = some n
  le   : ∀ p n, m p = none → vs.map p = some n → 1 ≤ n ∧ n ≤ vs.count
  inj  : ∀ p q n, m p = none → m q = none → vs.map p = some n → vs.map q = some n → p = q
  all  : ∀ n, 1 ≤ n → n ≤ vs.count → ∃ p, m p = none ∧ vs.map p = some n

theorem Vars.Since.variable (h : vs.Since m) : (vs.variable p).fst.Since m := by
  rw [Vars.variable]
  split
  case h_1    => exact h
  case h_2 hn =>
    have hp : m p = none := by
      by_contra hs
      obtain ⟨n, hs⟩ := Option.ne_none_iff_exists'.mp hs
      cases hn.symm.trans (h.old p n hs)
    have hc : ∀ q n, Function.update vs.map p (some (vs.count + 1)) q = some n →
        (q = p ∧ n = vs.count + 1) ∨ vs.map q = some n := by
      intro q n hq
      rw [Function.update_apply] at hq
      split at hq
      case isTrue he => exact .inl ⟨he, (Option.some.inj hq).symm⟩
      case isFalse   => exact .inr hq
    refine ⟨fun q n hq => ?_, fun q n hq hv => ?_, fun q r n hq hr hvq hvr => ?_, fun n h₁ h₂ => ?_⟩
    · have hqp : q ≠ p := by
        rintro rfl
        cases hp.symm.trans hq
      exact (Function.update_of_ne hqp ..).trans (h.old q n hq)
    · obtain ⟨-, rfl⟩ | hv := hc q n hv
      · exact ⟨Nat.le_add_left .., Nat.le_refl _⟩
      · exact ⟨(h.le q n hq hv).left, Nat.le_succ_of_le (h.le q n hq hv).right⟩
    · obtain ⟨hqp, hn₁⟩ | hvq := hc q n hvq <;> obtain ⟨hrp, hn₂⟩ | hvr := hc r n hvr
      · exact hqp.trans hrp.symm
      · have := (h.le r n hr hvr).right
        omega
      · have := (h.le q n hq hvq).right
        omega
      · exact h.inj q r n hq hr hvq hvr
    · obtain rfl | hlt := Nat.eq_or_lt_of_le h₂
      · exact ⟨p, hp, Function.update_self ..⟩
      · obtain ⟨q, hq, hv⟩ := h.all n h₁ (Nat.le_of_lt_succ hlt)
        have hqp : q ≠ p := by
          rintro rfl
          cases hn.symm.trans hv
        exact ⟨q, hq, (Function.update_of_ne hqp ..).trans hv⟩

theorem Vars.Since.numbers (h : vs.Since m) : (vs.numbers ps).fst.Since m := by
  induction ps generalizing vs with
  | nil          => exact h
  | cons p ps ih => exact ih h.variable

theorem since_start : ({ map := m, count := 0 } : Vars).Since m where
  old _ _ h       := h
  le _ _ h h'     := by cases h.symm.trans h'
  inj _ _ _ h _ h' := by cases h.symm.trans h'
  all _ h h'      := absurd (Nat.le_trans h h') (Nat.not_succ_le_zero 0)

-- The pairs of entries and numbers.
theorem mem_zip_iff {f : Ptr → Option Nat} (h : ps.map f = ns.map some) {a : Ptr × Nat} :
    a ∈ ps.zip ns ↔ a.fst ∈ ps ∧ f a.fst = some a.snd := by
  induction ps generalizing ns with
  | nil          => simp
  | cons p ps ih =>
    cases ns with
    | nil       => cases h
    | cons n ns =>
      obtain ⟨hf, ht⟩ := List.cons.inj h
      obtain ⟨q, k⟩ := a
      rw [List.zip_cons_cons, List.mem_cons, ih ht, List.mem_cons, Prod.mk.injEq]
      constructor
      · rintro (⟨rfl, rfl⟩ | ⟨hm, hk⟩)
        · exact ⟨.inl rfl, hf⟩
        · exact ⟨.inr hm, hk⟩
      · rintro ⟨rfl | hm, hk⟩
        · exact .inl ⟨rfl, Option.some.inj (hk.symm.trans hf)⟩
        · exact .inr ⟨hm, hk⟩

end Variables

section Calls

variable {s : State V D} {vs vs' : Vars} {ps qs : List Ptr} {body body' : List Token} {cur : Ptr}
  {e : TempEntry V D} {n : Nat} {f : FPCore}

theorem occurrences_append (ts us : List Token) :
    occurrences (ts ++ us) = occurrences ts ++ occurrences us := by
  induction ts with
  | nil          => rfl
  | cons t ts ih =>
    cases t with
    | closing   => exact ih
    | opening h =>
      cases h with
      | var n   => exact congrArg (n :: ·) ih
      | op name => exact ih

-- A text is printed with variables for a list of occurrences.
structure Prints (vs : Vars) (ps : List Ptr) (vs' : Vars) (body : List Token) : Prop where
  numbers  : vs.numbers ps = (vs', occurrences body)
  balanced : Balanced (body.flatMap tokenText)

theorem Prints.nil : Prints vs [] vs [] :=
  ⟨rfl, .nil⟩

theorem Prints.append (h : Prints vs ps vs' body) {vs'' : Vars} (h' : Prints vs' qs vs'' body') :
    Prints vs (ps ++ qs) vs'' (body ++ body') where
  numbers  := by rw [numbers_append, h.numbers, h'.numbers, occurrences_append]
  balanced := by
    rw [List.flatMap_append]
    exact h.balanced.append h'.balanced

theorem plain_repr (n : Nat) : Plain n.repr.toList := by
  intro c hc
  rw [Nat.toList_repr] at hc
  have hd := Nat.isDigit_of_mem_toDigits (by decide) (by decide) hc
  constructor <;> rintro rfl <;> revert hd <;> decide

theorem plain_headText (h : Head) (ho : ∀ name, h = .op name → Plain name.toList) :
    Plain (headText h) := by
  cases h with
  | var n   => exact Plain.append (by decide) (plain_repr n)
  | op name => exact ho name rfl

-- A parenthesis around the operands.
theorem balanced_node {h : Head} (ho : ∀ name, h = .op name → Plain name.toList)
    (hb : Balanced (body.flatMap tokenText)) :
    Balanced ((.opening h :: (body ++ [.closing])).flatMap tokenText) := by
  have := ((plain_headText h ho).balanced.append hb).wrap
  simpa [tokenText] using this

theorem Prints.variable (h : Prints (vs.variable cur).fst ps vs' body) :
    Prints vs (cur :: ps) vs' (.opening (.var (vs.variable cur).snd) :: (body ++ [.closing])) where
  numbers  := by
    have ho : occurrences (body ++ [.closing]) = occurrences body := by
      rw [occurrences_append]; exact List.append_nil _
    rw [Vars.numbers, h.numbers, occurrences, ho]
  balanced := balanced_node (fun _ h => by cases h) h.balanced

theorem Prints.op (h : Prints vs ps vs' body) {name : String} (hn : Plain name.toList) :
    Prints vs ps vs' (.opening (.op name) :: (body ++ [.closing])) where
  numbers  := by
    have ho : occurrences (body ++ [.closing]) = occurrences body := by
      rw [occurrences_append]; exact List.append_nil _
    rw [h.numbers, occurrences, ho]
    exact fun _ h => by cases h
  balanced := balanced_node (fun _ h => by cases h; exact hn) h.balanced

theorem prints_operand {t : Nat}
    {print : Ptr → (e : TempEntry V D) → e.timestamp < t → Vars → Option (Vars × List Token)}
    {leaves : Ptr → (e : TempEntry V D) → e.timestamp < t → List Ptr}
    (hp : ∀ p e h vs vs' body, print p e h vs = some (vs', body) →
      Prints vs (leaves p e h) vs' body) {operand : Option Ptr}
    (h : fpcoreOperand s t print operand vs = some (vs', body)) :
    Prints vs (leafOperand s t leaves operand) vs' body := by
  cases operand with
  | none   =>
    cases h
    exact .nil
  | some p =>
    simp only [fpcoreOperand] at h
    simp only [leafOperand]
    cases he : s.temps p with
    | none   =>
      rw [he] at h
      cases h
    | some e =>
      by_cases ht : e.timestamp < t
      case pos =>
        simp only [he, dif_pos ht] at h ⊢
        exact hp p e ht vs vs' body h
      case neg =>
        simp only [he, dif_neg ht] at h ⊢
        cases h
        exact .nil

theorem plain_mGetStringOpcodeFpcore (o : FpOp) : Plain (mGetStringOpcodeFpcore o).toList := by
  cases o <;> decide

-- By induction on the age of the entry.
theorem prints_fpcore (h : fpcore s cur e vs = some (vs', body)) :
    Prints vs (leaves s cur e) vs' body := by
  induction ht : e.timestamp using Nat.strongRecOn generalizing cur e vs vs' body with
  | ind t ih =>
    subst ht
    have hleaf : Prints vs [cur] (vs.variable cur).fst [.opening (.var (vs.variable cur).snd),
        .closing] :=
      Prints.variable .nil
    rw [fpcore] at h
    rw [leaves]
    by_cases h₁ : s.lockKeyMap e.op1Lock ≠ e.op1Key
    case pos =>
      rw [if_pos h₁] at h ⊢
      cases h
      exact hleaf
    case neg =>
      rw [if_neg h₁] at h ⊢
      by_cases h₂ : s.lockKeyMap e.op2Lock ≠ e.op2Key
      case pos =>
        rw [if_pos h₂] at h ⊢
        cases h
        exact hleaf
      case neg =>
        rw [if_neg h₂] at h ⊢
        have hop {vs vs' : Vars} {body : List Token} {operand : Option Ptr}
            (h : fpcoreOperand s e.timestamp (fun p e' _ vs => fpcore s p e' vs) operand vs =
              some (vs', body)) :
            Prints vs (leafOperand s e.timestamp (fun p e' _ => leaves s p e') operand) vs' body :=
          prints_operand (fun _ e' ht _ _ _ h => ih e'.timestamp ht h rfl) h
        by_cases hc : e.opcode = .constant
        case pos =>
          simp only [if_pos hc, Option.bind_eq_bind] at h ⊢
          obtain ⟨⟨vs₁, lhs⟩, hl, h⟩ := Option.bind_eq_some_iff.mp h
          obtain ⟨⟨vs₂, rhs⟩, hr, h⟩ := Option.bind_eq_some_iff.mp h
          cases h
          have hp := ((hop hl).append (hop hr)).variable
          rwa [List.append_assoc] at hp
        case neg =>
          simp only [if_neg hc, Option.bind_eq_bind] at h ⊢
          obtain ⟨⟨vs₁, lhs⟩, hl, h⟩ := Option.bind_eq_some_iff.mp h
          obtain ⟨⟨vs₂, rhs⟩, hr, h⟩ := Option.bind_eq_some_iff.mp h
          cases h
          have hp := ((hop hl).append (hop hr)).op (plain_mGetStringOpcodeFpcore e.opcode)
          rwa [List.append_assoc] at hp

-- What a call prints, and what it leaves in `m_var_map`.
theorem getFpcoreOf_eq_some {m : Ptr → Option Nat} {cur : Option Ptr}
    (h : getFpcoreOf s m cur = some f) :
    ∃ vs, Prints { map := m, count := 0 } (leavesOf s cur) vs f.body ∧
    f.params = (List.range' 1 vs.count).reverse ∧
      f.varMap = vs.map := by
  cases cur with
  | none     =>
    cases h
    exact ⟨_, .nil, rfl, rfl⟩
  | some cur =>
    obtain ⟨e, he, h⟩ := Option.bind_eq_some_iff.mp h
    obtain ⟨⟨vs, body⟩, hb, h⟩ := Option.bind_eq_some_iff.mp h
    cases h
    have hl : leavesOf s (some cur) = leaves s cur e := by simp [leavesOf, he]
    exact ⟨vs, hl ▸ prints_fpcore hb, rfl, rfl⟩

theorem plain_params (ns : List Nat) :
    Plain (ns.flatMap fun n => "x_".toList ++ n.repr.toList ++ " ".toList) := by
  induction ns with
  | nil          => exact fun c hc => by cases hc
  | cons n ns ih =>
    rw [List.flatMap_cons]
    exact ((Plain.append (by decide) (plain_repr n)).append (by decide)).append ih

-- The header with the parameters, and the body behind it.
theorem balanced_lines {name params line body : List Char} (hn : Plain name) (hp : Plain params)
    (hl : Plain line) (hb : Balanced body) :
    Balanced ('(' :: (name ++ ('(' :: (params ++ [')'])) ++ line ++ body ++ [')']) ++ line) :=
  ((((hn.balanced.append hp.balanced.wrap).append hl.balanced).append hb).wrap).append hl.balanced

theorem balanced_text (h : Balanced (f.body.flatMap tokenText)) : Balanced f.text := by
  have ht : ∀ params body : List Char, "(FPCore ( ".toList ++ params ++ ")\n".toList ++ body ++
    ")\n".toList =
      '(' :: ("FPCore ".toList ++ ('(' :: ((" ".toList ++ params) ++ [')'])) ++ "\n".toList ++
        body ++ [')']) ++
        "\n".toList := by simp
  have hn : Plain "FPCore ".toList := by decide
  have hs : Plain " ".toList := by decide
  have hl : Plain "\n".toList := by decide
  have hb := balanced_lines hn (hs.append (plain_params f.params)) hl h
  rw [← ht] at hb
  exact hb

-- An expression is good exactly if none of its leaves has a variable of an earlier one.
theorem good_iff {m : Ptr → Option Nat} {cur : Option Ptr} (h : getFpcoreOf s m cur = some f) :
    f.Good s cur ↔ ∀ p ∈ leavesOf s cur, m p = none := by
  obtain ⟨vs, hp, hf, -⟩ := getFpcoreOf_eq_some h
  have hvs : (({ map := m, count := 0 } : Vars).numbers (leavesOf s cur)).fst = vs :=
    congrArg Prod.fst hp.numbers
  have hns : (({ map := m, count := 0 } : Vars).numbers (leavesOf s cur)).snd =
      occurrences f.body :=
    congrArg Prod.snd hp.numbers
  have hm : (leavesOf s cur).map vs.map = (occurrences f.body).map some := by
    rw [← hns, ← hvs]
    exact map_numbers
  have hz {a : Ptr × Nat} := mem_zip_iff hm (a := a)
  have hv : vs.Since m := hvs ▸ since_start.numbers
  have hmem : ∀ n, n ∈ f.params ↔ 1 ≤ n ∧ n ≤ vs.count := by
    intro n
    rw [hf, List.mem_reverse, List.mem_range'_1]
    omega
  constructor
  case mpr =>
    intro hl
    refine ⟨fun n hn => ?_, ?_, fun a ha b hb => ?_, balanced_text hp.balanced⟩
    · obtain ⟨p, hpl, hpn⟩ :=
        List.mem_map.mp (hm ▸ List.mem_map_of_mem hn : some n ∈ (leavesOf s cur).map vs.map)
      exact (hmem n).mpr (hv.le p n (hl p hpl) hpn)
    · simpa using congrArg List.length hm
    · obtain ⟨ha, hna⟩ := hz.mp ha
      obtain ⟨hb, hnb⟩ := hz.mp hb
      constructor
      · intro he
        exact hv.inj _ _ _ (hl _ ha) (hl _ hb) hna (he ▸ hnb)
      · intro he
        rw [he, hnb] at hna
        exact (Option.some.inj hna).symm
  case mp =>
    intro hg p hpl
    by_contra hs
    obtain ⟨n, hs⟩ := Option.ne_none_iff_exists'.mp hs
    have hpn := hv.old p n hs
    have hn : n ∈ occurrences f.body := by
      have := List.mem_map_of_mem (f := vs.map) hpl
      rw [hm, hpn] at this
      simpa using this
    -- The number is also that of a leaf which is new.
    obtain ⟨h₁, h₂⟩ := (hmem n).mp (hg.closed n hn)
    obtain ⟨q, hq, hqn⟩ := hv.all n h₁ h₂
    have hql : q ∈ leavesOf s cur := by
      rw [← hvs] at hqn
      exact (map_numbers_cases hqn).resolve_left (by simp [hq])
    have he := (hg.faithful (p, n) (hz.mpr ⟨hpl, hpn⟩) (q, n) (hz.mpr ⟨hql, hqn⟩)).mp rfl
    cases he
    cases hs.symm.trans hq

end Calls

-- What is kept between the calls, with the leaves of all expressions so far.
structure Session where
  varMap : Ptr → Option Nat
  leaves : List Ptr

-- The calls of `fpsan_get_fpcore`, each with the metadata that it finds.
def session (V D : Type) : Machine Session (State V D × Option Ptr) where
  init     := { varMap := fun _ => none, leaves := [] }
  step a c := (getFpcoreOf a.fst c.varMap a.snd).map fun f =>
    { varMap := f.varMap, leaves := c.leaves ++ leavesOf a.fst a.snd }

-- What a call prints is good.
def PrintsGood (a : State V D × Option Ptr) (c : Session) : Prop :=
  ∀ f, getFpcoreOf a.fst c.varMap a.snd = some f → f.Good a.fst a.snd

-- No leaf of an expression is one of an earlier expression.
def Unseen (a : State V D × Option Ptr) (c : Session) : Prop :=
  ∀ p ∈ leavesOf a.fst a.snd, p ∉ c.leaves

section Session

variable {a : State V D × Option Ptr} {c c' : Session}

-- The entries with variables are the leaves so far.
theorem leaves_step (h : ∀ p, c.varMap p = none ↔ p ∉ c.leaves)
    (e : (session V D).step a c = some c') :
    ∀ p, c'.varMap p = none ↔ p ∉ c'.leaves := by
  obtain ⟨f, hf, rfl⟩ := Option.map_eq_some_iff.mp e
  obtain ⟨vs, hp, -, hv⟩ := getFpcoreOf_eq_some hf
  have hvs : (({ map := c.varMap, count := 0 } : Vars).numbers (leavesOf a.fst a.snd)).fst = vs :=
    congrArg Prod.fst hp.numbers
  intro p
  show f.varMap p = none ↔ p ∉ c.leaves ++ leavesOf a.fst a.snd
  rw [List.mem_append, not_or, ← h p, hv, ← hvs]
  constructor
  · intro hn
    refine ⟨?_, fun hm => ?_⟩
    · by_contra hs
      obtain ⟨n, hs⟩ := Option.ne_none_iff_exists'.mp hs
      cases hn.symm.trans (numbers_grows hs)
    · have hm :=
        List.mem_map_of_mem
          (f := (({ map := c.varMap, count := 0 } : Vars).numbers (leavesOf a.fst a.snd)).fst.map)
          hm
      rw [map_numbers, hn] at hm
      simp at hm
  · rintro ⟨hn, hm⟩
    by_contra hs
    obtain ⟨n, hs⟩ := Option.ne_none_iff_exists'.mp hs
    obtain hs | hs := map_numbers_cases hs
    · cases hn.symm.trans hs
    · exact hm hs

theorem printsGood_of_unseen (h : ∀ p, c.varMap p = none ↔ p ∉ c.leaves) (hu : Unseen a c) :
    PrintsGood a c :=
  fun _ hf => (good_iff hf).mpr fun p hp => (h p).mpr (hu p hp)

theorem unseen_of_printsGood (h : ∀ p, c.varMap p = none ↔ p ∉ c.leaves)
    (e : (session V D).step a c = some c') (hg : PrintsGood a c) : Unseen a c := by
  obtain ⟨f, hf, -⟩ := Option.map_eq_some_iff.mp e
  exact fun p hp => (h p).mp ((good_iff hf).mp (hg f hf) p hp)

end Session

-- All expressions of a sequence of calls are closed, faithful in their variables and balanced
-- exactly if none of them has a leaf of an earlier one.
theorem each_printsGood_iff {c : Session} (r : (session V D).Run c) :
    r.Each PrintsGood ↔ r.Each Unseen :=
  Machine.Run.each_iff_each (I := fun c => ∀ p, c.varMap p = none ↔ p ∉ c.leaves)
    (fun _ => by simp [session])
    (fun h hu => printsGood_of_unseen h hu) (fun h _ e => leaves_step h e)
      (fun h e hg => unseen_of_printsGood h e hg) r

-- The metadata after one constant.
def oneConst : State Nat Nat :=
  storeTempmetaConst natMpfr ⟨⟨2, 0⟩, 0⟩ 5 1 <| shadowSliceStart natMpfr default

def oneEntry : TempEntry Nat Nat :=
  (shadowSliceStart natMpfr default).leaf 5 5 .constant 1

theorem oneEntry_keys :
    oneConst.lockKeyMap oneEntry.op1Lock = oneEntry.op1Key ∧
    oneConst.lockKeyMap oneEntry.op2Lock = oneEntry.op2Key :=
  ⟨rfl, rfl⟩

theorem getFpcoreOf_oneConst (m : Ptr → Option Nat) :
    ∃ f, getFpcoreOf oneConst m (some ⟨⟨2, 0⟩, 0⟩) = some f := by
  have he : oneConst.temps ⟨⟨2, 0⟩, 0⟩ = some oneEntry := rfl
  have h₀ : ∀ vs, ∃ x, fpcore oneConst ⟨⟨2, 0⟩, 0⟩ oneEntry vs = some x := by
    intro vs
    rw [fpcore, if_neg (not_not.mpr oneEntry_keys.left), if_neg (not_not.mpr oneEntry_keys.right)]
    exact ⟨_, rfl⟩
  obtain ⟨x, hx⟩ := h₀ { map := m, count := 0 }
  simp [getFpcoreOf, getFpcore, he, hx]

theorem leavesOf_oneConst : leavesOf oneConst (some ⟨⟨2, 0⟩, 0⟩) = [⟨⟨2, 0⟩, 0⟩] := by
  have hl : leaves oneConst ⟨⟨2, 0⟩, 0⟩ oneEntry = [⟨⟨2, 0⟩, 0⟩] := by
    rw [leaves, if_neg (not_not.mpr oneEntry_keys.left), if_neg (not_not.mpr oneEntry_keys.right)]
    rfl
  exact hl

-- The expression of the constant is printed twice. The second time its variable is not declared.
theorem not_each_printsGood :
    ¬∀ (V D : Type) (c : Session) (r : (session V D).Run c), r.Each PrintsGood := by
  intro h
  obtain ⟨f, hf⟩ := getFpcoreOf_oneConst fun _ => none
  obtain ⟨f', hf'⟩ := getFpcoreOf_oneConst f.varMap
  have e : (session Nat Nat).step (oneConst, some ⟨⟨2, 0⟩, 0⟩) (session Nat Nat).init =
      some { varMap := f.varMap, leaves := [⟨⟨2, 0⟩, 0⟩] } := by
    simp [session, hf, leavesOf_oneConst]
  have e' : ∃ c', (session Nat Nat).step (oneConst, some ⟨⟨2, 0⟩, 0⟩)
      { varMap := f.varMap, leaves := [⟨⟨2, 0⟩, 0⟩] } = some c' := by
    simp [session, hf']
  obtain ⟨c', e'⟩ := e'
  have hg := (h _ _ _ (Machine.Run.init.step _ e |>.step _ e')).right f' hf'
  have hn := (good_iff hf').mp hg ⟨⟨2, 0⟩, 0⟩ (by rw [leavesOf_oneConst]; exact List.mem_cons_self)
  have hl := leaves_step (fun _ => by simp [session]) e
  exact (hl _).mp hn List.mem_cons_self

end Metadata
