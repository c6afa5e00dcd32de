import PFPSanitizer.Runtime.Sessions
import PFPSanitizer.Runtime.Traces

-- The depth that `m_get_depth` finds, and whether the walks through the temporaries come to an end.
namespace Tracing

open Metadata Counting Worklist

-- A graph of entries whose pointers lead to entries, and where a walk starts.
structure Graph (V : Type) extends State V Float where
  start   : Option Ptr
  written : ∀ p, start = some p → ∃ e, temps p = some e
  closed  : ∀ p e q, temps p = some e → (e.lhs = some q ∨ e.rhs = some q) → ∃ e', temps q = some e'

section Levels

variable {V : Type} (s : State V Float)

def older (cur : TempEntry V Float) (operand : Option Ptr) : List Ptr :=
  match operand with
  | none   => []
  | some p => (s.temps p).elim [] fun e => if e.timestamp < cur.timestamp then [p] else []

-- The operands of an entry that are older.
def succ (p : Ptr) : List Ptr :=
  (s.temps p).elim [] fun cur => older s cur cur.lhs ++ older s cur cur.rhs

-- An entry whose checks pass.
def Passing (p : Ptr) : Prop :=
  ∃ cur, s.temps p = some cur ∧ Passes s cur

-- The entries that a round takes from the queue. They are as many as its size is as an `int`.
def taken (toInt : Nat → Int) (q : List Ptr) : List Ptr :=
  q.take (toInt q.length).toNat

-- The queue after rounds without a failing check.
def rounds (toInt : Nat → Int) : Nat → List Ptr → List Ptr
  | 0, q     => q
  | r + 1, q => rounds toInt r (q.drop (toInt q.length).toNat ++ (taken toInt q).flatMap (succ s))

-- No check fails on the way from an entry.
def CleanFrom (p : Ptr) : Prop :=
  ∀ q, Relation.ReflTransGen (Edge s) p q → Passing s q

end Levels

namespace Graph

variable {V : Type} (g : Graph V)

-- The entries at the ends of the chains with `n` edges, one for each chain.
def level (n : Nat) : List Ptr :=
  Worklist.level (succ g.toState) n g.start.toList

-- The walks end, and the depth is the length of the longest chains.
structure Answers : Prop where
  trace    : (fpsanTrace g.toState [] g.start).isSome
  getDepth : (mGetDepth g.toState [] g.start).isSome
  fpcore   : ∀ varMap, (getFpcoreOf g.toState varMap g.start).isSome
  depth    : ∀ p, g.start = some p → Clean g.toState g.start →
             ∃ d r, mGetDepth g.toState [] g.start = some (d, r) ∧ Longest (Edge g.toState) p d

-- The sizes of the levels and the number of them fit in an `int`, up to the first
-- level with a check that fails.
structure Fits : Prop where
  sizes  : ∀ n, (∀ m < n, ∀ p ∈ g.level m, Passing g.toState p) → (g.level n).length ≤ intMax
  rounds : ∀ n, (∀ m ≤ n, ∀ p ∈ g.level m, Passing g.toState p) → g.level n ≠ [] → n < intMax

-- A check fails for an entry that the rounds come to, of which there are no
-- more than an `int` can count.
def Fails : Prop :=
  ∃ r ≤ intMax, ∃ p ∈ taken sizeToInt (rounds g.toState sizeToInt r g.start.toList),
    ¬Passing g.toState p

end Graph

section Operands

variable {V : Type} {s : State V Float} {p q : Ptr} {cur : TempEntry V Float}

theorem mem_older_iff {operand : Option Ptr} :
    q ∈ older s cur operand ↔ operand = some q ∧ ∃ e, s.temps q = some e ∧
    e.timestamp < cur.timestamp := by
  cases operand with
  | none   => simp [older]
  | some p =>
    cases he : s.temps p with
    | none   =>
      simp only [older, he, Option.elim_none, List.not_mem_nil, Option.some_inj, false_iff]
      rintro ⟨rfl, e, he', -⟩
      cases he.symm.trans he'
    | some e =>
      simp only [older, he, Option.elim_some, Option.some_inj]
      constructor
      · intro hq
        split at hq
        case isFalse   => cases hq
        case isTrue ht =>
          obtain rfl := List.mem_singleton.mp hq
          exact ⟨rfl, e, he, ht⟩
      · rintro ⟨rfl, e', he', ht⟩
        obtain rfl := Option.some.inj (he.symm.trans he')
        rw [if_pos ht]
        exact List.mem_singleton_self p

theorem mem_succ_iff (p q : Ptr) : q ∈ succ s p ↔ Edge s p q := by
  cases hc : s.temps p with
  | none     =>
    simp only [succ, hc, Option.elim_none, List.not_mem_nil, false_iff]
    rintro ⟨cur, e, hc', -⟩
    cases hc.symm.trans hc'
  | some cur =>
    simp only [succ, hc, Option.elim_some, List.mem_append, mem_older_iff]
    constructor
    · rintro (⟨ho, e, he, ht⟩ | ⟨ho, e, he, ht⟩)
      · exact ⟨cur, e, hc, .inl ho, he, ht⟩
      · exact ⟨cur, e, hc, .inr ho, he, ht⟩
    · rintro ⟨cur', e, hc', ho, he, ht⟩
      obtain rfl := Option.some.inj (hc.symm.trans hc')
      exact ho.imp (fun ho => ⟨ho, e, he, ht⟩) fun ho => ⟨ho, e, he, ht⟩

theorem olderOperand_eq {operand : Option Ptr}
    (h : ∀ q, operand = some q → ∃ e, s.temps q = some e) :
    olderOperand s cur operand = some ((older s cur operand).map some) := by
  cases operand with
  | none   => rfl
  | some p =>
    obtain ⟨e, he⟩ := h p rfl
    simp only [olderOperand, older, he, Option.map_some, Option.elim_some]
    split
    · rfl
    · rfl

end Operands

section Front

variable {V : Type} {g : Graph V} {p : Ptr}

theorem front_of_passing (h : Passing g.toState p) :
    front g.toState p = some (some ((succ g.toState p).map some)) := by
  obtain ⟨cur, hc, h₁, h₂⟩ := h
  have hl : olderOperand g.toState cur cur.lhs = _ :=
    olderOperand_eq fun q hq => g.closed p cur q hc (.inl hq)
  have hr : olderOperand g.toState cur cur.rhs = _ :=
    olderOperand_eq fun q hq => g.closed p cur q hc (.inr hq)
  simp [front, hc, h₁, h₂, hl, hr, succ]

theorem front_of_not_passing {cur : TempEntry V Float} (hc : g.temps p = some cur)
    (h : ¬Passing g.toState p) :
    front g.toState p = some none := by
  have hp : ¬Passes g.toState cur := fun hp => h ⟨cur, hc, hp⟩
  rw [Passes, not_and_or] at hp
  by_cases h₁ : g.lockKeyMap cur.op1Lock = cur.op1Key
  case neg => simp [front, hc, h₁]
  case pos => simp [front, hc, h₁, hp.resolve_left (not_not.mpr h₁)]

end Front

section Rounds

variable {V : Type} {g : Graph V} {q : List Ptr} {left depth : Nat} {toInt : Nat → Int} {max : Nat}

theorem written_succ {p r : Ptr} (hr : r ∈ succ g.toState p) : ∃ e, g.temps r = some e := by
  obtain ⟨cur, e, -, -, he, -⟩ := (mem_succ_iff p r).mp hr
  exact ⟨e, he⟩

-- The entries of a level whose checks pass are replaced by the next level,
-- behind those that are left.
theorem depthLevel_passing (h : ∀ p ∈ q, Passing g.toState p) (r : List Ptr) :
    ∃ v, depthLevel g.toState q.length ((q ++ r).map some) =
      some (.finished { visited := v, mExpr := (r ++ q.flatMap (succ g.toState)).map some }) := by
  induction q generalizing r with
  | nil         => exact ⟨[], by simp [depthLevel]⟩
  | cons p q ih =>
    obtain ⟨hp, hq⟩ := List.forall_mem_cons.mp h
    obtain ⟨v, hv⟩ := ih hq (r ++ succ g.toState p)
    refine ⟨some p :: v, ?_⟩
    rw [← List.append_assoc, List.map_append] at hv
    simp only [List.cons_append, List.map_cons, List.length_cons, depthLevel, front_of_passing hp,
      hv, Option.map_some, List.flatMap_cons, Level.visit, Result.visit, List.append_assoc]

theorem depthLevel_failing (hw : ∀ p ∈ q, ∃ e, g.temps p = some e)
    (h : ∃ p ∈ q, ¬Passing g.toState p) (r : List Ptr) :
    ∃ x, depthLevel g.toState q.length ((q ++ r).map some) = some (.returned x) := by
  induction q generalizing r with
  | nil         =>
    obtain ⟨p, hp, -⟩ := h
    cases hp
  | cons p q ih =>
    obtain ⟨⟨e, he⟩, hq⟩ := List.forall_mem_cons.mp hw
    by_cases hp : Passing g.toState p
    case neg =>
      refine ⟨.returned (some p) ((q ++ r).map some), ?_⟩
      simp only [List.cons_append, List.map_cons, List.length_cons, depthLevel,
        front_of_not_passing he hp]
    case pos =>
      obtain ⟨p', hp', hn⟩ := h
      have hf : ∃ p ∈ q, ¬Passing g.toState p := by
        obtain rfl | hm := List.mem_cons.mp hp'
        · exact absurd hp hn
        · exact ⟨p', hm, hn⟩
      obtain ⟨x, hx⟩ := ih hq hf (r ++ succ g.toState p)
      rw [← List.append_assoc, List.map_append] at hx
      refine ⟨x.visit (some p), ?_⟩
      simp only [List.cons_append, List.map_cons, List.length_cons, depthLevel, front_of_passing hp,
        hx, Option.map_some, Level.visit]

-- A conversion that keeps small sizes and makes large ones so small that many entries are left.
structure Narrow (toInt : Nat → Int) (max : Nat) : Prop where
  small : ∀ n ≤ max, toInt n = n
  large : ∀ n, max < n → max + (toInt n).toNat < n

theorem intMax_eq : intMax = 2147483647 :=
  rfl

theorem narrow_sizeToInt : Narrow sizeToInt intMax where
  small n hn := by
    rw [intMax_eq] at hn
    show (n : Int).bmod (2 ^ 32) = n
    rw [Int.bmod_def]
    omega
  large n hn := by
    rw [intMax_eq] at hn ⊢
    show 2147483647 + ((n : Int).bmod (2 ^ 32)).toNat < n
    rw [Int.bmod_def]
    omega

theorem clean_succ {p r : Ptr} (h : CleanFrom g.toState p) (hr : r ∈ succ g.toState p) :
    CleanFrom g.toState r :=
  fun q hq => h q (.head ((mem_succ_iff p r).mp hr) hq)

theorem clean_flatMap (h : ∀ p ∈ q, CleanFrom g.toState p) :
    ∀ p ∈ q.flatMap (succ g.toState), CleanFrom g.toState p := by
  intro r hr
  obtain ⟨p, hp, hr⟩ := List.mem_flatMap.mp hr
  exact clean_succ (h p hp) hr

theorem not_isEmpty_map (h : q ≠ []) : ¬(q.map some).isEmpty := by
  simpa using h

theorem mem_of_taken {p : Ptr} (h : p ∈ taken toInt q) : p ∈ q :=
  List.mem_of_mem_take h

theorem length_taken (hw : Narrow toInt max) : (taken toInt q).length = (toInt q.length).toNat := by
  rw [taken, List.length_take]
  obtain hq | hq := Nat.lt_or_ge max q.length
  · have := hw.large q.length hq
    omega
  · have := hw.small q.length hq
    omega

theorem taken_small (hw : Narrow toInt max) (hq : q.length ≤ max) : taken toInt q = q := by
  rw [taken, hw.small q.length hq, Int.toNat_natCast, List.take_length]

-- The queue after a round with a level that fits is the next level.
theorem rounds_small (hw : Narrow toInt max) (hq : q.length ≤ max) (r : Nat) :
    rounds g.toState toInt (r + 1) q = rounds g.toState toInt r (q.flatMap (succ g.toState)) := by
  rw [rounds, taken_small hw hq, hw.small q.length hq, Int.toNat_natCast, List.drop_length,
    List.nil_append]

theorem depthLevel_taken (hw : Narrow toInt max) (h : ∀ p ∈ taken toInt q, Passing g.toState p) :
    ∃ v, depthLevel g.toState (toInt q.length).toNat (q.map some) =
      some (.finished { visited := v, mExpr := (rounds g.toState toInt 1 q).map some }) := by
  obtain ⟨v, hv⟩ := depthLevel_passing h (q.drop (toInt q.length).toNat)
  rw [length_taken hw, taken, List.take_append_drop] at hv
  exact ⟨v, hv⟩

theorem depthLoop_round (hw : Narrow toInt max) (h : ∀ p ∈ taken toInt q, Passing g.toState p)
    (hne : q ≠ []) (left depth : Nat) :
    ∃ v, depthLoop g.toState toInt (left + 1) depth (q.map some) =
      (depthLoop g.toState toInt left (depth + 1) ((rounds g.toState toInt 1 q).map some)).map
        fun d =>
        (d.fst, { visited := v ++ d.snd.visited, mExpr := d.snd.mExpr }) := by
  obtain ⟨v, hv⟩ := depthLevel_taken hw h
  exact ⟨v, by rw [depthLoop, if_neg (not_isEmpty_map hne), List.length_map, hv]⟩

theorem depthLoop_zero (hw : Narrow toInt max) (h : ∀ p ∈ taken toInt q, Passing g.toState p)
    (hne : q ≠ []) :
    depthLoop g.toState toInt 0 depth (q.map some) = none := by
  obtain ⟨v, hv⟩ := depthLevel_taken hw h
  rw [depthLoop, if_neg (not_isEmpty_map hne), List.length_map, hv]

-- A check of the entries that a round takes fails.
theorem depthLoop_failing (hw : Narrow toInt max) (hq : ∀ p ∈ q, ∃ e, g.temps p = some e)
    (hp : ∃ p ∈ taken toInt q, ¬Passing g.toState p) :
    (depthLoop g.toState toInt left depth (q.map some)).isSome := by
  obtain ⟨x, hx⟩ :=
    depthLevel_failing (fun p hp => hq p (mem_of_taken hp)) hp (q.drop (toInt q.length).toNat)
  obtain ⟨p, hm, -⟩ := hp
  rw [length_taken hw, taken, List.take_append_drop] at hx
  rw [depthLoop, if_neg (not_isEmpty_map (List.ne_nil_of_mem (mem_of_taken hm))), List.length_map,
    hx, Option.isSome_some]

theorem clean_rounds (h : ∀ p ∈ q, CleanFrom g.toState p) (r : Nat) :
    ∀ p ∈ rounds g.toState toInt r q, CleanFrom g.toState p := by
  induction r generalizing q with
  | zero      => exact h
  | succ r ih =>
    refine ih (List.forall_mem_append.mpr ⟨fun p hp => h p (List.mem_of_mem_drop hp), ?_⟩)
    exact clean_flatMap fun p hp => h p (mem_of_taken hp)

-- A round with a level that is too large leaves one that is too large.
theorem large_round (hw : Narrow toInt max) (hq : max < q.length) :
    max < (rounds g.toState toInt 1 q).length := by
  have hl := hw.large q.length hq
  rw [rounds, rounds, List.length_append, List.length_drop]
  omega

theorem depthLoop_large (hw : Narrow toInt max) (h : ∀ p ∈ q, CleanFrom g.toState p)
    (hq : max < q.length) :
    depthLoop g.toState toInt left depth (q.map some) = none := by
  have hne : q ≠ [] := List.ne_nil_of_length_pos (Nat.zero_lt_of_lt hq)
  have hp : ∀ p ∈ taken toInt q, Passing g.toState p := fun p hp => h p (mem_of_taken hp) p .refl
  induction left generalizing q depth with
  | zero         => exact depthLoop_zero hw hp hne
  | succ left ih =>
    obtain ⟨v, hv⟩ := depthLoop_round hw hp hne left depth
    have hc : ∀ p ∈ rounds g.toState toInt 1 q, CleanFrom g.toState p := clean_rounds h 1
    have hl : max < (rounds g.toState toInt 1 q).length := large_round hw hq
    rw [hv, ih hc hl (List.ne_nil_of_length_pos (Nat.zero_lt_of_lt hl)) fun p hp =>
      hc p (mem_of_taken hp) p .refl]
    rfl

theorem length_le_of_depthLoop (hw : Narrow toInt max) (h : ∀ p ∈ q, CleanFrom g.toState p)
    {d : Nat × Result} (hd : depthLoop g.toState toInt left depth (q.map some) = some d) :
    q.length ≤ max := by
  refine Nat.le_of_not_lt fun hlt => ?_
  rw [depthLoop_large hw h hlt] at hd
  cases hd

theorem levels_of_nil (hne : q = []) {d : Nat × Result}
    (hd : depthLoop g.toState toInt left depth (q.map some) = some d) :
    ∃ k ≤ left, d.fst = depth + k ∧ Worklist.level (succ g.toState) k q = [] ∧
      ∀ n < k, Worklist.level (succ g.toState) n q ≠ [] ∧
      (Worklist.level (succ g.toState) n q).length ≤ max := by
  rw [hne, List.map_nil, depthLoop_nil] at hd
  cases hd
  exact ⟨0, Nat.zero_le _, rfl, hne, fun n hn => absurd hn (Nat.not_lt_zero n)⟩

-- The depth is the number of the levels, which all fit.
theorem levels_of_depthLoop (hw : Narrow toInt max) (h : ∀ p ∈ q, CleanFrom g.toState p)
    {d : Nat × Result} (hd : depthLoop g.toState toInt left depth (q.map some) = some d) :
    ∃ k ≤ left, d.fst = depth + k ∧ Worklist.level (succ g.toState) k q = [] ∧
      ∀ n < k, Worklist.level (succ g.toState) n q ≠ [] ∧
      (Worklist.level (succ g.toState) n q).length ≤ max := by
  induction left generalizing q depth d with
  | zero         =>
    by_cases hne : q = []
    case pos => exact levels_of_nil hne hd
    case neg =>
      rw [depthLoop_zero hw (fun p hp => h p (mem_of_taken hp) p .refl) hne] at hd
      cases hd
  | succ left ih =>
    by_cases hne : q = []
    case pos => exact levels_of_nil hne hd
    case neg =>
      have hq := length_le_of_depthLoop hw h hd
      obtain ⟨v, hv⟩ :=
        depthLoop_round hw (fun p hp => h p (mem_of_taken hp) p .refl) hne left depth
      rw [hv, rounds_small hw hq] at hd
      obtain ⟨d', hd', rfl⟩ := Option.map_eq_some_iff.mp hd
      obtain ⟨k, hk, he, hl, hn⟩ := ih (clean_flatMap h) hd'
      refine ⟨k + 1, by omega, ?_, hl, fun n hlt => ?_⟩
      · show d'.fst = depth + (k + 1)
        omega
      · cases n with
        | zero   => exact ⟨hne, hq⟩
        | succ n => exact hn n (by omega)

-- What holds of all levels up to the first with a check that fails holds of
-- those of the next level.
theorem forall_le_succ (hp : ∀ p ∈ q, Passing g.toState p) {n : Nat}
    (h : ∀ m ≤ n, ∀ p ∈ Worklist.level (succ g.toState) m (q.flatMap (succ g.toState)),
      Passing g.toState p) :
    ∀ m ≤ n + 1, ∀ p ∈ Worklist.level (succ g.toState) m q, Passing g.toState p := by
  intro m hm
  cases m with
  | zero   => exact hp
  | succ m => exact h m (Nat.le_of_succ_le_succ hm)

-- A round ends the walk.
def Done (g : Graph V) (toInt : Nat → Int) (q : List Ptr) : Prop :=
  q = [] ∨ ∃ p ∈ taken toInt q, ¬Passing g.toState p

theorem passing_of_not_done (h : ¬Done g toInt q) :
    q ≠ [] ∧ ∀ p ∈ taken toInt q, Passing g.toState p := by
  rw [Done, not_or] at h
  exact ⟨h.left, fun p hp => by_contra fun hn => h.right ⟨p, hp, hn⟩⟩

theorem depthLoop_done (hw : Narrow toInt max) (hq : ∀ p ∈ q, ∃ e, g.temps p = some e)
    (h : Done g toInt q) :
    (depthLoop g.toState toInt left depth (q.map some)).isSome := by
  obtain hne | hp := h
  · rw [hne, List.map_nil, depthLoop_nil, Option.isSome_some]
  · exact depthLoop_failing hw hq hp

theorem written_round (hq : ∀ p ∈ q, ∃ e, g.temps p = some e) :
    ∀ p ∈ rounds g.toState toInt 1 q, ∃ e, g.temps p = some e := by
  refine List.forall_mem_append.mpr ⟨fun p hp => hq p (List.mem_of_mem_drop hp), fun p hp => ?_⟩
  obtain ⟨p', -, hp'⟩ := List.mem_flatMap.mp hp
  exact written_succ hp'

-- The walk comes to an end exactly if one of the rounds that are left ends it.
theorem depthLoop_isSome_iff (hw : Narrow toInt max) (hq : ∀ p ∈ q, ∃ e, g.temps p = some e) :
    (depthLoop g.toState toInt left depth (q.map some)).isSome ↔
    ∃ r ≤ left, Done g toInt (rounds g.toState toInt r q) := by
  induction left generalizing q depth with
  | zero         =>
    by_cases hd : Done g toInt q
    case pos => exact iff_of_true (depthLoop_done hw hq hd) ⟨0, Nat.le_refl 0, hd⟩
    case neg =>
      obtain ⟨hne, hp⟩ := passing_of_not_done hd
      rw [depthLoop_zero hw hp hne]
      refine iff_of_false (by decide) ?_
      rintro ⟨r, hr, h⟩
      obtain rfl := Nat.le_zero.mp hr
      exact hd h
  | succ left ih =>
    by_cases hd : Done g toInt q
    case pos => exact iff_of_true (depthLoop_done hw hq hd) ⟨0, Nat.zero_le _, hd⟩
    case neg =>
      obtain ⟨hne, hp⟩ := passing_of_not_done hd
      obtain ⟨v, hv⟩ := depthLoop_round hw hp hne left depth
      rw [hv, Option.isSome_map, ih (written_round hq)]
      constructor
      · rintro ⟨r, hr, h⟩
        exact ⟨r + 1, Nat.succ_le_succ hr, h⟩
      · rintro ⟨r, hr, h⟩
        cases r with
        | zero   => exact absurd h hd
        | succ r => exact ⟨r, Nat.le_of_succ_le_succ hr, h⟩

-- Levels that fit come to an end.
theorem done_of_levels (hw : Narrow toInt max)
    (hs : ∀ n, (∀ m < n, ∀ p ∈ Worklist.level (succ g.toState) m q, Passing g.toState p) →
      (Worklist.level (succ g.toState) n q).length ≤ max)
    (hr : ∀ n, (∀ m ≤ n, ∀ p ∈ Worklist.level (succ g.toState) m q, Passing g.toState p) →
      Worklist.level (succ g.toState) n q ≠ [] → n < left) :
    ∃ r ≤ left, Done g toInt (rounds g.toState toInt r q) := by
  have hlen : q.length ≤ max := hs 0 fun m hm => absurd hm (Nat.not_lt_zero m)
  induction left generalizing q with
  | zero         =>
    refine ⟨0, Nat.le_refl 0, by_contra fun hd => ?_⟩
    obtain ⟨hne, hp⟩ := passing_of_not_done hd
    rw [rounds, taken_small hw hlen] at hp
    exact absurd (hr 0 (fun m hm => by rwa [Nat.le_zero.mp hm]) hne) (Nat.not_lt_zero 0)
  | succ left ih =>
    by_cases hd : Done g toInt q
    case pos => exact ⟨0, Nat.zero_le _, hd⟩
    case neg =>
      obtain ⟨hne, hp⟩ := passing_of_not_done hd
      rw [taken_small hw hlen] at hp
      have hs' : ∀ n,
        (∀ m < n, ∀ p ∈ Worklist.level (succ g.toState) m (q.flatMap (succ g.toState)),
          Passing g.toState p) →
          (Worklist.level (succ g.toState) n (q.flatMap (succ g.toState))).length ≤ max := by
        refine fun n hn => hs (n + 1) fun m hm => ?_
        cases m with
        | zero   => exact hp
        | succ m => exact hn m (Nat.lt_of_succ_lt_succ hm)
      obtain ⟨r, hle, h⟩ :=
        ih hs' (fun n hn hl => Nat.lt_of_succ_lt_succ (hr (n + 1) (forall_le_succ hp hn) hl))
        (hs' 0 fun m hm => absurd hm (Nat.not_lt_zero m))
      exact ⟨r + 1, Nat.succ_le_succ hle, by rwa [rounds_small hw hlen]⟩

-- No check fails behind a queue from which rounds without failing checks come to an end.
theorem clean_of_rounds {r : Nat}
    (h : ∀ m < r, ∀ p ∈ taken toInt (rounds g.toState toInt m q), Passing g.toState p)
    (hn : rounds g.toState toInt r q = []) : ∀ p ∈ q, CleanFrom g.toState p := by
  induction r generalizing q with
  | zero      =>
    rw [rounds] at hn
    simp [hn]
  | succ r ih =>
    have hc : ∀ p ∈ rounds g.toState toInt 1 q, CleanFrom g.toState p :=
      ih (fun m hm => h (m + 1) (Nat.succ_lt_succ hm)) hn
    obtain ⟨hd, ht⟩ := List.forall_mem_append.mp hc
    have hp : ∀ p ∈ taken toInt q, CleanFrom g.toState p := by
      intro p hp p' hp'
      obtain rfl | ⟨p'', he, hp'⟩ := hp'.cases_head
      · exact h 0 (Nat.succ_pos r) p hp
      · exact ht p'' (List.mem_flatMap.mpr ⟨p, hp, (mem_succ_iff p p'').mpr he⟩) p' hp'
    intro p hm
    rw [← List.take_append_drop (toInt q.length).toNat q] at hm
    exact (List.mem_append.mp hm).elim (hp p) (hd p)

end Rounds

section Ends

variable {V : Type} {g : Graph V}

theorem written_append {q : List (Option Ptr)} {p : Ptr} {as : List (Option Ptr)}
    (h : front g.toState p = some (some as)) (hq : ∀ r, some r ∈ q → ∃ e, g.temps r = some e) :
    ∀ r, some r ∈ q ++ as → ∃ e, g.temps r = some e := by
  intro r hr
  obtain hr | hr := List.mem_append.mp hr
  · exact hq r hr
  · obtain ⟨r', hrr, cur, e, -, -, he, -⟩ := (mem_next_iff (next_of_front h)).mp hr
    cases hrr
    exact ⟨e, he⟩

theorem front_isSome {p : Ptr} {e : TempEntry V Float} (he : g.temps p = some e) :
    front g.toState p ≠ none := by
  by_cases hp : Passing g.toState p
  · rw [front_of_passing hp]
    exact Option.some_ne_none _
  · rw [front_of_not_passing he hp]
    exact Option.some_ne_none _

theorem traceLoop_isSome {q : List (Option Ptr)} (hq : ∀ r, some r ∈ q → ∃ e, g.temps r = some e) :
    (traceLoop g.toState q).isSome := by
  induction q using traceLoop.induct g.toState with
  | case1              => rw [traceLoop, Option.isSome_some]
  | case2 q            => rw [traceLoop, Option.isSome_some]
  | case3 p q hf       =>
    obtain ⟨e, he⟩ := hq p List.mem_cons_self
    exact absurd hf (front_isSome he)
  | case4 p q hf       => rw [traceLoop, hf, Option.isSome_some]
  | case5 p q as hf ih =>
    rw [traceLoop, hf]
    simp only [Option.isSome_map]
    exact ih (written_append hf fun r hr => hq r (List.mem_cons_of_mem _ hr))

theorem fpcore_isSome {p : Ptr} {e : TempEntry V Float} (he : g.temps p = some e) (vs : Vars) :
    (fpcore g.toState p e vs).isSome := by
  induction ht : e.timestamp using Nat.strongRecOn generalizing p e vs with
  | ind t ih =>
    subst ht
    have hop : ∀ operand, (∀ q, operand = some q → ∃ e', g.temps q = some e') → ∀ vs, ∃ x,
        fpcoreOperand g.toState e.timestamp (fun p e' _ vs => fpcore g.toState p e' vs) operand vs =
          some x := by
      intro operand ho vs
      cases operand with
      | none   => exact ⟨_, rfl⟩
      | some q =>
        obtain ⟨e', he'⟩ := ho q rfl
        by_cases hlt : e'.timestamp < e.timestamp
        case pos =>
          obtain ⟨x, hx⟩ := Option.isSome_iff_exists.mp (ih e'.timestamp hlt he' vs rfl)
          exact ⟨x, by simp only [fpcoreOperand, he', dif_pos hlt, hx]⟩
        case neg => exact ⟨(vs, []), by simp only [fpcoreOperand, he', dif_neg hlt]⟩
    rw [fpcore]
    split
    · exact Option.isSome_some
    split
    · exact Option.isSome_some
    · have hl := hop e.lhs fun q hq => g.closed p e q he (.inl hq)
      have hr := hop e.rhs fun q hq => g.closed p e q he (.inr hq)
      by_cases hc : e.opcode = .constant
      · obtain ⟨⟨vs₁, l⟩, hl⟩ := hl (vs.variable p).fst
        obtain ⟨⟨vs₂, r⟩, hr⟩ := hr vs₁
        simp [hc, hl, hr]
      · obtain ⟨⟨vs₁, l⟩, hl⟩ := hl vs
        obtain ⟨⟨vs₂, r⟩, hr⟩ := hr vs₁
        simp [hc, hl, hr]

theorem getFpcoreOf_isSome (g : Graph V) (varMap : Ptr → Option Nat) :
    (getFpcoreOf g.toState varMap g.start).isSome := by
  cases hs : g.start with
  | none   => rfl
  | some p =>
    obtain ⟨e, he⟩ := g.written p hs
    obtain ⟨x, hx⟩ := Option.isSome_iff_exists.mp (fpcore_isSome he { map := varMap, count := 0 })
    simp [getFpcoreOf, getFpcore, he, hx]

-- A walk from `NULL` ends at once.
theorem mGetDepth_null (s : State V Float) : mGetDepth s [] none = some (0, .returned none []) := by
  have hl : depthLevel s (sizeToInt [(none : Option Ptr)].length).toNat [none] =
      some (.returned (.returned none [])) := by
    rw [List.length_singleton, narrow_sizeToInt.small 1 (by rw [intMax_eq]; omega)]
    rfl
  rw [mGetDepth, List.nil_append, depthLoop, if_neg (by simp), hl]

theorem cleanFrom_of_clean {p : Ptr} (hs : g.start = some p) (h : Clean g.toState g.start) :
    CleanFrom g.toState p := by
  obtain ⟨p', hp', hc⟩ := h
  obtain rfl := Option.some.inj (hs.symm.trans hp')
  obtain ⟨e₀, h₀⟩ := g.written p hs
  intro q hq
  have hw : ∃ e, g.temps q = some e := by
    obtain rfl | ⟨r, -, cur, e, -, -, he, -⟩ := hq.cases_tail
    · exact ⟨e₀, h₀⟩
    · exact ⟨e, he⟩
  obtain ⟨e, he⟩ := hw
  exact ⟨e, he, hc q hq e he⟩

theorem level_eq {p : Ptr} (hs : g.start = some p) (n : Nat) :
    g.level n = Worklist.level (succ g.toState) n [p] := by
  rw [Graph.level, hs]
  rfl

-- `m_get_depth` returns exactly if one of its rounds ends the walk.
theorem mGetDepth_isSome_iff : (mGetDepth g.toState [] g.start).isSome ↔
    ∃ r ≤ intMax, Done g sizeToInt (rounds g.toState sizeToInt r g.start.toList) := by
  cases hs : g.start with
  | none   =>
    rw [mGetDepth_null]
    exact iff_of_true rfl ⟨0, Nat.zero_le _, .inl rfl⟩
  | some p =>
    have hw : ∀ q ∈ [p], ∃ e, g.temps q = some e := List.forall_mem_singleton.mpr (g.written p hs)
    have h : (depthLoop g.toState sizeToInt intMax 0 ([p].map some)).isSome ↔ _ :=
      depthLoop_isSome_iff narrow_sizeToInt hw
    rwa [mGetDepth]

theorem mGetDepth_isSome (h : g.Fits) : (mGetDepth g.toState [] g.start).isSome :=
  mGetDepth_isSome_iff.mpr (done_of_levels narrow_sizeToInt h.sizes h.rounds)

theorem clean_of_cleanFrom {p : Ptr} (hs : g.start = some p) (h : CleanFrom g.toState p) :
    Clean g.toState g.start := by
  refine ⟨p, hs, fun q hq e he => ?_⟩
  obtain ⟨cur, hc, hp⟩ := h q hq
  exact Option.some.inj (hc.symm.trans he) ▸ hp

-- If `m_get_depth` returns no check has failed, or one of the rounds has come to the check.
theorem clean_or_fails {p : Ptr} (hs : g.start = some p)
    (h : (mGetDepth g.toState [] g.start).isSome) :
    Clean g.toState g.start ∨ g.Fails := by
  by_cases hf : g.Fails
  case pos => exact .inr hf
  case neg =>
    obtain ⟨r, hr, hn | hp⟩ := mGetDepth_isSome_iff.mp h
    · have hc : ∀ q ∈ g.start.toList, CleanFrom g.toState q :=
        clean_of_rounds (fun m hm q hq => by_contra fun hn =>
          hf ⟨m, Nat.le_of_lt (Nat.lt_of_lt_of_le hm hr), q, hq, hn⟩) hn
      exact .inl (clean_of_cleanFrom hs (hc p (by rw [hs]; exact List.mem_singleton_self p)))
    · exact absurd ⟨r, hr, hp⟩ hf

theorem fpsanTrace_isSome (h : (mGetDepth g.toState [] g.start).isSome) :
    (fpsanTrace g.toState [] g.start).isSome := by
  have hw : ∀ r, some r ∈ [g.start] → ∃ e, g.temps r = some e :=
    fun r hr => g.written r (List.mem_singleton.mp hr).symm
  obtain ⟨r, hr⟩ := Option.isSome_iff_exists.mp (traceLoop_isSome hw)
  obtain ⟨d, hd⟩ := Option.isSome_iff_exists.mp h
  rw [fpsanTrace, List.nil_append, hr]
  by_cases hn : r.mExpr = []
  · simp [hn, hd]
  · simp [hn]

-- What `m_get_depth` returns if no check fails.
theorem depth_of_clean {p : Ptr} (hs : g.start = some p) (hc : Clean g.toState g.start)
    {d : Nat × Result} (hd : mGetDepth g.toState [] g.start = some d) :
    ∃ k ≤ intMax, d.fst = k ∧ g.level k = [] ∧ ∀ n < k, g.level n ≠ [] ∧
    (g.level n).length ≤ intMax := by
  have hcf : ∀ q ∈ [p], CleanFrom g.toState q :=
    List.forall_mem_singleton.mpr (cleanFrom_of_clean hs hc)
  rw [mGetDepth, hs] at hd
  obtain ⟨k, hk, he, hl, hn⟩ := levels_of_depthLoop narrow_sizeToInt hcf hd
  rw [Nat.zero_add] at he
  simp only [level_eq hs]
  exact ⟨k, hk, he, hl, hn⟩

theorem answers_of_isSome (hd : (mGetDepth g.toState [] g.start).isSome) : g.Answers := by
  refine ⟨fpsanTrace_isSome hd, hd, getFpcoreOf_isSome g, fun p hs hc => ?_⟩
  obtain ⟨⟨d, r⟩, hd⟩ := Option.isSome_iff_exists.mp hd
  obtain ⟨k, -, rfl, hl, hn⟩ := depth_of_clean hs hc hd
  simp only [level_eq hs] at hl hn
  exact ⟨d, r, hd, longest_of_level mem_succ_iff hl fun n hlt => (hn n hlt).left⟩

theorem fits_of_clean (hc : Clean g.toState g.start)
    (hd : (mGetDepth g.toState [] g.start).isSome) : g.Fits := by
  obtain ⟨p, hs, -⟩ := id hc
  obtain ⟨d, hd⟩ := Option.isSome_iff_exists.mp hd
  obtain ⟨k, hk, -, hl, hn⟩ := depth_of_clean hs hc hd
  have hlt : ∀ n, g.level n ≠ [] → n < k := by
    intro n hne
    refine Nat.lt_of_not_le fun hkn => hne ?_
    rw [level_eq hs] at hl ⊢
    exact level_eq_nil_of_le hl hkn
  refine ⟨fun n _ => ?_, fun n _ hne => Nat.lt_of_lt_of_le (hlt n hne) hk⟩
  by_cases hne : g.level n = []
  · rw [hne]
    exact Nat.zero_le _
  · exact (hn n (hlt n hne)).right

theorem fits_of_null (hs : g.start = none) : g.Fits := by
  have hl : ∀ n, g.level n = [] := by
    intro n
    rw [Graph.level, hs]
    exact level_nil n
  exact ⟨fun n _ => by rw [hl]; exact Nat.zero_le _, fun n _ hne => absurd (hl n) hne⟩

-- The walks end with the right depth exactly if the sizes and the number of the levels fit in an
-- `int` or a check fails for an entry that the walk comes to all the same.
theorem answers_iff (g : Graph V) : g.Answers ↔ g.Fits ∨ g.Fails := by
  constructor
  · intro ha
    cases hs : g.start with
    | none   => exact .inl (fits_of_null hs)
    | some p =>
      exact (clean_or_fails hs ha.getDepth).imp_left fun hc => fits_of_clean hc ha.getDepth
  · rintro (h | ⟨r, hr, hp⟩)
    · exact answers_of_isSome (mGetDepth_isSome h)
    · exact answers_of_isSome (mGetDepth_isSome_iff.mpr ⟨r, hr, .inr hp⟩)

end Ends

section Doubling

-- `x₀ = 1` and 31 times `x = x + x`, from the last one on.
def doublePtr (i : Nat) : Ptr :=
  ⟨⟨2, 0⟩, i⟩

def doubleOperand (i : Nat) : Option Ptr :=
  if i < 31 then some (doublePtr (i + 1)) else none

def doubleEntry (i : Nat) : TempEntry Nat Float :=
  { (shadowSliceStart default default : State Nat Float).leaf 1 1 .fadd i with
    timestamp := 31 - i, lhs := doubleOperand i, rhs := doubleOperand i }

def doubleState : State Nat Float :=
  { (shadowSliceStart default default : State Nat Float) with
    temps := fun p => if p.owner = ⟨2, 0⟩ ∧ p.idx ≤ 31 then some (doubleEntry p.idx) else none }

theorem temps_doublePtr {i : Nat} (h : i ≤ 31) :
    doubleState.temps (doublePtr i) = some (doubleEntry i) :=
  if_pos ⟨rfl, h⟩

theorem eq_of_temps {p : Ptr} {e : TempEntry Nat Float} (h : doubleState.temps p = some e) :
    ∃ i ≤ 31, e = doubleEntry i := by
  simp only [doubleState] at h
  split at h
  case isTrue hp => exact ⟨p.idx, hp.right, (Option.some.inj h).symm⟩
  case isFalse   => cases h

theorem doubleOperand_eq_some {i : Nat} {q : Ptr} (h : doubleOperand i = some q) :
    i < 31 ∧ q = doublePtr (i + 1) := by
  rw [doubleOperand] at h
  split at h
  case isTrue hi => exact ⟨hi, (Option.some.inj h).symm⟩
  case isFalse   => cases h

def doubling : Graph Nat where
  toState         := doubleState
  start           := some (doublePtr 0)
  written p hp    := ⟨doubleEntry 0, Option.some.inj hp ▸ temps_doublePtr (Nat.zero_le 31)⟩
  closed p e q he ho := by
    obtain ⟨i, -, rfl⟩ := eq_of_temps he
    have ho : doubleOperand i = some q := ho.elim id id
    obtain ⟨hi, rfl⟩ := doubleOperand_eq_some ho
    exact ⟨_, temps_doublePtr hi⟩

theorem succ_doublePtr {i : Nat} (h : i < 31) :
    succ doubleState (doublePtr i) = List.replicate 2 (doublePtr (i + 1)) := by
  have ht : (doubleEntry (i + 1)).timestamp < (doubleEntry i).timestamp := by
    show 31 - (i + 1) < 31 - i
    omega
  have ho : older doubleState (doubleEntry i) (some (doublePtr (i + 1))) = [doublePtr (i + 1)] := by
    rw [older, temps_doublePtr h, Option.elim_some, if_pos ht]
  have hd : doubleOperand i = some (doublePtr (i + 1)) := if_pos h
  have hl : (doubleEntry i).lhs = some (doublePtr (i + 1)) := hd
  have hr : (doubleEntry i).rhs = some (doublePtr (i + 1)) := hd
  rw [succ, temps_doublePtr (Nat.le_of_lt h), Option.elim_some, hl, hr, ho]
  rfl

-- The number of chains doubles with each level.
theorem level_doubling {n : Nat} (h : n ≤ 31) :
    doubling.level n = List.replicate (2 ^ n) (doublePtr n) := by
  induction n with
  | zero      => rfl
  | succ n ih =>
    have hs : doubling.level (n + 1) = (doubling.level n).flatMap (succ doubleState) :=
      level_add n 1 _
    rw [hs, ih (Nat.le_of_succ_le h), List.flatMap_replicate, succ_doublePtr h,
      List.flatten_replicate_replicate, Nat.pow_succ]

theorem clean_doubling : Clean doubling.toState doubling.start := by
  refine ⟨doublePtr 0, rfl, fun q _ e he => ?_⟩
  obtain ⟨i, -, rfl⟩ := eq_of_temps he
  exact ⟨rfl, rfl⟩

-- The size of the last level does not fit in an `int`.
theorem not_answers : ¬∀ (V : Type) (g : Graph V), g.Answers := by
  intro h
  obtain ⟨d, hd⟩ := Option.isSome_iff_exists.mp (h Nat doubling).getDepth
  obtain ⟨k, -, -, hl, hn⟩ := depth_of_clean rfl clean_doubling hd
  have hk : 31 < k := by
    refine Nat.lt_of_not_le fun hle => ?_
    have := congrArg List.length hl
    rw [level_doubling hle, List.length_replicate, List.length_nil] at this
    exact absurd this (Nat.ne_of_gt (Nat.pow_pos (by decide)))
  have := (hn 31 hk).right
  rw [level_doubling (Nat.le_refl 31), List.length_replicate, intMax_eq] at this
  omega

end Doubling

end Tracing
