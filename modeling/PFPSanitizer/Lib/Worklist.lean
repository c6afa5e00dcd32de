import Mathlib.Data.List.Chain
import Mathlib.Logic.Relation

-- Queues whose nodes are replaced by their successors, one after the other and with no record of
-- those that have been seen.
namespace Worklist

variable {α : Type*}

section Walks

variable (next : α → Option (List α))

-- The walk takes a node from the front and appends its successors. It cannot go on from a node
-- without a list of successors.
inductive Walks : List α → List α → List α → Prop
  | refl : Walks q [] q
  | step : next a = some as → Walks (q ++ as) v q' → Walks (a :: q) (a :: v) q'

def Successor (a b : α) : Prop :=
  ∃ as, next a = some as ∧ b ∈ as

-- The walk can go on from all nodes that there are behind one.
def Clear (a : α) : Prop :=
  ∀ b, Relation.ReflTransGen (Successor next) a b → ∃ bs, next b = some bs

variable {next} {a : α} {as q q' q'' v v' : List α}

theorem clear_iff : Clear next a ↔ ∃ as, next a = some as ∧ ∀ b ∈ as, Clear next b := by
  constructor
  · intro h
    obtain ⟨as, ha⟩ := h a .refl
    exact ⟨as, ha, fun b hb c hc => h c (.head ⟨as, ha, hb⟩ hc)⟩
  · rintro ⟨as, ha, h⟩ b hb
    obtain rfl | ⟨c, ⟨as', ha', hc⟩, hcb⟩ := hb.cases_head
    · exact ⟨as, ha⟩
    · obtain rfl := Option.some.inj (ha.symm.trans ha')
      exact h c hc b hcb

namespace Walks

theorem trans (h : Walks next q v q') (h' : Walks next q' v' q'') : Walks next q (v ++ v') q'' := by
  induction h with
  | refl         => exact h'
  | step ha _ ih => exact .step ha (ih h')

-- Whether nodes are clear does not change on the way.
theorem clear_iff (h : Walks next q v q') : (∀ a ∈ q, Clear next a) ↔ ∀ a ∈ q', Clear next a := by
  induction h with
  | refl         => exact Iff.rfl
  | step ha _ ih =>
    rw [← ih, List.forall_mem_cons, List.forall_mem_append, Worklist.clear_iff, and_comm]
    refine and_congr_right fun _ => ⟨?_, fun h => ⟨_, ha, h⟩⟩
    rintro ⟨as, ha', h⟩
    obtain rfl := Option.some.inj (ha.symm.trans ha')
    exact h

theorem clear_of_nil (h : Walks next q v []) : ∀ a ∈ q, Clear next a :=
  h.clear_iff.mpr fun _ ha => absurd ha List.not_mem_nil

-- The nodes that are left are behind those of the beginning.
theorem exists_path (h : Walks next q v q') {b : α} (hb : b ∈ q') :
    ∃ a ∈ q, Relation.ReflTransGen (Successor next) a b := by
  induction h with
  | refl         => exact ⟨b, hb, .refl⟩
  | step ha _ ih =>
    obtain ⟨c, hc, hp⟩ := ih hb
    obtain hc | hc := List.mem_append.mp hc
    · exact ⟨c, List.mem_cons_of_mem _ hc, hp⟩
    · exact ⟨_, List.mem_cons_self, .head ⟨_, ha, hc⟩ hp⟩

end Walks

end Walks

section Levels

variable (succ : α → List α)

-- The successors of the successors, and so on, as often as there is a way to them.
def level : Nat → List α → List α
  | 0, q     => q
  | n + 1, q => level n (q.flatMap succ)

-- The number of nodes of the longest chains from a node on.
structure Longest (R : α → α → Prop) (a : α) (d : Nat) : Prop where
  chain : ∃ l, (a :: l).IsChain R ∧ (a :: l).length = d
  le    : ∀ l, (a :: l).IsChain R → (a :: l).length ≤ d

variable {succ} {R : α → α → Prop} {a : α} {q : List α} {n d : Nat}

theorem level_nil (n : Nat) : level succ n [] = [] := by
  induction n with
  | zero      => rfl
  | succ n ih => exact ih

theorem level_add (m n : Nat) (q : List α) :
    level succ (m + n) q = level succ n (level succ m q) := by
  induction m generalizing q with
  | zero      => rw [Nat.zero_add, level]
  | succ m ih => rw [Nat.add_right_comm, level, level, ih]

theorem level_eq_nil_of_le (h : level succ n q = []) {m : Nat} (hm : n ≤ m) :
    level succ m q = [] := by
  obtain ⟨k, rfl⟩ := Nat.exists_eq_add_of_le hm
  rw [level_add, h, level_nil]

-- The nodes at a level are those at the ends of chains.
theorem level_ne_nil_iff (hR : ∀ a b, b ∈ succ a ↔ R a b) :
    level succ n q ≠ [] ↔ ∃ a ∈ q, ∃ l, (a :: l).IsChain R ∧ l.length = n := by
  induction n generalizing q with
  | zero      =>
    constructor
    · intro h
      obtain ⟨a, ha⟩ := List.exists_mem_of_ne_nil q h
      exact ⟨a, ha, [], List.isChain_singleton a, rfl⟩
    · rintro ⟨a, ha, -⟩
      exact List.ne_nil_of_mem ha
  | succ n ih =>
    rw [level, ih]
    constructor
    · rintro ⟨b, hb, l, hl, rfl⟩
      obtain ⟨a, ha, hab⟩ := List.mem_flatMap.mp hb
      exact ⟨a, ha, b :: l, List.isChain_cons_cons.mpr ⟨(hR a b).mp hab, hl⟩, rfl⟩
    · rintro ⟨a, ha, l, hl, hn⟩
      cases l with
      | nil      => cases hn
      | cons b l =>
        obtain ⟨hab, hl⟩ := List.isChain_cons_cons.mp hl
        exact ⟨b, List.mem_flatMap.mpr ⟨a, ha, (hR a b).mpr hab⟩, l, hl, Nat.succ.inj hn⟩

-- The first level that is empty tells the length of the longest chains.
theorem longest_of_level (hR : ∀ a b, b ∈ succ a ↔ R a b) (h : level succ d [a] = [])
    (hn : ∀ n < d, level succ n [a] ≠ []) :
    Longest R a d where
  chain := by
    cases d with
    | zero   => cases h
    | succ d =>
      obtain ⟨b, hb, l, hl, hd⟩ := (level_ne_nil_iff hR).mp (hn d (Nat.lt_succ_self d))
      obtain rfl := List.mem_singleton.mp hb
      exact ⟨l, hl, congrArg (· + 1) hd⟩
  le l hl := by
    refine Nat.lt_of_not_le fun hd => ?_
    exact (level_ne_nil_iff hR).mpr ⟨a, List.mem_singleton_self a, l, hl, rfl⟩
      (level_eq_nil_of_le h hd)

end Levels

end Worklist
