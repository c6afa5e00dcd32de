import PFPSanitizer.Lib.Machine
import Mathlib.Data.Nat.Init
import Mathlib.Order.WellFounded

namespace Machine

variable {σ π α : Type*} {M : Machine σ π}

-- The states that a schedule of turns leads through. A party that waits gives its turn up.
def follow (M : Machine σ π) (p : Nat → π) : Nat → σ
  | 0     => M.init
  | n + 1 => M.step (p n) (M.follow p n) |>.getD (M.follow p n)

-- Every party gets its turn again and again.
def Fair (p : Nat → π) : Prop :=
  ∀ q n, ∃ m, n ≤ m ∧ p m = q

theorem follow_succ_of_some {p : Nat → π} {n : Nat} {s : σ}
    (h : M.step (p n) (M.follow p n) = some s) :
    M.follow p (n + 1) = s := by
  rw [follow, h, Option.getD_some]

theorem follow_succ_of_none {p : Nat → π} {n : Nat} (h : M.step (p n) (M.follow p n) = none) :
    M.follow p (n + 1) = M.follow p n := by
  rw [follow, h, Option.getD_none]

theorem reachable_follow (M : Machine σ π) (p : Nat → π) (n : Nat) :
    M.Reachable (M.follow p n) := by
  induction n with
  | zero      => exact ⟨.init⟩
  | succ n ih =>
    cases h : M.step (p n) (M.follow p n) with
    | none   => exact follow_succ_of_none h ▸ ih
    | some s => exact follow_succ_of_some h ▸ ih.step h

-- Parties that help: a step lowers the measure `μ`, or it keeps the measure and the parties that
-- can lower it, of which there is one as long as the goal is not met.
structure Helped (M : Machine σ π) [Preorder α] (μ : σ → α) (Helps : π → σ → Prop)
    (Goal : σ → Prop) :
    Prop where
  step  : ∀ {q s s'}, M.Reachable s → M.step q s = some s' →
          μ s' < μ s ∨ μ s' = μ s ∧ ∀ q', Helps q' s → Helps q' s'
  lower : ∀ {q s}, M.Reachable s → Helps q s → ∃ s', M.step q s = some s' ∧ μ s' < μ s
  some  : ∀ {s}, M.Reachable s → ¬Goal s → ∃ q, Helps q s

namespace Helped

variable [Preorder α] {μ : σ → α} {Helps : π → σ → Prop} {Goal : σ → Prop}

-- Until the turn of a party that helps, it goes on helping, unless the measure falls before.
theorem lower_or_helps (h : Helped M μ Helps Goal) {p : Nat → π} {q : π} {n : Nat}
    (hq : Helps q (M.follow p n)) (k : Nat) :
    (∃ m, n ≤ m ∧ μ (M.follow p m) < μ (M.follow p n)) ∨
      μ (M.follow p (n + k)) = μ (M.follow p n) ∧ Helps q (M.follow p (n + k)) := by
  induction k with
  | zero      => exact .inr ⟨rfl, hq⟩
  | succ k ih =>
    obtain hl | ⟨he, hh⟩ := ih
    case inl => exact .inl hl
    case inr =>
      cases hs : M.step (p (n + k)) (M.follow p (n + k)) with
      | none   =>
        exact .inr ⟨(follow_succ_of_none hs).symm ▸ he, (follow_succ_of_none hs).symm ▸ hh⟩
      | some s =>
        have ht := follow_succ_of_some hs
        obtain hl | ⟨he', hh'⟩ := h.step (reachable_follow M p _) hs
        · exact .inl ⟨n + k + 1, by omega, by rw [ht, ← he]; exact hl⟩
        · exact .inr ⟨by rw [← Nat.add_assoc, ht, he', he], by
            rw [← Nat.add_assoc, ht]; exact hh' q hh⟩

theorem lower_of_fair (h : Helped M μ Helps Goal) {p : Nat → π} (hp : Fair p) {n : Nat}
    (hn : ¬Goal (M.follow p n)) : ∃ m, n ≤ m ∧ μ (M.follow p m) < μ (M.follow p n) := by
  obtain ⟨q, hq⟩ := h.some (reachable_follow M p n) hn
  obtain ⟨m, hm, rfl⟩ := hp q n
  obtain ⟨k, rfl⟩ := Nat.exists_eq_add_of_le hm
  obtain hl | ⟨he, hh⟩ := h.lower_or_helps hq k
  case inl => exact hl
  case inr =>
    obtain ⟨s, hs, hl⟩ := h.lower (reachable_follow M p _) hh
    exact ⟨n + k + 1, by omega, by rw [follow_succ_of_some hs, ← he]; exact hl⟩

-- The rule for what fair schedules lead to.
theorem eventually [WellFoundedLT α] (h : Helped M μ Helps Goal) {p : Nat → π} (hp : Fair p)
    (n : Nat) :
    ∃ m, n ≤ m ∧ Goal (M.follow p m) := by
  generalize ha : μ (M.follow p n) = a
  induction a using WellFoundedLT.induction generalizing n with
  | ind a ih =>
    by_cases hn : Goal (M.follow p n)
    case pos => exact ⟨n, le_rfl, hn⟩
    case neg =>
      obtain ⟨m, hm, hl⟩ := h.lower_of_fair hp hn
      obtain ⟨m', hm', hg⟩ := ih _ (ha ▸ hl) m rfl
      exact ⟨m', hm.trans hm', hg⟩

end Helped

end Machine
