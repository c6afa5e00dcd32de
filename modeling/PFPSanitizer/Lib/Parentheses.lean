import Mathlib.Data.List.Basic

-- Texts whose parentheses are balanced.
namespace Parentheses

-- The number of parentheses that are open behind a text, if none is closed that is not open.
def opened : Nat → List Char → Option Nat
  | n, []     => some n
  | n, c :: t =>
    if c = '(' then opened (n + 1) t
    else if c = ')' then
      match n with
      | 0     => none
      | n + 1 => opened n t
    else opened n t

def Balanced (t : List Char) : Prop :=
  opened 0 t = some 0

-- A text without parentheses.
def Plain (t : List Char) : Prop :=
  ∀ c ∈ t, c ≠ '(' ∧ c ≠ ')'

instance (t : List Char) : Decidable (Plain t) :=
  decidable_of_iff (t.all fun c => c != '(' && c != ')') (by simp [Plain])

variable {t u : List Char} {n m k : Nat}

theorem opened_append : opened n (t ++ u) = (opened n t).bind fun m => opened m u := by
  induction t generalizing n with
  | nil         => rfl
  | cons c t ih =>
    simp only [List.cons_append, opened]
    split
    · exact ih
    split
    · cases n with
      | zero   => rfl
      | succ n => exact ih
    · exact ih

-- What is open before stays open.
theorem opened_add (h : opened n t = some m) (k : Nat) : opened (n + k) t = some (m + k) := by
  induction t generalizing n with
  | nil         =>
    obtain rfl := Option.some.inj h
    rfl
  | cons c t ih =>
    simp only [opened] at h ⊢
    split at h
    case isTrue hc    =>
      rw [if_pos hc, Nat.add_right_comm]
      exact ih h
    case isFalse hc   =>
      rw [if_neg hc]
      split at h
      case isTrue hd  =>
        cases n with
        | zero   => cases h
        | succ n =>
          rw [if_pos hd, Nat.add_right_comm]
          exact ih h
      case isFalse hd =>
        rw [if_neg hd]
        exact ih h

theorem Balanced.opened (h : Balanced t) (n : Nat) : opened n t = some n := by
  have ho := opened_add h n
  rwa [Nat.zero_add] at ho

theorem Balanced.nil : Balanced [] :=
  rfl

theorem Balanced.append (ht : Balanced t) (hu : Balanced u) : Balanced (t ++ u) := by
  rw [Balanced, opened_append, ht]
  exact hu

theorem Plain.balanced (h : Plain t) : Balanced t := by
  induction t with
  | nil         => exact .nil
  | cons c t ih =>
    obtain ⟨⟨ho, hc⟩, ht⟩ := List.forall_mem_cons.mp h
    rw [Balanced, Parentheses.opened, if_neg ho, if_neg hc]
    exact ih ht

theorem Plain.append (ht : Plain t) (hu : Plain u) : Plain (t ++ u) :=
  fun c hc => (List.mem_append.mp hc).elim (ht c) (hu c)

theorem Balanced.wrap (h : Balanced t) : Balanced ('(' :: (t ++ [')'])) := by
  rw [Balanced, Parentheses.opened, if_pos rfl, opened_append, h.opened]
  rfl

end Parentheses
