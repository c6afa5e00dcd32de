import Mathlib.Data.List.Basic

-- A walk over a list that grows while it is walked.
namespace Growing

variable {α σ : Type*}

-- The walk with at most `n` visits. `grow x l` is what is ahead after the
-- visit of `x` in front of `l`.
def walk (grow : α → List α → List α) (visit : σ → α → σ) : Nat → List α → σ → Option σ
  | _, [], s         => some s
  | 0, _ :: _, _     => none
  | n + 1, x :: l, s => walk grow visit n (grow x l) (visit s x)

variable {grow : α → List α → List α} {visit : σ → α → σ} {I : List α → Prop} {l : List α} {s r : σ}

-- If what is added has no effect, the walk does what a walk over the list as it was does.
theorem walk_eq (hi : ∀ x l, I (x :: l) → I (grow x l))
    (hv : ∀ x l s, I (x :: l) → (grow x l).foldl visit s = l.foldl visit s) (h : I l) {n : Nat}
    (hw : walk grow visit n l s = some r) : r = l.foldl visit s := by
  induction n generalizing l s with
  | zero      =>
    cases l with
    | nil      => exact (Option.some.inj hw).symm
    | cons x l => cases hw
  | succ n ih =>
    cases l with
    | nil      => exact (Option.some.inj hw).symm
    | cons x l => rw [ih (hi x l h) hw, hv x l _ h, List.foldl_cons]

-- A measure that every visit lowers bounds their number.
theorem exists_walk (m : List α → Nat) (hi : ∀ x l, I (x :: l) → I (grow x l))
    (hm : ∀ x l, I (x :: l) → m (grow x l) < m (x :: l)) (h : I l) :
    ∃ n, (walk grow visit n l s).isSome := by
  induction hk : m l using Nat.strongRecOn generalizing l s with
  | ind k ih =>
    subst hk
    cases l with
    | nil      => exact ⟨0, rfl⟩
    | cons x l =>
      obtain ⟨n, hn⟩ := ih _ (hm x l h) (s := visit s x) (hi x l h) rfl
      exact ⟨n + 1, hn⟩

-- A walk that never comes to the empty list does not end.
theorem walk_eq_none (hn : ¬I []) (hi : ∀ x l, I (x :: l) → I (grow x l)) (h : I l) (n : Nat) :
    walk grow visit n l s = none := by
  induction n generalizing l s with
  | zero      =>
    cases l with
    | nil      => exact absurd h hn
    | cons x l => rfl
  | succ n ih =>
    cases l with
    | nil      => exact absurd h hn
    | cons x l => exact ih (hi x l h)

end Growing
