import Mathlib.Data.List.Forall2

-- Where the elements of a list are among those that a filter keeps.
namespace Filtering

variable {α β : Type*} {p : α → Bool} {q : β → Bool} {l : List α} {l' : List β}

-- The number of the kept elements in front of a position.
def rank (p : α → Bool) (l : List α) (n : Nat) : Nat :=
  (l.take n).countP p

@[simp]
theorem rank_zero (l : List α) : rank p l 0 = 0 := by
  rw [rank, List.take_zero, List.countP_nil]

@[simp]
theorem rank_cons_succ (a : α) (l : List α) (n : Nat) :
    rank p (a :: l) (n + 1) = rank p l n + if p a then 1 else 0 := by
  rw [rank, List.take_succ_cons, List.countP_cons, rank]

theorem getElem?_filter_rank {n : Nat} {a : α} (h : l[n]? = some a) (ha : p a) :
    (l.filter p)[rank p l n]? = some a := by
  induction l generalizing n with
  | nil         => cases h
  | cons b l ih =>
    cases n with
    | zero   =>
      obtain rfl := Option.some.inj h
      rw [rank_zero, List.filter_cons_of_pos ha, List.getElem?_cons_zero]
    | succ n =>
      rw [List.getElem?_cons_succ] at h
      rw [rank_cons_succ]
      by_cases hb : p b
      · rw [if_pos hb, List.filter_cons_of_pos hb, List.getElem?_cons_succ, ih h]
      · rw [if_neg hb, List.filter_cons_of_neg hb, Nat.add_zero, ih h]

theorem countP_congr (h : l.map p = l'.map q) : l.countP p = l'.countP q := by
  have h := congrArg (List.countP id) h
  rwa [List.countP_map, List.countP_map, Function.id_comp, Function.id_comp] at h

-- Two lists that keep the same positions rank them alike.
theorem rank_congr {n : Nat} (h : (l.take n).map p = (l'.take n).map q) :
    rank p l n = rank q l' n :=
  countP_congr h

theorem getElem?_of_forall₂ {R : α → β → Prop} (h : List.Forall₂ R l l') {n : Nat} {a : α}
    (ha : l[n]? = some a) :
    ∃ b, l'[n]? = some b ∧ R a b := by
  induction h generalizing n with
  | nil            => cases ha
  | cons hr h ih =>
    cases n with
    | zero   =>
      obtain rfl := Option.some.inj ha
      exact ⟨_, rfl, hr⟩
    | succ n => exact ih ha

end Filtering
