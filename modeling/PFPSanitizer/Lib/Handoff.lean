import Mathlib.Data.List.Range

-- A producer that hands elements to a consumer through two queues, in buffers
-- that the consumer gives back.
namespace Handoff

variable {α β γ : Type*}

-- The elements from `a` up to `b`, which comes after them.
inductive Between (next : α → α) (b : α) : α → List α → Prop
  | nil : Between next b b []
  | cons {a l} (h : Between next b (next a) l) : Between next b a (a :: l)

theorem Between.concat {next : α → α} {a b : α} {l : List α} (h : Between next b a l) :
    Between next (next b) a (l ++ [b]) := by
  induction h with
  | nil         => exact .cons .nil
  | cons _ ih   => exact .cons ih

-- The elements from `a` up to `b` are on their way. The queue `p` has those of the one
-- kind, and `q` the others.
structure Split (next : α → α) (kind : α → Bool) (f : α → β) (g : α → γ) (a b : α) (p : List β)
    (q : List γ) : Prop where
  intro ::
  exists_between : ∃ l, Between next b a l ∧ p = (l.filter kind).map f ∧
    q = (l.filter (!kind ·)).map g

namespace Split

variable {next : α → α} {kind : α → Bool} {f : α → β} {g : α → γ} {a b : α} {p : List β}
  {q : List γ}

theorem refl (a : α) : Split next kind f g a a [] [] :=
  ⟨[], .nil, rfl, rfl⟩

theorem pushLeft (h : Split next kind f g a b p q) (hb : kind b) :
    Split next kind f g a (next b) (p ++ [f b]) q := by
  obtain ⟨l, hl, rfl, rfl⟩ := h
  exact ⟨l ++ [b], hl.concat, by simp [hb], by simp [hb]⟩

theorem pushRight (h : Split next kind f g a b p q) (hb : kind b = false) :
    Split next kind f g a (next b) p (q ++ [g b]) := by
  obtain ⟨l, hl, rfl, rfl⟩ := h
  exact ⟨l ++ [b], hl.concat, by simp [hb], by simp [hb]⟩

-- A consumer that goes on in the order of the elements finds the one that it wants
-- at the head of its queue.
theorem popLeft {y : β} (h : Split next kind f g a b (y :: p) q) (ha : kind a) :
    y = f a ∧ Split next kind f g (next a) b p q := by
  obtain ⟨l, hl, hp, rfl⟩ := h
  cases hl with
  | nil       => cases hp
  | cons hl   =>
    rw [List.filter_cons_of_pos ha, List.map_cons] at hp
    obtain ⟨rfl, rfl⟩ := List.cons.inj hp
    exact ⟨rfl, _, hl, rfl, by rw [List.filter_cons_of_neg (by simpa using ha)]⟩

theorem popRight {y : γ} (h : Split next kind f g a b p (y :: q)) (ha : kind a = false) :
    y = g a ∧ Split next kind f g (next a) b p q := by
  obtain ⟨l, hl, rfl, hq⟩ := h
  cases hl with
  | nil       => cases hq
  | cons hl   =>
    rw [List.filter_cons_of_pos (by simpa using ha), List.map_cons] at hq
    obtain ⟨rfl, rfl⟩ := List.cons.inj hq
    exact ⟨rfl, _, hl, by rw [List.filter_cons_of_neg (by simp [ha])], rfl⟩

-- What is on its way is counted by a number that grows with the elements.
theorem number_le {number : α → Nat} {S : α → Prop} (h : Split next kind f g a b p q) (ha : S a)
    (hn : ∀ c, S c → S (next c) ∧ number (next c) = number c + 1) : number a ≤ number b := by
  obtain ⟨l, hl, -, -⟩ := h
  induction hl with
  | nil         => exact Nat.le_refl _
  | @cons a _ _ ih =>
    have ⟨hs, hx⟩ := hn a ha
    exact Nat.le_of_succ_le (hx.symm.trans_le (ih hs))

end Split

-- The buffers that are free, when `acquired` of them have been taken and `released` have been given
-- back: they go round in the order `turn`.
structure Ring (turn : Nat → β) (size acquired released : Nat) (free : List β) : Prop where
  free_eq : free = (List.range' acquired free.length).map turn
  total   : acquired + free.length = size + released

namespace Ring

variable {turn : Nat → β} {size acquired released : Nat} {free : List β} {b : β}

theorem init : Ring turn size 0 0 ((List.range size).map turn) where
  free_eq := by simp [List.range_eq_range']
  total   := by simp

theorem le (h : Ring turn size acquired released free) : acquired ≤ size + released :=
  h.total ▸ Nat.le_add_right ..

theorem take (h : Ring turn size acquired released (b :: free)) :
    b = turn acquired ∧ Ring turn size (acquired + 1) released free := by
  obtain ⟨he, ht⟩ := h
  rw [List.length_cons, List.range'_succ, List.map_cons] at he
  obtain ⟨hb, hl⟩ := List.cons.inj he
  exact ⟨hb, hl, by rw [List.length_cons] at ht; omega⟩

theorem giveBack (h : Ring turn size acquired released free) (hp : ∀ n, turn (size + n) = turn n) :
    Ring turn size acquired (released + 1) (free ++ [turn released]) where
  free_eq := by
    rw [List.length_append, List.length_singleton, List.range'_1_concat, List.map_append,
      ← h.free_eq, List.map_singleton, h.total, hp]
  total   := by
    have := h.total
    rw [List.length_append, List.length_singleton]
    omega

end Ring

end Handoff
