import Mathlib.Logic.Basic

-- A stream that is cut into chunks of one size. The cursor moves on to the next chunk not when one
-- is full, but when it is needed.
structure Cursor where
  chunk : Nat
  idx   : Nat
deriving DecidableEq

namespace Cursor

-- A cursor that is used up goes to the next chunk.
def turn (size : Nat) (c : Cursor) : Cursor :=
  if c.idx < size then c else ⟨c.chunk + 1, 0⟩

def advance (c : Cursor) : Cursor :=
  { c with idx := c.idx + 1 }

-- The elements that the cursor has gone by.
def total (size : Nat) (c : Cursor) : Nat :=
  c.chunk * size + c.idx

variable {size : Nat} {c : Cursor}

@[simp]
theorem total_advance : c.advance.total size = c.total size + 1 :=
  rfl

theorem total_turn (h : c.idx ≤ size) : (c.turn size).total size = c.total size := by
  rw [turn]
  split
  · rfl
  · have he : c.idx = size := by omega
    simp [total, he, Nat.succ_mul]

theorem idx_turn (h : 0 < size) : (c.turn size).idx < size := by
  rw [turn]
  split
  · assumption
  · exact h

theorem turn_of_lt (h : c.idx < size) : c.turn size = c :=
  if_pos h

-- A cursor that is not used up is at the place of its element.
theorem chunk_eq (h : c.idx < size) : c.chunk = c.total size / size := by
  rw [total, Nat.mul_comm, Nat.mul_add_div (Nat.zero_lt_of_lt h), Nat.div_eq_of_lt h, Nat.add_zero]

theorem idx_eq (h : c.idx < size) : c.idx = c.total size % size := by
  rw [total, Nat.mul_comm, Nat.mul_add_mod, Nat.mod_eq_of_lt h]

-- The place of the next element.
theorem turn_eq (h₀ : 0 < size) (h : c.idx ≤ size) :
    c.turn size = ⟨c.total size / size, c.total size % size⟩ := by
  have hi := idx_turn (c := c) h₀
  rw [← total_turn h, ← chunk_eq hi, ← idx_eq hi]

-- The chunk of a cursor that is not at the start of one is that of the element before it.
theorem chunk_eq_pred (h₁ : 0 < c.idx) (h : c.idx ≤ size) :
    c.chunk = (c.total size - 1) / size := by
  have hl : c.idx - 1 < size := by omega
  have hp : (⟨c.chunk, c.idx - 1⟩ : Cursor).chunk = _ := chunk_eq hl
  rw [total, Nat.add_sub_assoc h₁]
  exact hp

-- It does not matter how far a cursor is beyond the end of its chunk.
theorem turn_min : Cursor.turn size ⟨c.chunk, min c.idx size⟩ = c.turn size := by
  by_cases hl : c.idx < size
  case pos => rw [Nat.min_eq_left (Nat.le_of_lt hl)]
  case neg =>
    rw [Nat.min_eq_right (Nat.le_of_not_lt hl), turn, turn, if_neg hl]
    exact if_neg (Nat.lt_irrefl _)

end Cursor
