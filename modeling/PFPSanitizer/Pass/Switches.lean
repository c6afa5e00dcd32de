import PFPSanitizer.Pass.Buffers

-- How often both sides of a slice ask for another buffer.
namespace Buffers

-- A slice with the values of its FP arguments.
structure Slice (α : Type) where
  args   : List α
  events : List (Event α)

section

variable {α : Type} (bufSize : Nat)

-- `createUpdateBlockArg1` stores the arguments without a comparison.
def Producer.pushArgs (vs : List α) (p : Producer α) : Producer α :=
  { p with
    qIdx := p.qIdx + vs.length, stores := p.stores ++ vs.mapIdx fun i v => (p.held, p.qIdx + i, v) }

namespace Slice

variable (sl : Slice α)

def produce : Option (Producer α) :=
  Buffers.produce bufSize sl.events (Producer.start.pushArgs sl.args)

-- The shadow slice is entered like any function and reads its arguments.
def shadow : List (Event α) :=
  .enter :: sl.args.map (.push <| .one ·) ++ sl.events

def consume : Consumer :=
  Buffers.consume bufSize sl.shadow .start

def values : List α :=
  sl.events.flatMap Event.values

end Slice

-- Whether a function has been entered since the last value.
def entered (l : List (Event α)) (b : Bool) : Bool :=
  l.foldl (fun
    | _, .push _ => false
    | _, .enter  => true
    | b, .leave  => b) b

-- What the arguments leave over of the first buffer does not cost the values a buffer, and no
-- function is entered behind the last value if that has filled its buffer.
structure Slice.Even (sl : Slice α) : Prop where
  args    : (sl.args.length + sl.values.length - 1) / bufSize =
            (min sl.args.length bufSize + sl.values.length - 1) / bufSize
  entered : entered sl.shadow false → bufSize ∣ sl.args.length + sl.values.length →
            sl.args.length + sl.values.length = 0

end

section

variable {α : Type} {bufSize : Nat}

namespace Producer

-- The producer has stored the arguments, however many, and then some values.
structure Turned (bufSize : Nat) (p : Producer α) (args n : Nat) : Prop extends p.Filling where
  total : Cursor.total bufSize ⟨p.held, min p.qIdx bufSize⟩ = min args bufSize + n
  pos   : 0 < p.qIdx ∨ p.held = 0

namespace Turned

variable {p : Producer α} {a n : Nat}

theorem start (vs : List α) : Turned bufSize (Producer.start.pushArgs vs) vs.length 0 where
  sliceF   := rfl
  curIndex := rfl
  total    := by simp [Producer.start, pushArgs, Cursor.total]
  pos      := .inr rfl

theorem put (h₀ : 0 < bufSize) (h : p.Turned bufSize a n) (v : α) :
    (p.put bufSize v).Turned bufSize a (n + 1) where
  sliceF   := h.sliceF
  curIndex := rfl
  total    := by
    have hi := Cursor.idx_turn (c := p.cursor) h₀
    have hm : Cursor.turn bufSize ⟨p.held, min p.qIdx bufSize⟩ = _ :=
      Cursor.turn_min (c := p.cursor)
    have ht := Cursor.total_turn (c := ⟨p.held, min p.qIdx bufSize⟩) (Nat.min_le_right _ _)
    rw [hm, h.total] at ht
    rw [← Nat.add_assoc, ← ht, ← Cursor.total_advance]
    simp only [Producer.put, Cursor.advance]
    rw [Nat.min_eq_left hi]
  pos      := .inl (Nat.succ_pos _)

theorem foldl_put (h₀ : 0 < bufSize) (h : p.Turned bufSize a n) (vs : List α) :
    (vs.foldl (Producer.put bufSize) p).Turned bufSize a (n + vs.length) := by
  induction vs generalizing p n with
  | nil => exact h
  | cons v vs ih =>
    rw [List.length_cons, Nat.add_comm vs.length, ← Nat.add_assoc]
    exact ih (h.put h₀ v)

theorem exec (h₀ : 0 < bufSize) (h : p.Turned bufSize a n) (e : Event α) :
    ∃ p', p.exec bufSize e = some p' ∧ p'.Turned bufSize a (n + e.values.length) := by
  cases e with
  | push g => exact ⟨_, g.push_eq h.toFilling, h.foldl_put h₀ g.values⟩
  | enter  => exact ⟨_, rfl, { h with curIndex := rfl }⟩
  | leave  => exact ⟨_, rfl, h⟩

theorem produce (h₀ : 0 < bufSize) (h : p.Turned bufSize a n) (l : List (Event α)) :
    ∃ p', Buffers.produce bufSize l p = some p' ∧
    p'.Turned bufSize a (n + (l.flatMap Event.values).length) := by
  induction l generalizing p n with
  | nil => exact ⟨p, rfl, h⟩
  | cons e l ih =>
    obtain ⟨p₁, he, h₁⟩ := h.exec h₀ e
    obtain ⟨p₂, hl, h₂⟩ := ih h₁
    rw [List.flatMap_cons, List.length_append, ← Nat.add_assoc]
    refine ⟨p₂, ?_, h₂⟩
    rw [Buffers.produce, List.foldlM_cons, he]
    exact hl

-- The number of switches is that of the buffers which the last value lies behind.
theorem held_eq (h₀ : 0 < bufSize) (h : p.Turned bufSize a n) :
    p.held = (min a bufSize + n - 1) / bufSize := by
  rw [← h.total]
  by_cases hq : 0 < p.qIdx
  case pos =>
    have hm : 0 < min p.qIdx bufSize := Nat.lt_min.mpr ⟨hq, h₀⟩
    exact Cursor.chunk_eq_pred (c := ⟨p.held, min p.qIdx bufSize⟩) hm (Nat.min_le_right _ _)
  case neg =>
    have hh := h.pos.resolve_left hq
    have hm : min p.qIdx bufSize - 1 < bufSize := by omega
    simp [Cursor.total, hh, Nat.div_eq_of_lt hm]

end Turned

end Producer

namespace Consumer

-- A task that has just entered a function has not used up its buffer, one that has just
-- read a value has used it.
def Fresh (bufSize : Nat) (c : Consumer) : Bool → Prop
  | true  => c.cQIdx < bufSize
  | false => 0 < c.cQIdx ∨ c.held = 0

namespace Fresh

variable {c : Consumer} {b : Bool} {n : Nat}

theorem foldl_read (h₀ : 0 < bufSize) (h : c.Placed bufSize n) (v : α) (vs : List α) :
    ((v :: vs).foldl (fun c _ => c.read bufSize) c).Fresh bufSize false := by
  induction vs generalizing c n v with
  | nil =>
    refine .inl ?_
    rw [List.foldl_cons, List.foldl_nil, read_eq h.cCurIndex]
    exact Nat.succ_pos _
  | cons w vs ih => exact ih (h.read h₀) w

theorem step (h₀ : 0 < bufSize) (hp : c.Placed bufSize n) (h : c.Fresh bufSize b) (e : Event α) :
    (c.step bufSize e).Fresh bufSize (entered [e] b) := by
  cases e with
  | push g =>
    cases g with
    | one v       => exact foldl_read h₀ hp v []
    | two u v     => exact foldl_read h₀ hp u [v]
    | three t u v => exact foldl_read h₀ hp t [u, v]
  | enter  =>
    rw [Consumer.step, enter_eq]
    exact Cursor.idx_turn h₀
  | leave  => cases b <;> exact h

theorem consume (h₀ : 0 < bufSize) (hp : c.Placed bufSize n) (h : c.Fresh bufSize b)
    (l : List (Event α)) :
    (Buffers.consume bufSize l c).Fresh bufSize (entered l b) := by
  induction l generalizing c b n with
  | nil => exact h
  | cons e l ih => exact ih (hp.step h₀ e) (h.step h₀ hp e)

-- The entry of a function takes the buffer of the next value, even if there is none.
theorem held_eq (hp : c.Placed bufSize n) (h : c.Fresh bufSize b) :
    c.held = if b then n / bufSize else (n - 1) / bufSize := by
  rw [← hp.total]
  cases b with
  | true  => exact Cursor.chunk_eq (c := c.cursor) h
  | false =>
    by_cases hq : 0 < c.cQIdx
    case pos => exact Cursor.chunk_eq_pred (c := c.cursor) hq hp.cQIdx_le
    case neg =>
      have hh := h.resolve_left hq
      simp [Cursor.total, cursor, hh, Nat.eq_zero_of_not_pos hq]

end Fresh

end Consumer

namespace Slice

variable (sl : Slice α)

theorem values_shadow :
    (sl.shadow.flatMap Event.values).length = sl.args.length + sl.values.length := by
  have ha : (sl.args.map fun v => Event.push (.one v)).flatMap Event.values = sl.args := by
    induction sl.args with
    | nil => rfl
    | cons v vs ih => simpa [Event.values, Group.values] using ih
  simp [shadow, values, Event.values, ha]

theorem held_consume (h₀ : 0 < bufSize) :
    (sl.consume bufSize).held =
      let n := sl.args.length + sl.values.length
      if entered sl.shadow false then n / bufSize else (n - 1) / bufSize := by
  have hp := Consumer.Placed.start.consume h₀ sl.shadow
  have hf := Consumer.Fresh.consume h₀ .start (b := false) (.inr rfl) sl.shadow
  rw [Nat.zero_add, values_shadow] at hp
  exact hf.held_eq hp

end Slice

end

end Buffers
