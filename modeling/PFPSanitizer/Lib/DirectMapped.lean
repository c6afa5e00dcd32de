import Mathlib.Data.Set.Function
import Mathlib.Logic.Function.Basic

-- Tables in which every key has a slot and nothing tells the keys of a slot apart.
namespace DirectMapped

variable {κ ι α β : Type*} {slot : κ → ι} {keys : Set κ} {view : α → β} {table : ι → α}
  {map : κ → β}

-- What a table shows for the keys of a set is what a map without slots has for them.
def Agree (slot : κ → ι) (keys : Set κ) (view : α → β) (table : ι → α) (map : κ → β) : Prop :=
  ∀ k ∈ keys, view (table (slot k)) = map k

theorem Agree.update [DecidableEq ι] [DecidableEq κ] (h : Agree slot keys view table map)
    (hi : Set.InjOn slot keys) {k : κ} (hk : k ∈ keys) {a : α} {b : β} (hv : view a = b) :
    Agree slot keys view (Function.update table (slot k) a) (Function.update map k b) := by
  intro l hl
  by_cases hlk : l = k
  case pos => rw [hlk, Function.update_self, Function.update_self, hv]
  case neg =>
    have hne : slot l ≠ slot k := fun he => hlk (hi hl hk he)
    rw [Function.update_of_ne hne, Function.update_of_ne hlk]
    exact h l hl

end DirectMapped
