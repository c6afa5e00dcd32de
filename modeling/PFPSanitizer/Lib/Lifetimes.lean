import Mathlib.Data.List.Nodup
import Mathlib.Data.List.Perm.Subperm
import Mathlib.Logic.Function.Basic

-- Objects that are to be created once, and before they are used.
namespace Lifetimes

inductive Event (ι : Type*)
  | create (i : ι)
  | use (i : ι)
deriving DecidableEq

variable {ι : Type*} {log log' l₁ l₂ : List (Event ι)} {i : ι}

-- What is created, in this order.
def created : List (Event ι) → List ι
  | []             => []
  | .create i :: l => i :: created l
  | .use _ :: l    => created l

theorem created_append (l₁ l₂ : List (Event ι)) :
    created (l₁ ++ l₂) = created l₁ ++ created l₂ := by
  induction l₁ with
  | nil         => rfl
  | cons e l ih =>
    cases e with
    | create i => exact congrArg (i :: ·) ih
    | use i    => exact ih

structure Disciplined (log : List (Event ι)) : Prop where
  once   : (created log).Nodup
  before : ∀ l₁ i l₂, log = l₁ ++ .use i :: l₂ → i ∈ created l₁

theorem Disciplined.nil : Disciplined ([] : List (Event ι)) where
  once            := List.nodup_nil
  before _ _ _ h  := absurd h (by simp)

-- One more event, which may be a use of what has been created.
theorem Disciplined.concat (h : Disciplined log) {e : Event ι} (ho : (created (log ++ [e])).Nodup)
    (hb : ∀ i, e = .use i → i ∈ created log) : Disciplined (log ++ [e]) where
  once := ho
  before l₁ i l₂ hl := by
    obtain rfl | ⟨l₂, e', rfl⟩ := l₂.eq_nil_or_concat
    · obtain ⟨rfl, he⟩ := List.append_inj' hl rfl
      exact hb i (List.singleton_inj.mp he)
    · rw [List.concat_eq_append, ← List.cons_append, ← List.append_assoc] at hl
      exact h.before l₁ i l₂ (List.append_inj' hl rfl).left

theorem Disciplined.create (h : Disciplined log) (hi : i ∉ created log) :
    Disciplined (log ++ [.create i]) := by
  refine h.concat ?_ fun _ he => by cases he
  rw [created_append]
  refine List.nodup_append.mpr ⟨h.once, List.nodup_singleton i, ?_⟩
  rintro a ha b hb rfl
  exact hi (List.mem_singleton.mp hb ▸ ha)

theorem Disciplined.use (h : Disciplined log) (hi : i ∈ created log) :
    Disciplined (log ++ [.use i]) := by
  refine h.concat ?_ fun j he => by cases he; exact hi
  rw [created_append]
  simpa [created] using h.once

-- What has been created must not be created again.
theorem not_once (hi : i ∈ created log) : ¬(created (log ++ .create i :: log')).Nodup := by
  rw [created_append]
  intro h
  exact (List.nodup_append.mp h).right.right i hi i List.mem_cons_self rfl

-- There are no more objects than there are names.
theorem Disciplined.length_created_le (h : Disciplined log) {all : List ι}
    (ha : ∀ i ∈ created log, i ∈ all) :
    (created log).length ≤ all.length :=
  (List.subperm_of_subset h.once ha).length_le

-- An object is created unless its flag is set.
def ensure (flag : Bool) (i : ι) : List (Event ι) :=
  if flag then [] else [.create i]

-- The flags that are set are those of the objects that have been created.
structure Tracks (flag : ι → Bool) (log : List (Event ι)) : Prop extends Disciplined log where
  flags : ∀ i, flag i ↔ i ∈ created log

section Tracks

variable {flag flag' : ι → Bool}

theorem Tracks.nil : Tracks (fun _ : ι => false) [] :=
  { Disciplined.nil with flags := fun _ => by simp [created] }

theorem mem_created_ensure (hf : flag i ↔ i ∈ created log) :
    i ∈ created (log ++ ensure (flag i) i) := by
  rw [ensure, created_append]
  split
  case isTrue h => exact List.mem_append_left _ (hf.mp h)
  case isFalse  => exact List.mem_append_right _ List.mem_cons_self

theorem Tracks.ensure [DecidableEq ι] (h : Tracks flag log) :
    Tracks (Function.update flag i true) (log ++ ensure (flag i) i) := by
  by_cases hf : flag i
  case pos =>
    have hu : Function.update flag i true = flag := by rw [← hf, Function.update_eq_self]
    rw [hu, Lifetimes.ensure, if_pos hf, List.append_nil]
    exact h
  case neg =>
    rw [Lifetimes.ensure, if_neg hf]
    refine { h.create (mt (h.flags i).mpr hf) with flags := fun j => ?_ }
    rw [created_append, List.mem_append, ← h.flags j]
    by_cases hj : j = i
    · simp [hj, created]
    · simp [hj, created]

theorem Tracks.use (h : Tracks flag log) (hi : flag i) : Tracks flag (log ++ [.use i]) :=
  { h.toDisciplined.use ((h.flags i).mp hi) with
    flags := fun j => by rw [created_append, List.mem_append, ← h.flags j]; simp [created] }

-- An object is used after it has been ensured that it exists.
theorem Tracks.ensure_use [DecidableEq ι] (h : Tracks flag log) :
    Tracks (Function.update flag i true) (log ++ (Lifetimes.ensure (flag i) i ++ [.use i])) := by
  rw [← List.append_assoc]
  exact h.ensure.use (Function.update_self ..)

end Tracks

end Lifetimes
