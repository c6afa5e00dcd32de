import Mathlib.Data.List.Induction
import Mathlib.Logic.Function.Basic

-- Straight-line code in which each instruction assigns a variable of its own and reads only
-- variables that are assigned before.
namespace SingleAssignment

variable {K I V : Type} (key : I → K)

structure Ordered (reads : I → K → Prop) (l : List I) : Prop where
  pairwise : l.Pairwise fun x y => key x ≠ key y ∧ ¬reads x (key y)
  irrefl   : ∀ x ∈ l, ¬reads x (key x)

variable {key} {reads : I → K → Prop} {f g : (K → V) → I → V} {env : K → V} {l : List I}

-- The value of an instruction depends on the variables that it reads.
def Local (reads : I → K → Prop) (f : (K → V) → I → V) : Prop :=
  ∀ {env env' x}, (∀ k, reads x k → env k = env' k) → f env x = f env' x

namespace Ordered

theorem init {x : I} (h : Ordered key reads (l ++ [x])) : Ordered key reads l where
  pairwise   := (List.pairwise_append.mp h.pairwise).left
  irrefl y m := h.irrefl y (List.mem_append_left _ m)

theorem last {x : I} (h : Ordered key reads (l ++ [x])) :
    ∀ y ∈ l, key y ≠ key x ∧ ¬reads y (key x) :=
  fun y m => (List.pairwise_append.mp h.pairwise).right.right y m x (List.mem_singleton_self x)

end Ordered

variable [DecidableEq K]

def eval (key : I → K) (f : (K → V) → I → V) (env : K → V) (l : List I) : K → V :=
  l.foldl (fun env x => Function.update env (key x) (f env x)) env

@[simp]
theorem eval_nil : eval key f env [] = env := rfl

theorem eval_concat {x : I} :
    eval key f env (l ++ [x]) = Function.update (eval key f env l) (key x)
      (f (eval key f env l) x) := by
  simp [eval]

theorem eval_concat_of_ne {x : I} {k : K} (h : k ≠ key x) :
    eval key f env (l ++ [x]) k = eval key f env l k := by
  rw [eval_concat, Function.update_of_ne h]

-- An assignment does not change what an instruction reads that comes before it or makes it.
theorem Local.eval_concat {x y : I} (hf : Local reads f) (h : ¬reads y (key x)) :
    f (eval key g env (l ++ [x])) y = f (eval key g env l) y := by
  apply hf
  intro k hk
  apply eval_concat_of_ne
  intro hn
  exact h (hn ▸ hk)

-- The values at the end satisfy the equation of every instruction.
theorem eval_key (hf : Local reads f) (ho : Ordered key reads l) :
    ∀ x ∈ l, eval key f env l (key x) = f (eval key f env l) x := by
  induction l using List.reverseRecOn with
  | nil => exact fun _ h => nomatch h
  | append_singleton l x ih =>
    intro y hy
    rw [List.mem_append, List.mem_singleton] at hy
    cases hy with
    | inl hy =>
      have ⟨hn, hr⟩ := ho.last y hy
      rw [eval_concat_of_ne hn, hf.eval_concat hr, ih ho.init y hy]
    | inr hy =>
      subst hy
      rw [hf.eval_concat (ho.irrefl y (by simp)), eval_concat, Function.update_self]

-- Values are determined by the equations of the instructions.
theorem eval_congr (hf : Local reads f) (hg : Local reads g) (ho : Ordered key reads l)
    (h : ∀ x ∈ l, g (eval key f env l) x = f (eval key f env l) x) :
    eval key g env l = eval key f env l := by
  induction l using List.reverseRecOn with
  | nil => rfl
  | append_singleton l x ih =>
    have hl : eval key g env l = eval key f env l := by
      apply ih ho.init
      intro y hy
      have hr := (ho.last y hy).right
      have he := h y (List.mem_append_left _ hy)
      rwa [hg.eval_concat hr, hf.eval_concat hr] at he
    have hr := ho.irrefl x (by simp)
    have he := h x (by simp)
    rw [hg.eval_concat hr, hf.eval_concat hr] at he
    rw [eval_concat, eval_concat, hl, he]

end SingleAssignment
