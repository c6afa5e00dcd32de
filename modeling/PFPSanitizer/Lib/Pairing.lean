import Mathlib.Data.List.Basic

-- Two streams that are written side by side, one of which may run ahead of the other.
namespace Pairing

-- A step writes to both streams, to the first or to the second.
inductive Step (ε : Type*)
  | both (e : ε)
  | first (e : ε)
  | second (e : ε)

variable {ε : Type*}

def Step.map {δ : Type*} (f : ε → δ) : Step ε → Step δ
  | both e   => both (f e)
  | first e  => first (f e)
  | second e => second (f e)

namespace Step

variable {δ : Type*} {f : ε → δ} {a : Step ε} {e : δ}

theorem map_eq_both : a.map f = .both e ↔ ∃ d, a = .both d ∧ f d = e := by
  cases a <;> simp [map]

theorem map_eq_first : a.map f = .first e ↔ ∃ d, a = .first d ∧ f d = e := by
  cases a <;> simp [map]

theorem map_eq_second : a.map f = .second e ↔ ∃ d, a = .second d ∧ f d = e := by
  cases a <;> simp [map]

end Step

def firsts : List (Step ε) → List ε
  | []                              => []
  | .both e :: l | .first e :: l    => e :: firsts l
  | .second _ :: l                  => firsts l

def seconds : List (Step ε) → List ε
  | []                              => []
  | .both e :: l | .second e :: l   => e :: seconds l
  | .first _ :: l                   => seconds l

@[simp]
theorem firsts_append (l l' : List (Step ε)) : firsts (l ++ l') = firsts l ++ firsts l' := by
  induction l with
  | nil         => rfl
  | cons a l ih => cases a <;> simp [firsts, ih]

@[simp]
theorem seconds_append (l l' : List (Step ε)) : seconds (l ++ l') = seconds l ++ seconds l' := by
  induction l with
  | nil         => rfl
  | cons a l ih => cases a <;> simp [seconds, ih]

theorem firsts_flatMap {δ : Type*} (f : δ → List (Step ε)) (l : List δ) :
    firsts (l.flatMap f) = l.flatMap fun d => firsts (f d) := by
  induction l with
  | nil         => rfl
  | cons a l ih => simp [ih]

theorem seconds_flatMap {δ : Type*} (f : δ → List (Step ε)) (l : List δ) :
    seconds (l.flatMap f) = l.flatMap fun d => seconds (f d) := by
  induction l with
  | nil         => rfl
  | cons a l ih => simp [ih]

@[simp]
theorem firsts_map {δ : Type*} (f : ε → δ) (l : List (Step ε)) :
    firsts (l.map (.map f)) = (firsts l).map f := by
  induction l with
  | nil         => rfl
  | cons a l ih => cases a <;> simp [firsts, Step.map, ih]

@[simp]
theorem seconds_map {δ : Type*} (f : ε → δ) (l : List (Step ε)) :
    seconds (l.map (.map f)) = (seconds l).map f := by
  induction l with
  | nil         => rfl
  | cons a l ih => cases a <;> simp [seconds, Step.map, ih]

@[simp]
theorem firsts_map_both (l : List ε) : firsts (l.map .both) = l := by
  induction l with
  | nil         => rfl
  | cons a l ih => simp [firsts, ih]

@[simp]
theorem seconds_map_both (l : List ε) : seconds (l.map .both) = l := by
  induction l with
  | nil         => rfl
  | cons a l ih => simp [seconds, ih]

@[simp]
theorem firsts_map_first (l : List ε) : firsts (l.map .first) = l := by
  induction l with
  | nil         => rfl
  | cons a l ih => simp [firsts, ih]

@[simp]
theorem seconds_map_first (l : List ε) : seconds (l.map .first) = [] := by
  induction l with
  | nil         => rfl
  | cons a l ih => simp [seconds, ih]

-- The first stream catches up with the entries that the second is ahead, in their order and before
-- anything is written to both.
def Paired : List ε → List (Step ε) → Prop
  | q, []             => q = []
  | q, .both _ :: l   => q = [] ∧ Paired [] l
  | q, .second e :: l => Paired (q ++ [e]) l
  | q, .first e :: l  => ∃ q', q = e :: q' ∧ Paired q' l

theorem paired_of_both {l : List (Step ε)} (h : ∀ a ∈ l, ∃ e, a = .both e) : Paired [] l := by
  induction l with
  | nil         => rfl
  | cons a l ih =>
    obtain ⟨e, rfl⟩ := h a (.head _)
    exact ⟨rfl, ih fun b hb => h b (.tail _ hb)⟩

-- What is written to both is not written to the second alone, and what the first stream has written
-- alone the second does not write alone any more.
structure Separate (l : List (Step ε)) : Prop where
  both  : ∀ e, .both e ∈ l → .second e ∉ l
  order : l.Pairwise fun x y => ∀ e, x = .first e → y ≠ .second e

namespace Separate

variable {a : Step ε} {l : List (Step ε)}

theorem tail (h : Separate (a :: l)) : Separate l where
  both e he hs := h.both e (.tail _ he) (.tail _ hs)
  order        := h.order.of_cons

-- The second stream never catches up.
theorem seconds_ne {w : List ε} (h : Separate l) (hw : w ≠ []) (hn : ∀ e ∈ w, .second e ∉ l) :
    seconds l ≠ w ++ firsts l := by
  induction l generalizing w with
  | nil => simpa [seconds, firsts] using fun he => hw he
  | cons a l ih =>
    match w, hw with
    | e :: w, _ =>
      have hn' : ∀ e' ∈ w, .second e' ∉ l := fun e' he hs => hn e' (.tail _ he) (.tail _ hs)
      cases a with
      | both f =>
        intro hc
        have ⟨hf, he⟩ := List.cons.inj hc
        subst hf
        refine ih h.tail (w := w ++ [f]) (by simp) (fun e' he' => ?_) (by simpa [firsts] using he)
        simp only [List.mem_append, List.mem_singleton] at he'
        cases he' with
        | inl he'  => exact hn' e' he'
        | inr he'  => exact fun hs => hn f (.head _) (.tail _ (he' ▸ hs))
      | second f =>
        intro he
        have ⟨hf, _⟩ := List.cons.inj he
        exact hn e (.head _) (by simp [hf])
      | first f =>
        intro he
        refine ih h.tail (w := e :: w ++ [f]) (by simp) (fun e' he' => ?_)
          (by simpa [seconds, firsts] using he)
        simp only [List.mem_append, List.mem_singleton] at he'
        cases he' with
        | inl he' => exact fun hs => hn e' he' (.tail _ hs)
        | inr he' =>
          subst he'
          exact fun hs => List.rel_of_pairwise_cons h.order hs e' rfl rfl

theorem append_seconds_iff {q : List ε} (h : Separate l) (hq : ∀ e ∈ q, .both e ∉ l) :
    q ++ seconds l = firsts l ↔ Paired q l := by
  induction l generalizing q with
  | nil => simp [seconds, firsts, Paired]
  | cons a l ih =>
    have hq' : ∀ e ∈ q, .both e ∉ l := fun e he hb => hq e he (.tail _ hb)
    cases a with
    | both e =>
      cases q with
      | nil       => simpa [seconds, firsts, Paired] using ih h.tail (q := []) (by simp)
      | cons f q' =>
        have hf : f ≠ e := fun he => hq f (.head _) (he ▸ .head _)
        simp [seconds, firsts, Paired, hf]
    | second e =>
      have he : ∀ e' ∈ q ++ [e], .both e' ∉ l := by
        intro e' he' hb
        simp only [List.mem_append, List.mem_singleton] at he'
        cases he' with
        | inl he' => exact hq' e' he' hb
        | inr he' => exact h.both e' (.tail _ hb) (he' ▸ .head _)
      simpa [seconds, firsts, Paired] using ih h.tail he
    | first e =>
      cases q with
      | nil =>
        have hn := h.tail.seconds_ne (w := [e]) (by simp) fun e' he' hs =>
          List.rel_of_pairwise_cons h.order hs e' (by simp [List.mem_singleton.mp he']) rfl
        simpa [seconds, firsts, Paired] using hn
      | cons f q' =>
        have hi := ih h.tail (q := q') fun e' he' => hq' e' (.tail _ he')
        simp [seconds, firsts, Paired, hi]

-- The two streams agree if and only if the first catches up in time.
theorem eq_iff (h : Separate l) : firsts l = seconds l ↔ Paired [] l :=
  eq_comm.trans <| h.append_seconds_iff (q := []) (by simp)

end Separate

end Pairing
