import Mathlib.Logic.Function.Basic

-- A machine whose parties `π` take steps in any order. A step of a party that waits is `none`.
structure Machine (σ : Type*) (π : Type*) where
  init : σ
  step : π → σ → Option σ

namespace Machine

-- An interleaving of the parties from the initial state, indexed by the state it ends in.
inductive Run {σ π : Type*} (M : Machine σ π) : σ → Type _
  | init : Run M M.init
  | step {s s' : σ} (r : Run M s) (p : π) (h : M.step p s = some s') : Run M s'

variable {σ π τ ρ : Type*} {M : Machine σ π}

def Reachable (M : Machine σ π) (s : σ) : Prop :=
  Nonempty (M.Run s)

theorem Reachable.step {p : π} {s s' : σ} (h : M.Reachable s) (e : M.step p s = some s') :
    M.Reachable s' :=
  have ⟨r⟩ := h
  ⟨.step r p e⟩

namespace Run

-- `P` holds in every state that the run goes through, its end included.
def Always (P : σ → Prop) {s : σ} : M.Run s → Prop
  | init                     => P M.init
  | @step _ _ _ _ s' r _ _   => r.Always P ∧ P s'

-- `C` holds of every step of the run: of the party and the state it finds.
def Each (C : π → σ → Prop) {s : σ} : M.Run s → Prop
  | init                     => True
  | @step _ _ _ s _ r p _    => r.Each C ∧ C p s

-- The parties whose steps meet `C`, the last one first.
def parties (C : π → σ → Bool) {s : σ} : M.Run s → List π
  | init                   => []
  | @step _ _ _ s _ r p _  => if C p s then p :: r.parties C else r.parties C

theorem exists_of_mem_parties {C : π → σ → Bool} {s : σ} {r : M.Run s} {p : π}
    (h : p ∈ r.parties C) :
    ∃ s, C p s := by
  induction r with
  | init          => cases h
  | step r q e ih =>
    rw [parties] at h
    split at h
    case isTrue hc =>
      obtain he | hm := List.mem_cons.mp h
      · exact ⟨_, he ▸ hc⟩
      · exact ih hm
    case isFalse => exact ih h

theorem count_parties [DecidableEq π] {C : π → σ → Bool} {s s' : σ} (r : M.Run s) (p : π)
    (e : M.step p s = some s') (q : π) :
    (Run.step r p e |>.parties C).count q = (r.parties C).count q + if C p s ∧
    p = q then 1 else 0 := by
  rw [parties]
  split <;> simp_all [List.count_cons]

theorem length_parties {C : π → σ → Bool} {s s' : σ} (r : M.Run s) (p : π)
    (e : M.step p s = some s') :
    (Run.step r p e |>.parties C).length = (r.parties C).length + if C p s then 1 else 0 := by
  rw [parties]
  split <;> simp_all

theorem Always.last {P : σ → Prop} {s : σ} {r : M.Run s} (h : r.Always P) : P s := by
  cases r with
  | init       => exact h
  | step r p e => exact h.right

theorem Always.mono {P Q : σ → Prop} (hi : ∀ s, P s → Q s) {s : σ} {r : M.Run s}
    (h : r.Always P) : r.Always Q := by
  induction r with
  | init            => exact hi _ h
  | step r p e ih   => exact ⟨ih h.left, hi _ h.right⟩

theorem Always.and {P Q : σ → Prop} {s : σ} {r : M.Run s} (h : r.Always P) (h' : r.Always Q) :
    r.Always fun s => P s ∧ Q s := by
  induction r with
  | init            => exact ⟨h, h'⟩
  | step r p e ih   => exact ⟨ih h.left h'.left, h.right, h'.right⟩

-- What every reachable state satisfies may be assumed of the states that a run goes through.
theorem Each.of_reachable {C : π → σ → Prop} (hc : ∀ p s, M.Reachable s → C p s) {s : σ} :
    (r : M.Run s) → r.Each C
  | init       => trivial
  | step r p _ => ⟨of_reachable hc r, hc p _ ⟨r⟩⟩

theorem Always.each {I : σ → Prop} {C : π → σ → Prop} (hc : ∀ p s, I s → C p s) {s : σ}
    {r : M.Run s} (h : r.Always I) : r.Each C := by
  induction r with
  | init            => trivial
  | step r p e ih   => exact ⟨ih h.left, hc p _ h.left.last⟩

-- The rule for invariants that are kept as long as every step meets a condition.
theorem Each.invariant {I : σ → Prop} {C : π → σ → Prop} (h₀ : I M.init)
    (hs : ∀ {p s s'}, M.Reachable s → I s → C p s → M.step p s = some s' → I s') {s : σ}
    {r : M.Run s} (h : r.Each C) : r.Always I := by
  induction r with
  | init           => exact h₀
  | step r p e ih  =>
    have hi := ih h.left
    exact ⟨hi, hs ⟨r⟩ hi.last h.right e⟩

-- A run keeps `P` exactly if all its steps meet `C`, when `P` follows from an invariant that the
-- steps with `C` keep and any other step breaks `P` at once.
theorem always_iff_each {I P : σ → Prop} {C : π → σ → Prop} (h₀ : I M.init)
    (hP : ∀ {s}, M.Reachable s → I s → P s)
    (hs : ∀ {p s s'}, M.Reachable s → I s → C p s → M.step p s = some s' → I s')
    (hn : ∀ {p s s'}, M.Reachable s → I s → ¬C p s → M.step p s = some s' → ¬P s') {s : σ}
    (r : M.Run s) : r.Always P ↔ r.Each C := by
  constructor
  case mpr =>
    intro h
    refine Each.invariant (I := fun s => I s ∧ P s) ⟨h₀, hP ⟨.init⟩ h₀⟩ ?_ h
      |>.mono fun _ => And.right
    intro p s s' hr hi hc e
    have hi' := hs hr hi.left hc e
    exact ⟨hi', hP (hr.step e) hi'⟩
  case mp =>
    intro h
    induction r with
    | init          => trivial
    | step r p e ih =>
      have hc := ih h.left
      have hi := (Each.invariant h₀ hs hc).last
      exact ⟨hc, by_contra fun hn' => hn ⟨r⟩ hi hn' e h.right⟩

-- The same for a property of the steps.
theorem each_iff_each {I : σ → Prop} {Q C : π → σ → Prop} (h₀ : I M.init)
    (hq : ∀ {p s}, I s → C p s → Q p s) (hs : ∀ {p s s'}, I s → C p s → M.step p s = some s' → I s')
    (hn : ∀ {p s s'}, I s → M.step p s = some s' → Q p s → C p s) {s : σ} (r : M.Run s) :
    r.Each Q ↔ r.Each C := by
  constructor
  case mpr =>
    intro h
    have hi := Each.invariant h₀ (fun _ => hs) h
    induction r with
    | init          => trivial
    | step r p e ih => exact ⟨ih h.left hi.left, hq hi.left.last h.right⟩
  case mp =>
    intro h
    induction r with
    | init          => trivial
    | step r p e ih =>
      have hc := ih h.left
      exact ⟨hc, hn (Each.invariant h₀ (fun _ => hs) hc).last e h.right⟩

end Run

-- The rule for invariants.
theorem Reachable.invariant {I : σ → Prop} (h₀ : I M.init)
    (hs : ∀ {p s s'}, M.Reachable s → I s → M.step p s = some s' → I s') {s : σ}
    (h : M.Reachable s) : I s := by
  have ⟨r⟩ := h
  exact Run.Each.invariant (C := fun _ _ => True) h₀ (fun hr hi _ => hs hr hi)
    (Run.Each.of_reachable (fun _ _ _ => trivial) r) |>.last

-- The steps of a schedule, one after the other.
def exec (M : Machine σ π) : List π → σ → Option σ
  | [], s      => some s
  | p :: ps, s => M.step p s |>.bind (M.exec ps)

theorem exists_run_of_exec {ps : List π} {s s' : σ} (r : M.Run s) (h : M.exec ps s = some s') :
    Nonempty (M.Run s') := by
  induction ps generalizing s with
  | nil => cases h; exact ⟨r⟩
  | cons p ps ih =>
    have ⟨m, e, hm⟩ := Option.bind_eq_some_iff.mp h
    exact ih (.step r p e) hm

-- Two machines that go step by step in lockstep, on the steps that meet a condition.
theorem exec_rel {N : Machine τ π} {R : σ → τ → Prop} {C : π → Prop}
    (hs : ∀ {p s t}, C p → R s t → Option.Rel R (M.step p s) (N.step p t)) {ps : List π}
    (hc : ∀ p ∈ ps, C p) {s : σ} {t : τ} (h : R s t) :
    Option.Rel R (M.exec ps s) (N.exec ps t) := by
  induction ps generalizing s t with
  | nil           => exact .some h
  | cons p ps ih  =>
    obtain ⟨hp, hps⟩ := List.forall_mem_cons.mp hc
    have h₁ := hs hp h
    simp only [exec]
    cases hM : M.step p s with
    | none    =>
      rw [hM] at h₁
      cases hN : N.step p t with
      | none    => exact .none
      | some t' => rw [hN] at h₁; cases h₁
    | some s' =>
      rw [hM] at h₁
      cases hN : N.step p t with
      | none    => rw [hN] at h₁; cases h₁
      | some t' =>
        rw [hN] at h₁
        cases h₁ with
        | some h₂ => exact ih hps h₂

theorem map_exec_eq {N : Machine τ π} {R : σ → τ → Prop} {C : π → Prop}
    (hs : ∀ {p s t}, C p → R s t → Option.Rel R (M.step p s) (N.step p t)) {ps : List π}
    (hc : ∀ p ∈ ps, C p) {s : σ} {t : τ} (h : R s t) {f : σ → ρ} {g : τ → ρ}
    (hf : ∀ {s t}, R s t → f s = g t) :
    (M.exec ps s).map f = (N.exec ps t).map g := by
  generalize hM : M.exec ps s = o, hN : N.exec ps t = o'
  cases hM ▸ hN ▸ exec_rel hs hc h with
  | none    => rfl
  | some hr => exact congrArg some (hf hr)

-- The state that a schedule leads to from the initial state.
def after (M : Machine σ π) (ps : List π) (h : M.exec ps M.init |>.isSome) : σ :=
  M.exec ps M.init |>.get h

theorem reachable_after (M : Machine σ π) (ps : List π) (h : M.exec ps M.init |>.isSome) :
    M.Reachable (M.after ps h) :=
  exists_run_of_exec .init (Option.some_get h).symm

end Machine
