import Mathlib.Data.List.Induction
import Mathlib.Logic.Function.Basic

-- Copies between variables that run one after the other, and when they amount to one parallel
-- assignment.
structure Copy (K : Type*) where
  src : Option K
  dst : K

namespace Copy

variable {K V : Type*}

-- Each target has the value that its source had before all of the copies.
def Parallel (env : K → Option V) (l : List (Copy K)) (env' : K → Option V) : Prop :=
  ∀ c ∈ l, ∀ k ∈ c.src, env' c.dst = env k

-- No copy reads what an earlier one has changed.
structure Independent (env : K → Option V) (l : List (Copy K)) : Prop where
  written  : ∀ c ∈ l, ∀ k ∈ c.src, (env k).isSome
  pairwise : l.Pairwise fun c d => c.dst ∈ d.src → ∀ k ∈ c.src, env k = env c.dst

variable {env env' : K → Option V} {l : List (Copy K)} {c : Copy K}

namespace Independent

theorem init (h : Independent env (l ++ [c])) : Independent env l where
  written d hd := h.written d (List.mem_append_left _ hd)
  pairwise     := (List.pairwise_append.mp h.pairwise).left

theorem last (h : Independent env (l ++ [c])) :
    ∀ d ∈ l, d.dst ∈ c.src → ∀ k ∈ d.src, env k = env d.dst :=
  fun d hd => (List.pairwise_append.mp h.pairwise).right.right d hd c (List.mem_singleton_self c)

end Independent

variable [DecidableEq K]

-- Variables without a value cannot be copied. A copy without a source does nothing.
def run (env : K → Option V) (c : Copy K) : Option (K → Option V) :=
  match c.src with
  | none   => some env
  | some k => env k |>.map fun v => Function.update env c.dst (some v)

theorem foldlM_concat : (l ++ [c]).foldlM run env = (l.foldlM run env).bind (run · c) := by
  simp [List.foldlM_append]

theorem run_of_ne (h : run env c = some env') {k : K} (hk : k = c.dst → c.src = none) :
    env' k = env k := by
  rw [run] at h
  split at h
  case h_1 => cases h; rfl
  case h_2 k' hs =>
    obtain ⟨v, _, rfl⟩ := Option.map_eq_some_iff.mp h
    exact Function.update_of_ne (fun he => by simp [hk he] at hs) _ _

theorem run_dst (h : run env c = some env') {k : K} (hk : k ∈ c.src) :
    (env k).isSome ∧ env' c.dst = env k := by
  rw [run, Option.mem_def.mp hk] at h
  obtain ⟨v, hv, rfl⟩ := Option.map_eq_some_iff.mp h
  simp [hv]

-- Induction from the last copy. What it reads is as before all of them, although it may have been
-- overwritten with the same value.
theorem Independent.parallel (hn : (l.map dst).Nodup) (h : Independent env l) :
    ∃ env', l.foldlM run env = some env' ∧ Parallel env l env' ∧
      ∀ k, (∀ c ∈ l, k = c.dst → c.src = none) → env' k = env k := by
  induction l using List.reverseRecOn with
  | nil => exact ⟨env, rfl, by simp [Parallel], fun _ _ => rfl⟩
  | append_singleton l c ih =>
    rw [List.map_append, List.nodup_append] at hn
    obtain ⟨hn, _, hne⟩ := hn
    obtain ⟨env', he, hp, hf⟩ := ih hn h.init
    have hr : ∀ k ∈ c.src, env' k = env k := by
      intro k hk
      by_cases hc : ∀ d ∈ l, k = d.dst → d.src = none
      case pos => exact hf k hc
      case neg =>
        simp only [not_forall] at hc
        obtain ⟨d, hd, rfl, hs⟩ := hc
        obtain ⟨q, hq⟩ := Option.ne_none_iff_exists'.mp hs
        rw [hp d hd q hq]
        exact h.last d hd hk q hq
    have hs : ∃ env'', run env' c = some env'' := by
      rw [run]
      split
      case h_1 => exact ⟨_, rfl⟩
      case h_2 k hk =>
        obtain ⟨v, hv⟩ := Option.isSome_iff_exists.mp (h.written c (by simp) k hk)
        exact ⟨_, by rw [hr k hk, hv]; rfl⟩
    obtain ⟨env'', hs⟩ := hs
    refine ⟨env'', by rw [foldlM_concat, he]; exact hs, ?_, ?_⟩
    · intro d hd k hk
      rw [List.mem_append, List.mem_singleton] at hd
      cases hd with
      | inl hl =>
        have hdc : d.dst ≠ c.dst := hne d.dst (List.mem_map_of_mem hl) c.dst (by simp)
        rw [run_of_ne hs fun he => absurd he hdc]
        exact hp d hl k hk
      | inr hc =>
        subst hc
        rw [(run_dst hs hk).right, hr k hk]
    · intro k hk
      rw [run_of_ne hs (hk c (by simp))]
      exact hf k fun d hd => hk d (List.mem_append_left _ hd)

-- With different targets, that the copies are independent is all that it takes.
theorem parallel_iff (hn : (l.map dst).Nodup) :
    (∃ env', l.foldlM run env = some env' ∧ Parallel env l env') ↔ Independent env l := by
  constructor
  case mpr =>
    intro h
    obtain ⟨env', he, hp, _⟩ := h.parallel hn
    exact ⟨env', he, hp⟩
  case mp =>
    induction l using List.reverseRecOn with
    | nil => exact fun _ => ⟨by simp, .nil⟩
    | append_singleton l c ih =>
      rintro ⟨env'', he, hp⟩
      rw [List.map_append, List.nodup_append] at hn
      obtain ⟨hn, _, hne⟩ := hn
      rw [foldlM_concat] at he
      obtain ⟨env', he, hs⟩ := Option.bind_eq_some_iff.mp he
      have hl : Parallel env l env' := by
        intro d hl k hk
        have hdc : d.dst ≠ c.dst := hne d.dst (List.mem_map_of_mem hl) c.dst (by simp)
        rw [← run_of_ne hs fun he => absurd he hdc]
        exact hp d (List.mem_append_left _ hl) k hk
      have hi := ih hn ⟨env', he, hl⟩
      -- The last copy takes what its source held at first.
      have hc : ∀ k ∈ c.src, (env k).isSome ∧ env' k = env k := by
        intro k hk
        obtain ⟨hv, hk'⟩ := run_dst hs hk
        have hp := hk' ▸ hp c (by simp) k hk
        exact ⟨hp ▸ hv, hp⟩
      refine ⟨?_, List.pairwise_append.mpr ⟨hi.pairwise, List.pairwise_singleton .., ?_⟩⟩
      · intro d hd k hk
        rw [List.mem_append, List.mem_singleton] at hd
        cases hd with
        | inl hd => exact hi.written d hd k hk
        | inr hd => subst hd; exact (hc k hk).left
      · intro d hd c' hc' hk q hq
        obtain rfl := List.mem_singleton.mp hc'
        rw [← hl d hd q hq]
        exact (hc _ hk).right

end Copy
