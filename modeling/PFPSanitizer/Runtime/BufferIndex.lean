import PFPSanitizer.Runtime.Progress

namespace Queues

variable {T : Nat} {numQueues : Nat} {slices : List Slice}

-- The task whose shadow function a worker executes.
def WorkerPc.active? : WorkerPc → Option Task
  | .run k | .pop k => some k
  | _               => none

theorem WorkerPc.Idle.active?_eq_none {pc : WorkerPc} (h : pc.Idle) : pc.active? = none := by
  cases pc <;> simp_all [Idle, active?]

-- The tasks use the per-buffer metadata of their own index, which is initialised, and of no other.
structure MetadataSafe (s : State T) : Prop where
  same        : ∀ t k, (s.workers t).pc.active? = some k → ∀ b ∈ k.indices, b = k.arg
  initialised : ∀ t k, (s.workers t).pc.active? = some k → ∀ b ∈ k.indices, s.initFlag b = true
  apart       : ∀ t u k k', u ≠ t → (s.workers t).pc.active? = some k →
                (s.workers u).pc.active? = some k' → ∀ b ∈ k.indices, b ∉ k'.indices

-- A shadow function is entered only while `__buf_idx` still is the argument of the task, and a task
-- only while no other task has its argument.
def IndexKept : Party T → State T → Prop
  | .producer, _ => True
  | .worker t, s =>
    (∀ k ops, (s.workers t).pc = .run k → k.ops = .enter :: ops →
      (s.workers t).bufIdx = k.arg) ∧
    (∀ k, (s.workers t).pc = .start k →
      ∀ u k', u ≠ t → (s.workers u).pc.active? = some k' → k'.arg ≠ k.arg)

theorem metadataSafe_init : MetadataSafe (init numQueues : State T) := by
  constructor <;> simp [init, WorkerPc.active?]

-- A task enters its first shadow function with no index but its argument.
theorem frames_of_start {s : State T} (h : (machine numQueues slices T).Reachable s) :
    ∀ t k, (s.workers t).pc = .start k → k.frames = [] := by
  refine h.invariant (I := fun s => ∀ t k, (s.workers t).pc = .start k → k.frames = [])
    (by simp [machine, init]) fun {p} s s' _ hi e => ?_
  have e := step_cases e
  cases p with
  | producer => rw [e.sameWorkers.workers]; exact hi
  | worker t =>
    intro u k hk
    by_cases hu : u = t
    case neg => exact hi u k (e.worker_ne hu ▸ hk)
    case pos =>
      subst hu
      cases e <;> simp_all [WorkerPc.Idle]
      simp [←hk]

theorem Step.initFlag_mono {s s' : State T} {p : Party T} (e : Step numQueues slices s p s')
    {b : Int} (h : s.initFlag b = true) : s'.initFlag b = true := by
  cases e <;> simp [h, Function.update_apply]

theorem Step.pc_of_active? {s s' : State T} {t : Fin T} {k : Task}
    (e : Step numQueues slices s (.worker t) s') (hi : IndexKept (.worker t) s)
    (hk : (s'.workers t).pc.active? = some k) :
    (∃ k', (s.workers t).pc.active? = some k' ∧ k.arg = k'.arg ∧ k.indices ⊆ k'.indices) ∨
    ∃ k', (s.workers t).pc = .start k' ∧ k.indices = k'.indices ∧ s'.initFlag k'.arg = true := by
  cases e with
  | look _ hi' => simp [hi'.active?_eq_none] at hk
  | start hp =>
    right
    simp [WorkerPc.active?] at hk
    exact ⟨_, hp, by simp [←hk, Task.indices], by simp⟩
  | enter hp ho =>
    left
    simp [WorkerPc.active?] at hk
    refine ⟨_, congrArg WorkerPc.active? hp, by simp [←hk], ?_⟩
    simp [←hk, Task.indices, hi.left _ _ hp ho]
  | leave hp | interim hp | receive hp =>
    left
    simp [WorkerPc.active?] at hk
    refine ⟨_, congrArg WorkerPc.active? hp, by simp [←hk], ?_⟩
    rw [←hk]
    exact List.cons_subset_cons _ (by simp [List.tail_subset])
  | _ => simp [WorkerPc.active?] at hk

-- Under the condition a task uses no index after a step that it did not use before, except for the
-- argument of a task that is entered.
theorem Step.active?_cases {s s' : State T} {p : Party T} {u : Fin T} {k : Task}
    (e : Step numQueues slices s p s') (hi : IndexKept p s)
    (hk : (s'.workers u).pc.active? = some k) :
    (∃ k', (s.workers u).pc.active? = some k' ∧ k.arg = k'.arg ∧ k.indices ⊆ k'.indices) ∨
    p = .worker u ∧
      ∃ k', (s.workers u).pc = .start k' ∧ k.indices = k'.indices ∧ s'.initFlag k'.arg = true := by
  cases p with
  | producer => exact .inl ⟨k, e.sameWorkers.workers ▸ hk, rfl, List.Subset.refl _⟩
  | worker t =>
    by_cases hu : u = t
    case neg => exact .inl ⟨k, e.worker_ne hu ▸ hk, rfl, List.Subset.refl _⟩
    case pos =>
      subst hu
      exact e.pc_of_active? hi hk |>.imp_right fun h => ⟨rfl, h⟩

theorem MetadataSafe.step {s s' : State T} {p : Party T}
    (hf : ∀ t k, (s.workers t).pc = .start k → k.frames = []) (h : MetadataSafe s)
    (hi : IndexKept p s) (e : Step numQueues slices s p s') : MetadataSafe s' where
  same u k hk b hb := by
    obtain ⟨k', hk', ha, hs⟩ | ⟨rfl, k', hk', hs, _⟩ := e.active?_cases hi hk
    · exact (h.same u k' hk' b (hs hb)).trans ha.symm
    · simp only [Task.indices, hf u k' hk', List.cons.injEq] at hs hb
      simpa [hs.right] using hb
  initialised u k hk b hb := by
    obtain ⟨k', hk', _, hs⟩ | ⟨rfl, k', hk', hs, hg⟩ := e.active?_cases hi hk
    · exact e.initFlag_mono <| h.initialised u k' hk' b (hs hb)
    · rw [hs, Task.indices, hf u k' hk'] at hb
      exact List.mem_singleton.mp hb ▸ hg
  apart t u k l hu hk hl b hb hb' := by
    obtain ⟨k', hk', _, hs⟩ | ⟨ht, k', hk', hs, _⟩ := e.active?_cases hi hk
    all_goals obtain ⟨l', hl', _, hs'⟩ | ⟨hu', l', hl', hs', _⟩ := e.active?_cases hi hl
    case inl.inl => exact h.apart t u k' l' hu hk' hl' b (hs hb) (hs' hb')
    case inl.inr =>
      subst hu'
      rw [hs', Task.indices, hf u l' hl', List.mem_singleton] at hb'
      have hn := hi.right l' hl' t k' hu.symm hk'
      exact hn (hb' ▸ h.same t k' hk' b (hs hb)).symm
    case inr.inl =>
      subst ht
      rw [hs, Task.indices, hf t k' hk', List.mem_singleton] at hb
      have hn := hi.right k' hk' u l' hu hl'
      exact hn (hb ▸ h.same u l' hl' b (hs' hb')).symm
    case inr.inr =>
      rw [ht] at hu'
      exact hu (Party.worker.inj hu').symm

theorem not_metadataSafe {s s' : State T} {p : Party T} (hi : ¬IndexKept p s)
    (e : Step numQueues slices s p s') : ¬MetadataSafe s' := by
  intro h
  cases p with
  | producer => exact hi trivial
  | worker t =>
    refine hi ⟨fun k ops hk ho => ?_, fun k hk u l hu hl he => ?_⟩
    case refine_1 =>
      obtain rfl := e.of_enter hk ho
      exact h.same t { k with frames := (s.workers t).bufIdx :: k.frames, ops := ops }
        (by simp [WorkerPc.active?]) _ (by simp [Task.indices])
    case refine_2 =>
      have hl' := e.worker_ne hu ▸ hl
      obtain rfl := e.of_start hk
      exact h.apart t u { k with got := [s.queue (s.workers t).bufIdx] } l hu
        (by simp [WorkerPc.active?]) hl' k.arg (by simp [Task.indices]) (by simp [Task.indices, he])

-- The runs in which the metadata is used safely are those whose tasks keep their index.
theorem metadataSafe_iff_indexKept {s : State T} (r : (machine numQueues slices T).Run s) :
    r.Always MetadataSafe ↔ r.Each IndexKept :=
  r.always_iff_each (I := MetadataSafe) metadataSafe_init (fun _ h => h)
    (fun hr h hi e => h.step (frames_of_start hr) hi (step_cases e))
    (fun _ _ hi e => not_metadataSafe hi (step_cases e))

-- After its first buffer switch a task enters the next shadow function with another index.
theorem index_of_next_buffer :
    ¬∀ s, (r : (machine 3 [⟨1, [.interim, .enter, .leave]⟩] 1).Run s) → r.Always MetadataSafe := by
  intro h
  have ⟨r⟩ := Machine.reachable_after (machine 3 [⟨1, [.interim, .enter, .leave]⟩] 1)
    (List.replicate 6 .producer ++ List.replicate 6 (.worker 0)) rfl
  have hs := (h _ r).last.same 0 _ rfl
  revert hs
  decide

-- A worker whose task never switches buffers holds the buffer of the task's argument.
structure Unswitched (w : Worker) : Prop where
  not_pop : ∀ k, w.pc ≠ .pop k
  task    : ∀ k, w.pc.task? = some k → w.bufIdx = k.arg ∧ .interim ∉ k.ops

theorem Unswitched.step {s s' : State T} {p : Party T} (hn : ∀ f, .interim ∉ shadow slices f)
    (h : ∀ u, Unswitched (s.workers u)) (e : Step numQueues slices s p s') (u : Fin T) :
    Unswitched (s'.workers u) := by
  cases p with
  | producer => rw [e.sameWorkers.workers]; exact h u
  | worker t =>
    by_cases hu : u = t
    case neg => rw [e.worker_ne hu]; exact h u
    case pos =>
      subst hu
      obtain ⟨hp, ht⟩ := h u
      constructor <;> intro k hk
      case not_pop =>
        cases e with
        | look hi hi' _      => simp_all [WorkerPc.Idle]
        | interim hr ho _    => exact (ht _ (congrArg WorkerPc.task? hr)).right (by simp [ho])
        | _                  => simp at hk
      case task =>
        cases e with
        | look hi hi' _      => simp [hi'.task?_eq_none] at hk
        | exit | release     => simp [WorkerPc.task?] at hk
        | interim hr ho _    =>
          exact absurd (by simp [ho]) (ht _ (congrArg WorkerPc.task? hr)).right
        | receive hr _       => exact absurd hr (hp _)
        | take _ _           =>
          simp [WorkerPc.task?] at hk
          simp [←hk, hn]
        | start hr | «return» hr _ =>
          obtain ⟨hb, ho⟩ := ht _ (congrArg WorkerPc.task? hr)
          simp [WorkerPc.task?] at hk
          simp [←hk, hb, ho]
        | enter hr he | leave hr he =>
          obtain ⟨hb, ho⟩ := ht _ (congrArg WorkerPc.task? hr)
          simp [WorkerPc.task?] at hk
          simp [he] at ho
          simp [←hk, hb, ho]

theorem unswitched (hn : ∀ f, .interim ∉ shadow slices f) {s : State T}
    (h : (machine numQueues slices T).Reachable s) : ∀ u, Unswitched (s.workers u) := by
  refine h.invariant (I := fun s => ∀ u, Unswitched (s.workers u)) (fun _ => ?_)
    fun _ hi e => Unswitched.step hn hi (step_cases e)
  constructor <;> simp [machine, init, WorkerPc.task?]

-- No slice that outgrows its buffer, no switch of the index.
theorem indexKept_of_no_interim (hn : ∀ f, .interim ∉ shadow slices f) {s : State T}
    (r : (machine numQueues slices T).Run s) : r.Each IndexKept := by
  refine .of_reachable (fun p s h => ?_) r
  have hw := unswitched hn h
  cases p with
  | producer => trivial
  | worker t =>
    refine ⟨fun k _ hk _ => ((hw t).task k (by rw [hk]; rfl)).left, fun k hk u l hu hl he => ?_⟩
    have ht := ((hw t).task k (by rw [hk]; rfl)).left
    have hr : (s.workers u).pc = .run l := by
      have hp := (hw u).not_pop
      cases hc : (s.workers u).pc <;> simp_all [WorkerPc.active?]
    have hu' := ((hw u).task l (by rw [hr]; rfl)).left
    have hb := (owned h).bufIdx_ne hu (by rw [hk]; trivial) (by rw [hr]; trivial)
    exact hb <| hu'.trans he |>.trans ht.symm

end Queues
