import PFPSanitizer.Runtime.Ownership

namespace Queues

variable {T : Nat} {numQueues : Nat} {slices : List Slice}

namespace State

-- What the producer's program point says about its variables.
def At (slices : List Slice) (s : State T) : ProducerPc → Prop
  | .get =>
    s.startSlice = false
  | .fill k | .hand k =>
    s.cur < slices.length ∧ k ≤ interims slices s.cur ∧ s.curTask = s.cur ∧
      s.startSlice = decide (0 < k)
  | .wait k =>
    s.cur < slices.length ∧ k < interims slices s.cur ∧ s.curTask = s.cur ∧ s.startSlice = true
  | .join =>
    s.startSlice = false

-- The number of tasks that have been pushed. `startSlice` is set while the task of the current
-- slice is among them.
def pushed (s : State T) : Nat :=
  s.cur + if s.startSlice then 1 else 0

end State

theorem SameProducer.at_iff {s s' : State T} (h : SameProducer s s') {pc : ProducerPc} :
    s'.At slices pc ↔ s.At slices pc := by
  cases pc <;> simp [State.At, h.startSlice, h.cur, h.curTask]

structure Phased (slices : List Slice) (s : State T) : Prop where
  «at»   : s.At slices s.producer
  le     : s.cur ≤ slices.length
  join   : s.producer = .join → s.cur = slices.length
  fini   : s.fini → s.producer = .join
  size   : ∀ t, (s.workers t).pc = .size → s.producer = .join
  exited : ∀ t, (s.workers t).pc = .exited → s.producer = .join ∧ s.taskQueue = []

theorem phased_init : Phased slices (init numQueues : State T) := by
  constructor <;> simp [init, State.At]

-- Before the producer is in `fpsan_finish` no worker can see the end of the tasks.
theorem Phased.running {s : State T} (h : Phased slices s) (hp : s.producer ≠ .join) :
    s.fini = false ∧ ∀ t, (s.workers t).pc ≠ .size ∧ (s.workers t).pc ≠ .exited where
  left    := Bool.eq_false_iff.mpr (hp <| h.fini ·)
  right t := ⟨(hp <| h.size t ·), (hp <| h.exited t · |>.left)⟩

theorem Phased.produce {s s' : State T} (h : Phased slices s)
    (e : Step numQueues slices s .producer s') : Phased slices s' := by
  have hp : s.producer ≠ .join := by cases e <;> simp_all
  have ⟨hf, hw⟩ := h.running hp
  have ha := h.at
  have hl := h.le
  constructor
  case size   => exact fun t ht => absurd (e.sameWorkers.workers ▸ ht) (hw t).left
  case exited => exact fun t ht => absurd (e.sameWorkers.workers ▸ ht) (hw t).right
  all_goals
    cases e <;> simp only [State.At, *] at ha <;>
      grind [State.At, fillBuf, Runtime.sliceStart, Runtime.insertClone, Runtime.finish]

theorem Phased.work {s s' : State T} {t : Fin T} (h : Phased slices s)
    (e : Step numQueues slices s (.worker t) s') : Phased slices s' where
  «at»       := by rw [e.sameProducer.producer, e.sameProducer.at_iff]; exact h.at
  le         := e.sameProducer.cur ▸ h.le
  join hj    := e.sameProducer.cur ▸ h.join (e.sameProducer.producer ▸ hj)
  fini hf    := e.sameProducer.producer ▸ h.fini (e.sameProducer.fini ▸ hf)
  size u hu  := by
    rw [e.sameProducer.producer]
    by_cases hut : u = t
    case neg => exact h.size u (e.worker_ne hut ▸ hu)
    case pos =>
      subst hut
      cases e <;> simp_all
      case look hs _ => exact h.fini hs
  exited u hu := by
    rw [e.sameProducer.producer]
    by_cases hut : u = t
    case neg =>
      have ⟨hj, hq⟩ := h.exited u (e.worker_ne hut ▸ hu)
      exact ⟨hj, e.taskQueue_nil hq⟩
    case pos =>
      subst hut
      cases e <;> simp_all [WorkerPc.Idle]
      case exit hp => exact h.size u hp

theorem phased {s : State T} (h : (machine numQueues slices T).Reachable s) : Phased slices s := by
  refine h.invariant phased_init fun {p} _ _ _ hi e => ?_
  cases p with
  | producer => exact hi.produce (step_cases e)
  | worker t => exact hi.work (step_cases e)

-- The task that a worker has popped and not finished.
def WorkerPc.task? : WorkerPc → Option Task
  | .start k | .run k | .pop k | .release k => some k
  | _                                       => none

theorem WorkerPc.Idle.task?_eq_none {pc : WorkerPc} (h : pc.Idle) : pc.task? = none := by
  cases pc <;> simp_all [Idle, task?]

def Worker.runs (f : Nat) (w : Worker) : Nat :=
  if w.pc.task?.map Task.func = some f then 1 else 0

-- How often the task of the slice `f` is queued, running or completed.
def State.tasks (s : State T) (f : Nat) : Nat :=
  (s.taskQueue.map Prod.fst |>.count f) + ∑ t, (s.workers t).runs f + s.completed.count f

structure Tasked (s : State T) : Prop where
  once  : ∀ f, s.tasks f = if f < s.pushed then 1 else 0
  order : ∃ a, s.taskQueue.map Prod.fst = List.range' a s.taskQueue.length ∧
          a + s.taskQueue.length = s.pushed

theorem tasked_init : Tasked (init numQueues : State T) where
  once f := by simp [State.tasks, State.pushed, init, Worker.runs, WorkerPc.task?]
  order  := by simp [State.pushed, init]

theorem tasks_setWorker {s : State T} {t : Fin T} {w : Worker} {f n : Nat}
    (h : s.tasks f + w.runs f = n + (s.workers t).runs f) : (setWorker t w s).tasks f = n := by
  have hs := sum_update s.workers t w (Worker.runs f)
  simp only [State.tasks, setWorker_toRuntime, setWorker_workers, setWorker_completed] at h ⊢
  omega

@[simp]
theorem tasks_shadowSliceStart (s : State T) (i : Int) (f : Nat) :
    State.tasks { s with toRuntime := s.shadowSliceStart i } f = s.tasks f :=
  rfl

theorem SameProducer.pushed_eq {s s' : State T} (h : SameProducer s s') :
    s'.pushed = s.pushed := by
  simp [State.pushed, h.cur, h.startSlice]

-- The producer pushes the tasks in the order of the slices.
theorem Phased.taskQueue_produce {s s' : State T} (h : Phased slices s)
    (e : Step numQueues slices s .producer s') :
    (s'.taskQueue.map Prod.fst = s.taskQueue.map Prod.fst ∧ s'.pushed = s.pushed) ∨
    (s'.taskQueue.map Prod.fst = s.taskQueue.map Prod.fst ++ [s.pushed] ∧
      s'.pushed = s.pushed + 1) := by
  have ha := h.at
  cases e <;> simp_all [State.At, State.pushed]

theorem taskQueue_work {s s' : State T} {t : Fin T} (e : Step numQueues slices s (.worker t) s') :
    s'.taskQueue = s.taskQueue ∨ ∃ x, s.taskQueue = x :: s'.taskQueue := by
  cases e <;> simp_all

theorem Tasked.produce {s s' : State T} (hp : Phased slices s) (h : Tasked s)
    (e : Step numQueues slices s .producer s') : Tasked s' where
  once f := by
    have ho := h.once f
    simp only [State.tasks, e.sameWorkers.workers, e.sameWorkers.completed] at ho ⊢
    obtain ⟨hq, hn⟩ | ⟨hq, hn⟩ := hp.taskQueue_produce e
    case inl => rw [hq, hn, ho]
    case inr =>
      rw [hq, hn, List.count_append, List.count_singleton]
      grind
  order  := by
    have ⟨a, ha, hl⟩ := h.order
    refine ⟨a, ?_⟩
    obtain ⟨hq, hn⟩ | ⟨hq, hn⟩ := hp.taskQueue_produce e
    all_goals
      have he := congrArg List.length hq
      simp only [List.length_map, List.length_append, List.length_singleton] at he
      rw [hq, he, ha, hn]
    case inl => exact ⟨rfl, hl⟩
    case inr => exact ⟨by rw [List.range'_1_concat, hl], by omega⟩

theorem Tasked.work {s s' : State T} {t : Fin T} (h : Tasked s)
    (e : Step numQueues slices s (.worker t) s') : Tasked s' where
  once f := by
    rw [e.sameProducer.pushed_eq, ←h.once f]
    cases e with
    | look hi hi' _ =>
      apply tasks_setWorker
      simp [Worker.runs, hi.task?_eq_none, hi'.task?_eq_none]
    | exit hp _ | start hp | «return» hp _ | enter hp _ | leave hp _ | interim hp _ _ =>
      apply tasks_setWorker
      simp [Worker.runs, hp, WorkerPc.task?, State.tasks]
    | take hp hl | receive hp hl =>
      apply tasks_setWorker
      simp [Worker.runs, hp, hl, WorkerPc.task?, State.tasks, List.count_cons]
      try omega
    | release hp _ =>
      apply tasks_setWorker
      simp [Worker.runs, hp, WorkerPc.task?, State.tasks, List.count_cons]
      omega
  order  := by
    have ⟨a, ha, hl⟩ := h.order
    rw [e.sameProducer.pushed_eq]
    obtain hq | ⟨x, hq⟩ := taskQueue_work e
    case inl => exact ⟨a, by rw [hq, ha], by rw [hq, hl]⟩
    case inr =>
      rw [hq, List.map_cons, List.length_cons, List.range'_succ] at ha
      exact ⟨a + 1, (List.cons.inj ha).right, by simp_all; omega⟩

theorem tasked {s : State T} (h : (machine numQueues slices T).Reachable s) : Tasked s := by
  refine h.invariant tasked_init fun {p} _ _ hr hi e => ?_
  cases p with
  | producer => exact hi.produce (phased hr) (step_cases e)
  | worker t => exact hi.work (step_cases e)

theorem runs_eq_zero {w : Worker} {f : Nat} :
    w.runs f = 0 ↔ ∀ k, w.pc.task? = some k → k.func ≠ f := by
  simp [Worker.runs]

theorem Tasked.queued_fresh {s : State T} (h : Tasked s) {x : Nat × Int} (hx : x ∈ s.taskQueue) :
    (∀ t, (s.workers t).runs x.fst = 0) ∧ x.fst ∉ s.completed := by
  have ho := h.once x.fst
  have hc := List.count_pos_iff.mpr (List.mem_map_of_mem (f := Prod.fst) hx)
  have hs : ∑ t, (s.workers t).runs x.fst = 0 := by
    rw [State.tasks] at ho
    split at ho <;> omega
  refine ⟨fun t => Finset.sum_eq_zero_iff.mp hs t (Finset.mem_univ t), fun hm => ?_⟩
  have hm := List.count_pos_iff.mpr hm
  rw [State.tasks] at ho
  split at ho <;> omega

theorem Tasked.runs_lt {s : State T} (h : Tasked s) {t : Fin T} {k : Task}
    (hk : (s.workers t).pc.task? = some k) : k.func < s.pushed := by
  have ho := h.once k.func
  have hr : (s.workers t).runs k.func ≤ ∑ u, (s.workers u).runs k.func :=
    Finset.single_le_sum (f := fun u => (s.workers u).runs k.func) (fun _ _ => Nat.zero_le _)
      (Finset.mem_univ t)
  simp only [Worker.runs, hk, Option.map_some, if_true, State.tasks] at hr ho
  split at ho <;> omega

-- Two workers never run tasks of one slice.
theorem Tasked.func_ne {s : State T} (h : Tasked s) {t u : Fin T} (hu : u ≠ t) {k k' : Task}
    (hk : (s.workers t).pc.task? = some k) (hk' : (s.workers u).pc.task? = some k') :
    k'.func ≠ k.func := by
  intro he
  have ho := h.once k.func
  have hr : (s.workers t).runs k.func + (s.workers u).runs k.func ≤
      ∑ v, (s.workers v).runs k.func := by
    rw [←Finset.sum_pair (f := fun v => (s.workers v).runs k.func) hu.symm]
    exact Finset.sum_le_sum_of_subset (Finset.subset_univ _)
  simp only [Worker.runs, hk, hk', he, Option.map_some, if_true, State.tasks] at hr ho
  split at ho <;> omega

-- The tasks are started in the order of their slices.
theorem Tasked.runs_lt_queued {s : State T} (h : Tasked s) {t : Fin T} {k : Task}
    (hk : (s.workers t).pc.task? = some k) {x : Nat × Int} (hx : x ∈ s.taskQueue) :
    k.func < x.fst := by
  have ⟨a, ha, hl⟩ := h.order
  have hm := List.mem_map_of_mem (f := Prod.fst) hx
  have hn : k.func ∉ s.taskQueue.map Prod.fst := fun hm => by
    have ⟨y, hy, he⟩ := List.mem_map.mp hm
    exact runs_eq_zero.mp ((h.queued_fresh hy).left t) k hk he.symm
  have hp := h.runs_lt hk
  rw [ha, List.mem_range'_1] at hm hn
  omega

theorem Tasked.not_completed {s : State T} (h : Tasked s) {t : Fin T} {k : Task}
    (hk : (s.workers t).pc.task? = some k) : k.func ∉ s.completed := by
  intro hm
  have ho := h.once k.func
  have hm := List.count_pos_iff.mpr hm
  have hr : (s.workers t).runs k.func ≤ ∑ u, (s.workers u).runs k.func :=
    Finset.single_le_sum (f := fun u => (s.workers u).runs k.func) (fun _ _ => Nat.zero_le _)
      (Finset.mem_univ t)
  simp only [Worker.runs, hk, Option.map_some, if_true, State.tasks] at hr ho
  split at ho <;> omega

theorem Tasked.of_pushed {s : State T} (h : Tasked s) {f : Nat} (hf : f < s.pushed) :
    (∃ x ∈ s.taskQueue, x.fst = f) ∨ (∃ t k, (s.workers t).pc.task? = some k ∧ k.func = f) ∨
      f ∈ s.completed := by
  have ho := h.once f
  rw [if_pos hf, State.tasks] at ho
  by_cases hq : (s.taskQueue.map Prod.fst).count f = 0
  case neg =>
    exact .inl <| List.mem_map.mp <| List.count_pos_iff.mp <| Nat.pos_of_ne_zero hq
  case pos =>
    by_cases hr : ∑ t, (s.workers t).runs f = 0
    case neg =>
      have ⟨t, _, ht⟩ := Finset.exists_ne_zero_of_sum_ne_zero hr
      simp only [ne_eq, runs_eq_zero, not_forall, not_not, exists_prop] at ht
      exact .inr <| .inl ⟨t, ht⟩
    case pos => exact .inr <| .inr <| List.count_pos_iff.mp <| by omega

theorem pushed_le (s : State T) : s.pushed ≤ s.cur + 1 := by
  rw [State.pushed]
  split <;> omega

end Queues
