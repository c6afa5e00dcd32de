import PFPSanitizer.Lib.Schedules
import PFPSanitizer.Runtime.Finish
import Mathlib.Data.Prod.Lex

namespace Queues

variable {T : Nat} {numQueues : Nat} {slices : List Slice}

-- Whether a turn of the party does more than to look for work.
def moves : Party T → State T → Bool
  | .producer, _ => true
  | .worker t, s =>
    match (s.workers t).pc with
    | .top  => false
    | .size => s.taskQueue.isEmpty
    | .poll => !s.taskQueue.isEmpty
    | _     => true

-- The steps of a task: a buffer switch is a push and a pop.
def ShadowOp.cost : ShadowOp → Nat
  | .enter | .leave => 1
  | .interim        => 2

def cost (ops : List ShadowOp) : Nat :=
  ops.map ShadowOp.cost |>.sum

-- The steps of the task of a slice from its pop on.
def taskCost (slices : List Slice) (f : Nat) : Nat :=
  cost (shadow slices f) + 4

-- The steps that the producer has yet to do for a slice of `n` continuations
-- before a buffer is full.
def fillCost (n : Nat) : Nat :=
  3 * n + 2

-- The steps of the slices from `f` on, with those of `fpsan_finish`.
def sliceCosts (slices : List Slice) (f : Nat) : Nat :=
  (slices.drop f |>.map fun sl => fillCost sl.interims + 1 + (cost sl.shadow + 4)).sum + 1

-- The steps that a worker has yet to do for its task and to return.
def WorkerPc.left : WorkerPc → Nat
  | .top | .size | .poll => 1
  | .start k             => cost k.ops + 4
  | .run k               => cost k.ops + 3
  | .pop k               => cost k.ops.tail + 4
  | .release _           => 2
  | .exited              => 0

def Worker.left (w : Worker) : Nat :=
  w.pc.left

namespace State

-- The steps of the producer, and those of the tasks that it has yet to push.
def producerLeft (slices : List Slice) (s : State T) : Nat :=
  match s.producer with
  | .get    => sliceCosts slices s.cur
  | .fill k => fillCost (interims slices s.cur - k) + (if k = 0 then taskCost slices s.cur else 0) +
               sliceCosts slices (s.cur + 1)
  | .hand k =>
    fillCost (interims slices s.cur - k) - 1 + (if k = 0 then taskCost slices s.cur else 0) +
               sliceCosts slices (s.cur + 1)
  | .wait k => fillCost (interims slices s.cur - (k + 1)) + 1 + sliceCosts slices (s.cur + 1)
  | .join   => 0

-- The steps that are left, of the producer, of the queued tasks and of the workers.
def left (slices : List Slice) (s : State T) : Nat :=
  s.producerLeft slices + (s.taskQueue.map fun x => taskCost slices x.fst).sum + ∑ t,
    (s.workers t).left

end State

theorem sliceCosts_of_lt {f : Nat} (h : f < slices.length) :
    sliceCosts slices f =
    fillCost (interims slices f) + 1 + taskCost slices f + sliceCosts slices (f + 1) := by
  simp only [sliceCosts, taskCost, interims, shadow, List.drop_eq_getElem_cons h, List.map_cons,
    List.sum_cons, List.getElem?_eq_getElem h, Option.elim_some]
  omega

theorem sliceCosts_of_le {f : Nat} (h : slices.length ≤ f) : sliceCosts slices f = 1 := by
  simp [sliceCosts, List.drop_eq_nil_of_le h]

theorem left_setWorker (slices : List Slice) (s : State T) (t : Fin T) (w : Worker) :
    (setWorker t w s).left slices + (s.workers t).left = s.left slices + w.left := by
  have hs := sum_update s.workers t w Worker.left
  simp only [State.left, State.producerLeft, setWorker_toRuntime, setWorker_producer, setWorker_cur,
    setWorker_workers]
  omega

@[simp]
theorem left_shadowSliceStart (s : State T) (i : Int) :
    State.left slices { s with toRuntime := s.shadowSliceStart i } = s.left slices :=
  rfl

-- Each step of the producer is one of those that were left.
theorem Phased.left_produce {s s' : State T} (h : Phased slices s)
    (e : Step numQueues slices s .producer s') :
    s'.left slices + 1 = s.left slices := by
  have ha := h.at
  simp only [State.left, State.producerLeft, e.sameWorkers.workers]
  cases e with
  | acquire hp hc | keep hp hc =>
    simp only [hp, Runtime.sliceStart_taskQueue, Runtime.insertClone_taskQueue, sliceCosts_of_lt hc]
    simp
    omega
  | finish hp hc => simp [hp, sliceCosts_of_le (Nat.le_of_not_lt hc)]; omega
  | fill hp      => simp [hp, fillCost]; omega
  | @handTask k hp hk hs =>
    simp only [State.At, hp] at ha
    have h₀ : k = 0 := by simpa [hs] using ha.right.right.right
    simp [hp, ha.right.right.left, h₀, fillCost]
    omega
  | @handFull k hp hk hs =>
    simp only [State.At, hp] at ha
    have h₀ : k ≠ 0 := by simp [hs] at ha; omega
    simp [hp, h₀, fillCost]
    omega
  | @endTask k hp hk hs =>
    simp only [State.At, hp] at ha
    have h₀ : k = 0 := by simpa [hs] using ha.right.right.right
    have hn : interims slices s.cur = 0 := by omega
    simp [hp, h₀, hn, fillCost]
    omega
  | @endFull k hp hk hs =>
    simp only [State.At, hp] at ha
    have h₀ : k ≠ 0 := by simp [hs] at ha; omega
    simp [hp, h₀, fillCost, show interims slices s.cur - k = 0 by omega]
    omega
  | refill hp => simp [hp, fillCost]; omega

-- A look at the queue leaves the worker as it was, up to where it looks next.
def State.look (s : State T) : WorkerPc → WorkerPc
  | .top  => if s.fini then .size else .poll
  | .size => .poll
  | .poll => .top
  | pc    => pc

theorem idle_of_moves {s : State T} {t : Fin T} (h : moves (.worker t) s = false) :
    (s.workers t).pc.Idle := by
  simp only [moves] at h
  split at h
  case h_4 => cases h
  all_goals simp_all [WorkerPc.Idle]

theorem work_of_moves {s : State T} {t : Fin T} (h : moves (.worker t) s = false) :
    work numQueues slices t s =
      some (setWorker t { pc := s.look (s.workers t).pc, bufIdx := (s.workers t).bufIdx } s) := by
  simp only [moves] at h
  split at h
  case h_1 e => simp [e, work, State.look]
  case h_2 e =>
    have hq : s.taskQueue ≠ [] := by simpa using h
    simp [e, work, State.look, hq]
  case h_3 e =>
    have hq : s.taskQueue = [] := by simpa using h
    simp [e, work, State.look, hq]
  case h_4 => cases h

theorem look_idle (s : State T) {pc : WorkerPc} (h : pc.Idle) : (s.look pc).Idle := by
  cases pc with
  | top => rw [State.look]; split <;> trivial
  | size | poll => trivial
  | _ => exact h

theorem WorkerPc.Idle.left {pc : WorkerPc} (h : pc.Idle) : pc.left = 1 := by
  cases pc <;> simp_all [Idle, WorkerPc.left]

theorem left_look {s s' : State T} {t : Fin T} (h : moves (.worker t) s = false)
    (e : work numQueues slices t s = some s') : s'.left slices = s.left slices := by
  obtain rfl := Option.some.inj ((work_of_moves h).symm.trans e)
  have hl :=
    left_setWorker slices s t { pc := s.look (s.workers t).pc, bufIdx := (s.workers t).bufIdx }
  rw [Worker.left, Worker.left, (idle_of_moves h).left, (look_idle s (idle_of_moves h)).left] at hl
  exact Nat.add_right_cancel hl

-- A worker that looks for work and goes on to do so has found none.
theorem moves_of_idle {s s' : State T} {t : Fin T} (e : work numQueues slices t s = some s')
    (hi : (s.workers t).pc.Idle) (hi' : (s'.workers t).pc.Idle) : moves (.worker t) s = false := by
  simp only [work] at e
  split at e
  case h_1 hp => simp [moves, hp]
  case h_2 hp =>
    cases e
    by_cases hq : s.taskQueue = [] <;> simp_all [moves, WorkerPc.Idle]
  case h_3 hp =>
    cases hq : s.taskQueue <;> simp_all [moves, WorkerPc.Idle]
    simp [← e] at hi'
  all_goals simp_all [WorkerPc.Idle]

theorem left_setWorker_succ {s u : State T} {t : Fin T} {w : Worker}
    (h : u.left slices + w.left + 1 = s.left slices + (u.workers t).left) :
    (setWorker t w u).left slices + 1 = s.left slices := by
  have hl := left_setWorker slices u t w
  omega

-- Each step of a worker at its task is one of those that were left.
theorem left_work {s s' : State T} {t : Fin T} (hm : moves (.worker t) s = true)
    (e : work numQueues slices t s = some s') : s'.left slices + 1 = s.left slices := by
  cases work_cases e with
  | look hi hi' _ => simp [moves_of_idle e hi (by simpa using hi')] at hm
  | exit hp _ | release hp _ =>
    apply left_setWorker_succ
    simp [Worker.left, WorkerPc.left, State.left, State.producerLeft, hp]
  | start hp =>
    apply left_setWorker_succ
    rw [left_shadowSliceStart]
    simp [Worker.left, WorkerPc.left, hp]
    omega
  | «return» hp ho =>
    apply left_setWorker_succ
    simp [Worker.left, WorkerPc.left, cost, hp, ho]
  | enter hp ho | leave hp ho =>
    apply left_setWorker_succ
    simp [Worker.left, WorkerPc.left, cost, ShadowOp.cost, hp, ho]
    omega
  | interim hp ho _ =>
    apply left_setWorker_succ
    simp [Worker.left, WorkerPc.left, State.left, State.producerLeft, cost, ShadowOp.cost, hp, ho]
    omega
  | take hp hq | receive hp hq =>
    apply left_setWorker_succ
    simp [Worker.left, WorkerPc.left, State.left, State.producerLeft, taskCost, hp, hq]
    omega

theorem left_step {s s' : State T} {p : Party T} (hr : (machine numQueues slices T).Reachable s)
    (e : (machine numQueues slices T).step p s = some s') :
    s'.left slices + (if moves p s then 1 else 0) = s.left slices := by
  cases p with
  | producer => exact (phased hr).left_produce (step_cases e)
  | worker t =>
    cases hm : moves (.worker t) s with
    | false => exact left_look hm e
    | true  => exact left_work hm e

-- The steps that a whole program takes, whatever the order of the parties.
def totalSteps (slices : List Slice) (T : Nat) : Nat :=
  (slices.map fun sl => 3 * sl.interims + cost sl.shadow + 7).sum + 1 + T

theorem left_init : (init numQueues : State T).left slices = totalSteps slices T := by
  have hc : (fun sl : Slice => fillCost sl.interims + 1 + (cost sl.shadow + 4)) =
      fun sl => 3 * sl.interims + cost sl.shadow + 7 := by
    funext sl
    rw [fillCost]
    omega
  simp [State.left, State.producerLeft, init, sliceCosts, Worker.left, WorkerPc.left, totalSteps,
    hc]

theorem moves_add_left {s : State T} (r : (machine numQueues slices T).Run s) :
    (r.parties moves).length + s.left slices = totalSteps slices T := by
  induction r with
  | init          => exact (Nat.zero_add _).trans left_init
  | step r p e ih =>
    have hl := left_step ⟨r⟩ e
    rw [Machine.Run.length_parties]
    omega

-- The producer has returned from `fpsan_finish` together with the workers, and no task is queued.
structure State.Done (s : State T) : Prop where
  joined    : s.Joined
  taskQueue : s.taskQueue = []

theorem left_eq_zero_iff (slices : List Slice) (s : State T) : s.left slices = 0 ↔ s.Done := by
  constructor
  case mpr =>
    rintro ⟨⟨hp, hw⟩, hq⟩
    simp [State.left, State.producerLeft, Worker.left, hp, hw, hq, WorkerPc.left]
  case mp =>
    intro hl
    simp only [State.left, Nat.add_eq_zero_iff, Finset.sum_eq_zero_iff, Finset.mem_univ,
      true_imp_iff] at hl
    obtain ⟨⟨hp, hq⟩, hw⟩ := hl
    refine ⟨⟨?_, fun t => ?_⟩, ?_⟩
    case refine_1 =>
      cases hpc : s.producer with
      | join => rfl
      | _    => simp [State.producerLeft, hpc, sliceCosts, fillCost] at hp
    case refine_2 =>
      have hw := hw t
      cases hpc : (s.workers t).pc with
      | exited => rfl
      | _      => simp [Worker.left, WorkerPc.left, hpc] at hw
    case refine_3 =>
      cases hq' : s.taskQueue with
      | nil => rfl
      | _   => simp [hq', taskCost] at hq

-- In every interleaving the parties take the same number of steps other than looks at the queue,
-- and no more than this number before all is done.
theorem moves_le_totalSteps {s : State T} (r : (machine numQueues slices T).Run s) :
    (r.parties moves).length ≤ totalSteps slices T ∧
      ((r.parties moves).length = totalSteps slices T ↔ s.Done) := by
  have hl := moves_add_left r
  rw [← left_eq_zero_iff slices s]
  omega

-- There is a task in the queue, or there will be no more.
def State.Busy (s : State T) : Prop :=
  s.taskQueue ≠ [] ∨ s.fini = true

-- How many looks a worker is away from the step that takes a task or returns.
def State.rank (s : State T) (w : Worker) : Nat :=
  match w.pc with
  | .top  => if s.taskQueue ≠ [] then 2 else if s.fini then 1 else 0
  | .size => if s.taskQueue ≠ [] then 1 else 0
  | .poll => if s.taskQueue ≠ [] then 0 else if s.fini then 2 else 0
  | _     => 0

def State.measure (slices : List Slice) (s : State T) : Nat ×ₗ Nat :=
  toLex (s.left slices, ∑ t, s.rank (s.workers t))

-- A turn that brings the program on: a step other than a look, or a look that is not in vain.
def Helps (numQueues : Nat) (slices : List Slice) (p : Party T) (s : State T) : Prop :=
  ((machine numQueues slices T).step p s).isSome ∧ (moves p s = true ∨ s.Busy)

theorem rank_look {s : State T} {t : Fin T} (h : moves (.worker t) s = false) (hb : s.Busy) :
    s.rank { pc := s.look (s.workers t).pc, bufIdx := (s.workers t).bufIdx } <
    s.rank (s.workers t) := by
  simp only [moves] at h
  split at h
  case h_1 e =>
    by_cases hq : s.taskQueue = [] <;> by_cases hf : s.fini <;>
      simp_all [State.rank, State.look, State.Busy]
  case h_2 e => simp_all [State.rank, State.look]
  case h_3 e => simp_all [State.rank, State.look, State.Busy]
  case h_4 => cases h

theorem rank_eq_zero {s : State T} (h : ¬s.Busy) (w : Worker) : s.rank w = 0 := by
  simp only [State.Busy, not_or, ne_eq, not_not, Bool.not_eq_true] at h
  simp only [State.rank, h.left, h.right]
  split <;> rfl

@[simp]
theorem rank_setWorker (s : State T) (t : Fin T) (w : Worker) : (setWorker t w s).rank = s.rank :=
  rfl

theorem measure_lt_of_moves {s s' : State T} {p : Party T}
    (hr : (machine numQueues slices T).Reachable s) (hm : moves p s = true)
    (e : (machine numQueues slices T).step p s = some s') :
    s'.measure slices < s.measure slices := by
  have hl := left_step hr e
  rw [hm, if_pos rfl] at hl
  exact Prod.Lex.toLex_lt_toLex.mpr (.inl (show s'.left slices < s.left slices by omega))

theorem measure_lt_of_look {s s' : State T} {t : Fin T} (hb : s.Busy)
    (hm : moves (.worker t) s = false) (e : work numQueues slices t s = some s') :
    s'.measure slices < s.measure slices := by
  have hl := left_look hm e
  obtain rfl := Option.some.inj ((work_of_moves hm).symm.trans e)
  refine Prod.Lex.toLex_lt_toLex.mpr (.inr ⟨hl, ?_⟩)
  have hk := rank_look hm hb
  have hs :=
    sum_update s.workers t { pc := s.look (s.workers t).pc, bufIdx := (s.workers t).bufIdx } s.rank
  simp only [rank_setWorker, setWorker_workers]
  omega

-- A look in vain changes nothing that counts.
theorem measure_look {s : State T} {t : Fin T} (hb : ¬s.Busy) (hm : moves (.worker t) s = false)
    {s' : State T} (e : work numQueues slices t s = some s') :
    s'.measure slices = s.measure slices := by
  have hl := left_look hm e
  obtain rfl := Option.some.inj ((work_of_moves hm).symm.trans e)
  simp only [State.measure, hl, rank_setWorker, rank_eq_zero hb]

-- A worker that goes on looking is in nobody's way.
theorem isSome_produce_setWorker (s : State T) (t : Fin T) (w : Worker) :
    (produce numQueues slices (setWorker t w s)).isSome = (produce numQueues slices s).isSome := by
  simp only [produce, setWorker_producer, setWorker_cur, setWorker_toRuntime]
  split
  · split <;> simp
  · simp
  · split <;> simp
  · simp
  · simp

theorem isSome_work_setWorker (s : State T) {t u : Fin T} (w : Worker) (h : u ≠ t) :
    (work numQueues slices u (setWorker t w s)).isSome = (work numQueues slices u s).isSome := by
  simp only [work, runTask, setWorker_workers, setWorker_toRuntime, Function.update_of_ne h]
  split
  case h_3 => split <;> simp
  case h_5 => split <;> simp
  all_goals simp

theorem helps_look {s : State T} {t : Fin T} {pc : WorkerPc} {q : Party T}
    (hm : moves (.worker t) s = false) (hb : ¬s.Busy) (h : Helps numQueues slices q s) :
    Helps numQueues slices q (setWorker t { pc := pc, bufIdx := (s.workers t).bufIdx } s) := by
  have hq := h.right.resolve_right hb
  cases q with
  | producer => exact ⟨(isSome_produce_setWorker s t _).trans h.left, .inl rfl⟩
  | worker u =>
    have hu : u ≠ t := by
      rintro rfl
      rw [hm] at hq
      cases hq
    refine ⟨(isSome_work_setWorker s _ hu).trans h.left, .inl ?_⟩
    simpa [moves, Function.update_of_ne hu] using hq

-- A producer that has finished has set the flag that lets the workers return.
theorem fini_of_join {s : State T} (h : (machine numQueues slices T).Reachable s) :
    s.producer = .join → s.fini = true := by
  refine h.invariant (I := fun s => s.producer = .join → s.fini = true) (by simp [machine, init])
    fun {p} _ _ _ hi e => ?_
  have e := step_cases e
  cases p with
  | producer => cases e <;> simp
  | worker t => exact fun hp => e.sameProducer.fini ▸ hi (e.sameProducer.producer ▸ hp)

theorem stuck_of_not_helps {s : State T} (h : ∀ p, ¬Helps numQueues slices p s) :
    s.Stuck numQueues slices := by
  have hn : ∀ p, (machine numQueues slices T).step p s = none ∨ moves p s = false ∧ ¬s.Busy := by
    intro p
    have hp := h p
    rw [Helps, not_and_or, not_or, Bool.not_eq_true, Bool.not_eq_true, Option.isSome_eq_false_iff,
      Option.isNone_iff_eq_none] at hp
    exact hp
  constructor
  case left => exact (hn .producer).resolve_right fun hm => Bool.noConfusion hm.left
  case right =>
    intro t
    obtain he | ⟨hm, hb⟩ := hn (.worker t)
    case inl => exact .inl he
    case inr =>
      exact .inr ⟨idle_of_moves hm, by_contra fun hq => hb (.inl hq)⟩

theorem WorkerPc.remaining_of_task? {pc : WorkerPc} (h : pc.task? = none) : pc.remaining = 0 := by
  cases pc <;> simp_all [task?, WorkerPc.remaining]

theorem Tasked.lt_pushed {s : State T} (h : Tasked s) {x : Nat × Int} (hx : x ∈ s.taskQueue) :
    x.fst < s.pushed := by
  have ⟨a, ha, hl⟩ := h.order
  have hm := List.mem_map_of_mem (f := Prod.fst) hx
  rw [ha, List.mem_range'_1] at hm
  omega

-- Once the pushed tasks are completed, none is queued or running.
theorem Tasked.of_completed {s : State T} (h : Tasked s) (hc : ∀ f < s.pushed, f ∈ s.completed) :
    s.taskQueue = [] ∧ ∀ t, (s.workers t).pc.task? = none where
  left    := List.eq_nil_iff_forall_not_mem.mpr fun _ hx =>
    (h.queued_fresh hx).right (hc _ (h.lt_pushed hx))
  right _ := Option.eq_none_iff_forall_ne_some.mpr fun _ hk =>
    h.not_completed hk (hc _ (h.runs_lt hk))

theorem Balanced.owed_eq_zero {s : State T} (h : Balanced slices s) (ht : Tasked s)
    (hc : ∀ f < s.pushed, f ∈ s.completed) : s.owed slices = 0 := by
  obtain ⟨hq, hw⟩ := ht.of_completed hc
  have hr : ∀ t, (s.workers t).remaining = 0 := fun t => WorkerPc.remaining_of_task? (hw t)
  simp only [Balanced, State.demand, hq, hr, List.map_nil, List.sum_nil, Finset.sum_const_zero] at h
  omega

-- When nobody can bring the program on, the slices are completed and the producer is past them.
theorem joined_of_stuck {s : State T} (hT : 0 < T) (hq : 0 < numQueues)
    (hm : ∀ sl ∈ slices, sl.Matched) (hr : (machine numQueues slices T).Reachable s)
    (h : s.Stuck numQueues slices) :
    s.producer = .join ∧ ∀ f < s.pushed, f ∈ s.completed := by
  have hph := phased hr
  have hp := (owned hr).producerWaits h.left
  have hw t : s.WorkerWaits t := by
    obtain hn | ⟨hi, hn⟩ := h.right t
    · exact (owned hr).workerWaits hph hn
    · exact .inl ⟨.inl hi, hn⟩
  have hc f (hf : f < slices.length) :=
    (balanced hm hr).completed (owned hr) (tasked hr) hph hT hq hp hw hf
  have ha := hph.at
  obtain ⟨hg | ⟨k, hk⟩, _⟩ | hj := hp
  case inl.inl =>
    have hlt : s.cur < slices.length := by
      by_contra hn
      have hn' := h.left
      simp [produce, hg, hn] at hn'
    simp only [State.At, hg] at ha
    have ho := (tasked hr).once s.cur
    simp only [State.tasks, State.pushed, ha] at ho
    simp at ho
    exact absurd (hc _ hlt) (List.count_eq_zero.mp ho.right)
  case inl.inr =>
    simp only [State.At, hk] at ha
    have ho := (balanced hm hr).owed_eq_zero (tasked hr) fun f hf =>
      hc f (by have := pushed_le s; omega)
    simp only [State.owed, hk] at ho
    omega
  case inr =>
    simp only [State.At, hj] at ha
    refine ⟨hj, fun f hf => hc f ?_⟩
    rw [State.pushed, ha, hph.join hj] at hf
    simpa using hf

-- What the program is to come to: all is done, and every slice once.
def State.Completed (slices : List Slice) (s : State T) : Prop :=
  s.Done ∧ ∀ f < slices.length, s.completed.count f = 1

theorem exists_helps {s : State T} (hT : 0 < T) (hq : 0 < numQueues)
    (hm : ∀ sl ∈ slices, sl.Matched) (hr : (machine numQueues slices T).Reachable s)
    (h : ¬s.Completed slices) : ∃ p, Helps numQueues slices p s := by
  by_contra hn
  have hn := not_exists.mp hn
  obtain ⟨hj, hc⟩ := joined_of_stuck hT hq hm hr (stuck_of_not_helps hn)
  obtain ⟨ht, hw⟩ := (tasked hr).of_completed hc
  have he t : (s.workers t).pc = .exited := by
    have hs := hn (.worker t)
    have hb : s.Busy := .inr (fini_of_join hr hj)
    have hk := hw t
    cases hp : (s.workers t).pc with
    | exited => rfl
    | top | size | poll => exact absurd ⟨by simp [machine, work, hp, ht], .inr hb⟩ hs
    | _ => simp [hp, WorkerPc.task?] at hk
  have hd : s.Joined := ⟨hj, he⟩
  exact h ⟨⟨hd, ht⟩, fun f hf => hd.count_completed ht (phased hr) (tasked hr) hf⟩

theorem lower_or_helps {s s' : State T} {p : Party T}
    (hr : (machine numQueues slices T).Reachable s)
    (e : (machine numQueues slices T).step p s = some s') :
    s'.measure slices < s.measure slices ∨
      s'.measure slices = s.measure slices ∧ ∀ q, Helps numQueues slices q s →
      Helps numQueues slices q s' := by
  cases p with
  | producer => exact .inl (measure_lt_of_moves hr rfl e)
  | worker t =>
    cases hm : moves (.worker t) s with
    | true  => exact .inl (measure_lt_of_moves hr hm e)
    | false =>
      by_cases hb : s.Busy
      case pos => exact .inl (measure_lt_of_look hb hm e)
      case neg =>
        have hl := measure_look hb hm e
        obtain rfl := Option.some.inj ((work_of_moves hm).symm.trans e)
        exact .inr ⟨hl, fun _ hh => helps_look hm hb hh⟩

theorem Helps.lower {s : State T} {p : Party T} (hr : (machine numQueues slices T).Reachable s)
    (h : Helps numQueues slices p s) :
    ∃ s', (machine numQueues slices T).step p s = some s' ∧
    s'.measure slices < s.measure slices := by
  obtain ⟨s', e⟩ := Option.isSome_iff_exists.mp h.left
  refine ⟨s', e, ?_⟩
  obtain hm | hb := h.right
  case inl => exact measure_lt_of_moves hr hm e
  case inr =>
    cases p with
    | producer => exact measure_lt_of_moves hr rfl e
    | worker t =>
      cases hm : moves (.worker t) s with
      | true  => exact measure_lt_of_moves hr hm e
      | false => exact measure_lt_of_look hb hm e

theorem helped (hT : 0 < T) (hq : 0 < numQueues) (hm : ∀ sl ∈ slices, sl.Matched) :
    (machine numQueues slices T).Helped (State.measure slices) (Helps numQueues slices)
      (State.Completed slices) where
  step      := lower_or_helps
  lower     := Helps.lower
  some hr h := exists_helps hT hq hm hr h

-- Whatever the schedule, as long as every party gets its turn again and again, `fpsan_finish` joins
-- all the workers in the end, and every slice's task has been run once by then.
theorem completed_of_fair (hT : 0 < T) (hq : 0 < numQueues) (hm : ∀ sl ∈ slices, sl.Matched)
    {p : Nat → Party T} (hp : Machine.Fair p) :
    ∃ n, ((machine numQueues slices T).follow p n).Completed slices :=
  have ⟨n, _, hn⟩ := (helped hT hq hm).eventually hp 0
  ⟨n, hn⟩

-- Two slices with a continuation each, two buffers, and a producer and a worker that take turns.
theorem completed_of_fair_alternating :
    ∃ n, ((machine 2 [⟨1, [.interim]⟩, ⟨1, [.interim]⟩] 1).follow
      (fun n => if n % 2 = 0 then .producer else .worker 0) n).Completed
        [⟨1, [.interim]⟩, ⟨1, [.interim]⟩] := by
  refine completed_of_fair (by decide) (by decide) (by decide) fun q n => ?_
  cases q with
  | producer => exact ⟨2 * n, by omega, by simp⟩
  | worker t => exact ⟨2 * n + 1, by omega, by simp [Subsingleton.elim t 0]⟩

end Queues
