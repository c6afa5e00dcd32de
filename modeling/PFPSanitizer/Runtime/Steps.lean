import PFPSanitizer.Runtime.Queues
import Mathlib.Algebra.BigOperators.Fin
import Mathlib.Algebra.BigOperators.Ring.Finset

namespace Queues

variable {T : Nat} {numQueues : Nat} {slices : List Slice}

namespace Runtime

theorem push_eq_some {α : Type} {x : α} {q q' : List α} :
    push numQueues x q = some q' ↔ q.length < numQueues ∧ q' = q ++ [x] := by
  simp only [push]
  split <;> simp_all [eq_comm]

-- When the operations of the runtime wait.

variable {r : Runtime} {f : Nat} {b : Int}

theorem push_eq_none {α : Type} {x : α} {q : List α} :
    push numQueues x q = none ↔ numQueues ≤ q.length := by
  simp [push]

theorem getBufAddr_eq_none {g : Nat} :
    r.getBufAddr f g = none ↔ r.pQueueIdx < 0 ∧ r.emptyList = [] := by
  rw [getBufAddr]
  split <;> cases he : r.emptyList <;> simp_all

theorem sliceEndInterimPush_eq_none :
    r.sliceEndInterimPush numQueues = none ↔
      r.startSlice = false ∧ numQueues ≤ r.taskQueue.length := by
  rw [sliceEndInterimPush]
  split <;> simp_all [push_eq_none]

theorem sliceEndInterimPop_eq_none : r.sliceEndInterimPop = none ↔ r.emptyList = [] := by
  rw [sliceEndInterimPop]
  cases he : r.emptyList <;> simp

theorem sliceEnd_eq_none :
    r.sliceEnd numQueues f = none ↔ r.startSlice = false ∧ numQueues ≤ r.taskQueue.length := by
  rw [sliceEnd]
  split <;> simp_all [push_eq_none]

theorem release_eq_none : r.release numQueues b = none ↔ numQueues ≤ r.emptyList.length := by
  simp [release, push_eq_none]

theorem shadowTaskInterimPop_eq_none : r.shadowTaskInterimPop = none ↔ r.fullList = [] := by
  rw [shadowTaskInterimPop]
  cases hl : r.fullList <;> simp

end Runtime

-- The program points where a worker holds no task and looks for one.
def WorkerPc.Idle : WorkerPc → Prop
  | .top | .size | .poll => True
  | _                    => False

-- What a step can do, one case for each atomic action on the queues.
inductive Step (numQueues : Nat) (slices : List Slice) (s : State T) : Party T → State T → Prop
  | acquire {b : Int} {l : List Int} :
    s.producer = .get → s.cur < slices.length → s.pQueueIdx < 0 → s.emptyList = b :: l →
    Step _ _ s .producer
      { s with
        toRuntime := (Runtime.insertClone s.cur s.cur
          { s.toRuntime with emptyList := l, pQueueIdx := b }).sliceStart s.cur,
        producer := .fill 0 }
  | keep :
    s.producer = .get → s.cur < slices.length → ¬s.pQueueIdx < 0 →
    Step _ _ s .producer
      { s with
        toRuntime := (s.insertClone s.cur s.cur).sliceStart s.cur, producer := .fill 0 }
  | finish :
    s.producer = .get → ¬s.cur < slices.length →
    Step _ _ s .producer { s with fini := true, producer := .join }
  | fill {k : Nat} :
    s.producer = .fill k →
    Step _ _ s .producer { fillBuf k s with producer := .hand k }
  | handTask {k : Nat} :
    s.producer = .hand k → k < interims slices s.cur → s.startSlice = false →
    s.taskQueue.length < numQueues →
    Step _ _ s .producer
      { s with taskQueue := s.taskQueue ++ [(s.curTask, s.pQueueIdx)], startSlice := true,
               producer := .wait k }
  | handFull {k : Nat} :
    s.producer = .hand k → k < interims slices s.cur → s.startSlice = true →
    Step _ _ s .producer { s with fullList := s.fullList ++ [s.pQueueIdx], producer := .wait k }
  | endTask {k : Nat} :
    s.producer = .hand k → ¬k < interims slices s.cur → s.startSlice = false →
    s.taskQueue.length < numQueues →
    Step _ _ s .producer
      { s with taskQueue := s.taskQueue ++ [(s.cur, s.pQueueIdx)], pQueueIdx := -1,
               cur := s.cur + 1, producer := .get }
  | endFull {k : Nat} :
    s.producer = .hand k → ¬k < interims slices s.cur → s.startSlice = true →
    Step _ _ s .producer
      { s with startSlice := false, fullList := s.fullList ++ [s.pQueueIdx], pQueueIdx := -1,
               cur := s.cur + 1, producer := .get }
  | refill {k : Nat} {b : Int} {l : List Int} :
    s.producer = .wait k → s.emptyList = b :: l →
    Step _ _ s .producer { s with emptyList := l, pQueueIdx := b, producer := .fill (k + 1) }
  | look {t : Fin T} {pc : WorkerPc} :
    (s.workers t).pc.Idle → pc.Idle → (pc = .size → s.fini) →
    Step _ _ s (.worker t) (setWorker t { pc := pc, bufIdx := (s.workers t).bufIdx } s)
  | exit {t : Fin T} :
    (s.workers t).pc = .size → s.taskQueue = [] →
    Step _ _ s (.worker t) (setWorker t { pc := .exited, bufIdx := (s.workers t).bufIdx } s)
  | take {t : Fin T} {f : Nat} {i : Int} {q : List (Nat × Int)} :
    (s.workers t).pc = .poll → s.taskQueue = (f, i) :: q →
    Step _ _ s (.worker t)
      (setWorker t
        { pc := .start { func := f, arg := i, frames := [], ops := shadow slices f, got := [] },
          bufIdx := i }
        { s with taskQueue := q })
  | start {t : Fin T} {k : Task} :
    (s.workers t).pc = .start k →
    Step _ _ s (.worker t)
      (setWorker t
        { pc := .run { k with got := [s.queue (s.workers t).bufIdx] },
          bufIdx := (s.workers t).bufIdx }
        { s with toRuntime := s.shadowSliceStart k.arg })
  | return {t : Fin T} {k : Task} :
    (s.workers t).pc = .run k → k.ops = [] →
    Step _ _ s (.worker t) (setWorker t { pc := .release k, bufIdx := (s.workers t).bufIdx } s)
  | enter {t : Fin T} {k : Task} {ops : List ShadowOp} :
    (s.workers t).pc = .run k → k.ops = .enter :: ops →
    Step _ _ s (.worker t)
      (setWorker t
        { pc := .run { k with frames := (s.workers t).bufIdx :: k.frames, ops := ops },
          bufIdx := (s.workers t).bufIdx } s)
  | leave {t : Fin T} {k : Task} {ops : List ShadowOp} :
    (s.workers t).pc = .run k → k.ops = .leave :: ops →
    Step _ _ s (.worker t)
      (setWorker t
        { pc := .run { k with frames := k.frames.tail, ops := ops },
          bufIdx := (s.workers t).bufIdx } s)
  | interim {t : Fin T} {k : Task} {ops : List ShadowOp} :
    (s.workers t).pc = .run k → k.ops = .interim :: ops → s.emptyList.length < numQueues →
    Step _ _ s (.worker t)
      (setWorker t { pc := .pop k, bufIdx := (s.workers t).bufIdx }
        { s with emptyList := s.emptyList ++ [(s.workers t).bufIdx] })
  | receive {t : Fin T} {k : Task} {b : Int} {l : List Int} :
    (s.workers t).pc = .pop k → s.fullList = b :: l →
    Step _ _ s (.worker t)
      (setWorker t
        { pc := .run { k with ops := k.ops.tail, got := k.got ++ [s.queue b] }, bufIdx := b }
        { s with fullList := l })
  | release {t : Fin T} {k : Task} :
    (s.workers t).pc = .release k → s.emptyList.length < numQueues →
    Step _ _ s (.worker t)
      (setWorker t { pc := .top, bufIdx := (s.workers t).bufIdx }
        { s with emptyList := s.emptyList ++ [(s.workers t).bufIdx],
                 completed := k.func :: s.completed })

theorem produce_cases {s s' : State T} (h : produce numQueues slices s = some s') :
    Step numQueues slices s .producer s' := by
  rw [produce] at h
  split at h
  case h_1 e =>
    split at h
    case isTrue hc =>
      obtain ⟨r, hr, rfl⟩ := Option.map_eq_some_iff.mp h
      rw [Runtime.getBufAddr] at hr
      split at hr
      case isTrue hi =>
        split at hr
        case h_1 => cases hr
        case h_2 hl => cases hr; exact .acquire e hc hi hl
      case isFalse hi => cases hr; exact .keep e hc hi
    case isFalse hc => cases h; exact .finish e hc
  case h_2 e => cases h; exact .fill e
  case h_3 e =>
    split at h
    all_goals obtain ⟨r, hr, rfl⟩ := Option.map_eq_some_iff.mp h
    case isTrue hk =>
      rw [Runtime.sliceEndInterimPush] at hr
      split at hr
      case isTrue hs => cases hr; exact .handFull e hk hs
      case isFalse hs =>
        obtain ⟨_, hp, rfl⟩ := Option.map_eq_some_iff.mp hr
        obtain ⟨hl, rfl⟩ := Runtime.push_eq_some.mp hp
        exact .handTask e hk (Bool.eq_false_iff.mpr hs) hl
    case isFalse hk =>
      rw [Runtime.sliceEnd] at hr
      split at hr
      case isTrue hs => cases hr; exact .endFull e hk hs
      case isFalse hs =>
        obtain ⟨_, hp, rfl⟩ := Option.map_eq_some_iff.mp hr
        obtain ⟨hl, rfl⟩ := Runtime.push_eq_some.mp hp
        exact .endTask e hk (Bool.eq_false_iff.mpr hs) hl
  case h_4 e =>
    obtain ⟨r, hr, rfl⟩ := Option.map_eq_some_iff.mp h
    rw [Runtime.sliceEndInterimPop] at hr
    split at hr
    case h_1 => cases hr
    case h_2 hl => cases hr; exact .refill e hl
  case h_5 => cases h

theorem runTask_cases {s s' : State T} {t : Fin T} {k : Task} (e : (s.workers t).pc = .run k)
    (h : runTask numQueues t k s = some s') : Step numQueues slices s (.worker t) s' := by
  simp only [runTask] at h
  split at h
  case h_1 ho => cases h; exact .return e ho
  case h_2 ho => cases h; exact .enter e ho
  case h_3 ho => cases h; exact .leave e ho
  case h_4 ho =>
    obtain ⟨_, hr, rfl⟩ := Option.map_eq_some_iff.mp h
    obtain ⟨_, hp, rfl⟩ := Option.map_eq_some_iff.mp hr
    obtain ⟨hl, rfl⟩ := Runtime.push_eq_some.mp hp
    exact .interim e ho hl

theorem work_cases {s s' : State T} {t : Fin T} (h : work numQueues slices t s = some s') :
    Step numQueues slices s (.worker t) s' := by
  simp only [work] at h
  split at h
  case h_1 e =>
    cases h
    apply Step.look
    case a => simp [e, WorkerPc.Idle]
    all_goals split <;> simp_all [WorkerPc.Idle]
  case h_2 e =>
    split at h
    case isTrue hq => cases h; exact .exit e (List.eq_nil_of_length_eq_zero hq)
    case isFalse hq => cases h; apply Step.look <;> simp [e, WorkerPc.Idle]
  case h_3 e =>
    split at h
    case h_1 => cases h; apply Step.look <;> simp [e, WorkerPc.Idle]
    case h_2 hq => cases h; exact .take e hq
  case h_4 e => cases h; exact .start e
  case h_5 e => exact runTask_cases e h
  case h_6 e =>
    obtain ⟨_, hr, rfl⟩ := Option.map_eq_some_iff.mp h
    rw [Runtime.shadowTaskInterimPop] at hr
    split at hr
    case h_1 => cases hr
    case h_2 hl => cases hr; exact .receive e hl
  case h_7 e =>
    obtain ⟨_, hr, rfl⟩ := Option.map_eq_some_iff.mp h
    obtain ⟨_, hp, rfl⟩ := Option.map_eq_some_iff.mp hr
    obtain ⟨hl, rfl⟩ := Runtime.push_eq_some.mp hp
    exact .release e hl
  case h_8 => cases h

theorem step_cases {p : Party T} {s s' : State T}
    (h : (machine numQueues slices T).step p s = some s') : Step numQueues slices s p s' := by
  cases p with
  | producer => exact produce_cases h
  | worker t => exact work_cases h

-- The part of the state that only the producer writes.
structure SameProducer (s s' : State T) : Prop where
  queue      : s'.queue = s.queue
  startSlice : s'.startSlice = s.startSlice
  pQueueIdx  : s'.pQueueIdx = s.pQueueIdx
  curTask    : s'.curTask = s.curTask
  fini       : s'.fini = s.fini
  cur        : s'.cur = s.cur
  producer   : s'.producer = s.producer

-- The part of the state that only the workers write.
structure SameWorkers (s s' : State T) : Prop where
  initFlag  : s'.initFlag = s.initFlag
  workers   : s'.workers = s.workers
  completed : s'.completed = s.completed

namespace Step

variable {s s' : State T} {t u : Fin T}

theorem sameProducer (e : Step numQueues slices s (.worker t) s') : SameProducer s s' := by
  cases e <;> constructor <;> rfl

theorem sameWorkers (e : Step numQueues slices s .producer s') : SameWorkers s s' := by
  cases e <;> constructor <;> rfl

theorem worker_ne (e : Step numQueues slices s (.worker t) s') (h : u ≠ t) :
    s'.workers u = s.workers u := by
  cases e <;> simp [h]

theorem taskQueue_nil (e : Step numQueues slices s (.worker t) s') (h : s.taskQueue = []) :
    s'.taskQueue = [] := by
  cases e <;> simp_all

theorem of_pop {k : Task} (e : Step numQueues slices s (.worker t) s')
    (hk : (s.workers t).pc = .pop k) :
    ∃ b l, s.fullList = b :: l ∧
      s' = setWorker t
        { pc := .run { k with ops := k.ops.tail, got := k.got ++ [s.queue b] }, bufIdx := b }
        { s with fullList := l } := by
  cases e with
  | look hi        => simp [hk, WorkerPc.Idle] at hi
  | receive hp hl  =>
    rw [hk] at hp
    cases hp
    exact ⟨_, _, hl, rfl⟩
  | _              => simp_all

theorem of_return {k : Task} (e : Step numQueues slices s (.worker t) s')
    (hk : (s.workers t).pc = .run k) (ho : k.ops = []) :
    s' = setWorker t { pc := .release k, bufIdx := (s.workers t).bufIdx } s := by
  cases e with
  | look hi => simp [hk, WorkerPc.Idle] at hi
  | _       => simp_all

theorem of_enter {k : Task} {ops : List ShadowOp} (e : Step numQueues slices s (.worker t) s')
    (hk : (s.workers t).pc = .run k) (ho : k.ops = .enter :: ops) :
    s' = setWorker t
      { pc := .run { k with frames := (s.workers t).bufIdx :: k.frames, ops := ops },
        bufIdx := (s.workers t).bufIdx } s := by
  cases e with
  | look hi        => simp [hk, WorkerPc.Idle] at hi
  | enter hp ho'   =>
    rw [hk] at hp
    cases hp
    rw [ho] at ho'
    cases ho'
    rfl
  | _              => simp_all

theorem of_start {k : Task} (e : Step numQueues slices s (.worker t) s')
    (hk : (s.workers t).pc = .start k) :
    s' = setWorker t
      { pc := .run { k with got := [s.queue (s.workers t).bufIdx] },
        bufIdx := (s.workers t).bufIdx }
      { s with toRuntime := s.shadowSliceStart k.arg } := by
  cases e with
  | look hi => simp [hk, WorkerPc.Idle] at hi
  | _       => simp_all

end Step

-- A sum over the workers in which one of them has moved.
theorem sum_update (w : Fin T → Worker) (t : Fin T) (x : Worker) (n : Worker → Nat) :
    ∑ u, n (Function.update w t x u) + n (w t) = ∑ u, n (w u) + n x := by
  have h : ∀ u, n (Function.update w t x u) = Function.update (n ∘ w) t (n x) u :=
    fun u => Function.apply_update (fun _ => n) w t x u
  simp only [h, Finset.sum_update_of_mem (Finset.mem_univ t)]
  rw [← Finset.add_sum_erase Finset.univ (fun u => n (w u)) (Finset.mem_univ t)]
  simp only [Finset.sdiff_singleton_eq_erase, Function.comp_apply]
  omega

end Queues
