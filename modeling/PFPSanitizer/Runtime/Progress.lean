import PFPSanitizer.Runtime.Tasks
import Mathlib.Algebra.Order.BigOperators.Group.List
import Mathlib.Data.Int.Interval

namespace Queues

variable {T : Nat} {numQueues : Nat} {slices : List Slice}

theorem count_shadow (hm : ∀ sl ∈ slices, sl.Matched) (f : Nat) :
    (shadow slices f).count .interim = interims slices f := by
  simp only [shadow, interims]
  cases h : slices[f]? with
  | none    => rfl
  | some sl => exact hm sl (List.mem_of_getElem? h)

-- The continuation buffers that the task of a worker has yet to receive.
def WorkerPc.remaining : WorkerPc → Nat
  | .start k | .run k => k.ops.count .interim
  | .pop k            => 1 + k.ops.tail.count .interim
  | _                 => 0

def Worker.remaining (w : Worker) : Nat :=
  w.pc.remaining

theorem WorkerPc.Idle.remaining {pc : WorkerPc} (h : pc.Idle) : pc.remaining = 0 := by
  cases pc <;> simp_all [Idle, WorkerPc.remaining]

namespace State

-- The continuation buffers that the producer has yet to push for the task it pushed last.
def owed (slices : List Slice) (s : State T) : Nat :=
  match s.producer with
  | .fill k | .hand k => if k = 0 then 0 else interims slices s.cur + 1 - k
  | .wait k           => interims slices s.cur - k
  | .get | .join      => 0

def demand (slices : List Slice) (s : State T) : Nat :=
  (s.taskQueue.map fun x => interims slices x.fst).sum + ∑ t, (s.workers t).remaining

end State

-- The continuation buffers that are full or owed are those that the tasks wait for.
def Balanced (slices : List Slice) (s : State T) : Prop :=
  s.fullList.length + s.owed slices = s.demand slices

theorem demand_setWorker {s : State T} {t : Fin T} {w : Worker} {n : Nat}
    (h : s.demand slices + w.remaining = n + (s.workers t).remaining) :
    (setWorker t w s).demand slices = n := by
  have hs := sum_update s.workers t w Worker.remaining
  simp only [State.demand, setWorker_toRuntime, setWorker_workers] at h ⊢
  omega

@[simp]
theorem demand_shadowSliceStart (s : State T) (i : Int) :
    State.demand slices { s with toRuntime := s.shadowSliceStart i } = s.demand slices :=
  rfl

theorem SameProducer.owed_eq {s s' : State T} (h : SameProducer s s') :
    s'.owed slices = s.owed slices := by
  simp [State.owed, h.producer, h.cur]

theorem balanced_init : Balanced slices (init numQueues : State T) := by
  simp [Balanced, State.owed, State.demand, init, Worker.remaining, WorkerPc.remaining]

theorem Balanced.produce {s s' : State T} (hp : Phased slices s) (h : Balanced slices s)
    (e : Step numQueues slices s .producer s') : Balanced slices s' := by
  have ha := hp.at
  simp only [Balanced, State.owed, State.demand, e.sameWorkers.workers] at h ⊢
  cases e <;> simp_all [State.At] <;> grind

theorem Balanced.work {s s' : State T} {t : Fin T} (hm : ∀ sl ∈ slices, sl.Matched)
    (h : Balanced slices s) (e : Step numQueues slices s (.worker t) s') :
    Balanced slices s' := by
  rw [Balanced, e.sameProducer.owed_eq]
  rw [Balanced] at h
  cases e with
  | look hi hi' _ =>
    refine demand_setWorker ?_ |>.symm
    simp [Worker.remaining, hi.remaining, hi'.remaining, h]
  | exit hp _ | start hp =>
    refine demand_setWorker ?_ |>.symm
    simp [Worker.remaining, WorkerPc.remaining, hp, h]
  | «return» hp ho | enter hp ho | leave hp ho =>
    refine demand_setWorker ?_ |>.symm
    simp [Worker.remaining, WorkerPc.remaining, hp, ho, h]
  | take hp hq =>
    refine demand_setWorker ?_ |>.symm
    simp [Worker.remaining, WorkerPc.remaining, State.demand, hp, hq, count_shadow hm] at h ⊢
    omega
  | interim hp ho _ =>
    refine demand_setWorker ?_ |>.symm
    simp [Worker.remaining, WorkerPc.remaining, State.demand, hp, ho] at h ⊢
    omega
  | receive hp hl =>
    refine demand_setWorker ?_ |>.symm
    simp [Worker.remaining, WorkerPc.remaining, State.demand, hp, hl] at h ⊢
    omega
  | release hp _ =>
    refine demand_setWorker ?_ |>.symm
    simp [Worker.remaining, WorkerPc.remaining, State.demand, hp, h] at h ⊢

theorem balanced (hm : ∀ sl ∈ slices, sl.Matched) {s : State T}
    (h : (machine numQueues slices T).Reachable s) : Balanced slices s := by
  refine h.invariant balanced_init fun {p} _ _ hr hi e => ?_
  cases p with
  | producer => exact hi.produce (phased hr) (step_cases e)
  | worker t => exact hi.work hm (step_cases e)

-- A list of buffers that do not all have their place in it.
theorem Owned.length_lt {s : State T} (h : Owned numQueues s) {l : List Int} {b : Int}
    (hl : ∀ i, l.count i + (if b = i then 1 else 0) ≤ s.places i) : l.length < numQueues := by
  have hn : (b :: l).Nodup := List.nodup_iff_count_le_one.mpr fun i => by
    have hi := hl i
    rw [h.places] at hi
    rw [List.count_cons]
    grind
  have hs : (b :: l).toFinset ⊆ Finset.Ico (0 : Int) numQueues := fun i hi => by
    have hc := List.count_pos_iff.mpr (List.mem_toFinset.mp hi)
    have hi := hl i
    rw [h.places] at hi
    rw [List.count_cons] at hc
    rw [Finset.mem_Ico]
    by_contra hn
    rw [if_neg hn] at hi
    grind
  have hc := Finset.card_le_card hs
  rw [List.toFinset_card_of_nodup hn, Int.card_Ico, List.length_cons] at hc
  omega

-- A producer that holds a buffer finds room for it in the task queue.
theorem Owned.taskQueue_lt {s : State T} (h : Owned numQueues s) (hp : s.producer.Holds) :
    s.taskQueue.length < numQueues := by
  rw [←List.length_map Prod.snd]
  refine h.length_lt (b := s.pQueueIdx) fun i => ?_
  simp only [State.places, State.count, hp, true_and]
  omega

-- So does a worker in the empty list.
theorem Owned.emptyList_lt {s : State T} (h : Owned numQueues s) {t : Fin T}
    (hw : (s.workers t).pc.Holds) : s.emptyList.length < numQueues := by
  refine h.length_lt (b := (s.workers t).bufIdx) fun i => ?_
  have ht : (s.workers t).holds i ≤ ∑ u, (s.workers u).holds i :=
    Finset.single_le_sum (f := fun u => (s.workers u).holds i) (fun _ _ => Nat.zero_le _)
      (Finset.mem_univ t)
  simp only [State.places, State.count]
  simp only [Worker.holds, hw, true_and] at ht ⊢
  omega

-- The producer waits for a buffer or has finished.
def State.ProducerWaits (s : State T) : Prop :=
  (s.producer = .get ∨ ∃ k, s.producer = .wait k) ∧ s.emptyList = [] ∨ s.producer = .join

-- The worker polls the empty task queue, has returned or waits for a continuation buffer.
def State.WorkerWaits (s : State T) (t : Fin T) : Prop :=
  ((s.workers t).pc.Idle ∨ (s.workers t).pc = .exited) ∧ s.taskQueue = [] ∨
    (∃ k, (s.workers t).pc = .pop k) ∧ s.fullList = []

-- No party can do more than poll the empty task queue.
def State.Stuck (numQueues : Nat) (slices : List Slice) (s : State T) : Prop :=
  produce numQueues slices s = none ∧
  ∀ t, work numQueues slices t s = none ∨ (s.workers t).pc.Idle ∧ s.taskQueue = []

theorem Owned.producerWaits {s : State T} (h : Owned numQueues s)
    (hn : produce numQueues slices s = none) : s.ProducerWaits := by
  rw [State.ProducerWaits]
  cases hp : s.producer with
  | get =>
    simp only [produce, hp] at hn
    split at hn
    case isTrue => exact .inl ⟨.inl rfl, (Runtime.getBufAddr_eq_none.mp (by simpa using hn)).right⟩
    case isFalse => cases hn
  | wait k =>
    simp only [produce, hp, Option.map_eq_none_iff, Runtime.sliceEndInterimPop_eq_none] at hn
    exact .inl ⟨.inr ⟨k, rfl⟩, hn⟩
  | hand k =>
    have hl := h.taskQueue_lt (show s.producer.Holds by rw [hp]; trivial)
    simp only [produce, hp] at hn
    split at hn
    all_goals
      simp only [Option.map_eq_none_iff, Runtime.sliceEndInterimPush_eq_none,
        Runtime.sliceEnd_eq_none] at hn
      omega
  | fill k => simp [produce, hp] at hn
  | join   => simp

theorem Owned.workerWaits {s : State T} (hp : Phased slices s) (h : Owned numQueues s) {t : Fin T}
    (hn : work numQueues slices t s = none) : s.WorkerWaits t := by
  rw [State.WorkerWaits]
  cases hw : (s.workers t).pc with
  | poll =>
    simp only [work, hw] at hn
    cases hq : s.taskQueue <;> simp_all
  | run k =>
    have hl := h.emptyList_lt (show (s.workers t).pc.Holds by rw [hw]; trivial)
    simp only [work, hw, runTask] at hn
    split at hn <;> simp [Runtime.release_eq_none] at hn
    omega
  | pop k =>
    simp only [work, hw, Option.map_eq_none_iff, Runtime.shadowTaskInterimPop_eq_none] at hn
    exact .inr ⟨⟨k, rfl⟩, hn⟩
  | release k =>
    have hl := h.emptyList_lt (show (s.workers t).pc.Holds by rw [hw]; trivial)
    simp only [work, hw, Option.map_eq_none_iff, Runtime.release_eq_none] at hn
    omega
  | exited => exact .inl ⟨.inr rfl, (hp.exited t hw).right⟩
  | _      => simp [work, hw] at hn

theorem State.WorkerWaits.not_holds {s : State T} {t : Fin T} (h : s.WorkerWaits t) :
    ¬(s.workers t).pc.Holds := by
  obtain ⟨hi | he, _⟩ | ⟨⟨k, hk⟩, _⟩ := h
  · exact hi.not_holds
  · simp [he, WorkerPc.Holds]
  · simp [hk, WorkerPc.Holds]

-- While all parties wait, every buffer is in a queue.
theorem Owned.exists_queued {s : State T} (h : Owned numQueues s) (hq : 0 < numQueues)
    (hp : s.ProducerWaits) (hw : ∀ t, s.WorkerWaits t) :
    s.emptyList ≠ [] ∨ s.taskQueue ≠ [] ∨ s.fullList ≠ [] := by
  by_contra hn
  have h₀ := h.places 0
  have hp : ¬s.producer.Holds := by
    obtain ⟨hp | ⟨k, hp⟩, _⟩ | hp := hp <;> simp [hp, ProducerPc.Holds]
  simp_all [State.places, State.count, Worker.holds, fun t => (hw t).not_holds]

-- The task that was pushed last is the last one in the queue.
theorem Tasked.cur_queued {s : State T} (h : Tasked s) (hs : s.startSlice = true)
    (hq : s.taskQueue ≠ []) : s.cur ∈ s.taskQueue.map Prod.fst := by
  have ⟨a, ha, hl⟩ := h.order
  have hn := List.length_pos_of_ne_nil hq
  simp only [State.pushed, hs, if_true] at hl
  rw [ha, List.mem_range'_1]
  omega

-- A waiting worker in the middle of a slice is waiting for a buffer that the producer owes to the
-- slice it is in itself, the one that was pushed last. This slice's task is not queued.
theorem Balanced.taskQueue_nil {s : State T} (h : Balanced slices s) (ht : Tasked s)
    (hp : Phased slices s) (hw : s.ProducerWaits) {t : Fin T} {k : Task}
    (hk : (s.workers t).pc = .pop k) (hf : s.fullList = []) :
    (∃ j, s.producer = .wait j) ∧ s.taskQueue = [] := by
  have hr : 1 ≤ ∑ u, (s.workers u).remaining :=
    calc
      1 ≤ (s.workers t).remaining := by simp [Worker.remaining, WorkerPc.remaining, hk]
      _ ≤ _ := Finset.single_le_sum (f := fun u => (s.workers u).remaining)
                 (fun _ _ => Nat.zero_le _) (Finset.mem_univ t)
  rw [Balanced, State.demand, hf, List.length_nil] at h
  obtain ⟨hg | ⟨j, hj⟩, _⟩ | hj := hw
  case inl.inl => simp [State.owed, hg] at h; omega
  case inr     => simp [State.owed, hj] at h; omega
  case inl.inr =>
    refine ⟨⟨j, hj⟩, by_contra fun hq => ?_⟩
    have ha := hp.at
    simp only [State.At, hj] at ha
    obtain ⟨x, hx, hc⟩ := List.mem_map.mp (ht.cur_queued ha.right.right.right hq)
    have hl := List.single_le_sum (fun _ _ => Nat.zero_le _) _
      (List.mem_map_of_mem (f := fun x => interims slices x.fst) hx)
    simp only [State.owed, hj, hc] at h hl
    omega

theorem State.WorkerWaits.remaining {s : State T} {t : Fin T} (h : s.WorkerWaits t)
    (hn : ∀ k, (s.workers t).pc ≠ .pop k) :
    s.taskQueue = [] ∧ (s.workers t).remaining = 0 ∧ ∀ f, (s.workers t).runs f = 0 := by
  obtain ⟨hi | he, hq⟩ | ⟨⟨k, hk⟩, _⟩ := h
  · simp [hq, Worker.remaining, Worker.runs, hi.remaining, hi.task?_eq_none]
  · simp [hq, Worker.remaining, Worker.runs, he, WorkerPc.remaining, WorkerPc.task?]
  · exact absurd hk (hn k)

theorem Balanced.completed {s : State T} (h : Balanced slices s) (ho : Owned numQueues s)
    (ht : Tasked s) (hph : Phased slices s) (hT : 0 < T) (hq : 0 < numQueues)
    (hp : s.ProducerWaits) (hw : ∀ t, s.WorkerWaits t) {f : Nat} (hf : f < slices.length) :
    f ∈ s.completed := by
  by_cases hn : ∀ t k, (s.workers t).pc ≠ .pop k
  case neg =>
    simp only [ne_eq, not_forall, not_not] at hn
    obtain ⟨t, k, hk⟩ := hn
    have hl : s.fullList = [] := by
      obtain ⟨hi, _⟩ | ⟨_, hl⟩ := hw t
      · simp [hk, WorkerPc.Idle] at hi
      · exact hl
    obtain ⟨⟨j, hj⟩, hq'⟩ := h.taskQueue_nil ht hph hp hk hl
    have he : s.emptyList = [] := by
      obtain ⟨_, he⟩ | hj' := hp
      · exact he
      · simp [hj] at hj'
    simpa [he, hq', hl] using ho.exists_queued hq hp hw
  case pos =>
    have hr t := (hw t).remaining (hn t)
    have hq' := (hr ⟨0, hT⟩).left
    have hl : s.fullList = [] := by
      simp [Balanced, State.demand, hq', (hr _).right.left] at h
      exact h.left
    obtain ⟨_, he⟩ | hj := hp
    case inl =>
      simpa [he, hq', hl] using ho.exists_queued hq (.inl ⟨‹_›, he⟩) hw
    case inr =>
      have hc := ht.once f
      have ha := hph.at
      simp only [State.At, hj] at ha
      simp only [State.tasks, hq', State.pushed, ha, hph.join hj, (hr _).right.right] at hc
      simp [hf] at hc
      exact List.count_pos_iff.mp (hc ▸ Nat.one_pos)

-- When the parties can do no more than poll, all the slices are done.
theorem stuck_completed {s : State T} (hT : 0 < T) (hq : 0 < numQueues)
    (hm : ∀ sl ∈ slices, sl.Matched) (h : (machine numQueues slices T).Reachable s) :
    s.Stuck numQueues slices → ∀ f < slices.length, f ∈ s.completed := by
  intro ⟨hp, hw⟩ f hf
  refine (balanced hm h).completed (owned h) (tasked h) (phased h) hT hq
    ((owned h).producerWaits hp) (fun t => ?_) hf
  obtain hn | ⟨hi, hn⟩ := hw t
  · exact (owned h).workerWaits (phased h) hn
  · exact .inl ⟨.inl hi, hn⟩

-- Two slices with a continuation each, one buffer and one worker, at the end of a run.
theorem stuck_completed_exited :
    let slices : List Slice := [⟨1, [.interim]⟩, ⟨1, [.interim]⟩]
    let slice : List (Party 1) :=
      .replicate 3 .producer ++ .replicate 4 (.worker 0) ++ .replicate 3 .producer ++
        .replicate 3 (.worker 0)
    let s := (machine 1 slices 1).after (slice ++ slice ++ [.producer, .worker 0, .worker 0]) rfl
    s.Stuck 1 slices ∧ ∀ f < 2, f ∈ s.completed := by
  intro slices slice s
  have hs : s.Stuck 1 slices := ⟨rfl, fun t => .inl (by rw [Fin.fin_one_eq_zero t]; rfl)⟩
  exact ⟨hs, stuck_completed (by decide) (by decide) (by decide) (Machine.reachable_after _ _ _) hs⟩

end Queues
