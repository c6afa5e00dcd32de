import PFPSanitizer.Runtime.Delivery

namespace Queues

variable {numQueues : Nat} {slices : List Slice}

-- The number of buffers that the producer fills before the buffer `i` of the slice `f`.
def number (slices : List Slice) (f i : Nat) : Nat :=
  (List.range f |>.map fun g => interims slices g + 1).sum + i

-- The buffer whose turn it is.
def turn (numQueues n : Nat) : Int :=
  Int.ofNat (n % numQueues)

theorem number_succ (f i : Nat) : number slices f (i + 1) = number slices f i + 1 :=
  rfl

theorem number_next (f : Nat) :
    number slices (f + 1) 0 = number slices f (interims slices f) + 1 := by
  simp only [number, List.range_succ, List.map_append, List.sum_append, List.map_singleton,
    List.sum_singleton]
  omega

namespace State

-- The buffers that the producer has taken so far.
def acquired (slices : List Slice) (s : State 1) : Nat :=
  match s.producer with
  | .get | .join                => number slices s.cur 0
  | .fill k | .hand k | .wait k => number slices s.cur k + 1

-- The buffers that the worker has returned so far.
def released (slices : List Slice) (s : State 1) : Nat :=
  match (s.workers 0).pc with
  | .start k | .run k | .release k => number slices k.func k.received
  | .pop k                         => number slices k.func k.received + 1
  | _                              => number slices s.completed.length 0

end State

-- The buffers go round. The empty list starts with the one whose turn it is, and the worker gives
-- them back in the order in which they were taken.
structure Turned (numQueues : Nat) (slices : List Slice) (s : State 1) : Prop where
  empty   : s.emptyList = (List.range' (s.acquired slices) s.emptyList.length).map (turn numQueues)
  total   : s.acquired slices + s.emptyList.length = numQueues + s.released slices
  filling : s.producer.Holds → s.pQueueIdx = turn numQueues (s.acquired slices - 1)
  filled  : ∀ b c, s.queue b = some c → b = turn numQueues (number slices c.slice c.idx)
  reading : (s.workers 0).pc.Holds → (s.workers 0).bufIdx = turn numQueues (s.released slices)
  arg     : ∀ k, (s.workers 0).pc.task? = some k → k.arg = turn numQueues (number slices k.func 0)
  next    : ∀ k, (s.workers 0).pc.task? = some k → k.func = s.completed.length
  count   : s.completed.length + ((s.workers 0).pc.task?.elim 0 fun _ => 1) + s.taskQueue.length =
    s.pushed

theorem turned_init : Turned numQueues slices (init numQueues : State 1) where
  empty   := by
    have h : ∀ i ∈ List.range numQueues, Int.ofNat i = turn numQueues i := fun i hi => by
      rw [turn, Nat.mod_eq_of_lt (List.mem_range.mp hi)]
    simp only [init, Runtime.init_emptyList, State.acquired, number, List.length_map,
      List.length_range]
    rw [List.map_congr_left h, List.range_eq_range']
    rfl
  total   := by simp [init, State.acquired, State.released, number]
  filling := by simp [init, ProducerPc.Holds]
  filled  := by simp [init]
  reading := by simp [init, WorkerPc.Holds]
  arg     := by simp [init, WorkerPc.task?]
  next    := by simp [init, WorkerPc.task?]
  count   := by simp [init, WorkerPc.task?, State.pushed]

theorem Turned.head {s : State 1} (h : Turned numQueues slices s) {b : Int} {l : List Int}
    (he : s.emptyList = b :: l) :
    b = turn numQueues (s.acquired slices) ∧
      l = (List.range' (s.acquired slices + 1) l.length).map (turn numQueues) := by
  have hl := h.empty
  rw [he, List.length_cons, List.range'_succ, List.map_cons] at hl
  exact List.cons.inj hl

-- The producer takes the buffer at the head.
theorem Turned.acquire {s s' : State 1} (h : Turned numQueues slices s) {b : Int} {l : List Int}
    (he : s.emptyList = b :: l) (he' : s'.emptyList = l) (hb : s'.pQueueIdx = b)
    (ha : s'.acquired slices = s.acquired slices + 1) (hq : s'.queue = s.queue)
    (hw : SameWorkers s s') (ht : s'.taskQueue = s.taskQueue) (hp : s'.pushed = s.pushed) :
    Turned numQueues slices s' := by
  have hr : s'.released slices = s.released slices := by
    simp only [State.released, hw.workers, hw.completed]
  obtain ⟨hb', hl⟩ := h.head he
  have hn := h.total
  rw [he, List.length_cons] at hn
  refine ⟨?_, ?_, ?_, hq ▸ h.filled, ?_, ?_, ?_, ?_⟩
  case refine_1 => rw [he', ha]; exact hl
  case refine_2 => rw [ha, he', hr]; omega
  case refine_3 => intro _; rw [ha, Nat.add_sub_cancel, hb, hb']
  case refine_4 => rw [hw.workers, hr]; exact h.reading
  case refine_5 => rw [hw.workers]; exact h.arg
  case refine_6 => rw [hw.workers, hw.completed]; exact h.next
  case refine_7 => rw [hw.workers, hw.completed, ht, hp]; exact h.count

-- The producer fills the buffer it holds, or it hands it off.
theorem Turned.keep {s s' : State 1} (h : Turned numQueues slices s)
    (he : s'.emptyList = s.emptyList) (ha : s'.acquired slices = s.acquired slices)
    (hf : s'.producer.Holds → s.producer.Holds ∧ s'.pQueueIdx = s.pQueueIdx)
    (hq : ∀ b c, s'.queue b = some c → b = turn numQueues (number slices c.slice c.idx))
    (hw : SameWorkers s s') (hp : s'.taskQueue.length + s.pushed = s.taskQueue.length + s'.pushed) :
    Turned numQueues slices s' := by
  have hr : s'.released slices = s.released slices := by
    simp only [State.released, hw.workers, hw.completed]
  refine ⟨?_, ?_, fun hh => ?_, hq, ?_, ?_, ?_, ?_⟩
  case refine_1 => rw [he, ha]; exact h.empty
  case refine_2 => rw [he, ha, hr]; exact h.total
  case refine_3 => rw [ha, (hf hh).right]; exact h.filling (hf hh).left
  case refine_4 => rw [hw.workers, hr]; exact h.reading
  case refine_5 => rw [hw.workers]; exact h.arg
  case refine_6 => rw [hw.workers, hw.completed]; exact h.next
  case refine_7 =>
    have hc := h.count
    rw [hw.workers, hw.completed]
    omega

theorem Turned.fill {s : State 1} {k : Nat} (h : Turned numQueues slices s)
    (hk : s.producer = .fill k) {b : Int} {c : Chunk} (hb : (fillBuf k s).queue b = some c) :
    b = turn numQueues (number slices c.slice c.idx) := by
  rw [fillBuf_queue] at hb
  by_cases he : b = s.pQueueIdx
  case neg => exact h.filled b c (by rwa [Function.update_of_ne he] at hb)
  case pos =>
    subst he
    rw [Function.update_self] at hb
    obtain rfl := Option.some.inj hb
    have hf := h.filling (by rw [hk]; trivial)
    rwa [State.acquired, hk, Nat.add_sub_cancel] at hf

theorem Turned.produce {s s' : State 1} (hp : Phased slices s) (ho : Owned numQueues s)
    (h : Turned numQueues slices s) (e : Step numQueues slices s .producer s') :
    Turned numQueues slices s' := by
  have hw := e.sameWorkers
  have ha := hp.at
  cases e with
  | acquire hg hc hi he =>
    exact h.acquire he rfl rfl (by simp [State.acquired, hg]) rfl hw rfl (by simp [State.pushed])
  | keep hg hc hi => exact absurd (ho.free hg ▸ (by decide : (-1 : Int) < 0)) hi
  | refill hk he =>
    exact h.acquire he rfl rfl (by simp [State.acquired, hk, number_succ]) rfl hw
      rfl (by simp [State.pushed])
  | finish hg hc =>
    exact h.keep rfl (by simp [State.acquired, hg]) (by simp [ProducerPc.Holds]) h.filled hw
      (by simp [State.pushed])
  | fill hk =>
    refine h.keep rfl (by simp [State.acquired, hk]) ?_ (fun _ _ hb => h.fill hk hb) hw
      (by simp [State.pushed])
    exact fun _ => ⟨by rw [hk]; trivial, rfl⟩
  | handTask hk hl hs =>
    refine h.keep rfl (by simp [State.acquired, hk]) (by simp [ProducerPc.Holds]) h.filled hw ?_
    simp [State.pushed, hs]
    omega
  | handFull hk hl hs =>
    exact h.keep rfl (by simp [State.acquired, hk]) (by simp [ProducerPc.Holds]) h.filled hw
      (by simp [State.pushed, hs])
  | @endTask k hk hl hs =>
    simp only [State.At, hk] at ha
    have hn : interims slices s.cur = k := by omega
    refine h.keep rfl ?_ (by simp [ProducerPc.Holds]) h.filled hw ?_
    · simp [State.acquired, hk, number_next, hn]
    · simp [State.pushed, hs]
      omega
  | @endFull k hk hl hs =>
    simp only [State.At, hk] at ha
    have hn : interims slices s.cur = k := by omega
    refine h.keep rfl ?_ (by simp [ProducerPc.Holds]) h.filled hw ?_
    · simp [State.acquired, hk, number_next, hn]
    · simp [State.pushed, hs]

theorem SameProducer.refl {T : Nat} (s : State T) : SameProducer s s :=
  ⟨rfl, rfl, rfl, rfl, rfl, rfl, rfl⟩

-- The worker takes a buffer whose turn it is, or it goes on with the one it has.
theorem Turned.goOn {s u : State 1} (h : Turned numQueues slices s) {w : Worker}
    (hu : SameProducer s u) (he : u.emptyList = s.emptyList)
    (hr : (setWorker 0 w u).released slices = s.released slices)
    (hb : w.pc.Holds → w.bufIdx = turn numQueues (s.released slices))
    (hk : (∀ k, w.pc.task? = some k → k.arg = turn numQueues (number slices k.func 0) ∧
      k.func = u.completed.length) ∧
      u.completed.length + (w.pc.task?.elim 0 fun _ => 1) + u.taskQueue.length = s.pushed) :
    Turned numQueues slices (setWorker 0 w u) := by
  have hac : (setWorker 0 w u).acquired slices = s.acquired slices := by
    simp only [State.acquired, setWorker_producer, setWorker_cur, hu.producer, hu.cur]
  refine ⟨?_, ?_, ?_, ?_, ?_, fun k h => ?_, fun k h => ?_, ?_⟩
  case refine_1 => rw [hac, setWorker_toRuntime, he]; exact h.empty
  case refine_2 => rw [hac, hr, setWorker_toRuntime, he]; exact h.total
  case refine_3 =>
    rw [hac, setWorker_producer, setWorker_toRuntime, hu.producer, hu.pQueueIdx]; exact h.filling
  case refine_4 => simpa only [setWorker_queue, hu.queue] using h.filled
  case refine_5 => rw [hr]; simpa using hb
  case refine_6 => exact (hk.left k (by simpa using h)).left
  case refine_7 => exact (hk.left k (by simpa using h)).right
  case refine_8 =>
    have hp : (setWorker 0 w u).pushed = s.pushed := hu.pushed_eq
    rw [hp]
    simpa using hk.right

-- The worker gives its buffer back.
theorem Turned.giveBack {s u : State 1} (h : Turned numQueues slices s) {w : Worker}
    (hu : SameProducer s u) (hh : (s.workers 0).pc.Holds)
    (he : u.emptyList = s.emptyList ++ [(s.workers 0).bufIdx])
    (hr : (setWorker 0 w u).released slices = s.released slices + 1) (hw : ¬w.pc.Holds)
    (hk : (∀ k, w.pc.task? = some k → k.arg = turn numQueues (number slices k.func 0) ∧
      k.func = u.completed.length) ∧
      u.completed.length + (w.pc.task?.elim 0 fun _ => 1) + u.taskQueue.length = s.pushed) :
    Turned numQueues slices (setWorker 0 w u) := by
  have hac : (setWorker 0 w u).acquired slices = s.acquired slices := by
    simp only [State.acquired, setWorker_producer, setWorker_cur, hu.producer, hu.cur]
  have ht := h.total
  refine ⟨?_, ?_, ?_, ?_, ?_, fun k h => ?_, fun k h => ?_, ?_⟩
  case refine_1 =>
    have hb : (s.workers 0).bufIdx = turn numQueues (s.acquired slices + s.emptyList.length) := by
      rw [h.reading hh, ht, turn, turn, Nat.add_mod_left]
    have hm := h.empty
    rw [hac, setWorker_toRuntime, he, List.length_append, List.length_singleton,
      List.range'_1_concat, List.map_append, ← hm, List.map_singleton, ← hb]
  case refine_2 =>
    rw [hac, hr, setWorker_toRuntime, he, List.length_append, List.length_singleton]
    omega
  case refine_3 =>
    rw [hac, setWorker_producer, setWorker_toRuntime, hu.producer, hu.pQueueIdx]; exact h.filling
  case refine_4 => simpa only [setWorker_queue, hu.queue] using h.filled
  case refine_5 => exact fun hn => absurd (by simpa using hn) hw
  case refine_6 => exact (hk.left k (by simpa using h)).left
  case refine_7 => exact (hk.left k (by simpa using h)).right
  case refine_8 =>
    have hp : (setWorker 0 w u).pushed = s.pushed := hu.pushed_eq
    rw [hp]
    simpa using hk.right

-- The task at the head of the queue is the one after those that are completed.
theorem Turned.task_eq {s : State 1} (h : Turned numQueues slices s) (ht : Tasked s) {f : Nat}
    {i : Int} {q : List (Nat × Int)} (hq : s.taskQueue = (f, i) :: q)
    (hw : (s.workers 0).pc.task? = none) :
    f = s.completed.length := by
  have ⟨a, ha, hl⟩ := ht.order
  have hc := h.count
  rw [hw, Option.elim_none] at hc
  rw [hq, List.map_cons, List.length_cons, List.range'_succ] at ha
  have hf := (List.cons.inj ha).left
  omega

-- A worker that stays with its task, or without one.
theorem Turned.sameTask {s u : State 1} (h : Turned numQueues slices s) {w : Worker}
    (hk : w.pc.task?.map (fun k => (k.func, k.arg)) = (s.workers 0).pc.task?.map fun k =>
      (k.func, k.arg))
    (hc : u.completed = s.completed) (ht : u.taskQueue = s.taskQueue) :
    (∀ k, w.pc.task? = some k → k.arg = turn numQueues (number slices k.func 0) ∧
      k.func = u.completed.length) ∧
      u.completed.length + (w.pc.task?.elim 0 fun _ => 1) + u.taskQueue.length = s.pushed := by
  have hs := h.count
  have ha := h.arg
  have hn := h.next
  rw [hc, ht]
  cases hw : (s.workers 0).pc.task? <;> cases hw' : w.pc.task? <;> simp_all

theorem released_of_idle {s : State 1} (h : (s.workers 0).pc.Idle) :
    s.released slices = number slices s.completed.length 0 := by
  rw [State.released]
  cases hp : (s.workers 0).pc <;> simp_all [WorkerPc.Idle]

theorem Turned.work {g g' : Nat → Nat} {s s' : State 1} (ht : Tasked s)
    (hc : ∀ t, Counted slices (s.workers t)) (hg : Ordered slices g s) (hg' : Ordered slices g' s')
    (h : Turned numQueues slices s) (e : Step numQueues slices s (.worker 0) s') :
    Turned numQueues slices s' := by
  obtain ⟨hst, hrd⟩ := hc 0
  cases e with
  | look hi hi' _ =>
    refine h.goOn (.refl s) rfl ?_ (absurd · hi'.not_holds) (h.sameTask ?_ rfl rfl)
    · rw [released_of_idle hi, released_of_idle (by simpa using hi')]
      rfl
    · rw [hi'.task?_eq_none, hi.task?_eq_none]
  | exit hp _ =>
    refine h.goOn (.refl s) rfl ?_ (by simp [WorkerPc.Holds])
      (h.sameTask (by simp [hp, WorkerPc.task?]) rfl rfl)
    simp [State.released, hp]
  | @take t f i q hp hq =>
    have hf : f = s.completed.length := h.task_eq ht hq (by rw [hp]; rfl)
    have hi : i = turn numQueues (number slices f 0) :=
      h.filled i _ (hg.queued _ (hq ▸ List.mem_cons_self))
    have hc := h.count
    refine h.goOn ⟨rfl, rfl, rfl, rfl, rfl, rfl, rfl⟩ rfl ?_ (fun _ => ?_) ⟨?_, ?_⟩
    · simp [State.released, hp, Task.received, hf]
    · rw [hi, State.released, hp, hf]
    · simp [WorkerPc.task?, hi, hf]
    · simp [hp, hq, WorkerPc.task?] at hc ⊢
      omega
  | start hp =>
    obtain ⟨hn, _⟩ := hst _ hp
    refine h.goOn ⟨rfl, rfl, rfl, rfl, rfl, rfl, rfl⟩ rfl ?_
      (fun _ => h.reading (by rw [hp]; trivial))
      (h.sameTask (by simp [hp, WorkerPc.task?]) rfl rfl)
    simp [State.released, hp, Task.received, hn]
  | «return» hp _ | enter hp _ | leave hp _ =>
    refine h.goOn (.refl s) rfl ?_ (fun _ => h.reading (by rw [hp]; trivial))
      (h.sameTask (by simp [hp, WorkerPc.task?]) rfl rfl)
    simp [State.released, hp, Task.received]
  | interim hp _ _ =>
    refine h.giveBack ⟨rfl, rfl, rfl, rfl, rfl, rfl, rfl⟩ (by rw [hp]; trivial) rfl ?_
      (by simp [WorkerPc.Holds])
      (h.sameTask (by simp [hp, WorkerPc.task?]) rfl rfl)
    simp [State.released, hp]
  | @receive t k b l hp hl =>
    obtain ⟨hn, _⟩ := hrd _ (congrArg WorkerPc.reading? hp)
    have hlen := List.length_pos_of_ne_nil hn
    have hr : number slices k.func k.got.length = s.released slices := by
      simp only [State.released, hp]
      rw [← number_succ, Task.received, Nat.sub_add_cancel hlen]
    refine h.goOn ⟨rfl, rfl, rfl, rfl, rfl, rfl, rfl⟩ rfl ?_ (fun _ => ?_)
      (h.sameTask (by simp [hp, WorkerPc.task?]) rfl rfl)
    · simpa [State.released, hp, Task.received] using hr
    · -- What the task has been given are its own buffers in order, so this one is its next.
      have hgot : k.got ++ [s.queue b] = chunks k.func (g' k.func) :=
        (hg'.served 0).reading { k with ops := k.ops.tail, got := k.got ++ [s.queue b] }
          (by simp [WorkerPc.reading?])
      have hb : s.queue b = some { slice := k.func, idx := k.got.length } := by
        have hl : k.got.length = g' k.func := by
          simpa [length_chunks] using congrArg List.length hgot
        have hb := congrArg (fun l => l[k.got.length]?) hgot
        simpa [chunks, hl] using hb
      rw [← hr]
      exact h.filled b _ hb
  | @release t k hp _ =>
    have hk := congrArg WorkerPc.task? hp
    have hx := h.next _ hk
    have hc := h.count
    have hr : k.received = interims slices k.func := by
      rw [hg.received (by assumption) hk, (hg.served 0).released _ hp]
    refine h.giveBack ⟨rfl, rfl, rfl, rfl, rfl, rfl, rfl⟩ (by rw [hp]; trivial) rfl ?_
      (by simp [WorkerPc.Holds])
      ⟨by simp [WorkerPc.task?], ?_⟩
    · simp [State.released, hp, hr, ← hx, number_next]
    · simpa [hp, WorkerPc.task?] using hc

theorem ordered_of_one_worker (hm : ∀ sl ∈ slices, sl.Matched) {s : State 1}
    (h : (machine numQueues slices 1).Reachable s) : ∃ g, Ordered slices g s := by
  have ⟨r⟩ := h
  refine (inOrder_of_one_worker hm r).invariant (I := fun s => ∃ g, Ordered slices g s)
    ⟨_, ordered_init⟩ ?_ |>.last
  exact fun hr ⟨_, hg⟩ hi e => hg.step hr hi (step_cases e)

theorem turned (hm : ∀ sl ∈ slices, sl.Matched) {s : State 1}
    (h : (machine numQueues slices 1).Reachable s) :
    Turned numQueues slices s := by
  refine h.invariant turned_init fun {p} _ _ hr hi e => ?_
  cases p with
  | producer => exact hi.produce (phased hr) (owned hr) (step_cases e)
  | worker t =>
    obtain rfl := Subsingleton.elim t 0
    obtain ⟨_, hg⟩ := ordered_of_one_worker hm hr
    obtain ⟨_, hg'⟩ := ordered_of_one_worker hm (hr.step e)
    exact hi.work (tasked hr) (counted hr) hg hg' (step_cases e)

-- The buffers that the producer fills and the worker reads, and the metadata that a task uses,
-- are those whose turn it is.
structure RoundRobin (numQueues : Nat) (slices : List Slice) (s : State 1) : Prop where
  filling : ∀ k, s.producer = .fill k → s.pQueueIdx = turn numQueues (number slices s.cur k)
  arg     : ∀ k, (s.workers 0).pc.task? = some k → k.arg = turn numQueues (number slices k.func 0)
  reading : ∀ k, (s.workers 0).pc = .run k →
    (s.workers 0).bufIdx = turn numQueues (number slices k.func k.received)

-- With one worker the choice of the buffers is the same in all interleavings.
theorem roundRobin (hm : ∀ sl ∈ slices, sl.Matched) {s : State 1}
    (h : (machine numQueues slices 1).Reachable s) :
    RoundRobin numQueues slices s where
  filling k hk := by
    have hf := (turned hm h).filling (by rw [hk]; trivial)
    rwa [State.acquired, hk, Nat.add_sub_cancel] at hf
  arg          := (turned hm h).arg
  reading k hk := by
    have hr := (turned hm h).reading (by rw [hk]; trivial)
    rwa [State.released, hk] at hr

-- The fourth slice, whose first buffer is the sixth one, runs with the
-- metadata of the buffer 2 of 3.
theorem roundRobin_three :
    let slices : List Slice := [⟨1, [.interim]⟩, ⟨0, []⟩, ⟨1, [.interim]⟩, ⟨0, []⟩]
    RoundRobin 3 slices <| (machine 3 slices 1).after (
      .replicate 9 .producer ++ .replicate 12 (.worker 0) ++ .replicate 9 .producer ++
      .replicate 10 (.worker 0)) rfl :=
  roundRobin (by decide) (Machine.reachable_after _ _ _)

end Queues
