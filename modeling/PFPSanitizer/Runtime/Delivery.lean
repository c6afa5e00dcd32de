import PFPSanitizer.Runtime.Progress

namespace Queues

variable {T : Nat} {numQueues : Nat} {slices : List Slice}

-- The task that a worker has entered.
def WorkerPc.reading? : WorkerPc → Option Task
  | .run k | .pop k | .release k => some k
  | _                            => none

theorem WorkerPc.Idle.reading?_eq_none {pc : WorkerPc} (h : pc.Idle) : pc.reading? = none := by
  cases pc <;> simp_all [Idle, reading?]

-- The contents of the first `n + 1` buffers that the producer fills for the slice `f`.
def chunks (f n : Nat) : List (Option Chunk) :=
  List.range (n + 1) |>.map fun i => some { slice := f, idx := i }

-- Every task has been given a prefix of its own slice's buffers, and all of them once it returns.
structure Delivered (slices : List Slice) (s : State T) : Prop where
  own      : ∀ t k, (s.workers t).pc.task? = some k →
             k.got <+: chunks k.func (interims slices k.func)
  complete : ∀ t k, (s.workers t).pc = .release k →
             k.got = chunks k.func (interims slices k.func)

-- A worker pops a continuation only for a slice that still has one, while no task of an earlier
-- slice waits for its own, and a task returns only after as many buffer switches as the producer
-- made in its slice.
def InOrder (slices : List Slice) : Party T → State T → Prop
  | .producer, _ => True
  | .worker t, s =>
    (∀ k, (s.workers t).pc = .pop k → k.received < interims slices k.func ∧
      ∀ u k', u ≠ t → (s.workers u).pc.task? = some k' → k'.func < k.func →
        k'.received = interims slices k'.func) ∧
    (∀ k, (s.workers t).pc = .run k → k.ops = [] →
      (shadow slices k.func).count .interim = interims slices k.func)

-- The buffers that a task has received and will ask for are those its shadow function asks for.
structure Counted (slices : List Slice) (w : Worker) : Prop where
  start   : ∀ k, w.pc = .start k → k.got = [] ∧ k.ops = shadow slices k.func
  reading : ∀ k, w.pc.reading? = some k →
            k.got ≠ [] ∧ k.received + w.pc.remaining = (shadow slices k.func).count .interim

theorem Counted.step {s s' : State T} {p : Party T} (h : ∀ u, Counted slices (s.workers u))
    (e : Step numQueues slices s p s') (u : Fin T) : Counted slices (s'.workers u) := by
  cases p with
  | producer => rw [e.sameWorkers.workers]; exact h u
  | worker t =>
    by_cases hu : u = t
    case neg => rw [e.worker_ne hu]; exact h u
    case pos =>
      subst hu
      obtain ⟨hs, hr⟩ := h u
      constructor <;> intro k hk
      case start => cases e <;> simp_all [WorkerPc.Idle]; simp [←hk]
      case reading =>
        cases e with
        | look hi hi' _ => simp [hi'.reading?_eq_none] at hk
        | exit | take | release => simp [WorkerPc.reading?] at hk
        | start hp =>
          obtain ⟨_, ho⟩ := hs _ hp
          simp [WorkerPc.reading?] at hk
          simp [←hk, Task.received, WorkerPc.remaining, ho]
        | «return» hp ho | enter hp ho | leave hp ho | interim hp ho _ =>
          obtain ⟨hn, hr⟩ := hr _ (congrArg WorkerPc.reading? hp)
          simp [WorkerPc.reading?] at hk
          simp [←hk, Task.received, hp, ho, WorkerPc.remaining] at hr hn ⊢
          exact ⟨hn, by omega⟩
        | receive hp _ =>
          obtain ⟨hn, hr⟩ := hr _ (congrArg WorkerPc.reading? hp)
          have hl := List.length_pos_of_ne_nil hn
          simp [WorkerPc.reading?] at hk
          simp [←hk, Task.received, hp, WorkerPc.remaining] at hr ⊢
          omega

theorem counted {s : State T} (h : (machine numQueues slices T).Reachable s) (t : Fin T) :
    Counted slices (s.workers t) := by
  refine h.invariant (I := fun s => ∀ t, Counted slices (s.workers t)) (fun _ => ?_)
    (fun _ hi e => Counted.step hi (step_cases e)) t
  constructor <;> simp [machine, init, WorkerPc.reading?]

-- The order in which the producer hands off the buffers.
def Chunk.Before (c d : Chunk) : Prop :=
  c.slice < d.slice ∨ c.slice = d.slice ∧ c.idx < d.idx

-- The number of continuation buffers of the slice `f` that have been pushed.
def State.sent (slices : List Slice) (s : State T) (f : Nat) : Nat :=
  if f < s.cur then
    interims slices f
  else if f = s.cur then
    match s.producer with
    | .fill k | .hand k => k - 1
    | .wait k           => k
    | .get | .join      => 0
  else
    0

-- The full list holds the continuation buffers that are sent and not yet received, where `g f` of
-- those of the slice `f` have been received.
structure Fifo (slices : List Slice) (g : Nat → Nat) (s : State T) (cs : List Chunk) : Prop where
  map    : s.fullList.map s.queue = cs.map some
  sorted : cs.Pairwise Chunk.Before
  mem    : ∀ c, c ∈ cs ↔ g c.slice < c.idx ∧ c.idx ≤ s.sent slices c.slice

-- What a worker has been given of the slice whose task it runs.
structure Served (slices : List Slice) (g : Nat → Nat) (queue : Int → Option Chunk)
    (w : Worker) : Prop where
  starting : ∀ k, w.pc = .start k →
             g k.func = 0 ∧ queue w.bufIdx = some { slice := k.func, idx := 0 }
  reading  : ∀ k, w.pc.reading? = some k → k.got = chunks k.func (g k.func)
  released : ∀ k, w.pc = .release k → g k.func = interims slices k.func

structure Ordered (slices : List Slice) (g : Nat → Nat) (s : State T) : Prop where
  fifo      : ∃ cs, Fifo slices g s cs
  le        : ∀ f, g f ≤ s.sent slices f
  filled    : ∀ k, s.producer = .hand k → s.queue s.pQueueIdx = some { slice := s.cur, idx := k }
  queued    : ∀ x ∈ s.taskQueue, s.queue x.snd = some { slice := x.fst, idx := 0 }
  served    : ∀ t, Served slices g s.queue (s.workers t)
  completed : ∀ f ∈ s.completed, g f = interims slices f
  fresh     : ∀ f, (∀ t, (s.workers t).runs f = 0) → f ∉ s.completed → g f = 0

theorem ordered_init : Ordered slices (fun _ => 0) (init numQueues : State T) := by
  constructor
  case fifo   => exact ⟨[], rfl, .nil, fun c => by simp [State.sent, init]; grind⟩
  case served => intro t; constructor <;> simp [init, WorkerPc.reading?]
  all_goals simp [init]

theorem Phased.sent_le {s : State T} (h : Phased slices s) (f : Nat) :
    s.sent slices f ≤ interims slices f := by
  have ha := h.at
  rw [State.sent]
  split
  · exact le_rfl
  · split
    · subst f
      split <;> simp_all [State.At] <;> omega
    · exact Nat.zero_le _

theorem Phased.fullList_produce {s s' : State T} (h : Phased slices s)
    (e : Step numQueues slices s .producer s') :
    (s'.fullList = s.fullList ∧ ∀ f, s'.sent slices f = s.sent slices f) ∨
    ∃ k, s.producer = .hand k ∧ s.sent slices s.cur + 1 = k ∧ s'.queue = s.queue ∧
      s'.fullList = s.fullList ++ [s.pQueueIdx] ∧
      ∀ f, s'.sent slices f = if f = s.cur then k else s.sent slices f := by
  have ha := h.at
  cases e <;> simp_all [State.At, State.sent] <;> grind

theorem Fifo.push {g : Nat → Nat} {s s' : State T} {cs : List Chunk} {k : Nat}
    (h : Fifo slices g s cs) (hg : ∀ f, g f ≤ s.sent slices f)
    (hk : s.sent slices s.cur + 1 = k)
    (hb : s.queue s.pQueueIdx = some { slice := s.cur, idx := k }) (hq : s'.queue = s.queue)
    (hl : s'.fullList = s.fullList ++ [s.pQueueIdx])
    (hs : ∀ f, s'.sent slices f = if f = s.cur then k else s.sent slices f) :
    Fifo slices g s' (cs ++ [{ slice := s.cur, idx := k }]) where
  map    := by simp [hl, hq, h.map, hb]
  sorted := by
    refine List.pairwise_append.mpr ⟨h.sorted, List.pairwise_singleton _ _, fun c hc d hd => ?_⟩
    have ⟨hl, hr⟩ := h.mem c |>.mp hc
    rw [List.mem_singleton.mp hd, Chunk.Before]
    by_cases hlt : c.slice < s.cur
    case pos => exact .inl hlt
    case neg =>
      by_cases he : c.slice = s.cur
      case pos => exact .inr ⟨he, show c.idx < k by rw [he] at hr; omega⟩
      case neg => simp [State.sent, hlt, he] at hr; omega
  mem c  := by
    have hg := hg s.cur
    rw [List.mem_append, List.mem_singleton, h.mem, hs]
    obtain ⟨f, i⟩ := c
    by_cases hf : f = s.cur
    case pos => subst f; simp; omega
    case neg => simp [hf]

theorem Owned.producer_apart {s : State T} (h : Owned numQueues s) (hp : s.producer.Holds) :
    s.pQueueIdx ∉ s.fullList ∧ ∀ x ∈ s.taskQueue, x.snd ≠ s.pQueueIdx := by
  have hc := h.places s.pQueueIdx
  simp only [State.places, State.count, hp, and_self, if_true] at hc
  constructor
  · intro hm
    have hm := List.count_pos_iff.mpr hm
    split at hc <;> omega
  · intro x hx he
    have hm := List.count_pos_iff.mpr (he ▸ List.mem_map_of_mem (f := Prod.snd) hx)
    split at hc <;> omega

-- The producer writes to no buffer but the one it holds.
theorem Step.queue_eq {s s' : State T} (e : Step numQueues slices s .producer s') {b : Int}
    (hb : s.producer.Holds → b ≠ s.pQueueIdx) : s'.queue b = s.queue b := by
  cases e
  case fill hp => simp [Function.update_of_ne (hb (hp ▸ trivial))]
  all_goals rfl

theorem Phased.taskQueue_push {s s' : State T} (h : Phased slices s)
    (e : Step numQueues slices s .producer s') :
    s'.taskQueue = s.taskQueue ∨ s.producer = .hand 0 ∧ s'.queue = s.queue ∧
      s'.taskQueue = s.taskQueue ++ [(s.cur, s.pQueueIdx)] := by
  have ha := h.at
  cases e <;> simp_all [State.At]

theorem Ordered.produce {g : Nat → Nat} {s s' : State T} (hp : Phased slices s)
    (ho : Owned numQueues s) (h : Ordered slices g s)
    (e : Step numQueues slices s .producer s') : Ordered slices g s' where
  fifo := by
    have ⟨cs, hc⟩ := h.fifo
    obtain ⟨hl, hs⟩ | ⟨k, hk, hk', hq, hl, hs⟩ := hp.fullList_produce e
    case inr => exact ⟨_, hc.push h.le hk' (h.filled k hk) hq hl hs⟩
    case inl =>
      refine ⟨cs, ?_, hc.sorted, fun c => by rw [hs, hc.mem]⟩
      rw [hl, ←hc.map]
      exact List.map_congr_left fun b hb =>
        e.queue_eq fun hh he => (ho.producer_apart hh).left (he ▸ hb)
  le f := by
    have hg := h.le f
    obtain ⟨_, hs⟩ | ⟨k, _, hk, _, _, hs⟩ := hp.fullList_produce e
    all_goals rw [hs]
    case inl => exact hg
    case inr => split <;> simp_all; omega
  filled k hk := by
    cases e <;> simp_all
  queued x hx := by
    have hx' := ho.producer_apart
    have hq := h.queued x
    obtain ht | ⟨hk, hq', ht⟩ := hp.taskQueue_push e
    all_goals rw [ht] at hx
    case inl => exact hq hx ▸ e.queue_eq fun hh => (hx' hh).right x hx
    case inr =>
      rw [hq']
      obtain hx | hx := List.mem_append.mp hx
      case inl => exact hq hx
      case inr => rw [List.mem_singleton.mp hx]; exact h.filled 0 hk
  served t := by
    rw [e.sameWorkers.workers]
    refine ⟨fun k hk => ?_, (h.served t).reading, (h.served t).released⟩
    have ⟨hg, hb⟩ := (h.served t).starting k hk
    have hn : (s.workers t).pc.Holds := by rw [hk]; trivial
    exact ⟨hg, hb ▸ e.queue_eq fun hh he => ho.not_filled_while_read hh hn he.symm⟩
  completed := by rw [e.sameWorkers.completed]; exact h.completed
  fresh     := by rw [e.sameWorkers.workers, e.sameWorkers.completed]; exact h.fresh

theorem length_chunks (f n : Nat) : (chunks f n).length = n + 1 := by
  simp [chunks]

theorem WorkerPc.task?_of_reading? {pc : WorkerPc} {k : Task} (h : pc.reading? = some k) :
    pc.task? = some k := by
  cases pc <;> simp_all [reading?, task?]

theorem Ordered.received {g : Nat → Nat} {s : State T} (h : Ordered slices g s)
    (hc : ∀ t, Counted slices (s.workers t)) {t : Fin T} {k : Task}
    (hk : (s.workers t).pc.task? = some k) : k.received = g k.func := by
  cases hp : (s.workers t).pc with
  | start k' =>
    have hs := (hc t).start k' hp
    have hg := (h.served t).starting k' hp
    simp_all [WorkerPc.task?, Task.received]
  | run k' | pop k' | release k' =>
    have hr := (h.served t).reading k' (by rw [hp]; rfl)
    have he : k' = k := by simpa [hp, WorkerPc.task?] using hk
    rw [Task.received, ←he, hr, length_chunks, Nat.add_sub_cancel]
  | _ => simp [hp, WorkerPc.task?] at hk

theorem SameProducer.sent_eq {s s' : State T} (h : SameProducer s s') (f : Nat) :
    s'.sent slices f = s.sent slices f := by
  simp [State.sent, h.cur, h.producer]

-- A task that leaves its worker is completed.
theorem Step.task_kept {s s' : State T} {t : Fin T} (e : Step numQueues slices s (.worker t) s')
    {k : Task} (hk : (s.workers t).pc.task? = some k) :
    (∃ k', (s'.workers t).pc.task? = some k' ∧ k'.func = k.func) ∨ k.func ∈ s'.completed := by
  cases e with
  | look hi => simp [hi.task?_eq_none] at hk
  | _       => simp_all [WorkerPc.task?]

theorem Step.completed_subset {s s' : State T} {t : Fin T}
    (e : Step numQueues slices s (.worker t) s') : s.completed ⊆ s'.completed := by
  cases e <;> simp

theorem Ordered.fresh_step {g : Nat → Nat} {s s' : State T} {t : Fin T} (h : Ordered slices g s)
    (e : Step numQueues slices s (.worker t) s') {f : Nat}
    (hr : ∀ u, (s'.workers u).runs f = 0) (hf : f ∉ s'.completed) : g f = 0 := by
  refine h.fresh f (fun u => ?_) fun hc => hf (e.completed_subset hc)
  have hr := runs_eq_zero.mp (hr u)
  by_cases hu : u = t
  case neg => exact runs_eq_zero.mpr (e.worker_ne hu ▸ hr)
  case pos =>
    subst hu
    refine runs_eq_zero.mpr fun k hk he => ?_
    obtain ⟨k', hk', he'⟩ | hc := e.task_kept hk
    · exact hr k' hk' (he' ▸ he)
    · exact hf (he ▸ hc)

theorem Ordered.served_work {g : Nat → Nat} {s s' : State T} {t : Fin T} (ht : Tasked s)
    (hc : ∀ t, Counted slices (s.workers t)) (h : Ordered slices g s)
    (hi : InOrder slices (.worker t) s) (e : Step numQueues slices s (.worker t) s')
    (hl : s'.fullList = s.fullList) : Served slices g s'.queue (s'.workers t) := by
  obtain ⟨hs, hr, hd⟩ := h.served t
  constructor <;> intro k hk
  case starting =>
    cases e with
    | take _ hq =>
      obtain ⟨hn, hm⟩ := ht.queued_fresh (hq ▸ List.mem_cons_self)
      have hb := h.queued _ (hq ▸ List.mem_cons_self)
      simp_all
      subst hk
      exact ⟨h.fresh _ hn hm, rfl⟩
    | _ => simp_all [WorkerPc.Idle]
  case reading =>
    cases e with
    | look _ hi' => simp [hi'.reading?_eq_none] at hk
    | start hp =>
      obtain ⟨hg, hb⟩ := hs _ hp
      simp [WorkerPc.reading?] at hk
      simp [←hk, hg, hb, chunks]
    | receive hp hf => simp [hf] at hl
    | «return» hp | enter hp | leave hp | interim hp =>
      have hr := hr _ (congrArg WorkerPc.reading? hp)
      simp [WorkerPc.reading?] at hk
      rw [←hk]
      exact hr
    | _ => simp [WorkerPc.reading?] at hk
  case released =>
    cases e with
    | look _ hi' => simp_all [WorkerPc.Idle]
    | «return» hp ho =>
      have hq := h.received hc (congrArg WorkerPc.task? hp)
      obtain ⟨_, hn⟩ := (hc t).reading _ (congrArg WorkerPc.reading? hp)
      have hm := hi.right _ hp ho
      simp [hp, WorkerPc.remaining, ho] at hn hk
      rw [←hk, ←hq, hn, hm]
    | _ => simp at hk

theorem Ordered.work {g : Nat → Nat} {s s' : State T} {t : Fin T} (ht : Tasked s)
    (hc : ∀ t, Counted slices (s.workers t)) (h : Ordered slices g s)
    (hi : InOrder slices (.worker t) s) (e : Step numQueues slices s (.worker t) s')
    (hl : s'.fullList = s.fullList) : Ordered slices g s' := by
  have hs := e.sameProducer
  constructor
  case fifo =>
    have ⟨cs, hf⟩ := h.fifo
    exact ⟨cs, by rw [hl, hs.queue, hf.map], hf.sorted, fun c => by rw [hs.sent_eq, hf.mem]⟩
  case le        => simpa [hs.sent_eq] using h.le
  case filled    => simpa [hs.queue, hs.producer, hs.pQueueIdx, hs.cur] using h.filled
  case queued    =>
    rw [hs.queue]
    obtain hq | ⟨x, hq⟩ := taskQueue_work e
    · exact hq ▸ h.queued
    · exact fun y hy => h.queued y (hq ▸ List.mem_cons_of_mem x hy)
  case served    =>
    intro u
    by_cases hu : u = t
    · subst hu; exact h.served_work ht hc hi e hl
    · rw [hs.queue, e.worker_ne hu]; exact h.served u
  case completed =>
    have hd := (h.served t).released
    have hm := h.completed
    cases e <;> simp_all
  case fresh     => exact fun f => h.fresh_step e

theorem chunks_succ (f n : Nat) :
    chunks f (n + 1) = chunks f n ++ [some { slice := f, idx := n + 1 }] := by
  simp [chunks, List.range_succ]

theorem chunks_mono {f m n : Nat} (h : m ≤ n) : chunks f m <+: chunks f n := by
  induction h with
  | refl       => exact List.prefix_rfl
  | step _ ih  => exact ih.trans (chunks_succ .. ▸ List.prefix_append ..)

theorem sent_eq_interims {s : State T} {f : Nat} (h : f < s.cur) :
    s.sent slices f = interims slices f := by
  rw [State.sent, if_pos h]

theorem le_cur_of_sent_pos {s : State T} {f : Nat} (h : 0 < s.sent slices f) : f ≤ s.cur := by
  by_contra hn
  simp [State.sent, show ¬f < s.cur by omega, show f ≠ s.cur by omega] at h

theorem Fifo.head_before {g : Nat → Nat} {s : State T} {c d : Chunk} {cs : List Chunk}
    (h : Fifo slices g s (c :: cs)) (hg : g d.slice < d.idx)
    (hd : d.idx ≤ s.sent slices d.slice) : d = c ∨ c.Before d := by
  obtain he | hm := List.mem_cons.mp (h.mem d |>.mpr ⟨hg, hd⟩)
  · exact .inl he
  · exact .inr (List.rel_of_pairwise_cons h.sorted hm)

-- The head of the full list belongs to the popping worker.
theorem Ordered.head_eq {g : Nat → Nat} {s : State T} {t : Fin T} {k : Task} {c : Chunk}
    {cs : List Chunk} (ht : Tasked s) (hp : Phased slices s)
    (hc : ∀ t, Counted slices (s.workers t)) (h : Ordered slices g s)
    (hi : InOrder slices (.worker t) s) (hk : (s.workers t).pc = .pop k)
    (hf : Fifo slices g s (c :: cs)) : c = { slice := k.func, idx := g k.func + 1 } := by
  have hk' : (s.workers t).pc.task? = some k := by rw [hk]; rfl
  have ⟨hn, ho⟩ := hi.left k hk
  have hq := h.received hc hk'
  have ⟨hcg, hcs⟩ := hf.mem c |>.mp List.mem_cons_self
  have hci := hp.sent_le c.slice
  have hcc : c.slice ≤ s.cur := le_cur_of_sent_pos (show 0 < s.sent slices c.slice by omega)
  have hkc : k.func ≤ s.cur := by
    have hl := ht.runs_lt hk'
    have hl' := pushed_le s
    omega
  -- No earlier slice has a buffer in the list.
  have hle : k.func ≤ c.slice := by
    by_contra hlt
    have hl := ht.runs_lt hk'
    obtain ⟨x, hx, he⟩ | ⟨u, k', hu, he⟩ | hm := ht.of_pushed (f := c.slice) (by omega)
    · have hl := ht.runs_lt_queued hk' hx
      omega
    · have hne : u ≠ t := by
        rintro rfl
        rw [hk'] at hu
        cases hu
        omega
      have hr := ho u k' hne hu (by omega)
      rw [h.received hc hu, he] at hr
      omega
    · have hr := h.completed _ hm
      omega
  have hs : g k.func + 1 ≤ s.sent slices k.func := by
    by_cases hlt : k.func < s.cur
    case pos => rw [sent_eq_interims hlt]; omega
    case neg =>
      have he : c.slice = k.func := by omega
      rw [he] at hcg hcs
      omega
  obtain he | hb := hf.head_before (d := { slice := k.func, idx := g k.func + 1 })
    (Nat.lt_succ_self _) hs
  · exact he.symm
  · obtain hb | ⟨he, hb⟩ := hb
    · exact absurd hb (by simpa using hle)
    · simp only at he hb
      rw [he] at hcg
      omega

theorem Served.congr {g g' : Nat → Nat} {queue : Int → Option Chunk} {w : Worker}
    (h : Served slices g queue w)
    (hg : ∀ k, w.pc.task? = some k → g' k.func = g k.func) : Served slices g' queue w where
  starting k hk := by
    rw [hg k (by rw [hk]; rfl)]
    exact h.starting k hk
  reading k hk := by
    rw [hg k (WorkerPc.task?_of_reading? hk)]
    exact h.reading k hk
  released k hk := by
    rw [hg k (by rw [hk]; rfl)]
    exact h.released k hk

theorem Fifo.pop {g : Nat → Nat} {s s' : State T} {f : Nat} {b : Int} {cs : List Chunk}
    (h : Fifo slices g s ({ slice := f, idx := g f + 1 } :: cs))
    (hl : s.fullList = b :: s'.fullList) (hq : s'.queue = s.queue)
      (hs : ∀ f, s'.sent slices f = s.sent slices f) :
    Fifo slices (Function.update g f (g f + 1)) s' cs where
  map    := by
    have hm := h.map
    rw [hl, List.map_cons, List.map_cons] at hm
    rw [hq]
    exact (List.cons.inj hm).right
  sorted := h.sorted.of_cons
  mem c  := by
    have hm := h.mem c
    have hn : { slice := f, idx := g f + 1 } ∉ cs := fun hc => by
      have hb := List.rel_of_pairwise_cons h.sorted hc
      simp [Chunk.Before] at hb
    rw [List.mem_cons] at hm
    rw [hs]
    obtain ⟨f', i⟩ := c
    by_cases hf : f' = f
    case neg => simp [hf] at hm; simp [hf, hm]
    case pos =>
      subst hf
      by_cases hi : i = g f' + 1
      case pos => subst hi; simp [hn]
      case neg => simp [hi] at hm; simp [hm]; omega

theorem Ordered.receive {g : Nat → Nat} {s s' : State T} {t : Fin T} {k : Task} (ht : Tasked s)
    (hp : Phased slices s) (hc : ∀ t, Counted slices (s.workers t)) (h : Ordered slices g s)
    (hi : InOrder slices (.worker t) s) (e : Step numQueues slices s (.worker t) s')
    (hk : (s.workers t).pc = .pop k) :
    Ordered slices (Function.update g k.func (g k.func + 1)) s' := by
  have hk' : (s.workers t).pc.task? = some k := by rw [hk]; rfl
  have hn := ht.not_completed hk'
  have hs := e.sameProducer
  have hfr f := h.fresh_step e (f := f)
  have hne {u} (hu : u ≠ t) := e.worker_ne hu
  have ⟨cs, hf⟩ := h.fifo
  obtain ⟨b, l, hl, rfl⟩ := e.of_pop hk
  have hm := hf.map
  rw [hl, List.map_cons] at hm
  obtain ⟨c, cs, rfl, hb, _⟩ := List.map_eq_cons_iff.mp hm.symm
  obtain rfl := h.head_eq ht hp hc hi hk hf
  constructor
  case fifo => exact ⟨cs, hf.pop hl hs.queue hs.sent_eq⟩
  case le =>
    intro f
    rw [hs.sent_eq]
    by_cases hfk : f = k.func
    · subst hfk; simpa using hf.mem _ |>.mp List.mem_cons_self |>.right
    · simpa [hfk] using h.le f
  case filled => exact h.filled
  case queued => exact h.queued
  case served =>
    intro u
    by_cases hu : u = t
    case neg =>
      rw [hne hu]
      refine (h.served u).congr fun k' hk'' => ?_
      exact Function.update_of_ne (ht.func_ne hu hk' hk'') _ _
    case pos =>
      subst hu
      have hr := (h.served u).reading k (by rw [hk]; rfl)
      constructor <;> simp [WorkerPc.reading?, hr, ←hb, chunks_succ]
  case completed =>
    intro f hf'
    have hne : f ≠ k.func := fun he => hn (he ▸ hf')
    rw [Function.update_of_ne hne]
    exact h.completed f hf'
  case fresh =>
    intro f hr hf'
    have hne := runs_eq_zero.mp (hr t) { k with ops := k.ops.tail, got := k.got ++ [s.queue b] }
      (by simp [WorkerPc.task?])
    rw [Function.update_of_ne (Ne.symm hne)]
    exact hfr f hr hf'

theorem Ordered.step {g : Nat → Nat} {s s' : State T} {p : Party T}
    (hr : (machine numQueues slices T).Reachable s) (h : Ordered slices g s)
    (hi : InOrder slices p s) (e : Step numQueues slices s p s') : ∃ g, Ordered slices g s' := by
  cases p with
  | producer => exact ⟨g, h.produce (phased hr) (owned hr) e⟩
  | worker t =>
    by_cases hl : s'.fullList = s.fullList
    case pos => exact ⟨g, h.work (tasked hr) (counted hr) hi e hl⟩
    case neg =>
      have ⟨k, hk⟩ : ∃ k, (s.workers t).pc = .pop k := by cases e <;> simp_all
      exact ⟨_, h.receive (tasked hr) (phased hr) (counted hr) hi e hk⟩

theorem Ordered.delivered {g : Nat → Nat} {s : State T} (hp : Phased slices s)
    (hc : ∀ t, Counted slices (s.workers t)) (h : Ordered slices g s) : Delivered slices s where
  own t k hk := by
    cases hw : (s.workers t).pc with
    | start k' =>
      have ⟨hg, _⟩ := (hc t).start k' hw
      have he : k' = k := by simpa [hw, WorkerPc.task?] using hk
      simp [←he, hg]
    | run k' | pop k' | release k' =>
      have hr := (h.served t).reading k' (by rw [hw]; rfl)
      have he : k' = k := by simpa [hw, WorkerPc.task?] using hk
      rw [←he, hr]
      exact chunks_mono <| (h.le _).trans (hp.sent_le _)
    | _ => simp [hw, WorkerPc.task?] at hk
  complete t k hk := by
    rw [(h.served t).reading k (by rw [hk]; rfl), (h.served t).released k hk]

theorem slice_of_mem_chunks {f n : Nat} {x : Option Chunk} (h : x ∈ chunks f n) :
    ∃ i, x = some { slice := f, idx := i } := by
  have ⟨i, _, hi⟩ := List.mem_map.mp h
  exact ⟨i, hi.symm⟩

-- A pop out of order gives a task a buffer that is not the next one of its slice.
theorem Ordered.not_delivered {g : Nat → Nat} {s s' : State T} {p : Party T} (ht : Tasked s)
    (hp : Phased slices s) (hc : ∀ t, Counted slices (s.workers t)) (h : Ordered slices g s)
    (hi : ¬InOrder slices p s) (e : Step numQueues slices s p s') : ¬Delivered slices s' := by
  intro hd
  cases p with
  | producer => exact hi trivial
  | worker t =>
    refine hi ⟨fun k hk => ?_, fun k hk ho => ?_⟩
    case refine_1 =>
      have hk' : (s.workers t).pc.task? = some k := by rw [hk]; rfl
      have hg := (h.served t).reading k (by rw [hk]; rfl)
      have hq := h.received hc hk'
      obtain ⟨cs, hf⟩ := h.fifo
      obtain ⟨b, l, hl, rfl⟩ := e.of_pop hk
      have hm := hf.map
      rw [hl, List.map_cons] at hm
      obtain ⟨c, cs, rfl, hb, _⟩ := List.map_eq_cons_iff.mp hm.symm
      have ho := hd.own t { k with ops := k.ops.tail, got := k.got ++ [s.queue b] }
        (by simp [WorkerPc.task?])
      constructor
      case left =>
        have hl := ho.length_le
        simp only [hg, List.length_append, List.length_singleton, length_chunks] at hl
        omega
      case right =>
        intro u k' hu hku hlt
        by_contra hne
        have hqu := h.received hc hku
        have hlu := (h.le k'.func).trans (hp.sent_le _)
        have hcur := ht.runs_lt hk'
        have hcur' := pushed_le s
        have hs : s.sent slices k'.func = _ := sent_eq_interims (show k'.func < s.cur by omega)
        -- The earlier slice has a buffer in the list, so the head is not of this slice.
        have hle : c.slice ≤ k'.func := by
          obtain he | he | he := hf.head_before (d := { slice := k'.func, idx := g k'.func + 1 })
            (Nat.lt_succ_self _) (show g k'.func + 1 ≤ s.sent slices k'.func by omega)
          · exact he ▸ le_rfl
          · exact he.le
          · exact he.left.le
        obtain ⟨i, hi⟩ := slice_of_mem_chunks <| ho.subset <| List.mem_append_right _ <|
          List.mem_singleton_self _
        obtain rfl := Option.some.inj (hb.trans hi)
        exact absurd hle (by simpa using hlt)
    case refine_2 =>
      obtain ⟨hn, hr⟩ := (hc t).reading k (by rw [hk]; rfl)
      have hl := List.length_pos_of_ne_nil hn
      obtain rfl := e.of_return hk ho
      have hd := hd.complete t k (by simp)
      simp only [Task.received, hd, length_chunks, hk, WorkerPc.remaining, ho, List.count_nil] at hr
      omega

-- The runs in which every task receives its own slice's buffers are those whose pops are in order.
theorem delivered_iff_inOrder {s : State T} (r : (machine numQueues slices T).Run s) :
    r.Always (Delivered slices) ↔ r.Each (InOrder slices) := by
  refine r.always_iff_each (I := fun s => ∃ g, Ordered slices g s) ⟨_, ordered_init⟩ ?_ ?_ ?_
  · exact fun hr ⟨g, h⟩ => h.delivered (phased hr) (counted hr)
  · exact fun hr ⟨g, h⟩ hi e => h.step hr hi (step_cases e)
  · exact fun hr ⟨g, h⟩ hi e =>
      h.not_delivered (tasked hr) (phased hr) (counted hr) hi (step_cases e)

-- Two workers in the middle of two slices with a continuation each: the worker that is ready first
-- gets the first continuation.
theorem continuation_of_other_slice :
    let slices : List Slice := [⟨1, [.interim]⟩, ⟨1, [.interim]⟩]
    (∀ sl ∈ slices, sl.Matched) ∧
      ¬∀ s, (r : (machine 5 slices 2).Run s) → r.Always (Delivered slices) := by
  refine ⟨by decide, fun h => ?_⟩
  have ⟨r⟩ := Machine.reachable_after (machine 5 [⟨1, [.interim]⟩, ⟨1, [.interim]⟩] 2)
    (List.replicate 12 .producer ++ List.replicate 4 (.worker 0) ++ List.replicate 5 (.worker 1))
    rfl
  have hd := (h _ r).last.own 1 _ rfl
  revert hd
  decide

-- With one worker the continuations of two slices are never waited for at once.
theorem inOrder_of_one_worker (hm : ∀ sl ∈ slices, sl.Matched) {s : State 1}
    (r : (machine numQueues slices 1).Run s) : r.Each (InOrder slices) := by
  refine .of_reachable (fun p s h => ?_) r
  cases p with
  | producer => trivial
  | worker t =>
    refine ⟨fun k hk => ⟨?_, fun u _ hu => absurd (Subsingleton.elim u t) hu⟩, fun k _ _ =>
      count_shadow hm k.func⟩
    have ⟨_, hr⟩ := (counted h t).reading k (by rw [hk]; rfl)
    simp only [hk, WorkerPc.remaining, count_shadow hm] at hr
    omega

end Queues
