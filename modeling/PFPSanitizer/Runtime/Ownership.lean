import PFPSanitizer.Runtime.Steps
import Mathlib.Algebra.Order.BigOperators.Group.Finset

namespace Queues

variable {T : Nat} {numQueues : Nat} {slices : List Slice}

-- Where a buffer can be.
inductive Place (T : Nat)
  | emptyList
  | taskQueue
  | fullList
  | producer
  | worker (t : Fin T)
deriving DecidableEq

-- The producer holds a buffer while it fills it and until it has handed it off.
def ProducerPc.Holds : ProducerPc → Prop
  | .fill _ | .hand _ => True
  | _                 => False

instance : DecidablePred ProducerPc.Holds
  | .fill _ | .hand _          => isTrue trivial
  | .get | .wait _ | .join     => isFalse id

-- A worker holds a buffer from the pop that gave it to it until the push that returns it.
def WorkerPc.Holds : WorkerPc → Prop
  | .start _ | .run _ | .release _ => True
  | _                              => False

instance : DecidablePred WorkerPc.Holds
  | .start _ | .run _ | .release _               => isTrue trivial
  | .top | .size | .poll | .pop _ | .exited      => isFalse id

def Worker.holds (b : Int) (w : Worker) : Nat :=
  if w.pc.Holds ∧ w.bufIdx = b then 1 else 0

namespace State

-- How often the buffer `b` is at a place.
def count (s : State T) (b : Int) : Place T → Nat
  | .emptyList => s.emptyList.count b
  | .taskQueue => s.taskQueue.map Prod.snd |>.count b
  | .fullList  => s.fullList.count b
  | .producer  => if s.producer.Holds ∧ s.pQueueIdx = b then 1 else 0
  | .worker t  => (s.workers t).holds b

def places (s : State T) (b : Int) : Nat :=
  s.count b .emptyList + s.count b .taskQueue + s.count b .fullList + s.count b .producer +
    ∑ t, s.count b (.worker t)

end State

structure Owned (numQueues : Nat) (s : State T) : Prop where
  places : ∀ b, s.places b = if 0 ≤ b ∧ b < numQueues then 1 else 0
  free   : s.producer = .get → s.pQueueIdx = -1

theorem WorkerPc.Idle.not_holds {pc : WorkerPc} (h : pc.Idle) : ¬pc.Holds := by
  cases pc <;> simp_all [Idle, Holds]

theorem count_range_map_ofNat (n : Nat) (b : Int) :
    (List.range n |>.map Int.ofNat).count b = if 0 ≤ b ∧ b < n then 1 else 0 := by
  cases b with
  | ofNat m =>
    rw [List.count_map_of_injective _ _ (fun _ _ => Int.ofNat.inj), List.count_range]
    simp
  | negSucc m =>
    have h : Int.negSucc m ∉ (List.range n |>.map Int.ofNat) := by simp
    simp [List.count_eq_zero_of_not_mem h]

theorem owned_init : Owned numQueues (init numQueues : State T) where
  places b := by
    simp [State.places, State.count, init, Worker.holds, ProducerPc.Holds, WorkerPc.Holds,
      count_range_map_ofNat]
  free _ := rfl

@[simp]
theorem places_shadowSliceStart (s : State T) (i b : Int) :
    State.places { s with toRuntime := s.shadowSliceStart i } b = s.places b :=
  rfl

-- A worker that gives up or gets a buffer takes it to or from one of the queues.
theorem places_setWorker {s : State T} {t : Fin T} {w : Worker} {b : Int} {n : Nat}
    (h : s.places b + w.holds b = n + (s.workers t).holds b) :
    (setWorker t w s).places b = n := by
  have hs := sum_update s.workers t w (Worker.holds b)
  simp only [State.places, State.count, setWorker_toRuntime, setWorker_producer,
    setWorker_workers] at h ⊢
  omega

theorem Owned.step {s s' : State T} {p : Party T} (h : Owned numQueues s)
    (e : Step numQueues slices s p s') : Owned numQueues s' where
  free := by
    cases e <;> simp_all [h.free]
  places b := by
    rw [←h.places b]
    cases e
    case keep hp _ hi => simp [h.free hp] at hi
    case finish hp _ => simp [State.places, State.count, hp, ProducerPc.Holds]
    case acquire hp _ _ he | refill hp he =>
      simp [State.places, State.count, hp, he, ProducerPc.Holds, List.count_cons]
      omega
    case fill hp => simp [State.places, State.count, hp, ProducerPc.Holds]
    case handTask hp _ _ _ | handFull hp _ _ | endTask hp _ _ _ | endFull hp _ _ =>
      simp [State.places, State.count, hp, ProducerPc.Holds, List.count_cons]
      omega
    all_goals apply places_setWorker
    case look hi hi' _ =>
      simp [Worker.holds, hi.not_holds, hi'.not_holds]
    case exit hp _ =>
      simp [Worker.holds, hp, WorkerPc.Holds]
    case start hp | «return» hp _ | enter hp _ | leave hp _ =>
      simp [Worker.holds, hp, WorkerPc.Holds]
    case take hp hl | receive hp hl =>
      simp [Worker.holds, hp, hl, WorkerPc.Holds, State.places, State.count, List.count_cons]
      omega
    case interim hp _ _ | release hp _ =>
      simp [Worker.holds, hp, WorkerPc.Holds, State.places, State.count, List.count_cons]
      omega

theorem owned {s : State T} (h : (machine numQueues slices T).Reachable s) : Owned numQueues s :=
  h.invariant owned_init fun _ hi e => hi.step (step_cases e)

theorem exists_of_sum_eq_one {ι : Type} [Fintype ι] [DecidableEq ι] {n : ι → Nat}
    (h : ∑ i, n i = 1) : ∃ i, n i = 1 ∧ ∀ j, j ≠ i → n j = 0 := by
  have ⟨i, _, hi⟩ := Finset.exists_ne_zero_of_sum_ne_zero (h ▸ Nat.one_ne_zero)
  have he := Finset.add_sum_erase Finset.univ n (Finset.mem_univ i)
  have hz : ∑ j ∈ Finset.univ.erase i, n j = 0 := by omega
  exact ⟨i, by omega, fun j hj => Finset.sum_eq_zero_iff.mp hz j (by simp [hj])⟩

-- A buffer that is counted once over all places is at one of them.
theorem exists_place {s : State T} {b : Int} (h : s.places b = 1) :
    ∃ p : Place T, s.count b p = 1 ∧ ∀ q, q ≠ p → s.count b q = 0 := by
  rw [State.places] at h
  by_cases hw : ∑ t, s.count b (.worker t) = 0
  case neg =>
    have ⟨t, ht, hu⟩ := exists_of_sum_eq_one (n := fun t => s.count b (.worker t)) (by omega)
    refine ⟨.worker t, ht, fun q hq => ?_⟩
    cases q with
    | worker u => exact hu u (by simpa using hq)
    | _        => omega
  case pos =>
    have hw t : s.count b (.worker t) = 0 := Finset.sum_eq_zero_iff.mp hw t (Finset.mem_univ t)
    have hp : ∃ p : Place T, s.count b p = 1 := by
      by_contra hn
      have hn p := not_exists.mp hn p
      have := hn .emptyList
      have := hn .taskQueue
      have := hn .fullList
      have := hn .producer
      omega
    obtain ⟨p, hp⟩ := hp
    refine ⟨p, hp, fun q hq => ?_⟩
    cases q with
    | worker u => exact hw u
    | _        => cases p <;> simp_all <;> omega

theorem Owned.of_places_pos {s : State T} (h : Owned numQueues s) {b : Int} (hb : 0 < s.places b) :
    0 ≤ b ∧ b < numQueues := by
  rw [h.places] at hb
  split at hb
  · assumption
  · cases hb

theorem Owned.held_places {s : State T} (h : Owned numQueues s) (b : Int) :
    s.count b .producer + ∑ t, s.count b (.worker t) ≤ 1 := by
  have hp := h.places b
  rw [State.places] at hp
  split at hp <;> omega

-- The producer does not fill a buffer that a worker reads.
theorem Owned.not_filled_while_read {s : State T} (h : Owned numQueues s) {t : Fin T}
    (hp : s.producer.Holds) (hw : (s.workers t).pc.Holds) :
    s.pQueueIdx ≠ (s.workers t).bufIdx := by
  intro he
  have hc := h.held_places s.pQueueIdx
  have ht : s.count s.pQueueIdx (.worker t) ≤ ∑ u, s.count s.pQueueIdx (.worker u) :=
    Finset.single_le_sum (f := fun u => s.count s.pQueueIdx (.worker u))
      (fun _ _ => Nat.zero_le _) (Finset.mem_univ t)
  simp only [State.count, Worker.holds, hp, hw, ←he, and_self, if_true] at hc ht
  omega

-- Two workers do not read one buffer.
theorem Owned.bufIdx_ne {s : State T} (h : Owned numQueues s) {t u : Fin T} (hu : u ≠ t)
    (ht : (s.workers t).pc.Holds) (hw : (s.workers u).pc.Holds) :
    (s.workers u).bufIdx ≠ (s.workers t).bufIdx := by
  intro he
  have hc := h.held_places (s.workers t).bufIdx
  have hs : s.count (s.workers t).bufIdx (.worker t) + s.count (s.workers t).bufIdx (.worker u) ≤
      ∑ v, s.count (s.workers t).bufIdx (.worker v) := by
    rw [←Finset.sum_pair (f := fun v => s.count (s.workers t).bufIdx (.worker v)) hu.symm]
    exact Finset.sum_le_sum_of_subset (Finset.subset_univ _)
  simp only [State.count, Worker.holds, ht, hw, he, and_self, if_true] at hc hs
  omega

-- Every buffer is at one place, and there once.
theorem exactly_one_place {s : State T} (h : (machine numQueues slices T).Reachable s) :
    (∀ b : Int, 0 ≤ b ∧ b < numQueues →
      ∃ p : Place T, s.count b p = 1 ∧ ∀ q, q ≠ p → s.count b q = 0) ∧
    ∀ t, s.producer.Holds → (s.workers t).pc.Holds → s.pQueueIdx ≠ (s.workers t).bufIdx :=
  ⟨fun b hb => exists_place <| (owned h).places b |>.trans (if_pos hb),
   fun _ => (owned h).not_filled_while_read⟩

-- The producer fills its second buffer while a worker reads the first one.
theorem exactly_one_place_second_buffer :
    let s := (machine 3 [⟨1, [.interim]⟩] 1).after
      [.producer, .producer, .producer, .worker 0, .worker 0, .worker 0, .producer] rfl
    (∀ b : Int, 0 ≤ b ∧ b < (3 : Nat) →
      ∃ p : Place 1, s.count b p = 1 ∧ ∀ q, q ≠ p → s.count b q = 0) ∧
    ∀ t, s.producer.Holds → (s.workers t).pc.Holds → s.pQueueIdx ≠ (s.workers t).bufIdx :=
  exactly_one_place (Machine.reachable_after _ _ _)

end Queues
