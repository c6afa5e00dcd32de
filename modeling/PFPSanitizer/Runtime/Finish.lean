import PFPSanitizer.Runtime.Delivery

namespace Queues

variable {T : Nat} {numQueues : Nat} {slices : List Slice}

-- The producer also enters instrumented functions, in the slices and outside of them.
inductive Action (T : Nat)
  | party (p : Party T)
  | enter (orig clone : Nat)
deriving DecidableEq

-- Outside of a slice the first function acquires the buffer for the slice to come.
def enterFunction (orig clone : Nat) (s : State T) : Option (State T) :=
  match s.producer with
  | .get | .fill _ => s.getBufAddr orig clone |>.map fun r => { s with toRuntime := r }
  | _              => none

def program (numQueues : Nat) (slices : List Slice) (T : Nat) : Machine (State T) (Action T) where
  init := init numQueues
  step
    | .party p, s          => (machine numQueues slices T).step p s
    | .enter orig clone, s => enterFunction orig clone s

-- `s'` is `s` but for the functions that have been entered. The buffer that the producer has
-- acquired outside of a slice still is the next one of the empty list in `s`.
inductive Ahead (s : State T) : State T → Prop
  | same (m : Int → List (Nat × Nat)) :
    Ahead s { s with cloneFuncMap := m }
  | holds (m : Int → List (Nat × Nat)) {b : Int} {l : List Int} :
    s.producer = .get ∨ s.producer = .join → s.pQueueIdx = -1 → 0 ≤ b → s.emptyList = b :: l →
    Ahead s { s with cloneFuncMap := m, emptyList := l, pQueueIdx := b }

namespace Ahead

variable {s s' t : State T}

theorem produce (h : Ahead s s') (e : Step numQueues slices s' .producer t) :
    ∃ u, Step numQueues slices s .producer u ∧ Ahead u t := by
  cases h with
  | same m =>
    cases e with
    | acquire hp hc hi he    => exact ⟨_, .acquire hp hc hi he, .same _⟩
    | keep hp hc hi          => exact ⟨_, .keep hp hc hi, .same _⟩
    | finish hp hc           => exact ⟨_, .finish hp hc, .same _⟩
    | fill hp                => exact ⟨_, .fill hp, .same _⟩
    | handTask hp hk hs hl   => exact ⟨_, .handTask hp hk hs hl, .same _⟩
    | handFull hp hk hs      => exact ⟨_, .handFull hp hk hs, .same _⟩
    | endTask hp hk hs hl    => exact ⟨_, .endTask hp hk hs hl, .same _⟩
    | endFull hp hk hs       => exact ⟨_, .endFull hp hk hs, .same _⟩
    | refill hp he           => exact ⟨_, .refill hp he, .same _⟩
  | holds m hg hi hb he =>
    cases e with
    | acquire _ _ hn _ => exact absurd hb (Int.not_le.mpr hn)
    | keep hp hc _     => exact ⟨_, .acquire hp hc (by simp [hi]) he, .same _⟩
    | finish hp hc     => exact ⟨_, .finish hp hc, .holds _ (.inr rfl) hi hb he⟩
    | _                => simp_all

theorem work {w : Fin T} (ho : Owned numQueues s) (h : Ahead s s')
    (e : Step numQueues slices s' (.worker w) t) :
    ∃ u, Step numQueues slices s (.worker w) u ∧ Ahead u t := by
  cases h with
  | same m =>
    cases e with
    | look hi hi' hs   => exact ⟨_, .look hi hi' hs, .same _⟩
    | exit hp hq       => exact ⟨_, .exit hp hq, .same _⟩
    | take hp hq       => exact ⟨_, .take hp hq, .same _⟩
    | start hp         => exact ⟨_, .start hp, .same _⟩
    | «return» hp hk   => exact ⟨_, .return hp hk, .same _⟩
    | enter hp hk      => exact ⟨_, .enter hp hk, .same _⟩
    | leave hp hk      => exact ⟨_, .leave hp hk, .same _⟩
    | interim hp hk hl => exact ⟨_, .interim hp hk hl, .same _⟩
    | receive hp hl    => exact ⟨_, .receive hp hl, .same _⟩
    | release hp hl    => exact ⟨_, .release hp hl, .same _⟩
  | holds m hg hi hb he =>
    cases e with
    | look h hi' hs    => exact ⟨_, .look h hi' hs, .holds _ hg hi hb he⟩
    | exit hp hq       => exact ⟨_, .exit hp hq, .holds _ hg hi hb he⟩
    | take hp hq       => exact ⟨_, .take hp hq, .holds _ hg hi hb he⟩
    | start hp         => exact ⟨_, .start hp, .holds _ hg hi hb he⟩
    | «return» hp hk   => exact ⟨_, .return hp hk, .holds _ hg hi hb he⟩
    | enter hp hk      => exact ⟨_, .enter hp hk, .holds _ hg hi hb he⟩
    | leave hp hk      => exact ⟨_, .leave hp hk, .holds _ hg hi hb he⟩
    | receive hp hl    => exact ⟨_, .receive hp hl, .holds _ hg hi hb he⟩
    | interim hp hk _  =>
      have hl := ho.emptyList_lt (t := w) (by rw [hp]; trivial)
      exact ⟨_, .interim hp hk hl, .holds _ hg hi hb (congrArg (· ++ _) he)⟩
    | release hp _     =>
      have hl := ho.emptyList_lt (t := w) (by rw [hp]; trivial)
      exact ⟨_, .release hp hl, .holds _ hg hi hb (congrArg (· ++ _) he)⟩

theorem enterFunction {orig clone : Nat} (ho : Owned numQueues s) (h : Ahead s s')
    (e : enterFunction orig clone s' = some t) : Ahead s t := by
  rw [Queues.enterFunction] at e
  split at e
  case h_3 => cases e
  all_goals
    rename_i hp
    obtain ⟨r, hr, rfl⟩ := Option.map_eq_some_iff.mp e
    rw [Runtime.getBufAddr] at hr
    split at hr
    case isFalse =>
      cases hr
      cases h with
      | same m              => exact .same _
      | holds m hg hi hb he => exact .holds _ hg hi hb he
  case h_1.isTrue hn =>
    cases h with
    | holds m hg hi hb he => exact absurd hb (Int.not_le.mpr hn)
    | same m =>
      split at hr
      case h_1 => cases hr
      case h_2 b l he =>
        cases hr
        have hc : 0 < s.emptyList.count b := List.count_pos_iff.mpr (he ▸ List.mem_cons_self)
        refine .holds _ (.inl hp) (ho.free hp) (ho.of_places_pos (b := b) ?_).left he
        simp only [State.places, State.count]
        omega
  case h_2.isTrue hn =>
    cases h with
    | holds m hg hi hb he => exact absurd hb (Int.not_le.mpr hn)
    | same m =>
      refine absurd (ho.of_places_pos (b := s.pQueueIdx) ?_).left (Int.not_le.mpr hn)
      have hh : s.producer.Holds := by rw [hp]; trivial
      simp only [State.places, State.count, hh, true_and, if_true]
      omega

end Ahead

-- The machine without the entries of functions that the program follows.
structure Follows (numQueues : Nat) (slices : List Slice) (s s' : State T) : Prop where
  owned    : Owned numQueues s
  phased   : Phased slices s
  tasked   : Tasked s
  balanced : Balanced slices s
  ahead    : Ahead s s'

theorem exists_follows (hm : ∀ sl ∈ slices, sl.Matched) {s' : State T}
    (h : (program numQueues slices T).Reachable s') : ∃ s, Follows numQueues slices s s' := by
  refine h.invariant (I := fun s' => ∃ s, Follows numQueues slices s s')
    ⟨_, owned_init, phased_init, tasked_init, balanced_init, .same _⟩ ?_
  rintro p s' t _ ⟨s, ho, hp, ht, hb, ha⟩ e
  cases p with
  | enter orig clone => exact ⟨s, ho, hp, ht, hb, ha.enterFunction ho e⟩
  | party p =>
    cases p with
    | producer =>
      obtain ⟨u, e, ha⟩ := ha.produce (step_cases e)
      exact ⟨u, ho.step e, hp.produce e, ht.produce hp e, hb.produce hp e, ha⟩
    | worker w =>
      obtain ⟨u, e, ha⟩ := ha.work ho (step_cases e)
      exact ⟨u, ho.step e, hp.work e, ht.work e, hb.work hm e, ha⟩

-- The call of the task of the slice `f`, and the push of its last buffer.
def begins (f : Nat) : Action T → State T → Bool
  | .party (.worker t), s =>
    match (s.workers t).pc with
    | .start k => k.func = f
    | _        => false
  | _, _ => false

def ends (f : Nat) : Action T → State T → Bool
  | .party (.worker t), s =>
    match (s.workers t).pc with
    | .release k => k.func = f
    | _          => false
  | _, _ => false

-- The action belongs to a worker that is between the two.
def executes (f : Nat) (s : State T) : Action T → Nat
  | .party (.worker t) => if (s.workers t).pc.reading?.map Task.func = some f then 1 else 0
  | _                  => 0

section

variable {a : Action T} {s s' : State T} {f : Nat}

theorem enterFunction_sameWorkers {orig clone : Nat} (e : enterFunction orig clone s = some s') :
    SameWorkers s s' := by
  rw [enterFunction] at e
  split at e
  case h_3 => cases e
  all_goals
    obtain ⟨r, hr, rfl⟩ := Option.map_eq_some_iff.mp e
    rw [Runtime.getBufAddr] at hr
    split at hr
    case isFalse => cases hr; constructor <;> rfl
    case isTrue =>
      split at hr
      · cases hr
      · cases hr; constructor <;> rfl

theorem executes_of_sameWorkers (h : SameWorkers s s') (b : Action T) :
    executes f s' b = executes f s b := by
  cases b with
  | enter => rfl
  | party p =>
    cases p with
    | producer => rfl
    | worker t => simp [executes, h.workers]

theorem completed_step (e : (program numQueues slices T).step a s = some s') :
    s'.completed.count f = s.completed.count f + if ends f a s then 1 else 0 := by
  cases a with
  | enter orig clone => simp [(enterFunction_sameWorkers e).completed, ends]
  | party p =>
    have e := step_cases e
    cases p with
    | producer => simp [e.sameWorkers.completed, ends]
    | worker t =>
      cases e with
      | look hi hi' hs => cases hp : (s.workers t).pc <;> simp_all [ends, WorkerPc.Idle]
      | release hp hl  => simp [ends, hp, List.count_cons]
      | _              => simp_all [ends]

theorem executes_step (e : (program numQueues slices T).step a s = some s') (b : Action T) :
    executes f s' b + (if ends f a s ∧ a = b then 1 else 0) = executes f s b + if begins f a s ∧
    a = b then 1 else 0 := by
  cases a with
  | enter orig clone => simp [executes_of_sameWorkers (enterFunction_sameWorkers e), begins, ends]
  | party p =>
    have e := step_cases e
    cases p with
    | producer => simp [executes_of_sameWorkers e.sameWorkers, begins, ends]
    | worker t =>
      by_cases hb : Action.party (.worker t) = b
      case neg =>
        cases b with
        | enter => simp [executes]
        | party q =>
          cases q with
          | producer => simp [executes]
          | worker u =>
            have hu : u ≠ t := by rintro rfl; exact hb rfl
            simp [executes, e.worker_ne hu, hb]
      case pos =>
        subst hb
        cases e with
        | look hi hi' hs =>
          simp [executes, hi.reading?_eq_none, hi'.reading?_eq_none]
          cases hp : (s.workers t).pc <;> simp_all [begins, ends, WorkerPc.Idle]
        | _ => simp_all [executes, begins, ends, WorkerPc.reading?]

theorem length_ends (r : (program numQueues slices T).Run s) :
    (r.parties (ends f)).length = s.completed.count f := by
  induction r with
  | init          => rfl
  | step r a e ih => rw [Machine.Run.length_parties, completed_step e, ih]

theorem count_begins (r : (program numQueues slices T).Run s) (b : Action T) :
    (r.parties (begins f)).count b = (r.parties (ends f)).count b + executes f s b := by
  induction r with
  | init          => rcases b with ⟨_ | _⟩ | _ <;> rfl
  | step r a e ih =>
    have hs := executes_step (f := f) e b
    rw [Machine.Run.count_parties, Machine.Run.count_parties]
    omega

end

-- All the workers have been joined.
def State.Joined (s : State T) : Prop :=
  s.producer = .join ∧ ∀ t, (s.workers t).pc = .exited

namespace Follows

variable {s s' : State T}

theorem joined (h : Follows numQueues slices s s') (hj : s'.Joined) : s.Joined := by
  cases h.ahead <;> exact hj

theorem taskQueue_eq (h : Follows numQueues slices s s') : s'.taskQueue = s.taskQueue := by
  cases h.ahead <;> rfl

theorem fullList_eq (h : Follows numQueues slices s s') : s'.fullList = s.fullList := by
  cases h.ahead <;> rfl

theorem completed_eq (h : Follows numQueues slices s s') : s'.completed = s.completed := by
  cases h.ahead <;> rfl

end Follows

namespace State.Joined

variable {s : State T}

-- The workers see an empty task queue after `fini` is set, and nobody pushes a task then.
theorem taskQueue_nil (h : s.Joined) (hT : 0 < T) (hp : Phased slices s) : s.taskQueue = [] :=
  (hp.exited ⟨0, hT⟩ (h.right _)).right

theorem fullList_nil (h : s.Joined) (hq : s.taskQueue = []) (hb : Balanced slices s) :
    s.fullList = [] := by
  simp only [Balanced, State.owed, State.demand, h.left, hq, Worker.remaining, h.right,
    WorkerPc.remaining] at hb
  simpa using hb

theorem count_completed (h : s.Joined) (hq : s.taskQueue = []) (hp : Phased slices s)
    (ht : Tasked s) {f : Nat} (hf : f < slices.length) : s.completed.count f = 1 := by
  have ho := ht.once f
  have ha := hp.at
  simp only [State.At, h.left] at ha
  simp only [State.tasks, hq, State.pushed, ha, hp.join h.left, Worker.runs, h.right,
    WorkerPc.task?] at ho
  simpa [hf] using ho

theorem count_emptyList (h : s.Joined) (hq : s.taskQueue = []) (hf : s.fullList = [])
    (ho : Owned numQueues s) {b : Int} (hb : 0 ≤ b ∧ b < numQueues) : s.emptyList.count b = 1 := by
  have hp := ho.places b
  simp only [State.places, State.count, hq, hf, h.left, ProducerPc.Holds, Worker.holds, h.right,
    WorkerPc.Holds] at hp
  simpa [hb] using hp

theorem executes_eq_zero (h : s.Joined) (f : Nat) (b : Action T) : executes f s b = 0 := by
  rcases b with ⟨_ | t⟩ | _
  · rfl
  · simp [executes, h.right, WorkerPc.reading?]
  · rfl

end State.Joined

theorem Ahead.count_emptyList {s s' : State T} (h : Ahead s s') {b : Int} (hb : b ≠ s'.pQueueIdx) :
    s'.emptyList.count b = s.emptyList.count b := by
  cases h with
  | same m              => rfl
  | holds m hg hi h₀ he => simp [he, Ne.symm hb]

-- When `fpsan_finish` has joined the workers, every task has been executed once by one of them, and
-- the buffers are back.
theorem executed_once_of_joined (hT : 0 < T) (hm : ∀ sl ∈ slices, sl.Matched) {s : State T}
    (r : (program numQueues slices T).Run s) (hj : s.Joined) :
    (∀ f < slices.length, ∃ t,
      r.parties (begins f) = [.party (.worker t)] ∧ r.parties (ends f) = [.party (.worker t)]) ∧
    s.taskQueue = [] ∧ s.fullList = [] ∧
    ∀ b : Int, 0 ≤ b ∧ b < numQueues → b ≠ s.pQueueIdx → s.emptyList.count b = 1 := by
  obtain ⟨u, hu⟩ := exists_follows hm ⟨r⟩
  have hju := hu.joined hj
  have hq := hju.taskQueue_nil hT hu.phased
  have hf := hju.fullList_nil hq hu.balanced
  refine ⟨fun f hlt => ?_, hu.taskQueue_eq.trans hq, hu.fullList_eq.trans hf, fun b hb hne => ?_⟩
  case refine_1 =>
    have hc := hju.count_completed hq hu.phased hu.tasked hlt
    rw [← hu.completed_eq, ← length_ends r] at hc
    obtain ⟨a, ha⟩ := List.length_eq_one_iff.mp hc
    have hp : (r.parties (begins f)).Perm [a] := List.perm_iff_count.mpr fun b => by
      rw [count_begins, hj.executes_eq_zero, ha, Nat.add_zero]
    obtain ⟨_, he⟩ :=
      Machine.Run.exists_of_mem_parties (ha ▸ List.mem_singleton_self a : a ∈ r.parties (ends f))
    rcases a with ⟨_ | t⟩ | _
    · simp [ends] at he
    · exact ⟨t, List.perm_singleton.mp hp, ha⟩
    · simp [ends] at he
  case refine_2 =>
    exact (hu.ahead.count_emptyList hne).trans (hju.count_emptyList hq hf hu.owned hb)

-- A slice with a continuation and one without, run by one worker each. The producer ends up with a
-- buffer for a function that it enters behind them.
theorem executed_once_of_joined_two :
    let slices : List Slice := [⟨1, [.enter, .interim, .leave]⟩, ⟨0, [.enter, .leave]⟩]
    let s := (program 5 slices 2).after
      (.replicate 9 (.party .producer) ++ [.enter 7 8, .party .producer] ++
        .replicate 10 (.party (.worker 0)) ++ .replicate 10 (.party (.worker 1)) ++
        .replicate 2 (.party (.worker 0))) rfl
    ∃ r : (program 5 slices 2).Run s,
      (∀ f < 2, ∃ t,
        r.parties (begins f) = [.party (.worker t)] ∧ r.parties (ends f) = [.party (.worker t)]) ∧
      s.taskQueue = [] ∧ s.fullList = [] ∧
      ∀ b : Int, 0 ≤ b ∧ b < (5 : Nat) → b ≠ s.pQueueIdx → s.emptyList.count b = 1 := by
  intro slices s
  have hj : s.Joined := ⟨rfl, by decide⟩
  obtain ⟨r⟩ : (program 5 slices 2).Reachable s := Machine.reachable_after _ _ _
  exact ⟨r, executed_once_of_joined (by decide) (by decide) r hj⟩

end Queues
