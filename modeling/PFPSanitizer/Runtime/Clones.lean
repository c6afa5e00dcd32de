import PFPSanitizer.Runtime.Steps

-- The clones of functions, which a shadow function looks up for an indirect call.
namespace Clones

open Queues

-- What a slice does that concerns the clones: it pushes values, and enters and leaves functions.
-- For an indirect call it pushes the address of the callee before it enters it.
inductive Event
  | push
  | enter (f : Nat)
  | call (f : Nat)
  | leave
deriving DecidableEq

-- The producer executes slice functions and enters other functions outside of the slices.
inductive Item
  | slice (func : Nat) (events : List Event)
  | outside (func : Nat)
deriving DecidableEq

-- `frames` are the indices that the shadow functions of a task use for their lookups, innermost
-- first: the argument of the shadow slice, and what the others got from `fpsanx_get_buf_idx_c`.
structure Task where
  frames : List Int
  events : List Event

-- `find` is the call of `fpsanx_get_clone_addr` with the address that has been read, `wait` is the
-- pop in `fpsanx_shadow_task_interim`. A worker that finds no task polls on.
inductive WorkerPc
  | poll
  | exec (k : Task)
  | find (callee : Nat) (toAddr : Option Nat) (k : Task)
  | wait (k : Task)

structure Worker where
  pc     : WorkerPc
  bufIdx : Int
  cQIdx  : Nat

inductive ProducerPc
  | get
  | exec (l : List Event)
  | wait (l : List Event)
  | join

-- `cells` are the contents of the buffers (`none` is a value that is no address of a function),
-- `entered` are the functions that the producer has entered, with the buffers that it then held,
-- and `found` are the callees of the indirect calls in the shadow functions, with what was called.
structure State (T : Nat) extends Runtime where
  cells    : Int → Nat → Option Nat
  qIdx     : Nat
  cur      : Nat
  producer : ProducerPc
  workers  : Fin T → Worker
  entered  : List (Int × Nat)
  found    : List (Nat × Option Nat)

-- Clones have the numbers of their functions. The dummy function is `none`.
def getCloneAddr (bufId : Int) (toAddr : Nat) (r : Runtime) : Option Nat :=
  (r.cloneFuncMap bufId).lookup toAddr

variable {T : Nat} (numQueues bufSize : Nat) (items : List Item)

def init : State T where
  toRuntime := .init numQueues
  cells     := fun _ _ => none
  qIdx      := 0
  cur       := 0
  producer  := .get
  workers   := fun _ => { pc := .poll, bufIdx := 0, cQIdx := 0 }
  entered   := []
  found     := []

-- The entry of an instrumented function.
def enter (f : Nat) (s : State T) : Option (State T) :=
  s.getBufAddr f f |>.map fun r =>
    { s with toRuntime := r, entered := (r.pQueueIdx, f) :: s.entered }

-- A push, before which a full buffer is handed off.
def push (val : Option Nat) (l next : List Event) (s : State T) : Option (State T) :=
  if s.qIdx < bufSize then
    let cell := Function.update (s.cells s.pQueueIdx) s.qIdx val
    some { s with
      cells := Function.update s.cells s.pQueueIdx cell, qIdx := s.qIdx + 1,
      producer := .exec next }
  else
    s.sliceEndInterimPush numQueues |>.map fun r =>
      { s with toRuntime := r, qIdx := 0, producer := .wait l }

def exec (l : List Event) (s : State T) : Option (State T) :=
  match l with
  | .push :: next    => push numQueues bufSize none l next s
  | .call f :: next  => push numQueues bufSize (some f) l (.enter f :: next) s
  | .enter f :: next => enter f s |>.map fun s => { s with producer := .exec next }
  | .leave :: next   => some { s with producer := .exec next }
  | []               =>
    s.sliceEnd numQueues s.cur |>.map fun r =>
      { s with toRuntime := r, qIdx := 0, cur := s.cur + 1, producer := .get }

def produce (s : State T) : Option (State T) :=
  match s.producer with
  | .get =>
    match items[s.cur]? with
    | some (.slice f l) =>
      enter f s |>.map fun s => { s with toRuntime := s.sliceStart s.cur, producer := .exec l }
    | some (.outside f) =>
      enter f s |>.map fun s => { s with cur := s.cur + 1 }
    | none              => some { s with toRuntime := s.finish, producer := .join }
  | .exec l =>
    exec numQueues bufSize l s
  | .wait l =>
    s.sliceEndInterimPop |>.map fun r => { s with toRuntime := r, producer := .exec l }
  | .join =>
    none

def setWorker (t : Fin T) (w : Worker) (s : State T) : State T :=
  { s with workers := Function.update s.workers t w }

-- The comparison in front of a read and at the entry of a shadow function.
def splitReadFromBuf (t : Fin T) (k : Task) (w : Worker) (s : State T) : Option (State T) :=
  let b := (s.workers t).bufIdx
  if (s.workers t).cQIdx < bufSize then
    some (setWorker t w s)
  else
    s.release numQueues b |>.map fun r =>
      setWorker t { pc := .wait k, bufIdx := b, cQIdx := 0 } { s with toRuntime := r }

-- The events behind the return of a function.
def behind : List Event → Nat → List Event
  | [], _                         => []
  | .leave :: l, 0                => l
  | .leave :: l, d + 1            => behind l d
  | .enter _ :: l, d
  | .call _ :: l, d               => behind l (d + 1)
  | .push :: l, d                 => behind l d

def shadowExec (t : Fin T) (k : Task) (s : State T) : Option (State T) :=
  let w := s.workers t
  match k.events with
  | .push :: l    =>
    splitReadFromBuf numQueues bufSize t k { w with pc := .exec { k with events := l },
                                                    cQIdx := w.cQIdx + 1 } s
  | .call f :: l  =>
    let addr := s.cells w.bufIdx w.cQIdx
    splitReadFromBuf numQueues bufSize t k { w with pc := .find f addr { k with events := l },
                                                    cQIdx := w.cQIdx + 1 } s
  | .enter _ :: l =>
    let k := { frames := w.bufIdx :: k.frames, events := l }
    splitReadFromBuf numQueues bufSize t k { w with pc := .exec k } s
  | .leave :: l   =>
    some (setWorker t { w with pc := .exec { frames := k.frames.tail, events := l } } s)
  | []            =>
    s.release numQueues w.bufIdx |>.map fun r =>
      setWorker t { w with pc := .poll } { s with toRuntime := r }

-- The dummy function does nothing.
def find (t : Fin T) (callee : Nat) (toAddr : Option Nat) (k : Task) (s : State T) : State T :=
  let clone := toAddr.bind (getCloneAddr (k.frames.headD 0) · s.toRuntime)
  let l     := if clone.isSome then .enter callee :: k.events else behind k.events 0
  setWorker t { s.workers t with pc := .exec { k with events := l } }
    { s with found := (callee, clone) :: s.found }

def events (i : Nat) : List Event :=
  match items[i]? with
  | some (.slice _ l) => l
  | _                 => []

def work (t : Fin T) (s : State T) : Option (State T) :=
  let w := s.workers t
  match w.pc with
  | .poll =>
    match s.taskQueue with
    | []          => none
    | (i, b) :: q =>
      let k := { frames := [b], events := events items i }
      some (setWorker t { pc := .exec k, bufIdx := b, cQIdx := 0 } { s with taskQueue := q })
  | .exec k               => shadowExec numQueues bufSize t k s
  | .find callee toAddr k => some (find t callee toAddr k s)
  | .wait k               =>
    s.shadowTaskInterimPop |>.map fun (b, r) =>
      setWorker t { pc := .exec k, bufIdx := b, cQIdx := 0 } { s with toRuntime := r }

def machine (T : Nat) : Machine (State T) (Party T) where
  init := init numQueues
  step
    | .producer, s => produce numQueues bufSize items s
    | .worker t, s => work numQueues bufSize items t s

-- Every indirect call in a shadow function has reached the clone of its callee.
def Right (s : State T) : Prop :=
  ∀ x ∈ s.found, x.snd = some x.fst

-- A callee is looked up by its address, after the producer has entered it with the buffer whose
-- index the shadow function uses.
def Entered : Party T → State T → Prop
  | .producer, _ => True
  | .worker t, s => ∀ f a k, (s.workers t).pc = .find f a k → a = some f ∧
      (k.frames.headD 0, f) ∈ s.entered

section

variable {numQueues bufSize : Nat} {items : List Item} {s s' : State T} {r r' : Runtime} {f g : Nat}

-- What a step does to the clones that are registered and to the calls.
inductive Effect (s : State T) : Party T → State T → Prop
  | enter {r : Runtime} {f : Nat} {s' : State T} :
    r.cloneFuncMap = s.cloneFuncMap → s'.cloneFuncMap = (r.insertClone f f).cloneFuncMap →
    s'.entered = (r.pQueueIdx, f) :: s.entered → s'.found = s.found → Effect s .producer s'
  | find {t : Fin T} {f : Nat} {a : Option Nat} {k : Task} {s' : State T} :
    (s.workers t).pc = .find f a k → s'.cloneFuncMap = s.cloneFuncMap → s'.entered = s.entered →
    s'.found = (f, a.bind (getCloneAddr (k.frames.headD 0) · s.toRuntime)) :: s.found →
      Effect s (.worker t) s'
  | produce {s' : State T} :
    s'.cloneFuncMap = s.cloneFuncMap → s'.entered = s.entered → s'.found = s.found →
      Effect s .producer s'
  | work {t : Fin T} {s' : State T} :
    (∀ f a k, (s.workers t).pc ≠ .find f a k) → s'.cloneFuncMap = s.cloneFuncMap →
      s'.entered = s.entered →
    s'.found = s.found → Effect s (.worker t) s'

theorem getBufAddr_eq (e : r.getBufAddr f g = some r') :
    ∃ r₁ : Runtime, r₁.cloneFuncMap = r.cloneFuncMap ∧ r' = r₁.insertClone f g := by
  rw [Runtime.getBufAddr] at e
  split at e
  case isTrue =>
    split at e
    case h_1 => cases e
    case h_2 b l _ =>
      cases e
      exact ⟨{ r with emptyList := l, pQueueIdx := b }, rfl, rfl⟩
  case isFalse => cases e; exact ⟨r, rfl, rfl⟩

theorem cloneFuncMap_sliceEndInterimPush (e : r.sliceEndInterimPush numQueues = some r') :
    r'.cloneFuncMap = r.cloneFuncMap := by
  rw [Runtime.sliceEndInterimPush] at e
  split at e
  case isTrue => cases e; rfl
  case isFalse => obtain ⟨q, _, rfl⟩ := Option.map_eq_some_iff.mp e; rfl

theorem cloneFuncMap_sliceEndInterimPop (e : r.sliceEndInterimPop = some r') :
    r'.cloneFuncMap = r.cloneFuncMap := by
  rw [Runtime.sliceEndInterimPop] at e
  split at e <;> cases e
  rfl

theorem cloneFuncMap_sliceEnd (e : r.sliceEnd numQueues f = some r') :
    r'.cloneFuncMap = r.cloneFuncMap := by
  rw [Runtime.sliceEnd] at e
  split at e
  case isTrue => cases e; rfl
  case isFalse => obtain ⟨q, _, rfl⟩ := Option.map_eq_some_iff.mp e; rfl

theorem cloneFuncMap_release {b : Int} (e : r.release numQueues b = some r') :
    r'.cloneFuncMap = r.cloneFuncMap := by
  obtain ⟨l, _, rfl⟩ := Option.map_eq_some_iff.mp e
  rfl

theorem cloneFuncMap_shadowTaskInterimPop {b : Int} (e : r.shadowTaskInterimPop = some (b, r')) :
    r'.cloneFuncMap = r.cloneFuncMap := by
  rw [Runtime.shadowTaskInterimPop] at e
  split at e <;> cases e
  rfl

theorem push_effect {val : Option Nat} {l next : List Event}
    (e : push numQueues bufSize val l next s = some s') :
    Effect s .producer s' := by
  rw [push] at e
  split at e
  case isTrue => cases e; exact .produce rfl rfl rfl
  case isFalse =>
    obtain ⟨r, hr, rfl⟩ := Option.map_eq_some_iff.mp e
    exact .produce (cloneFuncMap_sliceEndInterimPush hr) rfl rfl

theorem exec_effect {l : List Event} (e : exec numQueues bufSize l s = some s') :
    Effect s .producer s' := by
  rw [exec.eq_def] at e
  split at e
  case h_1 | h_2 => exact push_effect e
  case h_3 f next =>
    obtain ⟨_, he, rfl⟩ := Option.map_eq_some_iff.mp e
    obtain ⟨r, hr, rfl⟩ := Option.map_eq_some_iff.mp he
    obtain ⟨r₁, hm, rfl⟩ := getBufAddr_eq hr
    exact .enter hm rfl rfl rfl
  case h_4 => cases e; exact .produce rfl rfl rfl
  case h_5 =>
    obtain ⟨r, hr, rfl⟩ := Option.map_eq_some_iff.mp e
    exact .produce (cloneFuncMap_sliceEnd hr) rfl rfl

theorem produce_effect (e : produce numQueues bufSize items s = some s') :
    Effect s .producer s' := by
  rw [produce] at e
  split at e
  case h_1 =>
    split at e
    case h_1 | h_2 =>
      obtain ⟨_, he, rfl⟩ := Option.map_eq_some_iff.mp e
      obtain ⟨r, hr, rfl⟩ := Option.map_eq_some_iff.mp he
      obtain ⟨r₁, hm, rfl⟩ := getBufAddr_eq hr
      exact .enter hm rfl rfl rfl
    case h_3 => cases e; exact .produce rfl rfl rfl
  case h_2 => exact exec_effect e
  case h_3 =>
    obtain ⟨r, hr, rfl⟩ := Option.map_eq_some_iff.mp e
    exact .produce (cloneFuncMap_sliceEndInterimPop hr) rfl rfl
  case h_4 => cases e

theorem splitReadFromBuf_effect {t : Fin T} {k : Task} {w : Worker}
    (h : ∀ f a k, (s.workers t).pc ≠ .find f a k)
    (e : splitReadFromBuf numQueues bufSize t k w s = some s') : Effect s (.worker t) s' := by
  rw [splitReadFromBuf] at e
  split at e
  case isTrue => cases e; exact .work h rfl rfl rfl
  case isFalse =>
    obtain ⟨r, hr, rfl⟩ := Option.map_eq_some_iff.mp e
    exact .work h (cloneFuncMap_release hr) rfl rfl

theorem work_effect {t : Fin T} (e : work numQueues bufSize items t s = some s') :
    Effect s (.worker t) s' := by
  simp only [work] at e
  split at e
  case h_1 hp =>
    split at e
    case h_1 => cases e
    case h_2 => cases e; exact .work (by simp [hp]) rfl rfl rfl
  case h_2 k hp =>
    have h : ∀ f a k, (s.workers t).pc ≠ .find f a k := by simp [hp]
    simp only [shadowExec] at e
    split at e
    case h_1 | h_2 | h_3 => exact splitReadFromBuf_effect h e
    case h_4 => cases e; exact .work h rfl rfl rfl
    case h_5 =>
      obtain ⟨r, hr, rfl⟩ := Option.map_eq_some_iff.mp e
      exact .work h (cloneFuncMap_release hr) rfl rfl
  case h_3 hp =>
    cases e
    exact .find hp rfl rfl rfl
  case h_4 k hp =>
    obtain ⟨⟨b, r⟩, hr, rfl⟩ := Option.map_eq_some_iff.mp e
    exact .work (by simp [hp]) (cloneFuncMap_shadowTaskInterimPop hr) rfl rfl

theorem step_effect {p : Party T} (e : (machine numQueues bufSize items T).step p s = some s') :
    Effect s p s' := by
  cases p with
  | producer => exact produce_effect e
  | worker t => exact work_effect e

-- Exactly the functions that have been entered with a buffer are registered
-- for it, with their clones.
def Registered (s : State T) : Prop :=
  ∀ b f, (s.cloneFuncMap b).lookup f = if (b, f) ∈ s.entered then some f else none

theorem registered_init : Registered (init numQueues : State T) := by
  simp [Registered, init]

theorem lookup_insertClone {b : Int} {h : Nat} :
    ((r.insertClone f f).cloneFuncMap b).lookup h =
      if b = r.pQueueIdx ∧ h = f ∧ ((r.cloneFuncMap b).lookup f).isNone then some f
      else (r.cloneFuncMap b).lookup h := by
  rw [Runtime.insertClone_cloneFuncMap]
  by_cases hb : b = r.pQueueIdx
  case neg => simp [hb]
  case pos =>
    subst hb
    rw [Function.update_self]
    cases hl : (r.cloneFuncMap r.pQueueIdx).lookup f with
    | some g => simp
    | none   =>
      by_cases hf : h = f
      case pos => simp [hf]
      case neg => simp [hf, List.lookup_cons, beq_false_of_ne hf]

theorem Registered.step {p : Party T} (h : Registered s) (e : Effect s p s') : Registered s' := by
  intro b g
  cases e with
  | enter hr hm he _ =>
    rw [hm, lookup_insertClone, hr, he, h, h]
    simp only [List.mem_cons, Prod.mk.injEq]
    grind
  | find _ hm he _ | produce hm he _ | work _ hm he _ => rw [hm, he]; exact h b g

theorem Registered.bind_eq_some_iff {b : Int} {a : Option Nat} (h : Registered s) :
    a.bind (getCloneAddr b · s.toRuntime) = some f ↔ a = some f ∧ (b, f) ∈ s.entered := by
  cases a with
  | none   => simp
  | some g =>
    rw [Option.bind_some, getCloneAddr, h]
    by_cases hg : g = f
    case pos => simp [hg]
    case neg => simp [hg]

-- All the indirect calls reach the clones of their callees exactly if each callee has been entered
-- with the buffer that its caller uses.
theorem right_iff_entered (r : (machine numQueues bufSize items T).Run s) :
    r.Always Right ↔ r.Each Entered := by
  refine r.always_iff_each (I := fun s => Registered s ∧ Right s)
    ⟨registered_init, by simp [Right, machine, init]⟩ ?_ ?_ ?_
  case refine_1 => exact fun _ hi => hi.right
  case refine_2 =>
    intro p s s' _ hi hc e
    have e := step_effect e
    refine ⟨hi.left.step e, ?_⟩
    cases e with
    | find hp _ _ hf =>
      have hx := hi.left.bind_eq_some_iff.mpr (hc _ _ _ hp)
      rw [Right, hf]
      exact List.forall_mem_cons.mpr ⟨hx, hi.right⟩
    | enter _ _ _ hf | produce _ _ hf | work _ _ _ hf => rw [Right, hf]; exact hi.right
  case refine_3 =>
    intro p s s' _ hi hc e hr
    refine hc ?_
    have e := step_effect e
    cases p with
    | producer => trivial
    | worker t =>
      intro f a k hp
      cases e with
      | find hp' _ _ hf =>
        rw [hp] at hp'
        cases hp'
        rw [Right, hf] at hr
        exact hi.left.bind_eq_some_iff.mp (List.forall_mem_cons.mp hr).left
      | work hn _ _ _ => exact absurd hp (hn f a k)

-- The slice is in its second buffer when it calls a function that it has not called before.
theorem not_right_second_buffer :
    ¬∀ s, (r : (machine 3 1 [.slice 0 [.push, .call 5, .leave]] 1).Run s) → r.Always Right := by
  intro h
  obtain ⟨r⟩ := Machine.reachable_after (machine 3 1 [.slice 0 [.push, .call 5, .leave]] 1)
    (.replicate 8 .producer ++ .replicate 6 (.worker 0)) rfl
  exact absurd ((h _ r).last (5, none) (.head _)) nofun

end

end Clones
