import PFPSanitizer.Lib.Machine
import Mathlib.Data.Fintype.Basic
import Mathlib.Tactic.Simps.Basic

namespace Queues

-- The values that a slice left in one of its buffers: `idx` counts the buffers of the slice.
structure Chunk where
  slice : Nat
  idx   : Nat
deriving DecidableEq

-- What a shadow function does to the queues and to the indices of the per-buffer metadata.
-- A shadow function brackets its body in `fpsan_func_init` and `fpsan_func_exit`, so it uses its
-- index from `enter` to `leave`.
inductive ShadowOp
  | enter
  | leave
  | interim
deriving DecidableEq

-- `interims` counts the calls of `fpsanx_slice_end_interim` in the producer's execution of a slice,
-- `shadow` is the execution of its shadow function.
structure Slice where
  interims : Nat
  shadow   : List ShadowOp

namespace Slice

-- The shadow function switches buffers as often as the producer does.
def Matched (sl : Slice) : Prop :=
  sl.shadow.count .interim = sl.interims

instance (sl : Slice) : Decidable sl.Matched :=
  inferInstanceAs <| Decidable (_ = _)

end Slice

-- A function that a worker popped from the task queue. `func` is the number of its slice, `frames`
-- are the indices that the shadow functions below it got from `fpsanx_get_buf_idx_c` (innermost
-- first), and `got` are the contents of the buffers it was given so far.
structure Task where
  func   : Nat
  arg    : Int
  frames : List Int
  ops    : List ShadowOp
  got    : List (Option Chunk)
deriving DecidableEq

namespace Task

def indices (k : Task) : List Int :=
  k.arg :: k.frames

-- The number of continuation buffers that the task has received.
def received (k : Task) : Nat :=
  k.got.length - 1

end Task

-- The program points of `worker`. In `start` the task has been popped but not been entered, in
-- `pop` the worker is in `fpsanx_shadow_task_interim` between the push and the pop, in `release`
-- the task has returned but its last buffer is not in the empty list yet.
inductive WorkerPc
  | top
  | size
  | poll
  | start (k : Task)
  | run (k : Task)
  | pop (k : Task)
  | release (k : Task)
  | exited
deriving DecidableEq

structure Worker where
  pc     : WorkerPc
  bufIdx : Int

-- The program points of the producer. In `fill k`, `hand k` and `wait k` it has handed off `k`,
-- `k` and `k + 1` buffers of the current slice, and `wait` is the pop in
-- `fpsanx_slice_end_interim`.
inductive ProducerPc
  | get
  | fill (k : Nat)
  | hand (k : Nat)
  | wait (k : Nat)
  | join
deriving DecidableEq

-- The shared variables of the runtime. Shadow functions are named by the numbers of the functions
-- they belong to.
structure Runtime where
  emptyList    : List Int
  taskQueue    : List (Nat × Int)
  fullList     : List Int
  cloneFuncMap : Int → List (Nat × Nat)
  initFlag     : Int → Bool
  startSlice   : Bool
  pQueueIdx    : Int
  curTask      : Nat
  fini         : Bool

namespace Runtime

-- A bounded queue of tbb makes `push` wait while it is at its capacity.
def push {α : Type} (numQueues : Nat) (x : α) (q : List α) : Option (List α) :=
  if q.length < numQueues then some (q ++ [x]) else none

@[simps]
def init (numQueues : Nat) : Runtime where
  emptyList    := List.range numQueues |>.map Int.ofNat
  taskQueue    := []
  fullList     := []
  cloneFuncMap := fun _ => []
  initFlag     := fun _ => false
  startSlice   := false
  pQueueIdx    := -1
  curTask      := 0
  fini         := false

-- `clone_func_map[p_queue_idx]` keeps the first clone that is inserted for a function.
@[simps]
def insertClone (orig clone : Nat) (r : Runtime) : Runtime :=
  let m := r.cloneFuncMap r.pQueueIdx
  let m := if (m.lookup orig).isSome then m else (orig, clone) :: m
  { r with cloneFuncMap := Function.update r.cloneFuncMap r.pQueueIdx m }

def getBufAddr (orig clone : Nat) (r : Runtime) : Option Runtime :=
  if r.pQueueIdx < 0 then
    match r.emptyList with
    | []     => none
    | b :: l => some (insertClone orig clone { r with emptyList := l, pQueueIdx := b })
  else
    some (insertClone orig clone r)

@[simps]
def sliceStart (f : Nat) (r : Runtime) : Runtime :=
  { r with curTask := f }

def sliceEndInterimPush (numQueues : Nat) (r : Runtime) : Option Runtime :=
  if r.startSlice then
    some { r with fullList := r.fullList ++ [r.pQueueIdx] }
  else
    push numQueues (r.curTask, r.pQueueIdx) r.taskQueue |>.map fun q =>
      { r with taskQueue := q, startSlice := true }

def sliceEndInterimPop (r : Runtime) : Option Runtime :=
  match r.emptyList with
  | []     => none
  | b :: l => some { r with emptyList := l, pQueueIdx := b }

def sliceEnd (numQueues f : Nat) (r : Runtime) : Option Runtime :=
  if r.startSlice then
    some { r with startSlice := false, fullList := r.fullList ++ [r.pQueueIdx], pQueueIdx := -1 }
  else
    push numQueues (f, r.pQueueIdx) r.taskQueue |>.map fun q =>
      { r with taskQueue := q, pQueueIdx := -1 }

@[simps]
def shadowSliceStart (b : Int) (r : Runtime) : Runtime :=
  { r with initFlag := Function.update r.initFlag b true }

-- The push that returns a buffer, in `fpsanx_shadow_task_interim` and at the end of a task.
def release (numQueues : Nat) (b : Int) (r : Runtime) : Option Runtime :=
  push numQueues b r.emptyList |>.map fun l => { r with emptyList := l }

def shadowTaskInterimPop (r : Runtime) : Option (Int × Runtime) :=
  match r.fullList with
  | []     => none
  | b :: l => some (b, { r with fullList := l })

@[simps]
def finish (r : Runtime) : Runtime :=
  { r with fini := true }

end Runtime

-- The parties of the protocol: `queue` are the contents of the buffers, `cur` is the number of
-- slices that the producer has ended, and `completed` are the tasks whose last buffer has been
-- released.
structure State (T : Nat) extends Runtime where
  queue     : Int → Option Chunk
  cur       : Nat
  producer  : ProducerPc
  workers   : Fin T → Worker
  completed : List Nat

inductive Party (T : Nat)
  | producer
  | worker (t : Fin T)
deriving DecidableEq

variable {T : Nat} (numQueues : Nat) (slices : List Slice)

def interims (f : Nat) : Nat :=
  slices[f]? |>.elim 0 Slice.interims

def shadow (f : Nat) : List ShadowOp :=
  slices[f]? |>.elim [] Slice.shadow

def init : State T where
  toRuntime := .init numQueues
  queue     := fun _ => none
  cur       := 0
  producer  := .get
  workers   := fun _ => { pc := .top, bufIdx := 0 }
  completed := []

-- The producer executes the current slice until its buffer is full or the slice ends.
@[simps toRuntime queue cur producer workers completed]
def fillBuf (k : Nat) (s : State T) : State T :=
  { s with queue := Function.update s.queue s.pQueueIdx (some { slice := s.cur, idx := k }) }

-- The producer enters the slices one after the other and then `fpsan_finish`, where it waits for
-- the workers.
def produce (s : State T) : Option (State T) :=
  match s.producer with
  | .get =>
    if s.cur < slices.length then
      s.getBufAddr s.cur s.cur |>.map fun r =>
        { s with toRuntime := r.sliceStart s.cur, producer := .fill 0 }
    else
      some { s with toRuntime := s.finish, producer := .join }
  | .fill k =>
    some { fillBuf k s with producer := .hand k }
  | .hand k =>
    if k < interims slices s.cur then
      s.sliceEndInterimPush numQueues |>.map fun r => { s with toRuntime := r, producer := .wait k }
    else
      s.sliceEnd numQueues s.cur |>.map fun r =>
        { s with toRuntime := r, cur := s.cur + 1, producer := .get }
  | .wait k =>
    s.sliceEndInterimPop |>.map fun r => { s with toRuntime := r, producer := .fill (k + 1) }
  | .join =>
    none

@[simps toRuntime queue cur producer workers completed]
def setWorker (t : Fin T) (w : Worker) (s : State T) : State T :=
  { s with workers := Function.update s.workers t w }

def runTask (t : Fin T) (k : Task) (s : State T) : Option (State T) :=
  let b := (s.workers t).bufIdx
  match k.ops with
  | [] =>
    some (setWorker t { pc := .release k, bufIdx := b } s)
  | .enter :: ops =>
    some (setWorker t { pc := .run { k with frames := b :: k.frames, ops := ops }, bufIdx := b } s)
  | .leave :: ops =>
    some (setWorker t { pc := .run { k with frames := k.frames.tail, ops := ops }, bufIdx := b } s)
  | .interim :: _ =>
    s.release numQueues b |>.map fun r =>
      setWorker t { pc := .pop k, bufIdx := b } { s with toRuntime := r }

def work (t : Fin T) (s : State T) : Option (State T) :=
  let b := (s.workers t).bufIdx
  match (s.workers t).pc with
  | .top =>
    some (setWorker t { pc := if s.fini then .size else .poll, bufIdx := b } s)
  | .size =>
    some (setWorker t { pc := if s.taskQueue.length = 0 then .exited else .poll, bufIdx := b } s)
  | .poll =>
    match s.taskQueue with
    | []          => some (setWorker t { pc := .top, bufIdx := b } s)
    | (f, i) :: q =>
      let k := { func := f, arg := i, frames := [], ops := shadow slices f, got := [] }
      some (setWorker t { pc := .start k, bufIdx := i } { s with taskQueue := q })
  | .start k =>
    let w := { pc := .run { k with got := [s.queue b] }, bufIdx := b }
    some (setWorker t w { s with toRuntime := s.shadowSliceStart k.arg })
  | .run k =>
    runTask numQueues t k s
  | .pop k =>
    s.shadowTaskInterimPop |>.map fun (i, r) =>
      let k := { k with ops := k.ops.tail, got := k.got ++ [s.queue i] }
      setWorker t { pc := .run k, bufIdx := i } { s with toRuntime := r }
  | .release k =>
    s.release numQueues b |>.map fun r =>
      setWorker t { pc := .top, bufIdx := b }
        { s with toRuntime := r, completed := k.func :: s.completed }
  | .exited =>
    none

def machine (T : Nat) : Machine (State T) (Party T) where
  init := init numQueues
  step
    | .producer, s => produce numQueues slices s
    | .worker t, s => work numQueues slices t s

end Queues
