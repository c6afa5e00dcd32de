import PFPSanitizer.Pass.Switches
import PFPSanitizer.Runtime.Queues

-- The build without workers, in which `fpsan_slice_end` runs the shadow slice itself. An operation
-- that waits for a queue waits forever, as nobody else is there to change it.
namespace Synchronous

open Queues (Runtime)
open Buffers

-- `NUM_QUEUES` for `NUM_THREADS == 0`.
def numQueues : Nat :=
  0 * 2 + 1

-- The buffers and what the shadow slices have read so far.
structure State (α : Type) extends Runtime where
  queue : Int → Nat → Option α
  reads : List (List (Option α))

section

variable {α : Type}

def init : State α where
  toRuntime := .init numQueues
  queue     := fun _ _ => none
  reads     := []

-- The runtime with the buffers that one side of a slice has been given, the current one last.
structure Side where
  runtime : Runtime
  bufs    : List Int

namespace Side

def sliceEndInterim (s : Side) : Option Side := do
  let r ← s.runtime.sliceEndInterimPush numQueues
  let r ← r.sliceEndInterimPop
  return { runtime := r, bufs := s.bufs ++ [r.pQueueIdx] }

def shadowTaskInterim (s : Side) : Option Side := do
  let r      ← s.runtime.release numQueues (s.bufs.getLastD 0)
  let (b, r) ← r.shadowTaskInterimPop
  return { runtime := r, bufs := s.bufs ++ [b] }

def repeated (f : Side → Option Side) : Nat → Side → Option Side
  | 0, s     => some s
  | n + 1, s => do
    let s ← f s
    repeated f n s

end Side

-- The stores of the producer, where the `j`-th buffer of the slice is `bufs[j]`.
def fill (bufs : List Int) (stores : List (Nat × Nat × α)) (queue : Int → Nat → Option α) :
    Int → Nat → Option α :=
  stores.foldl (fun q (j, i, val) =>
    let b := bufs.getD j 0
    Function.update q b (Function.update (q b) i (some val))) queue

variable (bufSize : Nat)

-- The shadow slice is called with the last buffer of the slice.
def sliceEnd (sl : Slice α) (s : State α) : Option (State α) := do
  let c := sl.consume bufSize
  let t ← Side.repeated Side.shadowTaskInterim c.held ⟨s.toRuntime, [s.pQueueIdx]⟩
  let r ← t.runtime.release numQueues t.runtime.pQueueIdx
  return {
    toRuntime := { r with pQueueIdx := -1 },
    queue     := s.queue,
    reads     := s.reads ++ [c.reads.map fun (j, i) => s.queue (t.bufs.getD j 0) i] }

def runSlice (sl : Slice α) (s : State α) : Option (State α) := do
  let f := s.reads.length
  let r ← s.getBufAddr f f
  let p ← sl.produce bufSize
  let t ← Side.repeated Side.sliceEndInterim p.held ⟨r.sliceStart f, [r.pQueueIdx]⟩
  sliceEnd bufSize sl { toRuntime := t.runtime, queue := fill t.bufs p.stores s.queue,
                        reads := s.reads }

def run (slices : List (Slice α)) : Option (State α) :=
  slices.foldlM (fun s sl => runSlice bufSize sl s) init

-- The values of a slice fit one buffer, and no function is entered behind the
-- last one if they fill it.
structure Fits (sl : Slice α) : Prop where
  le      : sl.args.length + sl.values.length ≤ bufSize
  entered : entered sl.shadow false → sl.args.length + sl.values.length < bufSize

end

section

variable {α : Type} {bufSize : Nat} {s : State α} {sl : Slice α}

namespace State

-- Between two slices.
structure Idle (s : State α) : Prop where
  emptyList  : s.emptyList = [0]
  taskQueue  : s.taskQueue = []
  fullList   : s.fullList = []
  startSlice : s.startSlice = false
  pQueueIdx  : s.pQueueIdx = -1

-- In a slice, which has the only buffer.
structure Busy (r : Runtime) : Prop where
  emptyList  : r.emptyList = []
  taskQueue  : r.taskQueue = []
  fullList   : r.fullList = []
  startSlice : r.startSlice = false
  pQueueIdx  : r.pQueueIdx = 0

theorem Idle.getBufAddr (h : s.Idle) (f : Nat) :
    ∃ r, s.getBufAddr f f = some r ∧ Busy (r.sliceStart f) := by
  rw [Runtime.getBufAddr, h.pQueueIdx, h.emptyList]
  exact ⟨_, rfl, rfl, h.taskQueue, h.fullList, h.startSlice, rfl⟩

end State

open State

namespace State.Busy

variable {r : Runtime} {bufs : List Int}

end State.Busy

-- The shadow slice asks for no other buffer exactly if the slice fits one.
theorem held_consume_eq_zero_iff (h₀ : 0 < bufSize) :
    (sl.consume bufSize).held = 0 ↔ Fits bufSize sl := by
  rw [sl.held_consume h₀]
  constructor
  case mp =>
    intro h
    cases he : entered sl.shadow false <;>
      simp only [he, Bool.false_eq_true, if_false, if_true] at h
    case true =>
      have hl := (Nat.div_eq_zero_iff_lt h₀).mp h
      exact ⟨Nat.le_of_lt hl, fun _ => hl⟩
    case false =>
      have hl := (Nat.div_eq_zero_iff_lt h₀).mp h
      exact ⟨by omega, fun ht => absurd (he.symm.trans ht) nofun⟩
  case mpr =>
    intro h
    have hle := h.le
    cases he : entered sl.shadow false <;> simp only [Bool.false_eq_true, if_false, if_true]
    case true  => exact Nat.div_eq_of_lt (h.entered he)
    case false => exact Nat.div_eq_of_lt (by omega)

-- Arguments that fit the first buffer are stored like values.
theorem placed_pushArgs (vs : List α) (h : vs.length ≤ bufSize) :
    (Producer.start.pushArgs vs).Placed bufSize vs where
  sliceF   := rfl
  curIndex := rfl
  qIdx_le  := by simpa [Producer.start, Producer.pushArgs] using h
  total    := by simp [Producer.start, Producer.pushArgs, Producer.cursor, Cursor.total]
  stores   := by
    refine List.mapIdx_eq_mapIdx_iff.mpr fun k hk => ?_
    have hl : k < bufSize := by omega
    simp [Producer.start, Nat.div_eq_of_lt hl, Nat.mod_eq_of_lt hl]

theorem Fits.produce (h₀ : 0 < bufSize) (h : Fits bufSize sl) :
    ∃ p, sl.produce bufSize = some p ∧ p.held = 0 ∧
      p.stores = (sl.args ++ sl.values).mapIdx fun k v => (k / bufSize, k % bufSize, v) := by
  have hle := h.le
  obtain ⟨p, hp, hs⟩ := (placed_pushArgs sl.args (by omega)).produce h₀ sl.events
  obtain ⟨p', hp', ht⟩ := (Producer.Turned.start sl.args).produce h₀ sl.events
  obtain rfl := Option.some.inj (hp.symm.trans hp')
  refine ⟨p, hp, ?_, hs.stores⟩
  rw [ht.held_eq h₀]
  refine Nat.div_eq_of_lt ?_
  have : (sl.events.flatMap Event.values).length = sl.values.length := rfl
  omega

-- While they fit, no value is overwritten.
theorem fill_eq (b : Int) (queue : Int → Nat → Option α) (vs : List α) (h : vs.length ≤ bufSize)
    {k : Nat} (hk : k < vs.length) :
    fill [b] (vs.mapIdx fun k v => (k / bufSize, k % bufSize, v)) queue b k = vs[k]? := by
  induction vs using List.reverseRecOn with
  | nil => cases hk
  | append_singleton vs v ih =>
    rw [List.length_append, List.length_singleton] at h hk
    have hl : vs.length < bufSize := h
    rw [List.mapIdx_concat, fill, List.foldl_concat, ← fill]
    simp only [Nat.div_eq_of_lt hl, Nat.mod_eq_of_lt hl, List.getD_cons_zero, Function.update_self]
    by_cases he : k = vs.length
    case pos => simp [he]
    case neg =>
      have hk : k < vs.length := by omega
      rw [Function.update_of_ne he, ih (Nat.le_of_lt hl) hk, List.getElem?_append_left hk]

theorem reads_eq (h₀ : 0 < bufSize) (h : Fits bufSize sl) {b : Int} {queue : Int → Nat → Option α} :
    let q := fill [b] ((sl.args ++ sl.values).mapIdx fun k v => (k / bufSize, k % bufSize, v)) queue
    ((sl.consume bufSize).reads.map fun (j, i) => q ([b].getD j 0) i) =
      (sl.args ++ sl.values).map some := by
  intro q
  have hle := h.le
  have hr := (Consumer.Placed.start.consume h₀ sl.shadow).reads
  rw [Nat.zero_add, sl.values_shadow] at hr
  rw [Slice.consume, hr, List.map_map]
  refine List.ext_getElem (by simp) fun k hk hk' => ?_
  rw [List.length_map, List.length_append] at hk'
  have hl : k < bufSize := by omega
  have hf := fill_eq b queue (sl.args ++ sl.values) (by simpa using hle) (by simpa using hk')
  rw [List.getElem_map, List.getElem_map, List.getElem_range, ← List.getElem?_eq_getElem, ← hf]
  simp [place, Nat.div_eq_of_lt hl, Nat.mod_eq_of_lt hl, q]

-- The values that a slice pushes, in order.
def pushed (sl : Slice α) : List (Option α) :=
  (sl.args ++ sl.values).map some

theorem sliceEnd_eq (hc : (sl.consume bufSize).held = 0) (hb : Busy s.toRuntime) :
    ∃ s', sliceEnd bufSize sl s = some s' ∧ s'.Idle ∧
      s'.reads = s.reads ++
      [(sl.consume bufSize).reads.map fun (j, i) => s.queue ([(0 : Int)].getD j 0) i] := by
  have hr : s.release numQueues 0 = some { s.toRuntime with emptyList := [0] } := by
    simp [Runtime.release, Runtime.push, hb.emptyList, numQueues]
  simp only [sliceEnd, hc, Side.repeated, Option.bind_eq_bind, Option.bind_some, hb.pQueueIdx, hr]
  exact ⟨_, rfl, ⟨rfl, hb.taskQueue, hb.fullList, hb.startSlice, rfl⟩, rfl⟩

theorem Fits.runSlice (h₀ : 0 < bufSize) (h : Fits bufSize sl) (hs : s.Idle) :
    ∃ s', runSlice bufSize sl s = some s' ∧ s'.Idle ∧ s'.reads = s.reads ++ [pushed sl] := by
  obtain ⟨r, hr, hb⟩ := hs.getBufAddr s.reads.length
  obtain ⟨p, hp, hz, hst⟩ := h.produce h₀
  have hc := (held_consume_eq_zero_iff h₀).mpr h
  have hi : r.pQueueIdx = 0 := hb.pQueueIdx
  simp only [Synchronous.runSlice, hr, hp, hz, Side.repeated, hi, Option.bind_eq_bind,
    Option.bind_some]
  obtain ⟨s', he, hs', hrd⟩ := sliceEnd_eq hc
    (s := { toRuntime := r.sliceStart s.reads.length, queue := fill [0] p.stores s.queue,
            reads := s.reads }) hb
  refine ⟨s', he, hs', ?_⟩
  rw [hrd, hst, reads_eq h₀ h]
  rfl

end

end Synchronous
