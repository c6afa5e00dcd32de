import PFPSanitizer.Runtime.Steps

namespace Cursors

open Queues

-- What the execution of a slice function does to the buffers. `own` is a value of the slice
-- function itself, whose push does not test the slice flag, `inner` is a value of a function it
-- calls, and `enter f` is the entry of the function `f`.
inductive Event
  | own
  | inner
  | enter (f : Nat)
deriving DecidableEq

-- The execution of a slice function before and after its call of `end_slice`.
structure Slice where
  body : List Event
  tail : List Event

-- The `idx`-th value that the slice `slice` pushes.
structure Stamp where
  slice : Nat
  idx   : Nat
deriving DecidableEq

-- A program point in a slice function: the events to come, and those after `end_slice` as long as
-- that has not been called.
structure Point where
  events : List Event
  tail   : Option (List Event)
deriving DecidableEq

namespace Point

def next (p : Point) : Point :=
  { p with events := p.events.tail }

-- The events before `end_slice` are over.
def leaveSlice (tail : List Event) : Point :=
  { events := tail, tail := none }

end Point

namespace Slice

-- The shadow function starts as any function does.
def producer (sl : Slice) : Point :=
  { events := sl.body, tail := some sl.tail }

def shadow (f : Nat) (sl : Slice) : Point :=
  { events := .enter f :: sl.body, tail := some sl.tail }

end Slice

-- `put` is the block `update` of a push, `wait` is the pop in `fpsanx_slice_end_interim`.
inductive ProducerPc
  | outside
  | exec (p : Point)
  | put (p : Point)
  | wait (p : Point)
  | join

-- `read` is the block `split` of a read, `wait` is the pop in `fpsanx_shadow_task_interim`.
inductive WorkerPc
  | top
  | size
  | poll
  | start (f : Nat) (arg : Int)
  | exec (f : Nat) (p : Point)
  | read (f : Nat) (p : Point)
  | wait (f : Nat) (p : Point)
  | release
  | exited

-- `cQIdx` is the thread-local index `CQIdx` and `got` the values that the current task has read.
structure Worker where
  pc     : WorkerPc
  bufIdx : Int
  cQIdx  : Nat
  got    : List (Option Stamp)

-- `qIdx`, `curIndex` and `sliceFlag` are the globals of the instrumented program (`curIndex` is the
-- buffer that the address points into), `sent` counts the values pushed since the entry of the
-- slice function.
structure State (T : Nat) extends Runtime where
  cells     : Int → Nat → Option Stamp
  qIdx      : Nat
  curIndex  : Int
  sliceFlag : Bool
  sent      : Nat
  cur       : Nat
  producer  : ProducerPc
  workers   : Fin T → Worker

variable {T : Nat} (numQueues bufSize : Nat) (slices : List Slice)

def init : State T where
  toRuntime := .init numQueues
  cells     := fun _ _ => none
  qIdx      := 0
  curIndex  := 0
  sliceFlag := false
  sent      := 0
  cur       := 0
  producer  := .outside
  workers   := fun _ => { pc := .top, bufIdx := 0, cQIdx := 0, got := [] }

-- The entry of an instrumented function.
def enter (f : Nat) (s : State T) : Option (State T) :=
  s.getBufAddr f f |>.map fun r => { s with toRuntime := r, curIndex := r.pQueueIdx }

-- The block `updatecmp`: a full buffer is handed off first.
def updateCmp (p : Point) (s : State T) : Option (State T) :=
  if s.qIdx < bufSize then
    some { s with producer := .put p }
  else
    s.sliceEndInterimPush numQueues |>.map fun r =>
      { s with toRuntime := r, qIdx := 0, producer := .wait p }

-- The block `update`.
def update (p : Point) (s : State T) : State T :=
  let cell := Function.update (s.cells s.curIndex) s.qIdx (some { slice := s.cur, idx := s.sent })
  { s with
    cells := Function.update s.cells s.curIndex cell, qIdx := s.qIdx + 1, sent := s.sent + 1,
    producer := .exec p.next }

def endSlice (tail : List Event) (s : State T) : Option (State T) :=
  s.sliceEnd numQueues s.cur |>.map fun r =>
    { s with toRuntime := r, sliceFlag := false, qIdx := 0, producer := .exec (.leaveSlice tail) }

def exec (p : Point) (s : State T) : Option (State T) :=
  match p.events, p.tail with
  | .own :: _, _     => updateCmp numQueues bufSize p s
  | .inner :: _, _   =>
    -- A callee tests the slice flag that it finds at its entry.
    if s.sliceFlag then
      updateCmp numQueues bufSize p s
    else
      some { s with producer := .exec p.next }
  | .enter f :: _, _ => enter f s |>.map fun s => { s with producer := .exec p.next }
  | [], some tail    => endSlice numQueues tail s
  | [], none         => some { s with cur := s.cur + 1, producer := .outside }

def produce (s : State T) : Option (State T) :=
  match s.producer with
  | .outside =>
    match slices[s.cur]? with
    | some sl =>
      enter s.cur s |>.map fun s =>
        { s with
          toRuntime := s.sliceStart s.cur, sliceFlag := true, sent := 0,
          producer := .exec sl.producer }
    | none => some { s with toRuntime := s.finish, producer := .join }
  | .exec p =>
    exec numQueues bufSize p s
  | .put p =>
    some (update p s)
  | .wait p =>
    s.sliceEndInterimPop |>.map fun r =>
      { s with toRuntime := r, curIndex := r.pQueueIdx, producer := .put p }
  | .join =>
    none

@[simps toRuntime cells qIdx curIndex sliceFlag sent cur producer workers]
def setWorker (t : Fin T) (w : Worker) (s : State T) : State T :=
  { s with workers := Function.update s.workers t w }

-- The comparison in front of a read and at the entry of every shadow function: a worker that has
-- read its whole buffer asks for the next one.
def splitReadFromBuf (t : Fin T) (f : Nat) (p : Point) (pc : WorkerPc) (s : State T) :
    Option (State T) :=
  let w := s.workers t
  if w.cQIdx < bufSize then
    some (setWorker t { w with pc := pc } s)
  else
    s.release numQueues w.bufIdx |>.map fun r =>
      setWorker t { w with pc := .wait f p, cQIdx := 0 } { s with toRuntime := r }

def readFromBuf (t : Fin T) (f : Nat) (p : Point) (s : State T) : State T :=
  let w := s.workers t
  setWorker t
    { w with
      pc := .exec f p.next, cQIdx := w.cQIdx + 1, got := w.got ++ [s.cells w.bufIdx w.cQIdx] } s

-- What a shadow function does once its worker has a buffer to read from.
def resume (f : Nat) (p : Point) : WorkerPc :=
  match p.events with
  | .own :: _ | .inner :: _ => .read f p
  | .enter _ :: _ | []      => .exec f p.next

def shadowExec (t : Fin T) (f : Nat) (p : Point) (s : State T) : Option (State T) :=
  match p.events, p.tail with
  | _ :: _, _     => splitReadFromBuf numQueues bufSize t f p (resume f p) s
  | [], some tail =>
    some (setWorker t { s.workers t with pc := .exec f (.leaveSlice tail), cQIdx := 0 } s)
  | [], none      => some (setWorker t { s.workers t with pc := .release } s)

def work (t : Fin T) (s : State T) : Option (State T) :=
  let w := s.workers t
  match w.pc with
  | .top =>
    some (setWorker t { w with pc := if s.fini then .size else .poll } s)
  | .size =>
    some (setWorker t { w with pc := if s.taskQueue.length = 0 then .exited else .poll } s)
  | .poll =>
    match s.taskQueue with
    | []          => some (setWorker t { w with pc := .top } s)
    | (f, i) :: q =>
      some
        (setWorker t { w with pc := .start f i, bufIdx := i, got := [] } { s with taskQueue := q })
  | .start f i =>
    slices[f]? |>.map fun sl =>
      setWorker t { w with pc := .exec f (sl.shadow f) }
        { s with toRuntime := s.shadowSliceStart i }
  | .exec f p =>
    shadowExec numQueues bufSize t f p s
  | .read f p =>
    some (readFromBuf t f p s)
  | .wait f p =>
    s.shadowTaskInterimPop |>.map fun (i, r) =>
      setWorker t { w with pc := resume f p, bufIdx := i } { s with toRuntime := r }
  | .release =>
    s.release numQueues w.bufIdx |>.map fun r =>
      setWorker t { w with pc := .top } { s with toRuntime := r }
  | .exited =>
    none

def machine (T : Nat) : Machine (State T) (Party T) where
  init := init numQueues
  step
    | .producer, s => produce numQueues bufSize slices s
    | .worker t, s => work numQueues bufSize slices t s

-- The producer stores only into a buffer it has acquired and starts a slice at the beginning of
-- one, and a worker starts a task at the beginning of its buffer.
def Clean : Party T → State T → Prop
  | .producer, s => ∀ p, s.producer = .put p → 0 ≤ s.pQueueIdx ∧ (s.sent = 0 → s.qIdx = 0)
  | .worker t, s => ∀ f i, (s.workers t).pc = .start f i → (s.workers t).cQIdx = 0

-- After `end_slice` the slice function pushes no value and its shadow reads none.
def Quiet : Party T → State T → Prop
  | .producer, s => ∀ p, s.producer = .exec p → p.tail = none → p.events.head? ≠ some .own
  | .worker t, s => ∀ f p, (s.workers t).pc = .exec f p → p.tail = none →
    p.events.head? ≠ some .own ∧ p.events.head? ≠ some .inner

structure Indexed (r : Runtime) : Prop where
  emptyList : ∀ b ∈ r.emptyList, 0 ≤ b
  taskQueue : ∀ x ∈ r.taskQueue, 0 ≤ x.snd
  fullList  : ∀ b ∈ r.fullList, 0 ≤ b

namespace Indexed

variable {r r' : Runtime} {f g : Nat} {b : Int} {numQueues : Nat}

theorem getBufAddr (h : Indexed r) (e : r.getBufAddr f g = some r') :
    Indexed r' ∧ 0 ≤ r'.pQueueIdx := by
  have ⟨he, ht, hf⟩ := h
  rw [Runtime.getBufAddr] at e
  split at e
  case isTrue =>
    split at e
    case h_1 => cases e
    case h_2 hl =>
      rw [hl] at he
      cases e
      exact ⟨⟨fun b hb => he b (.tail _ hb), ht, hf⟩, he _ (.head _)⟩
  case isFalse hn => cases e; exact ⟨⟨he, ht, hf⟩, Int.not_lt.mp hn⟩

theorem sliceEndInterimPush (h : Indexed r) (hb : 0 ≤ r.pQueueIdx)
    (e : r.sliceEndInterimPush numQueues = some r') : Indexed r' := by
  have ⟨he, ht, hf⟩ := h
  rw [Runtime.sliceEndInterimPush] at e
  split at e
  case isTrue =>
    cases e
    exact ⟨he, ht, by simp [or_imp, forall_and, hb]; exact hf⟩
  case isFalse =>
    obtain ⟨_, hp, rfl⟩ := Option.map_eq_some_iff.mp e
    obtain ⟨_, rfl⟩ := Runtime.push_eq_some.mp hp
    exact ⟨he, by simp [or_imp, forall_and, hb]; exact fun a b => ht (a, b), hf⟩

theorem sliceEndInterimPop (h : Indexed r) (e : r.sliceEndInterimPop = some r') :
    Indexed r' ∧ 0 ≤ r'.pQueueIdx := by
  have ⟨he, ht, hf⟩ := h
  rw [Runtime.sliceEndInterimPop] at e
  split at e
  case h_1 => cases e
  case h_2 hl =>
    rw [hl] at he
    cases e
    exact ⟨⟨fun b hb => he b (.tail _ hb), ht, hf⟩, he _ (.head _)⟩

theorem sliceEnd (h : Indexed r) (hb : 0 ≤ r.pQueueIdx) (e : r.sliceEnd numQueues f = some r') :
    Indexed r' := by
  have ⟨he, ht, hf⟩ := h
  rw [Runtime.sliceEnd] at e
  split at e
  case isTrue =>
    cases e
    exact ⟨he, ht, by simp [or_imp, forall_and, hb]; exact hf⟩
  case isFalse =>
    obtain ⟨_, hp, rfl⟩ := Option.map_eq_some_iff.mp e
    obtain ⟨_, rfl⟩ := Runtime.push_eq_some.mp hp
    exact ⟨he, by simp [or_imp, forall_and, hb]; exact fun a b => ht (a, b), hf⟩

theorem release (h : Indexed r) (hb : 0 ≤ b) (e : r.release numQueues b = some r') :
    Indexed r' := by
  have ⟨he, ht, hf⟩ := h
  obtain ⟨_, hp, rfl⟩ := Option.map_eq_some_iff.mp e
  obtain ⟨_, rfl⟩ := Runtime.push_eq_some.mp hp
  exact ⟨by simp [or_imp, forall_and, hb]; exact he, ht, hf⟩

theorem shadowTaskInterimPop (h : Indexed r) (e : r.shadowTaskInterimPop = some (b, r')) :
    Indexed r' ∧ 0 ≤ b := by
  have ⟨he, ht, hf⟩ := h
  rw [Runtime.shadowTaskInterimPop] at e
  split at e
  case h_1 => cases e
  case h_2 hl =>
    rw [hl] at hf
    cases e
    exact ⟨⟨he, ht, fun b hb => hf b (.tail _ hb)⟩, hf _ (.head _)⟩

end Indexed

-- The cursor of the producer at its program points.
def State.Fresh (s : State T) : Prop :=
  0 ≤ s.pQueueIdx ∧ (s.sent = 0 → s.qIdx = 0)

def State.At (s : State T) : ProducerPc → Prop
  | .outside => s.qIdx = 0
  | .exec p  => (p.tail = none → s.qIdx = 0 ∧ s.sliceFlag = false) ∧ (p.tail ≠ none → s.Fresh)
  | .put p   => p.tail ≠ none ∧ s.Fresh
  | .wait p  => p.tail ≠ none ∧ s.qIdx = 0
  | .join    => True

-- The cursor of a worker at its program points.
def Worker.At (w : Worker) : WorkerPc → Prop
  | .exec _ p => p.tail = none → w.cQIdx = 0
  | .read _ p => p.tail ≠ none
  | .wait f p => p.tail = none → w.cQIdx = 0 ∧ resume f p = .exec f p.next
  | _         => w.cQIdx = 0

structure Aligned (s : State T) : Prop where
  indexed  : Indexed s.toRuntime
  producer : s.At s.producer
  bufIdx   : ∀ t, 0 ≤ (s.workers t).bufIdx
  workers  : ∀ t, (s.workers t).At (s.workers t).pc

variable {numQueues bufSize : Nat} {slices : List Slice}

theorem aligned_init : Aligned (init numQueues : State T) := by
  constructor
  case indexed => constructor <;> simp [init]
  all_goals simp [init, State.At, Worker.At]

theorem Aligned.clean {s : State T} (h : Aligned s) (p : Party T) : Clean p s := by
  cases p with
  | producer =>
    intro p hp
    have ha := h.producer
    rw [hp] at ha
    exact ha.right
  | worker t =>
    intro f i hp
    have ha := h.workers t
    rw [hp] at ha
    exact ha

theorem Aligned.updateCmp {s s' : State T} {p : Point} (h : Aligned s) (hp : p.tail ≠ none)
    (hf : s.Fresh) (e : updateCmp numQueues bufSize p s = some s') : Aligned s' := by
  rw [Cursors.updateCmp] at e
  split at e
  case isTrue => cases e; exact ⟨h.indexed, ⟨hp, hf⟩, h.bufIdx, h.workers⟩
  case isFalse =>
    obtain ⟨r, hr, rfl⟩ := Option.map_eq_some_iff.mp e
    exact ⟨h.indexed.sliceEndInterimPush hf.left hr, ⟨hp, rfl⟩, h.bufIdx, h.workers⟩

theorem Aligned.enter {s s' : State T} {f : Nat} (h : Aligned s)
    (e : enter f s = some s') : Indexed s'.toRuntime ∧ 0 ≤ s'.pQueueIdx ∧ s'.qIdx = s.qIdx ∧
      s'.sliceFlag = s.sliceFlag ∧ s'.sent = s.sent ∧ s'.cur = s.cur ∧ s'.workers = s.workers := by
  obtain ⟨r, hr, rfl⟩ := Option.map_eq_some_iff.mp e
  have ⟨hi, hb⟩ := h.indexed.getBufAddr hr
  exact ⟨hi, hb, rfl, rfl, rfl, rfl, rfl⟩

theorem Aligned.exec {s s' : State T} {p : Point} (h : Aligned s) (hp : s.producer = .exec p)
    (hq : Quiet .producer s) (e : exec numQueues bufSize p s = some s') : Aligned s' := by
  have ha := h.producer
  have hq := hq p hp
  rw [hp] at ha
  have ⟨hn, ht⟩ := ha
  rw [Cursors.exec] at e
  split at e
  case h_1 hes =>
    have htl : p.tail ≠ none := fun he => hq he (by rw [hes]; rfl)
    exact h.updateCmp htl (ht htl) e
  case h_2 =>
    split at e
    case isTrue hs =>
      have htl : p.tail ≠ none := fun he => by simp [(hn he).right] at hs
      exact h.updateCmp htl (ht htl) e
    case isFalse => cases e; exact ⟨h.indexed, ⟨hn, ht⟩, h.bufIdx, h.workers⟩
  case h_3 =>
    obtain ⟨m, hm, rfl⟩ := Option.map_eq_some_iff.mp e
    have ⟨hi, hb, hx, hf, hs, _, hw⟩ := h.enter hm
    refine ⟨hi, ⟨fun he => ?_, fun he => ⟨hb, ?_⟩⟩, hw ▸ h.bufIdx, hw ▸ h.workers⟩
    · exact hx ▸ hf ▸ hn he
    · exact hs ▸ hx ▸ (ht he).right
  case h_4 he =>
    obtain ⟨r, hr, rfl⟩ := Option.map_eq_some_iff.mp e
    have hb := (ht (by simp [he])).left
    exact ⟨h.indexed.sliceEnd hb hr, ⟨fun _ => ⟨rfl, rfl⟩, fun hc => absurd rfl hc⟩, h.bufIdx,
      h.workers⟩
  case h_5 he =>
    cases e
    exact ⟨h.indexed, (hn he).left, h.bufIdx, h.workers⟩

theorem Aligned.produce {s s' : State T} (h : Aligned s) (hq : Quiet .producer s)
    (e : produce numQueues bufSize slices s = some s') : Aligned s' := by
  have ha := h.producer
  rw [Cursors.produce] at e
  split at e
  case h_1 hp =>
    rw [hp] at ha
    split at e
    case h_1 =>
      obtain ⟨m, hm, rfl⟩ := Option.map_eq_some_iff.mp e
      have ⟨hi, hb, hx, _, _, _, hw⟩ := h.enter hm
      refine ⟨⟨hi.emptyList, hi.taskQueue, hi.fullList⟩, ⟨fun he => ?_, fun _ => ⟨hb, fun _ => ?_⟩⟩,
        hw ▸ h.bufIdx, hw ▸ h.workers⟩
      · cases he
      · exact hx ▸ ha
    case h_2 =>
      cases e
      exact ⟨⟨h.indexed.emptyList, h.indexed.taskQueue, h.indexed.fullList⟩, trivial, h.bufIdx,
        h.workers⟩
  case h_2 hp => exact h.exec hp hq e
  case h_3 hp =>
    rw [hp] at ha
    cases e
    exact ⟨h.indexed,
      ⟨fun he => absurd he ha.left, fun _ => ⟨ha.right.left, fun hc => by cases hc⟩⟩,
      h.bufIdx, h.workers⟩
  case h_4 hp =>
    rw [hp] at ha
    obtain ⟨r, hr, rfl⟩ := Option.map_eq_some_iff.mp e
    have ⟨hi, hb⟩ := h.indexed.sliceEndInterimPop hr
    exact ⟨hi, ⟨ha.left, hb, fun _ => ha.right⟩, h.bufIdx, h.workers⟩
  case h_5 => cases e

-- A step of a worker that leaves the globals of the producer alone.
theorem Aligned.setWorker {s : State T} {r : Runtime} {t : Fin T} {w : Worker} (h : Aligned s)
    (hr : Indexed r) (hp : r.pQueueIdx = s.pQueueIdx) (hb : 0 ≤ w.bufIdx) (hw : w.At w.pc) :
    Aligned (setWorker t w { s with toRuntime := r }) where
  indexed  := hr
  producer := by
    have ha := h.producer
    cases hc : s.producer <;> simp_all [State.At, State.Fresh]
  bufIdx u := by
    by_cases hu : u = t
    · subst hu; simpa using hb
    · simpa [hu] using h.bufIdx u
  workers u := by
    by_cases hu : u = t
    · subst hu; simpa using hw
    · simpa [hu] using h.workers u

theorem resume_at {w : Worker} {f : Nat} {p : Point}
    (hp : p.tail = none → w.cQIdx = 0 ∧ resume f p = .exec f p.next) : w.At (resume f p) := by
  cases hr : resume f p with
  | read _ q =>
    have hq : p = q := by rw [resume] at hr; split at hr <;> simp_all
    intro hn
    have hn := (hp (hq ▸ hn)).right
    rw [hr] at hn
    cases hn
  | exec _ q =>
    have hq : p.next = q := by rw [resume] at hr; split at hr <;> simp_all
    intro hn
    rw [←hq] at hn
    exact (hp hn).left
  | _ => rw [resume] at hr; split at hr <;> cases hr

theorem Aligned.splitReadFromBuf {s s' : State T} {t : Fin T} {f : Nat} {p : Point}
    (h : Aligned s) (hp : p.tail = none → (s.workers t).cQIdx = 0 ∧ resume f p = .exec f p.next)
    (e : splitReadFromBuf numQueues bufSize t f p (resume f p) s = some s') : Aligned s' := by
  rw [Cursors.splitReadFromBuf] at e
  split at e
  case isTrue =>
    cases e
    exact h.setWorker h.indexed rfl (h.bufIdx t) (resume_at hp)
  case isFalse =>
    obtain ⟨r, hr, rfl⟩ := Option.map_eq_some_iff.mp e
    have hi := h.indexed.release (h.bufIdx t) hr
    have hb : r.pQueueIdx = s.pQueueIdx := by
      obtain ⟨_, _, rfl⟩ := Option.map_eq_some_iff.mp hr
      rfl
    exact h.setWorker hi hb (h.bufIdx t) fun he => ⟨rfl, (hp he).right⟩

theorem Aligned.shadowExec {s s' : State T} {t : Fin T} {f : Nat} {p : Point} (h : Aligned s)
    (hp : (s.workers t).pc = .exec f p) (hq : Quiet (.worker t) s)
    (e : shadowExec numQueues bufSize t f p s = some s') : Aligned s' := by
  have ha := h.workers t
  rw [hp] at ha
  rw [Cursors.shadowExec] at e
  split at e
  case h_1 hes =>
    refine h.splitReadFromBuf (fun he => ⟨ha he, ?_⟩) e
    have ⟨ho, hi⟩ := hq f p hp he
    rw [resume]
    split <;> simp_all
  case h_2 => cases e; exact h.setWorker h.indexed rfl (h.bufIdx t) fun _ => rfl
  case h_3 he => cases e; exact h.setWorker h.indexed rfl (h.bufIdx t) (ha he)

theorem Aligned.work {s s' : State T} {t : Fin T} (h : Aligned s) (hq : Quiet (.worker t) s)
    (e : work numQueues bufSize slices t s = some s') : Aligned s' := by
  have ha := h.workers t
  simp only [Cursors.work] at e
  split at e
  case h_1 hp | h_2 hp =>
    rw [hp] at ha
    cases e
    refine h.setWorker h.indexed rfl (h.bufIdx t) ?_
    split <;> exact ha
  case h_3 hp =>
    rw [hp] at ha
    split at e
    case h_1 => cases e; exact h.setWorker h.indexed rfl (h.bufIdx t) ha
    case h_2 hl =>
      cases e
      have ⟨he, ht, hf⟩ := h.indexed
      rw [hl] at ht
      exact h.setWorker ⟨he, fun x hx => ht x (.tail _ hx), hf⟩ rfl (ht _ (.head _)) ha
  case h_4 =>
    obtain ⟨sl, _, rfl⟩ := Option.map_eq_some_iff.mp e
    have ⟨he, ht, hf⟩ := h.indexed
    exact h.setWorker ⟨he, ht, hf⟩ rfl (h.bufIdx t) fun hn => by cases hn
  case h_5 hp => exact h.shadowExec hp hq e
  case h_6 hp =>
    rw [hp] at ha
    cases e
    exact h.setWorker h.indexed rfl (h.bufIdx t) fun hn => absurd hn ha
  case h_7 hp =>
    rw [hp] at ha
    obtain ⟨⟨i, r⟩, hr, rfl⟩ := Option.map_eq_some_iff.mp e
    have ⟨hi, hb⟩ := h.indexed.shadowTaskInterimPop hr
    have hq' : r.pQueueIdx = s.pQueueIdx := by
      rw [Runtime.shadowTaskInterimPop] at hr
      split at hr <;> cases hr
      rfl
    exact h.setWorker hi hq' hb (resume_at ha)
  case h_8 hp =>
    rw [hp] at ha
    obtain ⟨r, hr, rfl⟩ := Option.map_eq_some_iff.mp e
    have hi := h.indexed.release (h.bufIdx t) hr
    have hb : r.pQueueIdx = s.pQueueIdx := by
      obtain ⟨_, _, rfl⟩ := Option.map_eq_some_iff.mp hr
      rfl
    exact h.setWorker hi hb (h.bufIdx t) ha
  case h_9 => cases e

theorem Aligned.step {s s' : State T} {p : Party T} (h : Aligned s) (hq : Quiet p s)
    (e : (machine numQueues bufSize slices T).step p s = some s') : Aligned s' := by
  cases p with
  | producer => exact h.produce hq e
  | worker t => exact h.work hq e

-- A run without values after `end_slice` keeps its cursors.
theorem clean_of_quiet {s : State T} (r : (machine numQueues bufSize slices T).Run s)
    (h : r.Each Quiet) : r.Each Clean :=
  h.invariant (I := Aligned) aligned_init (fun _ ha hq e => ha.step hq e)
    |>.each fun p _ ha => ha.clean p

def Event.Silent : Event → Prop
  | .own | .inner => False
  | .enter _      => True

-- No value after `end_slice` is left to come.
def Point.Silent (p : Point) : Prop :=
  ∀ e ∈ p.tail.getD p.events, e.Silent

def Slice.Silent (sl : Slice) : Prop :=
  ∀ e ∈ sl.tail, e.Silent

namespace Point

variable {p : Point}

theorem Silent.next (h : p.Silent) : p.next.Silent := by
  cases ht : p.tail with
  | none   => exact fun e he => h e (by simp_all [Point.next]; exact List.mem_of_mem_tail he)
  | some _ => exact fun e he => h e (by simp_all [Point.next])

theorem Silent.leaveSlice {tail : List Event} (h : p.Silent) (ht : p.tail = some tail) :
    (leaveSlice tail).Silent :=
  fun e he => h e (by simpa [ht, Point.leaveSlice] using he)

theorem Silent.quiet (h : p.Silent) (ht : p.tail = none) :
    p.events.head? ≠ some .own ∧ p.events.head? ≠ some .inner := by
  rw [Silent, ht, Option.getD_none] at h
  constructor <;> exact fun he => h _ (List.mem_of_head? he)

end Point

def ProducerPc.point? : ProducerPc → Option Point
  | .exec p | .put p | .wait p => some p
  | .outside | .join           => none

def WorkerPc.point? : WorkerPc → Option Point
  | .exec _ p | .read _ p | .wait _ p => some p
  | _                                 => none

structure Silenced (s : State T) : Prop where
  producer : ∀ p, s.producer.point? = some p → p.Silent
  workers  : ∀ t p, (s.workers t).pc.point? = some p → p.Silent

theorem Silenced.quiet {s : State T} (h : Silenced s) (p : Party T) : Quiet p s := by
  cases p with
  | producer =>
    intro p hp ht
    exact ((h.producer p (by rw [hp]; rfl)).quiet ht).left
  | worker t =>
    intro f p hp ht
    exact (h.workers t p (by rw [hp]; rfl)).quiet ht

theorem silenced_init : Silenced (init numQueues : State T) := by
  constructor <;> simp [init, ProducerPc.point?, WorkerPc.point?]

theorem Silenced.setWorker {s : State T} {r : Runtime} {t : Fin T} {w : Worker} (h : Silenced s)
    (hw : ∀ p, w.pc.point? = some p → p.Silent) :
    Silenced (setWorker t w { s with toRuntime := r }) where
  producer  := h.producer
  workers u := by
    by_cases hu : u = t
    · subst hu; simpa using hw
    · simpa [hu] using h.workers u

theorem updateCmp_point {s s' : State T} {p : Point}
    (e : updateCmp numQueues bufSize p s = some s') :
    s'.producer.point? = some p ∧ s'.workers = s.workers := by
  rw [updateCmp] at e
  split at e
  case isTrue  => cases e; exact ⟨rfl, rfl⟩
  case isFalse => obtain ⟨_, _, rfl⟩ := Option.map_eq_some_iff.mp e; exact ⟨rfl, rfl⟩

theorem Silenced.exec {s s' : State T} {p : Point} (h : Silenced s) (hp : p.Silent)
    (e : exec numQueues bufSize p s = some s') : Silenced s' := by
  rw [Cursors.exec] at e
  split at e
  case h_1 =>
    have ⟨hs, hw⟩ := updateCmp_point e
    exact ⟨fun q hq => Option.some.inj (hs ▸ hq) ▸ hp, hw ▸ h.workers⟩
  case h_2 =>
    split at e
    case isTrue =>
      have ⟨hs, hw⟩ := updateCmp_point e
      exact ⟨fun q hq => Option.some.inj (hs ▸ hq) ▸ hp, hw ▸ h.workers⟩
    case isFalse => cases e; exact ⟨fun q hq => Option.some.inj hq ▸ hp.next, h.workers⟩
  case h_3 =>
    obtain ⟨m, hm, rfl⟩ := Option.map_eq_some_iff.mp e
    obtain ⟨_, _, rfl⟩ := Option.map_eq_some_iff.mp hm
    exact ⟨fun q hq => Option.some.inj hq ▸ hp.next, h.workers⟩
  case h_4 he =>
    obtain ⟨r, hr, rfl⟩ := Option.map_eq_some_iff.mp e
    exact ⟨fun q hq => Option.some.inj hq ▸ hp.leaveSlice he, h.workers⟩
  case h_5 => cases e; exact ⟨fun q hq => (by cases hq), h.workers⟩

theorem Silenced.produce {s s' : State T} (hs : ∀ sl ∈ slices, sl.Silent) (h : Silenced s)
    (e : produce numQueues bufSize slices s = some s') : Silenced s' := by
  have hp := h.producer
  rw [Cursors.produce] at e
  split at e
  case h_1 =>
    split at e
    case h_1 hl =>
      obtain ⟨m, hm, rfl⟩ := Option.map_eq_some_iff.mp e
      obtain ⟨_, _, rfl⟩ := Option.map_eq_some_iff.mp hm
      exact ⟨fun q hq => Option.some.inj hq ▸ hs _ (List.mem_of_getElem? hl), h.workers⟩
    case h_2 => cases e; exact ⟨fun q hq => (by cases hq), h.workers⟩
  case h_2 hc => exact h.exec (hp _ (by rw [hc]; rfl)) e
  case h_3 hc =>
    cases e
    exact ⟨fun q hq => Option.some.inj hq ▸ (hp _ (by rw [hc]; rfl)).next, h.workers⟩
  case h_4 hc =>
    obtain ⟨r, hr, rfl⟩ := Option.map_eq_some_iff.mp e
    exact ⟨fun q hq => hp q (by rw [hc]; exact hq), h.workers⟩
  case h_5 => cases e

theorem resume_silent {f : Nat} {p q : Point} (hp : p.Silent)
    (h : (resume f p).point? = some q) : q.Silent := by
  rw [resume] at h
  split at h <;> obtain rfl := Option.some.inj h
  · exact hp
  · exact hp
  · exact hp.next
  · exact hp.next

theorem Silenced.shadowExec {s s' : State T} {t : Fin T} {f : Nat} {p : Point} (h : Silenced s)
    (hp : p.Silent) (e : shadowExec numQueues bufSize t f p s = some s') : Silenced s' := by
  rw [Cursors.shadowExec] at e
  split at e
  case h_1 =>
    rw [splitReadFromBuf] at e
    split at e
    case isTrue => cases e; exact h.setWorker fun q hq => resume_silent hp hq
    case isFalse =>
      obtain ⟨r, hr, rfl⟩ := Option.map_eq_some_iff.mp e
      exact h.setWorker fun q hq => Option.some.inj hq ▸ hp
  case h_2 he => cases e; exact h.setWorker fun q hq => Option.some.inj hq ▸ hp.leaveSlice he
  case h_3 => cases e; exact h.setWorker fun q hq => (by cases hq)

theorem Silenced.work {s s' : State T} {t : Fin T} (hs : ∀ sl ∈ slices, sl.Silent)
    (h : Silenced s) (e : work numQueues bufSize slices t s = some s') : Silenced s' := by
  have hp := h.workers t
  simp only [Cursors.work] at e
  split at e
  case h_1 | h_2 => cases e; exact h.setWorker fun q hq => (by split at hq <;> cases hq)
  case h_3 => split at e <;> cases e <;> exact h.setWorker fun q hq => (by cases hq)
  case h_4 =>
    obtain ⟨sl, hl, rfl⟩ := Option.map_eq_some_iff.mp e
    exact h.setWorker fun q hq => Option.some.inj hq ▸ hs sl (List.mem_of_getElem? hl)
  case h_5 hc => exact h.shadowExec (hp _ (by rw [hc]; rfl)) e
  case h_6 hc =>
    cases e
    exact h.setWorker fun q hq => Option.some.inj hq ▸ (hp _ (by rw [hc]; rfl)).next
  case h_7 hc =>
    obtain ⟨⟨i, r⟩, hr, rfl⟩ := Option.map_eq_some_iff.mp e
    exact h.setWorker fun q hq => resume_silent (hp _ (by rw [hc]; rfl)) hq
  case h_8 =>
    obtain ⟨r, hr, rfl⟩ := Option.map_eq_some_iff.mp e; exact h.setWorker fun q hq => (by cases hq)
  case h_9 => cases e

theorem silenced (hs : ∀ sl ∈ slices, sl.Silent) {s : State T}
    (h : (machine numQueues bufSize slices T).Reachable s) : Silenced s :=
  h.invariant silenced_init fun {p} _ _ _ hi e =>
    match p with
    | .producer => hi.produce hs e
    | .worker _ => hi.work hs e

-- If nothing but entries of functions follows `end_slice` in any slice
-- function, every run is quiet.
theorem quiet_of_silent (hs : ∀ sl ∈ slices, sl.Silent) {s : State T}
    (r : (machine numQueues bufSize slices T).Run s) : r.Each Quiet :=
  .of_reachable (fun p _ h => (silenced hs h).quiet p) r

-- A slice that calls another function after `end_slice`, followed by the first value of the next.
theorem clean_of_entry_after_end : ∃ s,
    ∃ r : (machine 3 4 [⟨[.own], [.enter 2]⟩, ⟨[.own], []⟩] 1).Run s,
      s.cur = 1 ∧ s.sent = 1 ∧ r.Each Clean := by
  have ⟨r⟩ := Machine.reachable_after (machine 3 4 [⟨[.own], [.enter 2]⟩, ⟨[.own], []⟩] 1)
    (List.replicate 9 .producer) rfl
  exact ⟨_, r, rfl, rfl, clean_of_quiet r <|
    quiet_of_silent (by simp [Slice.Silent, Event.Silent]) r⟩

-- The value that follows `end_slice` in the first slice is stored into the buffer handed off.
theorem value_after_end : ¬∀ s,
    (r : (machine 3 4 [⟨[.own], [.own]⟩, ⟨[.own], []⟩] 1).Run s) → r.Each Clean := by
  intro h
  have ⟨r⟩ := Machine.reachable_after (machine 3 4 [⟨[.own], [.own]⟩, ⟨[.own], []⟩] 1)
    (List.replicate 5 .producer) rfl
  have hc := (h _ (r.step .producer rfl)).right
  have hs := (hc _ rfl).left
  revert hs
  decide

end Cursors
