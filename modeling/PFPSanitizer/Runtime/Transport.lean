import PFPSanitizer.Lib.Chunks
import PFPSanitizer.Lib.Handoff
import PFPSanitizer.Runtime.Cursors
import PFPSanitizer.Runtime.RoundRobin

-- The values on their way from the slices to the one worker that executes their shadows.
namespace Cursors

open Queues (Chunk turn)

def Event.isValue : Event → Bool
  | .own | .inner => true
  | .enter _      => false

def values (es : List Event) : Nat :=
  es.countP Event.isValue

@[simp]
theorem values_nil : values [] = 0 :=
  rfl

@[simp]
theorem values_append (es es' : List Event) : values (es ++ es') = values es + values es' :=
  List.countP_append

@[simp]
theorem values_cons (e : Event) (es : List Event) :
    values (e :: es) = values es + if e.isValue then 1 else 0 :=
  List.countP_cons

-- Behind a value that fills a buffer there are further values, or nothing.
def Slice.Steady (bufSize : Nat) (sl : Slice) : Prop :=
  ∀ n < sl.body.length, 0 < values (sl.body.take n) → bufSize ∣ values (sl.body.take n) →
    0 < values (sl.body.drop n)

instance {bufSize : Nat} {sl : Slice} : Decidable (sl.Steady bufSize) :=
  inferInstanceAs <| Decidable (∀ n < sl.body.length, _ → _ → _)

section Buffers

variable (bufSize : Nat) (slices : List Slice)

-- The values of the slice `f`, and the buffers that they need.
def pushed (f : Nat) : Nat :=
  slices[f]? |>.elim 0 fun sl => values sl.body

def buffers (f : Nat) : Nat :=
  (pushed slices f - 1) / bufSize + 1

-- The number of the buffers of the slices before.
def firstOf (f : Nat) : Nat :=
  List.range f |>.map (buffers bufSize slices) |>.sum

def number (c : Chunk) : Nat :=
  firstOf bufSize slices c.slice + c.idx

def Exists (c : Chunk) : Prop :=
  c.idx < buffers bufSize slices c.slice

-- The buffer that the producer fills next.
def next (c : Chunk) : Chunk :=
  if c.idx + 1 < buffers bufSize slices c.slice then ⟨c.slice, c.idx + 1⟩ else ⟨c.slice + 1, 0⟩

end Buffers

variable {bufSize numQueues : Nat} {slices : List Slice} {c d : Chunk}

theorem exists_zero (f : Nat) : Exists bufSize slices ⟨f, 0⟩ :=
  Nat.succ_pos _

theorem firstOf_succ (f : Nat) :
    firstOf bufSize slices (f + 1) = firstOf bufSize slices f + buffers bufSize slices f := by
  simp [firstOf, List.range_succ]

theorem firstOf_succ_pos (f : Nat) : 0 < firstOf bufSize slices (f + 1) := by
  rw [firstOf_succ]
  exact Nat.lt_of_lt_of_le (Nat.succ_pos _) (Nat.le_add_left ..)

theorem exists_next (h : Exists bufSize slices c) :
    Exists bufSize slices (next bufSize slices c) ∧
      number bufSize slices (next bufSize slices c) = number bufSize slices c + 1 := by
  rw [next]
  split
  case isTrue hl => exact ⟨hl, rfl⟩
  case isFalse hl =>
    have hb : c.idx + 1 = buffers bufSize slices c.slice := by rw [Exists] at h; omega
    refine ⟨exists_zero _, ?_⟩
    rw [number, firstOf_succ, ← hb]
    rfl

theorem number_lt (h : Exists bufSize slices c) (hs : c.slice < d.slice) :
    number bufSize slices c < number bufSize slices d := by
  have hm : Monotone (firstOf bufSize slices) :=
    monotone_nat_of_le_succ fun f => Nat.le.intro (firstOf_succ f).symm
  have hl := hm (Nat.succ_le_of_lt hs)
  rw [firstOf_succ] at hl
  rw [Exists] at h
  rw [number, number]
  omega

theorem number_inj (hc : Exists bufSize slices c) (hd : Exists bufSize slices d)
    (h : number bufSize slices c = number bufSize slices d) : c = d := by
  obtain ⟨f, i⟩ := c
  obtain ⟨g, j⟩ := d
  obtain hl | rfl | hl := Nat.lt_trichotomy f g
  · exact absurd h (Nat.ne_of_lt (number_lt hc hl))
  · obtain rfl : i = j := Nat.add_left_cancel h
    rfl
  · exact absurd h (Nat.ne_of_gt (number_lt hd hl))

theorem exists_of_lt {f j i : Nat} (h : j * bufSize + i < pushed slices f) (hi : i < bufSize) :
    Exists bufSize slices ⟨f, j⟩ := by
  have hj : j ≤ (pushed slices f - 1) / bufSize :=
    (Nat.le_div_iff_mul_le (Nat.zero_lt_of_lt hi)).mpr (by omega)
  exact Nat.lt_succ_of_le hj

-- Of the numbers that are in use at one time no two have the same turn.
theorem turn_inj {n a b : Nat} (hn : n ≤ a) (hl : a < n + numQueues) (hn' : n ≤ b)
    (hl' : b < n + numQueues) (h : turn numQueues a = turn numQueues b) : a = b := by
  have hm : a % numQueues = b % numQueues := Int.ofNat.inj h
  have h₁ :=
    Nat.eq_zero_of_dvd_of_lt (Nat.dvd_of_mod_eq_zero (Nat.sub_mod_eq_zero_of_mod_eq hm)) (by omega)
  have h₂ :=
    Nat.eq_zero_of_dvd_of_lt (Nat.dvd_of_mod_eq_zero (Nat.sub_mod_eq_zero_of_mod_eq hm.symm))
      (by omega)
  omega

-- A function in front of the events `es`, at the index `q` of the `j`-th buffer, behind `k` values.
structure Within (bufSize : Nat) (code es : List Event) (j q k : Nat) : Prop where
  split  : ∃ l, code = l ++ es ∧ values l = k
  idx_le : q ≤ bufSize
  total  : Cursor.total bufSize ⟨j, q⟩ = k
  fresh  : q = 0 → k = 0 ∨ 0 < values es

namespace Within

variable {code es : List Event} {j q k : Nat} {e : Event}

theorem start : Within bufSize code code 0 0 0 :=
  ⟨⟨[], rfl, rfl⟩, Nat.zero_le _, by simp [Cursor.total], fun _ => .inl rfl⟩

theorem total_eq (h : Within bufSize code es j q k) : j * bufSize + q = k :=
  h.total

theorem values_eq (h : Within bufSize code es j q k) : values code = k + values es := by
  obtain ⟨l, rfl, rfl⟩ := h.split
  exact values_append l es

theorem skip (h : Within bufSize code (e :: es) j q k) (he : e.isValue = false) :
    Within bufSize code es j q k := by
  obtain ⟨l, hl, hk⟩ := h.split
  refine ⟨⟨l ++ [e], by rw [hl, List.append_assoc]; rfl, by simp [hk, he]⟩, h.idx_le, h.total,
    fun hq => ?_⟩
  simpa [he] using h.fresh hq

theorem advance (h : Within bufSize code (e :: es) j q k) (he : e.isValue) (hq : q < bufSize) :
    Within bufSize code es j (q + 1) (k + 1) := by
  obtain ⟨l, hl, hk⟩ := h.split
  exact ⟨⟨l ++ [e], by rw [hl, List.append_assoc]; rfl, by simp [hk, he]⟩, hq,
    congrArg (· + 1) h.total, nofun⟩

-- The buffer is used up.
theorem switch (h : Within bufSize code es j q k) (hq : ¬q < bufSize) (hv : 0 < values es) :
    Within bufSize code es (j + 1) 0 k := by
  have he : q = bufSize := Nat.le_antisymm h.idx_le (Nat.not_lt.mp hq)
  refine ⟨h.split, Nat.zero_le _, ?_, fun _ => .inr hv⟩
  rw [← h.total, he, Cursor.total, Cursor.total, Nat.succ_mul, Nat.add_zero]

-- There is one more buffer exactly if there are more values than the buffer has room for.
theorem lt_buffers (h : Within bufSize code es j q k) (h₀ : 0 < bufSize) :
    j < (values code - 1) / bufSize + 1 := by
  refine Nat.lt_succ_of_le ((Nat.le_div_iff_mul_le h₀).mpr ?_)
  have ht := h.total_eq
  have hv := h.values_eq
  have hf := h.fresh
  omega

theorem last (h : Within bufSize code es j q k) (h₀ : 0 < bufSize) (hv : values es = 0) :
    j + 1 = (values code - 1) / bufSize + 1 := by
  have hn := h.values_eq
  rw [hv, Nat.add_zero] at hn
  rw [hn]
  cases q with
  | zero    =>
    have hk := (h.fresh rfl).resolve_right (by omega)
    have ht := h.total_eq
    subst hk
    have hj : j = 0 := by
      by_contra hj
      have := Nat.mul_pos (Nat.pos_of_ne_zero hj) h₀
      omega
    simp [hj]
  | succ q =>
    have hc := Cursor.chunk_eq_pred (c := ⟨j, q + 1⟩) (Nat.succ_pos q) h.idx_le
    rw [h.total] at hc
    exact congrArg (· + 1) hc

theorem next_of_switch {f : Nat} (h : Within bufSize code es j q k)
    (hp : pushed slices f = values code) (h₀ : 0 < bufSize) (hq : ¬q < bufSize)
    (hv : 0 < values es) : next bufSize slices ⟨f, j⟩ = ⟨f, j + 1⟩ :=
  if_pos (by rw [buffers, hp]; exact (h.switch hq hv).lt_buffers h₀)

theorem next_of_last {f : Nat} (h : Within bufSize code es j q k)
    (hp : pushed slices f = values code) (h₀ : 0 < bufSize) (hv : values es = 0) :
    next bufSize slices ⟨f, j⟩ = ⟨f + 1, 0⟩ :=
  if_neg (by rw [buffers, hp, ← h.last h₀ hv]; exact Nat.lt_irrefl _)

end Within

-- The next event sends a value.
def Point.AtValue (p : Point) : Prop :=
  ∃ e es, p.events = e :: es ∧ e.isValue

-- The producer has a buffer.
def State.holds {T : Nat} (s : State T) : Bool :=
  match s.producer with
  | .wait _ => false
  | _       => decide (0 ≤ s.pQueueIdx)

-- The worker has a buffer.
def WorkerPc.holds : WorkerPc → Bool
  | .start _ _ | .exec _ _ | .read _ _ | .release => true
  | _                                             => false

-- The first `n` values of the slice `f`.
def stamps (f n : Nat) : List (Option Stamp) :=
  List.range n |>.map fun i => some ⟨f, i⟩

section Transported

variable (numQueues bufSize : Nat) (slices : List Slice)

-- The producer fills the buffer `e` before its call of `end_slice`.
structure Sending (e : Chunk) (p : Point) (s : State 1) : Prop where
  within    : ∃ sl, slices[s.cur]? = some sl ∧ Within bufSize sl.body p.events e.idx s.qIdx s.sent
  slice     : e.slice = s.cur
  tail      : p.tail.isSome
  sliceFlag : s.sliceFlag
  curTask   : s.curTask = s.cur

theorem Sending.pushed_eq {bufSize : Nat} {slices : List Slice} {e : Chunk} {p : Point}
    {s : State 1} {sl : Slice} (h : Sending bufSize slices e p s) (hsl : slices[s.cur]? = some sl) :
    pushed slices e.slice = values sl.body := by
  rw [pushed, h.slice, hsl]
  rfl

def ProducerAt (e : Chunk) (s : State 1) : Prop :=
  match s.producer with
  | .outside | .join => s.qIdx = 0 ∧ e = ⟨s.cur, 0⟩
  | .exec p          =>
    if p.tail.isSome then Sending bufSize slices e p s ∧ s.holds ∧ s.curIndex = s.pQueueIdx
    else s.qIdx = 0 ∧ e = ⟨s.cur + 1, 0⟩
  | .put p           =>
    Sending bufSize slices e p s ∧ s.holds ∧ s.curIndex = s.pQueueIdx ∧ s.qIdx < bufSize ∧ p.AtValue
  | .wait p          => Sending bufSize slices e p s ∧ s.qIdx = 0 ∧ p.AtValue

-- The worker reads the `j`-th buffer of the slice `f`.
structure Reading (f : Nat) (p : Point) (j : Nat) (w : Worker) : Prop where
  within : ∃ sl, slices[f]? = some sl ∧
    Within bufSize (.enter f :: sl.body) p.events j w.cQIdx w.got.length
  got    : w.got = stamps f w.got.length
  tail   : p.tail.isSome

-- It has read all values of the slice.
structure Done (f : Nat) (c : Chunk) (w : Worker) : Prop where
  cQIdx  : w.cQIdx = 0
  got    : w.got = stamps f (pushed slices f)
  wanted : c = ⟨f + 1, 0⟩

def WorkerAt (c : Chunk) (w : Worker) : Prop :=
  match w.pc with
  | .top | .size | .poll | .exited => w.cQIdx = 0 ∧ c.idx = 0
  | .start f _                     => w.cQIdx = 0 ∧ w.got = [] ∧ c = next bufSize slices ⟨f, 0⟩
  | .exec f p                      =>
    if p.tail.isSome then ∃ j, Reading bufSize slices f p j w ∧ c = next bufSize slices ⟨f, j⟩
    else Done slices f c w
  | .read f p                      =>
    ∃ j, Reading bufSize slices f p j w ∧ c = next bufSize slices ⟨f, j⟩ ∧ w.cQIdx < bufSize ∧
      p.AtValue
  | .wait f p                      =>
    Reading bufSize slices f p c.idx w ∧ c.slice = f ∧ c.idx ≠ 0 ∧ w.cQIdx = 0 ∧ p.events ≠ []
  | .release                       => ∃ f, Done slices f c w

-- The buffers that the worker has returned, when it wants the buffer `c` next.
def released (c : Chunk) (w : Worker) : Nat :=
  number bufSize slices c - w.pc.holds.toNat

-- The buffers from `c` up to `e` are on their way to the worker, the first one of
-- each slice in the task queue.
abbrev Transit (c e : Chunk) (r : Queues.Runtime) : Prop :=
  Handoff.Split (next bufSize slices) (·.idx = 0)
    (fun c => (c.slice, turn numQueues (number bufSize slices c)))
    (fun c => turn numQueues (number bufSize slices c)) c e r.taskQueue r.fullList

-- The values that have been stored are in their places until their buffer is returned.
def Stored (r : Nat) (e : Chunk) (s : State 1) : Prop :=
  ∀ c i, i < bufSize → c.idx * bufSize + i < pushed slices c.slice → r ≤ number bufSize slices c →
    (number bufSize slices c < number bufSize slices e ∨ c = e ∧ i < s.qIdx) →
    s.cells (turn numQueues (number bufSize slices c)) i = some ⟨c.slice, c.idx * bufSize + i⟩

-- The buffers from `c` on are on their way to the worker, and `e` is the one
-- that the producer fills.
structure Transported (c e : Chunk) (s : State 1) : Prop where
  wanted   : Exists bufSize slices c
  filled   : Exists bufSize slices e
  ring     : Handoff.Ring (turn numQueues) numQueues (number bufSize slices e + s.holds.toNat)
             (released bufSize slices c (s.workers 0)) s.emptyList
  transit  : Transit numQueues bufSize slices c e s.toRuntime
  flag     : s.startSlice = decide (e.idx ≠ 0)
  filling  : s.holds → s.pQueueIdx = turn numQueues (number bufSize slices e)
  producer : ProducerAt bufSize slices e s
  reading  : (s.workers 0).pc.holds →
    (s.workers 0).bufIdx = turn numQueues (released bufSize slices c (s.workers 0))
  worker   : WorkerAt bufSize slices c (s.workers 0)
  stored   : Stored numQueues bufSize slices (released bufSize slices c (s.workers 0)) e s

end Transported

-- The producer hands its buffer off, as the first one of the slice `f` or as a continuation.
inductive HandsOff (f : Nat) (r r' : Queues.Runtime) : Prop
  | task (hs : r.startSlice = false) (ht : r'.taskQueue = r.taskQueue ++ [(f, r.pQueueIdx)])
      (hf : r'.fullList = r.fullList)
  | full (hs : r.startSlice) (ht : r'.taskQueue = r.taskQueue)
      (hf : r'.fullList = r.fullList ++ [r.pQueueIdx])

section Runtime

variable {r r' : Queues.Runtime} {f : Nat}

theorem handsOff_of_sliceEndInterimPush (h : r.sliceEndInterimPush numQueues = some r') :
    HandsOff r.curTask r r' ∧ r'.startSlice ∧ r'.emptyList = r.emptyList ∧ r'.curTask = r.curTask ∧
    r'.fini = r.fini := by
  rw [Queues.Runtime.sliceEndInterimPush] at h
  split at h
  case isTrue hs  => cases h; exact ⟨.full hs rfl rfl, hs, rfl, rfl, rfl⟩
  case isFalse hs =>
    obtain ⟨q, hq, rfl⟩ := Option.map_eq_some_iff.mp h
    obtain ⟨-, rfl⟩ := Queues.Runtime.push_eq_some.mp hq
    exact ⟨.task (Bool.not_eq_true _ ▸ hs) rfl rfl, rfl, rfl, rfl, rfl⟩

theorem handsOff_of_sliceEnd (h : r.sliceEnd numQueues f = some r') :
    HandsOff f r r' ∧ r'.startSlice = false ∧ r'.emptyList = r.emptyList ∧ r'.pQueueIdx = -1 ∧
    r'.fini = r.fini := by
  rw [Queues.Runtime.sliceEnd] at h
  split at h
  case isTrue hs  => cases h; exact ⟨.full hs rfl rfl, rfl, rfl, rfl, rfl⟩
  case isFalse hs =>
    obtain ⟨q, hq, rfl⟩ := Option.map_eq_some_iff.mp h
    obtain ⟨-, rfl⟩ := Queues.Runtime.push_eq_some.mp hq
    exact ⟨.task (Bool.not_eq_true _ ▸ hs) rfl rfl, Bool.not_eq_true _ ▸ hs, rfl, rfl, rfl⟩

theorem getBufAddr_same {g : Nat} (h : r.getBufAddr f g = some r') :
    r'.taskQueue = r.taskQueue ∧ r'.fullList = r.fullList ∧ r'.startSlice = r.startSlice ∧
    r'.curTask = r.curTask ∧
      r'.fini = r.fini := by
  rw [Queues.Runtime.getBufAddr] at h
  split at h
  case isTrue  => split at h <;> cases h; exact ⟨rfl, rfl, rfl, rfl, rfl⟩
  case isFalse => cases h; exact ⟨rfl, rfl, rfl, rfl, rfl⟩

end Runtime

-- The parts of the state that a step of the producer leaves alone.
structure Same (s s' : State 1) : Prop where
  taskQueue  : s'.taskQueue = s.taskQueue
  fullList   : s'.fullList = s.fullList
  startSlice : s'.startSlice = s.startSlice
  cells      : s'.cells = s.cells
  workers    : s'.workers = s.workers

section Producer

variable {s s' : State 1} {e : Chunk} {p : Point}

theorem Stored.of_le {r : Nat} (h : Stored numQueues bufSize slices r e s) (hc : s'.cells = s.cells)
    (hq : s'.qIdx ≤ s.qIdx) :
    Stored numQueues bufSize slices r e s' := by
  intro d i hi hl hr hd
  rw [hc]
  exact h d i hi hl hr (hd.imp_right (And.imp_right (Nat.lt_of_lt_of_le · hq)))

namespace Transported

theorem stay (h : Transported numQueues bufSize slices c e s) (hm : Same s s')
    (hl : s'.emptyList = s.emptyList) (hh : s'.holds = s.holds)
    (hb : s.holds → s'.pQueueIdx = s.pQueueIdx) (hq : s'.qIdx ≤ s.qIdx)
    (hp : ProducerAt bufSize slices e s') : Transported numQueues bufSize slices c e s' where
  wanted   := h.wanted
  filled   := h.filled
  ring     := by rw [hh, hm.workers, hl]; exact h.ring
  transit  := by rw [Transit, hm.taskQueue, hm.fullList]; exact h.transit
  flag     := hm.startSlice.trans h.flag
  filling  := fun hs => (hb (hh ▸ hs)).trans (h.filling (hh ▸ hs))
  producer := hp
  reading  := hm.workers ▸ h.reading
  worker   := hm.workers ▸ h.worker
  stored   := hm.workers ▸ h.stored.of_le hm.cells hq

-- The producer takes the buffer whose turn it is.
theorem acquire (h : Transported numQueues bufSize slices c e s) (hm : Same s s')
    (hs : s.holds = false) (hl : s.emptyList = s'.pQueueIdx :: s'.emptyList)
    (hw : ∀ p, s'.producer ≠ .wait p) (hq : s'.qIdx ≤ s.qIdx)
    (hp : s'.holds → ProducerAt bufSize slices e s') :
    Transported numQueues bufSize slices c e s' := by
  have hr := h.ring
  rw [hs, hl, Bool.toNat_false, Nat.add_zero] at hr
  obtain ⟨hb, hr⟩ := hr.take
  have hh : s'.holds := by
    rw [State.holds]
    split
    case h_1 hp => exact absurd hp (hw _)
    case h_2    => exact decide_eq_true (hb ▸ Int.natCast_nonneg _)
  exact {
    wanted   := h.wanted
    filled   := h.filled
    ring     := by rw [hh, hm.workers]; exact hr
    transit  := by rw [Transit, hm.taskQueue, hm.fullList]; exact h.transit
    flag     := hm.startSlice.trans h.flag
    filling  := fun _ => hb
    producer := hp hh
    reading  := hm.workers ▸ h.reading
    worker   := hm.workers ▸ h.worker
    stored   := hm.workers ▸ h.stored.of_le hm.cells hq }

-- The producer hands its buffer off.
theorem emit (h : Transported numQueues bufSize slices c e s) (hc : s'.cells = s.cells)
    (hw : s'.workers = s.workers) (hl : s'.emptyList = s.emptyList) (hh : s.holds)
    (hh' : s'.holds = false)
    (hs : Transit numQueues bufSize slices c (next bufSize slices e) s'.toRuntime)
    (hf : s'.startSlice = decide ((next bufSize slices e).idx ≠ 0)) (hq : s'.qIdx = 0)
    (hp : ProducerAt bufSize slices (next bufSize slices e) s')
    (ha : ∀ i < bufSize, e.idx * bufSize + i < pushed slices e.slice → i < s.qIdx) :
    Transported numQueues bufSize slices c (next bufSize slices e) s' := by
  obtain ⟨he, hn⟩ := exists_next h.filled
  exact {
    wanted   := h.wanted
    filled   := he
    ring     := by
      have hr := h.ring
      rw [hh] at hr
      rw [hn, hh', hw, hl]
      exact hr
    transit  := hs
    flag     := hf
    filling  := fun ht => absurd (ht.symm.trans hh') (by simp)
    producer := hp
    reading  := hw ▸ h.reading
    worker   := hw ▸ h.worker
    stored   := by
      intro d i hi hl hr hd
      rw [hc]
      rw [hn, hq] at hd
      have hd := hd.resolve_right fun hd => Nat.not_lt_zero _ hd.right
      refine h.stored d i hi hl (hw ▸ hr) ?_
      obtain hd | hd := Nat.lt_or_eq_of_le (Nat.le_of_lt_succ hd)
      · exact .inl hd
      · obtain rfl := number_inj (exists_of_lt hl hi) h.filled hd
        exact .inr ⟨rfl, ha i hi hl⟩ }

-- A value is stored at its place, where no value is that has not been read.
theorem update (h : Transported numQueues bufSize slices c e s) (hp : s.producer = .put p) :
    Transported numQueues bufSize slices c e (update p s) := by
  have ha := h.producer
  rw [ProducerAt, hp] at ha
  obtain ⟨hs, hh, hi, hq, x, es, hx, hv⟩ := ha
  obtain ⟨sl, hsl, hw⟩ := hs.within
  have hb := h.filling hh
  have hle := h.ring.le
  rw [hh, Bool.toNat_true] at hle
  have hh' : (Cursors.update p s).holds = s.holds := by rw [State.holds, State.holds, hp]; rfl
  exact {
    wanted   := h.wanted
    filled   := h.filled
    ring     := by rw [hh']; exact h.ring
    transit  := h.transit
    flag     := h.flag
    filling  := fun _ => hb
    producer := by
      refine (if_pos hs.tail).mpr ⟨⟨⟨sl, hsl, ?_⟩, hs.slice, hs.tail, hs.sliceFlag, hs.curTask⟩,
        hh' ▸ hh, hi⟩
      rw [hx] at hw
      have ha := hw.advance hv hq
      rwa [Point.next, hx]
    reading  := h.reading
    worker   := h.worker
    stored   := by
      intro d i hi' hl (hr : released bufSize slices c (s.workers 0) ≤ _) hd
      have hcells : (Cursors.update p s).cells =
          Function.update s.cells (turn numQueues (number bufSize slices e))
            (Function.update (s.cells s.curIndex) s.qIdx (some ⟨s.cur, s.sent⟩)) := by
              rw [← hb, ← hi]; rfl
      rw [hcells]
      by_cases he : d = e
      case pos =>
        subst he
        rw [Function.update_self]
        by_cases hiq : i = s.qIdx
        case pos => rw [hiq, Function.update_self, hs.slice, hw.total_eq]
        case neg =>
          have hd := (hd.resolve_left (Nat.lt_irrefl _)).right
          rw [Function.update_of_ne hiq, hi, hb]
          exact h.stored d i hi' hl hr (.inr ⟨rfl, Nat.lt_of_le_of_ne (Nat.le_of_lt_succ hd) hiq⟩)
      case neg =>
        have hd := hd.resolve_right fun hd => he hd.left
        rw [Function.update_of_ne]
        · exact h.stored d i hi' hl hr (.inl hd)
        · exact fun ht => Nat.ne_of_lt hd (turn_inj hr (by omega) (by omega) (by omega) ht) }

-- At the entry of a function the producer takes a buffer if it has none.
theorem enter {f : Nat} {r : Queues.Runtime} (h : Transported numQueues bufSize slices c e s)
    (hr : s.getBufAddr f f = some r) (hw : ∀ p, s.producer ≠ .wait p) (hm : Same s s')
    (hl : s'.emptyList = r.emptyList) (hb : s'.pQueueIdx = r.pQueueIdx)
    (hw' : ∀ p, s'.producer ≠ .wait p) (hq : s'.qIdx ≤ s.qIdx)
    (hp : s'.holds → ProducerAt bufSize slices e s') :
    Transported numQueues bufSize slices c e s' := by
  have hh : s.holds = decide (0 ≤ s.pQueueIdx) := by
    rw [State.holds]
    split
    case h_1 hp => exact absurd hp (hw _)
    case h_2    => rfl
  have hh' : s'.holds = decide (0 ≤ s'.pQueueIdx) := by
    rw [State.holds]
    split
    case h_1 hp => exact absurd hp (hw' _)
    case h_2    => rfl
  rw [Queues.Runtime.getBufAddr] at hr
  split at hr
  case isTrue hn =>
    split at hr
    case h_1 => cases hr
    case h_2 he =>
      cases hr
      exact h.acquire hm (hh.trans (decide_eq_false (Int.not_le.mpr hn)))
        (by rw [he, hb, hl]; rfl) hw' hq hp
  case isFalse hn =>
    cases hr
    have hn : s'.holds = s.holds := by rw [hh, hh', hb]; rfl
    refine h.stay hm hl hn (fun _ => hb) hq (hp ?_)
    rw [hh', hb]
    exact decide_eq_true (Int.not_lt.mp ‹_›)

theorem split_of_handsOff {r : Queues.Runtime} (h : Transported numQueues bufSize slices c e s)
    (hh : s.holds) (hr : HandsOff e.slice s.toRuntime r) :
    Transit numQueues bufSize slices c (next bufSize slices e) r := by
  have hf := h.flag
  have hb := h.filling hh
  cases hr with
  | task hs ht hl =>
    rw [hs, eq_comm, decide_eq_false_iff_not, not_not] at hf
    rw [Transit, ht, hl, hb]
    exact h.transit.pushLeft (decide_eq_true hf)
  | full hs ht hl =>
    rw [hs, eq_comm, decide_eq_true_iff] at hf
    rw [Transit, ht, hl, hb]
    exact h.transit.pushRight (decide_eq_false hf)

-- A buffer that is full is handed off before the next value.
theorem updateCmp (h : Transported numQueues bufSize slices c e s) (h₀ : 0 < bufSize)
    (hp : s.producer = .exec p) (ht : p.tail.isSome) (hv : p.AtValue)
    (hu : updateCmp numQueues bufSize p s = some s') :
    ∃ e, Transported numQueues bufSize slices c e s' := by
  have ha := h.producer
  rw [ProducerAt, hp] at ha
  obtain ⟨hs, hh, hi⟩ := (if_pos ht).mp ha
  obtain ⟨sl, hsl, hw⟩ := hs.within
  rw [Cursors.updateCmp] at hu
  split at hu
  case isTrue hq =>
    cases hu
    have hh' : State.holds { s with producer := .put p } = s.holds := by
      rw [State.holds, State.holds, hp]
    exact ⟨e, h.stay ⟨rfl, rfl, rfl, rfl, rfl⟩ rfl hh' (fun _ => rfl) (Nat.le_refl _)
      ⟨⟨⟨sl, hsl, hw⟩, hs.slice, ht, hs.sliceFlag, hs.curTask⟩, hh' ▸ hh, hi, hq, hv⟩⟩
  case isFalse hq =>
    obtain ⟨r, hr, rfl⟩ := Option.map_eq_some_iff.mp hu
    obtain ⟨hr, hf, hl, hc, -⟩ := handsOff_of_sliceEndInterimPush hr
    rw [hs.curTask, ← hs.slice] at hr
    have hpos : 0 < values p.events := by
      obtain ⟨x, es, hx, hxv⟩ := hv
      simp [hx, hxv]
    have hn : next bufSize slices e = ⟨e.slice, e.idx + 1⟩ :=
      hw.next_of_switch (hs.pushed_eq hsl) h₀ hq hpos
    refine ⟨_, h.emit rfl rfl hl hh rfl (h.split_of_handsOff hh hr) ?_ rfl ?_ fun i hi _ =>
      Nat.lt_of_lt_of_le hi (Nat.not_lt.mp hq)⟩
    · rw [hn]
      exact hf
    · rw [hn]
      exact ⟨⟨⟨sl, hsl, hw.switch hq hpos⟩, hs.slice, ht, hs.sliceFlag, hc.trans hs.curTask⟩, rfl,
        hv⟩

theorem endSlice {tail : List Event} (h : Transported numQueues bufSize slices c e s)
    (h₀ : 0 < bufSize) (hp : s.producer = .exec p) (ht : p.tail = some tail) (he : p.events = [])
    (hu : endSlice numQueues tail s = some s') :
    ∃ e, Transported numQueues bufSize slices c e s' := by
  have ha := h.producer
  rw [ProducerAt, hp] at ha
  obtain ⟨hs, hh, hi⟩ := (if_pos (by rw [ht]; rfl)).mp ha
  obtain ⟨sl, hsl, hw⟩ := hs.within
  obtain ⟨r, hr, rfl⟩ := Option.map_eq_some_iff.mp hu
  obtain ⟨hr, hf, hl, hc, -⟩ := handsOff_of_sliceEnd hr
  rw [← hs.slice] at hr
  have hv : values p.events = 0 := by rw [he]; rfl
  have hn : next bufSize slices e = ⟨e.slice + 1, 0⟩ := hw.next_of_last (hs.pushed_eq hsl) h₀ hv
  refine ⟨_, h.emit rfl rfl hl hh ?_ (h.split_of_handsOff hh hr) ?_ rfl ?_ fun i _ hi => ?_⟩
  · show decide (0 ≤ r.pQueueIdx) = false
    rw [hc]
    rfl
  · rw [hn]
    exact hf
  · rw [hn]
    exact ⟨rfl, by rw [hs.slice]⟩
  · rw [hs.pushed_eq hsl, hw.values_eq, hv, ← hw.total_eq] at hi
    omega

-- A step of a slice function. Nothing that follows `end_slice` is a value.
theorem exec (h : Transported numQueues bufSize slices c e s) (h₀ : 0 < bufSize) (hs : Silenced s)
    (hp : s.producer = .exec p) (hu : exec numQueues bufSize p s = some s') :
    ∃ e, Transported numQueues bufSize slices c e s' := by
  have ha := h.producer
  have hq := (hs.producer p (by rw [hp]; rfl)).quiet
  rw [ProducerAt, hp] at ha
  dsimp only at ha
  rw [Cursors.exec] at hu
  split at hu
  case h_1 es hes =>
    have ht : p.tail.isSome := Option.isSome_iff_ne_none.mpr fun ht =>
      (hq ht).left (by rw [hes]; rfl)
    exact h.updateCmp h₀ hp ht ⟨_, es, hes, rfl⟩ hu
  case h_2 es hes =>
    have ht : p.tail.isSome := Option.isSome_iff_ne_none.mpr fun ht =>
      (hq ht).right (by rw [hes]; rfl)
    rw [if_pos ((if_pos ht).mp ha).left.sliceFlag] at hu
    exact h.updateCmp h₀ hp ht ⟨_, es, hes, rfl⟩ hu
  case h_3 f es hes =>
    obtain ⟨s₁, he, rfl⟩ := Option.map_eq_some_iff.mp hu
    obtain ⟨r, hr, rfl⟩ := Option.map_eq_some_iff.mp he
    obtain ⟨ht, hf, hst, hc, -⟩ := getBufAddr_same hr
    refine ⟨e, h.enter hr (by simp [hp]) ⟨ht, hf, hst, rfl, rfl⟩ rfl rfl (by simp) (Nat.le_refl _)
      fun hh => ?_⟩
    rw [ProducerAt]
    split at ha
    case isTrue hs' =>
      obtain ⟨hs, -, -⟩ := ha
      obtain ⟨sl, hsl, hw⟩ := hs.within
      rw [hes] at hw
      refine (if_pos hs').mpr ⟨⟨⟨sl, hsl, ?_⟩, hs.slice, hs', hs.sliceFlag, hc.trans hs.curTask⟩,
        hh, rfl⟩
      rw [Point.next, hes]
      exact hw.skip rfl
    case isFalse hs' => exact (if_neg hs').mpr ha
  case h_4 tail hes ht => exact h.endSlice h₀ hp ht hes hu
  case h_5 ht =>
    cases hu
    obtain ⟨hq, he⟩ := (if_neg (by rw [ht]; simp)).mp ha
    exact ⟨e,
      h.stay ⟨rfl, rfl, rfl, rfl, rfl⟩ rfl (by rw [State.holds, State.holds, hp]) (fun _ => rfl)
        (Nat.le_refl _) ⟨hq, he⟩⟩

theorem produce (h : Transported numQueues bufSize slices c e s) (h₀ : 0 < bufSize)
    (hs : Silenced s) (hu : produce numQueues bufSize slices s = some s') :
    ∃ e, Transported numQueues bufSize slices c e s' := by
  have ha := h.producer
  rw [ProducerAt] at ha
  rw [Cursors.produce] at hu
  split at hu
  case h_1 hp =>
    rw [hp] at ha
    split at hu
    case h_1 sl hsl =>
      obtain ⟨s₁, he, rfl⟩ := Option.map_eq_some_iff.mp hu
      obtain ⟨r, hr, rfl⟩ := Option.map_eq_some_iff.mp he
      obtain ⟨ht, hf, hst, -, -⟩ := getBufAddr_same hr
      obtain ⟨hq, rfl⟩ := ha
      refine ⟨_, h.enter hr (by simp [hp]) ⟨ht, hf, hst, rfl, rfl⟩ rfl rfl (by simp) (Nat.le_refl _)
        fun hh => ?_⟩
      have hw : Within bufSize sl.body sl.producer.events 0 s.qIdx 0 := by
        rw [hq]
        exact .start
      rw [ProducerAt]
      dsimp only
      rw [if_pos (by rfl)]
      exact ⟨⟨⟨sl, hsl, hw⟩, rfl, rfl, rfl, rfl⟩, hh, rfl⟩
    case h_2 =>
      cases hu
      exact ⟨e, h.stay ⟨rfl, rfl, rfl, rfl, rfl⟩ rfl (by rw [State.holds, State.holds, hp]; rfl)
        (fun _ => rfl) (Nat.le_refl _) ha⟩
  case h_2 p hp => exact h.exec h₀ hs hp hu
  case h_3 p hp =>
    cases hu
    exact ⟨e, h.update hp⟩
  case h_4 p hp =>
    rw [hp] at ha
    obtain ⟨hs, hq, hv⟩ := ha
    obtain ⟨sl, hsl, hw⟩ := hs.within
    obtain ⟨r, hr, rfl⟩ := Option.map_eq_some_iff.mp hu
    rw [Queues.Runtime.sliceEndInterimPop] at hr
    split at hr
    case h_1 => cases hr
    case h_2 hl =>
      cases hr
      refine ⟨e,
        h.acquire ⟨rfl, rfl, rfl, rfl, rfl⟩ (by rw [State.holds, hp]) hl (by simp) (Nat.le_refl _)
          fun hh => ?_⟩
      exact ⟨⟨⟨sl, hsl, hw⟩, hs.slice, hs.tail, hs.sliceFlag, hs.curTask⟩, hh, rfl, by
        rw [hq]; exact h₀, hv⟩
  case h_5 => cases hu

end Transported

end Producer

section Worker

variable {s s' : State 1} {e : Chunk} {p : Point} {f j : Nat} {w : Worker} {r : Queues.Runtime}

theorem number_next_pos (c : Chunk) : 0 < number bufSize slices (next bufSize slices c) := by
  rw [next]
  split
  case isTrue  => exact Nat.lt_of_lt_of_le (Nat.succ_pos _) (Nat.le_add_left ..)
  case isFalse => exact firstOf_succ_pos c.slice

theorem holds_setWorker (hb : r.pQueueIdx = s.pQueueIdx) :
    (setWorker 0 w { s with toRuntime := r }).holds = s.holds := by
  simp only [State.holds, setWorker_producer, setWorker_toRuntime, hb]

-- The producer is not concerned.
theorem producerAt_setWorker (h : ProducerAt bufSize slices e s) (hb : r.pQueueIdx = s.pQueueIdx)
    (hc : r.curTask = s.curTask) :
    ProducerAt bufSize slices e (setWorker 0 w { s with toRuntime := r }) := by
  have hs : ∀ {p}, Sending bufSize slices e p s →
      Sending bufSize slices e p (setWorker 0 w { s with toRuntime := r }) :=
    fun h => ⟨h.within, h.slice, h.tail, h.sliceFlag, hc.trans h.curTask⟩
  have hh := holds_setWorker (w := w) hb
  rw [ProducerAt] at h ⊢
  simp only [setWorker_producer, setWorker_qIdx, setWorker_cur, setWorker_curIndex, hh] at h ⊢
  split at h
  case h_1 | h_2 => exact h
  case h_3 =>
    split at h
    case isTrue ht  =>
      rw [if_pos ht]
      exact ⟨hs h.left, h.right.left, h.right.right.trans hb.symm⟩
    case isFalse ht =>
      rw [if_neg ht]
      exact h
  case h_4 => exact ⟨hs h.left, h.right.left, h.right.right.left.trans hb.symm, h.right.right.right⟩
  case h_5 => exact ⟨hs h.left, h.right⟩

theorem pushed_eq {sl : Slice} (hsl : slices[f]? = some sl) :
    pushed slices f = values (.enter f :: sl.body) := by
  rw [pushed, hsl]
  rfl

-- A shadow function that asks for a further buffer has a value to read from it.
theorem Reading.values_pos (h : Reading bufSize slices f p j w) (h₀ : 0 < bufSize)
    (hs : ∀ sl ∈ slices, sl.Steady bufSize) (hq : ¬w.cQIdx < bufSize) (he : p.events ≠ []) :
    0 < values p.events := by
  obtain ⟨sl, hsl, hw⟩ := h.within
  obtain ⟨l, hl, hk⟩ := hw.split
  have ht := hw.total_eq
  have hb : w.cQIdx = bufSize := Nat.le_antisymm hw.idx_le (Nat.not_lt.mp hq)
  rw [hb] at ht
  cases l with
  | nil       =>
    rw [← hk, values_nil] at ht
    omega
  | cons x l  =>
    obtain ⟨rfl, hl'⟩ : .enter f = x ∧ sl.body = l ++ p.events := List.cons.inj hl
    have hk : values l = w.got.length := by simpa [Event.isValue] using hk
    have hv := hs sl (List.mem_of_getElem? hsl) l.length
    rw [hl', List.take_left, List.drop_left, List.length_append, hk, ← ht, ← Nat.succ_mul] at hv
    exact hv (Nat.lt_add_of_pos_right (List.length_pos_of_ne_nil he))
      (Nat.mul_pos (Nat.succ_pos j) h₀) (Nat.dvd_mul_left ..)

-- What a shadow function does with a buffer that it has not read to its end.
theorem Reading.resume (h : Reading bufSize slices f p j w) (hq : w.cQIdx < bufSize)
    (he : p.events ≠ []) :
    WorkerAt bufSize slices (next bufSize slices ⟨f, j⟩) { w with pc := resume f p } := by
  obtain ⟨sl, hsl, hw⟩ := h.within
  rw [Cursors.resume]
  split
  case h_1 es hes | h_2 es hes => exact ⟨j, ⟨h.within, h.got, h.tail⟩, rfl, hq, _, es, hes, rfl⟩
  case h_3 g es hes =>
    rw [hes] at hw
    refine (if_pos h.tail).mpr ⟨j, ⟨⟨sl, hsl, ?_⟩, h.got, h.tail⟩, rfl⟩
    rw [Point.next, hes]
    exact hw.skip rfl
  case h_4 hes => exact absurd hes he

-- The parts of the runtime that the worker leaves alone.
structure SameRuntime (r r' : Queues.Runtime) : Prop where
  pQueueIdx  : r'.pQueueIdx = r.pQueueIdx
  curTask    : r'.curTask = r.curTask
  startSlice : r'.startSlice = r.startSlice

namespace Transported

-- A step of the worker, which wants the buffer `d` afterwards.
theorem setWorker (h : Transported numQueues bufSize slices c e s) (hr : SameRuntime s.toRuntime r)
    (he : Exists bufSize slices d)
    (hl : Handoff.Ring (turn numQueues) numQueues (number bufSize slices e + s.holds.toNat)
      (released bufSize slices d w) r.emptyList)
    (hs : Transit numQueues bufSize slices d e r)
    (hn : released bufSize slices c (s.workers 0) ≤ released bufSize slices d w)
    (hi : w.pc.holds → w.bufIdx = turn numQueues (released bufSize slices d w))
    (hw : WorkerAt bufSize slices d w) :
    Transported numQueues bufSize slices d e (setWorker 0 w { s with toRuntime := r }) := by
  have hx : (Cursors.setWorker 0 w { s with toRuntime := r }).workers 0 = w := by simp
  exact {
    wanted   := he
    filled   := h.filled
    ring     := by rw [hx, holds_setWorker hr.pQueueIdx]; exact hl
    transit  := hs
    flag     := hr.startSlice.trans h.flag
    filling  := fun hp => hr.pQueueIdx.trans (h.filling (holds_setWorker hr.pQueueIdx ▸ hp))
    producer := producerAt_setWorker h.producer hr.pQueueIdx hr.curTask
    reading  := hx.symm ▸ hi
    worker   := hx.symm ▸ hw
    stored   := by
      rw [hx]
      exact fun d i hi hl hr hd => h.stored d i hi hl (Nat.le_trans hn hr) hd }

-- The worker stays with the buffer that it has, or without one.
theorem goOn (h : Transported numQueues bufSize slices c e s) (hr : SameRuntime s.toRuntime r)
    (hl : r.emptyList = s.emptyList) (ht : r.taskQueue = s.taskQueue) (hf : r.fullList = s.fullList)
    (hh : w.pc.holds = (s.workers 0).pc.holds) (hi : w.pc.holds → w.bufIdx = (s.workers 0).bufIdx)
    (hw : WorkerAt bufSize slices c w) :
    Transported numQueues bufSize slices c e (Cursors.setWorker 0 w { s with toRuntime := r }) := by
  have hx : released bufSize slices c w = released bufSize slices c (s.workers 0) := by
    rw [released, released, hh]
  refine h.setWorker hr h.wanted ?_ (by rw [Transit, ht, hf]; exact h.transit)
    (Nat.le_of_eq hx.symm) (fun hp => ?_) hw
  · rw [hx, hl]
    exact h.ring
  · rw [hi hp, hx]
    exact h.reading (hh ▸ hp)

-- It takes the buffer that it wants.
theorem take (h : Transported numQueues bufSize slices c e s) (hr : SameRuntime s.toRuntime r)
    (hl : r.emptyList = s.emptyList)
    (hs : Transit numQueues bufSize slices (next bufSize slices c) e r)
    (hh : (s.workers 0).pc.holds = false) (hh' : w.pc.holds)
    (hi : w.bufIdx = turn numQueues (number bufSize slices c))
    (hw : WorkerAt bufSize slices (next bufSize slices c) w) :
    Transported numQueues bufSize slices (next bufSize slices c) e
      (Cursors.setWorker 0 w { s with toRuntime := r }) := by
  obtain ⟨he, hn⟩ := exists_next h.wanted
  have hx : released bufSize slices (next bufSize slices c) w = released bufSize slices c
      (s.workers 0) := by
    rw [released, released, hn, hh, hh']
    rfl
  refine h.setWorker hr he ?_ hs (Nat.le_of_eq hx.symm) (fun _ => ?_) hw
  · rw [hx, hl]
    exact h.ring
  · rw [hx, released, hh]
    exact hi

-- It gives its buffer back.
theorem giveBack (h : Transported numQueues bufSize slices c e s) (hr : SameRuntime s.toRuntime r)
    (hl : r.emptyList = s.emptyList ++ [(s.workers 0).bufIdx]) (ht : r.taskQueue = s.taskQueue)
    (hf : r.fullList = s.fullList) (hh : (s.workers 0).pc.holds) (hh' : w.pc.holds = false)
    (hn : 0 < number bufSize slices c) (hw : WorkerAt bufSize slices c w) :
    Transported numQueues bufSize slices c e (Cursors.setWorker 0 w { s with toRuntime := r }) := by
  have hx : released bufSize slices c w = released bufSize slices c (s.workers 0) + 1 := by
    rw [released, released, hh, hh']
    exact (Nat.sub_add_cancel hn).symm
  refine h.setWorker hr h.wanted ?_ (by rw [Transit, ht, hf]; exact h.transit) (hx ▸ Nat.le_succ _)
    (fun hp => absurd (hh'.symm.trans hp) (by simp)) hw
  rw [hx, hl, h.reading hh]
  exact h.ring.giveBack fun n => by rw [turn, turn, Nat.add_mod_left]

theorem splitReadFromBuf (h : Transported numQueues bufSize slices c e s) (h₀ : 0 < bufSize)
    (hs : ∀ sl ∈ slices, sl.Steady bufSize) (hp : (s.workers 0).pc = .exec f p)
    (hr : Reading bufSize slices f p j (s.workers 0)) (hc : c = next bufSize slices ⟨f, j⟩)
    (he : p.events ≠ []) (hu : splitReadFromBuf numQueues bufSize 0 f p (resume f p) s = some s') :
    ∃ c, Transported numQueues bufSize slices c e s' := by
  have hh : (s.workers 0).pc.holds := by rw [hp]; rfl
  rw [Cursors.splitReadFromBuf] at hu
  split at hu
  case isTrue hq =>
    cases hu
    refine ⟨c, h.goOn ⟨rfl, rfl, rfl⟩ rfl rfl rfl ?_ (fun _ => rfl) (hc ▸ hr.resume hq he)⟩
    rw [hh, Cursors.resume]
    split <;> rfl
  case isFalse hq =>
    obtain ⟨r, hr', rfl⟩ := Option.map_eq_some_iff.mp hu
    obtain ⟨l, hl, rfl⟩ := Option.map_eq_some_iff.mp hr'
    obtain ⟨-, rfl⟩ := Queues.Runtime.push_eq_some.mp hl
    obtain ⟨sl, hsl, hw⟩ := hr.within
    have hv := hr.values_pos h₀ hs hq he
    have hn : c = ⟨f, j + 1⟩ := hc.trans (hw.next_of_switch (pushed_eq hsl) h₀ hq hv)
    refine ⟨c, h.giveBack ⟨rfl, rfl, rfl⟩ rfl rfl rfl hh rfl (hc ▸ number_next_pos _) ?_⟩
    rw [hn]
    exact ⟨⟨⟨sl, hsl, hw.switch hq hv⟩, hr.got, hr.tail⟩, rfl, Nat.succ_ne_zero j, rfl, he⟩

theorem shadowExec (h : Transported numQueues bufSize slices c e s) (h₀ : 0 < bufSize)
    (hs : ∀ sl ∈ slices, sl.Steady bufSize) (hq : (s.workers 0).pc.point? = some p → p.Silent)
    (hp : (s.workers 0).pc = .exec f p) (hu : shadowExec numQueues bufSize 0 f p s = some s') :
    ∃ c, Transported numQueues bufSize slices c e s' := by
  have hh : (s.workers 0).pc.holds := by rw [hp]; rfl
  have ha := h.worker
  rw [WorkerAt, hp] at ha
  dsimp only at ha
  rw [Cursors.shadowExec] at hu
  split at hu
  case h_1 x es hes =>
    have he : p.events ≠ [] := by simp [hes]
    split at ha
    case isTrue ht =>
      obtain ⟨j, hr, hc⟩ := ha
      exact h.splitReadFromBuf h₀ hs hp hr hc he hu
    case isFalse ht =>
      -- The cursor is at the start since `end_slice`, and only functions are entered.
      have hn : p.tail = none := by simpa using ht
      have hv := (hq (by rw [hp]; rfl)).quiet hn
      rw [Cursors.splitReadFromBuf, if_pos (by rw [ha.cQIdx]; exact h₀)] at hu
      cases hu
      have hr : resume f p = .exec f p.next := by
        rw [resume]
        split <;> simp_all
      rw [hr]
      exact ⟨c,
        h.goOn ⟨rfl, rfl, rfl⟩ rfl rfl rfl hh.symm (fun _ => rfl)
          ((if_neg ht).mpr ⟨ha.cQIdx, ha.got, ha.wanted⟩)⟩
  case h_2 tail hes ht =>
    cases hu
    obtain ⟨j, hr, hc⟩ := (if_pos (by rw [ht]; rfl)).mp ha
    obtain ⟨sl, hsl, hw⟩ := hr.within
    have hv : values p.events = 0 := by rw [hes]; rfl
    have hg : (s.workers 0).got.length = pushed slices f := by
      rw [pushed_eq hsl, hw.values_eq, hv]
      rfl
    have hd : Done slices f c { s.workers 0 with pc := .exec f (.leaveSlice tail), cQIdx := 0 } :=
      ⟨rfl, hg ▸ hr.got, hc.trans (hw.next_of_last (pushed_eq hsl) h₀ hv)⟩
    exact ⟨c, h.goOn ⟨rfl, rfl, rfl⟩ rfl rfl rfl hh.symm (fun _ => rfl) hd⟩
  case h_3 hes ht =>
    cases hu
    have ha := (if_neg (by rw [ht]; simp)).mp ha
    exact ⟨c,
      h.goOn ⟨rfl, rfl, rfl⟩ rfl rfl rfl hh.symm (fun _ => rfl) ⟨f, ha.cQIdx, ha.got, ha.wanted⟩⟩

-- A read finds the value of its own slice that is next.
theorem readFromBuf (h : Transported numQueues bufSize slices c e s)
    (hp : (s.workers 0).pc = .read f p) :
    Transported numQueues bufSize slices c e (readFromBuf 0 f p s) := by
  have hh : (s.workers 0).pc.holds := by rw [hp]; rfl
  have ha := h.worker
  rw [WorkerAt, hp] at ha
  obtain ⟨j, hr, hc, hq, x, es, hx, hv⟩ := ha
  obtain ⟨sl, hsl, hw⟩ := hr.within
  have hpos : 0 < values p.events := by simp [hx, hv]
  have hl : j * bufSize + (s.workers 0).cQIdx < pushed slices f := by
    rw [pushed_eq hsl, hw.total_eq, hw.values_eq]
    omega
  obtain ⟨-, hn⟩ := exists_next (exists_of_lt hl hq)
  have hrel : released bufSize slices c (s.workers 0) = number bufSize slices ⟨f, j⟩ := by
    rw [released, hh, hc, hn]; rfl
  have hle := h.transit.number_le h.wanted fun _ => exists_next
  rw [hc, hn] at hle
  have hcell := h.stored ⟨f, j⟩ _ hq hl (Nat.le_of_eq hrel) (.inl hle)
  rw [← hrel, ← h.reading hh, hw.total_eq] at hcell
  refine h.goOn ⟨rfl, rfl, rfl⟩ rfl rfl rfl hh.symm (fun _ => rfl) ?_
  have hgot : (s.workers 0).got ++ [s.cells (s.workers 0).bufIdx (s.workers 0).cQIdx] =
      stamps f ((s.workers 0).got.length + 1) := by
    rw [hcell, stamps, List.range_succ, List.map_append, ← stamps, ← hr.got]
    rfl
  refine (if_pos hr.tail).mpr ⟨j, ⟨⟨sl, hsl, ?_⟩, ?_, hr.tail⟩, hc⟩
  · rw [hx] at hw
    rw [Point.next, hx, List.length_append]
    exact hw.advance hv hq
  · rw [hgot]
    simp [stamps]

theorem work (h : Transported numQueues bufSize slices c e s) (h₀ : 0 < bufSize)
    (hs : ∀ sl ∈ slices, sl.Steady bufSize) (hq : Silenced s)
    (hu : work numQueues bufSize slices 0 s = some s') :
    ∃ c, Transported numQueues bufSize slices c e s' := by
  have ha := h.worker
  simp only [Cursors.work] at hu
  split at hu
  case h_1 hp | h_2 hp =>
    cases hu
    rw [WorkerAt, hp] at ha
    refine ⟨c, h.goOn ⟨rfl, rfl, rfl⟩ rfl rfl rfl ?_ (fun _ => rfl) ?_⟩
    · rw [hp]
      split <;> rfl
    · split <;> exact ha
  case h_3 hp =>
    rw [WorkerAt, hp] at ha
    split at hu
    case h_1 =>
      cases hu
      exact ⟨c, h.goOn ⟨rfl, rfl, rfl⟩ rfl rfl rfl (by rw [hp]; rfl) (fun _ => rfl) ha⟩
    case h_2 f i q hl =>
      cases hu
      have ht := h.transit
      rw [Transit, hl] at ht
      obtain ⟨hx, hsp⟩ := ht.popLeft (decide_eq_true ha.right)
      obtain ⟨rfl, rfl⟩ := Prod.mk.inj hx
      refine ⟨_, h.take ⟨rfl, rfl, rfl⟩ rfl hsp (by rw [hp]; rfl) rfl rfl ⟨ha.left, rfl, ?_⟩⟩
      rw [← ha.right]
  case h_4 f i hp =>
    obtain ⟨sl, hsl, rfl⟩ := Option.map_eq_some_iff.mp hu
    rw [WorkerAt, hp] at ha
    obtain ⟨hq, hg, hc⟩ := ha
    refine ⟨c, h.goOn ⟨rfl, rfl, rfl⟩ rfl rfl rfl (by rw [hp]; rfl) (fun _ => rfl) ?_⟩
    rw [WorkerAt]
    dsimp only
    rw [if_pos (by rfl), hq, hg]
    exact ⟨0, ⟨⟨sl, hsl, .start⟩, rfl, rfl⟩, hc⟩
  case h_5 f p hp => exact h.shadowExec h₀ hs (hq.workers 0 p) hp hu
  case h_6 f p hp =>
    cases hu
    exact ⟨c, h.readFromBuf hp⟩
  case h_7 f p hp =>
    rw [WorkerAt, hp] at ha
    obtain ⟨hr, hf, hi, hq, he⟩ := ha
    obtain ⟨⟨i, r⟩, hr', rfl⟩ := Option.map_eq_some_iff.mp hu
    rw [Queues.Runtime.shadowTaskInterimPop] at hr'
    split at hr'
    case h_1 => cases hr'
    case h_2 b l hl =>
      cases hr'
      have ht := h.transit
      rw [Transit, hl] at ht
      obtain ⟨hx, hsp⟩ := ht.popRight (decide_eq_false hi)
      have hb : Reading bufSize slices f p c.idx { s.workers 0 with bufIdx := i } :=
        ⟨hr.within, hr.got, hr.tail⟩
      have hw := hb.resume (by rw [hq]; exact h₀) he
      rw [← hf] at hw ⊢
      refine ⟨_, h.take ⟨rfl, rfl, rfl⟩ rfl hsp (by rw [hp]; rfl) ?_ hx hw⟩
      rw [Cursors.resume]
      split <;> rfl
  case h_8 hp =>
    rw [WorkerAt, hp] at ha
    obtain ⟨f, hd⟩ := ha
    obtain ⟨r, hr, rfl⟩ := Option.map_eq_some_iff.mp hu
    obtain ⟨l, hl, rfl⟩ := Option.map_eq_some_iff.mp hr
    obtain ⟨-, rfl⟩ := Queues.Runtime.push_eq_some.mp hl
    refine ⟨c,
      h.giveBack ⟨rfl, rfl, rfl⟩ rfl rfl rfl (by rw [hp]; rfl) rfl ?_ ⟨hd.cQIdx, by rw [hd.wanted]⟩⟩
    rw [hd.wanted]
    exact firstOf_succ_pos f
  case h_9 => cases hu

end Transported

end Worker

def WorkerPc.slice? : WorkerPc → Option Nat
  | .exec f _ | .read f _ | .wait f _ => some f
  | _                                 => none

-- A task has read the values of its own slice, in their order and without gaps, and all of them
-- when it has called `end_slice`.
structure Delivered (slices : List Slice) (w : Worker) : Prop where
  own      : ∀ f, w.pc.slice? = some f → w.got <+: stamps f (pushed slices f)
  complete : ∀ f p, w.pc = .exec f p → p.tail = none → w.got = stamps f (pushed slices f)

end Cursors
