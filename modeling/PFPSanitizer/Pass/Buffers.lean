import PFPSanitizer.Lib.Chunks
import Mathlib.Data.List.Basic
import Mathlib.Logic.Function.Basic

-- The code that the pass inserts to push a value into a buffer and to read it, over the globals
-- that it works with. The buffers of a slice are numbered in the order in which they are acquired.
namespace Buffers

-- The globals of the producer, with the slice flag that it has loaded, the number of the buffer
-- that it holds, and a log of the stores: buffer, index and value.
structure Producer (α : Type) where
  sliceF   : Bool
  qIdx     : Nat
  curIndex : Nat
  held     : Nat
  stores   : List (Nat × Nat × α)

-- The registers of a block.
structure Regs where
  addr    : Nat
  counter : Nat
  gep     : Nat × Nat
  incr    : Nat

-- `loadCurIndex` and `loadQIdx` are named `my_load_idx`, `storeQIdx` and `storeCurIndex` are named
-- `my_store_idx`. `interim` calls `fpsanx_slice_end_interim`.
inductive Instr (α : Type)
  | loadCurIndex
  | loadQIdx
  | gep
  | storeBuf (val : α)
  | incr
  | storeQIdx
  | resetQIdx
  | interim
  | storeCurIndex

inductive Label
  | uCmp
  | updateCmp (i : Nat)
  | updateNew (i : Nat)
  | update (i : Nat)
  | cont
deriving DecidableEq

-- `slice` tests the slice flag and `full` whether the counter is below the size of a buffer.
inductive Terminator
  | br (l : Label)
  | slice (ifTrue ifFalse : Label)
  | full (ifTrue ifFalse : Label)

structure Block (α : Type) where
  instrs     : List (Instr α)
  terminator : Terminator

section Producer

variable {α : Type}

namespace Instr

def exec : Instr α → Regs × Producer α → Regs × Producer α
  | loadCurIndex, (r, p)  => ({ r with addr := p.curIndex }, p)
  | loadQIdx, (r, p)      => ({ r with counter := p.qIdx }, p)
  | gep, (r, p)           => ({ r with gep := (r.addr, r.counter) }, p)
  | storeBuf val, (r, p)  => (r, { p with stores := p.stores ++ [(r.gep.fst, r.gep.snd, val)] })
  | incr, (r, p)          => ({ r with incr := r.counter + 1 }, p)
  | storeQIdx, (r, p)     => (r, { p with qIdx := r.incr })
  | resetQIdx, (r, p)     => (r, { p with qIdx := 0 })
  | interim, (r, p)       => ({ r with addr := p.held + 1 }, { p with held := p.held + 1 })
  | storeCurIndex, (r, p) => (r, { p with curIndex := r.addr })

end Instr

-- The blocks `updatecmp`, `updatenew` and `update`.
def updateBCmp (ifTrue ifFalse : Label) : Block α :=
  { instrs := [.loadQIdx], terminator := .full ifTrue ifFalse }

def updateNew (next : Label) : Block α :=
  { instrs := [.resetQIdx, .interim, .storeCurIndex], terminator := .br next }

def updateB (val : α) (next : Label) : Block α :=
  { instrs := [.loadCurIndex, .loadQIdx, .gep, .storeBuf val, .incr, .storeQIdx],
    terminator := .br next }

def uCmp (ifTrue ifFalse : Label) : Block α :=
  { instrs := [], terminator := .slice ifTrue ifFalse }

def createUpdateBlock (val : α) : Label → Option (Block α)
  | .uCmp        => some <| uCmp (.updateCmp 1) .cont
  | .updateCmp 1 => some <| updateBCmp (.update 1) (.updateNew 1)
  | .updateNew 1 => some <| updateNew (.update 1)
  | .update 1    => some <| updateB val .cont
  | _            => none

def createUpdateBlock2 (vAddr val : α) : Label → Option (Block α)
  | .uCmp        => some <| uCmp (.updateCmp 1) .cont
  | .updateCmp 1 => some <| updateBCmp (.update 1) (.updateNew 1)
  | .updateNew 1 => some <| updateNew (.update 1)
  | .update 1    => some <| updateB vAddr (.updateCmp 2)
  | .updateCmp 2 => some <| updateBCmp (.update 2) (.updateNew 2)
  | .updateNew 2 => some <| updateNew (.update 2)
  | .update 2    => some <| updateB val .cont
  | _            => none

def createUpdateBlock3 (vAddr1 vAddr2 val : α) : Label → Option (Block α)
  | .uCmp        => some <| uCmp (.updateCmp 1) .cont
  | .updateCmp 1 => some <| updateBCmp (.update 1) (.updateNew 1)
  | .updateNew 1 => some <| updateNew (.update 1)
  | .update 1    => some <| updateB vAddr1 (.updateCmp 2)
  | .updateCmp 2 => some <| updateBCmp (.update 2) (.updateNew 2)
  | .updateNew 2 => some <| updateNew (.update 2)
  | .update 2    => some <| updateB vAddr2 (.updateCmp 3)
  | .updateCmp 3 => some <| updateBCmp (.update 3) (.updateNew 3)
  | .updateNew 3 => some <| updateNew (.update 3)
  | .update 3    => some <| updateB val .cont
  | _            => none

variable (bufSize : Nat)

-- The registers do not outlive a block.
def Block.exec (b : Block α) (p : Producer α) : Label × Producer α :=
  let (r, p) := b.instrs.foldl (fun s i => i.exec s) (⟨0, 0, (0, 0), 0⟩, p)
  match b.terminator with
  | .br l          => (l, p)
  | .slice l₁ l₂   => (if p.sliceF then l₁ else l₂, p)
  | .full l₁ l₂    => (if r.counter < bufSize then l₁ else l₂, p)

-- The execution of the inserted blocks up to the block behind them.
def run (code : Label → Option (Block α)) : Nat → Label → Producer α → Option (Producer α)
  | _, .cont, p     => p
  | 0, _, _         => none
  | n + 1, l, p     => do
    let b ← code l
    let (l, p) := b.exec bufSize p
    run code n l p

-- What one handler pushes.
inductive Group (α : Type)
  | one (val : α)
  | two (vAddr val : α)
  | three (vAddr1 vAddr2 val : α)

namespace Group

def values : Group α → List α
  | one v       => [v]
  | two u v     => [u, v]
  | three t u v => [t, u, v]

def code : Group α → Label → Option (Block α)
  | one v       => createUpdateBlock v
  | two u v     => createUpdateBlock2 u v
  | three t u v => createUpdateBlock3 t u v

-- Each value takes at most three blocks.
def push (g : Group α) (p : Producer α) : Option (Producer α) :=
  run bufSize g.code (3 * g.values.length + 1) .uCmp p

end Group

namespace Producer

variable (p : Producer α)

def cursor : Cursor where
  chunk := p.held
  idx   := p.qIdx

-- The buffer that the producer holds is the one it stores to, and it has to store.
structure Filling : Prop where
  sliceF   : p.sliceF
  curIndex : p.curIndex = p.held

-- The effect of the blocks for one value.
def put (val : α) : Producer α :=
  let c := p.cursor.turn bufSize
  { p with
    held := c.chunk, curIndex := c.chunk, qIdx := c.idx + 1,
    stores := p.stores ++ [(c.chunk, c.idx, val)] }

variable {p bufSize}

@[simp]
theorem cursor_put {val : α} : (p.put bufSize val).cursor = (p.cursor.turn bufSize).advance :=
  rfl

theorem Filling.put (h : p.Filling) (val : α) : (p.put bufSize val).Filling :=
  ⟨h.sliceF, rfl⟩

end Producer

section Run

variable {bufSize} {p : Producer α} {code : Label → Option (Block α)} {val : α} {n i : Nat}
  {next : Label}

-- The three blocks for a value, as a part of any code.
structure Pushes (code : Label → Option (Block α)) (i : Nat) (val : α) (next : Label) : Prop where
  updateCmp : code (.updateCmp i) = some (updateBCmp (.update i) (.updateNew i))
  updateNew : code (.updateNew i) = some (Buffers.updateNew (.update i))
  update    : code (.update i) = some (updateB val next)

theorem run_succ {b : Block α} {l : Label} (hb : code l = some b) (hl : l ≠ .cont) (n : Nat) :
    run bufSize code (n + 1) l p = run bufSize code n (b.exec bufSize p).fst
      (b.exec bufSize p).snd := by
  rw [run, hb]
  · rfl
  · exact hl

@[simp]
theorem run_cont : run bufSize code n .cont p = some p := by
  cases n <;> rfl

-- The value is stored behind the others, in the next buffer if this one is full.
theorem Pushes.run (bufSize : Nat) (h : Pushes code i val next) (hp : p.Filling) (n : Nat) :
    ∃ m ≥ n, run bufSize code (n + 3) (.updateCmp i) p = run bufSize code m next
      (p.put bufSize val) := by
  rw [run_succ h.updateCmp nofun]
  by_cases hl : p.qIdx < bufSize
  case pos =>
    refine ⟨n + 1, Nat.le_succ n, ?_⟩
    have ht : p.cursor.turn bufSize = p.cursor := Cursor.turn_of_lt hl
    have he : (updateBCmp (α := α) (.update i) (.updateNew i)).exec bufSize p = (.update i, p) := by
      simp [updateBCmp, Block.exec, Instr.exec, hl]
    rw [he, run_succ h.update nofun]
    rw [Producer.put, ht]
    simp [updateB, Block.exec, Instr.exec, Producer.cursor, hp.curIndex]
  case neg =>
    refine ⟨n, Nat.le_refl n, ?_⟩
    have ht : p.cursor.turn bufSize = ⟨p.held + 1, 0⟩ := if_neg hl
    have he : (updateBCmp (α := α) (.update i) (.updateNew i)).exec bufSize p =
        (.updateNew i, p) := by
      simp [updateBCmp, Block.exec, Instr.exec, hl]
    rw [he, run_succ h.updateNew nofun]
    simp only [Buffers.updateNew, Block.exec, Instr.exec, List.foldl_cons, List.foldl_nil]
    rw [run_succ h.update nofun]
    simp [updateB, Block.exec, Instr.exec, Producer.put, ht]

-- The slice flag is set, so that the blocks of the first value are entered.
theorem run_uCmp (h : code .uCmp = some (uCmp (.updateCmp 1) .cont)) (hp : p.Filling) :
    run bufSize code (n + 1) .uCmp p = run bufSize code n (.updateCmp 1) p := by
  rw [run_succ h nofun]
  simp [uCmp, Block.exec, hp.sliceF]

namespace Group

variable (g : Group α)

-- However the blocks are wired, the values are pushed one after the other.
theorem push_eq (hp : p.Filling) :
    g.push bufSize p = some (g.values.foldl (Producer.put bufSize) p) := by
  cases g with
  | one v =>
    have h₁ : Pushes (createUpdateBlock v) 1 v .cont := ⟨rfl, rfl, rfl⟩
    obtain ⟨m₁, _, he₁⟩ := h₁.run bufSize hp 0
    rw [push, code, run_uCmp rfl hp]
    exact he₁.trans run_cont
  | two u v =>
    have h₁ : Pushes (createUpdateBlock2 u v) 1 u (.updateCmp 2) := ⟨rfl, rfl, rfl⟩
    have h₂ : Pushes (createUpdateBlock2 u v) 2 v .cont := ⟨rfl, rfl, rfl⟩
    obtain ⟨m₁, hm₁, he₁⟩ := h₁.run bufSize hp 3
    obtain ⟨n₁, rfl⟩ := Nat.exists_eq_add_of_le' hm₁
    obtain ⟨m₂, _, he₂⟩ := h₂.run bufSize (hp.put u) n₁
    rw [push, code, run_uCmp rfl hp]
    exact he₁.trans (he₂.trans run_cont)
  | three t u v =>
    have h₁ : Pushes (createUpdateBlock3 t u v) 1 t (.updateCmp 2) := ⟨rfl, rfl, rfl⟩
    have h₂ : Pushes (createUpdateBlock3 t u v) 2 u (.updateCmp 3) := ⟨rfl, rfl, rfl⟩
    have h₃ : Pushes (createUpdateBlock3 t u v) 3 v .cont := ⟨rfl, rfl, rfl⟩
    obtain ⟨m₁, hm₁, he₁⟩ := h₁.run bufSize hp 6
    obtain ⟨n₁, rfl⟩ := Nat.exists_eq_add_of_le' hm₁
    obtain ⟨m₂, hm₂, he₂⟩ := h₂.run bufSize (hp.put t) (n₁ + 3)
    obtain ⟨n₂, rfl⟩ := Nat.exists_eq_add_of_le' (Nat.le_trans (Nat.le_add_left 3 n₁) hm₂)
    obtain ⟨m₃, _, he₃⟩ := h₃.run bufSize ((hp.put t).put u) n₂
    rw [push, code, run_uCmp rfl hp]
    exact he₁.trans (he₂.trans (he₃.trans run_cont))

end Group

end Run

end Producer

-- The thread-local globals of a task, with the number of the buffer that it holds, what the
-- entries of its shadow functions got from `fpsanx_get_buf_addr_c` (innermost first) and a log of
-- its reads: buffer and index.
structure Consumer where
  cQIdx     : Nat
  cCurIndex : Nat
  held      : Nat
  bufAddrs  : List Nat
  reads     : List (Nat × Nat)

namespace Consumer

-- The registers of a shadow function around a read: `counter` is named `my_load_idx_c`,
-- `newCounter` `my_new_load_idx_c` and `newAddr` `my_load_idx`.
inductive Reg
  | bufAddr
  | counter
  | newAddr
  | newCounter
  | incr
  | newIncr
deriving DecidableEq

-- `gep` and `newGep` are named `my_gep_buf_c`.
inductive Gep
  | gep
  | newGep
deriving DecidableEq

inductive Instr
  | loadCQIdx (r : Reg)
  | loadCCurIndex (r : Reg)
  | gep (g : Gep) (addr idx : Reg)
  | loadVal (g : Gep)
  | incr (r idx : Reg)
  | storeCQIdx (r : Reg)
deriving DecidableEq

def readFromBuf : List Instr :=
  [.loadCQIdx .counter, .gep .gep .bufAddr .counter, .loadVal .gep, .incr .incr .counter,
    .storeCQIdx .incr]

-- The block that is cut behind the load of the index, where the comparison goes, and the block
-- `split`.
def splitReadFromBuf : List Instr → List Instr × List Instr
  | []                     => ([], [])
  | .loadCQIdx .counter :: l => ([.loadCQIdx .counter], l)
  | i :: l                 => let (l₁, l₂) := splitReadFromBuf l; (i :: l₁, l₂)

-- The block `split` uses the index and the buffer that it finds.
def loadIdx (l : List Instr) : List Instr :=
  [.loadCCurIndex .newAddr, .loadCQIdx .newCounter, .gep .newGep .newAddr .newCounter] ++ l.map fun
    | .loadVal .gep      => .loadVal .newGep
    | .incr .incr _      => .incr .newIncr .newCounter
    | .storeCQIdx .incr  => .storeCQIdx .newIncr
    | i                  => i

structure Regs where
  reg : Reg → Nat
  gep : Gep → Nat × Nat

def Instr.exec : Instr → Regs × Consumer → Regs × Consumer
  | loadCQIdx r, (e, c)     => ({ e with reg := Function.update e.reg r c.cQIdx }, c)
  | loadCCurIndex r, (e, c) => ({ e with reg := Function.update e.reg r c.cCurIndex }, c)
  | gep g a i, (e, c)       => ({ e with gep := Function.update e.gep g (e.reg a, e.reg i) }, c)
  | loadVal g, (e, c)       => (e, { c with reads := c.reads ++ [e.gep g] })
  | incr r i, (e, c)        => ({ e with reg := Function.update e.reg r (e.reg i + 1) }, c)
  | storeCQIdx r, (e, c)    => (e, { c with cQIdx := e.reg r })

def exec (l : List Instr) (e : Regs) (c : Consumer) : Regs × Consumer :=
  l.foldl (fun s i => i.exec s) (e, c)

-- The block `update`: `fpsanx_shadow_task_interim` and the store of its result.
def interim (c : Consumer) : Consumer :=
  { c with cQIdx := 0, held := c.held + 1, cCurIndex := c.held + 1 }

variable (bufSize : Nat)

-- The comparison of the index that has been loaded with the size of a buffer.
def compare (e : Regs) (c : Consumer) : Consumer :=
  if e.reg .counter < bufSize then c else c.interim

-- Of its registers only that of the entry of the function is set before a read.
def regs (c : Consumer) : Regs where
  reg := fun
    | .bufAddr => c.bufAddrs.headD 0
    | _        => 0
  gep _ := (0, 0)

def read (c : Consumer) : Consumer :=
  let (l₁, l₂) := splitReadFromBuf readFromBuf
  let (e, c)   := exec l₁ c.regs c
  (exec (loadIdx l₂) e (compare bufSize e c)).snd

-- The entry of a shadow function, with its load of the index.
def enter (c : Consumer) : Consumer :=
  let c      := { c with bufAddrs := c.held :: c.bufAddrs, cCurIndex := c.held }
  let (e, c) := exec [.loadCQIdx .counter] c.regs c
  compare bufSize e c

def leave (c : Consumer) : Consumer :=
  { c with bufAddrs := c.bufAddrs.tail }

variable {bufSize} {c : Consumer}

def cursor (c : Consumer) : Cursor where
  chunk := c.held
  idx   := c.cQIdx

-- The comparison leaves the task with a buffer that is not used up.
theorem compare_eq {e : Regs} (he : e.reg .counter = c.cQIdx) (h : c.cCurIndex = c.held) :
    let k := c.cursor.turn bufSize
    compare bufSize e c = { c with cQIdx := k.idx, cCurIndex := k.chunk, held := k.chunk } := by
  intro k
  rw [compare, he]
  by_cases hl : c.cQIdx < bufSize
  case pos =>
    have hk : k = c.cursor := Cursor.turn_of_lt hl
    rw [if_pos hl, hk]
    obtain ⟨i, a, b, f, l⟩ := c
    cases h
    rfl
  case neg =>
    have hk : k = ⟨c.held + 1, 0⟩ := if_neg hl
    rw [if_neg hl, hk]
    rfl

-- A read is one from the buffer that the task holds, whichever its function has started with.
theorem read_eq (h : c.cCurIndex = c.held) :
    let k := c.cursor.turn bufSize
    c.read bufSize =
      { c with cQIdx := k.idx + 1, cCurIndex := k.chunk, held := k.chunk,
               reads := c.reads ++ [(k.chunk, k.idx)] } := by
  intro k
  have hs : splitReadFromBuf readFromBuf =
      ([.loadCQIdx .counter],
        [.gep .gep .bufAddr .counter, .loadVal .gep, .incr .incr .counter, .storeCQIdx .incr]) :=
        rfl
  simp only [read, hs, exec, List.foldl_cons, List.foldl_nil, Instr.exec]
  rw [compare_eq (by simp) h]
  simp [loadIdx, k]

theorem enter_eq :
    let k := c.cursor.turn bufSize
    c.enter bufSize =
      { c with cQIdx := k.idx, cCurIndex := k.chunk, held := k.chunk,
               bufAddrs := c.held :: c.bufAddrs } := by
  intro k
  simp only [enter, exec, List.foldl_cons, List.foldl_nil, Instr.exec]
  rw [compare_eq (by simp) rfl]
  rfl

end Consumer

-- What happens in a slice, on both sides: a handler pushes values that the shadow function reads,
-- and functions are entered and left.
inductive Event (α : Type)
  | push (g : Group α)
  | enter
  | leave

namespace Event

variable {α : Type}

def values : Event α → List α
  | push g => g.values
  | _      => []

end Event

section Slice

variable {α : Type} (bufSize : Nat)

namespace Producer

def start : Producer α where
  sliceF   := true
  qIdx     := 0
  curIndex := 0
  held     := 0
  stores   := []

-- The entry of a function loads the address of the buffer that the producer holds.
def enter (p : Producer α) : Producer α :=
  { p with curIndex := p.held }

def exec (p : Producer α) : Event α → Option (Producer α)
  | .push g => g.push bufSize p
  | .enter  => some p.enter
  | .leave  => some p

end Producer

namespace Consumer

def start : Consumer where
  cQIdx     := 0
  cCurIndex := 0
  held      := 0
  bufAddrs  := []
  reads     := []

def step (c : Consumer) : Event α → Consumer
  | .push g => g.values.foldl (fun c _ => c.read bufSize) c
  | .enter  => c.enter bufSize
  | .leave  => c.leave

end Consumer

def produce (l : List (Event α)) (p : Producer α) : Option (Producer α) :=
  l.foldlM (Producer.exec bufSize) p

def consume (l : List (Event α)) (c : Consumer) : Consumer :=
  l.foldl (Consumer.step bufSize) c

-- The `k`-th element of the chunks of one size.
def place (k : Nat) : Nat × Nat :=
  (k / bufSize, k % bufSize)

variable {bufSize}

namespace Producer

-- The producer has stored some values and goes on behind them.
structure Placed (bufSize : Nat) (p : Producer α) (vs : List α) : Prop extends p.Filling where
  qIdx_le : p.qIdx ≤ bufSize
  total   : p.cursor.total bufSize = vs.length
  stores  : p.stores = vs.mapIdx fun k v => (k / bufSize, k % bufSize, v)

namespace Placed

variable {p : Producer α} {vs : List α}

theorem start : Placed bufSize (Producer.start : Producer α) [] where
  sliceF   := rfl
  curIndex := rfl
  qIdx_le  := Nat.zero_le _
  total    := Nat.zero_mul _
  stores   := rfl

theorem put (h₀ : 0 < bufSize) (h : p.Placed bufSize vs) (v : α) :
    (p.put bufSize v).Placed bufSize (vs ++ [v]) where
  sliceF   := h.sliceF
  curIndex := rfl
  qIdx_le  := Cursor.idx_turn h₀
  total    := by
    rw [cursor_put, Cursor.total_advance, Cursor.total_turn h.qIdx_le, h.total, List.length_append]
    rfl
  stores   := by
    have ht := Cursor.turn_eq (c := p.cursor) h₀ h.qIdx_le
    rw [h.total] at ht
    simp [Producer.put, ht, h.stores]

theorem foldl_put (h₀ : 0 < bufSize) (h : p.Placed bufSize vs) (ws : List α) :
    (ws.foldl (Producer.put bufSize) p).Placed bufSize (vs ++ ws) := by
  induction ws generalizing p vs with
  | nil => simpa using h
  | cons w ws ih => simpa using ih (h.put h₀ w)

theorem exec (h₀ : 0 < bufSize) (h : p.Placed bufSize vs) (e : Event α) :
    ∃ p', p.exec bufSize e = some p' ∧ p'.Placed bufSize (vs ++ e.values) := by
  cases e with
  | push g => exact ⟨_, g.push_eq h.toFilling, h.foldl_put h₀ g.values⟩
  | enter  => exact ⟨_, rfl, by simpa [Event.values] using { h with curIndex := rfl }⟩
  | leave  => exact ⟨_, rfl, by simpa [Event.values] using h⟩

theorem produce (h₀ : 0 < bufSize) (h : p.Placed bufSize vs) (l : List (Event α)) :
    ∃ p', Buffers.produce bufSize l p = some p' ∧
    p'.Placed bufSize (vs ++ l.flatMap Event.values) := by
  induction l generalizing p vs with
  | nil => exact ⟨p, rfl, by simpa using h⟩
  | cons e l ih =>
    obtain ⟨p₁, he, h₁⟩ := h.exec h₀ e
    obtain ⟨p₂, hl, h₂⟩ := ih h₁
    refine ⟨p₂, ?_, by simpa using h₂⟩
    rw [Buffers.produce, List.foldlM_cons, he]
    exact hl

end Placed

end Producer

namespace Consumer

-- The task has read some values and goes on behind them.
structure Placed (bufSize : Nat) (c : Consumer) (n : Nat) : Prop where
  cCurIndex : c.cCurIndex = c.held
  cQIdx_le  : c.cQIdx ≤ bufSize
  total     : c.cursor.total bufSize = n
  reads     : c.reads = (List.range n).map (place bufSize)

namespace Placed

variable {c : Consumer} {n : Nat}

theorem start : Placed bufSize Consumer.start 0 where
  cCurIndex := rfl
  cQIdx_le  := Nat.zero_le _
  total     := Nat.zero_mul _
  reads     := rfl

theorem read (h₀ : 0 < bufSize) (h : c.Placed bufSize n) :
    (c.read bufSize).Placed bufSize (n + 1) := by
  have ht := Cursor.turn_eq (c := c.cursor) h₀ h.cQIdx_le
  rw [h.total] at ht
  rw [read_eq h.cCurIndex]
  refine ⟨rfl, Cursor.idx_turn h₀, ?_, ?_⟩
  · have := Cursor.total_turn (c := c.cursor) h.cQIdx_le
    rw [h.total] at this
    exact congrArg (· + 1) this
  · rw [List.range_succ, List.map_append, ← h.reads, ht]
    rfl

theorem enter (h₀ : 0 < bufSize) (h : c.Placed bufSize n) : (c.enter bufSize).Placed bufSize n := by
  rw [enter_eq]
  exact ⟨rfl, Nat.le_of_lt (Cursor.idx_turn h₀), (Cursor.total_turn h.cQIdx_le).trans h.total,
    h.reads⟩

theorem foldl_read (h₀ : 0 < bufSize) (h : c.Placed bufSize n) (vs : List α) :
    (vs.foldl (fun c _ => c.read bufSize) c).Placed bufSize (n + vs.length) := by
  induction vs generalizing c n with
  | nil => exact h
  | cons v vs ih =>
    rw [List.length_cons, Nat.add_comm vs.length, ← Nat.add_assoc]
    exact ih (h.read h₀)

theorem step (h₀ : 0 < bufSize) (h : c.Placed bufSize n) (e : Event α) :
    (c.step bufSize e).Placed bufSize (n + e.values.length) := by
  cases e with
  | push g => exact h.foldl_read h₀ g.values
  | enter  => exact h.enter h₀
  | leave  => exact ⟨h.cCurIndex, h.cQIdx_le, h.total, h.reads⟩

theorem consume (h₀ : 0 < bufSize) (h : c.Placed bufSize n) (l : List (Event α)) :
    (Buffers.consume bufSize l c).Placed bufSize (n + (l.flatMap Event.values).length) := by
  induction l generalizing c n with
  | nil => exact h
  | cons e l ih =>
    rw [List.flatMap_cons, List.length_append, ← Nat.add_assoc]
    exact ih (h.step h₀ e)

end Placed

end Consumer

-- Both sides put and find the `k`-th value of a slice at the same place.
theorem stores_eq_and_reads_eq (h : 0 < bufSize) (l : List (Event α)) :
    let vs := l.flatMap Event.values
    (∃ p, produce bufSize l .start = some p ∧
      p.stores = (vs.mapIdx fun k v => (k / bufSize, k % bufSize, v)) ∧
      ∀ x ∈ p.stores, x.snd.fst < bufSize) ∧
    (consume bufSize l .start).reads = (List.range vs.length).map fun k =>
      (k / bufSize, k % bufSize) := by
  intro vs
  obtain ⟨p, hp, hs⟩ := Producer.Placed.start.produce h l
  refine ⟨⟨p, hp, hs.stores, fun x hx => ?_⟩, ?_⟩
  · rw [hs.stores] at hx
    obtain ⟨k, hk, rfl⟩ := List.mem_mapIdx.mp hx
    exact Nat.mod_lt _ h
  · have hc := (Consumer.Placed.start.consume h l).reads
    rwa [Nat.zero_add] at hc

theorem stores_eq_and_reads_eq_three :
    let l : List (Event Nat) := [.enter, .push (.two 10 11), .push (.three 12 13 14)]
    (∃ p, produce 2 l .start = some p ∧
      p.stores = [(0, 0, 10), (0, 1, 11), (1, 0, 12), (1, 1, 13), (2, 0, 14)] ∧
      ∀ x ∈ p.stores, x.snd.fst < 2) ∧
    (consume 2 l .start).reads = [(0, 0), (0, 1), (1, 0), (1, 1), (2, 0)] :=
  stores_eq_and_reads_eq (by decide) _

end Slice

end Buffers
