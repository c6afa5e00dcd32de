import PFPSanitizer.Pass.Calls
import PFPSanitizer.Pass.Removal

-- The blocks of a clone in the last loops over them, which find the code of the pass by its names.
namespace Pass

-- An instruction of a clone, with its place if it is one of the program.
structure Line where
  site? : Option Site
  name  : String

namespace Line

def isLoad (l : Line) : Bool :=
  startswith l.name "my_load_idx_c"

def isAddress (l : Line) : Bool :=
  startswith l.name "my_gep_buf_c"

def isIncr (l : Line) : Bool :=
  startswith l.name "my_incr_idx_c"

end Line

def loadLine : Line :=
  ⟨none, "my_load_idx_c"⟩

-- The value of a read and the new index, which is stored under no name.
def valueLines : List Line :=
  [⟨none, "my_gep_buf_c"⟩, ⟨none, "my_load_val_c"⟩, ⟨none, "my_incr_idx_c"⟩]

def readLines : Nat → List Line
  | 0     => []
  | n + 1 => loadLine :: (valueLines ++ readLines n)

-- A block is split behind each load of the index. The first part keeps its name, the
-- others are named `split`.
def splitBlock (splits : Bool) : List Line → List Line × List (List Line)
  | []      => ([], [])
  | l :: ls =>
    let p := splitBlock splits ls
    if splits && l.isLoad then ([l], p.fst :: p.snd) else (l :: p.fst, p.snd)

-- The instructions of the program in a part for which `loadIdx` is called, as for those that
-- compute the address of a value in the buffer.
def reloaded (part : List Line) : List Site :=
  part.filterMap fun l => if l.isAddress then l.site? else none

-- The instruction of the program that `loadIdx` takes for the one that advances the index. It
-- erases the first one, and at a further call the one that it has put there.
def erased (part : List Line) : Option Site :=
  if part.any Line.isAddress then part.find? Line.isIncr |>.bind Line.site? else none

section Clone

variable (M : Module) (F : Function)

-- Whether `loadIdx` is called in the clone.
def loadsIdx (C : Body) : Bool :=
  !(startswith C.name "start_slice_shadow" || startswith C.name "end_slice_shadow")

-- Whether it is called for the reads of a block. If the block is split they are in its later parts.
def reloads (C : Body) (b : Nat) : Bool :=
  loadsIdx C && (Emit.splits C b || startswith (C.blockName b) "split")

-- The entry loads the index, and the clone of a slice reads the parameters behind `start_slice`.
def entryLines : List Line :=
  let args := readLines (removeArgs F).length
  let slice := (F.block 0).any fun (_, I) =>
    match I.op with
    | .call g _ => startswith g "start_slice"
    | _         => false
  if slice then loadLine :: args else args ++ [loadLine]

-- A block of a clone with the given numbers of reads in front of an instruction and behind it, when
-- `left` tells which instructions are left.
def lines (before after : Site × Inst → Nat) (left : Site × Inst → Bool) (b : Nat) : List Line :=
  (if b = 0 then entryLines F else []) ++
  (F.block b).flatMap fun x =>
    readLines (before x) ++ (if left x then [⟨some x.fst, x.snd.name⟩] else []) ++
      readLines (after x)

-- The instructions of the program that are reloaded and erased in a block.
def sweep (b : Nat) (ls : List Line) : List Site × List Site :=
  let C := cloneFunction F.toBody
  let p := splitBlock (Emit.splits C b) ls
  let parts := if startswith (C.blockName b) "split" then p.fst :: p.snd else p.snd
  if loadsIdx C then (parts.flatMap reloaded, parts.filterMap erased) else ([], [])

def readsBefore (C : Body) (x : Site × Inst) : Nat :=
  (handleBranch C x ++ createGEP x ++ handleIns M C x).length

def readsAfter (C : Body) (x : Site × Inst) : Nat :=
  (handleFcmp C x).length

def loadIdx (b : Nat) : List Site × List Site :=
  let C := cloneFunction F.toBody
  sweep F b <| lines F (readsBefore M C) (readsAfter C) (survives M C) b

end Clone

section

variable {splits : Bool} {ls : List Line}

theorem splitBlock_loadLine :
    splitBlock splits (loadLine :: ls) =
    let p := splitBlock splits ls
    if splits then ([loadLine], p.fst :: p.snd) else (loadLine :: p.fst, p.snd) := by
  have h : loadLine.isLoad := by decide
  simp [splitBlock, h]

theorem splitBlock_append {as : List Line} (h : as.all fun l => !l.isLoad) :
    splitBlock splits (as ++ ls) =
    (as ++ (splitBlock splits ls).fst, (splitBlock splits ls).snd) := by
  induction as with
  | nil          => rfl
  | cons a as hi =>
    rw [List.all_cons, Bool.and_eq_true, Bool.not_eq_true'] at h
    simp [splitBlock, h.left, hi h.right]

end

-- Two splits of a block that differ in the number of reads in a row.
structure Agree (p q : List Line × List (List Line)) : Prop where
  address  : p.fst.any Line.isAddress = q.fst.any Line.isAddress
  incr     : (p.fst.find? Line.isIncr).bind Line.site? = (q.fst.find? Line.isIncr).bind Line.site?
  reloaded : reloaded p.fst = reloaded q.fst
  reloads  : p.snd.flatMap Pass.reloaded = q.snd.flatMap Pass.reloaded
  erases   : p.snd.filterMap erased = q.snd.filterMap erased

namespace Agree

variable {p q r : List Line × List (List Line)} {splits : Bool} {ls ks : List Line}

theorem refl : Agree p p where
  address  := rfl
  incr     := rfl
  reloaded := rfl
  reloads  := rfl
  erases   := rfl

theorem trans (h : Agree p q) (h' : Agree q r) : Agree p r where
  address  := h.address.trans h'.address
  incr     := h.incr.trans h'.incr
  reloaded := h.reloaded.trans h'.reloaded
  reloads  := h.reloads.trans h'.reloads
  erases   := h.erases.trans h'.erases

theorem erased (h : Agree p q) : erased p.fst = Pass.erased q.fst := by
  rw [Pass.erased, Pass.erased, h.address, h.incr]

theorem cons (l : Line) (h : Agree (splitBlock splits ls) (splitBlock splits ks)) :
    Agree (splitBlock splits (l :: ls)) (splitBlock splits (l :: ks)) := by
  simp only [splitBlock]
  cases splits && l.isLoad
  case true =>
    exact {
      address  := rfl
      incr     := rfl
      reloaded := rfl
      reloads  := by simp [h.reloaded, h.reloads]
      erases   := by simp [List.filterMap_cons, h.erased, h.erases]
    }
  case false =>
    have hi := h.incr
    have hr := h.reloaded
    simp only [Pass.reloaded] at hr
    refine { h with address := ?_, incr := ?_, reloaded := ?_ }
    · simp [h.address]
    · cases hl : l.isIncr <;> simp [hl, hi]
    · simp [Pass.reloaded, List.filterMap_cons, hr]

theorem append (as : List Line) (h : Agree (splitBlock splits ls) (splitBlock splits ks)) :
    Agree (splitBlock splits (as ++ ls)) (splitBlock splits (as ++ ks)) := by
  induction as with
  | nil          => exact h
  | cons a as hi => exact hi.cons a

theorem symm (h : Agree p q) : Agree q p where
  address  := h.address.symm
  incr     := h.incr.symm
  reloaded := h.reloaded.symm
  reloads  := h.reloads.symm
  erases   := h.erases.symm

-- A second read adds nothing: the part between the two has no instruction of the program, and in a
-- block that is not split the names are there already.
theorem read_read (n : Nat) :
    Agree (splitBlock splits (readLines (n + 2) ++ ls))
      (splitBlock splits (readLines (n + 1) ++ ls)) := by
  have hv : valueLines.all fun l => !l.isLoad := by decide
  have ha : valueLines.any Line.isAddress := by decide
  have hi : valueLines.find? Line.isIncr = some ⟨none, "my_incr_idx_c"⟩ := by rfl
  have hl : loadLine.isIncr = false := by decide
  have hs : loadLine.isAddress = false := by decide
  have hr : Pass.reloaded valueLines = [] := by decide
  simp only [readLines, List.cons_append, List.append_assoc, splitBlock_loadLine,
    splitBlock_append hv]
  generalize splitBlock splits (readLines n ++ ls) = p
  simp only [Pass.reloaded] at hr
  cases splits
  case true =>
    exact {
      address  := rfl
      incr     := rfl
      reloaded := rfl
      reloads  := by simp [Pass.reloaded, hr, hs]
      erases   := by simp [Pass.erased, hi]
    }
  case false =>
    exact {
      address  := by simp [ha]
      incr     := by simp [hi, hl]
      reloaded := by simp [Pass.reloaded, hr, hs]
      reloads  := rfl
      erases   := rfl
    }

theorem reads_one (n : Nat) :
    Agree (splitBlock splits (readLines (n + 1) ++ ls))
      (splitBlock splits (readLines 1 ++ ls)) := by
  induction n with
  | zero      => exact refl
  | succ n hi => exact (read_read n).trans hi

theorem reads {n m : Nat} (hn : n = 0 ↔ m = 0)
    (h : Agree (splitBlock splits ls) (splitBlock splits ks)) :
    Agree (splitBlock splits (readLines n ++ ls)) (splitBlock splits (readLines m ++ ks)) := by
  cases n with
  | zero =>
    obtain rfl := hn.mp rfl
    exact h
  | succ n =>
    cases m with
    | zero   => exact absurd (hn.mpr rfl) (Nat.succ_ne_zero n)
    | succ m => exact (reads_one n).trans ((reads_one m).trans (h.symm.append (readLines 1))).symm

theorem flatMap {α : Type} {f g : α → List Line} {xs : List α}
    (h : ∀ x ∈ xs, ∀ ls ks, Agree (splitBlock splits ls) (splitBlock splits ks) →
      Agree (splitBlock splits (f x ++ ls)) (splitBlock splits (g x ++ ks))) :
    Agree (splitBlock splits (xs.flatMap f)) (splitBlock splits (xs.flatMap g)) := by
  induction xs with
  | nil          => exact refl
  | cons x xs hi =>
    rw [List.flatMap_cons, List.flatMap_cons]
    exact h x (List.mem_cons_self ..) _ _ (hi fun y hy => h y (List.mem_cons_of_mem _ hy))

end Agree

-- How many values are read in a row makes no difference to the instructions of the program.
theorem sweep_congr {F : Function} {before after before' after' : Site × Inst → Nat}
    {left left' : Site × Inst → Bool} {b : Nat} (hb : ∀ x ∈ F.block b, before x = 0 ↔ before' x = 0)
    (ha : ∀ x ∈ F.block b, after x = 0 ↔ after' x = 0) (hl : ∀ x ∈ F.block b, left x = left' x) :
    sweep F b (lines F before after left b) = sweep F b (lines F before' after' left' b) := by
  have h : Agree (splitBlock (Emit.splits (cloneFunction F.toBody) b) (lines F before after left b))
      (splitBlock (Emit.splits (cloneFunction F.toBody) b) (lines F before' after' left' b)) := by
    refine Agree.append _ <| Agree.flatMap fun x hx ls ks h => ?_
    simp only [List.append_assoc, hl x hx]
    exact ((h.reads (ha x hx)).append _).reads (hb x hx)
  simp only [sweep]
  split
  case isFalse => rfl
  case isTrue  =>
    split
    case isTrue  => simp [List.filterMap_cons, h.reloaded, h.reloads, h.erased, h.erases]
    case isFalse => rw [h.reloads, h.erases]

end Pass
