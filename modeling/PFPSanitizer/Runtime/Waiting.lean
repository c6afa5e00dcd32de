import PFPSanitizer.Runtime.Transport

-- When the parties wait for each other.
namespace Cursors

open Queues (Chunk turn Party)

variable {numQueues bufSize : Nat} {slices : List Slice}

-- The producer joins the worker after the last slice, and the worker exits after that.
structure Ending (slices : List Slice) (s : State 1) : Prop where
  inside : s.producer.point?.isSome → s.cur < slices.length
  cur_le : s.cur ≤ slices.length
  fini   : s.fini ↔ s.producer = .join
  size   : (s.workers 0).pc = .size → s.fini
  exited : (s.workers 0).pc = .exited → s.fini ∧ s.taskQueue = []

section Ending

variable {s s' : State 1} {p : Point}

-- The producer makes its steps before any worker exits.
theorem Ending.go (h : Ending slices s) (hp : s.producer ≠ .join) (hw : s'.workers = s.workers)
    (hf : s'.fini ↔ s'.producer = .join) (hc : s'.cur ≤ slices.length)
    (hi : s'.producer.point?.isSome → s'.cur < slices.length) : Ending slices s' where
  inside   := hi
  cur_le   := hc
  fini     := hf
  size h'  := absurd (h.fini.mp (h.size (hw ▸ h'))) hp
  exited h' := absurd (h.fini.mp (h.exited (hw ▸ h')).left) hp

theorem Ending.updateCmp (h : Ending slices s) (hp : s.producer = .exec p)
    (hu : updateCmp numQueues bufSize p s = some s') :
    Ending slices s' := by
  have hl := h.inside (by rw [hp]; rfl)
  have hn : s.fini = false := by
    have hf := h.fini
    rw [hp] at hf
    simpa using hf
  rw [Cursors.updateCmp] at hu
  split at hu
  case isTrue =>
    cases hu
    exact h.go (by simp [hp]) rfl (by simp [hn]) h.cur_le fun _ => hl
  case isFalse =>
    obtain ⟨r, hr, rfl⟩ := Option.map_eq_some_iff.mp hu
    obtain ⟨-, -, -, -, hf⟩ := handsOff_of_sliceEndInterimPush hr
    exact h.go (by simp [hp]) rfl (by simp [hf, hn]) h.cur_le fun _ => hl

theorem Ending.produce (h : Ending slices s) (hu : produce numQueues bufSize slices s = some s') :
    Ending slices s' := by
  rw [Cursors.produce] at hu
  have hf := h.fini
  split at hu
  case h_1 hp =>
    rw [hp] at hf
    split at hu
    case h_1 sl hsl =>
      obtain ⟨s₁, he, rfl⟩ := Option.map_eq_some_iff.mp hu
      obtain ⟨r, hr, rfl⟩ := Option.map_eq_some_iff.mp he
      obtain ⟨-, -, -, -, hr⟩ := getBufAddr_same hr
      have hr : r.fini = s.fini := hr
      refine h.go (by simp [hp]) rfl ?_ h.cur_le fun _ => (List.getElem?_eq_some_iff.mp hsl).fst
      simpa [hr] using hf
    case h_2 =>
      cases hu
      exact h.go (by simp [hp]) rfl (by simp) h.cur_le (by simp [ProducerPc.point?])
  case h_2 p hp =>
    have hl := h.inside (by rw [hp]; rfl)
    have hn : s.fini = false := by simpa [hp] using hf
    rw [Cursors.exec] at hu
    split at hu
    case h_1 => exact h.updateCmp hp hu
    case h_2 =>
      split at hu
      case isTrue  => exact h.updateCmp hp hu
      case isFalse =>
        cases hu
        exact h.go (by simp [hp]) rfl (by simp [hn]) h.cur_le fun _ => hl
    case h_3 =>
      obtain ⟨s₁, he, rfl⟩ := Option.map_eq_some_iff.mp hu
      obtain ⟨r, hr, rfl⟩ := Option.map_eq_some_iff.mp he
      obtain ⟨-, -, -, -, hr⟩ := getBufAddr_same hr
      exact h.go (by simp [hp]) rfl (by simp [hr, hn]) h.cur_le fun _ => hl
    case h_4 =>
      obtain ⟨r, hr, rfl⟩ := Option.map_eq_some_iff.mp hu
      obtain ⟨-, -, -, -, hr⟩ := handsOff_of_sliceEnd hr
      exact h.go (by simp [hp]) rfl (by simp [hr, hn]) h.cur_le fun _ => hl
    case h_5 =>
      cases hu
      exact h.go (by simp [hp]) rfl (by simp [hn]) hl (by simp [ProducerPc.point?])
  case h_3 p hp =>
    cases hu
    have hn : s.fini = false := by simpa [hp] using hf
    exact h.go (by simp [hp]) rfl (by simp [update, hn]) h.cur_le fun _ =>
      h.inside (by rw [hp]; rfl)
  case h_4 p hp =>
    obtain ⟨r, hr, rfl⟩ := Option.map_eq_some_iff.mp hu
    have hn : s.fini = false := by simpa [hp] using hf
    rw [Queues.Runtime.sliceEndInterimPop] at hr
    split at hr <;> cases hr
    exact h.go (by simp [hp]) rfl (by simp [hn]) h.cur_le fun _ => h.inside (by rw [hp]; rfl)
  case h_5 => cases hu

theorem Ending.setWorker {r : Queues.Runtime} {w : Worker} (h : Ending slices s)
    (hf : r.fini = s.fini) (hs : w.pc = .size → s.fini)
    (hx : w.pc = .exited → s.fini ∧ r.taskQueue = []) :
    Ending slices (setWorker 0 w { s with toRuntime := r }) where
  inside   := h.inside
  cur_le   := h.cur_le
  fini     := by simpa [hf] using h.fini
  size h'  := hf.trans (hs (by simpa using h'))
  exited h' := (hx (by simpa using h')).imp_left hf.trans

theorem Ending.work (h : Ending slices s) (hu : work numQueues bufSize slices 0 s = some s') :
    Ending slices s' := by
  simp only [Cursors.work] at hu
  split at hu
  case h_1 =>
    cases hu
    refine h.setWorker rfl ?_ ?_
    · split <;> simp_all
    · split <;> simp
  case h_2 hp =>
    cases hu
    have hf := h.size hp
    refine h.setWorker rfl ?_ ?_
    · split <;> simp
    · split
      case isTrue hl  => exact fun _ => ⟨hf, List.length_eq_zero_iff.mp hl⟩
      case isFalse    => simp
  case h_3 => split at hu <;> cases hu <;> exact h.setWorker rfl (by simp) (by simp)
  case h_4 =>
    obtain ⟨sl, -, rfl⟩ := Option.map_eq_some_iff.mp hu
    exact h.setWorker rfl (by simp) (by simp)
  case h_5 f p _ =>
    rw [shadowExec] at hu
    split at hu
    case h_1 =>
      have hr : (resume f p).slice?.isSome := by
        rw [resume]
        split <;> rfl
      rw [splitReadFromBuf] at hu
      split at hu
      case isTrue  =>
        cases hu
        exact h.setWorker rfl (fun hs => by simp_all [WorkerPc.slice?])
          (fun hs => by simp_all [WorkerPc.slice?])
      case isFalse =>
        obtain ⟨r, hr, rfl⟩ := Option.map_eq_some_iff.mp hu
        obtain ⟨_, _, rfl⟩ := Option.map_eq_some_iff.mp hr
        exact h.setWorker rfl (by simp) (by simp)
    case h_2 | h_3 => cases hu; exact h.setWorker rfl (by simp) (by simp)
  case h_6 => cases hu; exact h.setWorker rfl (by simp) (by simp)
  case h_7 f p _ =>
    have hr : (resume f p).slice?.isSome := by
      rw [resume]
      split <;> rfl
    obtain ⟨⟨i, r⟩, hr', rfl⟩ := Option.map_eq_some_iff.mp hu
    rw [Queues.Runtime.shadowTaskInterimPop] at hr'
    split at hr' <;> cases hr'
    exact h.setWorker rfl (fun hs => by simp_all [WorkerPc.slice?])
      (fun hs => by simp_all [WorkerPc.slice?])
  case h_8 =>
    obtain ⟨r, hr, rfl⟩ := Option.map_eq_some_iff.mp hu
    obtain ⟨_, _, rfl⟩ := Option.map_eq_some_iff.mp hr
    exact h.setWorker rfl (by simp) (by simp)
  case h_9 => cases hu

end Ending

section Stuck

variable {s : State 1} {c e : Chunk} {p : Point} {f : Nat}

-- A buffer that is given back finds its place in the empty list.
theorem Transported.length_lt (h : Transported numQueues bufSize slices c e s)
    (hh : (s.workers 0).pc.holds) (hc : 0 < number bufSize slices c) :
    s.emptyList.length < numQueues := by
  have hr := h.ring.total
  have hn := h.transit.number_le h.wanted fun _ => exists_next
  rw [released, hh, Bool.toNat_true] at hr
  omega

end Stuck

end Cursors
