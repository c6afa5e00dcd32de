import Mathlib.Data.List.Basic

-- Code, into which the passes of an instrumentation weave operations.
namespace Weave

inductive Item (ι ε : Type*)
  | inst (i : ι)
  | op (e : ε)

variable {ι ε : Type*}

def code (is : List ι) : List (Item ι ε) :=
  is.map .inst

-- A pass that puts `pre i` in front of every instruction `i` and `post i` behind it.
def weave (pre post : ι → List ε) (l : List (Item ι ε)) : List (Item ι ε) :=
  l.flatMap fun
    | .inst i => (pre i).map .op ++ .inst i :: (post i).map .op
    | .op e   => [.op e]

def before (f : ι → List ε) : List (Item ι ε) → List (Item ι ε) :=
  weave f fun _ => []

def after (f : ι → List ε) : List (Item ι ε) → List (Item ι ε) :=
  weave (fun _ => []) f

-- The operations that the execution of the code performs.
def ops : List (Item ι ε) → List ε
  | []             => []
  | .inst _ :: l   => ops l
  | .op e :: l     => e :: ops l

@[simp]
theorem ops_append (l l' : List (Item ι ε)) : ops (l ++ l') = ops l ++ ops l' := by
  induction l with
  | nil         => rfl
  | cons a l ih => cases a <;> simp [ops, ih]

@[simp]
theorem ops_map_op (es : List ε) : ops (es.map .op : List (Item ι ε)) = es := by
  induction es with
  | nil          => rfl
  | cons e es ih => simp [ops, ih]

theorem weave_map_op (pre post : ι → List ε) (es : List ε) :
    weave pre post (es.map .op) = es.map .op := by
  induction es with
  | nil          => rfl
  | cons e es ih => simpa [weave] using ih

theorem weave_append (pre post : ι → List ε) (l l' : List (Item ι ε)) :
    weave pre post (l ++ l') = weave pre post l ++ weave pre post l' :=
  List.flatMap_append

-- A later pass is closer to the instruction than an earlier one.
theorem weave_weave_code (pre post pre' post' : ι → List ε) (is : List ι) :
    weave pre' post' (weave pre post (code is)) =
    weave (fun i => pre i ++ pre' i) (fun i => post' i ++ post i) (code is) := by
  induction is with
  | nil => rfl
  | cons i is ih =>
    have h : weave pre' post' (weave pre post [.inst i]) =
        weave (fun i => pre i ++ pre' i) (fun i => post' i ++ post i) [.inst i] := by
      have hi : weave pre' post' (.inst i :: (post i).map .op) =
          weave pre' post' [.inst i] ++ (post i).map .op := by
        rw [←weave_map_op pre' post' (post i), ←weave_append, List.singleton_append]
        simp [weave_map_op]
      have hp : weave pre post [.inst i] = (pre i).map .op ++ .inst i :: (post i).map .op := by
        simp [weave]
      rw [hp, weave_append, weave_map_op, hi]
      simp [weave]
    rw [code, List.map_cons, ←List.singleton_append, weave_append, weave_append, weave_append, h]
    exact congrArg _ ih

theorem ops_weave_code (pre post : ι → List ε) (is : List ι) :
    ops (weave pre post (code is)) = is.flatMap fun i => pre i ++ post i := by
  induction is with
  | nil => rfl
  | cons i is ih =>
    have h : ops (weave pre post [.inst i]) = pre i ++ post i := by simp [weave, ops]
    rw [code, List.map_cons, ←List.singleton_append, weave_append, ops_append, h, List.flatMap_cons]
    exact congrArg _ ih

-- Operations in front of the first item that meets a condition.
def insertBefore (p : Item ι ε → Bool) (es : List ε) : List (Item ι ε) → List (Item ι ε)
  | []     => []
  | a :: l => if p a then es.map .op ++ a :: l else a :: insertBefore p es l

theorem insertBefore_of_not_any {p : Item ι ε → Bool} {l : List (Item ι ε)} (h : l.any p = false)
    (es : List ε) :
    insertBefore p es l = l := by
  induction l with
  | nil         => rfl
  | cons a l ih =>
    obtain ⟨ha, hl⟩ := Bool.or_eq_false_iff.mp h
    rw [insertBefore, ha, if_neg Bool.false_ne_true, ih hl]

theorem any_insertBefore (p q : Item ι ε → Bool) (es : List ε) (l : List (Item ι ε)) :
    (insertBefore p es l).any q = (l.any q || l.any p && es.any fun e => q (.op e)) := by
  induction l with
  | nil         => rfl
  | cons a l ih =>
    rw [insertBefore]
    split
    case isTrue h  => simp [h, Function.comp_def, Bool.or_comm]
    case isFalse h => simp [h, ih, Bool.or_assoc]

theorem countP_insertBefore (p : Item ι ε → Bool) (q : ε → Bool) (es : List ε)
    (l : List (Item ι ε)) :
    (ops (insertBefore p es l)).countP q = (ops l).countP q + if l.any p then es.countP q
    else 0 := by
  induction l with
  | nil         => rfl
  | cons a l ih =>
    rw [insertBefore]
    split
    case isTrue h  => simp [h, Nat.add_comm]
    case isFalse h =>
      have ha : (a :: l).any p = l.any p := by simp [h]
      rw [ha]
      cases a with
      | inst i => exact ih
      | op e   => simp only [ops, List.countP_cons, ih]; omega

end Weave
