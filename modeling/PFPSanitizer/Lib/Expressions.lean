import PFPSanitizer.Lib.RealFunctions

-- Expressions in prefix form, with a parenthesis around every variable and every application.
namespace Prefix

-- What stands behind an opening parenthesis.
inductive Head
  | var (n : Nat)
  | op (name : String)

inductive Token
  | opening (h : Head)
  | closing

inductive Expr
  | leaf (h : Head)
  | one (h : Head) (x : Expr)
  | two (h : Head) (x y : Expr)

namespace Expr

def print : Expr → List Token
  | leaf h    => [.opening h, .closing]
  | one h x   => .opening h :: (x.print ++ [.closing])
  | two h x y => .opening h :: (x.print ++ (y.print ++ [.closing]))

def vars : Expr → List Nat
  | leaf (.var n) => [n]
  | leaf (.op _)  => []
  | one _ x       => x.vars
  | two _ x y     => x.vars ++ y.vars

end Expr

def build (h : Head) : List Expr → Option Expr
  | []     => some (.leaf h)
  | [x]    => some (.one h x)
  | [x, y] => some (.two h x y)
  | _      => none

-- The reader keeps the heads of the open parentheses with the arguments it has read
-- for them, innermost first.
def readWith (st : List (Head × List Expr)) : List Token → Option Expr
  | []               => none
  | .opening h :: ts => readWith ((h, []) :: st) ts
  | .closing :: ts   =>
    match st with
    | []                                => none
    | [(h, args)]                       => if ts.isEmpty then build h args else none
    | (h, args) :: (h', args') :: st    =>
      (build h args).bind fun x => readWith ((h', args' ++ [x]) :: st) ts

def read (ts : List Token) : Option Expr :=
  readWith [] ts

-- An expression becomes the next argument of the innermost parenthesis.
theorem readWith_print (x : Expr) (h : Head) (args : List Expr) (st : List (Head × List Expr))
    (ts : List Token) :
    readWith ((h, args) :: st) (x.print ++ ts) = readWith ((h, args ++ [x]) :: st) ts := by
  induction x generalizing h args st ts with
  | leaf h' => rfl
  | one h' x ih =>
    show readWith ((h', []) :: (h, args) :: st) ((x.print ++ [.closing]) ++ ts) = _
    rw [List.append_assoc, ih]
    rfl
  | two h' x y ihx ihy =>
    show readWith ((h', []) :: (h, args) :: st) ((x.print ++ (y.print ++ [.closing])) ++ ts) = _
    rw [List.append_assoc, ihx, List.append_assoc, ihy]
    rfl

theorem read_print (x : Expr) : read x.print = some x := by
  cases x with
  | leaf h => rfl
  | one h x =>
    show readWith [(h, [])] (x.print ++ [.closing]) = _
    rw [readWith_print]
    rfl
  | two h x y =>
    show readWith [(h, [])] (x.print ++ (y.print ++ [.closing])) = _
    rw [readWith_print, readWith_print]
    rfl

-- The functions that names stand for.
noncomputable def unary : String → Option (ℝ → Option ℝ)
  | "sqrt"  => some RealFn.sqrt
  | "cbrt"  => some RealFn.cbrt
  | "floor" => some RealFn.floor
  | "tan"   => some RealFn.tan
  | "sin"   => some <| RealFn.total Real.sin
  | "cos"   => some <| RealFn.total Real.cos
  | "atan"  => some <| RealFn.total Real.arctan
  | "abs"   => some <| RealFn.total abs
  | "log"   => some RealFn.log
  | "asin"  => some RealFn.asin
  | "exp"   => some <| RealFn.total Real.exp
  | _       => none

noncomputable def binary : String → Option (ℝ → ℝ → Option ℝ)
  | "+"    => some <| RealFn.total₂ (· + ·)
  | "-"    => some <| RealFn.total₂ (· - ·)
  | "*"    => some <| RealFn.total₂ (· * ·)
  | "/"    => some RealFn.div
  | "pow"  => some RealFn.pow
  | "fmod" => some RealFn.fmod
  | _      => none

noncomputable def apply₁ (name : String) (x : Option ℝ) : Option ℝ :=
  (unary name).bind fun f => x.bind f

noncomputable def apply₂ (name : String) (x y : Option ℝ) : Option ℝ :=
  (binary name).bind fun f => RealFn.lift₂ f x y

-- The value of an expression whose variables have the values of `env`. A function that is not
-- known, or not with that number of arguments, has no value.
noncomputable def Expr.eval (env : Nat → Option ℝ) : Expr → Option ℝ
  | leaf (.var n)     => env n
  | one (.op f) x     => apply₁ f (x.eval env)
  | two (.op f) x y   => apply₂ f (x.eval env) (y.eval env)
  | _                 => none

end Prefix
