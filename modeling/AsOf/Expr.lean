import AsOf.Grid
import AsOf.Log1p
import AsOf.Scalar

/-!
# Cellwise expressions

An `Expr` is a formula over numbered inputs, each a grid of floats. Truth values
are one and zero; a NaN is not true. `merge` puts the inputs of two formulas
into one list without repeats, and `remap` renumbers a formula for it.

Results:
* `positions_length`: `merge` says for each input on the right where it went.
-/
namespace AsOf

inductive UnaryOp where
  | neg | abs | log | log1p | exp | sqrt | not | isNan | notNan | isFinite
deriving DecidableEq, Repr

namespace UnaryOp

/-- Whether the result is a truth value. -/
def isBoolean : UnaryOp → Bool
  | not | isNan | notNan | isFinite => true
  | _ => false

/-- How a formula writes the operator. -/
def symbol : UnaryOp → String
  | neg => "-" | abs => "abs" | log => "log" | log1p => "log1p" | exp => "exp"
  | sqrt => "sqrt" | not => "~" | isNan => "isnan" | notNan => "notnan"
  | isFinite => "isfinite"

/-- How a term writes the operator. -/
def name : UnaryOp → String
  | neg => "Neg" | abs => "Abs" | log => "Log" | log1p => "Log1p" | exp => "Exp"
  | sqrt => "Sqrt" | not => "Not" | isNan => "IsNan" | notNan => "NotNan"
  | isFinite => "IsFinite"

def apply : UnaryOp → Float → Float
  | neg, x => -x
  | abs, x => x.abs
  | log, x => x.log
  | log1p, x => AsOf.log1p x
  | exp, x => x.exp
  | sqrt, x => x.sqrt
  | not, x => truth (!isTrue x)
  | isNan, x => truth x.isNaN
  | notNan, x => truth (!x.isNaN)
  | isFinite, x => truth x.isFinite

end UnaryOp

inductive BinaryOp where
  | add | sub | mul | div | pow | lt | le | gt | ge | eq | ne | and | or
deriving DecidableEq, Repr

namespace BinaryOp

/-- Whether the result is a truth value. -/
def isBoolean : BinaryOp → Bool
  | add | sub | mul | div | pow => false
  | _ => true

/-- Whether the operands are truth values too. -/
def isLogical : BinaryOp → Bool
  | and | or => true
  | _ => false

/-- How a formula writes the operator. -/
def symbol : BinaryOp → String
  | add => "+" | sub => "-" | mul => "*" | div => "/" | pow => "**" | lt => "<"
  | le => "<=" | gt => ">" | ge => ">=" | eq => "==" | ne => "!=" | and => "&" | or => "|"

/-- How a term writes the operator. -/
def name : BinaryOp → String
  | add => "Add" | sub => "Sub" | mul => "Mul" | div => "Div" | pow => "Pow" | lt => "Lt"
  | le => "Le" | gt => "Gt" | ge => "Ge" | eq => "Eq" | ne => "Ne" | and => "And" | or => "Or"

def apply : BinaryOp → Float → Float → Float
  | add, a, b => a + b
  | sub, a, b => a - b
  | mul, a, b => a * b
  | div, a, b => a / b
  | pow, a, b => a.pow b
  | lt, a, b => truth (a < b)
  | le, a, b => truth (a ≤ b)
  | gt, a, b => truth (a > b)
  | ge, a, b => truth (a ≥ b)
  | eq, a, b => truth (a == b)
  | ne, a, b => truth (a != b)
  | and, a, b => truth (isTrue a && isTrue b)
  | or, a, b => truth (isTrue a || isTrue b)

end BinaryOp

/-- A formula over numbered inputs. -/
inductive Expr where
  | input (i : Nat)
  | const (c : Param)
  | unary (op : UnaryOp) (e : Expr)
  | binary (op : BinaryOp) (a b : Expr)
deriving DecidableEq, Repr

instance : Inhabited Expr := ⟨.input 0⟩

namespace Expr

/-- Whether the formula yields truth values. -/
def isBoolean : Expr → Bool
  | input _ | const _ => false
  | unary op _ => op.isBoolean
  | binary op _ _ => op.isBoolean

/-- One more than the largest input number. -/
def arity : Expr → Nat
  | input i => i + 1
  | const _ => 0
  | unary _ e => e.arity
  | binary _ a b => max a.arity b.arity

/-- Renumbers the inputs; a number that the table does not hold stays. -/
def remap (table : List Nat) : Expr → Expr
  | input i => input (table.getD i i)
  | const c => const c
  | unary op e => unary op (e.remap table)
  | binary op a b => binary op (a.remap table) (b.remap table)

/-- The value in one cell, from the values of the inputs in it. -/
def evalCell (inputs : Nat → Float) : Expr → Float
  | input i => inputs i
  | const c => c.toFloat
  | unary op e => op.apply (e.evalCell inputs)
  | binary op a b => op.apply (a.evalCell inputs) (b.evalCell inputs)

/-- The value in every cell; an input that is not given is NaN. -/
def eval (inputs : List (Grid Float)) (shape : Nat × Nat) : Expr → Grid Float
  | input i => inputs.getD i (.replicate shape nan)
  | const c => .replicate shape c.toFloat
  | unary op e => (e.eval inputs shape).map op.apply
  | binary op a b => (a.eval inputs shape).zipWith op.apply (b.eval inputs shape)

/-- The formula with `x_i` for input `i`. -/
def text : Expr → String
  | input i => "x_" ++ toString i
  | const c => c.text
  | unary op e => op.symbol ++ "(" ++ e.text ++ ")"
  | binary op a b => "(" ++ a.text ++ " " ++ op.symbol ++ " " ++ b.text ++ ")"

end Expr

/-! ## Merging inputs -/

/-- The position of the first item that `eq` accepts. -/
def position? {α : Type} (eq : α → α → Bool) (items : List α) (x : α) : Option Nat :=
  items.findIdx? fun item => eq item x

/-- `left`, then each item of `right` that is not there yet; and where each item of
`right` is found. -/
def merge {α : Type} (eq : α → α → Bool) (left : List α) : List α → List α × List Nat
  | [] => (left, [])
  | x :: right =>
    match position? eq left x with
    | some i =>
      let (merged, positions) := merge eq left right
      (merged, i :: positions)
    | none =>
      let (merged, positions) := merge eq (left ++ [x]) right
      (merged, left.length :: positions)

theorem positions_length {α : Type} (eq : α → α → Bool) (left right : List α) :
    (merge eq left right).2.length = right.length := by
  induction right generalizing left with
  | nil => rfl
  | cons x right ih =>
    unfold merge
    split <;> simp [ih]

end AsOf
