import AsOf.Number
import AsOf.Array.Block

/-!
# Adjustments

An adjustment restates a rectangle of cells: it multiplies or adds a number, or
overwrites the cells by one value or by one value a row. `mk?` refuses an empty
rectangle and row values that do not match it; `checkDtype` says which cell
types an operation may touch; `apply` restates a block. Integer cells saturate.
-/
namespace AsOf

/-- What an adjustment does to a cell. -/
inductive AdjustmentOp where
  | multiply (factor : Float)
  | add (amount : Float)
  | overwrite (value : Scalar)
  /-- One value for each row of the rectangle. -/
  | overwriteRows (values : List Scalar)

namespace AdjustmentOp

def name : AdjustmentOp → String
  | multiply _ => "Multiply"
  | add _ => "Add"
  | overwrite _ => "Overwrite"
  | overwriteRows _ => "OverwriteRows"

def same : AdjustmentOp → AdjustmentOp → Bool
  | multiply a, multiply b => a == b
  | add a, add b => a == b
  | overwrite a, overwrite b => a == b
  | overwriteRows a, overwriteRows b => a == b
  | _, _ => false

instance : BEq AdjustmentOp := ⟨same⟩

/-- Whether cells of a type can be restated by the operation. -/
def checkDtype (op : AdjustmentOp) (dtype : Dtype) : Except ArrayError Unit :=
  match op with
  | multiply v | add v =>
    match dtype with
    | .float64 => .ok ()
    | .int64 =>
      if (whole? v).isSome then .ok () else .error (.nonIntegralAdjustment op.name v)
    | _ => .error (.incompatibleAdjustment op.name dtype)
  | overwrite value => value.expect dtype
  | overwriteRows values => values.forM (·.expect dtype)

end AdjustmentOp

/-- An operation on a rectangle, both ends of both ranges included. -/
structure Adjustment where
  firstRow : Nat
  lastRow : Nat
  firstCol : Nat
  lastCol : Nat
  op : AdjustmentOp

namespace Adjustment

/-- Builds an adjustment from the first and last of its rows and columns. -/
def mk? (rows cols : Nat × Nat) (op : AdjustmentOp) : Except ArrayError Adjustment := do
  if rows.2 < rows.1 || cols.2 < cols.1 then throw (.invalidBounds rows cols)
  if let .overwriteRows values := op then
    let expected := rows.2 - rows.1 + 1
    if values.length ≠ expected then throw (.rowValueCount expected values.length)
    if let some first := values.head? then
      values.forM (·.expect first.dtype)
  return ⟨rows.1, rows.2, cols.1, cols.2, op⟩

/-- Rows and columns of the rectangle. -/
def span (a : Adjustment) : Nat × Nat :=
  (a.lastRow - a.firstRow + 1, a.lastCol - a.firstCol + 1)

/-- Whether a cell lies in the rectangle. -/
def covers (a : Adjustment) (i j : Nat) : Bool :=
  a.firstRow ≤ i && i ≤ a.lastRow && a.firstCol ≤ j && j ≤ a.lastCol

/-- Whether the rectangle lies inside a block of the shape. -/
def fits (a : Adjustment) (shape : Nat × Nat) : Bool :=
  a.lastRow < shape.1 && a.lastCol < shape.2

def checkDtype (a : Adjustment) (dtype : Dtype) : Except ArrayError Unit :=
  a.op.checkDtype dtype

def same (a b : Adjustment) : Bool :=
  a.firstRow == b.firstRow && a.lastRow == b.lastRow &&
    a.firstCol == b.firstCol && a.lastCol == b.lastCol && a.op == b.op

instance : BEq Adjustment := ⟨same⟩

/-! ## Applying -/

/-- Applies `f` to the cells of the rectangle. -/
def restate (a : Adjustment) {α : Type} (f : α → α) (g : Grid α) : Grid α :=
  g.mapIdx fun i j x => if a.covers i j then f x else x

/-- Puts one value into the cells that `p` selects; a value of another type is ignored. -/
def overwriteWhere (p : Nat → Nat → Bool) (value : Scalar) (b : Block) : Block :=
  match b, value with
  | .floats g, .float x => .floats (g.mapIdx fun i j old => if p i j then x else old)
  | .ints g, .int x => .ints (g.mapIdx fun i j old => if p i j then x else old)
  | .times g, .time x => .times (g.mapIdx fun i j old => if p i j then x else old)
  | .bools g, .bool x => .bools (g.mapIdx fun i j old => if p i j then x else old)
  | .labels l, .label x => .labels (l.fillWhere p x)
  | b, _ => b

/-- Overwrites row after row, beginning at `row`. -/
def overwriteFrom (a : Adjustment) (row : Nat) : List Scalar → Block → Block
  | [], b => b
  | value :: rest, b =>
    overwriteFrom a (row + 1) rest
      (overwriteWhere (fun i j => i == row && a.covers i j) value b)

/-- The block with the rectangle restated. -/
def apply (a : Adjustment) (b : Block) : Block :=
  match a.op, b with
  | .multiply v, .floats g => .floats (a.restate (· * v) g)
  | .add v, .floats g => .floats (a.restate (· + v) g)
  | .multiply v, .ints g =>
    let v := ((whole? v).getD 1).toInt
    .ints (a.restate (fun n => saturate (n.toInt * v)) g)
  | .add v, .ints g =>
    let v := ((whole? v).getD 0).toInt
    .ints (a.restate (fun n => saturate (n.toInt + v)) g)
  | .overwrite value, b => overwriteWhere a.covers value b
  | .overwriteRows values, b => a.overwriteFrom a.firstRow values b
  | _, b => b

/-! ## Text -/

/-- The rectangle and the operand, by the name of the operation. -/
def text (a : Adjustment) : String :=
  a.op.name ++ s!"(rows={a.firstRow}..={a.lastRow}, cols={a.firstCol}..={a.lastCol}, " ++
    match a.op with
    | .multiply v | .add v => "value=" ++ Decimal.plain.write v ++ ")"
    | .overwrite v => "value=" ++ v.text ++ ")"
    | .overwriteRows vs => "values=" ++ Text.bracketed (vs.map Scalar.text) ++ ")"

end Adjustment
end AsOf
