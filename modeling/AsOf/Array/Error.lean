import AsOf.Dtype
import AsOf.Text.Quoted
import AsOf.Decimal.Layout

/-!
# What can be wrong with cells and their adjustments
-/
namespace AsOf

/-- Why an operation on blocks of cells is refused. -/
inductive ArrayError where
  | invalidBounds (rows cols : Nat × Nat)
  | adjustmentOutOfBounds (key : Nat) (shape : Nat × Nat)
  | rowValueCount (expected actual : Nat)
  | incompatibleAdjustment (op : String) (dtype : Dtype)
  | nonIntegralAdjustment (op : String) (value : Float)
  | dtypeMismatch (expected actual : Dtype)
  | windowLengthNotPositive
  | windowLengthTooLong (window offset : UInt64) (nrows : Nat)
  | seekBackwards (current target : UInt64)
  | shapeMismatch (expected actual : Nat × Nat)
  | invalidCategoryCode (code entries : Nat)

namespace ArrayError

open Text Decimal

def message : ArrayError → String
  | invalidBounds (r0, r1) (c0, c1) =>
    s!"Invalid adjustment bounds: rows {r0}..={r1}, columns {c0}..={c1}"
  | adjustmentOutOfBounds key (nrows, ncols) =>
    s!"Adjustment keyed at row {key} is out of bounds for a {nrows}x{ncols} buffer"
  | rowValueCount expected actual =>
    s!"Row overwrite carries {actual} values for {expected} rows"
  | incompatibleAdjustment op dtype =>
    op ++ " adjustment cannot be applied to " ++ dtype.name ++ " data"
  | nonIntegralAdjustment op value =>
    op ++ " adjustment by " ++ plain.write value ++ " cannot be applied to int64 data"
  | dtypeMismatch expected actual =>
    "Expected a " ++ expected.name ++ " value, got " ++ actual.name
  | windowLengthNotPositive => "Window length must be positive"
  | windowLengthTooLong window offset nrows =>
    s!"Window length {window} with offset {offset} exceeds the {nrows} available rows"
  | seekBackwards current target =>
    s!"Cannot seek window from anchor {current} back to {target}"
  | shapeMismatch expected actual =>
    "Shape mismatch: expected " ++ pair expected ++ ", got " ++ pair actual
  | invalidCategoryCode code entries =>
    s!"Category code {code} is out of range for a dictionary of {entries} entries"

end ArrayError
end AsOf
