import AsOf.Loader.Series
import AsOf.Loader.Tables

/-!
# Frames

A `Frame` is a list of named columns of one length. Two kinds of frames fill
tables. A baseline has one row for each observation: `date`, `sid` and `value`;
an observation off the axes is left out, and of two for one cell the later one
holds. An adjustment frame has one row for each restatement: `sid`, `start_date`,
`end_date`, `apply_date`, `kind` (`multiply`, `add` or `overwrite`) and `value`.
Its rows are added one by one, so those before a faulty one stay.
-/
namespace AsOf

/-- Named columns. -/
structure Frame where
  columns : List (String × Series)

namespace Frame

/-- The column of a name. -/
def column? (f : Frame) (name : String) : Except SourceFault Series :=
  match f.columns.lookup name with
  | some s => .ok s
  | none => .error (.notFound name)

def height (f : Frame) : Nat := (f.columns.head?.map (·.2.length)).getD 0

end Frame

namespace Tables

/-! ## Baselines -/

/-- The place of each observation; none off the axes. -/
def places (t : Tables) (dates : List (Option Date)) (sids : List (Option Sid)) :
    List (Option (Nat × Nat)) :=
  dates.zipWith (fun date sid => do
    return (← lastIndex? (← date) t.dates, ← lastIndex? (← sid) t.sids)) sids

/-- Puts observations into a table of `fill`; a null leaves its cell as it is. -/
def pivot {α : Type} (t : Tables) (fill : α) (places : List (Option (Nat × Nat)))
    (values : List (Option α)) : Grid α :=
  let cells := (places.zip values).reverse.filterMap fun (place, v) => do
    return (← place, ← v)
  .ofFn t.shape.1 t.shape.2 fun i j => (cells.lookup (i.val, j.val)).getD fill

/-- Puts labels into a table without labels; a null takes the label away. -/
def pivotLabels (t : Tables) (places : List (Option (Nat × Nat)))
    (values : List (Option String)) : Labels :=
  (places.zip values).foldl (fun a (place, v) =>
    match place with
    | some (row, col) => a.set row col v
    | none => a) (.missing t.shape)

/-- The table of a column. -/
def dense (t : Tables) (c : Column) (f : Frame) : Except SourceFault Block := do
  let dates := (← f.column? "date").toDates
  let sids := (← f.column? "sid").toSids
  let places := t.places dates sids
  let value ← f.column? "value"
  match c.dtype with
  | .float64 => return .floats (t.pivot (c.missing.asFloat?.getD nan) places value.toFloats)
  | .int64 => return .ints (t.pivot (c.missing.asInt?.getD 0) places value.toInts)
  | .datetime => return .times (t.pivot (c.missing.asInt?.getD 0) places value.toInts)
  | .bool => return .bools (t.pivot (c.missing.asBool?.getD false) places (← value.toBools))
  | .categorical => return .labels (t.pivotLabels places value.toTexts)

/-- A fault in the frame of a column. -/
def sourceError (c : Column) (fault : SourceFault) : LoadError := .source [c.qualifiedName] fault

/-- Keeps the table of a baseline. -/
def addFrame (t : Tables) (c : Column) (f : Frame) : Except LoadError Tables := do
  t.addColumn c (← (t.dense c f).mapError (sourceError c))

/-! ## Restatements -/

/-- The value that a row overwrites with; the missing value for a null. -/
def overwriteValue (c : Column) (value : Series) (row : Nat) : Except SourceFault Scalar := do
  let cell {α : Type} (xs : List (Option α)) (f : α → Scalar) : Scalar :=
    ((xs[row]?).join.map f).getD c.missing
  match c.dtype with
  | .float64 => return cell value.toFloats .float
  | .int64 => return cell value.toInts .int
  | .datetime => return cell value.toInts .time
  | .bool => return cell (← value.toBools) .bool
  | .categorical => return .label (value.toTexts[row]?).join

/-- What a row does. -/
def operation (c : Column) (kind : Option String) (number : Option Float) (value : Series)
    (row : Nat) : Except SourceFault AdjustmentOp :=
  match kind, number with
  | some "multiply", some x => .ok (.multiply x)
  | some "add", some x => .ok (.add x)
  | some "multiply", none | some "add", none => .error (.valueMissing row)
  | some "overwrite", _ => .overwrite <$> overwriteValue c value row
  | other, _ => .error (.unknownKind other)

/-- The restatements of a frame, row by row. -/
def restatements (c : Column) (f : Frame) :
    Except SourceFault (List (Except SourceFault Restatement)) := do
  let sids := (← f.column? "sid").toSids
  let starts := (← f.column? "start_date").toDates
  let stops := (← f.column? "end_date").toDates
  let knowns := (← f.column? "apply_date").toDates
  let kinds := (← f.column? "kind").toTexts
  let value ← f.column? "value"
  let numbers := value.toFloats
  return (List.range f.height).map fun row =>
    match sids[row]?.join, starts[row]?.join, stops[row]?.join, knowns[row]?.join with
    | some sid, some start, some stop, some known => do
      let op ← operation c kinds[row]?.join numbers[row]?.join value row
      return { sid, op, start, stop, known }
    | _, _, _, _ => .error (.incompleteRow row)

/-- Adds restatements up to the first faulty one, whose error is told. -/
def restateAll (t : Tables) (c : Column) :
    List (Except SourceFault Restatement) → Tables × Except LoadError Unit
  | [] => (t, .ok ())
  | .error fault :: _ => (t, .error (sourceError c fault))
  | .ok r :: rest =>
    match t.restate c r with
    | .ok t => restateAll t c rest
    | .error e => (t, .error e)

/-- Adds the restatements of a frame. -/
def addAdjustments (t : Tables) (c : Column) (f : Frame) : Tables × Except LoadError Unit :=
  match restatements c f with
  | .ok rows => t.restateAll c rows
  | .error fault => (t, .error (sourceError c fault))

end Tables
end AsOf
