import AsOf.Array.History
import AsOf.Stats.Groups
import AsOf.Stats.Moments
import AsOf.Stats.Percentile
import AsOf.Term.Basic
import AsOf.Term.EvalError
import AsOf.Term.Text

/-!
# Evaluating a term

`evaluate` computes one term over the sessions and assets of a context from its
inputs: a block of the context's shape each, or a cursor each for a kind that
reads windows. Cells outside the context's mask hold the term's missing value.
Kernels see only the assets that the mask lets through on the row; ranks and
the like see the cells outside the mask as missing.
-/
namespace AsOf

/-- What a term is given of an input. -/
inductive Input where
  | block (b : Block)
  | window (c : Cursor)

/-- The sessions, the assets and the cells that take part. -/
structure Context where
  dates : List Date
  sids : List Sid
  mask : Grid Bool

namespace Context

def shape (ctx : Context) : Nat × Nat := (ctx.dates.length, ctx.sids.length)

/-- The columns that take part in a row. -/
def columns (ctx : Context) (row : Nat) : List Nat :=
  ((ctx.mask.row row).zipIdx.filter (·.1)).map (·.2)

end Context

namespace Evaluate

/-! ## Inputs -/

/-- The cells of an input as floats, missing ones as NaN. -/
def numbers (t : Term) (index : Nat) (b : Block) : Except EvalError (Grid Float) :=
  match b.asFloat? ((t.inputs[index]?.map Term.missing).getD (.label none)) with
  | some g => .ok g
  | none => .error (.inputForm t.text index .numbers)

/-- All inputs as cursors. -/
def cursors (t : Term) (inputs : List Input) : Except EvalError (List Cursor) :=
  inputs.zipIdx.mapM fun
    | (.window c, _) => .ok c
    | (.block _, index) => .error (.inputForm t.text index .window)

/-- All inputs as blocks of the shape. -/
def blocks (t : Term) (shape : Nat × Nat) (inputs : List Input) :
    Except EvalError (List Block) :=
  inputs.zipIdx.mapM fun
    | (.block b, _) => if b.shape = shape then .ok b else .error (.shapeMismatch t.text shape b.shape)
    | (.window _, index) => .error (.inputForm t.text index .block)

/-! ## Windows -/

/-- The next window of each cursor, read by `f`, and the cursors behind them. -/
def advance {α : Type} (t : Term) (f : Nat → Block → Except EvalError α) (row : Nat) :
    Nat → List Cursor → Except EvalError (List α × List Cursor)
  | _, [] => .ok ([], [])
  | index, c :: rest => do
    match c.next? with
    | none => throw (.windowExhausted t.text index row)
    | some (window, c) =>
      let x ← f index window
      let (xs, rest) ← advance t f row (index + 1) rest
      return (x :: xs, c :: rest)

/-- Advances all cursors once for each row and combines what `f` reads of the windows. -/
def overRows {α β : Type} (t : Term) (f : Nat → Nat → Block → Except EvalError α)
    (combine : Nat → List α → Except EvalError β) :
    List Nat → List Cursor → Except EvalError (List β)
  | [], _ => .ok []
  | row :: rows, cursors => do
    let (xs, cursors) ← advance t (f row) row 0 cursors
    let y ← combine row xs
    let ys ← overRows t f combine rows cursors
    return y :: ys

/-- The last row of each window of the first input. -/
def latest (t : Term) (shape : Nat × Nat) (cursors : List Cursor) : Except EvalError Block := do
  match cursors with
  | [] => throw (.inputCount t.text 1 0)
  | cursor :: _ =>
    let rows ← overRows t (fun _ _ b => .ok (b.sliceRows (b.nrows - 1) b.nrows))
      (fun _ bs => .ok bs) (List.range shape.1) [cursor]
    if rows.isEmpty then return .full t.missing shape
    (Block.concatRows rows.flatten).mapError .array

/-- The grid of a shape over rows of cells, with a default for cells that are not given. -/
def gridOf {α : Type} (shape : Nat × Nat) (default : α) (rows : List (List α)) : Grid α :=
  let cells := (rows.map List.toArray).toArray
  .ofFn shape.1 shape.2 fun i j => ((cells[i.val]?).bind (·[j.val]?)).getD default

/-- Floats as cells of a type: truth values for a filter. -/
def ofFloats (g : Grid Float) : Dtype → Block
  | .bool => .bools (g.map isTrue)
  | _ => .floats g

/-- A window kernel over the assets that take part in each row. -/
def windowed (t : Term) (k : WindowKernel) (ctx : Context) (cursors : List Cursor) :
    Except EvalError Block := do
  let rows ← overRows t
    (fun row index b => numbers t index (b.selectColumns (ctx.columns row)))
    (fun row windows =>
      .ok (Stats.scatter ctx.shape.2 ((ctx.columns row).zip (k.compute windows))))
    (List.range ctx.shape.1) cursors
  return ofFloats (gridOf ctx.shape nan rows) t.dtype

/-- Puts values into the cells of a block that have one of the right type. -/
def overlay (cells : Grid (Option Scalar)) (b : Block) : Block :=
  let put {α : Type} (as? : Scalar → Option α) (g : Grid α) : Grid α :=
    g.mapIdx fun i j old => ((cells.get? i j).join.bind as?).getD old
  match b with
  | .floats g => .floats (put Scalar.asFloat? g)
  | .ints g => .ints (put Scalar.asInt? g)
  | .bools g => .bools (put Scalar.asBool? g)
  | .times g => .times (put Scalar.asInt? g)
  | .labels a => .labels a

/-- The values of one row of a custom kernel, in place. -/
def customRow (t : Term) (k : RowKernel) (ctx : Context) (row : Nat) (windows : List Block) :
    Except EvalError (List (Option Scalar)) := do
  let cols := ctx.columns row
  let sids := cols.filterMap (ctx.sids[·]?)
  match k.compute (ctx.dates.getD row ⟨0⟩) sids windows with
  | .error reason => throw (.kernel t.text (.refused reason))
  | .ok values =>
    if values.length ≠ cols.length || values.dtype ≠ t.dtype then
      throw (.kernel t.text (.returned values.length values.dtype cols.length))
    let cells := cols.zip values.toScalars
    return (List.range ctx.shape.2).map fun c => cells.lookup c

/-- A custom kernel over the assets that take part in each row. -/
def custom (t : Term) (k : RowKernel) (ctx : Context) (cursors : List Cursor) :
    Except EvalError Block := do
  let rows ← overRows t (fun row _ b => .ok (b.selectColumns (ctx.columns row)))
    (customRow t k ctx) (List.range ctx.shape.1) cursors
  return overlay (gridOf ctx.shape none rows) (.full t.missing ctx.shape)

/-! ## Cross-sections -/

/-- The group of each cell: an integer or a label code; none for a missing one. -/
def groupIds? (missing : Scalar) : Block → Option (Grid (Option Int))
  | .ints g => some <| g.map fun n => if missing.asInt? == some n then none else some n.toInt
  | .labels a =>
    let absent := missing.asLabel?.bind a.codeOf?
    some <| a.codes.map fun code =>
      if code = Dictionary.missingCode || absent == some code then none
      else some (code : Int)
  | _ => none

/-- The values of the first input, NaN outside the mask, and the groups of the second. -/
def crossSection (t : Term) (ctx : Context) (grouped : Bool) (inputs : List Input) :
    Except EvalError (Grid Float × Option (Grid (Option Int))) := do
  let blocks ← blocks t ctx.shape inputs
  let values ← numbers t 0 (blocks.headD (.floats (.replicate ctx.shape nan)))
  let values := values.zipWith (fun x keep => if keep then x else nan) ctx.mask
  if !grouped then return (values, none)
  match t.inputs[1]?, blocks[1]? with
  | some classifier, some b =>
    match groupIds? classifier.missing b with
    | some groups => return (values, some groups)
    | none => throw (.inputForm t.text 1 .classifier)
  | _, _ => throw (.inputForm t.text 1 .classifier)

/-- A function of a row applied to every row, or to every group of every row. -/
def byRow (f : List Float → List Float) (values : Grid Float)
    (groups : Option (Grid (Option Int))) : Grid Float :=
  gridOf values.shape nan <| (List.range values.nrows).map fun i =>
    match groups with
    | some groups => Stats.grouped f (values.row i) (groups.row i)
    | none => f (values.row i)

/-- The values of a row that lie between two of its percentiles. -/
def between (low high : Param) (row : List Float) : List Bool :=
  let sorted := Stats.sortedPresent row
  let lo := Stats.percentile sorted low.toFloat
  let hi := Stats.percentile sorted high.toFloat
  row.map fun v => v ≥ lo && v ≤ hi

/-! ## Label tests -/

/-- A test of labels; the value it compares with must be a label. -/
def testLabels (a : Labels) : LabelTest → Option (Grid Bool)
  | .equal v => v.asLabel?.map fun l => a.eqLabel l
  | .notEqual v => v.asLabel?.map fun l => a.neLabel l
  | .isIn vs => (vs.mapM Scalar.asLabel?).map fun ls => a.isIn ls
  | .startsWith s => some (a.startsWith s)
  | .endsWith s => some (a.endsWith s)
  | .contains s => some (a.contains s)

/-- A test of integers; texts have no parts to look for. -/
def testInts (g : Grid Int64) : LabelTest → Option (Grid Bool)
  | .equal v => v.asInt?.map fun n => g.map (· == n)
  | .notEqual v => v.asInt?.map fun n => g.map (· != n)
  | .isIn vs => (vs.mapM Scalar.asInt?).map fun ns => g.map ns.contains
  | _ => none

/-- A test of a block, false in missing cells. -/
def labelTest (t : Term) (test : LabelTest) (missing : Scalar) (b : Block) :
    Except EvalError Block :=
  let tested := match b with
    | .labels a => testLabels a test
    | .ints g => testInts g test
    | _ => none
  match tested with
  | some g => .ok (.bools (g.zipWith (fun x absent => x && !absent) (b.isMissing missing)))
  | none => .error (.inputForm t.text 0 .testable)

/-- The only block of a kind with one input, and the missing value of that input. -/
def single (t : Term) (shape : Nat × Nat) (inputs : List Input) :
    Except EvalError (Block × Scalar) := do
  match ← blocks t shape inputs, t.inputs with
  | b :: _, input :: _ => return (b, input.missing)
  | _, _ => throw (.inputCount t.text 1 0)

/-- The cells of a term before its mask. -/
def unmasked (t : Term) (inputs : List Input) (ctx : Context) : Except EvalError Block := do
  let shape := ctx.shape
  match t.kind with
  | .assetExists | .column _ => throw (.notComputable t.text)
  | .constant value => return .full value shape
  | .staticAssets sids =>
    let row := ctx.sids.map sids.contains
    return .bools (gridOf shape false (List.replicate shape.1 row))
  | .latest => latest t shape (← cursors t inputs)
  | .window k => windowed t k ctx (← cursors t inputs)
  | .custom k => custom t k ctx (← cursors t inputs)
  | .expression e =>
    let blocks ← blocks t shape inputs
    let grids ← blocks.zipIdx.mapM fun (b, index) => numbers t index b
    return ofFloats (e.eval grids shape) t.dtype
  | .rank method ascending grouped =>
    let (values, groups) ← crossSection t ctx grouped inputs
    return .floats (byRow (Stats.rank method ascending) values groups)
  | .transform kind grouped =>
    let (values, groups) ← crossSection t ctx grouped inputs
    let f := match kind with
      | .demean => Stats.demean
      | .zscore => Stats.zscore
    return .floats (byRow f values groups)
  | .quantiles bins =>
    let (values, _) ← crossSection t ctx false inputs
    return .ints (gridOf shape (-1) (values.toLists.map (Stats.quantiles bins)))
  | .percentileBetween low high =>
    let (values, _) ← crossSection t ctx false inputs
    return .bools (gridOf shape false (values.toLists.map (between low high)))
  | .nullCheck negate =>
    let (b, missing) ← single t shape inputs
    return .bools ((b.isMissing missing).map (· != negate))
  | .fillMissing value =>
    let (b, missing) ← single t shape inputs
    (b.whereMask ((b.isMissing missing).map (!·)) value).mapError .array
  | .labelTest test =>
    let (b, missing) ← single t shape inputs
    labelTest t test missing b

end Evaluate

/-- The cells of a term over a context. -/
def evaluate (t : Term) (inputs : List Input) (ctx : Context) : Except EvalError Block := do
  let shape := ctx.shape
  if ctx.mask.shape ≠ shape then throw (.shapeMismatch t.text shape ctx.mask.shape)
  if inputs.length ≠ t.inputs.length then
    throw (.inputCount t.text t.inputs.length inputs.length)
  let out ← Evaluate.unmasked t inputs ctx
  if out.shape ≠ shape then throw (.shapeMismatch t.text shape out.shape)
  (out.whereMask ctx.mask t.missing).mapError .array

end AsOf
