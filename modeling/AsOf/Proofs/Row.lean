import AsOf.Proofs.Block
import AsOf.Proofs.Stats
import AsOf.Term.Evaluate

/-!
# What one row of a term is

`Term.row?` gives the values of one session for the assets that take part in it,
from nothing but the date, those assets and what the session sees of the inputs.
It has no value where the term cannot be computed. Everything is read decoded: a
label is its text, and a missing cell is recognised by its value.

`RowKernel.Decodes` is what a custom kernel must satisfy for this to make sense: it
looks at the values of its windows, not at how labels are coded in them.
-/
namespace AsOf

/-! ## Views -/

namespace View

/-- The cells as floats; labels have no such reading. -/
def numbers? (missing : Scalar) (v : View) : Option (Grid Float) :=
  if v.dtype = .categorical then none else some (v.cells.map (Scalar.number missing))

/-- The groups of the cells of the first row: integers, or labels numbered as they are met. -/
def groups? (missing : Scalar) (v : View) : Option (List (Option Int)) :=
  match v.dtype with
  | .int64 => some <| (v.cells.row 0).map fun x =>
      if Scalar.isAbsent missing x then none else x.asInt?.map Int64.toInt
  | .categorical =>
    let labels := (v.cells.row 0).map fun x => if Scalar.isAbsent missing x then none else x.asLabel?
    let known := (Dictionary.internAll [] labels).1
    some <| labels.map fun label => label.map fun l => ((known.intern (some l)).2 : Int)
  | _ => none

/-- A block with the cells of a view. -/
def toBlock (v : View) : Block :=
  match v.dtype with
  | .float64 => .floats (v.cells.map fun x => x.asFloat?.getD nan)
  | .int64 => .ints (v.cells.map fun x => x.asInt?.getD 0)
  | .bool => .bools (v.cells.map fun x => x.asBool?.getD false)
  | .datetime => .times (v.cells.map fun x => x.asInt?.getD 0)
  | .categorical => .labels (.ofLabels (v.cells.map Scalar.asLabel?))

theorem view_toBlock (b : Block) : b.view.toBlock.view = b.view := by
  have e {α : Type} {wrap : α → Scalar} {get : Scalar → α} (h : ∀ x, get (wrap x) = x) (g : Grid α) :
      ((g.map wrap).map get).map wrap = g.map wrap := by
    rw [Grid.map_map, Grid.map_map]
    exact Grid.map_congr fun _ _ x _ => congrArg wrap (h x)
  cases b with
  | floats g => exact congrArg (View.mk _) (e (fun _ => rfl) g)
  | ints g => exact congrArg (View.mk _) (e (fun _ => rfl) g)
  | bools g => exact congrArg (View.mk _) (e (fun _ => rfl) g)
  | times g => exact congrArg (View.mk _) (e (fun _ => rfl) g)
  | labels a =>
    refine congrArg (View.mk _) ?_
    show (Labels.toLabels (.ofLabels ((a.toLabels.map Scalar.label).map Scalar.asLabel?))).map
      Scalar.label = a.toLabels.map Scalar.label
    rw [Labels.toLabels_ofLabels]
    exact e (fun _ => rfl) a.toLabels

end View

theorem RowValues.length_toScalars (values : RowValues) : values.toScalars.length = values.length := by
  cases values <;> exact List.length_map _

/-- The kernel depends on the values in its windows alone. -/
def RowKernel.Decodes (k : RowKernel) : Prop :=
  ∀ date sids (ws ws' : List Block), ws.map Block.view = ws'.map Block.view →
    k.compute date sids ws = k.compute date sids ws'

/-- What a row sees of an input: the cells of the assets at hand, oldest session first. -/
structure Sight where
  /-- The input is read through a window. -/
  windowed : Bool
  view : View

namespace Sight

/-- The windows, if every input is read through one. -/
def windows? (seen : List Sight) : Option (List View) :=
  seen.mapM fun s => if s.windowed then some s.view else none

/-- The rows, if no input is read through a window. -/
def rows? (seen : List Sight) : Option (List View) :=
  seen.mapM fun s => if s.windowed then none else some s.view

end Sight

/-! ## One row of a term -/

/-- A test of single values; none for a type or a value that the test does not suit. -/
def LabelTest.holds? (test : LabelTest) (dtype : Dtype) : Option (Scalar → Bool) :=
  match dtype, test with
  | .categorical, .equal v => v.asLabel?.map fun l x => x.asLabel? == some l
  | .categorical, .notEqual v => v.asLabel?.map fun l x => x.asLabel?.any (· != l)
  | .categorical, .isIn vs => (vs.mapM Scalar.asLabel?).map fun ls x => x.asLabel?.any ls.contains
  | .categorical, .startsWith head =>
    some fun x => x.asLabel?.any fun s => head.toList.isPrefixOf s.toList
  | .categorical, .endsWith tail =>
    some fun x => x.asLabel?.any fun s => tail.toList.isSuffixOf s.toList
  | .categorical, .contains needle =>
    some fun x => x.asLabel?.any fun s => Text.occursIn needle.toList s.toList
  | .int64, .equal v => v.asInt?.map fun n x => x.asInt? == some n
  | .int64, .notEqual v => v.asInt?.map fun n x => x.asInt?.any (· != n)
  | .int64, .isIn vs => (vs.mapM Scalar.asInt?).map fun ns x => x.asInt?.any ns.contains
  | _, _ => none

/-- A value that a custom kernel made, as a cell of a type. -/
def Scalar.cast? (dtype : Dtype) (x : Scalar) : Option Scalar :=
  match dtype with
  | .float64 => x.asFloat?.map float
  | .int64 => x.asInt?.map int
  | .bool => x.asBool?.map bool
  | .datetime => x.asInt?.map time
  | .categorical => none

/-- A function of a row, or of every group in it. -/
def Stats.across (f : List Float → List Float) (values : List Float)
    (groups : Option (List (Option Int))) : List Float :=
  match groups with
  | some groups => Stats.grouped f values groups
  | none => f values

namespace Term

/-- The missing value of an input. -/
def missingOf (t : Term) (index : Nat) : Scalar :=
  (t.inputs[index]?.map Term.missing).getD (.label none)

/-- All inputs as floats. -/
def numbers? (t : Term) (vs : List View) : Option (List (Grid Float)) :=
  vs.zipIdx.mapM fun (v, index) => v.numbers? (t.missingOf index)

/-- Floats as cells of a type, with that type. -/
def ofFloats (dtype : Dtype) (xs : List Float) : Dtype × List Scalar :=
  match dtype with
  | .bool => (.bool, xs.map fun x => .bool (isTrue x))
  | _ => (.float64, xs.map .float)

/-- The first input as floats, NaN for every asset without one. -/
def firstNumbers? (t : Term) (assets : Nat) : List View → Option (List Float)
  | [] => some (List.replicate assets nan)
  | v :: _ => (v.numbers? (t.missingOf 0)).map (·.row 0)

/-- The groups of the second input. -/
def secondGroups? (t : Term) (vs : List View) : Option (List (Option Int)) :=
  match t.inputs[1]?, vs[1]? with
  | some classifier, some v => v.groups? classifier.missing
  | _, _ => none

/-- The values of the first input and the groups of the second. -/
def crossSection? (t : Term) (grouped : Bool) (assets : Nat) (seen : List Sight) :
    Option (List Float × Option (List (Option Int))) := do
  let vs ← Sight.rows? seen
  let values ← t.firstNumbers? assets vs
  if grouped then return (values, some (← t.secondGroups? vs))
  else return (values, none)

/-- The only input, and its missing value. -/
def single? (t : Term) (seen : List Sight) : Option (View × Scalar) := do
  match ← Sight.rows? seen, t.inputs with
  | v :: _, input :: _ => some (v, input.missing)
  | _, _ => none

/-- The values of one row before the type is compared with that of the missing value. -/
def values? (t : Term) (date : Date) (sids : List Sid) (seen : List Sight) :
    Option (Dtype × List Scalar) :=
  match t.kind with
  | .assetExists | .column _ => none
  | .constant value => some (value.dtype, sids.map fun _ => value)
  | .staticAssets keep => some (.bool, sids.map fun s => .bool (keep.contains s))
  | .latest => do
    match ← Sight.windows? seen with
    | [] => none
    | v :: _ =>
      if v.cells.nrows = 0 then none else some (v.dtype, v.cells.row (v.cells.nrows - 1))
  | .window k => do
    let gs ← t.numbers? (← Sight.windows? seen)
    let xs := k.compute gs
    some (ofFloats t.dtype ((List.range sids.length).map fun j => xs.getD j nan))
  | .custom k => do
    match k.compute date sids ((← Sight.windows? seen).map View.toBlock) with
    | .error _ => none
    | .ok values =>
      if values.length ≠ sids.length || values.dtype ≠ t.dtype then none
      else some (t.missing.dtype, values.toScalars.map fun x =>
        (x.cast? t.missing.dtype).getD t.missing)
  | .expression e => do
    let gs ← t.numbers? (← Sight.rows? seen)
    some (ofFloats t.dtype ((List.range sids.length).map fun j =>
      e.evalCell fun i => (gs[i]?.bind (·.get? 0 j)).getD nan))
  | .rank method ascending grouped => do
    let (values, groups) ← t.crossSection? grouped sids.length seen
    some (.float64, (Stats.across (Stats.rank method ascending) values groups).map .float)
  | .transform .demean grouped => do
    let (values, groups) ← t.crossSection? grouped sids.length seen
    some (.float64, (Stats.across Stats.demean values groups).map .float)
  | .transform .zscore grouped => do
    let (values, groups) ← t.crossSection? grouped sids.length seen
    some (.float64, (Stats.across Stats.zscore values groups).map .float)
  | .quantiles bins => do
    let (values, _) ← t.crossSection? false sids.length seen
    some (.int64, (Stats.quantiles bins values).map .int)
  | .percentileBetween low high => do
    let (values, _) ← t.crossSection? false sids.length seen
    some (.bool, (Evaluate.between low high values).map .bool)
  | .nullCheck negate => do
    let (v, missing) ← t.single? seen
    some (.bool, (v.cells.row 0).map fun x => .bool (Scalar.isAbsent missing x != negate))
  | .fillMissing value => do
    let (v, missing) ← t.single? seen
    if value.dtype ≠ v.dtype then none
    else some (v.dtype, (v.cells.row 0).map fun x => if Scalar.isAbsent missing x then value else x)
  | .labelTest test => do
    let (v, missing) ← t.single? seen
    let holds ← test.holds? v.dtype
    some (.bool, (v.cells.row 0).map fun x => .bool (holds x && !Scalar.isAbsent missing x))

/-- The values of one row, for the assets that take part in it. -/
def row? (t : Term) (date : Date) (sids : List Sid) (seen : List Sight) : Option (List Scalar) := do
  if seen.length ≠ t.inputs.length then none
  else
    let (dtype, values) ← t.values? date sids seen
    if dtype = t.missing.dtype then some values else none

end Term
end AsOf
