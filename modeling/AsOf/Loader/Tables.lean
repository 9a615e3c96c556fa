import AsOf.Calendar.Search
import AsOf.Loader.Basic
import AsOf.Named

/-!
# Columns held as tables

`Tables` holds a table of cells for each column, all over the same days and
assets, and for each column the restatements of its history. A request is
answered by picking the rows and columns that it names; what the tables do not
cover is missing. A restatement becomes an adjustment keyed at the first
requested day on which it is known; restatements that become known later, or
that concern no requested day or asset, are left out.
-/
namespace AsOf

/-- A change to the values of an asset dated `start` to `stop`, known from a day on. -/
structure Restatement where
  sid : Sid
  op : AdjustmentOp
  start : Date
  stop : Date
  known : Date

namespace Restatement

/-- Every value before a day times a ratio. -/
def split (sid : Sid) (ratio : Float) (known : Date) : Restatement :=
  ⟨sid, .multiply ratio, .earliest, known.previous, known⟩

/-- The adjustment of some requested days and assets, and its key. -/
def keyed? (r : Restatement) (dates : Array Date) (sids : List Sid) :
    Except ArrayError (Option (Nat × Adjustment)) :=
  match sids.idxOf? r.sid with
  | none => .ok none
  | some col => do
    let key := partitionPoint (· < r.known) dates
    let first := partitionPoint (· < r.start) dates
    let stop := partitionPoint (· ≤ r.stop) dates
    if key = dates.size || stop ≤ first then return none
    return some (key, ← Adjustment.mk? (first, stop - 1) (col, col) r.op)

end Restatement

/-- A table and its restatements, in the order in which they came. -/
structure Table where
  values : Block
  restatements : List Restatement

/-- Tables over common days and assets. -/
structure Tables where
  dates : List Date
  sids : List Sid
  tables : Named Table

namespace Tables

/-- Tables without columns. -/
def ofAxes (dates : List Date) (sids : List Sid) : Tables := ⟨dates, sids, []⟩

/-- The name under which the table of a column is kept. -/
def key (c : Column) : String := c.dataset ++ "." ++ c.name

def shape (t : Tables) : Nat × Nat := (t.dates.length, t.sids.length)

def has (t : Tables) (c : Column) : Bool := (t.tables.get? (key c)).isSome

/-- Keeps a table for a column, instead of one that it had. -/
def addColumn (t : Tables) (c : Column) (values : Block) : Except LoadError Tables := do
  if values.shape ≠ t.shape then throw (.shape c.qualifiedName t.shape values.shape)
  (c.missing.expect values.dtype).mapError .array
  return { t with tables := t.tables.insert (key c) ⟨values, []⟩ }

/-- Adds a restatement behind those that a column has. -/
def restate (t : Tables) (c : Column) (r : Restatement) : Except LoadError Tables := do
  match t.tables.get? (key c) with
  | none => throw (.noData c.qualifiedName)
  | some table =>
    if let .overwriteRows _ := r.op then
      throw (.array (.incompatibleAdjustment r.op.name table.values.dtype))
    (r.op.checkDtype table.values.dtype).mapError .array
    return { t with
      tables := t.tables.insert (key c) { table with restatements := table.restatements ++ [r] } }

/-! ## Answering a request -/

/-- The last place of an item. -/
def lastIndex? {α : Type} [BEq α] (x : α) (xs : List α) : Option Nat :=
  (xs.zipIdx.filter (·.1 == x)).getLast?.map (·.2)

/-- The requested cells of a table. -/
def gather (t : Tables) (values : Block) (r : Request) (missing : Scalar) :
    Except ArrayError Block :=
  if values.nrows = 0 || values.ncols = 0 then .ok (.full missing r.shape)
  else
    let rows := (r.dates.map (lastIndex? · t.dates)).toArray
    let cols := (r.sids.map (lastIndex? · t.sids)).toArray
    let taken := (values.selectRows (rows.toList.map (·.getD 0))).selectColumns
      (cols.toList.map (·.getD 0))
    let present := Grid.ofFn rows.size cols.size fun i j => rows[i].isSome && cols[j].isSome
    taken.whereMask present missing

/-- The requested part of the history of a table. -/
def historyOf (t : Tables) (table : Table) (r : Request) (missing : Scalar) :
    Except ArrayError History := do
  let block ← t.gather table.values r missing
  let keyed ← table.restatements.filterMapM fun x => x.keyed? r.dates.toArray r.sids
  History.mk? block (.ofList keyed) missing

/-- The requested histories. -/
def load (t : Tables) (r : Request) : Except LoadError Loaded :=
  r.columns.foldlM (fun out c =>
    match t.tables.get? (key c) with
    | none => .error (.noData c.qualifiedName)
    | some table => do
      let h ← (t.historyOf table r c.missing).mapError .array
      return out.insert c h) []

end Tables
end AsOf
