import AsOf.Array.Block
import AsOf.Calendar.Date
import AsOf.Named
import AsOf.Result.Error
import AsOf.Sid

/-!
# Results

A `Result` is a table with one row for every session and asset that passed, and
named columns of typed values in the order of their names. `position?` finds a
row by halving, which is right when the rows ascend by date and then by asset.
-/
namespace AsOf

/-- The values of one column. -/
inductive Values where
  | floats (xs : List Float)
  | ints (xs : List Int64)
  | bools (xs : List Bool)
  | times (xs : List Int64)
  | labels (xs : List (Option String))

namespace Values

def empty : Dtype → Values
  | .float64 => floats []
  | .int64 => ints []
  | .bool => bools []
  | .datetime => times []
  | .categorical => labels []

def dtype : Values → Dtype
  | floats _ => .float64
  | ints _ => .int64
  | bools _ => .bool
  | times _ => .datetime
  | labels _ => .categorical

def length : Values → Nat
  | floats xs => xs.length
  | ints xs | times xs => xs.length
  | bools xs => xs.length
  | labels xs => xs.length

/-- The cells of a grid at some places; a place outside the grid has none. -/
def cellsAt {α : Type} (g : Grid α) (cells : List (Nat × Nat)) : List α :=
  cells.filterMap fun (i, j) => g.get? i j

/-- The values of a block at some places; there are no labels outside a block. -/
def gather (b : Block) (cells : List (Nat × Nat)) : Values :=
  match b with
  | .floats g => floats (cellsAt g cells)
  | .ints g => ints (cellsAt g cells)
  | .bools g => bools (cellsAt g cells)
  | .times g => times (cellsAt g cells)
  | .labels a => labels (cells.map fun (i, j) => a.get? i j)

/-- All values, in order. -/
def toScalars : Values → List Scalar
  | floats xs => xs.map .float
  | ints xs => xs.map .int
  | bools xs => xs.map .bool
  | times xs => xs.map .time
  | labels xs => xs.map .label

def get? (v : Values) (i : Nat) : Option Scalar :=
  match v with
  | floats xs => xs[i]?.map .float
  | ints xs => xs[i]?.map .int
  | bools xs => xs[i]?.map .bool
  | times xs => xs[i]?.map .time
  | labels xs => xs[i]?.map .label

/-- The values of both, if they have one type. -/
def append : Values → Values → Except ExportError Values
  | floats a, floats b => .ok (floats (a ++ b))
  | ints a, ints b => .ok (ints (a ++ b))
  | bools a, bools b => .ok (bools (a ++ b))
  | times a, times b => .ok (times (a ++ b))
  | labels a, labels b => .ok (labels (a ++ b))
  | a, b => .error (.columnMismatch (.dtypes b.dtype a.dtype))

/-- Equal types and values; a NaN differs from itself. -/
def same : Values → Values → Bool
  | floats a, floats b => a == b
  | ints a, ints b => a == b
  | bools a, bools b => a == b
  | times a, times b => a == b
  | labels a, labels b => a == b
  | _, _ => false

instance : BEq Values := ⟨same⟩

end Values

/-! ## Tables of columns -/

/-- Rows by date and asset, with named columns. -/
structure Result where
  dates : Array Date
  sids : Array Sid
  columns : Named Values

namespace Result

/-- A result whose parts all have one length. -/
def mk? (dates : List Date) (sids : List Sid) (columns : Named Values) :
    Except ExportError Result := do
  if sids.length ≠ dates.length then
    throw (.lengthMismatch "sid" dates.length sids.length)
  if let some (name, v) := columns.find? fun c => c.2.length != dates.length then
    throw (.lengthMismatch name dates.length v.length)
  return ⟨dates.toArray, sids.toArray, columns⟩

/-- A result without rows. -/
def empty (columns : List (String × Dtype)) : Result :=
  ⟨#[], #[], .ofList (columns.map fun (name, dtype) => (name, .empty dtype))⟩

def length (r : Result) : Nat := r.dates.size

def names (r : Result) : List String := r.columns.names

/-- The values of two results column by column. -/
def appendColumns : Named Values → Named Values → Except ExportError (Named Values)
  | (name, a) :: as, (_, b) :: bs => do
    return (name, ← a.append b) :: (← appendColumns as bs)
  | as, _ => .ok as

/-- The rows of one result below those of another with the same columns. -/
def append (a b : Result) : Except ExportError Result := do
  if a.names ≠ b.names then throw (.columnMismatch (.names a.names b.names))
  return ⟨a.dates ++ b.dates, a.sids ++ b.sids, ← appendColumns a.columns b.columns⟩

/-- The rows of all parts; no parts make a result without rows and columns. -/
def concat : List Result → Except ExportError Result
  | [] => .ok (empty [])
  | first :: rest => rest.foldlM append first

/-- Whether row `i` stands before a date and an asset. -/
def rowBefore (r : Result) (date : Date) (sid : Sid) (i : Nat) : Bool :=
  match r.dates[i]?, r.sids[i]? with
  | some d, some s => d < date || (d == date && s < sid)
  | _, _ => false

/-- Halves the rows from `lo` to `hi` until none is left. -/
def search (before : Nat → Bool) (lo hi : Nat) : Nat :=
  if lo < hi then
    let mid := lo + (hi - lo) / 2
    if before mid then search before (mid + 1) hi else search before lo mid
  else lo
termination_by hi - lo

/-- The row of a date and an asset. -/
def position? (r : Result) (date : Date) (sid : Sid) : Option Nat :=
  let i := search (r.rowBefore date sid) 0 r.length
  if r.dates[i]? = some date && r.sids[i]? = some sid then some i else none

def column? (r : Result) (name : String) : Option Values := r.columns.get? name

/-- The value of a column on a date for an asset. -/
def value? (r : Result) (date : Date) (sid : Sid) (name : String) : Option Scalar := do
  let i ← r.position? date sid
  (← r.column? name).get? i

def same (a b : Result) : Bool :=
  a.dates == b.dates && a.sids == b.sids && a.columns == b.columns

instance : BEq Result := ⟨same⟩

end Result
end AsOf
