import AsOf.Scalar
import AsOf.Array.Label

/-!
# Blocks of typed cells

A `Block` is a grid of cells of one type, sessions by assets. What a missing
cell is depends on a missing value given from outside: `isMissing` finds the
cells that hold it, `whereMask` writes it, `asFloat?` reads a block as floats
with NaN for it. A NaN, a datetime that is not a time and an absent label are
missing whatever the missing value.
-/
namespace AsOf

/-- A grid of cells of one type. -/
inductive Block where
  | floats (g : Grid Float)
  | ints (g : Grid Int64)
  | bools (g : Grid Bool)
  | times (g : Grid Int64)
  | labels (a : Labels)

namespace Block

def dtype : Block → Dtype
  | floats _ => .float64
  | ints _ => .int64
  | bools _ => .bool
  | times _ => .datetime
  | labels _ => .categorical

/-- Rows and columns. -/
def shape : Block → Nat × Nat
  | floats g => g.shape
  | ints g | times g => g.shape
  | bools g => g.shape
  | labels a => a.shape

def nrows (b : Block) : Nat := b.shape.1

def ncols (b : Block) : Nat := b.shape.2

/-- The block that holds one value in every cell. -/
def full (value : Scalar) (shape : Nat × Nat) : Block :=
  match value with
  | .float x => floats (.replicate shape x)
  | .int n => ints (.replicate shape n)
  | .bool b => bools (.replicate shape b)
  | .time t => times (.replicate shape t)
  | .label l =>
    if l.isSome && 0 < shape.1 && 0 < shape.2 then
      labels ((Labels.missing shape).fillRegion (0, shape.1 - 1) (0, shape.2 - 1) l)
    else labels (.missing shape)

/-! ## Selecting -/

/-- Applies an operation that moves cells without looking at them. -/
def onGrid (f : {α : Type} → Grid α → Grid α) : Block → Block
  | floats g => floats (f g)
  | ints g => ints (f g)
  | bools g => bools (f g)
  | times g => times (f g)
  | labels a => labels ⟨f a.codes, a.categories⟩

/-- Rows `start` up to, not including, `stop`. -/
def sliceRows (start stop : Nat) : Block → Block := onGrid (Grid.sliceRows start stop)

/-- The rows between two places, which may be counted from the end. -/
def rowsBetween (start stop : UInt64) (b : Block) : Block :=
  b.sliceRows (Grid.place b.nrows start) (Grid.place b.nrows stop)

def selectColumns (cols : List Nat) : Block → Block := onGrid (Grid.selectColumns cols)

def selectRows (rows : List Nat) : Block → Block := onGrid (Grid.selectRows rows)

/-- The value of one cell. -/
def get? (b : Block) (i j : Nat) : Option Scalar :=
  match b with
  | floats g => (g.get? i j).map .float
  | ints g => (g.get? i j).map .int
  | bools g => (g.get? i j).map .bool
  | times g => (g.get? i j).map .time
  | labels a => (a.codes.get? i j).map fun code => .label (a.categories.decode code)

/-! ## As one type -/

def floats? : Block → Option (Grid Float)
  | floats g => some g
  | _ => none

def ints? : Block → Option (Grid Int64)
  | ints g => some g
  | _ => none

def bools? : Block → Option (Grid Bool)
  | bools g => some g
  | _ => none

def times? : Block → Option (Grid Int64)
  | times g => some g
  | _ => none

def labels? : Block → Option Labels
  | labels a => some a
  | _ => none

/-- The cells of a block of Booleans. -/
def intoBools : Block → Except ArrayError (Grid Bool)
  | bools g => .ok g
  | b => .error (.dtypeMismatch .bool b.dtype)

/-- The cells as floats, a missing cell as NaN; labels have no such reading. -/
def asFloat? (missing : Scalar) : Block → Option (Grid Float)
  | floats g =>
    match missing.asFloat? with
    | some m => some (if m.isNaN then g else g.map fun x => if x == m then nan else x)
    | none => some g
  | ints g => some <| g.map fun n =>
      if missing.asInt? == some n then nan else Float.ofInt n.toInt
  | times g => some <| g.map fun t =>
      if t == notATime || missing.asInt? == some t then nan else Float.ofInt t.toInt
  | bools g => some (g.map fun b => if b then 1.0 else 0.0)
  | labels _ => none

/-! ## Missing cells -/

/-- Where a cell holds the missing value or is missing by its type. -/
def isMissing (missing : Scalar) : Block → Grid Bool
  | floats g => g.map fun x => x.isNaN || missing.asFloat?.any (· == x)
  | ints g => g.map fun n => missing.asInt? == some n
  | times g => g.map fun t => t == notATime || missing.asInt? == some t
  | bools g => g.map fun b => missing.asBool? == some b
  | labels a =>
    match missing.asLabel? with
    | some l => a.isMissing.zipWith (· || ·) (a.eqLabel l)
    | none => a.isMissing

/-- Keeps the cells that the mask lets through and puts `missing` elsewhere. -/
def whereMask (mask : Grid Bool) (missing : Scalar) (b : Block) : Except ArrayError Block := do
  if mask.shape ≠ b.shape then throw (.shapeMismatch b.shape mask.shape)
  missing.expect b.dtype
  match b, missing with
  | floats g, .float x => return floats (g.zipWith (fun v keep => if keep then v else x) mask)
  | ints g, .int x => return ints (g.zipWith (fun v keep => if keep then v else x) mask)
  | times g, .time x => return times (g.zipWith (fun v keep => if keep then v else x) mask)
  | bools g, .bool x => return bools (g.zipWith (fun v keep => if keep then v else x) mask)
  | labels a, .label l =>
    let (a, code) := a.intern l
    return labels ⟨a.codes.zipWith (fun v keep => if keep then v else code) mask, a.categories⟩
  | _, _ => throw (.dtypeMismatch b.dtype missing.dtype)

/-! ## Stacking -/

/-- One part under the other; the first decides type and width. -/
def concatRows : List Block → Except ArrayError Block
  | [] => .error (.shapeMismatch (0, 0) (0, 0))
  | first :: rest => do
    let parts := first :: rest
    if let some other := parts.find? (·.dtype != first.dtype) then
      throw (.dtypeMismatch first.dtype other.dtype)
    if let some other := parts.find? (·.ncols != first.ncols) then
      throw (.shapeMismatch (other.nrows, first.ncols) other.shape)
    match first with
    | floats g => return floats (.stack g.ncols (parts.filterMap floats?))
    | ints g => return ints (.stack g.ncols (parts.filterMap ints?))
    | bools g => return bools (.stack g.ncols (parts.filterMap bools?))
    | times g => return times (.stack g.ncols (parts.filterMap times?))
    | labels _ => return labels (← Labels.concatRows (parts.filterMap labels?))

/-- Equal types, shapes and cells; a NaN cell differs from itself. -/
def same : Block → Block → Bool
  | floats a, floats b => a == b
  | ints a, ints b => a == b
  | bools a, bools b => a == b
  | times a, times b => a == b
  | labels a, labels b => a == b
  | _, _ => false

instance : BEq Block := ⟨same⟩

end Block
end AsOf
