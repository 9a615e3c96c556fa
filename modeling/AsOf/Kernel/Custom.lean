import AsOf.Array.Block
import AsOf.Calendar.Date
import AsOf.Sid

/-!
# Custom kernels

A `RowKernel` is a computation from outside the library: from a date, the assets
at hand and a window of each input it makes one value for every asset, or fails
with a text. Two kernels are the same when their family, name, parameters and
result type are; what they compute is taken to follow from these.
-/
namespace AsOf

/-- One value for each asset. -/
inductive RowValues where
  | floats (xs : List Float)
  | ints (xs : List Int64)
  | bools (xs : List Bool)

namespace RowValues

def length : RowValues → Nat
  | floats xs => xs.length
  | ints xs => xs.length
  | bools xs => xs.length

def dtype : RowValues → Dtype
  | floats _ => .float64
  | ints _ => .int64
  | bools _ => .bool

def toScalars : RowValues → List Scalar
  | floats xs => xs.map .float
  | ints xs => xs.map .int
  | bools xs => xs.map .bool

end RowValues

/-- A computation over the windows of one row. -/
structure RowKernel where
  /-- What tells apart two implementations of one name. -/
  family : String
  name : String
  params : List Scalar
  dtype : Dtype
  missing : Option Scalar
  windowSafe : Bool
  compute : Date → List Sid → List Block → Except String RowValues

namespace RowKernel

def same (a b : RowKernel) : Bool :=
  a.family == b.family && a.name == b.name && a.params == b.params && a.dtype == b.dtype

instance : BEq RowKernel := ⟨same⟩

end RowKernel
end AsOf
