import AsOf.Array.Error
import AsOf.Number

/-!
# Single values

A `Scalar` is one cell value together with its type. Two scalars are the same
when their types and their bits agree, so that a NaN is the same value as
itself and the two zeros are told apart.

A `Param` is a float that takes part in the identity of a computation. Its zero
has no sign.
-/
namespace AsOf

/-- The datetime cell that is not a time. -/
def notATime : Int64 := Int64.minValue

/-- One value of some cell type. -/
inductive Scalar where
  | float (x : Float)
  | int (n : Int64)
  | bool (b : Bool)
  | time (t : Int64)
  | label (l : Option String)

namespace Scalar

def dtype : Scalar → Dtype
  | float _ => .float64
  | int _ => .int64
  | bool _ => .bool
  | time _ => .datetime
  | label _ => .categorical

/-- Same type and same bits. -/
def same : Scalar → Scalar → Bool
  | float a, float b => a.toBits == b.toBits
  | int a, int b => a == b
  | bool a, bool b => a == b
  | time a, time b => a == b
  | label a, label b => a == b
  | _, _ => false

instance : BEq Scalar := ⟨same⟩

/-- Refuses a value of another type. -/
def expect (s : Scalar) (dtype : Dtype) : Except ArrayError Unit :=
  if s.dtype = dtype then .ok () else .error (.dtypeMismatch dtype s.dtype)

def asFloat? : Scalar → Option Float
  | float x => some x
  | _ => none

/-- The number of an integer or a datetime. -/
def asInt? : Scalar → Option Int64
  | int n | time n => some n
  | _ => none

def asBool? : Scalar → Option Bool
  | bool b => some b
  | _ => none

/-- The label, if the value is one and is not missing. -/
def asLabel? : Scalar → Option String
  | label l => l
  | _ => none

def text : Scalar → String
  | float x => Decimal.plain.write x
  | int n => toString n
  | bool b => toString b
  | time t => if t = notATime then "NaT" else toString t ++ "ns"
  | label (some l) => Text.quote l
  | label none => "None"

end Scalar

/-- The value that stands for a missing cell unless a column names another. -/
def Dtype.defaultMissing? : Dtype → Option Scalar
  | float64 => some (.float nan)
  | int64 => none
  | bool => some (.bool false)
  | datetime => some (.time notATime)
  | categorical => some (.label none)

/-! ## Parameters -/

/-- A float with one zero, known by its bits. -/
structure Param where
  bits : UInt64
deriving DecidableEq, Repr

namespace Param

/-- Both zeros become the positive one. -/
def ofFloat (x : Float) : Param := ⟨(if x == 0.0 then 0.0 else x).toBits⟩

def toFloat (p : Param) : Float := Float.ofBits p.bits

def text (p : Param) : String := Decimal.plain.write p.toFloat

end Param
end AsOf
