/-!
# Cell types

Every block of cells holds one of five types. Integers alone have no default
missing value: a column of them must name its own.
-/
namespace AsOf

/-- The type of the cells of a block. -/
inductive Dtype where
  | float64
  | int64
  | bool
  /-- Nanoseconds since 1970, or not a time. -/
  | datetime
  /-- Labels out of a dictionary. -/
  | categorical
deriving DecidableEq, Repr

namespace Dtype

def name : Dtype → String
  | float64 => "float64"
  | int64 => "int64"
  | bool => "bool"
  | datetime => "datetime64[ns]"
  | categorical => "categorical"

def isNumeric : Dtype → Bool
  | float64 | int64 => true
  | _ => false

/-- All cell types. -/
def all : List Dtype := [float64, int64, bool, datetime, categorical]

end Dtype
end AsOf
