import AsOf.Calendar.Date
import AsOf.Decimal.Layout
import AsOf.Decimal.Read
import AsOf.Loader.Error
import AsOf.Number
import AsOf.Sid

/-!
# Columns of a frame

A `Series` is a column of optional cells of one type. It is read as another type
cell by cell: what has no such reading is a null. Only the reading of texts or
days as truth values is refused, unless there is none of them.
-/
namespace AsOf

/-- A column of cells, some of them null. -/
inductive Series where
  | floats (xs : List (Option Float))
  | ints (xs : List (Option Int64))
  | words (xs : List (Option UInt32))
  | bools (xs : List (Option Bool))
  | texts (xs : List (Option String))
  | dates (xs : List (Option Date))

namespace Series

def length : Series → Nat
  | floats xs => xs.length
  | ints xs => xs.length
  | words xs => xs.length
  | bools xs => xs.length
  | texts xs => xs.length
  | dates xs => xs.length

/-! ## Cells -/

/-- A float without its fraction, as an integer. -/
def truncate? (x : Float) : Option Int :=
  match Decimal.parts x with
  | .nan | .infinite _ => none
  | .zero _ => some 0
  | .finite negative m q _ =>
    let size : Nat := if 0 ≤ q then m <<< q.toNat else m >>> (-q).toNat
    some (if negative then -Int.ofNat size else size)

/-- The integers that the cells denote. -/
def toIntegers : Series → List (Option Int)
  | floats xs => xs.map (·.bind truncate?)
  | ints xs => xs.map (·.map Int64.toInt)
  | words xs => xs.map (·.map fun n => Int.ofNat n.toNat)
  | bools xs => xs.map (·.map fun b => if b then 1 else 0)
  | texts xs => xs.map (·.bind Decimal.readInt?)
  | dates xs => xs.map (·.map Date.day)

/-! ## Readings -/

def toInts (s : Series) : List (Option Int64) :=
  s.toIntegers.map (·.bind int64?)

/-- Assets by number; a number with a minus is none. -/
def toSids (s : Series) : List (Option Sid) :=
  match s with
  | texts xs => xs.map fun t =>
      t.bind fun t => if t.startsWith "-" then none else (Decimal.readInt? t).bind Sid.ofInt?
  | s => s.toIntegers.map (·.bind Sid.ofInt?)

def toFloats : Series → List (Option Float)
  | floats xs => xs
  | texts xs => xs.map (·.bind Decimal.readFloat?)
  | s => s.toIntegers.map (·.map Float.ofInt)

def toTexts : Series → List (Option String)
  | floats xs => xs.map (·.map Decimal.cast.write)
  | ints xs => xs.map (·.map toString)
  | words xs => xs.map (·.map toString)
  | bools xs => xs.map (·.map toString)
  | texts xs => xs
  | dates xs => xs.map (·.map Date.text)

/-- Days, read as texts. -/
def toDates (s : Series) : List (Option Date) := s.toTexts.map (·.bind Date.parse?)

/-- The readings of nulls, if there is nothing else. -/
def nullsOr {α β : Type} (xs : List (Option α)) (source : String) :
    Except SourceFault (List (Option β)) :=
  if xs.all Option.isNone then .ok (xs.map fun _ => none)
  else .error (.castUnsupported source "Boolean")

/-- Whether numbers are not zero. -/
def toBools : Series → Except SourceFault (List (Option Bool))
  | floats xs => .ok (xs.map (·.map (· != 0.0)))
  | bools xs => .ok xs
  | texts xs => nullsOr xs "Utf8View"
  | dates xs => nullsOr xs "Date"
  | s => .ok (s.toIntegers.map (·.map (· != 0)))

end Series
end AsOf
