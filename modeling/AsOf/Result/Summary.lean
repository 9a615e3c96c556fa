import AsOf.Decimal.Layout
import AsOf.Quantity
import AsOf.Result.Basic

/-!
# Summaries

What the columns of a result hold: how many values, how many missing, and for
numbers and truth values the mean, the least and the greatest.
-/
namespace AsOf

/-- What a column holds. -/
structure Summary where
  name : String
  dtype : Dtype
  count : Nat
  missing : Nat
  mean : Option Float
  least : Option Float
  greatest : Option Float

namespace Summary

/-- The present values as numbers, for a column that has a mean. -/
def numbers? : Values → Option (List Float)
  | .floats xs => some (xs.filter fun x => !x.isNaN)
  | .ints xs => some (xs.map fun n => Float.ofInt n.toInt)
  | .bools xs => some (xs.map truth)
  | _ => none

/-- How many values are present. -/
def countPresent (v : Values) : Nat :=
  match v with
  | .times xs => xs.countP (· != notATime)
  | .labels xs => xs.countP Option.isSome
  | _ => ((numbers? v).getD []).length

/-- The summary of a column. -/
def ofValues (name : String) (v : Values) : Summary :=
  let count := countPresent v
  let missing := v.length - count
  match numbers? v with
  | some (x :: xs) =>
    let xs := x :: xs
    { name, dtype := v.dtype, count, missing
      mean := some (sum xs / ofCount xs.length)
      least := some (xs.foldl Quantity.smaller (1.0 / 0.0))
      greatest := some (xs.foldl Quantity.larger (-1.0 / 0.0)) }
  | _ => { name, dtype := v.dtype, count, missing, mean := none, least := none, greatest := none }

/-- Four places, or a dash. -/
def number : Option Float → String
  | some x => Decimal.fixed 4 x
  | none => "-"

/-- One line. -/
def text (s : Summary) : String :=
  s.name ++ " (" ++ s.dtype.name ++ s!"): count={s.count}, missing={s.missing}, mean=" ++
    number s.mean ++ ", min=" ++ number s.least ++ ", max=" ++ number s.greatest

/-- A line of the table. -/
def tableLine (name dtype count missing mean least greatest : String) : String :=
  Text.padRight 24 name ++ " " ++ Text.padLeft 14 dtype ++ " " ++ Text.padLeft 8 count ++ " " ++
    Text.padLeft 8 missing ++ " " ++ Text.padLeft 12 mean ++ " " ++ Text.padLeft 12 least ++
    " " ++ Text.padLeft 12 greatest ++ "\n"

/-- All summaries as a table. -/
def table (summaries : List Summary) : String :=
  tableLine "Column" "DType" "Count" "Missing" "Mean" "Min" "Max" ++
    String.ofList (List.replicate 96 '-') ++ "\n" ++
    String.join (summaries.map fun s =>
      tableLine s.name s.dtype.name (toString s.count) (toString s.missing) (number s.mean)
        (number s.least) (number s.greatest))

end Summary

/-- The summary of every column. -/
def Result.summaries (r : Result) : List Summary :=
  r.columns.map fun (name, v) => .ofValues name v

end AsOf
