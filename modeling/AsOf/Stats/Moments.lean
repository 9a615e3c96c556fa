import AsOf.Number

/-!
# Demeaned and standardised rows

Mean and spread are taken over the present values; a missing value stays
missing, and a row without present values is missing altogether.
-/
namespace AsOf.Stats

/-- Sum and number of the present values of `f`. -/
def presentSum (f : Float → Float) (values : List Float) : Float × Nat :=
  (values.filter fun v => !v.isNaN).foldl (fun (s, n) v => (s + f v, n + 1)) (0.0, 0)

/-- The mean of the present values, if there are any. -/
def mean? (values : List Float) : Option Float :=
  let (total, n) := presentSum id values
  if 0 < n then some (total / ofCount n) else none

/-- The square of the distance from `mean`. -/
def squareFrom (mean v : Float) : Float := (v - mean) * (v - mean)

/-- Distances from the mean. -/
def demean (values : List Float) : List Float :=
  match mean? values with
  | none => values.map fun _ => nan
  | some mean => values.map (· - mean)

/-- Distances from the mean in units of the standard deviation. -/
def zscore (values : List Float) : List Float :=
  match mean? values with
  | none => values.map fun _ => nan
  | some mean =>
    let (squares, n) := presentSum (squareFrom mean) values
    let spread := (squares / ofCount n).sqrt
    values.map fun v => (v - mean) / spread

end AsOf.Stats
