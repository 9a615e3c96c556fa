import AsOf.Number

/-!
# Ranks of a cross-section

The present values of a row (those that are not NaN) are put in order, equal
values by position. `rank` numbers them by one of five methods, which differ
only in what tied values get; a missing value has no rank. Sorting goes by
`orderKey`, ties by float equality, so the two zeros tie but sort apart.
-/
namespace AsOf.Stats

/-- What tied values get. -/
inductive RankMethod where
  /-- One place each, in their order. -/
  | ordinal
  /-- The mean of their places. -/
  | average
  /-- The first of their places. -/
  | min
  /-- The last of their places. -/
  | max
  /-- The number of the tie, counted over distinct values. -/
  | dense
deriving DecidableEq, Repr

/-- A value and where it stands in the row. -/
structure Entry where
  index : Nat
  value : Float

/-- The present values with their positions. -/
def present (values : List Float) : List Entry :=
  (values.zipIdx.filter fun (v, _) => !v.isNaN).map fun (v, i) => ⟨i, v⟩

/-- The order of ranking: by value, then by position. -/
def precedes (ascending : Bool) (a b : Entry) : Bool :=
  let ka := if ascending then orderKey a.value else -orderKey a.value
  let kb := if ascending then orderKey b.value else -orderKey b.value
  ka < kb || (ka == kb && a.index ≤ b.index)

/-- The present values in the order of ranking. -/
def ordered (ascending : Bool) (values : List Float) : List Entry :=
  (present values).mergeSort (precedes ascending)

/-- Maximal runs of equal values. -/
def ties (entries : List Entry) : List (List Entry) :=
  entries.splitBy fun a b => a.value == b.value

/-- Ranks of one run of ties: `start` values and `runs` runs come before it. -/
def rankRun (method : RankMethod) (start runs : Nat) (run : List Entry) : List (Nat × Float) :=
  let stop := start + run.length
  run.zipIdx.map fun (e, offset) =>
    (e.index, match method with
      | .ordinal => ofCount (start + offset + 1)
      | .average => ofCount (start + stop + 1) / 2.0
      | .min => ofCount (start + 1)
      | .max => ofCount stop
      | .dense => ofCount (runs + 1))

/-- Ranks of all runs, by position in the row. -/
def rankRuns (method : RankMethod) (start runs : Nat) : List (List Entry) → List (Nat × Float)
  | [] => []
  | run :: rest =>
    rankRun method start runs run ++ rankRuns method (start + run.length) (runs + 1) rest

/-- A row of `n` values, NaN where none is given. -/
def scatter (n : Nat) (cells : List (Nat × Float)) : List Float :=
  (cells.foldl (fun (a : Array Float) (i, x) => a.setIfInBounds i x)
    (Array.replicate n nan)).toList

/-- The rank of each value; NaN for NaN. -/
def rank (method : RankMethod) (ascending : Bool) (values : List Float) : List Float :=
  scatter values.length (rankRuns method 0 0 (ties (ordered ascending values)))

end AsOf.Stats
