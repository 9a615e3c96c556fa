import AsOf.Quantity

/-!
# Percentiles and quantile buckets

`percentile` interpolates between neighbours of a sorted row. `quantiles` cuts a
row into buckets at equally spaced percentiles; a missing value is in bucket -1.
-/
namespace AsOf.Stats
open Quantity (less ofNat)

variable {α : Type} [Quantity α]

/-- The values that are not missing, ascending; infinities stay. -/
def sortedPresent (values : List α) : List α :=
  (Quantity.present values).mergeSort Quantity.precedes

/-- Where `q` percent of the way lies among `n` places, as a fraction of places. -/
def position (n : Nat) (q : α) : α :=
  Quantity.clamp (ofNat 0) (ofNat 1) (q / ofNat 100) * ofNat (n - 1)

/-- The value at `q` percent of a sorted row, linear between neighbours. -/
def percentile (sorted : List α) (q : α) : α :=
  match sorted with
  | [] => Quantity.missing
  | [x] => x
  | _ =>
    let position := position sorted.length q
    let low := Quantity.floor position
    let a := sorted.getD low Quantity.missing
    let b := sorted.getD (Quantity.ceil position) Quantity.missing
    a + (b - a) * (position - ofNat low)

/-- The percentiles that separate the buckets. -/
def edges (sorted : List α) (bins : Nat) : List α :=
  (List.range' 1 (bins - 1)).map fun i => percentile sorted (ofNat 100 * ofNat i / ofNat bins)

/-- The bucket of each value: how many edges it exceeds. -/
def quantiles (bins : Nat) (values : List α) : List Int64 :=
  let sorted := sortedPresent values
  if sorted.isEmpty || bins = 0 then values.map fun _ => -1
  else
    let edges := edges sorted bins
    values.map fun v =>
      if Quantity.isMissing v then -1 else Int64.ofNat (edges.countP fun e => less e v)

end AsOf.Stats
