import AsOf.Grid
import AsOf.Quantity
import AsOf.Scalar

/-!
# Window kernels

A `WindowKernel` turns a window of each of its inputs into one number an asset.
It looks at one asset at a time: `apply` takes the columns of that asset, oldest
session first, and `compute` goes over the assets. Missing cells are NaN; a
kernel that answers a yes-or-no question yields one or zero.
-/
namespace AsOf

/-- What a windowed term computes. -/
inductive WindowKernel where
  | simpleMovingAverage
  | exponentialMovingAverage (decay : Param)
  | returns
  | averageDollarVolume
  | vwap
  | annualizedVolatility (factor : Param)
  | maxDrawdown
  | allPresent
  | all
  | any
  | atLeast (n : Nat)
deriving DecidableEq, Repr

namespace WindowKernel
open Quantity (present larger)

def name : WindowKernel → String
  | simpleMovingAverage => "SimpleMovingAverage"
  | exponentialMovingAverage _ => "ExponentialWeightedMovingAverage"
  | returns => "Returns"
  | averageDollarVolume => "AverageDollarVolume"
  | vwap => "VWAP"
  | annualizedVolatility _ => "AnnualizedVolatility"
  | maxDrawdown => "MaxDrawdown"
  | allPresent => "AllPresent"
  | all => "All"
  | any => "Any"
  | atLeast _ => "AtLeastN"

def dtype : WindowKernel → Dtype
  | allPresent | all | any | atLeast _ => .bool
  | _ => .float64

/-- Whether the values stay the same when history is restated. -/
def windowSafe : WindowKernel → Bool
  | returns | allPresent | all | any | atLeast _ => true
  | _ => false

/-- The shortest window. -/
def minimumWindow : WindowKernel → UInt64
  | returns => 2
  | _ => 1

/-- How many inputs there are. -/
def arity : WindowKernel → Nat
  | averageDollarVolume | vwap => 2
  | _ => 1

/-! ## One column -/

/-- The mean of the present values; NaN without any. -/
def meanPresent (xs : List Float) : Float :=
  let ps := present xs
  if ps.isEmpty then nan else ps.foldl (· + ·) 0.0 / ofCount ps.length

/-- The standard deviation of the present values; NaN without any. -/
def deviationPresent (xs : List Float) : Float :=
  let mean := meanPresent xs
  let ps := present xs
  if ps.isEmpty then nan
  else (ps.foldl (fun s v => s + (v - mean) * (v - mean)) 0.0 / ofCount ps.length).sqrt

/-- The mean weighted by powers of `decay`, the newest value weighing one. -/
def decayed (decay : Float) (xs : List Float) : Float :=
  let weighted := (xs.zipIdx.filter fun (v, _) => !v.isNaN).map fun (v, i) =>
    (power decay (xs.length - 1 - i), v)
  let (num, den) := weighted.foldl (fun (num, den) (w, v) => (num + w * v, den + w)) (0.0, 0.0)
  if den == 0.0 then nan else num / den

/-- The largest fall from a peak, relative to the peak; missing without present values. -/
def drawdown {α : Type} [Quantity α] (xs : List α) : α :=
  ((present xs).foldl (fun (peak, worst) v =>
    let peak := larger peak v
    (peak, larger worst ((peak - v) / peak))) (Quantity.missing, Quantity.missing)).2

/-- The last value relative to the first. -/
def relativeChange (xs : List Float) : Float :=
  let first := xs.headD nan
  (xs.getLastD nan - first) / first

/-- The mean over all sessions of price times volume, where both are present. -/
def dollarVolume (prices volumes : List Float) : Float :=
  sum (present (prices.zipWith (· * ·) volumes)) / ofCount prices.length

/-- The mean price weighted by volume. -/
def weightedPrice (prices volumes : List Float) : Float :=
  let (pv, volume) := (prices.zip volumes).foldl (fun (pv, volume) (p, v) =>
    if p.isNaN || v.isNaN then (pv, volume) else (pv + p * v, volume + v)) (0.0, 0.0)
  pv / volume

/-- The number for one asset: `x` is its column in the first window and `y` in the second. -/
def apply (k : WindowKernel) (x y : List Float) : Float :=
  match k with
  | simpleMovingAverage => meanPresent x
  | exponentialMovingAverage decay => decayed decay.toFloat x
  | returns => relativeChange x
  | averageDollarVolume => dollarVolume x y
  | vwap => weightedPrice x y
  | annualizedVolatility factor => deviationPresent x * factor.toFloat.sqrt
  | maxDrawdown => drawdown x
  | allPresent => truth (x.all fun v => !v.isNaN)
  | all => truth (x.all isTrue)
  | any => truth (x.any isTrue)
  | atLeast n => truth (n ≤ x.countP isTrue)

/-- One number for each asset of the first window. -/
def compute (k : WindowKernel) (windows : List (Grid Float)) : List Float :=
  match windows with
  | [] => []
  | first :: rest =>
    (List.range first.ncols).map fun c =>
      k.apply (first.column c) ((rest.head?.map (·.column c)).getD [])

end WindowKernel
end AsOf
