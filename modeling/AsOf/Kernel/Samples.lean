import AsOf.Kernel.Custom

/-!
# Sample kernels

A few custom kernels, for trying out pipelines: they scale or test the newest
values of their first input, count assets or cells, or misbehave. A kernel of
family `B` negates what it scales.
-/
namespace AsOf.RowKernel

/-- The newest row of the first window as floats; NaN for labels or without a window. -/
def newest (sids : List Sid) (windows : List Block) : List Float :=
  let cells := match windows with
    | [] => []
    | b :: _ =>
      match b.asFloat? (.float nan) with
      | some g => g.row (g.nrows - 1)
      | none => []
  (List.range sids.length).map fun i => cells.getD i nan

/-- The computation of a name. -/
def sampleBody (family body : String) (params : List Scalar) (date : Date) (sids : List Sid)
    (windows : List Block) : Except String RowValues :=
  let n := sids.length
  let vs := newest sids windows
  match body with
  | "scale" =>
    let k := ((params.head?).bind Scalar.asFloat?).getD 1.0
    let k := if family == "B" then k * -1.0 else k
    .ok (.floats (vs.map (· * k)))
  | "count" => .ok (.floats (vs.map fun _ => ofCount n))
  | "total" =>
    let total := sum (vs.filter fun v => !v.isNaN)
    .ok (.floats (vs.map fun _ => total))
  | "cells" =>
    let cells := windows.foldl (fun n b => n + b.nrows * b.ncols) 0
    .ok (.ints (vs.map fun _ => Int64.ofNat cells))
  | "sid" => .ok (.ints (sids.map fun s => Int64.ofNat (s.toNat * 100 + date.dayOfMonth)))
  | "positive" => .ok (.bools (vs.map (· > 0.0)))
  | "extra" => .ok (.floats (List.replicate (n + 1) 0.0))
  | _ => .error s!"kernel refused {n} assets"

/-- A kernel with a body of some name. -/
def sample (family name body : String) (params : List Scalar) (dtype : Dtype)
    (missing : Option Scalar) (windowSafe : Bool) : RowKernel :=
  ⟨family, name, params, dtype, missing, windowSafe, sampleBody family body params⟩

/-- Seven for every asset. -/
def plain : RowKernel :=
  ⟨"Plain", "Plain", [], .float64, none, false,
    fun _ sids _ => .ok (.floats (sids.map fun _ => 7.0))⟩

end AsOf.RowKernel
