/-!
# The logarithm of one plus a number

`log1p x` is `ln (1 + x)` without the loss of writing `1 + x` first. The
argument is brought to `2 ^ k * (1 + f)` with `1 + f` between half the square
root of two and the square root of two, the rounding of `1 + x` is carried along
as a correction, and `ln (1 + f)` is a polynomial in `f / (2 + f)`.
-/
namespace AsOf.Log1p

/-- The upper half of the bits of a double. -/
def highWord (x : Float) : Nat := x.toBits.toNat >>> 32

/-- A double with its upper half replaced. -/
def withHighWord (x : Float) (high : Nat) : Float :=
  Float.ofBits (UInt64.ofNat (high <<< 32 + x.toBits.toNat % 0x100000000))

/-- The logarithm of two as a short head and a tail. -/
def ln2Head : Float := 6.93147180369123816490e-01
def ln2Tail : Float := 1.90821492927058770002e-10

/-- An argument `2 ^ k * (1 + f)` less a `correction`; `tiny` when `f` is so small
that a square of it is enough. -/
structure Reduced where
  k : Float
  f : Float
  correction : Float
  tiny : Bool

/-- Reduces an argument whose sum with one is a normal double. -/
def reduce (x : Float) : Reduced :=
  let large : Bool := 9007199254740992.0 ≤ x
  let u := if large then x else 1.0 + x
  let k : Int := Int.ofNat (highWord u >>> 20) - 1023
  let correction := if large then 0.0 else (if 0 < k then 1.0 - (u - x) else x - (u - 1.0)) / u
  let fraction := highWord u % 0x100000
  if fraction < 0x6a09e then
    ⟨Float.ofInt k, withHighWord u (fraction + 0x3ff00000) - 1.0, correction, fraction == 0⟩
  else
    ⟨Float.ofInt (k + 1), withHighWord u (fraction + 0x3fe00000) - 1.0, correction,
      (0x100000 - fraction) / 4 == 0⟩

/-- The series of `ln (1 + f)` behind `f - f * f / 2`, in `z = (f / (2 + f)) ^ 2`. -/
def series (z : Float) : Float :=
  let z2 := z * z
  let z4 := z2 * z2
  let r1 := z * 6.666666666666735130e-01
  let r2 := 3.999999999940941908e-01 + z * 2.857142874366239149e-01
  let r3 := 2.222219843214978396e-01 + z * 1.818357216161805012e-01
  let r4 := 1.531383769920937332e-01 + z * 1.479819860511658591e-01
  r1 + z2 * r2 + z4 * r3 + z4 * z2 * r4

/-- The logarithm of a reduced argument. -/
def ofReduced (r : Reduced) : Float :=
  let half := 0.5 * r.f * r.f
  if r.tiny then
    if r.f == 0.0 then
      if r.k == 0.0 then 0.0 else r.k * ln2Head + (r.correction + r.k * ln2Tail)
    else
      let rest := half * (1.0 - 0.66666666666666666 * r.f)
      if r.k == 0.0 then r.f - rest
      else r.k * ln2Head - ((rest - (r.k * ln2Tail + r.correction)) - r.f)
  else
    let s := r.f / (2.0 + r.f)
    let rest := series (s * s)
    if r.k == 0.0 then r.f - (half - s * (half + rest))
    else r.k * ln2Head - ((half - (s * (half + rest) + (r.k * ln2Tail + r.correction))) - r.f)

end AsOf.Log1p

namespace AsOf

/-- `ln (1 + x)`. -/
def log1p (x : Float) : Float :=
  let high := Log1p.highWord x
  let magnitude := high % 0x80000000
  let negative : Bool := 0x80000000 ≤ high
  if 0x7ff00000 ≤ magnitude && !negative then x + x
  else if negative && 0x3ff00000 ≤ magnitude then
    if x == -1.0 then -1.0 / 0.0 else 0.0 / 0.0
  else if magnitude < 0x3c900000 then x
  else if magnitude < 0x3e200000 then x - x * x * 0.5
  else if (!negative && magnitude < 0x3fda827a) || (negative && magnitude ≤ 0x3fd2bec3) then
    Log1p.ofReduced ⟨0.0, x, 0.0, false⟩
  else Log1p.ofReduced (Log1p.reduce x)

end AsOf
