/-!
# Float arithmetic beyond the basic operations

A float is read as a truth value (`isTrue`), counted (`ofCount`), raised to a
whole power by squaring (`power`), put between two whole numbers (`wholeBelow`,
`wholeAbove`) and ordered totally (`orderKey`: the negative zero lies just below
the positive one).

Integers of 64 bits: `int64?` keeps those that fit, `saturate` stops at the ends
of the range.
-/
namespace AsOf

def nan : Float := 0.0 / 0.0

/-- One for true and zero for false. -/
def truth (b : Bool) : Float := if b then 1.0 else 0.0

/-- Neither zero nor NaN. -/
def isTrue (x : Float) : Bool := x != 0.0 && !x.isNaN

/-- A count as a float. -/
def ofCount (n : Nat) : Float := Float.ofNat n

/-- Strictly monotone in the total order of the floats that are not NaN. -/
def orderKey (x : Float) : Int :=
  let bits := x.toBits.toNat
  if bits < 0x8000000000000000 then bits else 0x7fffffffffffffff - bits

/-- `a ^ n` times `r`, by squaring `a` and halving `n`. -/
def powerFrom (r a : Float) (n : Nat) : Float :=
  let r := if n % 2 = 1 then r * a else r
  if n / 2 = 0 then r else powerFrom r (a * a) (n / 2)
termination_by n

/-- `a ^ n` by repeated squaring. -/
def power (a : Float) (n : Nat) : Float := powerFrom 1.0 a n

/-- The sum from the left, starting at the negative zero. -/
def sum (xs : List Float) : Float := xs.foldl (· + ·) (-0.0)

/-- The natural number at or below a float: zero for a negative one, and a word at most. -/
def wholeBelow (x : Float) : Nat := x.toUInt64.toNat

/-- The natural number at or above a float, within the same bounds. -/
def wholeAbove (x : Float) : Nat :=
  let below := wholeBelow x
  if ofCount below < x then min (below + 1) 0xffffffffffffffff else below

/-! ## Integers of 64 bits -/

/-- The integer itself, if 64 bits hold it. -/
def int64? (n : Int) : Option Int64 :=
  if Int64.minValue.toInt ≤ n && n ≤ Int64.maxValue.toInt then some (Int64.ofInt n) else none

/-- The nearest integer of 64 bits. -/
def saturate (n : Int) : Int64 :=
  if n < Int64.minValue.toInt then Int64.minValue
  else if Int64.maxValue.toInt < n then Int64.maxValue
  else Int64.ofInt n

/-- The integer that a float denotes, if it is whole and has 64 bits. -/
def whole? (x : Float) : Option Int64 :=
  if x.floor == x && x ≥ -9223372036854775808.0 && x < 9223372036854775808.0 then
    some x.toInt64
  else none

end AsOf
