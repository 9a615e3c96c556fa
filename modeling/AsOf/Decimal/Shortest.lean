/-!
# Shortest decimals of a double

A finite positive double is `m * 2 ^ q` for naturals `m` and an integer `q`.
The reals that round to it form an interval around it, whose ends belong to it
exactly when `m` is even. `shortest` finds the fewest decimal digits that denote
a point of that interval: for 1, 2, ... 17 digits it tests the two neighbours of
the value on the decimal grid of that precision, in exact arithmetic, and takes
the first grid with a hit; of two hits the nearer, and an exact tie is settled
by the caller's rule.

`Scaled` holds an exact positive rational `num / den`.
-/
namespace AsOf.Decimal

/-- A double with its sign taken off. -/
inductive Parts where
  | nan
  | infinite (negative : Bool)
  | zero (negative : Bool)
  /-- `m * 2 ^ q`; `lowestOfBinade` when the gap below is half the gap above. -/
  | finite (negative : Bool) (m : Nat) (q : Int) (lowestOfBinade : Bool)
deriving DecidableEq, Repr

/-- The parts that a bit pattern stands for. -/
def partsOfBits (bits : Nat) : Parts :=
  let negative := bits >>> 63 == 1
  let exponent : Nat := (bits >>> 52) % 0x800
  let fraction : Nat := bits % 0x10000000000000
  if exponent = 2047 then
    if fraction = 0 then .infinite negative else .nan
  else if exponent = 0 then
    if fraction = 0 then .zero negative else .finite negative fraction (-1074) false
  else
    .finite negative (0x10000000000000 + fraction) ((exponent : Int) - 1075) (fraction == 0 && exponent != 1)

/-- The parts of a double. -/
def parts (x : Float) : Parts := partsOfBits x.toBits.toNat

/-! ## Exact scaling -/

/-- A positive rational, `num / den`. -/
structure Scaled where
  num : Nat
  den : Nat
deriving DecidableEq, Repr

/-- `m * 2 ^ q`. -/
def Scaled.ofBinary (m : Nat) (q : Int) : Scaled :=
  ⟨m <<< q.toNat, 1 <<< (-q).toNat⟩

/-- `s / 10 ^ e`. -/
def Scaled.shift (s : Scaled) (e : Int) : Scaled :=
  ⟨s.num * Nat.pow 10 (-e).toNat, s.den * Nat.pow 10 e.toNat⟩

def Scaled.floor (s : Scaled) : Nat := s.num / s.den

/-- The digits of a natural, most significant first. -/
def digitsOf (n : Nat) : List Nat := (Nat.toDigits 10 n).map fun c => c.toNat - 48

/-- Steps down from `k` to the largest exponent whose power of ten is at most `s`. -/
def leadingFrom (s : Scaled) : Nat → Int → Int
  | 0, k => k
  | fuel + 1, k => if 1 ≤ (s.shift k).floor then k else leadingFrom s fuel (k - 1)

/-- The exponent of the leading decimal digit of `m * 2 ^ q`. The start is above
it: `m < 2 ^ 53` and `2 ^ 10 > 10 ^ 3` bound it by the binary length. -/
def leading (m : Nat) (q : Int) : Int :=
  leadingFrom (.ofBinary m q) 40 ((((m.log2 : Int) + q) * 30103).fdiv 100000 + 2)

/-! ## The rounding interval -/

/-- What an exact tie between two shortest candidates becomes. -/
inductive Tie where
  | up
  | toEven
deriving DecidableEq, Repr

/-- Whether `c / 4` of the unit `2 ^ q` lies in the interval of `m * 2 ^ q`, for a
candidate given as the fraction `num / den` of quarter units. -/
def readsBack (m : Nat) (lowestOfBinade : Bool) (num den : Nat) : Bool :=
  let low := (4 * m - if lowestOfBinade then 1 else 2) * den
  let high := (4 * m + 2) * den
  if m % 2 = 0 then low ≤ num && num ≤ high else low < num && num < high

/-- The candidate `c * 10 ^ e` in quarters of the unit `2 ^ q`, as a fraction. -/
def inQuarters (c : Nat) (e q : Int) : Nat × Nat :=
  let p := 2 - q
  ((c * Nat.pow 10 e.toNat) <<< p.toNat, Nat.pow 10 (-e).toNat <<< (-p).toNat)

/-- The point nearest to the value on the grid of step `10 ^ e`, if one reads back. -/
def onGrid (tie : Tie) (m : Nat) (q : Int) (lowestOfBinade : Bool) (e : Int) : Option Nat :=
  let value := (Scaled.ofBinary m q).shift e
  let below := value.floor
  let reads (c : Nat) : Bool :=
    let (num, den) := inQuarters c e q
    c != 0 && readsBack m lowestOfBinade num den
  match reads below, reads (below + 1) with
  | false, false => none
  | true, false => some below
  | false, true => some (below + 1)
  | true, true =>
    let twice := 2 * (value.num % value.den)
    if twice < value.den then some below
    else if value.den < twice then some (below + 1)
    else match tie with
      | .up => some (below + 1)
      | .toEven => some (if below % 2 = 0 then below else below + 1)

/-- Digits and the exponent of the first: `d.ddd * 10 ^ exponent`. -/
structure Digits where
  digits : List Nat
  exponent : Int
deriving DecidableEq, Repr

/-- Drops the zeros at the end. -/
def dropTrailingZeros (ds : List Nat) : List Nat :=
  (ds.reverse.dropWhile (· == 0)).reverse

/-- The digits of `c * 10 ^ e`. -/
def Digits.ofGrid (c : Nat) (e : Int) : Digits :=
  let ds := digitsOf c
  ⟨dropTrailingZeros ds, e + ds.length - 1⟩

/-- Tries one more digit at a time. -/
def shortestFrom (tie : Tie) (m : Nat) (q : Int) (lowestOfBinade : Bool) (lead : Int) :
    Nat → Nat → Digits
  | 0, n => .ofGrid ((Scaled.ofBinary m q).shift (lead - n + 1)).floor (lead - n + 1)
  | fuel + 1, n =>
    match onGrid tie m q lowestOfBinade (lead - n + 1) with
    | some c => .ofGrid c (lead - n + 1)
    | none => shortestFrom tie m q lowestOfBinade lead fuel (n + 1)

/-- The fewest digits that read back as `m * 2 ^ q`. Seventeen always do. -/
def shortest (tie : Tie) (m : Nat) (q : Int) (lowestOfBinade : Bool) : Digits :=
  shortestFrom tie m q lowestOfBinade (leading m q) 17 1

end AsOf.Decimal
