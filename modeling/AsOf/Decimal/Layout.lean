import AsOf.Decimal.Shortest

/-!
# Written forms of a double

A `Layout` says how chosen digits are written: where positional notation ends,
whether a whole number keeps a point, how an exponent is signed. Three layouts
are in use: `plain` for messages and tables, `exported` for exported records,
`cast` for numbers that become labels. `fixed` writes a given number of places,
the exact value rounded with ties to even.
-/
namespace AsOf.Decimal

/-- How the digits of a number are written. -/
structure Layout where
  tie : Tie
  /-- The least leading exponent that is written positionally, if there is one. -/
  lowest : Option Int
  /-- The least leading exponent above it that is not, if there is one. -/
  highest : Option Int
  /-- A whole number in positional notation ends in `.0`. -/
  pointZero : Bool
  /-- A positive exponent carries its sign. -/
  plusSign : Bool

/-- Never an exponent, no `.0`; a half goes up. -/
def plain : Layout := ⟨.up, none, none, false, false⟩

/-- Positional from `1e-5` below `1e16`, always with a point or an exponent. -/
def exported : Layout := ⟨.toEven, some (-5), some 16, true, true⟩

/-- As `exported`, but a positive exponent has no sign. -/
def cast : Layout := ⟨.toEven, some (-5), some 16, true, false⟩

/-- The characters of some digits. -/
def text (ds : List Nat) : String := String.ofList (ds.map Nat.digitChar)

def zeros (n : Nat) : String := String.ofList (List.replicate n '0')

/-- Digits with the point placed behind the digit of weight one. -/
def positional (pointZero : Bool) (d : Digits) : String :=
  let whole := d.exponent + 1
  if whole ≤ 0 then "0." ++ zeros (-whole).toNat ++ text d.digits
  else
    let n := whole.toNat
    if d.digits.length ≤ n then
      text d.digits ++ zeros (n - d.digits.length) ++ if pointZero then ".0" else ""
    else text (d.digits.take n) ++ "." ++ text (d.digits.drop n)

/-- One digit, the others behind a point, and the exponent. -/
def scientific (plusSign : Bool) (d : Digits) : String :=
  let head := text (d.digits.take 1)
  let tail := d.digits.drop 1
  let body := if tail.isEmpty then head else head ++ "." ++ text tail
  let sign := if d.exponent < 0 then "-" else if plusSign then "+" else ""
  body ++ "e" ++ sign ++ toString d.exponent.natAbs

/-- Whether the layout writes a leading exponent positionally. -/
def Layout.isPositional (l : Layout) (exponent : Int) : Bool :=
  l.lowest.all (· ≤ exponent) && l.highest.all (exponent < ·)

def sign (negative : Bool) : String := if negative then "-" else ""

/-- The text of a double in a layout. -/
def Layout.write (l : Layout) (x : Float) : String :=
  match parts x with
  | .nan => "NaN"
  | .infinite negative => sign negative ++ "inf"
  | .zero negative => sign negative ++ if l.pointZero then "0.0" else "0"
  | .finite negative m q low =>
    let d := shortest l.tie m q low
    sign negative ++
      if l.isPositional d.exponent then positional l.pointZero d else scientific l.plusSign d

/-- `num / den` to the nearest natural, a half to the even neighbour. -/
def roundDiv (num den : Nat) : Nat :=
  let below := num / den
  let twice := 2 * (num % den)
  if twice < den then below
  else if den < twice then below + 1
  else if below % 2 = 0 then below else below + 1

/-- A natural count of units of `10 ^ -places`, as text. -/
def placed (places n : Nat) : String :=
  let ds := Nat.toDigits 10 n
  let ds := List.replicate (places + 1 - ds.length) '0' ++ ds
  String.ofList (ds.take (ds.length - places)) ++ "." ++ String.ofList (ds.drop (ds.length - places))

/-- The exact value of a double with a fixed number of places. -/
def fixed (places : Nat) (x : Float) : String :=
  match parts x with
  | .nan => "NaN"
  | .infinite negative => sign negative ++ "inf"
  | .zero negative => sign negative ++ placed places 0
  | .finite negative m q _ =>
    let s := (Scaled.ofBinary m q).shift (-places)
    sign negative ++ placed places (roundDiv s.num s.den)

end AsOf.Decimal
