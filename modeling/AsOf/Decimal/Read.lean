import AsOf.Number

/-!
# Reading numbers

`readFloat?` reads a decimal with or without a sign, a point and an exponent;
digits may be wanting on one side of the point. It also reads `nan`, `inf` and
`infinity` in letters of either case. `readInt?` reads a sign and digits. Both
read the whole text or nothing.
-/
namespace AsOf.Decimal

def isDigit (c : Char) : Bool := '0' ≤ c && c ≤ '9'

/-- The natural that some digits denote. -/
def ofDigits (cs : List Char) : Nat := cs.foldl (fun n c => n * 10 + (c.toNat - '0'.toNat)) 0

/-- A sign, if there is one, and the rest; true for a minus. -/
def signed : List Char → Bool × List Char
  | '-' :: cs => (true, cs)
  | '+' :: cs => (false, cs)
  | cs => (false, cs)

/-- The integer that a sign and digits denote. -/
def readInt? (s : String) : Option Int :=
  let (negative, cs) := signed s.toList
  if cs.isEmpty || !cs.all isDigit then none
  else some (if negative then -Int.ofNat (ofDigits cs) else ofDigits cs)

/-- Nothing, or a mark and digits with or without a sign. -/
def exponent? : List Char → Option Int
  | [] => some 0
  | c :: cs =>
    if c = 'e' || c = 'E' then readInt? (String.ofList cs) else none

/-- `m * 10 ^ e` to the nearest double. -/
def ofScientific (m : Nat) (e : Int) : Float :=
  let size := (Nat.toDigits 10 m).length
  if m = 0 || e + size < -400 then 0.0
  else if 400 < e + size then 1.0 / 0.0
  else Float.ofScientific m (e < 0) e.natAbs

/-- A decimal without a sign. -/
def unsigned? (cs : List Char) : Option Float := do
  let whole := cs.takeWhile isDigit
  let (part, cs) := match cs.dropWhile isDigit with
    | '.' :: cs => (cs.takeWhile isDigit, cs.dropWhile isDigit)
    | cs => ([], cs)
  if whole.isEmpty && part.isEmpty then none
  let e ← exponent? cs
  return ofScientific (ofDigits (whole ++ part)) (e - part.length)

def readFloat? (s : String) : Option Float :=
  let (negative, cs) := signed s.toList
  let word := String.ofList (cs.map Char.toLower)
  let size? := if word = "nan" then some nan
    else if word = "inf" || word = "infinity" then some (1.0 / 0.0)
    else unsigned? cs
  size?.map fun x => if negative then -x else x

end AsOf.Decimal
