import AsOf.Text.Quoted

/-!
# Days

A `Date` is a day of the Gregorian calendar, carried back before its beginning,
known by its distance from the first of January 1970. Dates range from
`earliest` to `latest`. `text` writes year, month and day; `parse?` reads them,
allowing blanks before a number and numbers shorter than written.
-/
namespace AsOf

/-- A day, by its distance from 1970-01-01. -/
structure Date where
  day : Int
deriving DecidableEq, Repr, Hashable

namespace Date

instance : LE Date := ⟨fun a b => a.day ≤ b.day⟩
instance : LT Date := ⟨fun a b => a.day < b.day⟩
instance (a b : Date) : Decidable (a ≤ b) := inferInstanceAs (Decidable (a.day ≤ b.day))
instance (a b : Date) : Decidable (a < b) := inferInstanceAs (Decidable (a.day < b.day))

/-- The first of January of the year -262143. -/
def earliest : Date := ⟨-96465292⟩

/-- The last of December of the year 262142. -/
def latest : Date := ⟨95026236⟩

/-! ## Year, month and day -/

/-- Days from 1970-01-01 to a day, in years that begin in March. -/
def ofCivil (year : Int) (month day : Nat) : Date :=
  let y := if month ≤ 2 then year - 1 else year
  let era := y.fdiv 400
  let yearOfEra := y - era * 400
  let monthFromMarch : Int := if 2 < month then month - 3 else month + 9
  let dayOfYear := (153 * monthFromMarch + 2).fdiv 5 + day - 1
  let dayOfEra := yearOfEra * 365 + yearOfEra.fdiv 4 - yearOfEra.fdiv 100 + dayOfYear
  ⟨era * 146097 + dayOfEra - 719468⟩

/-- Year, month and day. -/
def civil (d : Date) : Int × Nat × Nat :=
  let z := d.day + 719468
  let era := z.fdiv 146097
  let dayOfEra := z - era * 146097
  let yearOfEra := (dayOfEra - dayOfEra.fdiv 1460 + dayOfEra.fdiv 36524 - dayOfEra.fdiv 146096).fdiv 365
  let dayOfYear := dayOfEra - (365 * yearOfEra + yearOfEra.fdiv 4 - yearOfEra.fdiv 100)
  let monthFromMarch := (5 * dayOfYear + 2).fdiv 153
  let day := dayOfYear - (153 * monthFromMarch + 2).fdiv 5 + 1
  let month := if monthFromMarch < 10 then monthFromMarch + 3 else monthFromMarch - 9
  let year := yearOfEra + era * 400
  (if month ≤ 2 then year + 1 else year, month.toNat, day.toNat)

/-- The day with this year, month and day, if there is one in range. -/
def ofCivil? (year : Int) (month day : Nat) : Option Date :=
  let d := ofCivil year month day
  if d.civil = (year, month, day) && earliest ≤ d && d ≤ latest then some d else none

/-- The day of the month. -/
def dayOfMonth (d : Date) : Nat := d.civil.2.2

/-- Saturdays and Sundays. -/
def isWeekend (d : Date) : Bool :=
  let fromMonday := (d.day + 3).fmod 7
  fromMonday == 5 || fromMonday == 6

/-- The day before; the earliest day stays. -/
def previous (d : Date) : Date := if d.day ≤ earliest.day then earliest else ⟨d.day - 1⟩

/-! ## Text -/

/-- Four digits of the year, or its sign and at least four digits. -/
def yearText (year : Int) : String :=
  let digits := Text.zeroPadded 4 year.natAbs
  if year < 0 then "-" ++ digits
  else if 9999 < year then "+" ++ digits
  else digits

def text (d : Date) : String :=
  let (year, month, day) := d.civil
  yearText year ++ "-" ++ Text.zeroPadded 2 month ++ "-" ++ Text.zeroPadded 2 day

/-- The white space that may stand before a number. -/
def isBlank (c : Char) : Bool :=
  let n := c.toNat
  (9 ≤ n && n ≤ 13) || n == 0x20 || n == 0x85 || n == 0xa0 || n == 0x1680 ||
    (0x2000 ≤ n && n ≤ 0x200a) || n == 0x2028 || n == 0x2029 || n == 0x202f || n == 0x205f ||
    n == 0x3000

def isDigit (c : Char) : Bool := '0' ≤ c && c ≤ '9'

/-- The value of some digits. -/
def valueOf (digits : List Char) : Nat :=
  digits.foldl (fun n c => n * 10 + (c.toNat - 48)) 0

/-- One to `width` digits from the front (any number without a width), and the rest. -/
def number? (width : Option Nat) (cs : List Char) : Option (Nat × List Char) :=
  let digits := cs.takeWhile isDigit
  let digits := match width with
    | some w => digits.take w
    | none => digits
  if digits.isEmpty then none else some (valueOf digits, cs.drop digits.length)

/-- A year: up to four digits, or a sign and any number of them. -/
def year? (cs : List Char) : Option (Int × List Char) :=
  match cs.dropWhile isBlank with
  | '-' :: cs => (number? none cs).map fun (n, cs) => (-n, cs)
  | '+' :: cs => (number? none cs).map fun (n, cs) => (n, cs)
  | cs => (number? (some 4) cs).map fun (n, cs) => (n, cs)

/-- A month or a day: up to two digits. -/
def short? (cs : List Char) : Option (Nat × List Char) :=
  number? (some 2) (cs.dropWhile isBlank)

def dash? : List Char → Option (List Char)
  | '-' :: cs => some cs
  | _ => none

/-- Reads year, month and day with dashes between them, and nothing behind. -/
def parse? (s : String) : Option Date := do
  let (year, cs) ← year? s.toList
  let (month, cs) ← short? (← dash? cs)
  let (day, cs) ← short? (← dash? cs)
  if cs.isEmpty then ofCivil? year month day else none

end Date
end AsOf
