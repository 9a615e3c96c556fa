import AsOf.Number

/-!
# Numbers that statistics are made of

A `Quantity` is a type of numbers with arithmetic, an order and one value that
stands for a missing number. A statistic over quantities is one formula for all
of them: over floats, where NaN is the missing number, and wherever arithmetic
is exact.
-/
namespace AsOf

class Quantity (α : Type) extends Add α, Sub α, Mul α, Div α where
  missing : α
  isMissing : α → Bool
  /-- Whether the first is the smaller; a missing number is never compared. -/
  less : α → α → Bool
  /-- The order in which numbers that are present are sorted. -/
  precedes : α → α → Bool
  ofNat : Nat → α
  /-- The natural number at or below a quantity that is not negative. -/
  floor : α → Nat
  /-- The natural number at or above a quantity that is not negative. -/
  ceil : α → Nat

instance : Quantity Float where
  missing := nan
  isMissing := Float.isNaN
  less a b := a < b
  precedes a b := orderKey a ≤ orderKey b
  ofNat := ofCount
  floor := wholeBelow
  ceil := wholeAbove

namespace Quantity

variable {α : Type} [Quantity α]

/-- The numbers that are not missing. -/
def present (xs : List α) : List α := xs.filter fun x => !isMissing x

/-- The larger of two, or the one that is not missing; the first of two equals. -/
def larger (a b : α) : α :=
  if isMissing a then b else if less a b then b else a

/-- The smaller of two, or the one that is not missing; the first of two equals. -/
def smaller (a b : α) : α :=
  if isMissing a then b else if less b a then b else a

/-- A quantity between two bounds; a missing one stays. -/
def clamp (low high x : α) : α :=
  let x := if less x low then low else x
  if less high x then high else x

end Quantity
end AsOf
