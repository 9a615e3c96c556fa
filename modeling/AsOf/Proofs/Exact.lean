import AsOf.Quantity
import Mathlib.Algebra.Order.Floor.Semiring
import Mathlib.Data.Rat.Floor
import Mathlib.Data.List.Basic

/-!
# Exact numbers

Rational numbers, and one value for a number that is missing, are quantities. What is computed of
them has no rounding in it, so a statistic over them is the formula that it is meant to be. To
divide by zero gives no number.
-/
namespace AsOf

/-- A rational number, or a missing one. -/
inductive Exact where
  | absent
  | number (x : ℚ)
deriving DecidableEq

namespace Exact

def value? : Exact → Option ℚ
  | absent => none
  | number x => some x

/-- An operation of two numbers, which has no result where one is missing. -/
def lift (f : ℚ → ℚ → Exact) : Exact → Exact → Exact
  | number x, number y => f x y
  | _, _ => absent

/-- A test of two numbers, with an answer where one is missing. -/
def test (r : ℚ → ℚ → Bool) (answer : Bool) : Exact → Exact → Bool
  | number x, number y => r x y
  | _, _ => answer

instance : Quantity Exact where
  add := lift fun x y => number (x + y)
  sub := lift fun x y => number (x - y)
  mul := lift fun x y => number (x * y)
  div := lift fun x y => if y = 0 then absent else number (x / y)
  missing := absent
  isMissing v := v.value?.isNone
  less := test (fun x y => x < y) false
  precedes := test (fun x y => x ≤ y) true
  ofNat n := number n
  floor v := v.value?.elim 0 fun x => ⌊x⌋₊
  ceil v := v.value?.elim 0 fun x => ⌈x⌉₊

@[simp] theorem number_add (x y : ℚ) : number x + number y = number (x + y) := rfl

@[simp] theorem number_sub (x y : ℚ) : number x - number y = number (x - y) := rfl

@[simp] theorem number_mul (x y : ℚ) : number x * number y = number (x * y) := rfl

theorem number_div (x : ℚ) {y : ℚ} (hy : y ≠ 0) : number x / number y = number (x / y) := if_neg hy

@[simp] theorem less_number (x y : ℚ) : Quantity.less (number x) (number y) = decide (x < y) := rfl

@[simp] theorem ofNat_eq (n : Nat) : (Quantity.ofNat n : Exact) = number n := rfl

@[simp] theorem floor_number (x : ℚ) : Quantity.floor (number x) = ⌊x⌋₊ := rfl

@[simp] theorem ceil_number (x : ℚ) : Quantity.ceil (number x) = ⌈x⌉₊ := rfl

/-- The numbers of a row, without the missing ones. -/
def numbers (values : List Exact) : List ℚ := values.filterMap value?

theorem mem_numbers {values : List Exact} {x : ℚ} : x ∈ numbers values ↔ number x ∈ values := by
  rw [numbers, List.mem_filterMap]
  constructor
  · rintro ⟨v, hv, hx⟩
    cases v with
    | absent => cases hx
    | number y => rwa [← Option.some.inj hx]
  · exact fun h => ⟨_, h, rfl⟩

theorem present_eq (values : List Exact) : Quantity.present values = (numbers values).map number := by
  induction values with
  | nil => rfl
  | cons v values ih =>
    cases v with
    | absent => exact ih
    | number x => exact congrArg (number x :: ·) ih

/-- A number between two bounds stays. -/
theorem clamp_number {low high x : ℚ} (hl : low ≤ x) (hh : x ≤ high) :
    Quantity.clamp (number low) (number high) (number x) = number x := by
  unfold Quantity.clamp
  simp only [less_number, decide_eq_false (not_lt.2 hl), decide_eq_false (not_lt.2 hh), Bool.false_eq_true, if_false]

end Exact
end AsOf
