import AsOf.Expr
import AsOf.Proofs.Block

/-!
# Numbers as truth values

A truth value becomes one or zero as a number and comes back from there. A NaN is not true,
and so no missing value is, unless it is the truth value itself. To subtract from a NaN or to
divide it gives it again.

* `Scalar.isTrue_number_missing`: the number of a missing value.
* `Expr.evalCell_of_isBoolean`: formulas that yield truth values.
-/
namespace AsOf

theorem isTrue_truth (b : Bool) : isTrue (truth b) = b := by
  cases b <;> rfl

theorem isTrue_nan : isTrue nan = false := by rfl

theorem isTrue_of_isNaN {x : Float} (h : x.isNaN = true) : isTrue x = false := by
  rw [isTrue, h, Bool.not_true, Bool.and_false]

/-- A float that is not NaN equals itself. -/
theorem beq_self_of_isNaN {x : Float} (h : x.isNaN = false) : (x == x) = true := by
  have h : x.toModel.unpack.isNaN = false := h
  show x.toModel.unpack.beq x.toModel.unpack = true
  generalize x.toModel.unpack = u at h
  unfold Float.Model.UnpackedFloat.beq
  cases u with
  | notANumber => cases h
  | infinity s => cases s <;> rfl
  | zero s => rfl
  | finite s mantissa exponent h =>
    have heq : (compare exponent exponent).then (compare mantissa mantissa) = .eq := by
      rw [show compare exponent exponent = .eq from Std.ReflCmp.compare_self,
        show compare mantissa mantissa = .eq from Std.ReflCmp.compare_self]
      rfl
    cases s with
    | positive =>
      show (some ((compare exponent exponent).then (compare mantissa mantissa)) == some .eq) = true
      rw [heq]
      rfl
    | negative =>
      show (some ((compare exponent exponent).then (compare mantissa mantissa)).swap == some .eq) = true
      rw [heq]
      rfl

/-! ## NaN -/

theorem isNaN_nan : nan.isNaN = true := by decide

theorem unpack_nan : nan.toModel.unpack = .notANumber := by rfl

open Float.Model in
theorem nan_sub (x : Float) : nan - x = nan := by
  show Float.ofModel (pack (UnpackedFloat.sub _ nan.toModel.unpack _)) = nan
  rw [unpack_nan]
  rfl

open Float.Model in
theorem nan_div (x : Float) : nan / x = nan := by
  show Float.ofModel (pack (UnpackedFloat.div _ nan.toModel.unpack _)) = nan
  rw [unpack_nan]
  rfl

/-! ## Numbers of single values -/

namespace Scalar

theorem number_bool (missing : Scalar) (b : Bool) : number missing (.bool b) = truth b := rfl

/-- A float is its own number, if it is not missing. -/
theorem number_float_or (missing : Scalar) (x : Float) :
    number missing (.float x) = x ∨ number missing (.float x) = nan := by
  cases missing with
  | float m =>
    show (if m.isNaN then x else if x == m then nan else x) = x ∨
      (if m.isNaN then x else if x == m then nan else x) = nan
    by_cases hm : m.isNaN = true
    · exact .inl (if_pos hm)
    · rw [if_neg hm]
      by_cases hx : (x == m) = true
      · exact .inr (if_pos hx)
      · exact .inl (if_neg hx)
  | _ => exact .inl rfl

/-- A missing value is no true number, unless it is itself true. -/
theorem isTrue_number_missing {missing : Scalar} (h : missing ≠ .bool true) :
    isTrue (number missing missing) = false := by
  cases missing with
  | float x =>
    show isTrue (if x.isNaN then x else if x == x then nan else x) = false
    by_cases hx : x.isNaN = true
    · rw [if_pos hx, isTrue_of_isNaN hx]
    · rw [if_neg hx, if_pos (beq_self_of_isNaN (Bool.eq_false_iff.2 hx)), isTrue_nan]
  | int n =>
    show isTrue (if some n == some n then nan else Float.ofInt n.toInt) = false
    rw [if_pos (beq_self_eq_true _), isTrue_nan]
  | bool b =>
    cases b with
    | true => exact absurd rfl h
    | false => exact isTrue_truth false
  | time t =>
    show isTrue (if t == notATime || some t == some t then nan else Float.ofInt t.toInt) = false
    rw [beq_self_eq_true, Bool.or_true, if_pos rfl, isTrue_nan]
  | label l => exact isTrue_nan

end Scalar

/-- A formula that yields truth values is one or zero. -/
theorem Expr.evalCell_of_isBoolean {e : Expr} (h : e.isBoolean = true) (inputs : Nat → Float) :
    e.evalCell inputs = truth (isTrue (e.evalCell inputs)) := by
  have hb : ∃ b, e.evalCell inputs = truth b := by
    cases e with
    | input i => cases h
    | const c => cases h
    | unary op e => cases op <;> first | exact ⟨_, rfl⟩ | cases h
    | binary op x y => cases op <;> first | exact ⟨_, rfl⟩ | cases h
  obtain ⟨b, hb⟩ := hb
  rw [hb, isTrue_truth]

end AsOf
