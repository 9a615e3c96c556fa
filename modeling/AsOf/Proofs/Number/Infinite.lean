import AsOf.Proofs.Number.Arithmetic

/-!
# Arithmetic with infinities

A float that is present and not finite is an infinity. Infinities stay infinite against finite
floats, whatever these are; where two of them would have to make up for each other, the number is
missing, and what is missing stays so. A quotient by a finite float other than zero is missing only
with its dividend.

* `exists_infinity`: what is neither missing nor finite.
* `sub_infinity`, `infinity_sub`, `infinity_mul`, `add_infinity`: one infinity.
* `infinity_sub_self`, `infinity_add_neg`: two infinities.
-/
namespace AsOf
open Float.Model (UnpackedFloat Format)
open Float.Model.UnpackedFloat

variable {x y : Float}

/-- The positive infinity. -/
def infinity : Float := 1.0 / 0.0

theorem exists_infinity (hx : x.isNaN = false) (hf : x.isFinite = false) :
    ∃ s, x.toModel.unpack = .infinity s ∧ units x = s.apply top := by
  have hparts := parts_units hx
  have hf : x.toModel.unpack.isFinite = false := hf
  generalize x.toModel.unpack = u at hparts hf
  generalize units x = n at hparts ⊢
  cases hparts with
  | infinity => exact ⟨_, rfl, rfl⟩
  | zero => cases hf
  | finite => cases hf

theorem unpack_pack_infinity (s : Sign) : unpack .binary64 (pack .binary64 (.infinity s)) = .infinity s := by
  cases s <;> rfl

/-- A quotient by a finite float other than zero is missing only with the dividend. -/
theorem isNaN_div (hx : x.isNaN = false) (hy : y.isFinite = true) (h0 : units y ≠ 0) : (x / y).isNaN = false := by
  have hparts := parts_units (isNaN_of_isFinite hy)
  have hx : x.toModel.unpack.isNaN = false := hx
  have hy : y.toModel.unpack.isFinite = true := hy
  show (Float.ofModel (.pack (.div .binary64 x.toModel.unpack y.toModel.unpack))).isNaN = false
  generalize x.toModel.unpack = u at hx
  generalize y.toModel.unpack = v at hparts hy
  generalize units y = n at hparts h0
  cases hparts with
  | infinity => cases hy
  | zero => exact absurd rfl h0
  | @finite s m k h =>
    cases u with
    | notANumber => cases hx
    | infinity t => exact congrArg UnpackedFloat.isNaN (unpack_pack_infinity (t / s))
    | zero t => exact (units_packed_zero (t / s)).1
    | finite t m' e' h' =>
      show (Float.ofModel (.pack (roundWithAccuracy .binary64 (t / s) (divCore .binary64 m' e' m _).1 _ _))).isNaN = false
      unfold roundWithAccuracy
      simp only
      split
      · exact (units_packed_zero _).1
      · exact isNaN_pack _

section infinite

variable {s : Sign}

theorem sub_infinity (hx : x.isNaN = false) (hne : x.toModel.unpack ≠ .infinity s)
    (hy : y.toModel.unpack = .infinity s) : (x - y).toModel.unpack = .infinity (-s) := by
  have hx : x.toModel.unpack.isNaN = false := hx
  show unpack .binary64 (pack .binary64 (.sub .binary64 x.toModel.unpack y.toModel.unpack)) = _
  rw [hy]
  generalize x.toModel.unpack = u at hx hne
  cases u with
  | notANumber => cases hx
  | infinity s' =>
    have hsub : UnpackedFloat.sub .binary64 (.infinity s') (.infinity s) = .infinity (-s) := by
      cases s <;> cases s' <;> first | rfl | exact absurd rfl hne
    rw [hsub]
    exact unpack_pack_infinity _
  | zero => exact unpack_pack_infinity _
  | finite => exact unpack_pack_infinity _

theorem infinity_sub (hx : x.toModel.unpack = .infinity s) (hy : y.isFinite = true) :
    (x - y).toModel.unpack = .infinity s := by
  have hy : y.toModel.unpack.isFinite = true := hy
  show unpack .binary64 (pack .binary64 (.sub .binary64 x.toModel.unpack y.toModel.unpack)) = _
  rw [hx]
  generalize y.toModel.unpack = u at hy
  cases u with
  | notANumber => cases hy
  | infinity => cases hy
  | zero => exact unpack_pack_infinity _
  | finite => exact unpack_pack_infinity _

theorem infinity_mul (hx : x.toModel.unpack = .infinity s) (hy : y.isFinite = true) (hpos : 0 < units y) :
    (x * y).toModel.unpack = .infinity s := by
  have hparts := parts_units (isNaN_of_isFinite hy)
  have hy : y.toModel.unpack.isFinite = true := hy
  show unpack .binary64 (pack .binary64 (.mul .binary64 x.toModel.unpack y.toModel.unpack)) = _
  rw [hx]
  generalize y.toModel.unpack = u at hparts hy
  generalize units y = n at hparts hpos
  cases hparts with
  | infinity => cases hy
  | zero => cases hpos
  | @finite s' m k hm =>
    cases s' with
    | positive =>
      have hmul : UnpackedFloat.mul .binary64 (.infinity s) (.finite .positive m (k - 1074) hm) = .infinity s := by
        cases s <;> rfl
      rw [hmul]
      exact unpack_pack_infinity s
    | negative => exact absurd hpos (Int.not_lt.2 (Int.neg_nonpos_of_nonneg (Int.natCast_nonneg _)))

theorem add_infinity (hx : x.isFinite = true) (hy : y.toModel.unpack = .infinity s) :
    x + y = .ofModel (.pack (.infinity s)) := by
  have hx : x.toModel.unpack.isFinite = true := hx
  show Float.ofModel (.pack (.add .binary64 x.toModel.unpack y.toModel.unpack)) = _
  rw [hy]
  generalize x.toModel.unpack = u at hx
  cases u with
  | notANumber => cases hx
  | infinity => cases hx
  | zero => rfl
  | finite => rfl

/-- An infinity less itself is missing. -/
theorem infinity_sub_self (hx : x.toModel.unpack = .infinity s) (hy : y.toModel.unpack = .infinity s) :
    x - y = nan := by
  show Float.ofModel (.pack (.sub .binary64 x.toModel.unpack y.toModel.unpack)) = _
  rw [hx, hy]
  cases s <;> rfl

theorem infinity_add_neg (hx : x.toModel.unpack = .infinity s) (hy : y.toModel.unpack = .infinity (-s)) :
    x + y = nan := by
  show Float.ofModel (.pack (.add .binary64 x.toModel.unpack y.toModel.unpack)) = _
  rw [hx, hy]
  cases s <;> rfl

end infinite

/-! ## NaN -/

theorem not_le_nan (x : Float) : ¬x ≤ nan := by
  show ¬decide ((x.toModel.unpack.compare nan.toModel.unpack).any (·.isLE) = true) = true
  rw [unpack_nan]
  cases x.toModel.unpack <;> exact Bool.false_ne_true

theorem nan_mul (x : Float) : nan * x = nan := by
  show Float.ofModel (.pack (.mul .binary64 nan.toModel.unpack _)) = nan
  rw [unpack_nan]
  rfl

theorem add_nan (x : Float) : x + nan = nan := by
  show Float.ofModel (.pack (.add .binary64 x.toModel.unpack nan.toModel.unpack)) = nan
  rw [unpack_nan]
  cases x.toModel.unpack <;> rfl

end AsOf
