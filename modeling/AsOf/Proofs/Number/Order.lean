import Mathlib
import AsOf.Proofs.Number

/-!
# The order of floats

A float that is not NaN has a sign and a magnitude, the number of steps from zero that its bits
spell. Floats are compared by `level`, the signed magnitude: equal levels are equal floats, and the
two zeros share one. `orderKey` puts the negative floats one lower, so it orders the zeros too and
agrees with the level in all else.

* `Leveled`: an unpacked float with its sign and its magnitude.
* `leveled_unpack`: which bits give which.
* `lt_iff_level`, `le_iff_level`, `beq_iff_level`: comparisons, by level.
-/
namespace AsOf
open Float.Model (UnpackedFloat Format)
open Float.Model.UnpackedFloat

/-! ## Magnitudes -/

/-- An unpacked float with its sign and its magnitude. The mantissa of a finite one is full
unless its exponent is the least. -/
inductive Leveled : UnpackedFloat → Sign → Nat → Prop
  | infinity {s : Sign} : Leveled (.infinity s) s (2047 * 2 ^ 52)
  | zero {s : Sign} : Leveled (.zero s) s 0
  | finite {s : Sign} (m : Nat) (e : Int) (k : Nat) (h : 0 < m) (hm : m < 2 ^ 53) (he : e = k - 1074)
      (hn : k = 0 ∨ 2 ^ 52 ≤ m) (hk : k < 2046) : Leveled (.finite s m e h) s (k * 2 ^ 52 + m)

theorem toNat_unpackExponent (b : BitVec 64) :
    (@unpackExponent .binary64 b).toNat = b.toNat / 2 ^ 52 % 2 ^ 11 := by
  show (b.toNat >>> 52) % 2 ^ 11 = _
  rw [Nat.shiftRight_eq_div_pow]

theorem toNat_unpackMantissa (b : BitVec 64) :
    (@unpackMantissa .binary64 b).toNat = b.toNat % 2 ^ 52 := by
  show (b.toNat >>> 0) % 2 ^ 52 = _
  rw [Nat.shiftRight_zero]

theorem ofBitVec_unpackSign (b : BitVec 64) : Sign.ofBitVec (@unpackSign .binary64 b) =
    if b.toNat < 0x8000000000000000 then .positive else .negative := by
  have hb := b.isLt
  have hs : (@unpackSign .binary64 b).toNat = b.toNat / 2 ^ 63 := by
    show (b.toNat >>> 63) % 2 = _
    rw [Nat.shiftRight_eq_div_pow, Nat.mod_eq_of_lt (by omega)]
  refine ite_congr ?_ (fun _ => rfl) fun _ => rfl
  rw [← BitVec.toNat_inj, hs, eq_iff_iff]
  show b.toNat / 2 ^ 63 = 0 ↔ _
  omega

theorem toNat_append_one (m : BitVec 52) : (1#1 ++ m).toNat = 2 ^ 52 + m.toNat := by
  rw [BitVec.toNat_append, ← Nat.shiftLeft_add_eq_or_of_lt m.isLt]
  rfl

/-- The first bit is the sign, and the others are the magnitude. -/
theorem leveled_unpack (b : BitVec 64) : unpack .binary64 b = .notANumber ∨ Leveled (unpack .binary64 b)
    (if b.toNat < 0x8000000000000000 then .positive else .negative) (b.toNat % 2 ^ 63) := by
  have hb := b.isLt
  have hexp := toNat_unpackExponent b
  have hman := toNat_unpackMantissa b
  rw [unpack.eq_1, ofBitVec_unpackSign]
  generalize (if b.toNat < 0x8000000000000000 then Sign.positive else .negative) = s
  by_cases hinf : @unpackExponent .binary64 b = -1#_
  · rw [if_pos hinf]
    have he : b.toNat / 2 ^ 52 % 2 ^ 11 = 2047 := by rw [← hexp, hinf]; rfl
    by_cases hzero : @unpackMantissa .binary64 b = 0#_
    · rw [if_pos hzero]
      have hm : b.toNat % 2 ^ 52 = 0 := by rw [← hman, hzero]; rfl
      rw [show b.toNat % 2 ^ 63 = 2047 * 2 ^ 52 by omega]
      exact .inr .infinity
    · exact .inl (if_neg hzero)
  · have he : b.toNat / 2 ^ 52 % 2 ^ 11 ≠ 2047 := fun h => hinf (BitVec.eq_of_toNat_eq (hexp.trans h))
    rw [if_neg hinf]
    right
    by_cases hsub : @unpackExponent .binary64 b = 0#_
    · rw [if_pos hsub]
      have he : b.toNat / 2 ^ 52 % 2 ^ 11 = 0 := by rw [← hexp, hsub]; rfl
      by_cases hzero : @unpackMantissa .binary64 b = 0#_
      · rw [dif_pos hzero]
        have hm : b.toNat % 2 ^ 52 = 0 := by rw [← hman, hzero]; rfl
        rw [show b.toNat % 2 ^ 63 = 0 by omega]
        exact .zero
      · rw [dif_neg hzero,
          show b.toNat % 2 ^ 63 = 0 * 2 ^ 52 + (@unpackMantissa .binary64 b).toNat by omega]
        refine .finite _ _ 0 _ (by omega) ?_ (.inl rfl) (by omega)
        rw [hsub]
        rfl
    · have he0 : b.toNat / 2 ^ 52 % 2 ^ 11 ≠ 0 := fun h => hsub (BitVec.eq_of_toNat_eq (hexp.trans h))
      have happ := toNat_append_one (@unpackMantissa .binary64 b)
      rw [if_neg hsub, show b.toNat % 2 ^ 63 = (b.toNat / 2 ^ 52 % 2 ^ 11 - 1) * 2 ^ 52 +
        (1#1 ++ @unpackMantissa .binary64 b).toNat by omega]
      refine .finite _ _ _ _ (by omega) ?_ (.inr (by omega)) (by omega)
      rw [hexp]
      show ((b.toNat / 2 ^ 52 % 2 ^ 11 : Nat) : Int) - 1075 = _
      omega

/-! ## Comparing unpacked floats -/

/-- To compare exponents, then mantissas, is to compare magnitudes. -/
theorem compare_magnitudes {m m' k k' : Nat} (hm : m < 2 ^ 53) (hn : k = 0 ∨ 2 ^ 52 ≤ m) (hm' : m' < 2 ^ 53)
    (hn' : k' = 0 ∨ 2 ^ 52 ≤ m') : (compare ((k : Int) - 1074) (k' - 1074)).then (compare m m') =
      compare ((k * 2 ^ 52 + m : Nat) : Int) (k' * 2 ^ 52 + m' : Nat) := by
  rcases Nat.lt_trichotomy k k' with h | rfl | h
  · have he : (k : Int) - 1074 < k' - 1074 := by omega
    have hw : ((k * 2 ^ 52 + m : Nat) : Int) < (k' * 2 ^ 52 + m' : Nat) := by omega
    rw [Std.compare_eq_lt.2 he, Std.compare_eq_lt.2 hw]
    rfl
  · rw [show compare ((k : Int) - 1074) (k - 1074) = .eq from Std.ReflCmp.compare_self]
    show compare m m' = _
    rw [Nat.compare_eq_ite_lt, Int.compare_eq_ite_lt]
    simp only [Int.ofNat_lt, Nat.add_lt_add_iff_left]
  · have he : (k' : Int) - 1074 < k - 1074 := by omega
    have hw : ((k' * 2 ^ 52 + m' : Nat) : Int) < (k * 2 ^ 52 + m : Nat) := by omega
    rw [Std.compare_eq_gt.2 he, Std.compare_eq_gt.2 hw]
    rfl

theorem apply_zero (s : Sign) : s.apply (0 : Nat) = 0 := by cases s <;> rfl

theorem apply_bounds (s : Sign) (k : Nat) : -(k : Int) ≤ s.apply k ∧ s.apply k ≤ k := by
  cases s with
  | negative => exact ⟨Int.le_refl _, by show -(k : Int) ≤ k; omega⟩
  | positive => exact ⟨by show -(k : Int) ≤ k; omega, Int.le_refl _⟩

theorem compare_neg (x y : Int) : compare (-x) (-y) = (compare x y).swap := by
  rw [Int.compare_swap, Int.compare_eq_ite_lt, Int.compare_eq_ite_lt]
  simp only [Int.neg_lt_neg_iff]

theorem Leveled.compare_eq {u v : UnpackedFloat} {s s' : Sign} {k k' : Nat} (hu : Leveled u s k)
    (hv : Leveled v s' k') : u.compare v = some (compare (s.apply k) (s'.apply k')) := by
  have less {x y : Int} (h : x < y) : some .lt = some (compare x y) :=
    congrArg some (Std.compare_eq_lt.2 h).symm
  have greater {x y : Int} (h : y < x) : some .gt = some (compare x y) :=
    congrArg some (Std.compare_eq_gt.2 h).symm
  cases hu with
  | infinity =>
    cases hv with
    | infinity => cases s <;> cases s' <;> rfl
    | zero => cases s <;> cases s' <;> rfl
    | finite m e j =>
      have := apply_bounds s' (j * 2 ^ 52 + m)
      cases s with
      | positive => exact greater (by show _ < (2047 * 2 ^ 52 : Int); omega)
      | negative => exact less (by show -(2047 * 2 ^ 52 : Int) < _; omega)
  | zero =>
    cases hv with
    | infinity => cases s <;> cases s' <;> rfl
    | zero => cases s <;> cases s' <;> rfl
    | finite m e j =>
      rw [apply_zero]
      cases s' with
      | positive => exact less (by show (0 : Int) < (j * 2 ^ 52 + m : Nat); omega)
      | negative => exact greater (by show -((j * 2 ^ 52 + m : Nat) : Int) < 0; omega)
  | finite m e j h hm he hn hj =>
    have hbounds := apply_bounds s (j * 2 ^ 52 + m)
    cases hv with
    | infinity =>
      cases s' with
      | positive =>
        have hless : s.apply (j * 2 ^ 52 + m : Nat) < (2047 * 2 ^ 52 : Int) := by omega
        cases s <;> exact less hless
      | negative =>
        have hgreater : -(2047 * 2 ^ 52 : Int) < s.apply (j * 2 ^ 52 + m : Nat) := by omega
        cases s <;> exact greater hgreater
    | zero =>
      rw [apply_zero]
      cases s with
      | positive => exact greater (by show (0 : Int) < (j * 2 ^ 52 + m : Nat); omega)
      | negative => exact less (by show -((j * 2 ^ 52 + m : Nat) : Int) < 0; omega)
    | finite m' e' j' h' hm' he' hn' hj' =>
      have hmag := compare_magnitudes hm hn hm' hn'
      rw [← he, ← he'] at hmag
      cases s with
      | positive =>
        cases s' with
        | positive => exact congrArg some hmag
        | negative => exact greater (by show -((j' * 2 ^ 52 + m' : Nat) : Int) < (j * 2 ^ 52 + m : Nat); omega)
      | negative =>
        cases s' with
        | positive => exact less (by show -((j * 2 ^ 52 + m : Nat) : Int) < (j' * 2 ^ 52 + m' : Nat); omega)
        | negative =>
          exact (congrArg (fun o => some (Ordering.swap o)) hmag).trans (congrArg some (compare_neg ..).symm)

/-! ## Levels -/

/-- The signed magnitude of a float. -/
def level (x : Float) : Int := if orderKey x < 0 then orderKey x + 1 else orderKey x

variable {x y : Float}

/-- The total order refines the order of levels. -/
theorem orderKey_lt_of_level (h : level x < level y) : orderKey x < orderKey y := by
  unfold level at h
  split at h <;> split at h <;> omega

theorem level_le_of_orderKey (h : orderKey x ≤ orderKey y) : level x ≤ level y :=
  Int.not_lt.1 fun hlt => absurd (orderKey_lt_of_level hlt) (Int.not_lt.2 h)

/-- What is not NaN unpacks to something whose signed magnitude is the level. -/
theorem exists_leveled (hx : x.isNaN = false) :
    ∃ s k, Leveled x.toModel.unpack s k ∧ level x = s.apply k := by
  have hlt := x.toBits.toNat_lt
  rcases leveled_unpack x.toBits.toBitVec with h | h
  · have hx : x.toModel.unpack.isNaN = false := hx
    rw [show x.toModel.unpack = .notANumber from h] at hx
    cases hx
  · refine ⟨_, _, h, ?_⟩
    have hbits : x.toBits.toBitVec.toNat = x.toBits.toNat := rfl
    rw [level, orderKey, hbits]
    by_cases hs : x.toBits.toNat < 0x8000000000000000
    · rw [if_pos hs, if_pos hs]
      show _ = ((x.toBits.toNat % 2 ^ 63 : Nat) : Int)
      omega
    · rw [if_neg hs, if_neg hs]
      show _ = -((x.toBits.toNat % 2 ^ 63 : Nat) : Int)
      omega

theorem compare_eq_level (hx : x.isNaN = false) (hy : y.isNaN = false) :
    x.toModel.unpack.compare y.toModel.unpack = some (compare (level x) (level y)) := by
  obtain ⟨s, k, hu, ex⟩ := exists_leveled hx
  obtain ⟨s', k', hv, ey⟩ := exists_leveled hy
  rw [ex, ey, hu.compare_eq hv]

theorem lt_iff_level (hx : x.isNaN = false) (hy : y.isNaN = false) : x < y ↔ level x < level y := by
  have hlt : x < y ↔ (x.toModel.unpack.compare y.toModel.unpack == some .lt) = true := by
    show decide ((x.toModel.unpack.compare y.toModel.unpack == some .lt) = true) = true ↔ _
    exact decide_eq_true_iff
  rw [hlt, compare_eq_level hx hy, beq_iff_eq, Option.some_inj, Std.compare_eq_lt]

theorem le_iff_level (hx : x.isNaN = false) (hy : y.isNaN = false) : x ≤ y ↔ level x ≤ level y := by
  have hle : x ≤ y ↔ (x.toModel.unpack.compare y.toModel.unpack).any (·.isLE) = true := by
    show decide ((x.toModel.unpack.compare y.toModel.unpack).any (·.isLE) = true) = true ↔ _
    exact decide_eq_true_iff
  rw [hle, compare_eq_level hx hy]
  show (compare (level x) (level y)).isLE = true ↔ _
  rw [Std.isLE_compare]

theorem beq_iff_level (hx : x.isNaN = false) (hy : y.isNaN = false) : (x == y) = true ↔ level x = level y := by
  show (x.toModel.unpack.compare y.toModel.unpack == some .eq) = true ↔ _
  rw [compare_eq_level hx hy, beq_iff_eq, Option.some_inj, Std.compare_eq_iff_eq]

/-- NaN is below nothing. -/
theorem not_nan_le (x : Float) : ¬nan ≤ x := by
  show ¬decide ((nan.toModel.unpack.compare x.toModel.unpack).any (·.isLE) = true) = true
  rw [unpack_nan]
  exact Bool.false_ne_true

end AsOf
