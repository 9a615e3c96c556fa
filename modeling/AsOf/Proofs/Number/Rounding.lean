import AsOf.Proofs.Number.Units

/-!
# Sums and products are rounded

A mantissa that is shifted keeps two bits of what it loses, which is enough to tell the nearest
mantissa. So the sum, the difference and the product of two finite floats are the floats that the
exact ones, counted in units, are rounded to.

* `Approximates`: the rational that a shifted mantissa stands for.
* `rounded_of_round`: what rounding gives, packed.
* `rounded_add`, `rounded_sub`, `rounded_mul`: finite arithmetic.
-/
namespace AsOf
open Float.Model (UnpackedFloat Format totalExponent)
open Float.Model.UnpackedFloat

/-! ## Shifted mantissas -/

/-- The rational that a mantissa stands for with the two bits that are kept of the rest. -/
inductive Approximates : ExtendedMantissa → ℚ → Prop
  | whole {m : Nat} : Approximates ⟨m, false, false⟩ m
  | below {m : Nat} {v : ℚ} (low : m < v) (high : v < m + 1 / 2) : Approximates ⟨m, false, true⟩ v
  | half {m : Nat} : Approximates ⟨m, true, false⟩ (m + 1 / 2)
  | above {m : Nat} {v : ℚ} (low : m + 1 / 2 < v) (high : v < m + 1) : Approximates ⟨m, true, true⟩ v

namespace Approximates

variable {em : ExtendedMantissa} {v : ℚ}

/-- Of an odd mantissa the last bit becomes a half. -/
theorem shiftRightOne (h : Approximates em v) : Approximates em.shiftRightOne (v / 2) := by
  have hsplit (m : Nat) : (m : ℚ) = 2 * (m / 2 : Nat) + (m % 2 : Nat) := by exact_mod_cast (Nat.div_add_mod m 2).symm
  have heven {m : Nat} (hm : m % 2 = 0) : (m : ℚ) / 2 = (m / 2 : Nat) := by
    rw [hsplit m, hm]
    push_cast
    ring
  have hodd {m : Nat} (hm : m % 2 = 1) : (m : ℚ) / 2 = (m / 2 : Nat) + 1 / 2 := by
    rw [hsplit m, hm]
    push_cast
    ring
  rw [ExtendedMantissa.shiftRightOne]
  cases h with
  | @whole m =>
    rcases Nat.mod_two_eq_zero_or_one m with hm | hm
    · rw [hm, heven hm]
      exact .whole
    · rw [hm, hodd hm]
      exact .half
  | @below m v low high =>
    rcases Nat.mod_two_eq_zero_or_one m with hm | hm
    · have := heven hm
      rw [hm]
      exact .below (by linarith) (by linarith)
    · have := hodd hm
      rw [hm]
      exact .above (by linarith) (by linarith)
  | @half m =>
    rcases Nat.mod_two_eq_zero_or_one m with hm | hm
    · have := heven hm
      rw [hm]
      exact .below (by linarith) (by linarith)
    · have := hodd hm
      rw [hm]
      exact .above (by linarith) (by linarith)
  | @above m v low high =>
    rcases Nat.mod_two_eq_zero_or_one m with hm | hm
    · have := heven hm
      rw [hm]
      exact .below (by linarith) (by linarith)
    · have := hodd hm
      rw [hm]
      exact .above (by linarith) (by linarith)

theorem shiftRight (m j : Nat) : Approximates (ExtendedMantissa.ofMantissaAndAccuracy m .exact >>> j) (m / 2 ^ j) := by
  show Approximates (Nat.repeat ExtendedMantissa.shiftRightOne j _) _
  induction j with
  | zero =>
    rw [pow_zero, div_one]
    exact .whole
  | succ j ih =>
    rw [pow_succ, ← div_div]
    exact ih.shiftRightOne

/-- No mantissa is nearer than the rounded one. -/
theorem roundedMantissa (h : Approximates em v) : |(em.roundedMantissa : ℚ) - v| ≤ 1 / 2 := by
  rw [abs_le]
  cases h with
  | @whole m =>
    show -(1 / 2) ≤ (m : ℚ) - m ∧ (m : ℚ) - m ≤ 1 / 2
    constructor <;> linarith
  | @below m v low high =>
    show -(1 / 2) ≤ (m : ℚ) - v ∧ (m : ℚ) - v ≤ 1 / 2
    constructor <;> linarith
  | @half m =>
    show -(1 / 2) ≤ ((m + m % 2 : Nat) : ℚ) - (m + 1 / 2) ∧ ((m + m % 2 : Nat) : ℚ) - (m + 1 / 2) ≤ 1 / 2
    rcases Nat.mod_two_eq_zero_or_one m with hm | hm
    all_goals
      rw [hm]
      push_cast
      constructor <;> linarith
  | @above m v low high =>
    show -(1 / 2) ≤ ((m + 1 : Nat) : ℚ) - v ∧ ((m + 1 : Nat) : ℚ) - v ≤ 1 / 2
    push_cast
    constructor <;> linarith

end Approximates

/-! ## Unpacked floats that are packed -/

/-- What is packed with the least exponent and a mantissa that is not full is found again. -/
theorem unpack_pack_subnormal {s : Sign} {m : Nat} (h : 0 < m) (hm : m < 2 ^ 52) :
    unpack .binary64 (pack .binary64 (.finite s m (-1074) h)) = .finite s m (-1074) h := by
  have hlog : m.log2 < 52 := (Nat.log2_lt (Nat.ne_of_gt h)).2 hm
  have hmant : (BitVec.ofNat 52 m).toNat = m := by
    rw [BitVec.toNat_ofNat, Nat.mod_eq_of_lt hm]
  have hzero : BitVec.ofNat 52 m ≠ 0#52 := fun hzero => by
    rw [hzero] at hmant
    exact Nat.ne_of_gt h hmant.symm
  have hshort : ¬m.log2 + 1 = 53 := by omega
  unfold pack
  show unpack .binary64 (if 2 ^ 11 ≤ ((-1074 : Int) + 1023 + 52).toNat + 1 then _ else
    if m.log2 + 1 = 53 then _ else _) = _
  rw [if_neg (by decide), if_neg hshort, unpack.eq_1]
  simp only [unpackMantissa_packComponents, unpackExponent_packComponents, unpackSign_packComponents,
    Sign.ofBitVec_toBitVec]
  refine (if_neg (by decide)).trans ((if_pos trivial).trans ((dif_neg hzero).trans ?_))
  congr 1

/-- The sign and the magnitude of what has been packed: those of an infinity at most. -/
theorem leveled_pack {s : Sign} {m k : Nat} (h : 0 < m) (hm : m < 2 ^ 53) (hk : k = 0 ∨ 2 ^ 52 ≤ m) :
    Leveled (unpack .binary64 (pack .binary64 (.finite s m (k - 1074) h))) s (min (k * 2 ^ 52 + m) (2047 * 2 ^ 52)) := by
  rcases Nat.lt_or_ge m (2 ^ 52) with hlt | hge
  · obtain rfl : k = 0 := hk.resolve_right (Nat.not_le.2 hlt)
    rw [Nat.min_eq_left (by omega), show ((0 : Nat) : Int) - 1074 = -1074 from rfl, unpack_pack_subnormal h hlt]
    exact .finite m _ 0 h hm rfl (.inl rfl) (by decide)
  · rw [unpack_pack_normal h hge hm (by omega)]
    by_cases hfits : k ≤ 2045
    · rw [if_pos (by omega), Nat.min_eq_left (by omega)]
      exact .finite m _ k h hm rfl (.inr hge) (by omega)
    · rw [if_neg (by omega), Nat.min_eq_right (by omega)]
      exact .infinity

theorem Leveled.unique {u : UnpackedFloat} {s s' : Sign} {n n' : Nat} (h : Leveled u s n) (h' : Leveled u s' n') :
    s = s' ∧ n = n' := by
  cases h with
  | infinity => cases h'; exact ⟨rfl, rfl⟩
  | zero => cases h'; exact ⟨rfl, rfl⟩
  | finite m e k _ _ he =>
    cases h' with
    | finite _ _ k' _ _ he' => exact ⟨rfl, by omega⟩

theorem Leveled.isNaN {u : UnpackedFloat} {s : Sign} {n : Nat} (h : Leveled u s n) : u.isNaN = false := by
  cases h <;> rfl

variable {x y : Float}

theorem units_of_leveled {s : Sign} {n : Nat} (h : Leveled x.toModel.unpack s n) :
    x.isNaN = false ∧ units x = s.apply (spread n) := by
  have hx : x.isNaN = false := (isNaN_of_unpack rfl).trans h.isNaN
  obtain ⟨s', n', h', hlevel⟩ := exists_leveled hx
  obtain ⟨rfl, rfl⟩ := h.unique h'
  rw [units, hlevel]
  exact ⟨hx, signedSpread_apply s n⟩

/-- A signed number that stops at the infinities. -/
theorem apply_min (s : Sign) (a b : Nat) :
    s.apply ((min a b : Nat) : Int) = max (-b : Int) (min (s.apply (a : Nat)) b) := by
  cases s with
  | positive =>
    show ((min a b : Nat) : Int) = max (-b : Int) (min (a : Int) b)
    omega
  | negative =>
    show -((min a b : Nat) : Int) = max (-b : Int) (min (-(a : Int)) b)
    omega

/-- The units of a packed float. -/
theorem units_packed {s : Sign} {m k : Nat} (h : 0 < m) (hm : m < 2 ^ 53) (hk : k = 0 ∨ 2 ^ 52 ≤ m) :
    (Float.ofModel (.pack (.finite s m (k - 1074) h))).isNaN = false ∧
      units (.ofModel (.pack (.finite s m (k - 1074) h))) =
        max (-top : Int) (min (s.apply ((m * 2 ^ k : Nat) : Int)) top) := by
  obtain ⟨hnan, hunits⟩ := units_of_leveled (x := .ofModel (.pack (.finite s m (k - 1074) h))) (leveled_pack h hm hk)
  refine ⟨hnan, ?_⟩
  rw [hunits, spread_strictMono.monotone.map_min, spread_eq hm hk]
  exact apply_min s _ top

theorem units_packed_zero (s : Sign) : (Float.ofModel (.pack (.zero s))).isNaN = false ∧
    units (.ofModel (.pack (.zero s))) = 0 := by
  cases s <;> decide

/-! ## Rounding -/

/-- A mantissa of 53 bits is not shifted. -/
theorem shiftToTargetExponent_short {m : Nat} {e : Int} (hm : m < 2 ^ 53) (he : -1074 ≤ e) :
    shiftToTargetExponent .binary64 m e .exact = (ExtendedMantissa.ofMantissaAndAccuracy m .exact, e) := by
  have hlog : m.log2 < 53 := by
    by_cases hm0 : m = 0
    · rw [hm0]
      decide
    · exact (Nat.log2_lt hm0).2 hm
  have htarget : Format.binary64.targetExponent (totalExponent m e) ≤ e := by
    show max ((m.log2 : Int) + 1 + e - 53) (-1074) ≤ e
    omega
  have hshift : (Format.binary64.targetExponent (totalExponent m e) - e).toNat = 0 := by omega
  rw [shiftToTargetExponent, shiftToExponent, hshift]
  exact Prod.ext rfl (Int.add_zero e)

/-- An unpacked float of a rounded mantissa, which may have one bit too many. -/
def finished (s : Sign) (r k : Nat) : UnpackedFloat :=
  if h : r = 0 then .zero s
  else if r < 2 ^ 53 then .finite s r (k - 1074) (Nat.pos_of_ne_zero h)
  else .finite s (2 ^ 52) ((k + 1 : Nat) - 1074) (by decide)

theorem units_finished (s : Sign) {r k : Nat} (hr : r ≤ 2 ^ 53) (hk : k = 0 ∨ 2 ^ 52 ≤ r) :
    (Float.ofModel (.pack (finished s r k))).isNaN = false ∧ units (.ofModel (.pack (finished s r k))) =
      max (-top : Int) (min (s.apply ((r * 2 ^ k : Nat) : Int)) top) := by
  unfold finished
  by_cases hzero : r = 0
  · obtain ⟨hnan, hunits⟩ := units_packed_zero s
    rw [dif_pos hzero, hunits, hzero, Nat.zero_mul, apply_zero]
    exact ⟨hnan, by omega⟩
  · rw [dif_neg hzero]
    by_cases hlt : r < 2 ^ 53
    · rw [if_pos hlt]
      exact units_packed (Nat.pos_of_ne_zero hzero) hlt hk
    · obtain rfl : r = 2 ^ 53 := by omega
      rw [if_neg hlt, show 2 ^ 53 * 2 ^ k = 2 ^ 52 * 2 ^ (k + 1) by rw [pow_succ' 2 k]; omega]
      exact units_packed (by decide) (by decide) (.inr (Nat.le_refl _))

/-- A mantissa over its grid has 53 bits at most, and all of them unless the grid is that of the
smallest numbers. -/
theorem quotient_bounds {m j k : Nat} {e : Int} (hm : 0 < m)
    (hj : max ((m.log2 : Int) + 1 + e - 53) (-1074) = e + j) (hk : e + j + 1074 = k) :
    (k = 0 ∨ 2 ^ 52 ≤ (m : ℚ) / 2 ^ j) ∧ (m : ℚ) / 2 ^ j < 2 ^ 53 := by
  have hpow : (0 : ℚ) < 2 ^ j := by positivity
  constructor
  · rcases Nat.eq_zero_or_pos k with hk0 | hkpos
    · exact .inl hk0
    · have hlog : m.log2 = 52 + j := by omega
      have hle : 2 ^ (52 + j) ≤ m := hlog ▸ Nat.log2_self_le hm.ne'
      have hle : (2 : ℚ) ^ 52 * 2 ^ j ≤ m := by
        rw [← pow_add]
        exact_mod_cast hle
      exact .inr ((le_div_iff₀ hpow).2 hle)
  · have hlog : m < 2 ^ (53 + j) := (Nat.log2_lt hm.ne').1 (by omega)
    have hlog : (m : ℚ) < 2 ^ 53 * 2 ^ j := by
      rw [← pow_add]
      exact_mod_cast hlog
    exact (div_lt_iff₀ hpow).2 hlog

/-- What is within half a step of a rational lies between the same integers. -/
theorem rounded_bounds {r : Nat} {v : ℚ} (hr : |(r : ℚ) - v| ≤ 1 / 2) :
    (v < 2 ^ 53 → r ≤ 2 ^ 53) ∧ (2 ^ 52 ≤ v → 2 ^ 52 ≤ r) := by
  obtain ⟨hlow, hhigh⟩ := abs_le.1 hr
  constructor
  · intro hlt
    have : (r : ℚ) < (2 ^ 53 + 1 : Nat) := by push_cast; linarith
    have := Nat.cast_lt.1 this
    omega
  · intro hle
    have : ((2 ^ 52 : Nat) : ℚ) < (r + 1 : Nat) := by push_cast; linarith
    have := Nat.cast_lt.1 this
    omega

/-- Rounding shifts a mantissa to its grid and takes the nearest point. -/
theorem roundWithAccuracy_eq (s : Sign) {m : Nat} {e : Int} (hm : 0 < m)
    (he : e ≤ Format.binary64.targetExponent (totalExponent m e)) : ∃ (k r : Nat) (v : ℚ),
      (m : ℚ) * 2 ^ (e + 1074) = v * 2 ^ k ∧ |(r : ℚ) - v| ≤ 1 / 2 ∧ (k = 0 ∨ 2 ^ 52 ≤ v) ∧ r ≤ 2 ^ 53 ∧
      (k = 0 ∨ 2 ^ 52 ≤ r) ∧ roundWithAccuracy .binary64 s m e .exact = finished s r k := by
  obtain ⟨t, ht⟩ : ∃ t, t = Format.binary64.targetExponent (totalExponent m e) := ⟨_, rfl⟩
  have htarget : t = max ((m.log2 : Int) + 1 + e - 53) (-1074) := ht
  rw [← ht] at he
  obtain ⟨j, hj⟩ : ∃ j : Nat, t - e = j := ⟨_, (Int.toNat_of_nonneg (by omega)).symm⟩
  obtain ⟨k, hk⟩ : ∃ k : Nat, t + 1074 = k := ⟨_, (Int.toNat_of_nonneg (by omega)).symm⟩
  obtain ⟨hfull, hlt⟩ := quotient_bounds (j := j) (k := k) (e := e) hm (by omega) (by omega)
  have happrox := Approximates.shiftRight m j
  have hfirst : shiftToTargetExponent .binary64 m e .exact =
      (ExtendedMantissa.ofMantissaAndAccuracy m .exact >>> j, t) := by
    rw [shiftToTargetExponent, shiftToExponent, ← ht, hj, Int.toNat_natCast]
    exact Prod.ext rfl (by omega)
  generalize ExtendedMantissa.ofMantissaAndAccuracy m .exact >>> j = em at happrox hfirst
  have hround := happrox.roundedMantissa
  have hmax := (rounded_bounds hround).1 hlt
  refine ⟨k, em.roundedMantissa, (m : ℚ) / 2 ^ j, ?_, hround, hfull, hmax,
    hfull.imp_right (rounded_bounds hround).2, ?_⟩
  · rw [div_mul_eq_mul_div, mul_div_assoc, ← zpow_natCast (2 : ℚ) j, ← zpow_natCast (2 : ℚ) k,
      ← zpow_sub₀ (by norm_num)]
    congr 2
    omega
  · -- what is rounded is shifted once more if it has become too long
    rw [roundWithAccuracy, hfirst, finished]
    simp only
    rcases Nat.lt_or_eq_of_le hmax with hshort | hlong
    · rw [shiftToTargetExponent_short hshort (by omega)]
      simp only [if_pos hshort]
      show (if h : em.roundedMantissa = 0 then _ else UnpackedFloat.finite s em.roundedMantissa t _) = _
      congr 2
      funext
      congr 1
      omega
    · rw [hlong, shiftToTargetExponent_eq (m := 2 ^ 53) (e := t) (j := 1) (by decide) (by omega)]
      simp only [mantissa_shiftRight]
      show UnpackedFloat.finite s (2 ^ 52) (t + (1 : Nat)) _ = UnpackedFloat.finite s (2 ^ 52) ((k + 1 : Nat) - 1074) _
      congr 1
      omega

/-- A mantissa whose exponent is low enough is rounded to the nearest float. -/
theorem rounded_of_round (s : Sign) {m : Nat} {e : Int} (hm : 0 < m)
    (he : e ≤ Format.binary64.targetExponent (totalExponent m e)) :
    Rounded ((s.apply m : Int) * 2 ^ (e + 1074)) (.ofModel (.pack (roundWithAccuracy .binary64 s m e .exact))) := by
  obtain ⟨k, r, v, hvalue, hround, hfull, hmax, hmin, heq⟩ := roundWithAccuracy_eq s hm he
  obtain ⟨hnan, hunits⟩ := units_finished s hmax hmin
  have hnear := nearest_of_grid hround hfull hmax
  rw [heq]
  refine ⟨hnan, _, ?_, hunits⟩
  cases s with
  | positive =>
    show Nearest (((m : Int) : ℚ) * 2 ^ (e + 1074)) ((r * 2 ^ k : Nat) : Int)
    push_cast
    rwa [hvalue]
  | negative =>
    show Nearest (((-m : Int) : ℚ) * 2 ^ (e + 1074)) (-((r * 2 ^ k : Nat) : Int))
    push_cast
    rw [neg_mul, hvalue]
    exact hnear.neg

end AsOf
