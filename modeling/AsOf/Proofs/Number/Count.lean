import AsOf.Proofs.Number.Order

/-!
# Counts as floats

A count below 2^53 is a float exactly: its mantissa holds all of its bits. A larger one is
rounded, but not below 2^53. So a count below 2^53 compares with any other count as the numbers do,
however large that is.

* `round_normal`: what a long mantissa is rounded to, away from zero.
* `ofCount_of_lt`, `ofCount_of_ge`: the float of a count.
* `level_ofCount_lt`, `ofCount_le_iff`: counts are compared as numbers.
-/
namespace AsOf
open Float.Model (UnpackedFloat Format totalExponent)
open Float.Model.UnpackedFloat

/-! ## Rounding -/

theorem mantissa_shiftRight (m j : Nat) :
    (ExtendedMantissa.ofMantissaAndAccuracy m .exact >>> j).mantissa = m / 2 ^ j := by
  have main (em : ExtendedMantissa) :
      (Nat.repeat ExtendedMantissa.shiftRightOne j em).mantissa = em.mantissa / 2 ^ j := by
    induction j with
    | zero => exact (Nat.div_one _).symm
    | succ j ih =>
      show (Nat.repeat ExtendedMantissa.shiftRightOne j em).mantissa / 2 = _
      rw [ih, Nat.div_div_eq_div_mul, Nat.pow_succ]
  exact main _

/-- To shift out zeros leaves nothing to round. -/
theorem shiftRight_mul (m j : Nat) : ExtendedMantissa.ofMantissaAndAccuracy (m * 2 ^ j) .exact >>> j =
    ExtendedMantissa.ofMantissaAndAccuracy m .exact := by
  show Nat.repeat ExtendedMantissa.shiftRightOne j _ = _
  induction j generalizing m with
  | zero =>
    rw [Nat.pow_zero, Nat.mul_one]
    rfl
  | succ j ih =>
    have h := ih (m * 2)
    rw [Nat.mul_assoc, ← Nat.pow_succ'] at h
    show ExtendedMantissa.shiftRightOne (Nat.repeat ExtendedMantissa.shiftRightOne j _) = _
    rw [h]
    show (⟨m * 2 / 2, m * 2 % 2 != 0, false⟩ : ExtendedMantissa) = ⟨m, false, false⟩
    rw [Nat.mul_div_cancel _ (by decide), Nat.mul_mod_left]
    rfl

/-- To round adds one at most. -/
theorem roundedMantissa_bounds (em : ExtendedMantissa) :
    em.mantissa ≤ em.roundedMantissa ∧ em.roundedMantissa ≤ em.mantissa + 1 := by
  obtain ⟨m, r, s⟩ := em
  cases r <;> cases s
  · exact ⟨Nat.le_refl m, Nat.le_succ m⟩
  · exact ⟨Nat.le_refl m, Nat.le_succ m⟩
  · show m ≤ m + m % 2 ∧ m + m % 2 ≤ m + 1
    omega
  · exact ⟨Nat.le_succ m, Nat.le_refl _⟩

theorem log2_of_full {m : Nat} (hmin : 2 ^ 52 ≤ m) (hmax : m < 2 ^ 53) : m.log2 = 52 := by
  have hm : m ≠ 0 := by omega
  have hlt := (Nat.log2_lt (k := 53) hm).2 hmax
  have hle := (Nat.le_log2 (k := 52) hm).2 hmin
  omega

/-- As many bits are shifted out as the mantissa has too many. -/
theorem shiftToTargetExponent_eq {m : Nat} {e : Int} {j : Nat} (hm : m.log2 = 52 + j) (he : -1074 ≤ e + j) :
    shiftToTargetExponent .binary64 m e .exact =
      (ExtendedMantissa.ofMantissaAndAccuracy m .exact >>> j, e + j) := by
  have htarget : Format.binary64.targetExponent (totalExponent m e) = e + j := by
    show max ((m.log2 : Int) + 1 + e - 53) (-1074) = _
    omega
  rw [shiftToTargetExponent, htarget, shiftToExponent, show (e + j - e).toNat = j by omega]

/-- A mantissa of `53 + j` bits loses `j` of them, or one more if it is rounded up to the next
power of two. If those are zeros, nothing else happens. -/
theorem round_normal (s : Sign) {m : Nat} {e : Int} {j : Nat} (hm : m.log2 = 52 + j) (he : -1074 ≤ e + j) :
    ∃ (m' : Nat) (e' : Int) (h : 0 < m'), roundWithAccuracy .binary64 s m e .exact = .finite s m' e' h ∧
      2 ^ 52 ≤ m' ∧ m' < 2 ^ 53 ∧ e + j ≤ e' ∧ ∀ n, m = n * 2 ^ j → m' = n ∧ e' = e + j := by
  have hm0 : m ≠ 0 := by
    rintro rfl
    have : Nat.log2 0 = 0 := by decide
    omega
  have hlo : 2 ^ (52 + j) ≤ m := hm ▸ Nat.log2_self_le hm0
  have hhi : m < 2 ^ (53 + j) := by
    rw [← Nat.log2_lt hm0]
    omega
  obtain ⟨em, hem⟩ : ∃ em, em = ExtendedMantissa.ofMantissaAndAccuracy m .exact >>> j := ⟨_, rfl⟩
  have hmant : em.mantissa = m / 2 ^ j := hem ▸ mantissa_shiftRight m j
  have hexact {n : Nat} (hn : m = n * 2 ^ j) : em.roundedMantissa = n ∧ em.mantissa = n := by
    rw [hem, hn, shiftRight_mul]
    exact ⟨rfl, rfl⟩
  have hj := Nat.two_pow_pos j
  rw [Nat.pow_add] at hlo hhi
  have hmin : 2 ^ 52 ≤ em.mantissa := by rwa [hmant, Nat.le_div_iff_mul_le hj]
  have hmax : em.mantissa < 2 ^ 53 := by rwa [hmant, Nat.div_lt_iff_lt_mul hj]
  obtain ⟨hrmin, hrmax⟩ := roundedMantissa_bounds em
  have hfirst : shiftToTargetExponent .binary64 m e .exact = (em, e + j) :=
    hem ▸ shiftToTargetExponent_eq hm he
  -- what is rounded is shifted once more if it has become too long
  have hsecond {r k : Nat} (hr : r = em.roundedMantissa) (hk : r.log2 = 52 + k) (h : 0 < r / 2 ^ k) :
      roundWithAccuracy .binary64 s m e .exact = .finite s (r / 2 ^ k) (e + j + k) h := by
    have hshift := shiftToTargetExponent_eq hk (e := e + j) (by omega)
    unfold roundWithAccuracy
    simp only [hfirst, ← hr, hshift, mantissa_shiftRight]
    exact dif_neg (Nat.ne_of_gt h)
  rcases Nat.lt_or_ge em.roundedMantissa (2 ^ 53) with hlt | hge
  · have hlog : em.roundedMantissa.log2 = 52 + 0 := log2_of_full (by omega) hlt
    refine ⟨_, _, _, hsecond rfl hlog (by rw [Nat.pow_zero, Nat.div_one]; omega), ?_⟩
    rw [Nat.pow_zero, Nat.div_one]
    exact ⟨by omega, hlt, by omega, fun n hn => ⟨(hexact hn).1, by omega⟩⟩
  · have heq : 2 ^ 53 = em.roundedMantissa := by omega
    refine ⟨_, _, _, hsecond heq (k := 1) (by decide) (by decide), by decide, by decide, by omega, fun n hn => ?_⟩
    obtain ⟨hr, hm⟩ := hexact hn
    omega

/-! ## Packing -/

/-- What is packed is found again, or infinity if its exponent is too large. -/
theorem unpack_pack_normal {s : Sign} {m : Nat} {e : Int} (h : 0 < m) (hm : 2 ^ 52 ≤ m) (hm' : m < 2 ^ 53)
    (he : -1074 ≤ e) : unpack .binary64 (pack .binary64 (.finite s m e h)) =
      if e ≤ 971 then .finite s m e h else .infinity s := by
  have hlog : m.log2 + 1 = 53 := congrArg (· + 1) (log2_of_full hm hm')
  have hbiased : (e + 1023 + 52).toNat = e + 1075 := by omega
  unfold pack
  show unpack .binary64 (if 2 ^ 11 ≤ (e + 1023 + 52).toNat + 1 then _ else if m.log2 + 1 = 53 then _ else _) = _
  rw [if_pos hlog]
  by_cases hfits : e ≤ 971
  · rw [if_neg (by omega), if_pos hfits, unpack.eq_1]
    simp only [unpackMantissa_packComponents, unpackExponent_packComponents, unpackSign_packComponents,
      Sign.ofBitVec_toBitVec]
    have hexp : (BitVec.ofNat 11 (e + 1023 + 52).toNat).toNat = (e + 1023 + 52).toNat := by
      rw [BitVec.toNat_ofNat, Nat.mod_eq_of_lt (by omega)]
    have hinf : BitVec.ofNat 11 (e + 1023 + 52).toNat ≠ -1#11 := fun hinf => by
      have : (e + 1023 + 52).toNat = 2047 := by rw [← hexp, hinf]; rfl
      omega
    have hzero : BitVec.ofNat 11 (e + 1023 + 52).toNat ≠ 0#11 := fun hzero => by
      have : (e + 1023 + 52).toNat = 0 := by rw [← hexp, hzero]; rfl
      omega
    have hmant : (1#1 ++ BitVec.ofNat 52 m).toNat = m := by
      rw [toNat_append_one, BitVec.toNat_ofNat]
      omega
    refine (if_neg hinf).trans ((if_neg hzero).trans ?_)
    have hexponent : ((BitVec.ofNat 11 (e + 1023 + 52).toNat).toNat : Int) - (1023 + 52) = e := by
      rw [hexp]
      omega
    congr 1
  · rw [if_pos (by omega), if_neg hfits]
    cases s <;> rfl

variable {x : Float}

/-- Packing makes no number missing. -/
theorem isNaN_pack {s : Sign} {m : Nat} {e : Int} (h : 0 < m) :
    (Float.ofModel (.pack (.finite s m e h))).isNaN = false := by
  have hpacked (e : BitVec 11) (m : BitVec 52) (he : e ≠ -1#11) :
      (unpack .binary64 (packComponents .binary64 s e m)).isNaN = false := by
    rw [unpack.eq_1]
    simp only [unpackMantissa_packComponents, unpackExponent_packComponents, unpackSign_packComponents]
    rw [if_neg he]
    split
    · split <;> rfl
    · rfl
  show (unpack .binary64 (pack .binary64 (.finite s m e h))).isNaN = false
  unfold pack
  show (unpack .binary64 (if 2 ^ 11 ≤ (e + 1023 + 52).toNat + 1 then _ else if m.log2 + 1 = 53 then _ else _)).isNaN = _
  by_cases hlarge : 2 ^ 11 ≤ (e + 1023 + 52).toNat + 1
  · rw [if_pos hlarge]
    cases s <;> decide
  · rw [if_neg hlarge]
    split
    · refine hpacked _ _ fun hfull => ?_
      have hfull := congrArg BitVec.toNat hfull
      rw [BitVec.toNat_ofNat] at hfull
      have hfull : (e + 1023 + 52).toNat % 2 ^ 11 = 2047 := hfull
      omega
    · exact hpacked _ _ (by decide)

theorem isNaN_of_unpack {u : UnpackedFloat} (h : x.toModel.unpack = u) : x.isNaN = u.isNaN := h ▸ rfl

/-- The level of a float with a full mantissa. -/
theorem level_of_unpack_finite {m : Nat} {e : Int} {h : 0 < m} (hx : x.toModel.unpack = .finite .positive m e h) :
    level x = (e + 1074) * 2 ^ 52 + m := by
  obtain ⟨s, k, hu, hlevel⟩ := exists_leveled (isNaN_of_unpack hx)
  rw [hx] at hu
  cases hu with
  | finite m e k =>
    rw [hlevel]
    show ((k * 2 ^ 52 + m : Nat) : Int) = _
    omega

theorem level_of_unpack_infinity (hx : x.toModel.unpack = .infinity .positive) : level x = 2047 * 2 ^ 52 := by
  obtain ⟨s, k, hu, hlevel⟩ := exists_leveled (isNaN_of_unpack hx)
  rw [hx] at hu
  cases hu with
  | infinity => rw [hlevel]; rfl

/-! ## Counts -/

/-- The float of a positive, full mantissa. -/
def packed (m : Nat) (e : Int) (h : 0 < m) : Float := .ofModel (.pack (.finite .positive m e h))

theorem unpack_packed {m : Nat} {e : Int} (h : 0 < m) (hm : 2 ^ 52 ≤ m) (hm' : m < 2 ^ 53) (he : -1074 ≤ e) :
    (packed m e h).toModel.unpack = if e ≤ 971 then .finite .positive m e h else .infinity .positive :=
  unpack_pack_normal h hm hm' he

theorem log2_mul_pow {n : Nat} (hn : n ≠ 0) (a : Nat) : (n * 2 ^ a).log2 = n.log2 + a := by
  induction a with
  | zero => rw [Nat.pow_zero, Nat.mul_one, Nat.add_zero]
  | succ a ih =>
    rw [Nat.pow_succ, ← Nat.mul_assoc, Nat.log2_eq_log_two,
      Nat.log_mul_base (by decide) (Nat.mul_ne_zero hn (Nat.ne_of_gt (Nat.two_pow_pos a))), ← Nat.log2_eq_log_two, ih,
      Nat.add_assoc]

/-- A word below 2^53 is a float exactly. -/
theorem toFloat_eq {n : Nat} (hn : n ≠ 0) (hlt : n < 2 ^ 53) : ∃ (a : Nat) (h : 0 < n * 2 ^ a),
    n.toUInt64.toFloat = packed (n * 2 ^ a) (-a) h ∧ 2 ^ 52 ≤ n * 2 ^ a ∧ n * 2 ^ a < 2 ^ 53 ∧ a ≤ 52 := by
  have hlog : n.log2 < 53 := (Nat.log2_lt hn).2 hlt
  obtain ⟨a, ha⟩ : ∃ a, a = 52 - n.log2 := ⟨_, rfl⟩
  have hfull : (n * 2 ^ a).log2 = 52 + 0 := by
    rw [log2_mul_pow hn]
    omega
  obtain ⟨m, e, h, hround, hmin, hmax, -, hexact⟩ := round_normal .positive (e := -a) hfull (by omega)
  obtain ⟨rfl, rfl⟩ := hexact (n * 2 ^ a) (by rw [Nat.pow_zero, Nat.mul_one])
  refine ⟨a, h, ?_, hmin, hmax, by omega⟩
  have hnat : n.toUInt64.toNat = n := by
    show n % 2 ^ 64 = n
    omega
  have hpos : compare (n : Int) 0 = .gt := Std.compare_eq_gt.2 (by omega)
  have htarget : Format.binary64.targetExponent (totalExponent n 0) = -(a : Int) := by
    show max ((n.log2 : Int) + 1 + 0 - 53) (-1074) = _
    omega
  have hword : UnpackedFloat.ofUInt64 .binary64 n.toUInt64 = .finite .positive (n * 2 ^ a) (-a + (0 : Nat)) h := by
    rw [UnpackedFloat.ofUInt64, hnat, UnpackedFloat.ofNat, UnpackedFloat.ofInt, UnpackedFloat.normalize, hpos]
    show roundWithAccuracy .binary64 .positive (n <<< (0 - Format.binary64.targetExponent (totalExponent n 0)).toNat)
      (0 - ((0 - Format.binary64.targetExponent (totalExponent n 0)).toNat : Nat)) .exact = _
    rw [htarget, show (0 - -(a : Int)).toNat = a by omega, Nat.shiftLeft_eq, Int.zero_sub, hround]
  show Float.ofModel (.pack (UnpackedFloat.ofUInt64 .binary64 n.toUInt64)) = _
  rw [hword]
  unfold packed
  congr 3
  omega

/-- To multiply by one changes nothing. -/
theorem packed_mul_one {m : Nat} {e : Int} (h : 0 < m) (hmin : 2 ^ 52 ≤ m) (hmax : m < 2 ^ 53) (he : -1074 ≤ e)
    (he' : e ≤ 971) : packed m e h * 1.0 = packed m e h := by
  have hlong : (m * 2 ^ 52).log2 = 52 + 52 := by
    rw [log2_mul_pow (Nat.ne_of_gt h), log2_of_full hmin hmax]
  obtain ⟨m', e', h', hround, -, -, -, hexact⟩ := round_normal .positive (e := e + -52) hlong (by omega)
  obtain ⟨rfl, rfl⟩ := hexact m rfl
  have hunit : (1.0 : Float).toModel.unpack = .finite .positive (2 ^ 52) (-52) (by decide) := rfl
  show Float.ofModel (.pack (UnpackedFloat.mul .binary64 (packed m' e h).toModel.unpack
    (1.0 : Float).toModel.unpack)) = _
  rw [unpack_packed h hmin hmax he, if_pos he', hunit]
  show Float.ofModel (.pack (roundWithAccuracy .binary64 .positive (m' * 2 ^ 52) (e + -52) .exact)) = _
  rw [hround]
  unfold packed
  congr 3
  omega

/-- The float of a count below 2^53: its own bits. -/
theorem ofCount_of_lt {n : Nat} (hn : n ≠ 0) (hlt : n < 2 ^ 53) : ∃ (a : Nat) (h : 0 < n * 2 ^ a),
    ofCount n = packed (n * 2 ^ a) (-a) h ∧ 2 ^ 52 ≤ n * 2 ^ a ∧ n * 2 ^ a < 2 ^ 53 ∧ a ≤ 52 := by
  obtain ⟨a, h, he, hmin, hmax, ha⟩ := toFloat_eq hn hlt
  refine ⟨a, h, ?_, hmin, hmax, ha⟩
  rw [← packed_mul_one h hmin hmax (by omega) (by omega), ← he]
  show Float.ofScientific n false 0 = _
  unfold Float.ofScientific
  rw [dif_pos ⟨hlt, by decide⟩]
  rfl

theorem ofScientific_zero {n : Nat} (hn : n ≠ 0) : UnpackedFloat.ofScientific .binary64 n 0 =
    roundWithAccuracy .binary64 .positive (n * 2 ^ 53) (-53) .exact := by
  have hlow : ¬(0 : Int) < -(2 ^ Format.binary64.exponentBits + (n.log2 : Int)) := by
    show ¬(0 : Int) < -(2 ^ 11 + (n.log2 : Int))
    omega
  unfold UnpackedFloat.ofScientific
  rw [dif_neg hn, if_neg (by decide), if_neg hlow, if_pos (by decide)]
  unfold UnpackedFloat.mul
  simp only
  rw [Nat.shiftLeft_eq, show (10 : Nat) ^ Int.toNat 0 = 1 from rfl, Nat.mul_one]
  rfl

/-- The float of a large count: at least 2^53. -/
theorem ofCount_of_ge {n : Nat} (hge : 2 ^ 53 ≤ n) : ∃ (m : Nat) (e : Int) (h : 0 < m),
    ofCount n = packed m e h ∧ 2 ^ 52 ≤ m ∧ m < 2 ^ 53 ∧ 1 ≤ e := by
  have hn : n ≠ 0 := by omega
  have hlog : 53 ≤ n.log2 := (Nat.le_log2 hn).2 hge
  have hlong : (n * 2 ^ 53).log2 = 52 + (n.log2 + 1) := by
    rw [log2_mul_pow hn]
    omega
  obtain ⟨m, e, h, hround, hmin, hmax, hexp, -⟩ := round_normal .positive (e := -53) hlong (by omega)
  refine ⟨m, e, h, ?_, hmin, hmax, by omega⟩
  show Float.ofScientific n false 0 = _
  unfold Float.ofScientific
  rw [dif_neg fun hsmall => absurd hsmall.1 (Nat.not_lt.2 hge)]
  show Float.ofModel (.pack (UnpackedFloat.ofScientific .binary64 n 0)) = _
  rw [ofScientific_zero hn, hround]
  rfl

theorem isNaN_ofCount (n : Nat) : (ofCount n).isNaN = false := by
  rcases Nat.eq_zero_or_pos n with rfl | hpos
  · decide
  rcases Nat.lt_or_ge n (2 ^ 53) with hlt | hge
  · obtain ⟨a, h, he, hmin, hmax, ha⟩ := ofCount_of_lt (by omega) hlt
    rw [he]
    exact isNaN_pack h
  · obtain ⟨m, e, h, he, hmin, hmax, hexp⟩ := ofCount_of_ge hge
    rw [he]
    exact isNaN_pack h

theorem level_ofCount_of_lt {n : Nat} (hn : n ≠ 0) (hlt : n < 2 ^ 53) : ∃ a : Nat,
    level (ofCount n) = (1074 - a) * 2 ^ 52 + (n * 2 ^ a : Nat) ∧ 2 ^ 52 ≤ n * 2 ^ a ∧ n * 2 ^ a < 2 ^ 53 ∧ a ≤ 52 := by
  obtain ⟨a, h, he, hmin, hmax, ha⟩ := ofCount_of_lt hn hlt
  refine ⟨a, ?_, hmin, hmax, ha⟩
  have hunpack := unpack_packed h hmin hmax (e := -a) (by omega)
  rw [if_pos (by omega)] at hunpack
  rw [he, level_of_unpack_finite hunpack]
  omega

theorem level_ofCount_of_ge {n : Nat} (hge : 2 ^ 53 ≤ n) : 1076 * 2 ^ 52 ≤ level (ofCount n) := by
  obtain ⟨m, e, h, he, hmin, hmax, hexp⟩ := ofCount_of_ge hge
  have hunpack := unpack_packed h hmin hmax (e := e) (by omega)
  rw [he]
  split at hunpack
  · rw [level_of_unpack_finite hunpack]
    omega
  · rw [level_of_unpack_infinity hunpack]
    omega

/-- A count below 2^53 is below every greater one. -/
theorem level_ofCount_lt {k n : Nat} (h : k < n) (hk : k < 2 ^ 53) : level (ofCount k) < level (ofCount n) := by
  have hzero : level (ofCount 0) = 0 := by decide
  rcases Nat.lt_or_ge n (2 ^ 53) with hn | hn
  · obtain ⟨b, hlevel, hmin, hmax, hb⟩ := level_ofCount_of_lt (by omega) hn
    rcases Nat.eq_zero_or_pos k with rfl | hpos
    · omega
    obtain ⟨a, hlevel', hmin', hmax', ha⟩ := level_ofCount_of_lt (by omega) hk
    rcases Nat.lt_trichotomy a b with hab | rfl | hab
    · -- the greater count would have more bits than there are
      have hpow : 2 ^ (a + 1) ≤ 2 ^ b := Nat.pow_le_pow_right (by decide) hab
      have hk : k * 2 ^ (a + 1) ≤ n * 2 ^ b := Nat.mul_le_mul (by omega) hpow
      rw [Nat.pow_succ, ← Nat.mul_assoc] at hk
      omega
    · have := Nat.mul_lt_mul_of_pos_right h (Nat.two_pow_pos a)
      omega
    · omega
  · have := level_ofCount_of_ge hn
    rcases Nat.eq_zero_or_pos k with rfl | hpos
    · omega
    obtain ⟨a, hlevel', hmin', hmax', ha⟩ := level_ofCount_of_lt (by omega) hk
    omega

/-- Counts are compared as numbers, if the left one is below 2^53. -/
theorem ofCount_le_iff {k n : Nat} (hk : k < 2 ^ 53) : ofCount k ≤ ofCount n ↔ k ≤ n := by
  rw [le_iff_level (isNaN_ofCount k) (isNaN_ofCount n)]
  refine ⟨fun h => Nat.not_lt.1 fun hlt => ?_, fun h => ?_⟩
  · have := level_ofCount_lt hlt (by omega)
    omega
  · rcases Nat.eq_or_lt_of_le h with rfl | hlt
    · exact Int.le_refl _
    · exact Int.le_of_lt (level_ofCount_lt hlt hk)

theorem ofCount_lt_iff {k n : Nat} (hn : n < 2 ^ 53) : ofCount k < ofCount n ↔ k < n := by
  rw [lt_iff_level (isNaN_ofCount k) (isNaN_ofCount n), ← Nat.not_le, ← ofCount_le_iff hn,
    le_iff_level (isNaN_ofCount n) (isNaN_ofCount k), Int.not_le]

end AsOf
