import AsOf.Proofs.Decimal.Distinct
import AsOf.Proofs.Number.Count

/-!
# Floats as whole numbers of units

Every float is a whole number of times the least positive one, the unit: a mantissa of 53 bits,
shifted. An infinity counts as the power of two that comes next. Floats that are not NaN are
compared as these numbers are, and to round a rational is to choose the nearest of the numbers
that a mantissa of 53 bits can be shifted to, and then to stop at the infinities.

* `units`, `le_iff_units`: the number of units of a float.
* `Nearest`, `nearest_of_grid`: the nearest number of 53 bits.
* `Rounded`, `Rounded.upper`, `Rounded.lower`: a float that a rational is rounded to, and what
  bounds it.
-/
namespace AsOf
open Decimal (mantissa raise lower upper)

/-! ## Units -/

/-- How many units a magnitude is. -/
def spread (n : Nat) : Nat := mantissa n * 2 ^ raise n

theorem spread_lt_succ (n : Nat) : spread n < spread (n + 1) := by
  rcases Nat.eq_zero_or_pos n with rfl | hn
  · decide
  · have hlower : lower (n + 1) ≤ 4 * spread (n + 1) := by
      rw [lower, spread, ← Nat.mul_assoc]
      exact Nat.mul_le_mul_right _ (Nat.sub_le _ _)
    have hupper : 4 * spread n < upper n := by
      rw [upper, spread, ← Nat.mul_assoc]
      exact Nat.mul_lt_mul_of_pos_right (by omega) (Nat.two_pow_pos _)
    rw [Decimal.upper_eq_lower hn] at hupper
    omega

theorem spread_strictMono : StrictMono spread := strictMono_nat_of_lt_succ spread_lt_succ

/-- The magnitude of a mantissa that is full, or is not shifted. -/
theorem spread_eq {m k : Nat} (hm : m < 2 ^ 53) (hk : k = 0 ∨ 2 ^ 52 ≤ m) : spread (k * 2 ^ 52 + m) = m * 2 ^ k := by
  have hparts : mantissa (k * 2 ^ 52 + m) = m ∧ raise (k * 2 ^ 52 + m) = k := by
    unfold mantissa raise
    split <;> omega
  rw [spread, hparts.1, hparts.2]

/-- How many units a level is. -/
def signedSpread : Int → Int
  | .ofNat n => spread n
  | .negSucc n => -(spread (n + 1) : Int)

theorem signedSpread_strictMono : StrictMono signedSpread := by
  intro a b h
  cases a with
  | ofNat a =>
    cases b with
    | ofNat b => exact Int.ofNat_lt.2 (spread_strictMono (Int.ofNat_lt.1 h))
    | negSucc b =>
      have h : (a : Int) < Int.negSucc b := h
      omega
  | negSucc a =>
    cases b with
    | ofNat b =>
      have hpos : spread 0 < spread (a + 1) := spread_strictMono (Nat.zero_lt_succ a)
      show -(spread (a + 1) : Int) < (spread b : Int)
      omega
    | negSucc b =>
      have hlt : b + 1 < a + 1 := by omega
      exact Int.neg_lt_neg (Int.ofNat_lt.2 (spread_strictMono hlt))

theorem signedSpread_apply (s : Float.Model.UnpackedFloat.Sign) (n : Nat) :
    signedSpread (s.apply n) = s.apply (spread n) := by
  cases s with
  | positive => rfl
  | negative => cases n <;> rfl

/-- How many units a float is. -/
def units (x : Float) : Int := signedSpread (level x)

/-- How many units an infinity is. -/
def top : Nat := spread (2047 * 2 ^ 52)

variable {x y : Float}

theorem le_iff_units (hx : x.isNaN = false) (hy : y.isNaN = false) : x ≤ y ↔ units x ≤ units y :=
  (le_iff_level hx hy).trans signedSpread_strictMono.le_iff_le.symm

theorem lt_iff_units (hx : x.isNaN = false) (hy : y.isNaN = false) : x < y ↔ units x < units y :=
  (lt_iff_level hx hy).trans signedSpread_strictMono.lt_iff_lt.symm

theorem beq_iff_units (hx : x.isNaN = false) (hy : y.isNaN = false) : (x == y) = true ↔ units x = units y :=
  (beq_iff_level hx hy).trans signedSpread_strictMono.injective.eq_iff.symm

/-! ## Numbers of 53 bits -/

/-- A number that a mantissa can be shifted to. -/
def Short (n : Int) : Prop := ∃ m k : Nat, m < 2 ^ 53 ∧ n.natAbs = m * 2 ^ k

theorem short_spread (n : Nat) : Short (spread n) := ⟨mantissa n, raise n, Decimal.mantissa_lt n, rfl⟩

theorem Short.neg {n : Int} (h : Short n) : Short (-n) := by
  obtain ⟨m, k, hm, hn⟩ := h
  exact ⟨m, k, hm, Int.natAbs_neg n ▸ hn⟩

theorem short_units (x : Float) : Short (units x) := by
  unfold units
  cases level x with
  | ofNat n => exact short_spread n
  | negSucc n => exact (short_spread (n + 1)).neg

theorem short_shifted {r : Nat} (hr : r ≤ 2 ^ 53) (k : Nat) : Short (r * 2 ^ k) := by
  rcases Nat.lt_or_eq_of_le hr with hlt | rfl
  · exact ⟨r, k, hlt, by simp [Int.natAbs_mul, Int.natAbs_pow]⟩
  · refine ⟨2 ^ 52, k + 1, by decide, ?_⟩
    rw [pow_succ' 2 k, ← Nat.mul_assoc]
    simp [Int.natAbs_mul, Int.natAbs_pow]

theorem short_of_le {n : Nat} (h : n ≤ 2 ^ 53) : Short n := by
  simpa using short_shifted h 0

theorem short_zero : Short 0 := short_of_le (n := 0) (by decide)

/-- A long number with a full mantissa. -/
theorem Short.full {n : Int} (h : Short n) (hlong : 2 ^ 53 ≤ n) :
    ∃ m k : Nat, 2 ^ 52 ≤ m ∧ m < 2 ^ 53 ∧ n = m * 2 ^ (k + 1) := by
  obtain ⟨m, k, hm, hn⟩ := h
  have hcast : n = (m * 2 ^ k : Nat) := by rw [← hn]; omega
  rw [hcast] at hlong
  have hlong : 2 ^ 53 ≤ m * 2 ^ k := by exact_mod_cast hlong
  have hm0 : m ≠ 0 := by
    rintro rfl
    rw [Nat.zero_mul] at hlong
    omega
  -- the mantissa is shifted until it is full
  obtain ⟨a, ha⟩ : ∃ a, m.log2 + a = 52 := ⟨52 - m.log2, by have := (Nat.log2_lt (k := 53) hm0).2 hm; omega⟩
  have hfull : (m * 2 ^ a).log2 = 52 := by rw [log2_mul_pow hm0, ha]
  have hpos : m * 2 ^ a ≠ 0 := Nat.mul_ne_zero hm0 (Nat.two_pow_pos a).ne'
  have hmin : 2 ^ 52 ≤ m * 2 ^ a := hfull ▸ Nat.log2_self_le hpos
  have hmax : m * 2 ^ a < 2 ^ 53 := (Nat.log2_lt hpos).1 (by omega)
  have hak : a < k := by
    by_contra hle
    have hpow : 2 ^ k ≤ 2 ^ a := Nat.pow_le_pow_right (by decide) (by omega)
    have := Nat.mul_le_mul_left m hpow
    omega
  refine ⟨m * 2 ^ a, k - a - 1, hmin, hmax, ?_⟩
  rw [hcast, show k - a - 1 + 1 = k - a by omega]
  push_cast
  rw [mul_assoc, ← pow_add, show a + (k - a) = k by omega]

/-! ## The nearest number -/

/-- Of the numbers that a mantissa can be shifted to, none is nearer to a rational. -/
structure Nearest (z : ℚ) (n : Int) : Prop where
  short : Short n
  le : ∀ n', Short n' → |n - z| ≤ |n' - z|

namespace Nearest

variable {z : ℚ} {n c : Int}

theorem neg (h : Nearest z n) : Nearest (-z) (-n) := by
  refine ⟨h.short.neg, fun n' hn' => ?_⟩
  have hle := h.le (-n') hn'.neg
  have hleft : |((-n : Int) : ℚ) - -z| = |n - z| := by
    rw [Int.cast_neg, neg_sub_neg, abs_sub_comm]
  have hright : |((-n' : Int) : ℚ) - z| = |n' - -z| := by
    rw [Int.cast_neg, ← neg_add', abs_neg, sub_neg_eq_add]
  rwa [hleft, ← hright]

/-- A number of 53 bits that is no less than the rational is no less than the nearest. -/
theorem upper (h : Nearest z n) (hc : Short c) (hz : z ≤ c) : n ≤ c := by
  by_contra hlt
  have hlt : (c : ℚ) < n := by exact_mod_cast Int.not_le.1 hlt
  have hle := h.le c hc
  rw [abs_of_nonneg (by linarith), abs_of_nonneg (by linarith)] at hle
  linarith

theorem lower (h : Nearest z n) (hc : Short c) (hz : c ≤ z) : c ≤ n := by
  have hneg : -z ≤ ((-c : Int) : ℚ) := by
    rw [Int.cast_neg]
    exact neg_le_neg hz
  exact Int.neg_le_neg_iff.1 (h.neg.upper hc.neg hneg)

theorem eq (h : Nearest c n) (hc : Short c) : n = c := le_antisymm (h.upper hc le_rfl) (h.lower hc le_rfl)

end Nearest

/-- An integer within half a step is nearest among all: another is at least one step away from it. -/
theorem abs_sub_le_of_half {r i : Int} {v : ℚ} (hr : |(r : ℚ) - v| ≤ 1 / 2) : |(r : ℚ) - v| ≤ |i - v| := by
  by_cases hi : i = r
  · rw [hi]
  · have hstep : (1 : ℚ) ≤ |(i : ℚ) - r| := by
      exact_mod_cast Int.one_le_abs (sub_ne_zero.2 hi)
    have htriangle : |(i : ℚ) - r| ≤ |i - v| + |r - v| := by
      rw [abs_sub_comm (r : ℚ) v]
      exact abs_sub_le _ _ _
    linarith

/-- A number of 53 bits that is no multiple of a power of two has been shifted by less. -/
theorem le_of_not_dvd {n : Int} {k : Nat} (hn : Short n) (hdvd : ¬(2 : Int) ^ k ∣ n) :
    0 < k ∧ n ≤ ((2 ^ 52 * 2 ^ k : Nat) : Int) := by
  obtain ⟨m, j, hm, habs⟩ := hn
  have hjk : j < k := by
    by_contra hle
    refine hdvd (Int.natAbs_dvd_natAbs.1 ?_)
    rw [habs, Int.natAbs_pow]
    exact Nat.dvd_mul_left_of_dvd (Nat.pow_dvd_pow 2 (Nat.not_lt.1 hle)) m
  have hnat : n.natAbs ≤ 2 ^ 52 * 2 ^ k := by
    have hpow : 2 ^ (j + 1) ≤ 2 ^ k := Nat.pow_le_pow_right (by decide) hjk
    calc
      n.natAbs = m * 2 ^ j := habs
      _ ≤ 2 ^ 53 * 2 ^ j := Nat.mul_le_mul_right _ hm.le
      _ = 2 ^ 52 * 2 ^ (j + 1) := by rw [pow_succ 2 j]; ring
      _ ≤ 2 ^ 52 * 2 ^ k := Nat.mul_le_mul_left _ hpow
  exact ⟨Nat.zero_lt_of_lt hjk, Int.le_natAbs.trans (Int.ofNat_le.2 hnat)⟩

/-- A rational lies between multiples of a power of two. If it is so large that numbers of 53 bits
which are no multiples are smaller, the nearest multiple is the nearest number. -/
theorem nearest_of_grid {k r : Nat} {v : ℚ} (hr : |(r : ℚ) - v| ≤ 1 / 2) (hk : k = 0 ∨ 2 ^ 52 ≤ v)
    (hmax : r ≤ 2 ^ 53) : Nearest (v * 2 ^ k) (r * 2 ^ k) := by
  have hpow : (0 : ℚ) < 2 ^ k := by positivity
  have hscale (i : ℚ) : |i * 2 ^ k - v * 2 ^ k| = |i - v| * 2 ^ k := by
    rw [← sub_mul, abs_mul, abs_of_pos hpow]
  have hmultiple (i : Int) : |(r : ℚ) - v| ≤ |i - v| := by
    exact_mod_cast abs_sub_le_of_half (r := r) (i := i) (by exact_mod_cast hr)
  refine ⟨short_shifted hmax k, fun n' hn' => ?_⟩
  push_cast
  rw [hscale]
  by_cases hdvd : (2 : Int) ^ k ∣ n'
  · obtain ⟨i, rfl⟩ := hdvd
    push_cast
    rw [mul_comm ((2 : ℚ) ^ k), hscale]
    exact mul_le_mul_of_nonneg_right (hmultiple i) hpow.le
  · -- it has fewer bits than the rational, and the power of two between is nearer
    obtain ⟨hkpos, hle⟩ := le_of_not_dvd hn' hdvd
    have hfull : 2 ^ 52 ≤ v := hk.resolve_left hkpos.ne'
    have hsmall : (n' : ℚ) ≤ 2 ^ 52 * 2 ^ k := by exact_mod_cast hle
    have hnear : |(r : ℚ) - v| ≤ v - 2 ^ 52 := by
      have h := hmultiple ((2 ^ 52 : Nat) : Int)
      rwa [Int.cast_natCast, Nat.cast_pow, Nat.cast_ofNat, abs_of_nonpos (sub_nonpos.2 hfull), neg_sub] at h
    calc
      |(r : ℚ) - v| * 2 ^ k ≤ (v - 2 ^ 52) * 2 ^ k := mul_le_mul_of_nonneg_right hnear hpow.le
      _ = v * 2 ^ k - 2 ^ 52 * 2 ^ k := sub_mul ..
      _ ≤ v * 2 ^ k - n' := sub_le_sub_left hsmall _
      _ ≤ |(n' : ℚ) - v * 2 ^ k| := by
        rw [abs_sub_comm]
        exact le_abs_self _

/-! ## Rounding -/

/-- A float that a rational number of units is rounded to: as many units as the nearest number, or an
infinity if there are no floats of so many. -/
structure Rounded (z : ℚ) (x : Float) : Prop where
  present : x.isNaN = false
  nearest : ∃ n, Nearest z n ∧ units x = max (-top : Int) (min n top)

namespace Rounded

variable {z : ℚ} {c : Int}

theorem upper (h : Rounded z x) (hc : Short c) (hlow : -top ≤ c) (hz : z ≤ c) : units x ≤ c := by
  obtain ⟨n, hn, hx⟩ := h.nearest
  have := hn.upper hc hz
  omega

theorem lower (h : Rounded z x) (hc : Short c) (hhigh : c ≤ top) (hz : c ≤ z) : c ≤ units x := by
  obtain ⟨n, hn, hx⟩ := h.nearest
  have := hn.lower hc hz
  omega

theorem nonneg (h : Rounded z x) (hz : 0 ≤ z) : 0 ≤ units x :=
  h.lower short_zero (Int.natCast_nonneg _) (by rwa [Int.cast_zero])

/-- What is a number of 53 bits already is not changed. -/
theorem exact (h : Rounded c x) (hc : Short c) (hlow : -top ≤ c) (hhigh : c ≤ top) : units x = c :=
  le_antisymm (h.upper hc hlow le_rfl) (h.lower hc hhigh le_rfl)

/-- A finite float that a rational is rounded to is the nearest number. -/
theorem nearest_of_lt (h : Rounded z x) (hlow : -top < units x) (hhigh : units x < top) : Nearest z (units x) := by
  obtain ⟨n, hn, hx⟩ := h.nearest
  obtain rfl : units x = n := by omega
  exact hn

end Rounded
end AsOf
