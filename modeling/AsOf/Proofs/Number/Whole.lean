import AsOf.Proofs.Number.Arithmetic
import AsOf.Quantity

/-!
# Whole numbers of floats

A count below 2^53 is so many times the units of one, and the whole number below a float is the
quotient of its units by those of one. The whole number above is another one exactly if there is a
remainder.

* `units_ofCount`: a count as a float.
* `wholeBelow_eq`, `wholeAbove_eq`: the whole numbers next to a float.
-/
namespace AsOf
open Float.Model (UnpackedFloat)
open Float.Model.UnpackedFloat

variable {x : Float}

theorem units_ofCount {n : Nat} (h : n < 2 ^ 53) : units (ofCount n) = n * unity := by
  rcases Nat.eq_zero_or_pos n with rfl | hpos
  · rw [Int.natCast_zero, Int.zero_mul]
    decide
  obtain ⟨a, hm, he, hmin, hmax, ha⟩ := ofCount_of_lt hpos.ne' h
  have hexp : (-a : Int) = ((1074 - a : Nat) : Int) - 1074 := by omega
  obtain ⟨-, hunits⟩ := units_packed (s := .positive) hm hmax (.inr hmin) (k := 1074 - a)
  have hvalue : n * 2 ^ a * 2 ^ (1074 - a) = n * unity := by
    rw [Nat.mul_assoc, ← unity_split (ha.trans (by decide))]
  have hlt : n * unity < top := by
    rw [← hvalue, ← spread_eq hmax (.inr hmin)]
    exact spread_strictMono (by omega)
  rw [hvalue] at hunits
  rw [he, packed, hexp, hunits, ← Int.natCast_mul]
  exact (congrArg (max (-top : Int)) (min_eq_left (Int.ofNat_le.2 hlt.le))).trans
    (max_eq_right ((Int.neg_nonpos_of_nonneg (Int.natCast_nonneg _)).trans (Int.natCast_nonneg _)))

theorem isFinite_ofCount {n : Nat} (h : n < 2 ^ 53) : (ofCount n).isFinite = true := by
  rcases Nat.eq_zero_or_pos n with rfl | hpos
  · decide
  obtain ⟨a, hm, he, hmin, hmax, ha⟩ := ofCount_of_lt hpos.ne' h
  have hunpack := unpack_packed hm hmin hmax (e := -a) (by omega)
  rw [if_pos (by omega)] at hunpack
  show (ofCount n).toModel.unpack.isFinite = true
  rw [he, hunpack]
  rfl

theorem roundToInt_eq (s : Sign) (m k : Nat) :
    roundToInt s m (k - 1074) = s.apply ((m * 2 ^ k / unity : Nat) : Int) := by
  unfold roundToInt decreaseExponent shiftToExponent
  simp only [mantissa_shiftRight, Nat.shiftLeft_eq]
  congr 2
  rcases Nat.le_total 1074 k with hle | hle
  · rw [mul_pow_unity m hle, Nat.mul_div_cancel _ unity_pos]
    have hleft : ((k : Int) - 1074 - 0).toNat = k - 1074 := by omega
    have hright : (0 - ((k : Int) - 1074 - ((k - 1074 : Nat) : Int))).toNat = 0 := by omega
    rw [hleft, hright, Nat.pow_zero, Nat.div_one]
  · have hleft : ((k : Int) - 1074 - 0).toNat = 0 := by omega
    have hright : (0 - ((k : Int) - 1074 - ((0 : Nat) : Int))).toNat = 1074 - k := by omega
    rw [hleft, hright, Nat.pow_zero, Nat.mul_one, unity_split hle, Nat.mul_comm (2 ^ k),
      Nat.mul_div_mul_right _ _ (Nat.two_pow_pos k)]

theorem wholeBelow_eq (hx : x.isFinite = true) (h : units x < UInt64.size * unity) :
    wholeBelow x = (units x / unity).toNat := by
  have hparts := parts_units (isNaN_of_isFinite hx)
  have hpos := unity_cast_pos
  have hsmall : (units x / unity).toNat < UInt64.size := by
    have hlt := Int.ediv_lt_of_lt_mul hpos h
    have hsize : 0 < UInt64.size := by decide
    omega
  have hint : (x.toModel.unpack.toInt 0 (UInt64.size - 1)).toNat = (units x / unity).toNat := by
    have hfin : x.toModel.unpack.isFinite = true := hx
    generalize x.toModel.unpack = u at hparts hfin
    generalize units x = n at hparts
    cases hparts with
    | infinity => cases hfin
    | zero => rw [Int.zero_ediv]; rfl
    | @finite s m k hm _ _ =>
      show (roundToInt s m (k - 1074)).toNat = _
      rw [roundToInt_eq]
      cases s with
      | positive => 
        show ((m * 2 ^ k / unity : Nat) : Int).toNat = (((m * 2 ^ k : Nat) : Int) / (unity : Int)).toNat
        rw [Int.natCast_ediv]
      | negative =>
        have hneg : -((m * 2 ^ k : Nat) : Int) / (unity : Int) < 0 := 
          Int.ediv_neg_of_neg_of_pos (Int.neg_neg_of_pos (Int.natCast_pos.2 (Nat.mul_pos hm (Nat.two_pow_pos k)))) hpos
        show (-((m * 2 ^ k / unity : Nat) : Int)).toNat = (-((m * 2 ^ k : Nat) : Int) / (unity : Int)).toNat
        rw [Int.toNat_of_nonpos hneg.le, Int.toNat_of_nonpos (Int.neg_nonpos_of_nonneg (Int.natCast_nonneg _))]
  show (UInt64.ofNatClamp (x.toModel.unpack.toInt 0 (UInt64.size - 1)).toNat).toNat = _
  rw [hint, UInt64.toNat_ofNatClamp_of_lt hsmall]

/-- The same for floats from zero, whose counts are exact. -/
theorem wholeBelow_lt (hx : x.isFinite = true) (h0 : 0 ≤ units x) (h : units x < 2 ^ 53 * unity) :
    (wholeBelow x : Int) = units x / unity ∧ wholeBelow x < 2 ^ 53 := by
  have hpos := unity_cast_pos
  have hsize : (2 ^ 53 : Int) ≤ UInt64.size := by decide
  have hwhole := wholeBelow_eq hx (h.trans_le (Int.mul_le_mul_of_nonneg_right hsize hpos.le))
  have hquot : 0 ≤ units x / unity := Int.ediv_nonneg h0 hpos.le
  have hlt := Int.ediv_lt_of_lt_mul hpos h
  omega

/-- A float has a fraction if it is no multiple of one. -/
theorem ofCount_wholeBelow_lt_iff (hx : x.isFinite = true) (h0 : 0 ≤ units x) (h : units x < 2 ^ 53 * unity) :
    ofCount (wholeBelow x) < x ↔ units x % unity ≠ 0 := by
  obtain ⟨hwhole, hlt⟩ := wholeBelow_lt hx h0 h
  have hsplit := Int.mul_ediv_add_emod (units x) unity
  have hmod := Int.emod_nonneg (units x) unity_cast_pos.ne'
  rw [lt_iff_units (isNaN_ofCount _) (isNaN_of_isFinite hx), units_ofCount hlt, hwhole, Int.mul_comm]
  omega

theorem wholeAbove_eq (hx : x.isFinite = true) (h0 : 0 ≤ units x) (h : units x < 2 ^ 53 * unity) :
    wholeAbove x = if units x % unity = 0 then wholeBelow x else wholeBelow x + 1 := by
  obtain ⟨-, hlt⟩ := wholeBelow_lt hx h0 h
  unfold wholeAbove
  by_cases hmod : units x % unity = 0
  · rw [if_pos hmod, if_neg (not_not_intro hmod ∘ (ofCount_wholeBelow_lt_iff hx h0 h).1)]
  · rw [if_neg hmod, if_pos ((ofCount_wholeBelow_lt_iff hx h0 h).2 hmod)]
    omega

/-! ## The fraction -/

theorem Short.emod {n : Int} (h : Short n) (h0 : 0 ≤ n) : Short (n % unity) := by
  obtain ⟨m, k, hm, hn⟩ := h
  obtain rfl : n = (m * 2 ^ k : Nat) := by rw [← hn]; omega
  rw [← Int.natCast_emod]
  rcases Nat.le_total 1074 k with hle | hle
  · rw [mul_pow_unity m hle, Nat.mul_mod_left]
    exact short_of_le (by decide)
  · rw [unity_split hle, Nat.mul_comm (2 ^ k), Nat.mul_mod_mul_right]
    exact ⟨m % 2 ^ (1074 - k), k, (Nat.mod_le _ _).trans_lt hm, rfl⟩

/-- What a float is above the whole number below it, exactly. -/
theorem units_fraction (hx : x.isFinite = true) (h0 : 0 ≤ units x) (h : units x < 2 ^ 53 * unity) :
    (x - ofCount (wholeBelow x)).isFinite = true ∧ units (x - ofCount (wholeBelow x)) = units x % unity := by
  obtain ⟨hwhole, hlt⟩ := wholeBelow_lt hx h0 h
  have hpos := unity_cast_pos
  have hone := (isFinite_iff (isNaN_ofCount 1)).1 (isFinite_ofCount (by decide))
  rw [units_ofCount (by decide), Int.natCast_one, Int.one_mul] at hone
  have hmod := Int.emod_nonneg (units x) hpos.ne'
  have hmod' := Int.emod_lt_of_pos (units x) hpos
  have hrounded := rounded_sub hx (isFinite_ofCount hlt)
  have hexact : units x - units (ofCount (wholeBelow x)) = units x % unity := by
    rw [units_ofCount hlt, hwhole, Int.mul_comm]
    exact (Int.emod_def _ _).symm
  rw [← Int.cast_sub, hexact] at hrounded
  have hunits := hrounded.exact ((short_units x).emod h0) (by omega) (by omega)
  exact ⟨(isFinite_iff hrounded.present).2 (by omega), hunits⟩

/-- A float between zero and a count, the whole numbers next to it and its fraction. -/
theorem whole_bounds {n : Nat} (hn : n < 2 ^ 53) (hx : x.isFinite = true) (h0 : 0 ≤ units x) (h : units x ≤ n * unity) :
    wholeBelow x ≤ wholeAbove x ∧ wholeAbove x ≤ n ∧ (x - ofCount (wholeBelow x)).isFinite = true ∧
      0 ≤ units (x - ofCount (wholeBelow x)) ∧ units (x - ofCount (wholeBelow x)) < unity ∧
      (units (x - ofCount (wholeBelow x)) = 0 → wholeBelow x = wholeAbove x) := by
  have hpos := unity_cast_pos
  have hlt : units x < 2 ^ 53 * unity := h.trans_lt (Int.mul_lt_mul_of_pos_right (by omega) hpos)
  obtain ⟨hwhole, -⟩ := wholeBelow_lt hx h0 hlt
  obtain ⟨hfinite, hunits⟩ := units_fraction hx h0 hlt
  have habove := wholeAbove_eq hx h0 hlt
  have hsplit := Int.mul_ediv_add_emod (units x) unity
  refine ⟨?_, ?_, hfinite, hunits ▸ Int.emod_nonneg _ hpos.ne', hunits ▸ Int.emod_lt_of_pos _ hpos, fun hzero => ?_⟩
  · rw [habove]
    split <;> omega
  · have hle : units x / unity ≤ n := Int.ediv_le_of_le_mul hpos h
    rw [habove]
    split
    · omega
    · rename_i hmod
      have hne : units x / unity ≠ n := fun heq => by
        rw [heq, Int.mul_comm] at hsplit
        have := Int.emod_nonneg (units x) hpos.ne'
        omega
      omega
  · rw [habove, if_pos (hunits.symm.trans hzero)]

end AsOf
