import AsOf.Proofs.Number.Rounding

/-!
# Arithmetic of finite floats, counted in units

Sum, difference and product of two finite floats are what the exact ones are rounded to. The units
of a factor are those of the other factor times the units of one, and so a product of units is
divided by these.

* `Parts`, `parts_units`: an unpacked float and its units.
* `isFinite_iff`: finite floats are those between the infinities.
* `rounded_normalize`: a signed mantissa at any exponent.
* `rounded_add`, `rounded_sub`, `rounded_mul`: arithmetic.
-/
namespace AsOf
open Float.Model (UnpackedFloat Format totalExponent)
open Float.Model.UnpackedFloat

/-! ## Parts -/

/-- An unpacked float with its units. -/
inductive Parts : UnpackedFloat → Int → Prop
  | infinity {s : Sign} : Parts (.infinity s) (s.apply top)
  | zero {s : Sign} : Parts (.zero s) 0
  | finite {s : Sign} (m k : Nat) (h : 0 < m) (hm : m < 2 ^ 53) (hk : k = 0 ∨ 2 ^ 52 ≤ m) :
      Parts (.finite s m (k - 1074) h) (s.apply ((m * 2 ^ k : Nat) : Int))

variable {x y : Float}

theorem parts_units (hx : x.isNaN = false) : Parts x.toModel.unpack (units x) := by
  obtain ⟨s, n, h, -⟩ := exists_leveled hx
  rw [(units_of_leveled h).2]
  generalize x.toModel.unpack = u at h
  cases h with
  | infinity => exact .infinity
  | zero => exact (apply_zero s).symm ▸ Parts.zero
  | finite m e k h hm he hk hlt =>
    subst he
    rw [spread_eq hm hk]
    exact .finite m k h hm hk

theorem top_pos : 0 < top := spread_strictMono (show 0 < 2047 * 2 ^ 52 by decide)

theorem neg_top_lt_zero : (-top : Int) < 0 := Int.neg_neg_of_pos (Int.natCast_pos.2 top_pos)

/-- The infinities are the least and the greatest. -/
theorem units_bounds (hx : x.isNaN = false) : (-top : Int) ≤ units x ∧ units x ≤ top := by
  obtain ⟨s, n, h, -⟩ := exists_leveled hx
  rw [(units_of_leveled h).2]
  generalize x.toModel.unpack = u at h
  have hn : n ≤ 2047 * 2 ^ 52 := by
    cases h <;> omega
  have htop : spread n ≤ top := spread_strictMono.monotone hn
  have := apply_bounds s (spread n)
  omega

theorem isNaN_of_isFinite (hx : x.isFinite = true) : x.isNaN = false := by
  have hx : x.toModel.unpack.isFinite = true := hx
  show x.toModel.unpack.isNaN = false
  cases hu : x.toModel.unpack <;> first | rfl | (rw [hu] at hx; cases hx)

/-- What is not NaN is finite if it is neither the least nor the greatest. -/
theorem isFinite_iff (hx : x.isNaN = false) : x.isFinite = true ↔ (-top : Int) < units x ∧ units x < top := by
  have hpos := top_pos
  obtain ⟨s, n, h, -⟩ := exists_leveled hx
  show x.toModel.unpack.isFinite = true ↔ _
  rw [(units_of_leveled h).2]
  generalize x.toModel.unpack = u at h
  cases h with
  | infinity =>
    refine iff_of_false nofun ?_
    show ¬(_ < s.apply (top : Nat) ∧ s.apply (top : Nat) < _)
    cases s with
    | positive => exact fun h => absurd h.2 (Int.lt_irrefl _)
    | negative => exact fun h => absurd h.1 (Int.lt_irrefl _)
  | zero =>
    rw [show spread 0 = 0 from rfl, apply_zero]
    exact iff_of_true rfl ⟨by omega, by omega⟩
  | finite m e k h hm he hk hlt =>
    have hless : spread (k * 2 ^ 52 + m) < top := spread_strictMono (by omega)
    have := apply_bounds s (spread (k * 2 ^ 52 + m))
    exact iff_of_true rfl ⟨by omega, by omega⟩

/-! ## Signed mantissas -/

/-- How many units the number one is. -/
def unity : Nat := 2 ^ 1074

theorem unity_pos : 0 < unity := by
  rw [unity]
  positivity

theorem unity_cast_pos : (0 : Int) < unity := Int.natCast_pos.2 unity_pos

theorem unity_eq : (unity : ℚ) = 2 ^ (1074 : Int) := by
  rw [unity, Nat.cast_pow, Nat.cast_ofNat, zpow_ofNat]

theorem unity_split {a : Nat} (h : a ≤ 1074) : unity = 2 ^ a * 2 ^ (1074 - a) := by
  rw [← Nat.pow_add, Nat.add_sub_cancel' h, unity]

theorem mul_pow_unity (m : Nat) {k : Nat} (h : 1074 ≤ k) : m * 2 ^ k = m * 2 ^ (k - 1074) * unity := by
  rw [unity, Nat.mul_assoc, ← Nat.pow_add, Nat.sub_add_cancel h]

theorem apply_neg (s : Sign) (n : Int) : (-s).apply n = -s.apply n := by
  cases s with
  | positive => rfl
  | negative => exact (Int.neg_neg n).symm

theorem apply_mul (s s' : Sign) (a b : Int) : (s * s').apply (a * b) = s.apply a * s'.apply b := by
  cases s <;> cases s'
  · exact (Int.neg_mul_neg a b).symm
  · exact (Int.neg_mul a b).symm
  · exact (Int.mul_neg a b).symm
  · rfl

theorem apply_cast_mul (s : Sign) (m n : Nat) : (s.apply ((m * n : Nat) : Int) : ℚ) = (s.apply (m : Int) : ℚ) * n := by
  cases s with
  | positive =>
    show (((m * n : Nat) : Int) : ℚ) = ((m : Int) : ℚ) * n
    push_cast
    ring
  | negative =>
    show ((-((m * n : Nat) : Int) : Int) : ℚ) = ((-(m : Int) : Int) : ℚ) * n
    push_cast
    ring

/-! ## Rounding signed mantissas -/

theorem nearest_self {c : Int} (hc : Short c) : Nearest c c :=
  ⟨hc, fun n' _ => by rw [sub_self, abs_zero]; exact abs_nonneg _⟩

theorem rounded_zero (s : Sign) : Rounded 0 (.ofModel (.pack (.zero s))) := by
  obtain ⟨hnan, hunits⟩ := units_packed_zero s
  have hzero : Nearest ((0 : Int) : ℚ) 0 := nearest_self short_zero
  exact ⟨hnan, 0, by rwa [Int.cast_zero] at hzero, by rw [hunits]; omega⟩

theorem rounded_packed {s : Sign} {m k : Nat} (h : 0 < m) (hm : m < 2 ^ 53) (hk : k = 0 ∨ 2 ^ 52 ≤ m) :
    Rounded (s.apply ((m * 2 ^ k : Nat) : Int) : Int) (.ofModel (.pack (.finite s m (k - 1074) h))) := by
  obtain ⟨hnan, hunits⟩ := units_packed h hm hk
  refine ⟨hnan, _, nearest_self ?_, hunits⟩
  have hshort : Short ((m * 2 ^ k : Nat) : Int) := ⟨m, k, hm, rfl⟩
  cases s with
  | positive => exact hshort
  | negative => exact hshort.neg

/-- A signed mantissa at any exponent is rounded to the nearest float. -/
theorem rounded_normalize (n e : Int) (zeroSign : Sign) :
    Rounded (n * 2 ^ (e + 1074)) (.ofModel (.pack (normalize .binary64 n e zeroSign))) := by
  -- first the exponent is lowered to that of the format, which changes nothing
  have hround (s : Sign) {m : Nat} (hm : 0 < m) : Rounded ((s.apply m : Int) * 2 ^ (e + 1074))
      (.ofModel (.pack (round .binary64 s m e))) := by
    obtain ⟨t, ht⟩ : ∃ t, t = Format.binary64.targetExponent (totalExponent m e) := ⟨_, rfl⟩
    obtain ⟨a, ha⟩ : ∃ a, a = (e - t).toNat := ⟨_, rfl⟩
    have htotal : totalExponent (m * 2 ^ a) (e - a) = totalExponent m e := by
      rw [totalExponent, totalExponent, log2_mul_pow hm.ne']
      omega
    have hlow : e - a ≤ Format.binary64.targetExponent (totalExponent (m * 2 ^ a) (e - a)) := by
      rw [htotal, ← ht]
      omega
    have hrounded := rounded_of_round s (Nat.mul_pos hm (Nat.two_pow_pos a)) hlow
    have hvalue : ((s.apply ((m * 2 ^ a : Nat) : Int) : Int) : ℚ) * 2 ^ (e - a + 1074) =
        (s.apply m : Int) * 2 ^ (e + 1074) := by
      rw [apply_cast_mul, Nat.cast_pow, Nat.cast_ofNat, mul_assoc, ← zpow_natCast, ← zpow_add₀ (by norm_num)]
      congr 2
      omega
    have heq : round .binary64 s m e = roundWithAccuracy .binary64 s (m * 2 ^ a) (e - a) .exact := by
      rw [Float.Model.UnpackedFloat.round, ← ht]
      unfold decreaseExponent
      simp only
      rw [← ha, Nat.shiftLeft_eq]
    rwa [heq, ← hvalue]
  unfold Float.Model.UnpackedFloat.normalize
  rcases Int.lt_trichotomy n 0 with hneg | rfl | hpos
  · have hsign := hround .negative (m := (-n).toNat) (by omega)
    have happly : Sign.negative.apply ((-n).toNat : Int) = n := by
      show -((-n).toNat : Int) = n
      omega
    rw [show compare n 0 = .lt from Std.compare_eq_lt.2 hneg]
    rwa [happly] at hsign
  · rw [Int.cast_zero, zero_mul]
    exact rounded_zero zeroSign
  · have hsign := hround .positive (m := n.toNat) (by omega)
    have happly : Sign.positive.apply (n.toNat : Int) = n := Int.toNat_of_nonneg hpos.le
    rw [show compare n 0 = .gt from Std.compare_eq_gt.2 hpos]
    rwa [happly] at hsign

/-! ## Arithmetic -/

section arithmetic

variable {u v : UnpackedFloat} {n n' : Int}

/-- To lower an exponent changes nothing. -/
theorem shiftLeft_units (s : Sign) (m : Nat) {k c : Nat} (hc : c ≤ k) :
    ((s.apply ((m <<< (((k : Int) - 1074) - (c - 1074)).toNat : Nat) : Int) : Int) : ℚ) * 2 ^ c =
      (s.apply ((m * 2 ^ k : Nat) : Int) : Int) := by
  rw [Nat.shiftLeft_eq, apply_cast_mul, apply_cast_mul, mul_assoc, Nat.cast_pow, Nat.cast_pow, Nat.cast_ofNat, ← pow_add]
  congr 2
  omega

theorem Parts.rounded_add (hu : Parts u n) (hv : Parts v n') (fu : u.isFinite = true) (fv : v.isFinite = true) :
    Rounded (n + n') (.ofModel (.pack (.add .binary64 u v))) := by
  cases hu with
  | infinity => cases fu
  | @zero s =>
    cases hv with
    | infinity => cases fv
    | @zero s' =>
      rw [Int.cast_zero, add_zero]
      show Rounded 0 (.ofModel (.pack (if s == s' then .zero s else .zero .positive)))
      split <;> exact rounded_zero _
    | finite m k h hm hk =>
      rw [Int.cast_zero, zero_add]
      exact rounded_packed h hm hk
  | @finite s m k h hm hk =>
    cases hv with
    | infinity => cases fv
    | zero =>
      rw [Int.cast_zero, add_zero]
      exact rounded_packed h hm hk
    | @finite s' m' k' h' hm' hk' =>
      obtain ⟨c, hc⟩ : ∃ c, c = min k k' := ⟨_, rfl⟩
      have hmin : min ((k : Int) - 1074) (k' - 1074) = c - 1074 := by omega
      have h := rounded_normalize (s.apply ((m <<< (((k : Int) - 1074) - (c - 1074)).toNat : Nat) : Int) +
        s'.apply ((m' <<< (((k' : Int) - 1074) - (c - 1074)).toNat : Nat) : Int)) (c - 1074) .positive
      rw [Int.cast_add, Int.sub_add_cancel, zpow_natCast, add_mul, shiftLeft_units s m (by omega),
        shiftLeft_units s' m' (by omega)] at h
      rw [UnpackedFloat.add]
      unfold decreaseExponent
      simp only
      rwa [hmin]

theorem Parts.neg (h : Parts u n) : Parts u.neg (-n) := by
  cases h with
  | @infinity s => exact apply_neg s top ▸ Parts.infinity
  | zero => exact Parts.zero
  | @finite s m k h hm hk => exact apply_neg s _ ▸ Parts.finite m k h hm hk

/-- To subtract is to add the opposite. -/
theorem sub_eq_add (u v : UnpackedFloat) : UnpackedFloat.sub .binary64 u v = UnpackedFloat.add .binary64 u v.neg := by
  cases u with
  | finite s m e h =>
    cases v with
    | finite s' m' e' h' =>
      unfold UnpackedFloat.sub UnpackedFloat.neg UnpackedFloat.add
      simp only [apply_neg, Int.sub_eq_add_neg]
    | _ => rfl
  | _ => cases v <;> rfl

theorem Parts.rounded_mul (hu : Parts u n) (hv : Parts v n') (fu : u.isFinite = true) (fv : v.isFinite = true) :
    Rounded (n * n' / unity) (.ofModel (.pack (.mul .binary64 u v))) := by
  cases hu with
  | infinity => cases fu
  | zero =>
    rw [Int.cast_zero, zero_mul, zero_div]
    cases hv with
    | infinity => cases fv
    | zero => exact rounded_zero _
    | finite m k h hm hk => exact rounded_zero _
  | @finite s m k h hm hk =>
    cases hv with
    | infinity => cases fv
    | zero =>
      rw [Int.cast_zero, mul_zero, zero_div]
      exact rounded_zero _
    | @finite s' m' k' h' hm' hk' =>
      -- unless both mantissas stand at the least exponent, the product has 53 bits
      have hlow : (k : Int) - 1074 + (k' - 1074) ≤
          Format.binary64.targetExponent (totalExponent (m * m') (k - 1074 + (k' - 1074))) := by
        have hlong (hfull : 2 ^ 52 ≤ m * m') : 52 ≤ (m * m').log2 :=
          (Nat.le_log2 (Nat.mul_pos h h').ne').2 hfull
        show _ ≤ max (((m * m').log2 : Int) + 1 + (k - 1074 + (k' - 1074)) - 53) (-1074)
        rcases hk with rfl | hfull
        · rcases hk' with rfl | hfull'
          · omega
          · have := hlong (hfull'.trans (Nat.le_mul_of_pos_left m' h))
            omega
        · have := hlong (hfull.trans (Nat.le_mul_of_pos_right m h'))
          omega
      have hrounded := rounded_of_round (s * s') (Nat.mul_pos h h') hlow
      have hvalue : (((s * s').apply ((m * m' : Nat) : Int) : Int) : ℚ) * 2 ^ ((k : Int) - 1074 + (k' - 1074) + 1074) =
          (s.apply ((m * 2 ^ k : Nat) : Int) : Int) * (s'.apply ((m' * 2 ^ k' : Nat) : Int) : Int) / unity := by
        rw [Int.natCast_mul, apply_mul, Int.cast_mul, apply_cast_mul, apply_cast_mul, unity_eq, Nat.cast_pow,
          Nat.cast_pow, Nat.cast_ofNat, eq_div_iff (by positivity), mul_assoc, ← zpow_add₀ (by norm_num),
          mul_mul_mul_comm, ← pow_add, ← zpow_natCast]
        congr 2
        omega
      rwa [hvalue] at hrounded

end arithmetic

theorem rounded_add (hx : x.isFinite = true) (hy : y.isFinite = true) : Rounded (units x + units y) (x + y) :=
  (parts_units (isNaN_of_isFinite hx)).rounded_add (parts_units (isNaN_of_isFinite hy)) hx hy

theorem rounded_sub (hx : x.isFinite = true) (hy : y.isFinite = true) : Rounded (units x - units y) (x - y) := by
  have hneg : y.toModel.unpack.neg.isFinite = true := by
    have hy : y.toModel.unpack.isFinite = true := hy
    revert hy
    cases y.toModel.unpack <;> exact id
  have h := (parts_units (isNaN_of_isFinite hx)).rounded_add (parts_units (isNaN_of_isFinite hy)).neg hx hneg
  rw [← sub_eq_add, Int.cast_neg, ← sub_eq_add_neg] at h
  exact h

theorem rounded_mul (hx : x.isFinite = true) (hy : y.isFinite = true) : Rounded (units x * units y / unity) (x * y) :=
  (parts_units (isNaN_of_isFinite hx)).rounded_mul (parts_units (isNaN_of_isFinite hy)) hx hy

end AsOf
