import AsOf.Proofs.Number.Infinite

/-!
# Interpolation between floats

Between two finite floats whose difference is finite, what lies a part of the way from one to the
other is computed as no less than the first and no more than the second, although the difference
may be rounded up: the part is less than one by so much that the product falls back below the
exact difference. If the difference is too large for a float, the result is an infinity, and
from an infinity there is no way at all.

* `Short.below`: how near the next smaller number of 53 bits is.
* `product_le`: a part of a rounded difference.
* `interpolated`: what lies a part of the way from one float to another.
-/
namespace AsOf

/-! ## Numbers next to each other -/

/-- Below a long number there is another one, nearer to it than the 2^52nd part. -/
theorem Short.below {n : Int} (h : Short n) (hlong : 2 ^ 53 ≤ n) : ∃ c, Short c ∧ c < n ∧ (n - c) * 2 ^ 52 < n := by
  obtain ⟨m, k, hmin, hmax, rfl⟩ := h.full hlong
  have hpow : (0 : Int) < 2 ^ k := by positivity
  have hstep : (2 : Int) ^ (k + 1) = 2 * 2 ^ k := pow_succ' 2 k
  rcases Nat.eq_or_lt_of_le hmin with rfl | hlt
  · -- below a power of two the numbers are twice as dense
    refine ⟨((2 ^ 53 - 1) * 2 ^ k : Nat), ⟨2 ^ 53 - 1, k, by decide, rfl⟩, ?_, ?_⟩ <;> push_cast <;> omega
  · obtain ⟨i, rfl⟩ : ∃ i, m = i + 1 := ⟨m - 1, by omega⟩
    have hmul : ((i + 1 : Nat) : Int) * 2 ^ (k + 1) = i * 2 ^ (k + 1) + 2 ^ (k + 1) := by
      push_cast
      ring
    have hlarge : (2 : Int) ^ 52 * 2 ^ (k + 1) ≤ i * 2 ^ (k + 1) :=
      Int.mul_le_mul_of_nonneg_right (by omega) (by omega)
    refine ⟨(i * 2 ^ (k + 1) : Nat), ⟨i, k + 1, by omega, rfl⟩, ?_, ?_⟩ <;> push_cast <;> push_cast at hmul <;> omega

/-- A number of 53 bits that is less than one is so by the 2^53rd part at least. -/
theorem Short.lt_unity {n : Int} (h : Short n) (h0 : 0 ≤ n) (hlt : n < unity) : n * 2 ^ 53 ≤ unity * (2 ^ 53 - 1) := by
  obtain ⟨m, k, hm, hn⟩ := h
  obtain rfl : n = (m * 2 ^ k : Nat) := by rw [← hn]; omega
  rcases Nat.eq_zero_or_pos m with rfl | hpos
  · rw [Nat.zero_mul, Int.natCast_zero, Int.zero_mul]
    exact Int.mul_nonneg (Int.natCast_nonneg _) (by decide)
  have hlt : m * 2 ^ k < unity := Int.ofNat_lt.1 hlt
  have hk : k < 1074 := by
    by_contra hle
    rw [mul_pow_unity m (Nat.not_lt.1 hle)] at hlt
    exact absurd hlt (Nat.not_lt.2 (Nat.le_mul_of_pos_left _ (Nat.mul_pos hpos (Nat.two_pow_pos _))))
  obtain ⟨j, hj⟩ : ∃ j, j = 1074 - k := ⟨_, rfl⟩
  have hsplit : unity = 2 ^ j * 2 ^ k := by rw [unity_split hk.le, ← hj, Nat.mul_comm]
  rw [hsplit] at hlt
  have hmj : m < 2 ^ j := Nat.lt_of_mul_lt_mul_right hlt
  have hbound : m * 2 ^ 53 ≤ 2 ^ j * (2 ^ 53 - 1) := by
    rcases Nat.le_total j 53 with hle | hle
    · have hpow : 2 ^ j ≤ 2 ^ 53 := Nat.pow_le_pow_right Nat.two_pos hle
      omega
    · have hpow : 2 ^ 53 ≤ 2 ^ j := Nat.pow_le_pow_right Nat.two_pos hle
      omega
  have hscaled : m * 2 ^ k * 2 ^ 53 ≤ unity * (2 ^ 53 - 1) := by
    rw [hsplit, Nat.mul_right_comm, Nat.mul_right_comm (2 ^ j)]
    exact Nat.mul_le_mul_right _ hbound
  generalize m * 2 ^ k = n at hscaled
  generalize unity = u at hscaled
  omega

/-! ## A part of a difference -/

/-- The part of a rounded difference, rounded again, is no more than the exact difference. -/
theorem product_le {d n t : Int} {p : Float} (hd : 0 ≤ d) (hn : Nearest d n) (htop : n < top) (h0 : 0 ≤ t)
    (ht : Short t) (hlt : t < unity) (hp : Rounded (n * t / unity) p) :
    0 ≤ units p ∧ units p ≤ n ∧ units p ≤ d := by
  have hone : (0 : ℚ) < unity := Nat.cast_pos.2 unity_pos
  have hn0 : 0 ≤ n := hn.lower short_zero (by exact_mod_cast hd)
  have hn0' : (0 : ℚ) ≤ n := Int.cast_nonneg hn0
  have ht0' : (0 : ℚ) ≤ t := Int.cast_nonneg h0
  obtain ⟨z, hz⟩ : ∃ z : ℚ, z = n * t / unity := ⟨_, rfl⟩
  rw [← hz] at hp
  have hz0 : 0 ≤ z := by rw [hz]; positivity
  have hless : z * 2 ^ 53 ≤ n * (2 ^ 53 - 1) := by
    have hpart : (t : ℚ) * 2 ^ 53 ≤ unity * (2 ^ 53 - 1) := by exact_mod_cast ht.lt_unity h0 hlt
    calc
      z * 2 ^ 53 = (n : ℚ) * (t * 2 ^ 53) / unity := by rw [hz]; ring
      _ ≤ (n : ℚ) * (unity * (2 ^ 53 - 1)) / unity := by gcongr
      _ = (n : ℚ) * (2 ^ 53 - 1) := by field_simp
  have hzn : z ≤ n := by linarith
  have hp0 : 0 ≤ units p := hp.nonneg hz0
  have hpn : units p ≤ n := hp.upper hn.short (neg_top_lt_zero.le.trans hn0) hzn
  refine ⟨hp0, hpn, ?_⟩
  rcases le_or_gt n d with hle | hgt
  · exact hpn.trans hle
  -- the difference has been rounded up, and so it is long
  have hlong : 2 ^ 53 ≤ n := by
    by_contra hshort
    obtain ⟨i, rfl⟩ := Int.eq_ofNat_of_zero_le hd
    have := hn.eq (short_of_le (n := i) (by omega))
    omega
  have hnear := hp.nearest_of_lt (by omega) (hpn.trans_lt htop)
  have hne : units p ≠ n := by
    intro heq
    obtain ⟨c, hc, hcn, hgap⟩ := hn.short.below hlong
    have hcn : (c : ℚ) < n := by exact_mod_cast hcn
    have hgap : ((n : ℚ) - c) * 2 ^ 52 < n := by exact_mod_cast hgap
    have hle := hnear.le c hc
    rw [heq, abs_of_nonneg (by linarith)] at hle
    rcases abs_cases ((c : ℚ) - z) with ⟨habs, -⟩ | ⟨habs, -⟩ <;> linarith
  -- a product between would be nearer to the difference than what that was rounded to
  by_contra hover
  have hover : (d : ℚ) < units p := by exact_mod_cast Int.not_le.1 hover
  have hpn : (units p : ℚ) < n := by exact_mod_cast lt_of_le_of_ne hpn hne
  have hle := hn.le (units p) hnear.short
  rw [abs_of_nonneg (by linarith), abs_of_nonneg (by linarith)] at hle
  linarith

/-! ## From one float to another -/

/-- What a float is that lies a part of the way from one to another, as far as it can be computed. -/
structure Interpolated (a b r : Float) : Prop where
  isNaN : r.isNaN = !a.isFinite
  lower : a.isFinite = true → a ≤ r
  upper : a.isFinite = true → (b.isFinite = true → (b - a).isFinite = true) → r ≤ b
  overflow : a.isFinite = true → b.isFinite = true → (b - a).isFinite = false → r = infinity

section interpolation

variable {a b t : Float}

/-- Between floats whose difference is finite. -/
theorem interpolate_finite (fa : a.isFinite = true) (fb : b.isFinite = true) (hab : units a ≤ units b)
    (fd : (b - a).isFinite = true) (ht : t.isFinite = true) (h0 : 0 ≤ units t) (hlt : units t < unity) :
    (a + (b - a) * t).isNaN = false ∧ units a ≤ units (a + (b - a) * t) ∧ units (a + (b - a) * t) ≤ units b := by
  have hd := rounded_sub fb fa
  obtain ⟨hdlow, hdhigh⟩ := (isFinite_iff hd.present).1 fd
  have hnear := hd.nearest_of_lt hdlow hdhigh
  have hp := rounded_mul fd ht
  rw [← Int.cast_sub] at hnear
  obtain ⟨hp0, hpn, hpd⟩ := product_le (Int.sub_nonneg.2 hab) hnear hdhigh h0 (short_units t) hlt hp
  have fp := (isFinite_iff hp.present).2 ⟨neg_top_lt_zero.trans_le hp0, hpn.trans_lt hdhigh⟩
  have hr := rounded_add fa fp
  rw [← Int.cast_add] at hr
  refine ⟨hr.present, hr.lower (short_units a) (units_bounds (isNaN_of_isFinite fa)).2 ?_,
    hr.upper (short_units b) (units_bounds (isNaN_of_isFinite fb)).1 ?_⟩
  · exact Int.cast_le.2 (by omega)
  · exact Int.cast_le.2 (by omega)

/-- An infinity that is not the least float is the positive one. -/
theorem unpack_positive (hb : b.isNaN = false) (fb : b.isFinite = false) (hlow : -top < units b) :
    b.toModel.unpack = .infinity .positive ∧ units b = top := by
  obtain ⟨s, hs, hunits⟩ := exists_infinity hb fb
  cases s with
  | positive => exact ⟨hs, hunits⟩
  | negative =>
    have hunits : units b = -top := hunits
    omega

theorem units_infinity : infinity.isNaN = false ∧ units infinity = top := by
  have hnan : infinity.isNaN = false := by decide
  obtain ⟨s, hs, hunits⟩ := exists_infinity hnan (by decide)
  obtain rfl : s = .positive := by
    have hs' : infinity.toModel.unpack = .infinity .positive := by rfl
    injection hs.symm.trans hs'
  exact ⟨hnan, hunits⟩

/-- A float less itself is zero. -/
theorem isFinite_sub_self (fa : a.isFinite = true) : (a - a).isFinite = true := by
  have h := rounded_sub fa fa
  rw [sub_self] at h
  have htop := top_pos
  have hzero := Rounded.exact (c := 0) (by rwa [Int.cast_zero]) short_zero (by omega) (by omega)
  exact (isFinite_iff h.present).2 (by omega)

/-- Across an infinite difference there is nothing in between. -/
theorem interpolate_infinite (fa : a.isFinite = true) (hb : b.isNaN = false) (hab : units a ≤ units b)
    (fd : (b - a).isFinite = false) (ht : t.isFinite = true) (h0 : 0 < units t) :
    a + (b - a) * t = infinity ∧ (b.isFinite = false → units b = top) := by
  have hlow := ((isFinite_iff (isNaN_of_isFinite fa)).1 fa).1
  suffices hd : (b - a).toModel.unpack = .infinity .positive ∧ (b.isFinite = false → units b = top) from
    ⟨add_infinity fa (infinity_mul hd.1 ht h0), hd.2⟩
  cases fb : b.isFinite with
  | true =>
    have hd := rounded_sub fb fa
    have hzero : 0 ≤ units (b - a) := by
      rw [← Int.cast_sub] at hd
      exact hd.nonneg (Int.cast_nonneg (Int.sub_nonneg.2 hab))
    exact ⟨(unpack_positive hd.present fd (neg_top_lt_zero.trans_le hzero)).1, nofun⟩
  | false =>
    obtain ⟨hinf, hunits⟩ := unpack_positive hb fb (hlow.trans_le hab)
    exact ⟨infinity_sub hinf fa, fun _ => hunits⟩

/-- From an infinity there is no way to another float. -/
theorem interpolate_from_infinity (ha : a.isNaN = false) (fa : a.isFinite = false) (hb : b.isNaN = false)
    (ht : t.isFinite = true) (h0 : 0 ≤ units t) (hsame : units t = 0 → a = b) : a + (b - a) * t = nan := by
  obtain ⟨s, hs, -⟩ := exists_infinity ha fa
  by_cases hbs : b.toModel.unpack = .infinity s
  · rw [infinity_sub_self hbs hs, nan_mul, add_nan]
  · have hpos : 0 < units t := by
      by_contra hle
      obtain rfl := hsame (by omega)
      exact hbs hs
    exact infinity_add_neg hs (infinity_mul (sub_infinity hb hbs hs) ht hpos)

/-- What lies a part of the way from one float to another, which is the same one if the part is none. -/
theorem interpolated (ha : a.isNaN = false) (hb : b.isNaN = false) (hab : a ≤ b) (ht : t.isFinite = true)
    (h0 : 0 ≤ units t) (hlt : units t < unity) (hsame : units t = 0 → a = b) : Interpolated a b (a + (b - a) * t) := by
  have hunits := (le_iff_units ha hb).1 hab
  cases fa : a.isFinite with
  | false =>
    rw [interpolate_from_infinity ha fa hb ht h0 hsame]
    have hnot : ¬a.isFinite = true := Bool.eq_false_iff.1 fa
    exact ⟨by rw [fa, isNaN_nan]; rfl, fun h => absurd h hnot, fun h => absurd h hnot, fun h => absurd h hnot⟩
  | true =>
    cases fd : (b - a).isFinite with
    | true =>
      have fb : b.isFinite = true := by
        by_contra hinf
        obtain ⟨hinf, -⟩ := unpack_positive hb (Bool.eq_false_iff.2 hinf) (((isFinite_iff ha).1 fa).1.trans_le hunits)
        have fd : (b - a).toModel.unpack.isFinite = true := fd
        rw [infinity_sub hinf fa] at fd
        cases fd
      obtain ⟨hr, hlower, hupper⟩ := interpolate_finite fa fb hunits fd ht h0 hlt
      exact ⟨by rw [hr, fa]; rfl, fun _ => (le_iff_units ha hr).2 hlower, fun _ _ => (le_iff_units hr hb).2 hupper,
        fun _ _ h => absurd fd (Bool.eq_false_iff.1 h)⟩
    | false =>
      have hpos : 0 < units t := by
        by_contra hle
        obtain rfl := hsame (by omega)
        rw [isFinite_sub_self fa] at fd
        cases fd
      obtain ⟨hr, htop⟩ := interpolate_infinite fa hb hunits fd ht hpos
      obtain ⟨hnan, hinf⟩ := units_infinity
      rw [hr]
      refine ⟨by rw [fa, hnan]; rfl, fun _ => (le_iff_units ha hnan).2 ?_, fun _ hfin => (le_iff_units hnan hb).2 ?_,
        fun _ _ _ => rfl⟩
      · rw [hinf]
        exact (units_bounds ha).2
      · have fb : b.isFinite = false := Bool.eq_false_iff.2 fun fb => by rw [hfin fb] at fd; cases fd
        rw [hinf, htop fb]

end interpolation
end AsOf
