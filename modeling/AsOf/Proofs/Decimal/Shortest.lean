import AsOf.Proofs.Decimal.Denoted

/-!
# Shortest decimals read back

The digits that are chosen for a double denote a rational that rounds to it: a point of a decimal
grid inside the rounding interval. Seventeen digits always find one, because the leading exponent is
not above the value and the step of that grid is then less than the unit of the double.

* `Rounds`: the rationals that round to a double.
* `leading_le`: the leading exponent is not above the value.
* `exists_onGrid`: the grid of seventeen digits has a point that reads back.
* `shortest_spec`: the digits that are chosen.
-/
namespace AsOf.Decimal

variable {m : Nat} {q : Int} {low : Bool} {c : Nat} {e : Int} {tie : Tie}

/-! ## Exact scaling -/

namespace Scaled

/-- The rational that is held. -/
def value (s : Scaled) : ℚ := s.num / s.den

theorem value_ofBinary (m : Nat) (q : Int) : (ofBinary m q).value = m * 2 ^ q := by
  rw [value, ofBinary, Nat.shiftLeft_eq, Nat.shiftLeft_eq]
  push_cast
  rw [one_mul, mul_div_assoc, ← zpow_natCast, ← zpow_natCast, ← zpow_sub₀ (by norm_num)]
  congr 2
  omega

theorem value_shift (s : Scaled) (e : Int) : (s.shift e).value = s.value / 10 ^ e := by
  rw [value, shift, value]
  simp only [Nat.pow_eq]
  push_cast
  rw [mul_div_mul_comm, ← zpow_natCast, ← zpow_natCast, ← zpow_sub₀ (by norm_num), div_eq_mul_inv _ ((10 : ℚ) ^ e),
    ← zpow_neg]
  congr 2
  omega

theorem floor_eq (s : Scaled) : s.floor = ⌊s.value⌋₊ := by
  rw [floor, value, Nat.floor_div_eq_div]

end Scaled

/-! ## The rounding interval -/

/-- A rational rounds to `m * 2 ^ q`; the ends do where `m` is even. -/
def Rounds (m : Nat) (q : Int) (low : Bool) (v : ℚ) : Prop :=
  if m % 2 = 0 then (m - if low then 1 / 4 else 1 / 2 : ℚ) * 2 ^ q ≤ v ∧ v ≤ (m + 1 / 2) * 2 ^ q
  else (m - if low then 1 / 4 else 1 / 2 : ℚ) * 2 ^ q < v ∧ v < (m + 1 / 2) * 2 ^ q

theorem Rounds.of_lt {v : ℚ} (hlow : (m - if low then 1 / 4 else 1 / 2 : ℚ) * 2 ^ q < v)
    (hhigh : v < (m + 1 / 2) * 2 ^ q) : Rounds m q low v := by
  unfold Rounds
  split
  · exact ⟨hlow.le, hhigh.le⟩
  · exact ⟨hlow, hhigh⟩

theorem inQuarters_eq (c : Nat) (e q : Int) : 0 < (inQuarters c e q).2 ∧
    ((inQuarters c e q).1 : ℚ) = 4 * (c * 10 ^ e / 2 ^ q) * (inQuarters c e q).2 := by
  have hnum : (inQuarters c e q).1 = c * 10 ^ e.toNat * 2 ^ (2 - q).toNat := Nat.shiftLeft_eq ..
  have hden : (inQuarters c e q).2 = 10 ^ (-e).toNat * 2 ^ (-(2 - q)).toNat := Nat.shiftLeft_eq ..
  have hten : (10 : ℚ) ^ e.toNat = 10 ^ e * 10 ^ (-e).toNat := by
    rw [← zpow_natCast, ← zpow_natCast, ← zpow_add₀ (by norm_num)]
    congr 1
    omega
  have htwo : (2 : ℚ) ^ (2 - q).toNat = 4 * (2 ^ (-(2 - q)).toNat / 2 ^ q) := by
    rw [show (4 : ℚ) = 2 ^ (2 : ℤ) by norm_num, ← zpow_natCast, ← zpow_natCast, ← zpow_sub₀ (by norm_num),
      ← zpow_add₀ (by norm_num)]
    congr 1
    omega
  rw [hnum, hden]
  refine ⟨by positivity, ?_⟩
  push_cast
  rw [hten, htwo]
  ring

/-- A candidate reads back if what it denotes rounds to the double. -/
theorem readsBack_iff (hm : 0 < m) : readsBack m low (inQuarters c e q).1 (inQuarters c e q).2 = true ↔
    Rounds m q low (c * 10 ^ e) := by
  obtain ⟨hden, hnum⟩ := inQuarters_eq c e q
  have hden : (0 : ℚ) < (inQuarters c e q).2 := by exact_mod_cast hden
  have htwo : (0 : ℚ) < 2 ^ q := by positivity
  have hsub : ((4 * m - if low then 1 else 2 : Nat) : ℚ) = 4 * (m - if low then 1 / 4 else 1 / 2 : ℚ) := by
    rw [Nat.cast_sub (by split <;> omega)]
    cases low <;> push_cast <;> norm_num <;> ring
  generalize inQuarters c e q = x at hden hnum
  generalize (c : ℚ) * 10 ^ e = v at hnum
  have hquotient : v / 2 ^ q * 2 ^ q = v := div_mul_cancel₀ _ htwo.ne'
  have hlow (a : ℚ) : a * 2 ^ q ≤ v ↔ 4 * a * x.2 ≤ x.1 := by
    rw [hnum, mul_le_mul_iff_left₀ hden, ← hquotient, mul_le_mul_iff_left₀ htwo, hquotient]
    constructor <;> intro h <;> linarith
  have hhigh (a : ℚ) : v ≤ a * 2 ^ q ↔ (x.1 : ℚ) ≤ 4 * a * x.2 := by
    rw [hnum, mul_le_mul_iff_left₀ hden, ← hquotient, mul_le_mul_iff_left₀ htwo, hquotient]
    constructor <;> intro h <;> linarith
  have htop : (4 * (m + 1 / 2 : ℚ)) = ((4 * m + 2 : Nat) : ℚ) := by
    push_cast
    ring
  by_cases heven : m % 2 = 0
  · simp only [readsBack, Rounds, if_pos heven]
    rw [Bool.and_eq_true, decide_eq_true_eq, decide_eq_true_eq, hlow, hhigh, ← hsub, htop]
    exact_mod_cast Iff.rfl
  · simp only [readsBack, Rounds, if_neg heven]
    rw [Bool.and_eq_true, decide_eq_true_eq, decide_eq_true_eq, ← not_le, ← not_le, ← not_le, ← not_le, hlow, hhigh,
      ← hsub, htop]
    exact_mod_cast Iff.rfl

/-! ## Candidates of one grid -/

/-- What a grid gives is a neighbour of the value that reads back. -/
theorem onGrid_eq_some (hm : 0 < m) (h : onGrid tie m q low e = some c) : c ≠ 0 ∧ Rounds m q low (c * 10 ^ e) := by
  have hreads {c : Nat} (hc : (c != 0 && readsBack m low (inQuarters c e q).1 (inQuarters c e q).2) = true) :
      c ≠ 0 ∧ Rounds m q low (c * 10 ^ e) := by
    obtain ⟨hzero, hback⟩ := Bool.and_eq_true_iff.1 hc
    exact ⟨bne_iff_ne.1 hzero, (readsBack_iff hm).1 hback⟩
  unfold onGrid at h
  dsimp only at h
  split at h
  · cases h
  · rename_i hbelow _
    exact Option.some.inj h ▸ hreads hbelow
  · rename_i _ habove
    exact Option.some.inj h ▸ hreads habove
  · rename_i hbelow habove
    -- a tie between two candidates, both of which read back
    split at h
    · exact Option.some.inj h ▸ hreads hbelow
    · split at h
      · exact Option.some.inj h ▸ hreads habove
      · split at h
        · exact Option.some.inj h ▸ hreads habove
        · split at h
          · exact Option.some.inj h ▸ hreads hbelow
          · exact Option.some.inj h ▸ hreads habove

/-- A grid gives a candidate if one of the neighbours reads back. -/
theorem exists_onGrid_of (hm : 0 < m)
    (h : ∃ c, (c = ⌊(m * 2 ^ q / 10 ^ e : ℚ)⌋₊ ∨ c = ⌊(m * 2 ^ q / 10 ^ e : ℚ)⌋₊ + 1) ∧ c ≠ 0 ∧
      Rounds m q low (c * 10 ^ e)) : ∃ c, onGrid tie m q low e = some c := by
  have hfloor : ((Scaled.ofBinary m q).shift e).floor = ⌊(m * 2 ^ q / 10 ^ e : ℚ)⌋₊ := by
    rw [Scaled.floor_eq, Scaled.value_shift, Scaled.value_ofBinary]
  obtain ⟨c, hc, hzero, hround⟩ := h
  rw [← hfloor] at hc
  have hreads : (c != 0 && readsBack m low (inQuarters c e q).1 (inQuarters c e q).2) = true :=
    Bool.and_eq_true_iff.2 ⟨bne_iff_ne.2 hzero, (readsBack_iff hm).2 hround⟩
  rcases hx : onGrid tie m q low e with _ | x
  · exfalso
    unfold onGrid at hx
    dsimp only at hx
    split at hx
    · rename_i hbelow habove
      rcases hc with rfl | rfl
      · rw [hbelow] at hreads
        cases hreads
      · rw [habove] at hreads
        cases hreads
    all_goals
      repeat' split at hx
      all_goals cases hx
  · exact ⟨x, rfl⟩

/-! ## The leading exponent -/

/-- A power of ten that a step down finds is not above the value. -/
theorem leadingFrom_le {s : Scaled} (fuel : Nat) (k : Int) (h : ∃ j : Nat, j < fuel ∧ (10 : ℚ) ^ (k - j) ≤ s.value) :
    (10 : ℚ) ^ leadingFrom s fuel k ≤ s.value := by
  induction fuel generalizing k with
  | zero =>
    obtain ⟨j, hj, -⟩ := h
    exact absurd hj (Nat.not_lt_zero j)
  | succ fuel ih =>
    have hpow : (0 : ℚ) < 10 ^ k := by positivity
    rw [leadingFrom]
    split
    · rename_i hone
      rw [Scaled.floor_eq, Nat.one_le_floor_iff, Scaled.value_shift, one_le_div hpow] at hone
      exact hone
    · rename_i hone
      rw [Scaled.floor_eq, Nat.one_le_floor_iff, Scaled.value_shift, one_le_div hpow] at hone
      obtain ⟨j, hj, hle⟩ := h
      cases j with
      | zero => exact absurd (by simpa using hle) hone
      | succ j => exact ih (k - 1) ⟨j, by omega, by rwa [show k - 1 - (j : ℤ) = k - ((j + 1 : Nat) : ℤ) by push_cast; ring]⟩

/-- Powers of ten against powers of two, with room for the range of exponents that doubles have. -/
theorem ten_zpow_le_two_zpow {n : Int} (hlow : -1074 ≤ n) (hhigh : n ≤ 1023) :
    (10 : ℚ) ^ ((n * 30103).fdiv 100000 - 37) ≤ 2 ^ n := by
  rw [Int.fdiv_eq_ediv_of_nonneg _ (by norm_num)]
  obtain ⟨a, ha⟩ : ∃ a, a = n * 30103 / 100000 - 37 := ⟨_, rfl⟩
  rw [← ha]
  rcases le_or_gt 0 n with hn | hn
  · obtain ⟨k, rfl⟩ := Int.eq_ofNat_of_zero_le hn
    rcases le_or_gt a 0 with ha0 | ha0
    · calc (10 : ℚ) ^ a ≤ 1 := zpow_le_one_of_nonpos₀ (by norm_num) ha0
        _ ≤ 2 ^ (k : ℤ) := one_le_zpow₀ (by norm_num) hn
    · -- three decimal digits take no more than ten binary ones
      obtain ⟨b, rfl⟩ := Int.eq_ofNat_of_zero_le ha0.le
      rw [zpow_natCast, zpow_natCast]
      calc (10 : ℚ) ^ b ≤ 10 ^ (3 * ((b + 2) / 3)) := pow_le_pow_right₀ (by norm_num) (by omega)
        _ = (10 ^ 3) ^ ((b + 2) / 3) := pow_mul ..
        _ ≤ (2 ^ 10) ^ ((b + 2) / 3) := by gcongr; norm_num
        _ = 2 ^ (10 * ((b + 2) / 3)) := (pow_mul ..).symm
        _ ≤ 2 ^ k := pow_le_pow_right₀ (by norm_num) (by omega)
  · -- three binary digits take no more than one decimal digit
    obtain ⟨k, hk⟩ := Int.eq_ofNat_of_zero_le (a := -n) (by omega)
    obtain ⟨b, hb⟩ := Int.eq_ofNat_of_zero_le (a := -a) (by omega)
    rw [show n = -(k : ℤ) by omega, show a = -(b : ℤ) by omega, zpow_neg, zpow_neg, zpow_natCast, zpow_natCast]
    refine inv_anti₀ (by positivity) ?_
    calc (2 : ℚ) ^ k ≤ 2 ^ (3 * ((k + 2) / 3)) := pow_le_pow_right₀ (by norm_num) (by omega)
      _ = (2 ^ 3) ^ ((k + 2) / 3) := pow_mul ..
      _ ≤ 10 ^ ((k + 2) / 3) := by gcongr; norm_num
      _ ≤ 10 ^ b := pow_le_pow_right₀ (by norm_num) (by omega)

/-- The leading exponent is not above the value of a double. -/
theorem leading_le (hm : 0 < m) (hmax : m < 2 ^ 53) (hlow : -1074 ≤ q) (hhigh : q ≤ 971) :
    (10 : ℚ) ^ leading m q ≤ m * 2 ^ q := by
  have hlog : m.log2 < 53 := (Nat.log2_lt hm.ne').2 hmax
  have hle : (2 : ℚ) ^ m.log2 ≤ m := by exact_mod_cast Nat.log2_self_le hm.ne'
  rw [← Scaled.value_ofBinary]
  refine leadingFrom_le 40 _ ⟨39, by decide, ?_⟩
  rw [Scaled.value_ofBinary]
  calc (10 : ℚ) ^ (((m.log2 : ℤ) + q) * 30103 |>.fdiv 100000 |> (· + 2) |> (· - ((39 : Nat) : ℤ)))
      = 10 ^ ((((m.log2 : ℤ) + q) * 30103).fdiv 100000 - 37) := by
        congr 1
        push_cast
        ring
    _ ≤ 2 ^ ((m.log2 : ℤ) + q) := ten_zpow_le_two_zpow (by omega) (by omega)
    _ = 2 ^ m.log2 * 2 ^ q := by rw [zpow_add₀ (by norm_num), zpow_natCast]
    _ ≤ m * 2 ^ q := by gcongr

/-! ## Seventeen digits -/

/-- The grid of seventeen digits has a point that reads back. -/
theorem exists_onGrid (tie : Tie) (hm : 0 < m) (hmax : m < 2 ^ 53) (hbinade : low = true → m = 2 ^ 52) {lead : Int}
    (hlead : (10 : ℚ) ^ lead ≤ m * 2 ^ q) : ∃ c, onGrid tie m q low (lead - 16) = some c := by
  obtain ⟨v, hv⟩ : ∃ v : ℚ, v = m * 2 ^ q := ⟨_, rfl⟩
  obtain ⟨u, hu⟩ : ∃ u : ℚ, u = 2 ^ q := ⟨_, rfl⟩
  obtain ⟨step, hstep⟩ : ∃ step : ℚ, step = 10 ^ (lead - 16) := ⟨_, rfl⟩
  have hupos : 0 < u := hu ▸ by positivity
  have hspos : 0 < step := hstep ▸ by positivity
  have hsixteen : (10 : ℚ) ^ 16 * step ≤ m * u := by
    rw [hstep, hu, ← zpow_natCast, ← zpow_add₀ (by norm_num)]
    refine le_of_eq_of_le ?_ hlead
    congr 1
    push_cast
    ring
  have hmaxq : (m : ℚ) < 2 ^ 53 := by exact_mod_cast hmax
  obtain ⟨n, hn⟩ : ∃ n, n = ⌊(m * 2 ^ q / 10 ^ (lead - 16) : ℚ)⌋₊ := ⟨_, rfl⟩
  have hquotient : 0 ≤ (m * 2 ^ q / 10 ^ (lead - 16) : ℚ) := by positivity
  have hbelow : n * step ≤ m * u := by
    rw [← le_div_iff₀ hspos, hn, hu, hstep]
    exact Nat.floor_le hquotient
  have habove : m * u < (n + 1) * step := by
    rw [← div_lt_iff₀ hspos, hn, hu, hstep]
    exact Nat.lt_floor_add_one _
  have hnpos : n ≠ 0 := by
    rintro rfl
    rw [Nat.cast_zero, zero_add, one_mul] at habove
    linarith
  refine exists_onGrid_of hm ?_
  rw [← hn, ← hstep]
  by_cases hnear : (n + 1) * step < (m + 1 / 2) * u
  · -- the neighbour above is near enough
    refine ⟨n + 1, .inr rfl, Nat.succ_ne_zero n, .of_lt ?_ ?_⟩
    · rw [← hu]
      push_cast
      refine lt_of_le_of_lt ?_ habove
      have : (0 : ℚ) ≤ if low then 1 / 4 else 1 / 2 := by split <;> norm_num
      nlinarith
    · rw [← hu]
      push_cast
      exact hnear
  · cases low with
    | true =>
      -- half a unit is more than a step
      have hm' : (m : ℚ) = 2 ^ 52 := by exact_mod_cast hbinade rfl
      rw [hm'] at hsixteen hbelow hnear
      exact absurd (by nlinarith) hnear
    | false =>
      refine ⟨n, .inl rfl, hnpos, .of_lt ?_ ?_⟩
      · rw [← hu, if_neg Bool.false_ne_true]
        nlinarith
      · rw [← hu]
        nlinarith

/-- More and more digits are tried until a grid gives a candidate. -/
theorem shortestFrom_spec (lead : Int) (fuel n : Nat)
    (h : ∃ k < fuel, ∃ c, onGrid tie m q low (lead - (n + k : Nat) + 1) = some c) :
    ∃ e c, onGrid tie m q low e = some c ∧ shortestFrom tie m q low lead fuel n = .ofGrid c e := by
  induction fuel generalizing n with
  | zero =>
    obtain ⟨k, hk, -⟩ := h
    exact absurd hk (Nat.not_lt_zero k)
  | succ fuel ih =>
    rw [shortestFrom]
    cases hgrid : onGrid tie m q low (lead - n + 1) with
    | some c => exact ⟨_, c, hgrid, rfl⟩
    | none =>
      obtain ⟨k, hk, c, hc⟩ := h
      cases k with
      | zero =>
        rw [Nat.add_zero, hgrid] at hc
        cases hc
      | succ k => exact ih (n + 1) ⟨k, by omega, c, by rwa [show n + 1 + k = n + (k + 1) by omega]⟩

/-- The digits that are chosen for a double denote a rational that rounds to it. -/
theorem shortest_spec (tie : Tie) (hm : 0 < m) (hmax : m < 2 ^ 53) (hbinade : low = true → m = 2 ^ 52)
    (hlow : -1074 ≤ q) (hhigh : q ≤ 971) :
    (shortest tie m q low).Proper ∧ Rounds m q low (shortest tie m q low).value := by
  obtain ⟨c, hc⟩ := exists_onGrid tie hm hmax hbinade (leading_le hm hmax hlow hhigh)
  obtain ⟨e, c, hgrid, hdigits⟩ := shortestFrom_spec (leading m q) 17 1 ⟨16, by decide, c, by
    rw [← hc]
    congr 1
    push_cast
    ring⟩
  obtain ⟨hzero, hround⟩ := onGrid_eq_some hm hgrid
  rw [shortest, hdigits, value_ofGrid]
  exact ⟨proper_ofGrid hzero e, hround⟩

end AsOf.Decimal
