import AsOf.Proofs.Extremes
import AsOf.Proofs.Number.Interpolation
import AsOf.Proofs.Number.Whole

/-!
# Percentiles of rows with infinities

A percentile lies between two neighbours of the sorted row: it starts from the lower one and adds a
part of the difference to the upper one. So it is missing if the lower neighbour is an infinity,
although the row has values only, and even if the place is that of the infinity itself; and it is
an infinity beyond both neighbours if their difference is too large for a float. In all other cases
it lies between them, and so between the least and the greatest of the row, whatever is rounded.
Rows have at most 2^53 values, since up to there counts are exact as floats.

To take the values between the percentiles 0 and 100 is to compare with the least and the greatest.
A row in which either is an infinity keeps none of its values, unless it has one value only.

* `percentile_interpolated`: the neighbours of a percentile.
* `within_iff`: which percentiles are within their row.
* `percentile_zero`, `percentile_hundred`: the least and the greatest.
* `between_all`: which values of a row lie between its percentiles 0 and 100.
* `percentiles_of_infinities`: rows, and the filter of a factor.
-/
namespace AsOf

namespace Stats
open Quantity (clamp)

variable {x low high q : Float} {n : Nat} {sorted : List Float}

/-! ## Positions -/

theorem clamp_bounds (hl : low.isNaN = false) (hh : high.isNaN = false) (hx : x.isNaN = false)
    (h : units low ≤ units high) : (clamp low high x).isNaN = false ∧ units low ≤ units (clamp low high x) ∧
      units (clamp low high x) ≤ units high := by
  have hless {a b : Float} : Quantity.less a b = decide (a < b) := rfl
  unfold clamp
  simp only [hless, decide_eq_true_eq, lt_iff_units hx hl]
  by_cases hlow : units x < units low
  · rw [if_pos hlow, if_neg (by rw [lt_iff_units hh hl]; omega)]
    exact ⟨hl, Int.le_refl _, h⟩
  · rw [if_neg hlow]
    by_cases hhigh : high < x
    · rw [if_pos hhigh]
      exact ⟨hh, h, Int.le_refl _⟩
    · rw [if_neg hhigh]
      rw [lt_iff_units hh hx] at hhigh
      exact ⟨hx, by omega, by omega⟩

theorem units_zero : units (ofCount 0) = 0 := by
  rw [units_ofCount (by decide), Int.natCast_zero, Int.zero_mul]

theorem units_one : units (ofCount 1) = unity := by
  rw [units_ofCount (by decide), Int.natCast_one, Int.one_mul]

/-- Which part of the way a percentile is at. -/
def part (q : Float) : Float := clamp (ofCount 0) (ofCount 1) (q / ofCount 100)

theorem part_bounds (hq : q.isNaN = false) : (part q).isFinite = true ∧ 0 ≤ units (part q) ∧ units (part q) ≤ unity := by
  have hpos := unity_cast_pos
  have hone := (isFinite_iff (isNaN_ofCount 1)).1 (isFinite_ofCount (by decide))
  have hhundred : units (ofCount 100) ≠ 0 := by
    rw [units_ofCount (by decide)]
    exact Int.mul_ne_zero (by decide) hpos.ne'
  have hquot := isNaN_div hq (isFinite_ofCount (by decide)) hhundred
  obtain ⟨hnan, hlow, hhigh⟩ := clamp_bounds (isNaN_ofCount 0) (isNaN_ofCount 1) hquot
    (by rw [units_zero, units_one]; exact hpos.le)
  rw [← part] at hnan hlow hhigh
  rw [units_zero] at hlow
  rw [units_one] at hhigh
  rw [units_one] at hone
  exact ⟨(isFinite_iff hnan).2 (by omega), hlow, hhigh⟩

/-- A position is that part of the last place, rounded. -/
theorem rounded_position (hn : n - 1 < 2 ^ 53) (hq : q.isNaN = false) :
    Rounded ((units (part q) * (n - 1 : Nat) : Int) : ℚ) (position n q) := by
  have hrounded := rounded_mul (part_bounds hq).1 (isFinite_ofCount hn)
  have hvalue : ((units (part q) * (n - 1 : Nat) : Int) : ℚ) =
      units (part q) * (units (ofCount (n - 1)) : ℚ) / unity := by
    have hone : (unity : ℚ) ≠ 0 := Nat.cast_ne_zero.2 unity_pos.ne'
    rw [units_ofCount hn]
    push_cast
    field_simp
  rw [hvalue]
  exact hrounded

/-- It is finite, and between the first place and the last. -/
theorem position_bounds (hn : n - 1 < 2 ^ 53) (hq : q.isNaN = false) : (position n q).isFinite = true ∧
    0 ≤ units (position n q) ∧ units (position n q) ≤ (n - 1 : Nat) * unity := by
  obtain ⟨-, hlow, hhigh⟩ := part_bounds hq
  have hlast := (isFinite_iff (isNaN_ofCount _)).1 (isFinite_ofCount hn)
  rw [units_ofCount hn] at hlast
  have hrounded := rounded_position hn hq
  have h0 : 0 ≤ units (position n q) :=
    hrounded.nonneg (Int.cast_nonneg (Int.mul_nonneg hlow (Int.natCast_nonneg _)))
  have hle : units (position n q) ≤ (n - 1 : Nat) * unity := by
    refine hrounded.upper (units_ofCount hn ▸ short_units _) hlast.1.le (Int.cast_le.2 ?_)
    rw [Int.mul_comm]
    exact Int.mul_le_mul_of_nonneg_left hhigh (Int.natCast_nonneg _)
  exact ⟨(isFinite_iff hrounded.present).2 ⟨by omega, hle.trans_lt hlast.2⟩, h0, hle⟩

/-- At a whole place it is exact. -/
theorem units_position {k : Nat} (hk : k < 2 ^ 53) (hn : n - 1 < 2 ^ 53) (hq : q.isNaN = false)
    (h : units (part q) * (n - 1 : Nat) = k * unity) : units (position n q) = k * unity := by
  have hplace := units_bounds (isNaN_ofCount k)
  have hshort := short_units (ofCount k)
  rw [units_ofCount hk] at hplace hshort
  have hrounded := rounded_position hn hq
  rw [h] at hrounded
  exact hrounded.exact hshort hplace.1 hplace.2

/-! ## Neighbours -/

/-- A row of values that ascends. -/
structure Ascending (sorted : List Float) : Prop where
  present : ∀ x ∈ sorted, x.isNaN = false
  ordered : sorted.Pairwise (· ≤ ·)

theorem Ascending.le (h : Ascending sorted) {i j : Nat} (hij : i ≤ j) {a b : Float} (ha : sorted[i]? = some a)
    (hb : sorted[j]? = some b) : a ≤ b := by
  obtain ⟨hi, rfl⟩ := List.getElem?_eq_some_iff.1 ha
  obtain ⟨hj, rfl⟩ := List.getElem?_eq_some_iff.1 hb
  rcases Nat.lt_or_eq_of_le hij with hlt | rfl
  · exact List.pairwise_iff_getElem.1 h.ordered i j hi hj hlt
  · have hnan := h.present _ (List.getElem_mem hi)
    exact (le_iff_units hnan hnan).2 (Int.le_refl _)

theorem percentile_eq (h : 2 ≤ sorted.length) {p a b : Float} (hp : position sorted.length q = p)
    (ha : sorted[wholeBelow p]? = some a) (hb : sorted[wholeAbove p]? = some b) :
    percentile sorted q = a + (b - a) * (p - ofCount (wholeBelow p)) := by
  have ha : sorted.getD (wholeBelow p) nan = a := by rw [List.getD_eq_getElem?_getD, ha, Option.getD_some]
  have hb : sorted.getD (wholeAbove p) nan = b := by rw [List.getD_eq_getElem?_getD, hb, Option.getD_some]
  subst hp ha hb
  match sorted, h with
  | _ :: _ :: _, _ => rfl

/-- The neighbours of a percentile, between the least and the greatest. It is computed of them unless
it is the only value. -/
theorem percentile_interpolated (hs : Ascending sorted) (h : 0 < sorted.length) (hmax : sorted.length ≤ 2 ^ 53)
    (hq : q.isNaN = false) : ∃ a b, sorted[wholeBelow (position sorted.length q)]? = some a ∧
      sorted[wholeAbove (position sorted.length q)]? = some b ∧ (∀ x ∈ sorted.head?, x ≤ a) ∧ a ≤ b ∧
      (∀ x ∈ sorted.getLast?, b ≤ x) ∧ (2 ≤ sorted.length → Interpolated a b (percentile sorted q)) := by
  obtain ⟨hfinite, h0, hle⟩ := position_bounds (n := sorted.length) (by omega) hq
  obtain ⟨hbelow, habove, ht, ht0, ht1, hsame⟩ := whole_bounds (by omega) hfinite h0 hle
  generalize hp : position sorted.length q = p at hbelow habove ht ht0 ht1 hsame ⊢
  have hhigh : wholeAbove p < sorted.length := by omega
  have hlow : wholeBelow p < sorted.length := by omega
  have ha := List.getElem?_eq_getElem hlow
  have hb := List.getElem?_eq_getElem hhigh
  have hab := hs.le hbelow ha hb
  refine ⟨_, _, ha, hb, fun x hx => ?_, hab, fun x hx => ?_, fun h => ?_⟩
  · exact hs.le (Nat.zero_le _) (List.head?_eq_getElem?.symm.trans hx) ha
  · exact hs.le habove hb (List.getLast?_eq_getElem?.symm.trans hx)
  · rw [percentile_eq h hp ha hb]
    refine interpolated (hs.present _ (List.getElem_mem hlow)) (hs.present _ (List.getElem_mem hhigh)) hab ht ht0 ht1
      fun hzero => ?_
    simp only [hsame hzero]

/-- What is present and lies between the ends of a row. -/
structure Within (sorted : List Float) (x : Float) : Prop where
  present : x.isNaN = false
  lower : ∀ y ∈ sorted.head?, y ≤ x
  upper : ∀ y ∈ sorted.getLast?, x ≤ y

/-- A percentile is within its row unless its lower neighbour is infinite or it is above a row whose
greatest value is finite, since the difference of its neighbours is not. -/
theorem within_iff (hs : Ascending sorted) (h : 0 < sorted.length) (hmax : sorted.length ≤ 2 ^ 53)
    (hq : q.isNaN = false) {a b last : Float} (ha : sorted[wholeBelow (position sorted.length q)]? = some a)
    (hb : sorted[wholeAbove (position sorted.length q)]? = some b) (hlast : sorted.getLast? = some last) :
    Within sorted (percentile sorted q) ↔ sorted.length = 1 ∨
      a.isFinite = true ∧ (b.isFinite = true → last.isFinite = true → (b - a).isFinite = true) := by
  obtain ⟨a', b', ha', hb', hhead, hab, hend, hr⟩ := percentile_interpolated hs h hmax hq
  obtain rfl : a = a' := Option.some.inj (ha.symm.trans ha')
  obtain rfl : b = b' := Option.some.inj (hb.symm.trans hb')
  by_cases hone : sorted.length = 1
  · obtain ⟨y, rfl⟩ := List.length_eq_one_iff.1 hone
    have hnan := hs.present y List.mem_cons_self
    have hself : y ≤ y := (le_iff_units hnan hnan).2 (Int.le_refl _)
    exact iff_of_true ⟨hnan, fun x hx => Option.some.inj hx ▸ hself, fun x hx => Option.some.inj hx ▸ hself⟩ (.inl hone)
  have hr := hr (by omega)
  generalize percentile sorted q = r at hr ⊢
  rw [or_iff_right hone]
  have hanan := hs.present a (List.mem_of_getElem? ha)
  have hbnan := hs.present b (List.mem_of_getElem? hb)
  have hlnan := hs.present last (List.mem_of_getLast? hlast)
  have hbl := (le_iff_units hbnan hlnan).1 (hend last hlast)
  have hab' := (le_iff_units hanan hbnan).1 hab
  constructor
  · intro hwithin
    have fa : a.isFinite = true := by
      have hnan := hr.isNaN
      rw [hwithin.present] at hnan
      rwa [eq_comm, Bool.not_eq_false'] at hnan
    refine ⟨fa, fun fb fl => ?_⟩
    by_contra hover
    have hle := hwithin.upper last hlast
    rw [hr.overflow fa fb (Bool.eq_false_iff.2 hover), le_iff_units units_infinity.1 hlnan, units_infinity.2] at hle
    exact absurd ((isFinite_iff hlnan).1 fl).2 (Int.not_lt.2 hle)
  · rintro ⟨fa, hdifference⟩
    have hnan : r.isNaN = false := by rw [hr.isNaN, fa]; rfl
    have hlower := (le_iff_units hanan hnan).1 (hr.lower fa)
    refine ⟨hnan, fun x hx => ?_, fun x hx => ?_⟩
    · have hxnan := hs.present x (List.mem_of_head? hx)
      have hxa := (le_iff_units hxnan hanan).1 (hhead x hx)
      exact (le_iff_units hxnan hnan).2 (hxa.trans hlower)
    · obtain rfl : last = x := Option.some.inj (hlast.symm.trans hx)
      rw [le_iff_units hnan hlnan]
      by_cases hmet : b.isFinite = true → (b - a).isFinite = true
      · exact ((le_iff_units hnan hbnan).1 (hr.upper fa hmet)).trans hbl
      · -- the difference is too large for a float, and so the row ends with an infinity
        obtain ⟨fb, hover⟩ := Classical.not_imp.1 hmet
        have fl : last.isFinite = false := Bool.eq_false_iff.2 fun fl => hover (hdifference fb fl)
        have hlow := ((isFinite_iff hanan).1 fa).1
        rw [(unpack_positive hlnan fl (hlow.trans_le (hab'.trans hbl))).2]
        exact (units_bounds hnan).2

/-- A percentile at a whole place is the value there, or missing. -/
theorem percentile_at (hs : Ascending sorted) (h : 2 ≤ sorted.length) (hmax : sorted.length ≤ 2 ^ 53)
    (hq : q.isNaN = false) {k : Nat} (hplace : units (part q) * (sorted.length - 1 : Nat) = k * unity) {x : Float}
    (hx : sorted[k]? = some x) : (percentile sorted q).isNaN = !x.isFinite ∧
      (x.isFinite = true → units (percentile sorted q) = units x) := by
  obtain ⟨hk, -⟩ := List.getElem?_eq_some_iff.1 hx
  have hpos := unity_cast_pos
  obtain ⟨hfinite, h0, hle⟩ := position_bounds (n := sorted.length) (by omega) hq
  have hposition := units_position (k := k) (by omega) (n := sorted.length) (by omega) hq hplace
  have hlt : units (position sorted.length q) < 2 ^ 53 * unity := by
    rw [hposition]
    exact Int.mul_lt_mul_of_pos_right (by omega) hpos
  have hbelow : wholeBelow (position sorted.length q) = k := by
    have hwhole := (wholeBelow_lt hfinite h0 hlt).1
    rw [hposition, Int.mul_ediv_cancel _ hpos.ne'] at hwhole
    omega
  have habove : wholeAbove (position sorted.length q) = k := by
    rw [wholeAbove_eq hfinite h0 hlt, hposition, Int.mul_emod_left, if_pos rfl, hbelow]
  obtain ⟨a, b, ha, hb, -, -, -, hr⟩ := percentile_interpolated hs (by omega) hmax hq
  rw [hbelow, hx] at ha
  rw [habove, hx] at hb
  cases ha
  cases hb
  have hr := hr h
  refine ⟨hr.isNaN, fun hfin => ?_⟩
  have hnan : (percentile sorted q).isNaN = false := by rw [hr.isNaN, hfin]; rfl
  have hlower := (le_iff_units (isNaN_of_isFinite hfin) hnan).1 (hr.lower hfin)
  have hupper := (le_iff_units hnan (isNaN_of_isFinite hfin)).1 (hr.upper hfin fun _ => isFinite_sub_self hfin)
  omega

theorem part_zero : part 0.0 = ofCount 0 := by rfl

theorem part_hundred : part 100.0 = ofCount 1 := by rfl

theorem percentile_zero (hs : Ascending sorted) (h : 2 ≤ sorted.length) (hmax : sorted.length ≤ 2 ^ 53)
    (hx : sorted[0]? = some x) : (percentile sorted 0.0).isNaN = !x.isFinite ∧
      (x.isFinite = true → units (percentile sorted 0.0) = units x) := by
  refine percentile_at hs h hmax (by decide) (k := 0) ?_ hx
  rw [part_zero, units_zero, Int.zero_mul, Int.natCast_zero, Int.zero_mul]

theorem percentile_hundred (hs : Ascending sorted) (h : 2 ≤ sorted.length) (hmax : sorted.length ≤ 2 ^ 53)
    (hx : sorted[sorted.length - 1]? = some x) : (percentile sorted 100.0).isNaN = !x.isFinite ∧
      (x.isFinite = true → units (percentile sorted 100.0) = units x) := by
  refine percentile_at hs h hmax (by decide) ?_ hx
  rw [part_hundred, units_one, Int.mul_comm]

/-! ## Rows -/

variable {row : List Float}

theorem mem_sortedPresent : x ∈ sortedPresent row ↔ x ∈ row ∧ x.isNaN = false := by
  have hmem : x ∈ sortedPresent row ↔ x ∈ Quantity.present row := (List.mergeSort_perm _ _).mem_iff
  rw [hmem, Quantity.present, List.mem_filter]
  show _ ∧ (!x.isNaN) = true ↔ _
  rw [Bool.not_eq_true']

theorem ascending_sortedPresent (row : List Float) : Ascending (sortedPresent row) where
  present x hx := (mem_sortedPresent.1 hx).2
  ordered := by
    have hsorted : (sortedPresent row).Pairwise fun a b => decide (orderKey a ≤ orderKey b) = true := by
      refine List.pairwise_mergeSort (fun a b c hab hbc => ?_) (fun a b => ?_) _
      · exact decide_eq_true ((of_decide_eq_true hab).trans (of_decide_eq_true hbc))
      · show (decide _ || decide _) = true
        rw [Bool.or_eq_true, decide_eq_true_eq, decide_eq_true_eq]
        exact Int.le_total _ _
    refine hsorted.imp_of_mem fun ha hb hab => ?_
    exact (le_iff_level (mem_sortedPresent.1 ha).2 (mem_sortedPresent.1 hb).2).2
      (level_le_of_orderKey (of_decide_eq_true hab))

/-- If the least and the greatest are finite, everything between them is. -/
theorem Ascending.finite_iff (hs : Ascending sorted) {first last : Float} (hfirst : sorted[0]? = some first)
    (hlast : sorted[sorted.length - 1]? = some last) :
    (∀ x ∈ sorted, x.isFinite = true) ↔ first.isFinite = true ∧ last.isFinite = true := by
  have hf := List.mem_of_getElem? hfirst
  have hl := List.mem_of_getElem? hlast
  refine ⟨fun h => ⟨h _ hf, h _ hl⟩, fun ⟨ff, fl⟩ x hx => ?_⟩
  obtain ⟨j, hj⟩ := List.mem_iff_getElem?.1 hx
  have hlt : j < sorted.length := (List.getElem?_eq_some_iff.1 hj).1
  have hnan := hs.present x hx
  have hlow := (le_iff_units (hs.present _ hf) hnan).1 (hs.le (Nat.zero_le j) hfirst hj)
  have hhigh := (le_iff_units hnan (hs.present _ hl)).1 (hs.le (Nat.le_sub_one_of_lt hlt) hj hlast)
  have ff := (isFinite_iff (hs.present _ hf)).1 ff
  have fl := (isFinite_iff (hs.present _ hl)).1 fl
  exact (isFinite_iff hnan).2 (by omega)

/-- What lies between the percentiles 0 and 100 of a row that ascends. -/
theorem between_ends (hs : Ascending sorted) (hmax : sorted.length ≤ 2 ^ 53) (hx : x ∈ sorted) :
    (percentile sorted 0.0 ≤ x ∧ x ≤ percentile sorted 100.0) ↔
      sorted.length = 1 ∨ ∀ y ∈ sorted, y.isFinite = true := by
  have hnan := hs.present x hx
  have hlength := List.length_pos_of_mem hx
  by_cases hone : sorted.length = 1
  · obtain ⟨y, rfl⟩ := List.length_eq_one_iff.1 hone
    obtain rfl := List.mem_singleton.1 hx
    have hself : x ≤ x := (le_iff_units hnan hnan).2 (Int.le_refl _)
    exact iff_of_true ⟨hself, hself⟩ (.inl hone)
  · rw [or_iff_right hone]
    have hfirst := List.getElem?_eq_getElem (l := sorted) (i := 0) (by omega)
    have hlast := List.getElem?_eq_getElem (l := sorted) (i := sorted.length - 1) (by omega)
    obtain ⟨hzero, hzero'⟩ := percentile_zero hs (by omega) hmax hfirst
    obtain ⟨hhundred, hhundred'⟩ := percentile_hundred hs (by omega) hmax hlast
    rw [hs.finite_iff hfirst hlast]
    refine ⟨fun ⟨hlow, hhigh⟩ => ⟨?_, ?_⟩, fun ⟨ff, fl⟩ => ⟨?_, ?_⟩⟩
    · by_contra hinf
      rw [Bool.eq_false_iff.2 hinf] at hzero
      exact not_nan_le x (eq_nan hzero ▸ hlow)
    · by_contra hinf
      rw [Bool.eq_false_iff.2 hinf] at hhundred
      exact not_le_nan x (eq_nan hhundred ▸ hhigh)
    · rw [ff] at hzero
      rw [le_iff_units hzero hnan, hzero' ff]
      obtain ⟨j, hj⟩ := List.mem_iff_getElem?.1 hx
      exact (le_iff_units (isNaN_of_isFinite ff) hnan).1 (hs.le (Nat.zero_le j) hfirst hj)
    · rw [fl] at hhundred
      rw [le_iff_units hnan hhundred, hhundred' fl]
      obtain ⟨j, hj⟩ := List.mem_iff_getElem?.1 hx
      exact (le_iff_units hnan (isNaN_of_isFinite fl)).1
        (hs.le (Nat.le_sub_one_of_lt (List.getElem?_eq_some_iff.1 hj).1) hj hlast)

/-- The values of a row between its percentiles 0 and 100: all of them, or none. -/
theorem between_all (hmax : row.length ≤ 2 ^ 53) : Evaluate.between (.ofFloat 0.0) (.ofFloat 100.0) row =
    row.map fun x => !x.isNaN &&
      decide ((sortedPresent row).length = 1 ∨ ∀ y ∈ sortedPresent row, y.isFinite = true) := by
  have hlength : (sortedPresent row).length ≤ 2 ^ 53 := by
    rw [sortedPresent, List.length_mergeSort]
    exact (List.length_filter_le _ _).trans hmax
  refine List.map_congr_left fun x hx => ?_
  show (decide (percentile (sortedPresent row) 0.0 ≤ x) && decide (x ≤ percentile (sortedPresent row) 100.0)) = _
  cases hnan : x.isNaN with
  | true =>
    rw [eq_nan hnan, decide_eq_false (not_le_nan _)]
    rfl
  | false =>
    rw [← Bool.decide_and, decide_eq_decide.2 (between_ends (ascending_sortedPresent row) hlength
      (mem_sortedPresent.2 ⟨hx, hnan⟩))]
    rfl

end Stats
/-! ## Filters -/

theorem CrossSection.mask_of_present {ctx : Context} {grouped : Bool} (s : CrossSection ctx grouped) {t : Term}
    {i j : Nat} {v : Float} (hv : (s.numberRow t i)[j]? = some v) (hnan : v.isNaN = false) :
    ctx.mask.get? i j = some true := by
  rw [numberRow, List.getElem?_map, Option.map_eq_some_iff] at hv
  obtain ⟨k, hk, rfl⟩ := hv
  obtain ⟨hlt, rfl⟩ := List.getElem?_eq_some_iff.1 hk
  rw [List.getElem_range] at hnan
  by_contra hmask
  rw [masked, if_neg hmask, isNaN_nan] at hnan
  cases hnan

namespace Evaluate

variable {ctx : Context} {t : Term}

/-- The cells that lie between two percentiles of their row. -/
theorem evaluate_between {low high : Param} (hk : t.kind = .percentileBetween low high)
    (hmissing : t.missing = .bool false) (hl : t.inputs.length = 1) (s : CrossSection ctx false)
    (hm : ctx.mask.shape = ctx.shape) : ∃ out, evaluate t s.inputs ctx = .ok (.bools out) ∧ out.shape = ctx.shape ∧
      ∀ i < ctx.shape.1, ∀ j, out.get? i j = some true ↔
        ctx.mask.get? i j = some true ∧ (between low high (s.numberRow t i))[j]? = some true := by
  obtain ⟨values, hshape, hrow, heq⟩ := crossSection_masked s t hm
  obtain ⟨g, hg⟩ : ∃ g, g = gridOf ctx.shape false (values.toLists.map (between low high)) := ⟨_, rfl⟩
  have hunmasked : unmasked t s.inputs ctx = .ok (.bools g) := by
    have h : unmasked t s.inputs ctx = crossSection t ctx false s.inputs >>= fun row =>
        .ok (.bools (gridOf ctx.shape false (row.1.toLists.map (between low high)))) := by
      rw [unmasked, hk]
      rfl
    rw [h, heq, hg]
    rfl
  have hgs : g.shape = ctx.shape := hg ▸ rfl
  have hwhere : (Block.bools g).whereMask ctx.mask t.missing =
      .ok (.bools (g.zipWith (fun x keep => if keep then x else false) ctx.mask)) := by
    have hs : ctx.mask.shape = (Block.bools g).shape := hm.trans hgs.symm
    rw [hmissing, Block.whereMask, if_neg (not_not_intro hs)]
    rfl
  refine ⟨_, evaluate_eq_ok.2 ⟨hm, ?_, _, hunmasked, hgs, hwhere⟩, ?_, fun i hi j => ?_⟩
  · rw [hl]
    exact (List.length_map _).trans s.length_blocks
  · rw [Grid.shape_zipWith _ (hgs.trans hm.symm), hgs]
  · have hlength : (between low high (values.row i)).length = ctx.shape.2 := by
      rw [between, List.length_map, Grid.length_row (hi.trans_eq (congrArg Prod.fst hshape).symm)]
      exact congrArg Prod.snd hshape
    have hgrow : g.row i = between low high (s.numberRow t i) := by
      rw [hg, Grid.toLists_eq, List.map_map, show values.nrows = ctx.shape.1 from congrArg Prod.fst hshape, ← hrow i hi]
      exact @row_gridOf _ _ (between low high ∘ values.row) _ hi hlength false
    rw [Grid.get?_zipWith, ← Grid.getElem?_row, hgrow]
    cases (between low high (s.numberRow t i))[j]? with
    | none => exact iff_of_false (fun h => by cases h) fun h => by cases h.2
    | some b =>
      cases ctx.mask.get? i j with
      | none => exact iff_of_false (fun h => by cases h) fun h => by cases h.1
      | some keep => cases keep <;> cases b <;> simp

end Evaluate

namespace Factor

variable {x : Factor} {ctx : Context}

theorem percentileBetween_eq_ok {low high : Float} {mask : Option Filter} {f : Filter}
    (h : x.percentileBetween low high mask = .ok f) :
    f.term.kind = .percentileBetween (.ofFloat low) (.ofFloat high) ∧ f.term.inputs = [x.term] ∧
      f.term.mask = mask.map Filter.term ∧ f.term.missing = .bool false := by
  unfold percentileBetween at h
  split at h
  · cases h
  · obtain ⟨t, ht, rfl⟩ := Checked.map_eq_ok.1 h
    obtain ⟨domain, rfl, -⟩ := Draft.build_eq_ok ht
    exact ⟨rfl, rfl, rfl, rfl⟩

/-- The present numbers of a row are those of the candidates. -/
theorem present_eq_candidates {keep : Option (Grid Bool)} (s : CrossSection (ctx.narrow keep) false) {t : Term}
    (ht : t.missingOf 0 = x.term.missing) (i : Nat) : Quantity.present (s.numberRow t i) =
      (x.candidates ctx keep s.values i).map (x.numberAt s.values i) := by
  obtain ⟨hcandidates, hnumber⟩ := candidates_eq s ht i
  have hvalue (e : Stats.Entry) (he : e ∈ Stats.present (s.numberRow t i)) :
      e.value = (s.numberRow t i).getD e.index nan := by
    rw [List.getD_eq_getElem?_getD, (Stats.mem_present.1 he).1, Option.getD_some]
  rw [← Stats.map_value_present, List.map_congr_left hvalue, ← List.map_congr_left hnumber, ← hcandidates, List.map_map]
  rfl

theorem mem_candidates {keep : Option (Grid Bool)} (s : CrossSection (ctx.narrow keep) false) {t : Term}
    (ht : t.missingOf 0 = x.term.missing) (i j : Nat) : j ∈ x.candidates ctx keep s.values i ↔
      ∃ v, (s.numberRow t i)[j]? = some v ∧ v.isNaN = false := by
  rw [← (candidates_eq s ht i).1, List.mem_map]
  constructor
  · rintro ⟨e, he, rfl⟩
    exact ⟨e.value, Stats.mem_present.1 he⟩
  · rintro ⟨v, hv⟩
    exact ⟨⟨j, v⟩, Stats.mem_present.2 hv, rfl⟩

/-- A percentage is a number. -/
theorem isNaN_of_isPercentage {q : Float} (h : isPercentage q = true) : q.isNaN = false := by
  rw [isPercentage, Bool.and_eq_true, decide_eq_true_eq, decide_eq_true_eq] at h
  cases hq : q.isNaN with
  | false => rfl
  | true => exact absurd h.2 (eq_nan hq ▸ not_nan_le _)

/-- The values of a factor between the percentiles 0 and 100 of their row: those of all candidates,
or of none if an infinity is among several. -/
theorem evaluate_percentileBetween_all {mask : Option Filter} {f : Filter}
    (h : x.percentileBetween 0.0 100.0 mask = .ok f) (hm : ctx.mask.shape = ctx.shape) (hn : ctx.shape.2 ≤ 2 ^ 53)
    {keep : Option (Grid Bool)} (hkeep : ∀ g ∈ keep, g.shape = ctx.shape) {values : Block}
    (hs : values.shape = ctx.shape) (hd : values.dtype ≠ .categorical) : ∃ out, f.term.inputs = [x.term] ∧
      f.term.mask = mask.map Filter.term ∧
      evaluate f.term [.block values] (ctx.narrow keep) = .ok (.bools out) ∧ out.shape = ctx.shape ∧
      ∀ i < ctx.shape.1, ∀ j, out.get? i j = some true ↔ j ∈ x.candidates ctx keep values i ∧
        ((x.candidates ctx keep values i).length = 1 ∨
          ∀ k ∈ x.candidates ctx keep values i, (x.numberAt values i k).isFinite = true) := by
  obtain ⟨hkind, hinputs, hmask, hmissing⟩ := percentileBetween_eq_ok h
  let s : CrossSection (ctx.narrow keep) false := {
    values, labels := none, shape := hs, numbers := hd, byGroup := rfl, labelsShape := nofun, labelsType := nofun }
  obtain ⟨out, hout, hshape, hcell⟩ := Evaluate.evaluate_between hkind hmissing (by rw [hinputs]; rfl) s
    (Context.shape_narrow hm hkeep)
  refine ⟨out, hinputs, hmask, hout, hshape, fun i hi j => ?_⟩
  have hmissingOf : f.term.missingOf 0 = x.term.missing := by
    rw [Term.missingOf, hinputs]
    rfl
  have hlength : (s.numberRow f.term i).length = ctx.shape.2 := (List.length_map _).trans List.length_range
  have hpresent : (Stats.sortedPresent (s.numberRow f.term i)).Perm
      ((x.candidates ctx keep values i).map (x.numberAt values i)) :=
    (List.mergeSort_perm _ _).trans (.of_eq (present_eq_candidates s hmissingOf i))
  have hall : (∀ y ∈ Stats.sortedPresent (s.numberRow f.term i), y.isFinite = true) ↔
      ∀ k ∈ x.candidates ctx keep values i, (x.numberAt values i k).isFinite = true := by
    simp only [hpresent.mem_iff, List.forall_mem_map]
  have hone := hpresent.length_eq
  rw [List.length_map] at hone
  rw [hcell i hi j, Stats.between_all (hlength.trans_le hn), List.getElem?_map, Option.map_eq_some_iff]
  simp only [Bool.and_eq_true, Bool.not_eq_true', decide_eq_true_eq, hall, hone]
  rw [mem_candidates s hmissingOf i j]
  -- a number that is present has passed the masks
  constructor
  · rintro ⟨-, v, hv, hnan, hfinite⟩
    exact ⟨⟨v, hv, hnan⟩, hfinite⟩
  · rintro ⟨⟨v, hv, hnan⟩, hfinite⟩
    exact ⟨s.mask_of_present hv hnan, v, hv, hnan, hfinite⟩

/-- Percentiles of rows with infinities. A percentile is within its row exactly if the row has one
value only, or the lower neighbour is finite and, where the upper neighbour and the greatest value
are finite too, the difference of the neighbours is. If there are several values it is interpolated
between the neighbours, and so missing exactly if the lower one is infinite. Hence the filter of
the values between the percentiles 0 and 100 is true of the candidates of a row if there is one only
or all of them are finite, and of none otherwise. -/
theorem percentiles_of_infinities {sorted : List Float} (hsorted : Stats.Ascending sorted) (hpos : 0 < sorted.length)
    (hlength : sorted.length ≤ 2 ^ 53) {q : Float} (hq : isPercentage q = true) {mask : Option Filter} {f : Filter}
    (h : x.percentileBetween 0.0 100.0 mask = .ok f) (hm : ctx.mask.shape = ctx.shape) (hn : ctx.shape.2 ≤ 2 ^ 53)
    {keep : Option (Grid Bool)} (hkeep : ∀ g ∈ keep, g.shape = ctx.shape) {values : Block}
    (hs : values.shape = ctx.shape) (hd : values.dtype ≠ .categorical) :
    (∃ a b last, sorted[wholeBelow (Stats.position sorted.length q)]? = some a ∧
      sorted[wholeAbove (Stats.position sorted.length q)]? = some b ∧ sorted.getLast? = some last ∧
      (Stats.Within sorted (Stats.percentile sorted q) ↔ sorted.length = 1 ∨
        a.isFinite = true ∧ (b.isFinite = true → last.isFinite = true → (b - a).isFinite = true)) ∧
      (2 ≤ sorted.length → Interpolated a b (Stats.percentile sorted q))) ∧
    ∃ out, f.term.inputs = [x.term] ∧ f.term.mask = mask.map Filter.term ∧
      evaluate f.term [.block values] (ctx.narrow keep) = .ok (.bools out) ∧ out.shape = ctx.shape ∧
      ∀ i < ctx.shape.1, ∀ j, out.get? i j = some true ↔ j ∈ x.candidates ctx keep values i ∧
        ((x.candidates ctx keep values i).length = 1 ∨
          ∀ k ∈ x.candidates ctx keep values i, (x.numberAt values i k).isFinite = true) := by
  have hnan := isNaN_of_isPercentage hq
  obtain ⟨a, b, ha, hb, -, -, -, hr⟩ := Stats.percentile_interpolated hsorted hpos hlength hnan
  have hlast := List.getLast?_eq_some_getLast (List.ne_nil_of_length_pos hpos)
  exact ⟨⟨a, b, _, ha, hb, hlast, Stats.within_iff hsorted hpos hlength hnan ha hb hlast, hr⟩,
    evaluate_percentileBetween_all h hm hn hkeep hs hd⟩

/-- Two prices are candidates, of which one is infinite, so none is kept. A quarter of the way among
three values is between the first two, and within the row. -/
theorem percentiles_of_infinities_twoPrices :
    Stats.Ascending [1.0, 2.0, infinity] ∧ isPercentage 25.0 = true ∧
    Stats.Within [1.0, 2.0, infinity] (Stats.percentile [1.0, 2.0, infinity] 25.0) ∧
    Stats.percentile [1.0, 2.0, infinity] 25.0 ≤ 2.0 ∧
    ∃ f, (⟨.ofColumn price⟩ : Factor).percentileBetween 0.0 100.0 (some ⟨.assetExists⟩) = .ok f ∧
      fourAssets.mask.shape = fourAssets.shape ∧ fourAssets.shape.2 ≤ 2 ^ 53 ∧
      ∃ out, evaluate f.term [.block (.floats (.ofRows 4 [#v[1.0, infinity, 8.0, 5.0]]))]
          (fourAssets.narrow (some (.ofRows 4 [#v[true, true, true, false]]))) = .ok (.bools out) ∧
        ∀ j, out.get? 0 j ≠ some true := by
  have hascending : Stats.Ascending [1.0, 2.0, infinity] := ⟨by decide +kernel, by decide +kernel⟩
  obtain ⟨⟨a, b, last, ha, hb, -, hwithin, hr⟩, out, -, -, hout, -, hcell⟩ :=
    @percentiles_of_infinities ⟨.ofColumn price⟩ fourAssets _ hascending (by decide) (by decide) 25.0 (by decide)
      (some ⟨.assetExists⟩) _ rfl rfl (by decide) (some (.ofRows 4 [#v[true, true, true, false]]))
      (fun g hg => Option.some.inj hg ▸ rfl) (.floats (.ofRows 4 [#v[1.0, infinity, 8.0, 5.0]])) rfl nofun
  have hbelow : wholeBelow (Stats.position 3 25.0) = 0 := by decide +kernel
  have habove : wholeAbove (Stats.position 3 25.0) = 1 := by decide +kernel
  rw [show [1.0, 2.0, infinity].length = 3 from rfl, hbelow] at ha
  rw [show [1.0, 2.0, infinity].length = 3 from rfl, habove] at hb
  obtain rfl : 1.0 = a := Option.some.inj ha
  obtain rfl : 2.0 = b := Option.some.inj hb
  refine ⟨hascending, by decide, hwithin.2 (.inr ⟨by decide, fun _ _ => by decide⟩),
    (hr (by decide)).upper (by decide) fun _ => by decide, _, rfl, rfl, by decide, out, hout, fun j hj => ?_⟩
  obtain ⟨-, hkept⟩ := (hcell 0 (by decide) j).1 hj
  have hcandidates : candidates ⟨.ofColumn price⟩ fourAssets (some (.ofRows 4 [#v[true, true, true, false]]))
      (.floats (.ofRows 4 [#v[1.0, infinity, 8.0, 5.0]])) 0 = [0, 1] := by rfl
  rw [hcandidates] at hkept
  rcases hkept with hone | hfinite
  · cases hone
  · exact absurd (hfinite 1 (by decide)) (by decide)

/-- The least of a row with the negative infinity is missing, and halfway between the ends of the
finite floats is an infinity. -/
theorem percentile_out_of_row :
    Stats.Ascending [-infinity, 1.0] ∧ (Stats.percentile [-infinity, 1.0] 0.0).isNaN = true ∧
    Stats.Ascending [-1.7e308, 1.7e308] ∧ ¬Stats.percentile [-1.7e308, 1.7e308] 50.0 ≤ 1.7e308 := by
  refine ⟨⟨?_, ?_⟩, ?_, ⟨?_, ?_⟩, ?_⟩ <;> decide +kernel

end Factor
end AsOf
