import AsOf.Proofs.Exact
import AsOf.Proofs.Pick
import AsOf.Stats.Percentile
import Mathlib

/-!
# Buckets of equal size

The edges of the buckets lie at equal distances among the places of the sorted row, and between
two places on the line from one value to the next. So a value exceeds an edge if its place does,
and how many edges it exceeds is found by dividing whole numbers: of the places up to a multiple
of `m / bins`, there are as many as its whole part, and one more.

* `percentile_numbers`: a percentile is a point on the line through the sorted values.
* `lineAt_lt_iff`: a value exceeds it if its place does.
* `count_places`: how many places are in the first buckets.
* `quantiles_balanced`: what a bucket holds.
-/
namespace AsOf.Stats
open Exact

/-! ## Points on a line -/

/-- The value at a place of a row, which may lie between two. -/
def lineAt (s : List ℚ) (p : ℚ) : ℚ :=
  s.getD ⌊p⌋₊ 0 + (s.getD ⌈p⌉₊ 0 - s.getD ⌊p⌋₊ 0) * (p - ⌊p⌋₊)

variable {s : List ℚ} {p : ℚ}

theorem lineAt_natCast (s : List ℚ) (k : Nat) : lineAt s k = s.getD k 0 := by
  rw [lineAt, Nat.floor_natCast, Nat.ceil_natCast, sub_self, zero_mul, add_zero]

/-- A point lies no lower than the place below it, and no higher than the place above it. -/
theorem lineAt_bounds (hs : s.Pairwise (· ≤ ·)) (hp : 0 ≤ p) (hlt : ⌈p⌉₊ < s.length) :
    s.getD ⌊p⌋₊ 0 ≤ lineAt s p ∧ lineAt s p ≤ s.getD ⌈p⌉₊ 0 := by
  have hfloor := Nat.floor_le hp
  have hceil := Nat.lt_floor_add_one p
  have hle : s.getD ⌊p⌋₊ 0 ≤ s.getD ⌈p⌉₊ 0 := by
    have hplaces := Nat.floor_le_ceil p
    rw [List.getD_eq_getElem _ _ hlt, List.getD_eq_getElem _ _ (hplaces.trans_lt hlt)]
    rcases hplaces.eq_or_lt with heq | hlt
    · simp only [heq, le_refl]
    · exact List.pairwise_iff_getElem.1 hs _ _ _ _ hlt
  have hpart : 0 ≤ p - ⌊p⌋₊ := by linarith
  have hpart' : p - ⌊p⌋₊ ≤ 1 := by linarith
  unfold lineAt
  constructor
  · nlinarith
  · nlinarith

/-- The least value is not above the line. -/
theorem head_le_lineAt (hs : s.Pairwise (· ≤ ·)) (hp : 0 ≤ p) (hlt : ⌈p⌉₊ < s.length) {x : ℚ}
    (hx : ∀ y ∈ s, x ≤ y) : x ≤ lineAt s p := by
  refine le_trans ?_ (lineAt_bounds hs hp hlt).1
  have hfloor := (Nat.floor_le_ceil p).trans_lt hlt
  rw [List.getD_eq_getElem _ _ hfloor]
  exact hx _ (List.getElem_mem hfloor)

/-- Where no value stands two times, a value is above a point of the line if its place is. -/
theorem lineAt_lt_iff (hs : s.Pairwise (· < ·)) (hp : 0 ≤ p) (hlt : ⌈p⌉₊ < s.length) {k : Nat} (hk : k < s.length) :
    lineAt s p < s[k] ↔ p < k := by
  have hbounds := lineAt_bounds (hs.imp le_of_lt) hp hlt
  have hrise {i j : Nat} (hi : i < s.length) (hj : j < s.length) (h : i < j) : s[i] < s[j] :=
    List.pairwise_iff_getElem.1 hs i j hi hj h
  rw [List.getD_eq_getElem _ _ hlt, List.getD_eq_getElem _ _ ((Nat.floor_le_ceil p).trans_lt hlt)] at hbounds
  constructor
  · refine fun h => not_le.1 fun hle => ?_
    -- the value is at a place below the point
    have hkp : k ≤ ⌊p⌋₊ := Nat.le_floor hle
    rcases hkp.eq_or_lt with rfl | hkp
    · exact absurd h (not_lt.2 hbounds.1)
    · exact absurd h (not_lt.2 ((hrise hk _ hkp).le.trans hbounds.1))
  · intro h
    have hpk : ⌈p⌉₊ ≤ k := Nat.ceil_le.2 h.le
    rcases hpk.eq_or_lt with rfl | hpk
    · -- the point lies before the place of the value, on the way to it
      have hplaces : ⌊p⌋₊ < ⌈p⌉₊ := by exact_mod_cast (Nat.floor_le hp).trans_lt h
      have hless := hrise (hplaces.trans hlt) hlt hplaces
      have hpart : 0 < 1 - (p - ⌊p⌋₊) := by linarith [Nat.lt_floor_add_one p]
      rw [lineAt, List.getD_eq_getElem _ _ hlt, List.getD_eq_getElem _ _ (hplaces.trans hlt)]
      linarith [mul_pos (sub_pos.2 hless) hpart]
    · exact hbounds.2.trans_lt (hrise hlt hk hpk)

/-! ## Edges -/

theorem lt_of_mem_edges {bins i : Nat} (hi : i ∈ List.range' 1 (bins - 1)) : i < bins := by
  have := List.mem_range'_1.1 hi
  omega

/-- The place of an edge among the values of a row. -/
def edgeAt (n bins i : Nat) : ℚ := (i : ℚ) / bins * (n - 1 : Nat)

theorem edgeAt_bounds {n bins i : Nat} (hi : i ≤ bins) (hn : 0 < n) : 0 ≤ edgeAt n bins i ∧ ⌈edgeAt n bins i⌉₊ < n := by
  have hle : (i : ℚ) / bins ≤ 1 := by
    refine div_le_one_of_le₀ ?_ (Nat.cast_nonneg _)
    exact_mod_cast hi
  have hnonneg : 0 ≤ (i : ℚ) / bins := by positivity
  refine ⟨mul_nonneg hnonneg (Nat.cast_nonneg _), ?_⟩
  have hceil : ⌈edgeAt n bins i⌉₊ ≤ n - 1 :=
    Nat.ceil_le.2 (mul_le_of_le_one_left (Nat.cast_nonneg _) hle)
  omega

/-- An edge comes before a place if its numerator does. -/
theorem edgeAt_lt_iff {n bins i k : Nat} (hb : 0 < bins) : edgeAt n bins i < k ↔ i * (n - 1) < k * bins := by
  have hpos : (0 : ℚ) < bins := by exact_mod_cast hb
  rw [edgeAt, div_mul_eq_mul_div, div_lt_iff₀ hpos]
  exact_mod_cast Iff.rfl

theorem position_edge (n : Nat) {bins i : Nat} (hb : 0 < bins) (hi : i ≤ bins) :
    position n (Quantity.ofNat 100 * Quantity.ofNat i / Quantity.ofNat bins : Exact) = number (edgeAt n bins i) := by
  have hpos : ((bins : Nat) : ℚ) ≠ 0 := by exact_mod_cast hb.ne'
  have hle : (i : ℚ) / bins ≤ 1 := by
    refine div_le_one_of_le₀ ?_ (Nat.cast_nonneg _)
    exact_mod_cast hi
  have hfraction : ((100 : Nat) : ℚ) * i / bins / (100 : Nat) = i / bins := by
    push_cast
    field_simp
  rw [position, ofNat_eq, ofNat_eq, ofNat_eq, ofNat_eq, ofNat_eq, ofNat_eq, number_mul, number_div _ hpos,
    number_div _ (by norm_num), hfraction, Nat.cast_zero, Nat.cast_one, clamp_number (by positivity) hle, number_mul]
  rfl

theorem getD_map_number {k : Nat} (hk : k < s.length) :
    (s.map number).getD k Quantity.missing = number (s.getD k 0) := by
  rw [List.getD_eq_getElem _ _ hk, List.getD_eq_getElem _ _ (by rwa [List.length_map]), List.getElem_map]

/-- A percentile of numbers is a point on the line through them. -/
theorem percentile_numbers {q : Exact} (hq : position s.length q = number p) (hp : 0 ≤ p) (hlt : ⌈p⌉₊ < s.length) :
    percentile (s.map number) q = number (lineAt s p) := by
  match s with
  | [] => cases hlt
  | [x] =>
    have hzero : p = (0 : Nat) := by
      rw [Nat.cast_zero]
      exact le_antisymm (Nat.ceil_eq_zero.1 (Nat.lt_one_iff.1 hlt)) hp
    rw [hzero, lineAt_natCast]
    rfl
  | x :: y :: rest =>
    show (let position := position ((x :: y :: rest).map number).length q
      let low := Quantity.floor position
      let a := ((x :: y :: rest).map number).getD low Quantity.missing
      let b := ((x :: y :: rest).map number).getD (Quantity.ceil position) Quantity.missing
      a + (b - a) * (position - Quantity.ofNat low)) = _
    simp only [List.length_map, hq, floor_number, ceil_number, getD_map_number hlt,
      getD_map_number ((Nat.floor_le_ceil _).trans_lt hlt), ofNat_eq, number_sub, number_mul, number_add]
    rfl

/-! ## The bucket of a value -/

/-- How many edges a value is above. -/
def bucketOf (s : List ℚ) (bins : Nat) (x : ℚ) : Nat :=
  (List.range' 1 (bins - 1)).countP fun i => decide (lineAt s (edgeAt s.length bins i) < x)

theorem bucketOf_lt {bins : Nat} (hb : 0 < bins) (s : List ℚ) (x : ℚ) : bucketOf s bins x < bins := by
  have hle := List.countP_le_length (l := List.range' 1 (bins - 1))
    (p := fun i => decide (lineAt s (edgeAt s.length bins i) < x))
  rw [List.length_range'] at hle
  unfold bucketOf
  omega

/-- A greater value is above no fewer edges. -/
theorem bucketOf_mono (s : List ℚ) (bins : Nat) : Monotone (bucketOf s bins) := fun _ _ h =>
  List.countP_mono_left fun _ _ hi => decide_eq_true ((of_decide_eq_true hi).trans_le h)

/-- The numbers of a row, sorted. -/
def sortedNumbers (values : List Exact) : List ℚ := (numbers values).mergeSort fun x y => decide (x ≤ y)

theorem sortedPresent_eq (values : List Exact) : sortedPresent values = (sortedNumbers values).map number := by
  rw [sortedPresent, present_eq, sortedNumbers]
  exact (List.map_mergeSort (f := number) fun _ _ _ _ => rfl).symm

theorem perm_sortedNumbers (values : List Exact) : (sortedNumbers values).Perm (numbers values) :=
  List.mergeSort_perm _ _

theorem pairwise_sortedNumbers (values : List Exact) : (sortedNumbers values).Pairwise (· ≤ ·) := by
  refine (List.pairwise_mergeSort (fun x y z hxy hyz => ?_) (fun x y => ?_) _).imp of_decide_eq_true
  · exact decide_eq_true ((of_decide_eq_true hxy).trans (of_decide_eq_true hyz))
  · rw [Bool.or_eq_true, decide_eq_true_eq, decide_eq_true_eq]
    exact le_total x y

/-- Distinct numbers rise. -/
theorem strict_sortedNumbers {values : List Exact} (h : (numbers values).Nodup) :
    (sortedNumbers values).Pairwise (· < ·) :=
  (pairwise_sortedNumbers values).imp₂ (fun _ _ => lt_of_le_of_ne) ((perm_sortedNumbers values).nodup_iff.2 h)

/-- Every number gets its bucket, and what is missing gets none. -/
theorem quantiles_eq {bins : Nat} (hb : 0 < bins) (values : List Exact) : quantiles bins values =
    values.map fun v => v.value?.elim (-1) fun x => Int64.ofNat (bucketOf (sortedNumbers values) bins x) := by
  unfold quantiles
  rw [sortedPresent_eq]
  by_cases hs : sortedNumbers values = []
  · -- nothing is present
    rw [hs]
    refine List.map_congr_left fun v hv => ?_
    cases v with
    | absent => rfl
    | number x =>
      have hmem := (perm_sortedNumbers values).mem_iff.2 (mem_numbers.2 hv)
      rw [hs] at hmem
      cases hmem
  · have hempty : (((sortedNumbers values).map number).isEmpty || decide (bins = 0)) = false := by
      rw [Bool.or_eq_false_iff, decide_eq_false_iff_not, List.isEmpty_eq_false_iff]
      exact ⟨fun h => hs (List.map_eq_nil_iff.1 h), hb.ne'⟩
    have hedges : edges ((sortedNumbers values).map number) bins = (List.range' 1 (bins - 1)).map fun i =>
        number (lineAt (sortedNumbers values) (edgeAt (sortedNumbers values).length bins i)) := by
      refine List.map_congr_left fun i hi => ?_
      have hle := (lt_of_mem_edges hi).le
      obtain ⟨hnonneg, hceil⟩ := edgeAt_bounds hle (List.length_pos_iff.2 hs)
      exact percentile_numbers (position_edge _ hb hle) hnonneg hceil
    simp only [hempty, hedges, Bool.false_eq_true, if_false]
    refine List.map_congr_left fun v _ => ?_
    cases v with
    | absent => rfl
    | number x =>
      show Int64.ofNat _ = Int64.ofNat _
      rw [List.countP_map]
      rfl

/-! ## Counting places -/

/-- How many edges come before a place. -/
def edgesBefore (n bins k : Nat) : Nat := (List.range' 1 (bins - 1)).countP fun i => decide (i * (n - 1) < k * bins)

theorem bucketOf_getElem (hs : s.Pairwise (· < ·)) {bins k : Nat} (hb : 0 < bins) (hk : k < s.length) :
    bucketOf s bins s[k] = edgesBefore s.length bins k := by
  refine List.countP_congr fun i hi => ?_
  have hle := (lt_of_mem_edges hi).le
  obtain ⟨hnonneg, hceil⟩ := edgeAt_bounds hle (Nat.zero_lt_of_lt hk)
  rw [decide_eq_true_eq, decide_eq_true_eq, lineAt_lt_iff hs hnonneg hceil hk, edgeAt_lt_iff hb]

theorem edgesBefore_le_iff {n bins b k : Nat} (hb : b < bins) (hk : k < n) :
    edgesBefore n bins k ≤ b ↔ k * bins ≤ (b + 1) * (n - 1) := by
  rcases Nat.eq_zero_or_pos k with rfl | hpos
  · have hnone : edgesBefore n bins 0 = 0 := by
      refine List.countP_eq_zero.2 fun i _ => ?_
      rw [decide_eq_true_eq, Nat.zero_mul]
      exact Nat.not_lt_zero _
    rw [hnone, Nat.zero_mul]
    exact iff_of_true (Nat.zero_le _) (Nat.zero_le _)
  · have hm : 0 < n - 1 := by omega
    have hkb : 0 < k * bins := Nat.mul_pos hpos (by omega)
    have hcount : edgesBefore n bins k = min ((k * bins - 1) / (n - 1)) (bins - 1) := by
      have h := countP_range'_lt 1 ((k * bins - 1) / (n - 1) + 1) (bins - 1)
      rw [Nat.add_sub_cancel] at h
      rw [← h]
      refine List.countP_congr fun i _ => ?_
      rw [decide_eq_true_eq, decide_eq_true_eq, Nat.lt_succ_iff, Nat.le_div_iff_mul_le hm]
      omega
    rw [hcount, min_le_iff]
    have hdiv : (k * bins - 1) / (n - 1) ≤ b ↔ k * bins ≤ (b + 1) * (n - 1) := by
      rw [← Nat.lt_succ_iff, Nat.div_lt_iff_lt_mul hm]
      show k * bins - 1 < (b + 1) * (n - 1) ↔ _
      omega
    rw [hdiv]
    refine or_iff_left_of_imp fun hlast => ?_
    -- the last bucket has all places
    rw [show b + 1 = bins by omega, Nat.mul_comm]
    exact Nat.mul_le_mul_left bins (by omega)

/-- How many places are in the first buckets. -/
theorem count_places {n bins b : Nat} (hb : b < bins) (hn : 0 < n) :
    (List.range n).countP (fun k => decide (edgesBefore n bins k ≤ b)) = (b + 1) * (n - 1) / bins + 1 := by
  have hle : (b + 1) * (n - 1) / bins ≤ n - 1 := Nat.div_le_of_le_mul (Nat.mul_le_mul_right _ hb)
  have h := countP_range'_lt 0 ((b + 1) * (n - 1) / bins + 1) n
  rw [← List.range_eq_range', Nat.sub_zero, Nat.min_eq_left (by omega)] at h
  rw [← h]
  refine List.countP_congr fun k hk => ?_
  rw [decide_eq_true_eq, decide_eq_true_eq, edgesBefore_le_iff hb (List.mem_range.1 hk), Nat.lt_succ_iff,
    Nat.le_div_iff_mul_le (by omega)]

theorem countP_le_succ (f : Nat → Nat) (b : Nat) (ks : List Nat) : ks.countP (fun k => decide (f k ≤ b + 1)) =
    ks.countP (fun k => f k == b + 1) + ks.countP fun k => decide (f k ≤ b) := by
  induction ks with
  | nil => rfl
  | cons k ks ih =>
    simp only [List.countP_cons, ih, decide_eq_true_eq, beq_iff_eq]
    split <;> split <;> split <;> omega

/-- How many places are in one bucket. -/
theorem count_bucket_bounds {n bins b : Nat} (hb : b < bins) (hn : 0 < n) :
    (n - 1) / bins ≤ (List.range n).countP (fun k => edgesBefore n bins k == b) ∧
      (List.range n).countP (fun k => edgesBefore n bins k == b) ≤ (n - 1) / bins + 1 := by
  cases b with
  | zero =>
    have h := count_places hb hn
    have hzero : (List.range n).countP (fun k => edgesBefore n bins k == 0) =
        (List.range n).countP (fun k => decide (edgesBefore n bins k ≤ 0)) :=
      List.countP_congr fun k _ => by rw [beq_iff_eq, decide_eq_true_eq, Nat.le_zero]
    rw [hzero, h, Nat.one_mul]
    omega
  | succ b =>
    have h := count_places hb hn
    have hbelow := count_places (Nat.lt_of_succ_lt hb) hn
    rw [countP_le_succ, hbelow, show (b + 1 + 1) * (n - 1) = (b + 1) * (n - 1) + (n - 1) from Nat.succ_mul _ _,
      Nat.add_div (by omega)] at h
    split at h <;> omega

/-! ## The buckets of a row -/

/-- How many values of a row are in a bucket. -/
def bucketSize (bucket : ℚ → Nat) (values : List Exact) (b : Nat) : Nat :=
  values.countP fun v => v.value?.map bucket == some b

theorem bucketSize_eq (bucket : ℚ → Nat) (values : List Exact) (b : Nat) :
    bucketSize bucket values b = (sortedNumbers values).countP fun x => bucket x == b := by
  rw [(perm_sortedNumbers values).countP_eq, numbers, List.countP_filterMap]
  refine List.countP_congr fun v _ => ?_
  cases v with
  | absent => exact Iff.rfl
  | number x => exact Iff.rfl

theorem map_getD_range (s : List ℚ) : ((List.range s.length).map fun k => s.getD k 0) = s := by
  refine List.ext_getElem (by rw [List.length_map, List.length_range]) fun k hk hk' => ?_
  rw [List.getElem_map, List.getElem_range, List.getD_eq_getElem _ _ hk']

/-- Distinct values make the buckets that their places make. -/
theorem bucketSize_bounds {bins b : Nat} (hb : b < bins) {values : List Exact} (hd : (numbers values).Nodup)
    (hn : numbers values ≠ []) :
    ((sortedNumbers values).length - 1) / bins ≤ bucketSize (bucketOf (sortedNumbers values) bins) values b ∧
      bucketSize (bucketOf (sortedNumbers values) bins) values b ≤ ((sortedNumbers values).length - 1) / bins + 1 := by
  have hs := strict_sortedNumbers hd
  have hpos : 0 < (sortedNumbers values).length := by
    rw [(perm_sortedNumbers values).length_eq]
    exact List.length_pos_iff.2 hn
  have hcount := count_bucket_bounds hb hpos
  have hplaces : (sortedNumbers values).countP (fun x => bucketOf (sortedNumbers values) bins x == b) =
      (List.range (sortedNumbers values).length).countP
        fun k => edgesBefore (sortedNumbers values).length bins k == b := by
    conv_lhs => rw [← map_getD_range (sortedNumbers values), List.countP_map, map_getD_range]
    refine List.countP_congr fun k hk => ?_
    have hk := List.mem_range.1 hk
    rw [Function.comp_apply, List.getD_eq_getElem _ _ hk, bucketOf_getElem hs (Nat.zero_lt_of_lt hb) hk]
  rwa [bucketSize_eq, hplaces]

/-- The least value is above no edge. -/
theorem bucketOf_least {bins : Nat} {values : List Exact} {x : ℚ} (hx : x ∈ numbers values)
    (hleast : ∀ y ∈ numbers values, x ≤ y) : bucketOf (sortedNumbers values) bins x = 0 := by
  refine List.countP_eq_zero.2 fun i hi => ?_
  have hle := (lt_of_mem_edges hi).le
  have hperm := perm_sortedNumbers values
  obtain ⟨hnonneg, hceil⟩ := edgeAt_bounds hle (List.length_pos_of_mem (hperm.mem_iff.2 hx))
  rw [decide_eq_true_eq]
  refine not_lt.2 (head_le_lineAt (pairwise_sortedNumbers values) hnonneg hceil fun y hy => ?_)
  exact hleast y (hperm.mem_iff.1 hy)

/-- The greatest of several values is above all edges. -/
theorem bucketOf_greatest {bins : Nat} (hb : 0 < bins) {values : List Exact} (hd : (numbers values).Nodup)
    (hn : 2 ≤ (numbers values).length) {x : ℚ} (hx : x ∈ numbers values)
    (hgreatest : ∀ y ∈ numbers values, y ≤ x) : bucketOf (sortedNumbers values) bins x = bins - 1 := by
  have hs := strict_sortedNumbers hd
  have hperm := perm_sortedNumbers values
  obtain ⟨k, hk, rfl⟩ := List.getElem_of_mem (hperm.mem_iff.2 hx)
  have hlast : k = (sortedNumbers values).length - 1 := by
    by_contra hne
    have hlt := List.pairwise_iff_getElem.1 hs k ((sortedNumbers values).length - 1) hk (by omega) (by omega)
    exact absurd hlt (not_lt.2 (hgreatest _ (hperm.mem_iff.1 (List.getElem_mem _))))
  rw [bucketOf_getElem hs hb hk, edgesBefore, List.countP_eq_length.2 fun i hi => ?_, List.length_range']
  rw [decide_eq_true_eq, hlast, Nat.mul_comm _ bins]
  refine Nat.mul_lt_mul_of_pos_right (lt_of_mem_edges hi) ?_
  rw [hperm.length_eq]
  omega

/-- The buckets of a row rise with the values: equal values share one, the least is in the first, and
what is missing is in none. Where no value stands two times, the greatest of several is in the last
one, and none holds two more than another. -/
theorem quantiles_balanced {bins : Nat} (hb : 1 ≤ bins) (values : List Exact) : ∃ bucket : ℚ → Nat,
    quantiles bins values = (values.map fun v => v.value?.elim (-1) fun x => Int64.ofNat (bucket x)) ∧
    (∀ x, bucket x < bins ∧ (bins ≤ 2 ^ 63 → (Int64.ofNat (bucket x)).toInt = bucket x)) ∧
    (∀ x y, x ≤ y → bucket x ≤ bucket y) ∧
    (∀ x ∈ numbers values, (∀ y ∈ numbers values, x ≤ y) → bucket x = 0) ∧
    ((numbers values).Nodup →
      (2 ≤ (numbers values).length → ∀ x ∈ numbers values, (∀ y ∈ numbers values, y ≤ x) → bucket x = bins - 1) ∧
      ∀ b < bins, ∀ b' < bins, bucketSize bucket values b ≤ bucketSize bucket values b' + 1) := by
  refine ⟨bucketOf (sortedNumbers values) bins, quantiles_eq hb values, fun x => ?_, bucketOf_mono _ bins,
    fun x hx => bucketOf_least hx, fun hd => ⟨fun hn x hx => bucketOf_greatest hb hd hn hx, fun b hlt b' hlt' => ?_⟩⟩
  · have hlt := bucketOf_lt hb (sortedNumbers values) x
    exact ⟨hlt, fun hbins => Int64.toInt_ofNat_of_lt (hlt.trans_le hbins)⟩
  · by_cases hn : numbers values = []
    · rw [bucketSize_eq, List.length_eq_zero_iff.1 ((perm_sortedNumbers values).length_eq.trans (by rw [hn]; rfl))]
      exact Nat.zero_le _
    · have h := bucketSize_bounds hlt hd hn
      have h' := bucketSize_bounds hlt' hd hn
      omega

/-- Five values in two buckets, of which one holds three. -/
theorem quantiles_balanced_five : ∃ bucket : ℚ → Nat,
    quantiles 2 [number 3, absent, number 1, number 8, number 5, number 2] =
      [.ofNat (bucket 3), -1, .ofNat (bucket 1), .ofNat (bucket 8), .ofNat (bucket 5), .ofNat (bucket 2)] ∧
    bucket 1 = 0 ∧ bucket 8 = 1 ∧
    bucketSize bucket [number 3, absent, number 1, number 8, number 5, number 2] 0 ≤
      bucketSize bucket [number 3, absent, number 1, number 8, number 5, number 2] 1 + 1 := by
  obtain ⟨bucket, hrow, -, -, hleast, hdistinct⟩ :=
    quantiles_balanced (by decide : 1 ≤ 2) [number 3, absent, number 1, number 8, number 5, number 2]
  have hnumbers : numbers [number 3, absent, number 1, number 8, number 5, number 2] = [3, 1, 8, 5, 2] := rfl
  rw [hnumbers] at hleast hdistinct
  obtain ⟨hgreatest, hsizes⟩ := hdistinct (by norm_num)
  exact ⟨bucket, hrow, hleast 1 (by norm_num) (by norm_num), hgreatest (by decide) 8 (by norm_num) (by norm_num),
    hsizes 0 (by decide) 1 (by decide)⟩

end AsOf.Stats
