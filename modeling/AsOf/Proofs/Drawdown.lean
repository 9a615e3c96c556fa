import AsOf.Kernel.Window
import AsOf.Proofs.Exact
import Mathlib.Algebra.Order.Field.Basic
import Mathlib.Data.List.Induction
import Mathlib.Order.Bounds.Basic
import Mathlib.Tactic.Linarith

/-!
# The largest fall of a column

One pass over a column keeps the highest number so far and the largest fall so far. The fall to a
number is the larger the higher it starts, so it is enough to look at the one from the highest number
before it. Where all numbers are positive, the pass ends with the largest of the falls from any row
to that row or a later one; missing cells may stand anywhere.

* `falls_concat`: what falls one more number adds.
* `isGreatest_fallsTo`: the largest of them starts at the highest number.
* `Measured.track`, `measured_foldl`: what one number, and what all of them, leave of the pass.
* `drawdown_isGreatest`: the largest fall of a column.
-/
namespace AsOf.WindowKernel
open Exact Quantity

/-! ## Falls -/

/-- The falls from a row to that row or a later one, relative to where they start. -/
def falls (values : List Exact) : Set ℚ :=
  {r | ∃ (i j : Nat) (x y : ℚ), i ≤ j ∧ values[i]? = some (number x) ∧ values[j]? = some (number y) ∧ r = (x - y) / x}

/-- The falls to a number from the numbers of a column. -/
def fallsTo (y : ℚ) (values : List Exact) : Set ℚ := {r | ∃ x, number x ∈ values ∧ r = (x - y) / x}

variable {values : List Exact} {p w x y : ℚ}

theorem falls_concat_absent (values : List Exact) : falls (values ++ [absent]) = falls values := by
  have hget (k : Nat) (x : ℚ) : (values ++ [absent])[k]? = some (number x) ↔ values[k]? = some (number x) := by
    rcases Nat.lt_trichotomy k values.length with hk | rfl | hk
    · rw [List.getElem?_append_left hk]
    · rw [List.getElem?_concat_length, List.getElem?_eq_none (Nat.le_refl _)]
      exact ⟨nofun, nofun⟩
    · rw [List.getElem?_eq_none (by simp; omega), List.getElem?_eq_none hk.le]
  ext r
  simp only [falls, Set.mem_ofPred_eq, hget]

/-- One more number adds the falls to it. -/
theorem falls_concat (values : List Exact) (y : ℚ) :
    falls (values ++ [number y]) = falls values ∪ fallsTo y (values ++ [number y]) := by
  have hlast : (values ++ [number y])[values.length]? = some (number y) := List.getElem?_concat_length
  ext r
  constructor
  · rintro ⟨i, j, x, z, hij, hx, hz, rfl⟩
    obtain ⟨hj, -⟩ := List.getElem?_eq_some_iff.1 hz
    rw [List.length_append, List.length_singleton] at hj
    rcases (Nat.lt_succ_iff.1 hj).lt_or_eq with hj | rfl
    · rw [List.getElem?_append_left (hij.trans_lt hj)] at hx
      rw [List.getElem?_append_left hj] at hz
      exact .inl ⟨i, j, x, z, hij, hx, hz, rfl⟩
    · obtain rfl : y = z := by rw [hlast] at hz; injection hz with hz; injection hz
      exact .inr ⟨x, List.mem_of_getElem? hx, rfl⟩
  · rintro (⟨i, j, x, z, hij, hx, hz, rfl⟩ | ⟨x, hx, rfl⟩)
    · have hj := (List.getElem?_eq_some_iff.1 hz).1
      exact ⟨i, j, x, z, hij, by rwa [List.getElem?_append_left (hij.trans_lt hj)],
        by rwa [List.getElem?_append_left hj], rfl⟩
    · obtain ⟨i, hi⟩ := List.getElem?_of_mem hx
      have hlt := (List.getElem?_eq_some_iff.1 hi).1
      rw [List.length_append, List.length_singleton] at hlt
      exact ⟨i, values.length, x, y, Nat.lt_succ_iff.1 hlt, hi, hlast, rfl⟩

/-- A fall is the larger the higher it starts. -/
theorem fall_mono (hx : 0 < x) (hxp : x ≤ p) (hy : 0 < y) : (x - y) / x ≤ (p - y) / p := by
  have hp : 0 < p := hx.trans_le hxp
  have hratio : y / p ≤ y / x := div_le_div_of_nonneg_left hy.le hx hxp
  rw [sub_div, sub_div, div_self hx.ne', div_self hp.ne']
  linarith

/-- Of the falls to a number, the one from the highest number is the largest. -/
theorem isGreatest_fallsTo (hpos : ∀ x, number x ∈ values → 0 < x) (hy : 0 < y)
    (hp : IsGreatest {x | number x ∈ values} p) : IsGreatest (fallsTo y values) ((p - y) / p) := by
  refine ⟨⟨p, hp.1, rfl⟩, ?_⟩
  rintro _ ⟨x, hx, rfl⟩
  exact fall_mono (hpos x hx) (hp.2 hx) hy

/-- A fall of a column is less than all of where it starts. -/
theorem lt_one_of_mem_falls (hpos : ∀ x, number x ∈ values → 0 < x) (hw : w ∈ falls values) : w < 1 := by
  obtain ⟨i, j, x, y, -, hx, hy, rfl⟩ := hw
  have hx := hpos x (List.mem_of_getElem? hx)
  have hy := hpos y (List.mem_of_getElem? hy)
  rw [div_lt_one hx]
  linarith

/-- From a row to itself there is no fall. -/
theorem zero_mem_falls (hx : number x ∈ values) : 0 ∈ falls values := by
  obtain ⟨i, hi⟩ := List.getElem?_of_mem hx
  exact ⟨i, i, x, x, le_refl i, hi, hi, by rw [sub_self, zero_div]⟩

/-! ## One pass -/

/-- The highest number and the largest fall, after one more number. -/
def track (state : Exact × Exact) (v : Exact) : Exact × Exact :=
  let peak := larger state.1 v
  (peak, larger state.2 ((peak - v) / peak))

theorem drawdown_eq (values : List Exact) :
    drawdown values = ((present values).foldl track (absent, absent)).2 := rfl

/-- The state of the pass behind a column: nothing, if nothing is present. -/
inductive Measured (values : List Exact) : Exact × Exact → Prop
  | blank (h : ∀ v ∈ values, v = absent) : Measured values (absent, absent)
  | numbers {p w : ℚ} (peak : IsGreatest {x | number x ∈ values} p) (worst : IsGreatest (falls values) w) :
      Measured values (number p, number w)

theorem larger_number (x y : ℚ) : larger (number x) (number y) = number (max x y) := by
  show (if less (number x) (number y) then number y else number x) = _
  rw [less_number, max_def_lt]
  by_cases h : x < y
  · rw [if_pos (decide_eq_true h), if_pos h]
  · rw [if_neg (by simpa using h), if_neg h]

theorem Measured.skip {state : Exact × Exact} (h : Measured values state) : Measured (values ++ [absent]) state := by
  cases h with
  | blank h => exact .blank (List.forall_mem_append.2 ⟨h, fun v hv => List.mem_singleton.1 hv⟩)
  | numbers peak worst =>
    have hmem (x : ℚ) : number x ∈ values ++ [absent] ↔ number x ∈ values := by simp
    refine .numbers ?_ ((falls_concat_absent values).symm ▸ worst)
    simpa only [hmem] using peak

/-- What one more number leaves of the pass. -/
theorem Measured.track {state : Exact × Exact} (h : Measured values state)
    (hpos : ∀ x, number x ∈ values ++ [number y] → 0 < x) :
    Measured (values ++ [number y]) (track state (number y)) := by
  have hy : 0 < y := hpos y (List.mem_append_right _ List.mem_cons_self)
  have hnumbers : {x | number x ∈ values ++ [number y]} = {x | number x ∈ values} ∪ {y} := by
    ext x
    simp [or_comm]
  cases h with
  | blank h =>
    have hnone (x : ℚ) : number x ∉ values := fun hx => nomatch h _ hx
    have hpeak : IsGreatest {x | number x ∈ values ++ [number y]} y := by
      rw [hnumbers]
      exact ⟨.inr rfl, fun x hx => hx.elim (fun hx => absurd hx (hnone x)) fun hx => (Set.mem_singleton_iff.1 hx).le⟩
    have hfalls : falls values = ∅ := Set.eq_empty_of_forall_notMem fun r hr => by
      obtain ⟨i, j, x, z, -, hx, -⟩ := hr
      exact hnone x (List.mem_of_getElem? hx)
    have hstate : WindowKernel.track (absent, absent) (number y) = (number y, number ((y - y) / y)) := by
      show (number y, (number y - number y) / number y) = _
      rw [number_sub, number_div _ hy.ne']
    rw [hstate]
    refine .numbers hpeak ?_
    rw [falls_concat, hfalls, Set.empty_union]
    exact isGreatest_fallsTo hpos hy hpeak
  | @numbers p w peak worst =>
    have hpeak : IsGreatest {x | number x ∈ values ++ [number y]} (max p y) := by
      rw [hnumbers]
      exact peak.union isGreatest_singleton
    have hp : max p y ≠ 0 := (lt_max_of_lt_right hy).ne'
    have hstate : WindowKernel.track (number p, number w) (number y) =
        (number (max p y), number (max w ((max p y - y) / max p y))) := by
      show (larger (number p) (number y), larger (number w)
        ((larger (number p) (number y) - number y) / larger (number p) (number y))) = _
      rw [larger_number, number_sub, number_div _ hp, larger_number]
    rw [hstate]
    refine .numbers hpeak ?_
    rw [falls_concat]
    exact worst.union (isGreatest_fallsTo hpos hy hpeak)

/-- What a column leaves of the pass. -/
theorem measured_foldl (values : List Exact) (hpos : ∀ x, number x ∈ values → 0 < x) :
    Measured values ((present values).foldl WindowKernel.track (absent, absent)) := by
  induction values using List.reverseRecOn with
  | nil => exact .blank fun _ hv => absurd hv List.not_mem_nil
  | append_singleton values v ih =>
    have hmeasured := ih fun x hx => hpos x (List.mem_append_left _ hx)
    have hfold : (present (values ++ [v])).foldl WindowKernel.track (absent, absent) =
        (present [v]).foldl WindowKernel.track ((present values).foldl WindowKernel.track (absent, absent)) := by
      rw [present, List.filter_append, List.foldl_append]
      rfl
    rw [hfold]
    cases v with
    | absent => exact hmeasured.skip
    | number y => exact hmeasured.track hpos

/-- Of a column of positive numbers and missing cells, the pass finds the largest fall from a row to
that row or a later one, and nothing if nothing is present. -/
theorem drawdown_isGreatest (values : List Exact) (hpos : ∀ x, number x ∈ values → 0 < x) :
    (drawdown values = absent ↔ ∀ v ∈ values, v = absent) ∧
    ((∃ x, number x ∈ values) →
      ∃ w, drawdown values = number w ∧ IsGreatest (falls values) w ∧ 0 ≤ w ∧ w < 1) := by
  have hmeasured := measured_foldl values hpos
  rw [drawdown_eq]
  generalize (present values).foldl track (absent, absent) = state at hmeasured
  cases hmeasured with
  | blank h => exact ⟨⟨fun _ => h, fun _ => rfl⟩, fun ⟨x, hx⟩ => nomatch h _ hx⟩
  | @numbers p w peak worst =>
    exact ⟨⟨nofun, fun h => nomatch h _ peak.1⟩,
      fun _ => ⟨w, rfl, worst, worst.2 (zero_mem_falls peak.1), lt_one_of_mem_falls hpos worst.1⟩⟩

/-- From 4 down to 1, after a rise and with a gap between. -/
theorem drawdown_isGreatest_gap :
    (∀ x, number x ∈ [number 2, absent, number 4, number 3, absent, number 1, number 5] → 0 < x) ∧
    IsGreatest (falls [number 2, absent, number 4, number 3, absent, number 1, number 5]) (3 / 4) := by
  have hpos : ∀ x, number x ∈ [number 2, absent, number 4, number 3, absent, number 1, number 5] → 0 < x := by
    intro x hx
    simp only [List.mem_cons, Exact.number.injEq, reduceCtorEq, List.not_mem_nil, or_false, false_or] at hx
    rcases hx with rfl | rfl | rfl | rfl | rfl <;> norm_num
  obtain ⟨w, hw, hgreatest, -, -⟩ := (drawdown_isGreatest _ hpos).2 ⟨2, List.mem_cons_self⟩
  have hvalue : drawdown [number 2, absent, number 4, number 3, absent, number 1, number 5] = number (3 / 4) := by
    rw [drawdown_eq]
    decide +kernel
  obtain rfl : w = 3 / 4 := Exact.number.inj (hw.symm.trans hvalue)
  exact ⟨hpos, hgreatest⟩

end AsOf.WindowKernel
