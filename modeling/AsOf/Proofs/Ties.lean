import AsOf.Proofs.Graph.Same
import AsOf.Proofs.Ranks

/-!
# Ties and positions

Values that tie are ranked one by one by the ordinal method, in the order that the row was sorted
in. That order goes on to the positions only where the total order of floats has nothing to say,
and it has a say between two values that tie: the two zeros. So equal values keep the order of
their positions unless they are the two zeros, and those are put in the order of the ranking,
wherever they stand.

* `place_lt_iff_precedes`: the places are the order of ranking.
* `zeros_of_beq`: equal floats that are not the same.
* `ties_by_position`: which of two equal values is ranked first.
-/
namespace AsOf

/-! ## Floats that tie -/

/-- The total order tells all floats apart. -/
theorem orderKey_injective {x y : Float} (h : orderKey x = orderKey y) : x = y := by
  have hx := x.toBits.toNat_lt
  have hy := y.toBits.toNat_lt
  refine Scalar.toBits_injective (UInt64.toNat_inj.1 ?_)
  simp only [orderKey] at h
  split at h <;> split at h <;> omega

/-- The negative zero is sorted below the positive one. -/
theorem zeros_of_orderKey {x y : Float} (h : level x = level y) (hlt : orderKey x < orderKey y) :
    x = -0.0 ∧ y = 0.0 := by
  have hzero : orderKey x = -1 ∧ orderKey y = 0 := by
    unfold level at h
    split at h <;> split at h <;> omega
  exact ⟨orderKey_injective (hzero.1.trans (by decide)), orderKey_injective (hzero.2.trans (by decide))⟩

theorem isNaN_of_beq {x y : Float} (h : (x == y) = true) : x.isNaN = false ∧ y.isNaN = false := by
  have h : x.toModel.unpack.beq y.toModel.unpack = true := h
  show x.toModel.unpack.isNaN = false ∧ y.toModel.unpack.isNaN = false
  generalize x.toModel.unpack = u at h ⊢
  generalize y.toModel.unpack = v at h ⊢
  cases u <;> cases v <;> first | exact ⟨rfl, rfl⟩ | cases h

/-- Equal floats are the same, or they are the two zeros. -/
theorem zeros_of_beq {x y : Float} (h : (x == y) = true) :
    x = y ∨ x = -0.0 ∧ y = 0.0 ∨ x = 0.0 ∧ y = -0.0 := by
  obtain ⟨hx, hy⟩ := isNaN_of_beq h
  have hlevel := (beq_iff_level hx hy).1 h
  rcases Int.lt_trichotomy (orderKey x) (orderKey y) with hlt | heq | hgt
  · exact .inr (.inl (zeros_of_orderKey hlevel hlt))
  · exact .inl (orderKey_injective heq)
  · exact .inr (.inr (zeros_of_orderKey hlevel.symm hgt).symm)

namespace Stats

variable (ascending : Bool) {xs : List Float} {a b : Entry}

/-- The places are the order of ranking, which leaves no two positions together. -/
theorem place_lt_iff_precedes (ha : a ∈ present xs) (hb : b ∈ present xs) (hne : a.index ≠ b.index) :
    place ascending xs a.index < place ascending xs b.index ↔ precedes ascending a b = true := by
  refine ⟨precedes_of_place_lt ascending ha hb, fun h => ?_⟩
  rcases Nat.lt_trichotomy (place ascending xs a.index) (place ascending xs b.index) with hlt | heq | hgt
  · exact hlt
  · exact absurd (congrArg Entry.index (eq_of_place_eq ascending ha hb heq)) hne
  · have hback := precedes_of_place_lt ascending hb ha hgt
    simp only [precedes, Bool.or_eq_true, Bool.and_eq_true, decide_eq_true_eq, beq_iff_eq] at h hback
    omega

/-- Of two values the one that stands first is ranked first, unless the order of ranking has the
other before it. -/
theorem precedes_of_index_lt (h : a.index < b.index) : precedes ascending a b = true ↔
    if ascending then orderKey a.value ≤ orderKey b.value else orderKey b.value ≤ orderKey a.value := by
  simp only [precedes, Bool.or_eq_true, Bool.and_eq_true, decide_eq_true_eq, beq_iff_eq]
  cases ascending with
  | true =>
    show _ ∨ _ = _ ∧ _ ↔ orderKey a.value ≤ orderKey b.value
    simp only [if_true]
    omega
  | false =>
    show _ ∨ _ = _ ∧ _ ↔ orderKey b.value ≤ orderKey a.value
    simp only [Bool.false_eq_true, if_false]
    omega

/-- The zero that comes first in the order of ranking. -/
def firstZero : Float := if ascending then -0.0 else 0.0

/-- Two values that tie are in order of position exactly if they are the same float, or the first is
the zero that comes first in the order of ranking. -/
theorem precedes_of_beq (h : a.index < b.index) (heq : (a.value == b.value) = true) :
    precedes ascending a b = true ↔ a.value = b.value ∨ a.value = firstZero ascending := by
  rw [precedes_of_index_lt ascending h]
  rcases zeros_of_beq heq with hsame | ⟨hx, hy⟩ | ⟨hx, hy⟩
  · rw [hsame]
    refine iff_of_true ?_ (.inl rfl)
    split <;> exact Int.le_refl _
  all_goals
    rw [hx, hy]
    cases ascending <;> decide

/-- Ordinal ranks of values that are equal. All present values have places of their own, and the
ordinal rank is the place. Where two that are equal are the same float, the one that stands
first is ranked first. Otherwise they are the two zeros, and then the negative one is ranked
first if ranks ascend and the positive one if they descend, wherever they stand. -/
theorem ties_by_position (ascending : Bool) (xs : List Float) : ∃ place : Nat → Nat,
    (∀ j v, xs[j]? = some v →
      (rank .ordinal ascending xs)[j]? = some (if v.isNaN then nan else ofCount (place j))) ∧
    ∀ i j v w, i < j → xs[i]? = some v → xs[j]? = some w → (v == w) = true →
      place i ≠ place j ∧
      (place i < place j ↔ v = w ∨ v = firstZero ascending) ∧
      (xs.length < 2 ^ 53 →
        (ofCount (place i) < ofCount (place j) ↔ v = w ∨ v = firstZero ascending)) ∧
      (v = w ∨ v = -0.0 ∧ w = 0.0 ∨ v = 0.0 ∧ w = -0.0) := by
  refine ⟨place ascending xs, fun j v hj => getElem?_rank ascending .ordinal hj, fun i j v w hlt hi hj heq => ?_⟩
  obtain ⟨hv, hw⟩ := isNaN_of_beq heq
  have ha : ⟨i, v⟩ ∈ present xs := mem_present.2 ⟨hi, hv⟩
  have hb : ⟨j, w⟩ ∈ present xs := mem_present.2 ⟨hj, hw⟩
  have hplaces : place ascending xs i < place ascending xs j ↔ v = w ∨ v = firstZero ascending :=
    (place_lt_iff_precedes ascending ha hb (Nat.ne_of_lt hlt)).trans (precedes_of_beq ascending (a := ⟨i, v⟩) hlt heq)
  refine ⟨fun h => ?_, hplaces, fun hlength => ?_, zeros_of_beq heq⟩
  · have := congrArg Entry.index (eq_of_place_eq ascending ha hb h)
    exact Nat.ne_of_lt hlt this
  · have hle : place ascending xs j ≤ xs.length := place_le ascending hb
    rw [ofCount_lt_iff (by omega), hplaces]

/-- Equal prices keep the order of their positions, and the zeros do not. -/
theorem ties_by_position_zeros : ∃ place : Nat → Nat,
    (rank .ordinal true [5.0, 0.0, 5.0, -0.0])[1]? = some (ofCount (place 1)) ∧
    place 0 < place 2 ∧ ¬place 1 < place 3 ∧ place 1 ≠ place 3 := by
  obtain ⟨place, hrank, hties⟩ := ties_by_position true [5.0, 0.0, 5.0, -0.0]
  have hfives := hties 0 2 5.0 5.0 (by decide) rfl rfl (by decide)
  have hzeros := hties 1 3 0.0 (-0.0) (by decide) rfl rfl (by decide)
  refine ⟨place, hrank 1 0.0 rfl, hfives.2.1.2 (.inl rfl), fun h => ?_, hzeros.1⟩
  exact absurd (hzeros.2.1.1 h) (by decide)

/-- Two values that are not in the order of ranking are exchanged. -/
theorem ordered_pair {x y : Float} (hx : x.isNaN = false) (hy : y.isNaN = false)
    (h : precedes ascending ⟨0, x⟩ ⟨1, y⟩ = false) : ordered ascending [x, y] = [⟨1, y⟩, ⟨0, x⟩] := by
  have hpresent : present [x, y] = [⟨0, x⟩, ⟨1, y⟩] := by
    simp only [present, List.zipIdx_cons, List.zipIdx_nil, List.filter, hx, hy, Bool.not_false, List.map]
  simp [ordered, hpresent, List.mergeSort, List.MergeSort.Internal.splitInTwo, h]

/-- In either direction there is a row of two zeros, which are equal, whose ranks fall with their
positions. -/
theorem zeros_against_position : ((0.0 : Float) == -0.0) = true ∧
    rank .ordinal true [0.0, -0.0] = [2.0, 1.0] ∧ rank .ordinal false [-0.0, 0.0] = [2.0, 1.0] := by
  have hup := ordered_pair true (x := 0.0) (y := -0.0) (by decide) (by decide) (by decide)
  have hdown := ordered_pair false (x := -0.0) (y := 0.0) (by decide) (by decide) (by decide)
  refine ⟨by decide, ?_, ?_⟩
  · rw [rank, hup]
    decide +kernel
  · rw [rank, hdown]
    decide +kernel

end Stats
end AsOf
