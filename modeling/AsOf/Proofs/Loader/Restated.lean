import AsOf.Loader.Tables
import AsOf.Proofs.Calendar
import AsOf.Proofs.Loader.Keyed
import Mathlib.Data.List.Nodup

/-!
# Restatements among the days of a request

A restatement takes its place among the days of a request: behind those days that end
before it is known. There it applies to the values that it concerns, behind the
restatements that came before it.

* `Restatement.keyed?_eq`: the adjustment that a restatement becomes.
* `Restatement.exists_adjustment?_iff`: it changes the cells that the restatement concerns.
* `Restatements.map_some_adjustments`: one adjustment for each restatement that is seen of a cell.
* `Restatements.onCell_adjustments`: what the restatements of a table make of a cell.
* `Restatements.seen_perm`: every restatement that is known is seen, and seen once.
* `Restatements.seen_filter`: nothing that becomes known later has a part in it.
* `Restatements.seen_of_ascending`: restatements that came in the order in which they became
  known are seen in that order, whatever days are asked for.
-/
namespace AsOf

/-- The operation has one value for all cells. -/
def AdjustmentOp.Single (op : AdjustmentOp) : Prop := ∀ values, op ≠ .overwriteRows values

theorem AdjustmentOp.Single.onValue {op : AdjustmentOp} (h : op.Single) (row : Nat) (x : Scalar) :
    op.onValue row x = op.onValue 0 x := by
  cases op with
  | overwriteRows values => exact absurd rfl (h values)
  | _ => cases x <;> rfl

namespace Restatement

variable {x : Restatement} {dates : List Date} {sids : List Sid} {i j k : Nat} {d : Date} {sid : Sid}

/-- The value of an asset for a day is restated. -/
def concerns (x : Restatement) (d : Date) (sid : Sid) : Bool :=
  x.sid == sid && decide (x.start ≤ d) && decide (d ≤ x.stop)

/-- The value after the restatement. -/
def onValue (x : Restatement) (v : Scalar) : Scalar := x.op.onValue 0 v

/-- How many of some days end before the restatement is known. -/
def place (dates : List Date) (x : Restatement) : Nat := partitionPoint (· < x.known) dates.toArray

/-- The adjustment of some days and assets, and its key. -/
def adjustment? (x : Restatement) (dates : List Date) (sids : List Sid) : Option (Nat × Adjustment) :=
  (sids.idxOf? x.sid).bind fun col =>
    let first := partitionPoint (· < x.start) dates.toArray
    let stop := partitionPoint (· ≤ x.stop) dates.toArray
    if x.place dates = dates.length || stop ≤ first then none
    else some (x.place dates, ⟨first, stop - 1, col, col, x.op⟩)

theorem keyed?_eq (hx : x.op.Single) (dates : List Date) (sids : List Sid) :
    x.keyed? dates.toArray sids = .ok (x.adjustment? dates sids) := by
  unfold keyed? adjustment? place
  cases sids.idxOf? x.sid with
  | none => rfl
  | some col =>
    simp only [Option.bind_some, List.size_toArray]
    split
    · rfl
    · rename_i hc
      have hle : ¬(partitionPoint (· ≤ x.stop) dates.toArray - 1 <
          partitionPoint (· < x.start) dates.toArray) := by
        simp only [Bool.or_eq_true, decide_eq_true_eq, not_or] at hc
        omega
      have hmk : Adjustment.mk? (partitionPoint (· < x.start) dates.toArray,
          partitionPoint (· ≤ x.stop) dates.toArray - 1) (col, col) x.op =
          .ok ⟨partitionPoint (· < x.start) dates.toArray,
            partitionPoint (· ≤ x.stop) dates.toArray - 1, col, col, x.op⟩ := by
        unfold Adjustment.mk?
        rw [if_neg (by simpa using hle)]
        cases ho : x.op with
        | overwriteRows values => exact absurd ho (hx values)
        | _ => rfl
      rw [hmk]
      rfl

/-! ## Places -/

theorem place_le (hd : Ascending dates) (x : Restatement) : x.place dates ≤ dates.length :=
  (hd.rank_lt x.known).1

/-- A restatement is known on the days from its place on. -/
theorem known_le_iff (hd : Ascending dates) (hk : dates[k]? = some d) : x.known ≤ d ↔ x.place dates ≤ k := by
  have := (hd.rank_lt x.known).2 k d hk
  rw [Date.lt_iff] at this
  rw [Date.le_iff, place]
  omega

/-- What is known later has a later place. -/
theorem place_mono (hd : Ascending dates) {y : Restatement} (h : x.known ≤ y.known) :
    x.place dates ≤ y.place dates := by
  refine Nat.le_of_not_lt fun hlt => ?_
  have hle := x.place_le hd
  have hget : dates[y.place dates]? = some _ := List.getElem?_eq_getElem (by omega)
  have hy := (known_le_iff hd hget (x := y)).2 (Nat.le_refl _)
  have hx := (known_le_iff hd hget (x := x)).not.2 (by omega)
  rw [Date.le_iff] at *
  omega

/-- An adjustment is keyed inside the request and lies inside it. -/
theorem adjustment?_fits (hd : Ascending dates) {key : Nat} {a : Adjustment}
    (h : x.adjustment? dates sids = some (key, a)) :
    key < dates.length ∧ a.fits (dates.length, sids.length) = true ∧ a.op = x.op := by
  obtain ⟨col, hcol, h⟩ := Option.bind_eq_some_iff.1 h
  obtain ⟨hlt, -⟩ := List.idxOf?_eq_some_iff.1 hcol
  have hkey := x.place_le hd
  have hstop := (hd.rank_le x.stop).1
  simp only at h
  split at h
  · cases h
  · rename_i hc
    simp only [Bool.or_eq_true, decide_eq_true_eq, not_or] at hc
    cases h
    refine ⟨by omega, ?_, rfl⟩
    simp only [Adjustment.fits, Bool.and_eq_true, decide_eq_true_eq]
    omega

/-! ## What a restatement makes of a cell -/

theorem concerns_iff : x.concerns d sid = true ↔ x.sid = sid ∧ x.start ≤ d ∧ d ≤ x.stop := by
  simp only [concerns, Bool.and_eq_true, beq_iff_eq, decide_eq_true_iff, and_assoc]

/-- The adjustment of a restatement changes the cells that the restatement concerns. -/
theorem covers_iff (hd : Ascending dates) (hs : sids.Nodup) {col : Nat} (hcol : sids.idxOf? x.sid = some col)
    (hi : dates[i]? = some d) (hj : sids[j]? = some sid) :
    x.concerns d sid = true ↔ col = j ∧ partitionPoint (· < x.start) dates.toArray ≤ i ∧
      i < partitionPoint (· ≤ x.stop) dates.toArray := by
  have hstart := (hd.rank_lt x.start).2 i d hi
  have hstop := (hd.rank_le x.stop).2 i d hi
  obtain ⟨hlt, hsid, -⟩ := List.idxOf?_eq_some_iff.1 hcol
  obtain ⟨hj, rfl⟩ := List.getElem?_eq_some_iff.1 hj
  have hplace : x.sid = sids[j] ↔ col = j := by
    rw [← hsid]
    exact List.Nodup.getElem_inj_iff hs
  have hfirst : x.start ≤ d ↔ partitionPoint (· < x.start) dates.toArray ≤ i := by
    rw [Date.lt_iff] at hstart
    rw [Date.le_iff]
    omega
  rw [concerns_iff, hplace, hstop, hfirst]

/-- A restatement that concerns a cell changes it at its place, and no other does. -/
theorem exists_adjustment?_iff (hd : Ascending dates) (hs : sids.Nodup) (hi : dates[i]? = some d)
    (hj : sids[j]? = some sid) (hk : k < dates.length) :
    (∃ a, x.adjustment? dates sids = some a ∧ (a.2.covers i j && a.1 == k) = true) ↔
      (x.place dates == k && x.concerns d sid) = true := by
  rw [Bool.and_eq_true, and_comm]
  simp only [Bool.and_eq_true, beq_iff_eq]
  unfold adjustment?
  cases hcol : sids.idxOf? x.sid with
  | none =>
    have hno := List.idxOf?_eq_none_iff.1 hcol
    exact iff_of_false (by rintro ⟨a, ⟨⟩, -⟩) fun h => hno ((concerns_iff.1 h.1).1 ▸ List.mem_of_getElem? hj)
  | some col =>
    rw [covers_iff hd hs hcol hi hj]
    simp only [Option.bind_some]
    split
    · rename_i hc
      simp only [Bool.or_eq_true, decide_eq_true_eq] at hc
      exact iff_of_false (by rintro ⟨a, ⟨⟩, -⟩) fun h => by omega
    · rename_i hc
      simp only [Bool.or_eq_true, decide_eq_true_eq, not_or] at hc
      simp only [Option.some.injEq, exists_eq_left', Adjustment.covers, Bool.and_eq_true, decide_eq_true_eq]
      omega

end Restatement

/-! ## All restatements of a table -/

namespace Restatements

variable {xs : List Restatement} {dates : List Date} {sids : List Sid} {i j q : Nat} {d p : Date} {sid : Sid}

/-- The restatements of a cell that are known on a day, in the order in which they apply
where some days are asked for together: place by place, and in each place as they came. -/
def seen (xs : List Restatement) (dates : List Date) (d p : Date) (sid : Sid) : List Restatement :=
  (List.range (partitionPoint (· ≤ p) dates.toArray)).flatMap fun k =>
    (xs.filter (·.concerns d sid)).filter (·.place dates == k)

/-- The value after some restatements. -/
def onValue (xs : List Restatement) (v : Scalar) : Scalar := xs.foldl (fun v x => x.onValue v) v

/-- The adjustments of some days and assets, with their keys. -/
def adjustments (xs : List Restatement) (dates : List Date) (sids : List Sid) : Adjustments :=
  .ofList (xs.filterMap (·.adjustment? dates sids))

theorem rank_eq (hd : Ascending dates) (hq : dates[q]? = some p) :
    partitionPoint (· ≤ p) dates.toArray = q + 1 := by
  obtain ⟨hle, hget⟩ := hd.rank_le p
  have hlow := (hget q p hq).1 (Int.le_refl _)
  refine Nat.le_antisymm (Nat.le_of_not_lt fun h => ?_) hlow
  have hx := List.getElem?_eq_getElem (l := dates) (i := q + 1) (by omega)
  have hxp := (hget _ _ hx).2 h
  obtain ⟨hlt, rfl⟩ := List.getElem?_eq_some_iff.1 hq
  have := List.pairwise_iff_getElem.1 hd q (q + 1) hlt (by omega) (by omega)
  rw [Date.lt_iff] at this
  rw [Date.le_iff] at hxp
  omega

/-- The adjustments of a cell that are keyed before a row are those of the restatements that are
seen of it, one for each. -/
theorem map_some_adjustments (xs : List Restatement) (hd : Ascending dates) (hs : sids.Nodup)
    (hi : dates[i]? = some d) (hq : dates[q]? = some p) (hj : sids[j]? = some sid) :
    (((adjustments xs dates sids).flat.takeWhile (·.1 < q + 1)).filter (·.2.covers i j)).map some =
      (seen xs dates d p sid).map (·.adjustment? dates sids) := by
  have hlt := (List.getElem?_eq_some_iff.1 hq).1
  rw [adjustments, Adjustments.takeWhile_flat_ofList, seen, rank_eq hd hq, List.filter_flatMap, List.map_flatMap,
    List.map_flatMap]
  refine List.flatMap_congr fun k hk => ?_
  have hk : k < dates.length := by have := List.mem_range.1 hk; omega
  rw [List.filter_filter, List.filter_filter]
  exact Checked.map_some_filter_filterMap fun x _ => Restatement.exists_adjustment?_iff hd hs hi hj hk

/-- Adjustments of one value each make of a cell what their restatements do. -/
theorem foldl_adjustments {as : List (Nat × Adjustment)} (hx : ∀ x ∈ xs, x.op.Single) (hd : Ascending dates)
    (has : as.map some = xs.map (·.adjustment? dates sids)) (i : Nat) (v : Scalar) :
    as.foldl (fun v a => a.2.op.onValue (i - a.2.firstRow) v) v = onValue xs v := by
  induction xs generalizing as v with
  | nil =>
    obtain rfl := List.map_eq_nil_iff.1 has
    rfl
  | cons x xs ih =>
    obtain ⟨a, as, rfl, ha, has⟩ := List.map_eq_cons_iff.1 has
    have hop := (Restatement.adjustment?_fits hd ha.symm).2.2
    rw [List.foldl_cons, hop, (hx x List.mem_cons_self).onValue]
    exact ih (fun x h => hx x (List.mem_cons_of_mem _ h)) has _

/-- Every restatement that is seen is one of the table. -/
theorem mem_of_mem_seen {x : Restatement} (h : x ∈ seen xs dates d p sid) : x ∈ xs := by
  obtain ⟨k, -, hx⟩ := List.mem_flatMap.1 h
  exact (List.mem_filter.1 (List.mem_filter.1 hx).1).1

/-- What the adjustments before a row make of a cell is what its restatements make of it. -/
theorem onCell_adjustments (hx : ∀ x ∈ xs, x.op.Single) (hd : Ascending dates) (hs : sids.Nodup)
    (hi : dates[i]? = some d) (hq : dates[q]? = some p) (hj : sids[j]? = some sid) (v : Scalar) :
    History.onCell ((adjustments xs dates sids).flat.takeWhile (·.1 < q + 1)) i j v =
      onValue (seen xs dates d p sid) v := by
  rw [History.onCell_eq_foldl_filter]
  exact foldl_adjustments (fun x h => hx x (mem_of_mem_seen h)) hd (map_some_adjustments xs hd hs hi hq hj) i v

/-- The restatements that are seen of a cell are those that concern it and are known, each once. -/
theorem seen_perm (hd : Ascending dates) (hq : dates[q]? = some p) (xs : List Restatement) (d : Date) (sid : Sid) :
    (seen xs dates d p sid).Perm (xs.filter fun x => x.concerns d sid && decide (x.known ≤ p)) := by
  rw [seen, rank_eq hd hq]
  refine (Adjustments.flatMap_filter_perm _ _).trans (.of_eq ?_)
  rw [List.filter_filter]
  refine List.filter_congr fun x _ => ?_
  rw [Bool.and_comm, decide_eq_decide.2 ((Restatement.known_le_iff hd hq).trans Nat.lt_succ_iff.symm)]

/-- Nothing that becomes known after a day has a part in what is known on it. -/
theorem seen_filter (hd : Ascending dates) (xs : List Restatement) (d p : Date) (sid : Sid) :
    seen (xs.filter fun x => decide (x.known ≤ p)) dates d p sid = seen xs dates d p sid := by
  refine List.flatMap_congr fun k hk => ?_
  have hk := List.mem_range.1 hk
  obtain ⟨hle, hiff⟩ := hd.rank_le p
  have hget : dates[k]? = some _ := List.getElem?_eq_getElem (by omega)
  rw [List.filter_filter, List.filter_filter, List.filter_filter]
  refine List.filter_congr fun x _ => ?_
  by_cases hp : x.place dates = k
  · have hknown := (Restatement.known_le_iff hd hget (x := x)).2 (by omega)
    have hday := (hiff k _ hget).2 hk
    have : x.known ≤ p := Int.le_trans hknown hday
    simp [this]
  · simp [hp]

/-- Restatements of a cell that came in the order in which they became known are seen in
that order, whatever days are asked for together. -/
theorem seen_of_ascending (hd : Ascending dates) (hp : p ∈ dates)
    (ha : (xs.filter (·.concerns d sid)).Pairwise fun x y => x.known ≤ y.known) :
    seen xs dates d p sid = (xs.filter (·.concerns d sid)).filter fun x => decide (x.known ≤ p) := by
  obtain ⟨q, hq⟩ := List.getElem?_of_mem hp
  rw [seen, ← Adjustments.filter_eq_flatMap (ha.imp fun h => Restatement.place_mono hd h), rank_eq hd hq]
  refine List.filter_congr fun x _ => ?_
  rw [decide_eq_decide, Restatement.known_le_iff hd hq, Nat.lt_succ_iff]

end Restatements
end AsOf
