import AsOf.Array.Adjustment
import AsOf.Proofs.Block

/-!
# What adjustments do to cells

An adjustment rewrites the cells of a block one by one: `Adjustment.onCell` is what
it makes of the cell in one place, and `cells_apply` says that this is all it does.
So a block that has seen some adjustments is its first cells with each of them
rewritten in turn, in the order of the adjustments.
-/
namespace AsOf

/-- What an operation makes of a value, in some row of its rectangle. -/
def AdjustmentOp.onValue (op : AdjustmentOp) (row : Nat) (x : Scalar) : Scalar :=
  match op, x with
  | .multiply v, .float x => .float (x * v)
  | .add v, .float x => .float (x + v)
  | .multiply v, .int n => .int (saturate (n.toInt * ((whole? v).getD 1).toInt))
  | .add v, .int n => .int (saturate (n.toInt + ((whole? v).getD 0).toInt))
  | .overwrite value, x => value.overwrite x
  | .overwriteRows values, x => (values[row]?.map (·.overwrite x)).getD x
  | _, x => x

/-- What an adjustment makes of the cell at row `i` and column `j`. -/
def Adjustment.onCell (a : Adjustment) (i j : Nat) (x : Scalar) : Scalar :=
  if a.covers i j then a.op.onValue (i - a.firstRow) x else x

namespace Adjustment

open Block

theorem dtype_overwriteWhere (p : Nat → Nat → Bool) (value : Scalar) (b : Block) :
    (overwriteWhere p value b).dtype = b.dtype := by
  cases b <;> cases value <;> rfl

theorem valid_overwriteWhere (p : Nat → Nat → Bool) (value : Scalar) {b : Block} (h : b.Valid) :
    (overwriteWhere p value b).Valid := by
  cases b with
  | labels a =>
    cases value with
    | label l => exact Labels.valid_fillWhere h p l
    | _ => exact h
  | _ => cases value <;> trivial

theorem distinct_overwriteWhere (p : Nat → Nat → Bool) (value : Scalar) {b : Block}
    (h : b.Distinct) : (overwriteWhere p value b).Distinct := by
  cases b with
  | labels a =>
    cases value with
    | label l => exact Dictionary.nodup_intern h l
    | _ => exact h
  | _ => cases value <;> trivial

theorem shape_overwriteWhere (p : Nat → Nat → Bool) (value : Scalar) (b : Block) :
    (overwriteWhere p value b).shape = b.shape := by
  cases b <;> cases value <;> rfl

/-- Rewriting the cells of one type is rewriting the scalars that they are. -/
theorem map_mapIdx {α : Type} (wrap : α → Scalar) (f : Nat → Nat → α → α)
    (f' : Nat → Nat → Scalar → Scalar) (h : ∀ i j x, wrap (f i j x) = f' i j (wrap x)) (g : Grid α) :
    (g.mapIdx f).map wrap = (g.map wrap).mapIdx f' := by
  refine Grid.ext_get? rfl fun i j => ?_
  rw [Grid.get?_map, Grid.get?_mapIdx, Grid.get?_mapIdx, Grid.get?_map, Option.map_map, Option.map_map]
  exact congrArg (fun f => Option.map f (g.get? i j)) (funext (h i j))

theorem mapIdx_id {α : Type} {f : Nat → Nat → α → α} {g : Grid α}
    (h : ∀ i j x, g.get? i j = some x → f i j x = x) : g.mapIdx f = g := by
  refine Grid.ext_get? rfl fun i j => ?_
  rw [Grid.get?_mapIdx]
  cases hx : g.get? i j with
  | none => rfl
  | some x => exact congrArg some (h i j x hx)

theorem cells_overwriteWhere (p : Nat → Nat → Bool) (value : Scalar) {b : Block} (h : b.Valid) :
    (overwriteWhere p value b).cells =
      b.cells.mapIdx fun i j old => if p i j then value.overwrite old else old := by
  have other (hd : value.dtype ≠ b.dtype) : b.cells =
      b.cells.mapIdx fun i j old => if p i j then value.overwrite old else old := by
    refine (mapIdx_id fun i j x hx => ?_).symm
    rw [Scalar.overwrite, dtype_of_mem_cells hx, if_neg hd, ite_self]
  have written {α : Type} (wrap : α → Scalar) (x : α) (g : Grid α)
      (hw : ∀ old, (wrap x).overwrite (wrap old) = wrap x) :
      (g.mapIdx fun i j old => if p i j then x else old).map wrap =
        (g.map wrap).mapIdx fun i j old => if p i j then (wrap x).overwrite old else old := by
    refine map_mapIdx _ _ _ (fun i j old => ?_) g
    rw [hw, apply_ite wrap]
  cases b with
  | floats g =>
    cases value with
    | float x => exact written .float x g fun _ => if_pos rfl
    | _ => exact other (by rintro ⟨⟩)
  | ints g =>
    cases value with
    | int x => exact written .int x g fun _ => if_pos rfl
    | _ => exact other (by rintro ⟨⟩)
  | bools g =>
    cases value with
    | bool x => exact written .bool x g fun _ => if_pos rfl
    | _ => exact other (by rintro ⟨⟩)
  | times g =>
    cases value with
    | time x => exact written .time x g fun _ => if_pos rfl
    | _ => exact other (by rintro ⟨⟩)
  | labels a =>
    cases value with
    | label l =>
      rw [overwriteWhere, cells, Labels.toLabels_fillWhere h]
      exact written .label l a.toLabels fun _ => if_pos rfl
    | _ => exact other (by rintro ⟨⟩)

/-! ## One value a row -/

theorem dtype_overwriteFrom (a : Adjustment) (row : Nat) (values : List Scalar) (b : Block) :
    (a.overwriteFrom row values b).dtype = b.dtype := by
  induction values generalizing row b with
  | nil => rfl
  | cons value rest ih => rw [overwriteFrom, ih, dtype_overwriteWhere]

theorem valid_overwriteFrom (a : Adjustment) (row : Nat) (values : List Scalar) {b : Block}
    (h : b.Valid) : (a.overwriteFrom row values b).Valid := by
  induction values generalizing row b with
  | nil => exact h
  | cons value rest ih => exact ih (row + 1) (valid_overwriteWhere _ value h)

theorem distinct_overwriteFrom (a : Adjustment) (row : Nat) (values : List Scalar) {b : Block}
    (h : b.Distinct) : (a.overwriteFrom row values b).Distinct := by
  induction values generalizing row b with
  | nil => exact h
  | cons value rest ih => exact ih (row + 1) (distinct_overwriteWhere _ value h)

theorem shape_overwriteFrom (a : Adjustment) (row : Nat) (values : List Scalar) (b : Block) :
    (a.overwriteFrom row values b).shape = b.shape := by
  induction values generalizing row b with
  | nil => rfl
  | cons value rest ih => rw [overwriteFrom, ih, shape_overwriteWhere]

theorem cells_overwriteFrom (a : Adjustment) (row : Nat) (values : List Scalar) {b : Block}
    (h : b.Valid) : (a.overwriteFrom row values b).cells = b.cells.mapIdx fun i j old =>
      if a.covers i j ∧ row ≤ i then (values[i - row]?.map (·.overwrite old)).getD old else old := by
  induction values generalizing row b with
  | nil =>
    refine (mapIdx_id fun i j x _ => ?_).symm
    simp
  | cons value rest ih =>
    rw [overwriteFrom, ih (row + 1) (valid_overwriteWhere _ value h), cells_overwriteWhere _ _ h]
    refine Grid.ext_get? rfl fun i j => ?_
    rw [Grid.get?_mapIdx, Grid.get?_mapIdx, Grid.get?_mapIdx, Option.map_map]
    refine congrArg (fun f => Option.map f (b.cells.get? i j)) (funext fun old => ?_)
    simp only [Function.comp_apply]
    by_cases hc : a.covers i j = true
    · rcases Nat.lt_trichotomy i row with hi | rfl | hi
      · simp [hc, show i ≠ row by omega, show ¬row ≤ i by omega, show ¬row + 1 ≤ i by omega]
      · simp [hc, show ¬i + 1 ≤ i by omega]
      · obtain ⟨k, rfl⟩ : ∃ k, i = row + 1 + k := ⟨i - (row + 1), by omega⟩
        simp [hc, show row + 1 + k ≠ row by omega, show row ≤ row + 1 + k by omega,
          show row + 1 + k - row = k + 1 by omega]
    · simp [hc]

/-! ## The whole adjustment -/

theorem dtype_apply (a : Adjustment) (b : Block) : (a.apply b).dtype = b.dtype := by
  unfold apply
  split
  all_goals first
    | rfl
    | exact dtype_overwriteWhere ..
    | exact dtype_overwriteFrom ..

theorem shape_apply (a : Adjustment) (b : Block) : (a.apply b).shape = b.shape := by
  unfold apply
  split
  case h_5 => exact shape_overwriteWhere ..
  case h_6 => exact shape_overwriteFrom ..
  all_goals rfl

theorem valid_apply (a : Adjustment) {b : Block} (h : b.Valid) : (a.apply b).Valid := by
  unfold apply
  split
  case h_5 => exact valid_overwriteWhere _ _ h
  case h_6 => exact valid_overwriteFrom _ _ _ h
  case h_7 => exact h
  all_goals trivial

theorem distinct_apply (a : Adjustment) {b : Block} (h : b.Distinct) : (a.apply b).Distinct := by
  unfold apply
  split
  case h_5 => exact distinct_overwriteWhere _ _ h
  case h_6 => exact distinct_overwriteFrom _ _ _ h
  case h_7 => exact h
  all_goals trivial

/-- An adjustment rewrites cell by cell. -/
theorem cells_apply (a : Adjustment) {b : Block} (h : b.Valid) :
    (a.apply b).cells = b.cells.mapIdx a.onCell := by
  have other (ho : ∀ i j x, b.cells.get? i j = some x → a.onCell i j x = x) :
      b.cells = b.cells.mapIdx a.onCell := (mapIdx_id ho).symm
  have restated {α : Type} (wrap : α → Scalar) (f : α → α) (g : Grid α)
      (hw : ∀ i j x, a.onCell i j (wrap x) = if a.covers i j then wrap (f x) else wrap x) :
      (a.restate f g).map wrap = (g.map wrap).mapIdx a.onCell := by
    refine map_mapIdx _ _ _ (fun i j x => ?_) g
    rw [hw, apply_ite wrap]
  unfold apply
  cases ho : a.op with
  | multiply v =>
    cases b with
    | floats g => exact restated .float _ g fun i j x => by simp only [onCell, ho, AdjustmentOp.onValue]
    | ints g => exact restated .int _ g fun i j x => by simp only [onCell, ho, AdjustmentOp.onValue]
    | _ =>
      refine other fun i j x hx => ?_
      have hd := dtype_of_mem_cells hx
      cases x <;> cases hd
      simp only [onCell, ho, AdjustmentOp.onValue, ite_self]
  | add v =>
    cases b with
    | floats g => exact restated .float _ g fun i j x => by simp only [onCell, ho, AdjustmentOp.onValue]
    | ints g => exact restated .int _ g fun i j x => by simp only [onCell, ho, AdjustmentOp.onValue]
    | _ =>
      refine other fun i j x hx => ?_
      have hd := dtype_of_mem_cells hx
      cases x <;> cases hd
      simp only [onCell, ho, AdjustmentOp.onValue, ite_self]
  | overwrite value =>
    rw [cells_overwriteWhere _ _ h]
    congr
    funext i j x
    simp only [onCell, ho, AdjustmentOp.onValue]
  | overwriteRows values =>
    rw [cells_overwriteFrom _ _ _ h]
    congr
    funext i j x
    simp only [onCell, ho, AdjustmentOp.onValue]
    by_cases hc : a.covers i j = true
    · have hr : a.firstRow ≤ i := by
        simp only [covers, Bool.and_eq_true, decide_eq_true_eq] at hc
        omega
      rw [if_pos hc, if_pos ⟨hc, hr⟩]
    · rw [if_neg hc, if_neg fun h => hc h.1]

end Adjustment
end AsOf
