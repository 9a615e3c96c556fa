import AsOf.Proofs.ReadingPaths

/-!
# Adjustments that were accepted do what they say

To apply an adjustment is a total function: an operation that a block cannot take is ignored, an
operand for integers that is not whole is replaced by one that changes nothing, a value of
another type is not written, and a rectangle is cut off at the end of the block. The copies of
the functions here give up in each of these places. What was made by `mk?` and passes the
checks of a history never gets there, on the block of the history or on any that comes of it,
whatever moves are made on a cursor and where its sums wrap too.

* `Accepted.applied?_eq`: one adjustment.
* `Cursor.Ready.move`: what every move of a cursor keeps.
* `Cursor.appliedBefore?_eq`: what a cursor applies before it shows a window.
* `Cursor.Room.firstRow_le`: the rows that a window is cut out of, where no sum wraps.
-/
namespace AsOf

namespace Adjustment

/-! ## One adjustment -/

/-- An adjustment that comes out of `mk?`, as all of them do. -/
def Made (a : Adjustment) : Prop := ∃ rows cols op, mk? rows cols op = .ok a

/-- What is made has the rectangle and the operation that were given, the rectangle has a cell,
and there is a value for each of its rows. -/
theorem of_mk? {rows cols : Nat × Nat} {op : AdjustmentOp} {a : Adjustment} (h : mk? rows cols op = .ok a) :
    (rows.1 ≤ rows.2 ∧ cols.1 ≤ cols.2) ∧ a = ⟨rows.1, rows.2, cols.1, cols.2, op⟩ ∧
      ∀ values, op = .overwriteRows values → values.length = rows.2 - rows.1 + 1 := by
  unfold mk? at h
  by_cases hb : (decide (rows.2 < rows.1) || decide (cols.2 < cols.1)) = true
  · rw [if_pos hb] at h
    cases h
  · rw [if_neg hb] at h
    have hbounds : rows.1 ≤ rows.2 ∧ cols.1 ≤ cols.2 := by simpa using hb
    refine ⟨hbounds, ?_⟩
    cases op with
    | overwriteRows values =>
      by_cases hl : values.length ≠ rows.2 - rows.1 + 1
      · simp only [if_pos hl] at h
        cases h
      · simp only [if_neg hl] at h
        refine ⟨?_, fun _ he => AdjustmentOp.overwriteRows.inj he ▸ not_not.1 hl⟩
        cases values with
        | nil => exact (Except.ok.inj h).symm
        | cons first rest =>
          obtain ⟨⟨⟩, -, h⟩ := Checked.bind_eq_ok.1 h
          exact (Except.ok.inj h).symm
    | _ => exact ⟨(Except.ok.inj h).symm, fun _ he => nomatch he⟩

theorem Made.spec {a : Adjustment} (h : a.Made) : a.firstRow ≤ a.lastRow ∧ a.firstCol ≤ a.lastCol ∧
    ∀ values, a.op = .overwriteRows values → values.length = a.lastRow - a.firstRow + 1 := by
  obtain ⟨rows, cols, op, h⟩ := h
  obtain ⟨⟨hrows, hcols⟩, rfl, hlength⟩ := of_mk? h
  exact ⟨hrows, hcols, hlength⟩

/-- The rectangle has a cell, and all of its cells are in a block of the shape. -/
def Within (a : Adjustment) (shape : Nat × Nat) : Prop :=
  (a.firstRow ≤ a.lastRow ∧ a.lastRow < shape.1) ∧ a.firstCol ≤ a.lastCol ∧ a.lastCol < shape.2

instance (a : Adjustment) (shape : Nat × Nat) : Decidable (a.Within shape) :=
  inferInstanceAs (Decidable (_ ∧ _))

/-- `overwriteWhere` for a value of the block's type only. -/
def overwriteWhere? (p : Nat → Nat → Bool) (value : Scalar) (b : Block) : Option Block :=
  match b, value with
  | .floats g, .float x => some (.floats (g.mapIdx fun i j old => if p i j then x else old))
  | .ints g, .int x => some (.ints (g.mapIdx fun i j old => if p i j then x else old))
  | .times g, .time x => some (.times (g.mapIdx fun i j old => if p i j then x else old))
  | .bools g, .bool x => some (.bools (g.mapIdx fun i j old => if p i j then x else old))
  | .labels l, .label x => some (.labels (l.fillWhere p x))
  | _, _ => none

/-- `overwriteFrom` for values of the block's type only. -/
def overwriteFrom? (a : Adjustment) (row : Nat) : List Scalar → Block → Option Block
  | [], b => some b
  | value :: rest, b =>
    (overwriteWhere? (fun i j => i == row && a.covers i j) value b).bind (overwriteFrom? a (row + 1) rest)

/-- `apply` inside the block only, for an operation that the block can take, a whole operand
for integers, and as many row values as there are rows. -/
def applied? (a : Adjustment) (b : Block) : Option Block :=
  if a.Within b.shape then
    match a.op, b with
    | .multiply v, .floats g => some (.floats (a.restate (· * v) g))
    | .add v, .floats g => some (.floats (a.restate (· + v) g))
    | .multiply v, .ints g =>
      (whole? v).map fun v => .ints (a.restate (fun n => saturate (n.toInt * v.toInt)) g)
    | .add v, .ints g =>
      (whole? v).map fun v => .ints (a.restate (fun n => saturate (n.toInt + v.toInt)) g)
    | .overwrite value, b => overwriteWhere? a.covers value b
    | .overwriteRows values, b =>
      if values.length = a.lastRow - a.firstRow + 1 then a.overwriteFrom? a.firstRow values b else none
    | _, _ => none
  else none

theorem overwriteWhere?_eq {value : Scalar} {b : Block} (h : value.dtype = b.dtype) (p : Nat → Nat → Bool) :
    overwriteWhere? p value b = some (overwriteWhere p value b) := by
  cases b <;> cases value <;> first | rfl | cases h

theorem overwriteFrom?_eq (a : Adjustment) (row : Nat) {values : List Scalar} {b : Block}
    (h : ∀ value ∈ values, value.dtype = b.dtype) :
    a.overwriteFrom? row values b = some (a.overwriteFrom row values b) := by
  induction values generalizing row b with
  | nil => rfl
  | cons value rest ih =>
    obtain ⟨hvalue, hrest⟩ := List.forall_mem_cons.1 h
    rw [overwriteFrom?, overwriteWhere?_eq hvalue, Option.bind_some, ih (row + 1) fun v hv => ?_, overwriteFrom]
    rw [dtype_overwriteWhere]
    exact hrest v hv

/-- An adjustment that a block of the type and the shape takes. -/
structure Accepted (a : Adjustment) (d : Dtype) (shape : Nat × Nat) : Prop where
  made : a.Made
  fits : a.fits shape = true
  dtype : a.checkDtype d = .ok ()

theorem Accepted.within {a : Adjustment} {d : Dtype} {shape : Nat × Nat} (h : a.Accepted d shape) :
    a.Within shape := by
  obtain ⟨hrows, hcols, -⟩ := h.made.spec
  have hfits := h.fits
  simp only [Adjustment.fits, Bool.and_eq_true, decide_eq_true_eq] at hfits
  exact ⟨⟨hrows, hfits.1⟩, hcols, hfits.2⟩

theorem whole?_of_checkDtype {v : Float} {err : ArrayError}
    (h : (if (whole? v).isSome then Except.ok () else .error err) = .ok ()) : ∃ n, whole? v = some n := by
  by_cases hv : (whole? v).isSome = true
  · exact Option.isSome_iff_exists.1 hv
  · rw [if_neg hv] at h
    cases h

/-- By cases on the operation and then on the type of the block. -/
theorem Accepted.applied?_eq {a : Adjustment} {b : Block} (h : a.Accepted b.dtype b.shape) :
    a.applied? b = some (a.apply b) := by
  obtain ⟨-, -, hlength⟩ := h.made.spec
  have hd := h.dtype
  unfold checkDtype at hd
  unfold applied? apply
  rw [if_pos h.within]
  cases ho : a.op with
  | multiply v =>
    rw [ho] at hd
    cases b with
    | floats g => rfl
    | ints g =>
      obtain ⟨n, hn⟩ := whole?_of_checkDtype hd
      simp only [hn, Option.map_some, Option.getD_some]
    | _ => cases hd
  | add v =>
    rw [ho] at hd
    cases b with
    | floats g => rfl
    | ints g =>
      obtain ⟨n, hn⟩ := whole?_of_checkDtype hd
      simp only [hn, Option.map_some, Option.getD_some]
    | _ => cases hd
  | overwrite value =>
    rw [ho] at hd
    exact overwriteWhere?_eq (Block.expect_eq_ok.1 hd) a.covers
  | overwriteRows values =>
    rw [ho] at hd
    have hvalues : ∀ value ∈ values, value.dtype = b.dtype := fun value hv =>
      Block.expect_eq_ok.1 (Checked.forM_eq_ok.1 hd value hv)
    simp only [if_pos (hlength values ho)]
    exact overwriteFrom?_eq a a.firstRow hvalues

/-! ## Adjustments in turn -/

/-- Keyed adjustments that a block takes. -/
def AllAccepted (as : List (Nat × Adjustment)) (b : Block) : Prop := ∀ x ∈ as, x.2.Accepted b.dtype b.shape

/-- An adjustment does not change what a block takes. -/
theorem AllAccepted.apply {as : List (Nat × Adjustment)} {b : Block} (h : AllAccepted as b) (a : Adjustment) :
    AllAccepted as (a.apply b) := by
  intro x hx
  rw [dtype_apply, shape_apply]
  exact h x hx

end Adjustment

namespace History

open Adjustment

/-- `applyAll` that gives up where an adjustment does. -/
def appliedAll? : List (Nat × Adjustment) → Block → Option Block
  | [], b => some b
  | x :: as, b => (x.2.applied? b).bind (appliedAll? as)

theorem appliedAll?_eq {as : List (Nat × Adjustment)} {b : Block} (h : AllAccepted as b) :
    appliedAll? as b = some (applyAll as b) := by
  induction as generalizing b with
  | nil => rfl
  | cons x as ih =>
    obtain ⟨hx, has⟩ := List.forall_mem_cons.1 h
    rw [appliedAll?, hx.applied?_eq, Option.bind_some, ih (AllAccepted.apply has x.2)]
    rfl

end History

namespace Cursor

open Adjustment History

/-- `applyBefore` that gives up where an adjustment does. -/
def appliedBefore? (horizon : UInt64) : List (Nat × Adjustment) → Block → Option (Block × List (Nat × Adjustment))
  | [], b => some (b, [])
  | (key, a) :: rest, b =>
    if horizon.toNat ≤ key then some (b, (key, a) :: rest) else (a.applied? b).bind (appliedBefore? horizon rest)

theorem appliedBefore?_eq (horizon : UInt64) {as : List (Nat × Adjustment)} {b : Block} (h : AllAccepted as b) :
    appliedBefore? horizon as b = some (applyBefore horizon as b) := by
  induction as generalizing b with
  | nil => rfl
  | cons x as ih =>
    obtain ⟨key, a⟩ := x
    obtain ⟨ha, has⟩ := List.forall_mem_cons.1 h
    rw [appliedBefore?, applyBefore]
    by_cases hk : horizon.toNat ≤ key
    · rw [if_pos hk, if_pos hk]
    · rw [if_neg hk, if_neg hk, ha.applied?_eq, Option.bind_some, ih (AllAccepted.apply has a)]

/-- The block of the cursor takes what is still to be applied. -/
def Ready (c : Cursor) : Prop := AllAccepted c.pending c.block

/-- What is left of accepted adjustments is accepted by the block after the others. -/
theorem allAccepted_applyBefore (horizon : UInt64) {as : List (Nat × Adjustment)} {b : Block} (h : AllAccepted as b) :
    AllAccepted (applyBefore horizon as b).2 (applyBefore horizon as b).1 := by
  rw [applyBefore_eq]
  intro x hx
  rw [dtype_applyAll, shape_applyAll]
  exact h x ((List.dropWhile_sublist _).subset hx)

/-- What every move keeps. -/
theorem Ready.move {c : Cursor} (h : c.Ready) (m : Move) : (c.move m).Ready := by
  cases m with
  | next =>
    rw [Cursor.move, next?]
    by_cases ha : c.block.nrows < c.anchor.toNat
    · rw [if_pos ha]
      exact h
    · rw [if_neg ha]
      exact allAccepted_applyBefore _ h
  | seek target =>
    rw [Cursor.move, seek]
    by_cases hlt : target < c.anchor
    · rw [if_pos hlt]
      exact h
    · rw [if_neg hlt]
      exact h

theorem Ready.after {c : Cursor} (h : c.Ready) (moves : List Move) : (c.after moves).Ready := by
  induction moves generalizing c with
  | nil => exact h
  | cons m moves ih => exact ih (h.move m)

/-! ## The rows of a window -/

/-- The window lies above the anchor, in a block of that many rows. -/
structure Room (n : Nat) (c : Cursor) : Prop where
  le : c.window ≤ c.anchor
  nrows : c.block.nrows = n

/-- An anchor is moved down where it is inside the block, so that it does not wrap. -/
theorem Room.move {n : Nat} (hn : n < 0x8000000000000000) {c : Cursor} (h : Room n c) (m : Move) :
    Room n (c.move m) := by
  have hle := UInt64.le_iff_toNat_le.1 h.le
  cases m with
  | next =>
    rw [Cursor.move, next?, h.nrows]
    by_cases ha : n < c.anchor.toNat
    · rw [if_pos ha]
      exact h
    · rw [if_neg ha, applyBefore_eq]
      refine ⟨UInt64.le_iff_toNat_le.2 ?_, ?_⟩
      · have hanchor : (c.anchor + 1).toNat = c.anchor.toNat + 1 := by
          rw [UInt64.toNat_add]
          exact Nat.mod_eq_of_lt (show c.anchor.toNat + 1 < 0x10000000000000000 by omega)
        simp only [hanchor]
        omega
      · exact (congrArg Prod.fst (shape_applyAll ..)).trans h.nrows
  | seek target =>
    rw [Cursor.move, seek]
    by_cases hlt : target < c.anchor
    · rw [if_pos hlt]
      exact h
    · rw [if_neg hlt]
      exact ⟨UInt64.le_trans h.le (UInt64.not_lt.1 hlt), h.nrows⟩

theorem Room.after {n : Nat} (hn : n < 0x8000000000000000) {c : Cursor} (h : Room n c) (moves : List Move) :
    Room n (c.after moves) := by
  induction moves generalizing c with
  | nil => exact h
  | cons m moves ih => exact ih (h.move hn m)

/-- A window is cut out between two rows of the block, the upper one first. -/
theorem Room.firstRow_le {n : Nat} (hn : n < 0x8000000000000000) {c : Cursor} (h : Room n c)
    (hs : c.next? ≠ none) : c.firstRow ≤ c.anchor.toNat ∧ c.anchor.toNat ≤ n := by
  have ha : c.anchor.toNat ≤ n := by
    rw [next?, h.nrows] at hs
    by_contra ha
    exact hs (if_pos (by omega))
  have hsub := UInt64.toNat_sub_of_le _ _ h.le
  rw [firstRow, place_of_lt (by omega), hsub]
  exact ⟨Nat.sub_le _ _, ha⟩

end Cursor
end AsOf
