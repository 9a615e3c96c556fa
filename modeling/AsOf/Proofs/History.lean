import AsOf.Array.History
import AsOf.Proofs.Adjustment

/-!
# What a history shows as of a row

`History.knownBefore n` is the block after the adjustments keyed before row `n`, in
the order of their list: what is known when row `n` has not begun. A window that
ends below row `n` shows the rows of that block, whatever was shown before it.

* `next?_of_seen`: one window, at any anchor and horizon.
* `shows_traverse`: the windows of a traversal, one after the other.
* `rowsAsOf_spec`: rows, each as it was known on it.
-/
namespace AsOf

/-- The cursor shows `windows 0`, then `windows 1`, and so on, `n` times. -/
def Cursor.Shows (windows : Nat → Block) : Nat → Cursor → Prop
  | 0, _ => True
  | n + 1, c => ∃ c', c.next? = some (windows 0, c') ∧ c'.Shows (fun i => windows (i + 1)) n

namespace History

/-- Applies keyed adjustments in the order of their list. -/
def applyAll (as : List (Nat × Adjustment)) (b : Block) : Block := as.foldl (fun b a => a.2.apply b) b

/-- The block after the adjustments keyed before `n`. -/
def knownBefore (h : History) (n : Nat) : Block :=
  applyAll (h.adjustments.flat.takeWhile (·.1 < n)) h.block

/-- The cell for row `i` as known on row `p`. -/
def cell? (h : History) (i p j : Nat) : Option Scalar := (h.knownBefore (p + 1)).get? i j

/-- The labels of the block are valid. -/
def Valid (h : History) : Prop := h.block.Valid

/-! ## Applying adjustments in turn -/

theorem dtype_applyAll (as : List (Nat × Adjustment)) (b : Block) :
    (applyAll as b).dtype = b.dtype := by
  induction as generalizing b with
  | nil => rfl
  | cons a as ih => exact (ih _).trans (a.2.dtype_apply b)

theorem valid_applyAll (as : List (Nat × Adjustment)) {b : Block} (h : b.Valid) :
    (applyAll as b).Valid := by
  induction as generalizing b with
  | nil => exact h
  | cons a as ih => exact ih (a.2.valid_apply h)

theorem distinct_applyAll (as : List (Nat × Adjustment)) {b : Block} (h : b.Distinct) :
    (applyAll as b).Distinct := by
  induction as generalizing b with
  | nil => exact h
  | cons a as ih => exact ih (a.2.distinct_apply h)

/-- What a list of adjustments makes of the cell at row `i` and column `j`. -/
def onCell (as : List (Nat × Adjustment)) (i j : Nat) (x : Scalar) : Scalar :=
  as.foldl (fun x a => a.2.onCell i j x) x

/-- Only adjustments of the cell change it. -/
theorem onCell_eq_foldl_filter (as : List (Nat × Adjustment)) (i j : Nat) (x : Scalar) : onCell as i j x =
    (as.filter (·.2.covers i j)).foldl (fun x a => a.2.op.onValue (i - a.2.firstRow) x) x := by
  induction as generalizing x with
  | nil => rfl
  | cons a as ih =>
    rw [show onCell (a :: as) i j x = onCell as i j (a.2.onCell i j x) from rfl, ih, Adjustment.onCell]
    by_cases hc : a.2.covers i j = true
    · rw [if_pos hc, List.filter_cons_of_pos (by exact hc)]
      rfl
    · rw [if_neg hc, List.filter_cons_of_neg (by exact hc)]

theorem cells_applyAll (as : List (Nat × Adjustment)) {b : Block} (h : b.Valid) :
    (applyAll as b).cells = b.cells.mapIdx (onCell as) := by
  induction as generalizing b with
  | nil => exact (Adjustment.mapIdx_id fun _ _ _ _ => rfl).symm
  | cons a as ih =>
    rw [show applyAll (a :: as) b = applyAll as (a.2.apply b) from rfl, ih (a.2.valid_apply h),
      a.2.cells_apply h]
    refine Grid.ext_get? rfl fun i j => ?_
    rw [Grid.get?_mapIdx, Grid.get?_mapIdx, Grid.get?_mapIdx, Option.map_map]
    rfl

theorem shape_applyAll (as : List (Nat × Adjustment)) (b : Block) :
    (applyAll as b).shape = b.shape := by
  induction as generalizing b with
  | nil => rfl
  | cons a as ih => exact (ih _).trans (a.2.shape_apply b)

theorem applyAll_append (as bs : List (Nat × Adjustment)) (b : Block) :
    applyAll (as ++ bs) b = applyAll bs (applyAll as b) := List.foldl_append

/-! ## As known before a row -/

theorem dtype_knownBefore (h : History) (n : Nat) : (h.knownBefore n).dtype = h.dtype :=
  dtype_applyAll ..

theorem valid_knownBefore {h : History} (hv : h.Valid) (n : Nat) : (h.knownBefore n).Valid :=
  valid_applyAll _ hv

theorem distinct_knownBefore {h : History} (hd : h.block.Distinct) (n : Nat) :
    (h.knownBefore n).Distinct := distinct_applyAll _ hd

theorem shape_knownBefore (h : History) (n : Nat) : (h.knownBefore n).shape = h.shape :=
  shape_applyAll ..

theorem nrows_knownBefore (h : History) (n : Nat) : (h.knownBefore n).nrows = h.block.nrows :=
  congrArg Prod.fst (shape_knownBefore h n)

theorem ncols_knownBefore (h : History) (n : Nat) : (h.knownBefore n).ncols = h.block.ncols :=
  congrArg Prod.snd (shape_knownBefore h n)

/-- A cell is what the adjustments seen on a row make of it, one after the other. -/
theorem cell?_eq {h : History} (hv : h.Valid) (i q j : Nat) : h.cell? i q j =
    (h.block.get? i j).map (onCell (h.adjustments.flat.takeWhile (·.1 < q + 1)) i j) := by
  rw [cell?, knownBefore, ← Block.get?_cells, cells_applyAll _ hv, Grid.get?_mapIdx, Block.get?_cells]

theorem knownBefore_zero (h : History) : h.knownBefore 0 = h.block := by
  rw [knownBefore]
  cases h.adjustments.flat <;> rfl

theorem knownBefore_of_isEmpty {h : History} (he : h.adjustments.isEmpty = true) (n : Nat) :
    h.knownBefore n = h.block := by
  rw [knownBefore, List.isEmpty_iff.1 he]
  rfl

/-! ## Windows -/

theorem applyBefore_eq (horizon : UInt64) (as : List (Nat × Adjustment)) (b : Block) :
    Cursor.applyBefore horizon as b =
      (applyAll (as.takeWhile (·.1 < horizon.toNat)) b, as.dropWhile (·.1 < horizon.toNat)) := by
  induction as generalizing b with
  | nil => rfl
  | cons a as ih =>
    obtain ⟨key, a⟩ := a
    rw [Cursor.applyBefore]
    by_cases hk : horizon.toNat ≤ key
    · rw [if_pos hk, List.takeWhile_cons_of_neg (by simpa using hk),
        List.dropWhile_cons_of_neg (by simpa using hk)]
      rfl
    · rw [if_neg hk, ih, List.takeWhile_cons_of_pos (by simpa using hk),
        List.dropWhile_cons_of_pos (by simpa using hk)]
      rfl

/-- Waiting for a later horizon applies the same adjustments as going there at once. -/
theorem takeWhile_append_takeWhile {k n : Nat} (hk : k ≤ n) (as : List (Nat × Adjustment)) :
    as.takeWhile (·.1 < k) ++ (as.dropWhile (·.1 < k)).takeWhile (·.1 < n) =
        as.takeWhile (·.1 < n) ∧
      (as.dropWhile (·.1 < k)).dropWhile (·.1 < n) = as.dropWhile (·.1 < n) := by
  induction as with
  | nil => exact ⟨rfl, rfl⟩
  | cons a as ih =>
    by_cases ha : a.1 < k
    · rw [List.takeWhile_cons_of_pos (by simpa using ha),
        List.dropWhile_cons_of_pos (by simpa using ha),
        List.takeWhile_cons_of_pos (by simp; omega), List.dropWhile_cons_of_pos (by simp; omega)]
      exact ⟨congrArg (a :: ·) ih.1, ih.2⟩
    · rw [List.takeWhile_cons_of_neg (by simpa using ha),
        List.dropWhile_cons_of_neg (by simpa using ha)]
      exact ⟨rfl, rfl⟩

theorem knownBefore_of_le (h : History) {k n : Nat} (hk : k ≤ n) :
    applyAll ((h.adjustments.flat.dropWhile (·.1 < k)).takeWhile (·.1 < n)) (h.knownBefore k) =
      h.knownBefore n := by
  rw [knownBefore, ← applyAll_append, (takeWhile_append_takeWhile hk _).1, knownBefore]

theorem place_of_lt {n : Nat} {i : UInt64} (h : i.toNat < 0x8000000000000000) : Grid.place n i = i.toNat :=
  if_pos (UInt64.lt_iff_toNat_lt.2 h)

/-- One window: what a cursor shows that has seen what is keyed before some row, and what it
leaves behind. -/
theorem next?_of_seen (h : History) {c : Cursor} {k : Nat} (hb : c.block = h.knownBefore k)
    (hp : c.pending = h.adjustments.flat.dropWhile (·.1 < k)) (hk : k ≤ (c.anchor + c.perspective).toNat)
    (ha : c.anchor.toNat ≤ h.block.nrows) :
    c.next? = some
      ((h.knownBefore (c.anchor + c.perspective).toNat).sliceRows
        (Grid.place h.block.nrows (c.anchor - c.window)) c.anchor.toNat,
        { c with
          block := h.knownBefore (c.anchor + c.perspective).toNat
          pending := h.adjustments.flat.dropWhile (·.1 < (c.anchor + c.perspective).toNat)
          anchor := c.anchor + 1 }) := by
  have hrow : c.block.nrows = h.block.nrows := by rw [hb, nrows_knownBefore]
  rw [Cursor.next?, if_neg (by omega), applyBefore_eq, hb, hp, knownBefore_of_le h hk,
    (takeWhile_append_takeWhile hk _).2, Cursor.firstRow, hrow]

/-- The windows from an anchor on, when all that is keyed before some row above it
has been applied. -/
theorem shows_of_anchor (h : History) (hN : h.block.nrows < 0x8000000000000000) {n : Nat}
    {c : Cursor} {k a s : Nat} (hb : c.block = h.knownBefore k)
    (hp : c.pending = h.adjustments.flat.dropWhile (·.1 < k)) (hk : k ≤ a)
    (h0 : c.perspective = 0) (ha : c.anchor.toNat = a) (hs : (c.anchor - c.window).toNat = s)
    (hn : a + n ≤ h.block.nrows + 1) (hs' : s + n ≤ 0x8000000000000000) :
    c.Shows (fun i => (h.knownBefore (a + i)).sliceRows (s + i) (a + i)) n := by
  induction n generalizing c k a s with
  | zero => trivial
  | succ n ih =>
    have hhorizon : (c.anchor + c.perspective).toNat = a := by rw [h0, UInt64.add_zero, ha]
    have hanchor : (c.anchor + 1).toNat = a + 1 := by
      rw [UInt64.toNat_add, ha]
      show (a + 1) % 0x10000000000000000 = a + 1
      omega
    have hnext : (c.anchor + 1 - c.window).toNat = s + 1 := by
      have e : c.anchor + 1 - c.window = c.anchor - c.window + 1 := by
        rw [UInt64.sub_eq_add_neg, UInt64.sub_eq_add_neg, UInt64.add_assoc, UInt64.add_assoc,
          UInt64.add_comm 1]
      rw [e, UInt64.toNat_add, hs]
      show (s + 1) % 0x10000000000000000 = s + 1
      omega
    refine ⟨{ c with
      block := h.knownBefore a
      pending := h.adjustments.flat.dropWhile (·.1 < a)
      anchor := c.anchor + 1 }, ?_, ?_⟩
    · rw [next?_of_seen h hb hp (by omega) (by omega), hhorizon, ha, place_of_lt (by omega), hs]
      rfl
    · have := ih (c := { c with
          block := h.knownBefore a
          pending := h.adjustments.flat.dropWhile (·.1 < a)
          anchor := c.anchor + 1 }) rfl rfl (Nat.le_succ a) h0 hanchor hnext (by omega) (by omega)
      simpa only [Nat.succ_eq_add_one, Nat.add_assoc, Nat.add_comm 1] using this

theorem traverse_eq (h : History) (window offset perspective : UInt64) :
    h.traverse window offset perspective =
      if window = 0 then .error .windowLengthNotPositive
      else if h.block.nrows < (offset + window).toNat then
        .error (.windowLengthTooLong window offset h.block.nrows)
      else .ok (.start h.block h.adjustments.flat window offset perspective) := by
  unfold traverse
  by_cases hw : window = 0
  · rw [if_pos hw, if_pos hw]
    rfl
  · rw [if_neg hw, if_neg hw]
    by_cases hl : h.block.nrows < (offset + window).toNat
    · rw [if_pos hl]
      simp only [if_pos hl]
      rfl
    · rw [if_neg hl]
      simp only [if_neg hl]
      rfl

theorem traverse_eq_ok {h : History} {window offset perspective : UInt64} {c : Cursor} :
    h.traverse window offset perspective = .ok c ↔
      window ≠ 0 ∧ (offset + window).toNat ≤ h.block.nrows ∧
        c = .start h.block h.adjustments.flat window offset perspective := by
  rw [traverse_eq]
  split
  · exact ⟨nofun, fun e => absurd ‹_› e.1⟩
  · split
    · exact ⟨nofun, fun e => by omega⟩
    · exact ⟨fun e => ⟨‹_›, by omega, (Except.ok.inj e).symm⟩, fun e => congrArg Except.ok e.2.2.symm⟩

/-- A traversal that fits shows, one after the other, the windows that begin at
`offset`, each as known before the row below it. -/
theorem shows_traverse {h : History} (hN : h.block.nrows < 0x8000000000000000)
    {window offset : UInt64} {c : Cursor} (ht : h.traverse window offset 0 = .ok c) {n : Nat}
    (hn : (offset + window).toNat + n ≤ h.block.nrows + 1) (ho : offset.toNat + n ≤ 0x8000000000000000) :
    c.Shows (fun i => (h.knownBefore ((offset + window).toNat + i)).sliceRows (offset.toNat + i)
      ((offset + window).toNat + i)) n := by
  obtain ⟨-, -, rfl⟩ := traverse_eq_ok.1 ht
  refine shows_of_anchor h hN (k := 0) h.knownBefore_zero.symm ?_ (Nat.zero_le _) rfl rfl ?_ hn ho
  · show h.adjustments.flat = _
    cases h.adjustments.flat <;> rfl
  · show (offset + window - window).toNat = _
    rw [UInt64.add_sub_cancel]

end History

theorem Cursor.take_of_shows {windows : Nat → Block} {n : Nat} {c : Cursor}
    (h : c.Shows windows n) : c.take n = (List.range n).map windows := by
  induction n generalizing c windows with
  | zero => rfl
  | succ n ih =>
    obtain ⟨c', hn, hs⟩ := h
    rw [Cursor.take, hn, List.range_succ_eq_map, List.map_cons, List.map_map]
    exact congrArg (windows 0 :: ·) (ih hs)

namespace History

/-! ## Rows as they were known -/

theorem toNat_ofNat {k : Nat} (h : k < 0x8000000000000000) : (UInt64.ofNat k).toNat = k := by
  rw [UInt64.toNat_ofNat']
  exact Nat.mod_eq_of_lt (by omega)

theorem place_of_le {n k : Nat} (h : k < 0x8000000000000000) : Grid.place n (UInt64.ofNat k) = k := by
  rw [place_of_lt (by rwa [toNat_ofNat h]), toNat_ofNat h]

/-- Single rows of what is known before each of some rows, one under the other. -/
theorem concatRows_known {h : History} (hv : h.Valid) {start count : Nat}
    (h0 : 0 < count) (hs : start + count ≤ h.block.nrows) :
    ∃ b, Block.concatRows ((List.range count).map fun i =>
        (h.knownBefore (start + 1 + i)).sliceRows (start + i) (start + 1 + i)) = .ok b ∧
      b.dtype = h.dtype ∧ b.Valid ∧ b.Distinct ∧ b.shape = (count, h.block.ncols) ∧
      ∀ i j, b.get? i j = if i < count then h.cell? (start + i) (start + i) j else none := by
  obtain ⟨b, hb, hbd, hbv, hbn, hbs, hbc⟩ := @Block.concatRows_singles
    (fun i => (h.knownBefore (start + 1 + i)).sliceRows (start + i) (start + 1 + i)) _ _ h.block.ncols h0
    (fun i hi => by
      rw [Block.shape_sliceRows, nrows_knownBefore, ncols_knownBefore]
      congr 1
      omega)
    (fun i _ => by rw [Block.dtype_sliceRows, dtype_knownBefore])
    (fun i _ => Block.valid_sliceRows (valid_knownBefore hv _) _ _)
  refine ⟨b, hb, hbd, hbv, hbn, hbs, fun i j => ?_⟩
  rw [hbc]
  congr 1
  rw [Block.get?_sliceRows, if_pos (by omega), cell?, Nat.add_right_comm]
  rfl

/-- Rows inside a block are cut out of it, or taken one by one as they were known. -/
theorem rowsAsOf_eq {h : History} (hN : h.block.nrows < 0x8000000000000000) {start count : Nat}
    (hs : start + count ≤ h.block.nrows) :
    h.rowsAsOf (.ofNat start) (.ofNat (start + count)) =
      if h.adjustments.isEmpty = true ∨ count = 0 then .ok (h.block.sliceRows start (start + count))
      else Block.concatRows ((List.range count).map fun i =>
        (h.knownBefore (start + 1 + i)).sliceRows (start + i) (start + 1 + i)) := by
  have hstart : (UInt64.ofNat start).toNat = start := toNat_ofNat (by omega)
  have hstop : (UInt64.ofNat (start + count)).toNat = start + count := toNat_ofNat (by omega)
  have hiff : (h.adjustments.isEmpty || decide (UInt64.ofNat (start + count) ≤ UInt64.ofNat start)) = true ↔
      h.adjustments.isEmpty = true ∨ count = 0 := by
    rw [Bool.or_eq_true_iff, decide_eq_true_iff, UInt64.le_iff_toNat_le, hstop, hstart]
    exact or_congr_right (by omega)
  unfold rowsAsOf
  by_cases hc : h.adjustments.isEmpty = true ∨ count = 0
  · rw [if_pos (hiff.2 hc), if_pos hc, Block.rowsBetween, place_of_le (by omega), place_of_le (by omega)]
    rfl
  · rw [if_neg (mt hiff.1 hc), if_neg hc]
    have hend : (UInt64.ofNat start + 1).toNat = start + 1 := by
      rw [UInt64.toNat_add, hstart]
      show (start + 1) % 0x10000000000000000 = start + 1
      omega
    have hcount : (UInt64.ofNat (start + count) - UInt64.ofNat start).toNat = count := by
      rw [UInt64.toNat_sub_of_le _ _ (by rw [UInt64.le_iff_toNat_le, hstop, hstart]; omega), hstop,
        hstart, Nat.add_sub_cancel_left]
    have ht : h.traverse 1 (.ofNat start) 0 = .ok (.start h.block h.adjustments.flat 1 (.ofNat start) 0) :=
      traverse_eq_ok.2 ⟨by decide, by omega, rfl⟩
    have hshow := shows_traverse hN ht (n := count) (by omega) (by omega)
    rw [hend, hstart] at hshow
    rw [ht, hcount, ← Cursor.take_of_shows hshow]
    rfl

/-- However a history came about, its rows have its width. -/
theorem shape_rowsAsOf {h : History} (hN : h.block.nrows < 0x8000000000000000) {start count : Nat}
    (hs : start + count ≤ h.block.nrows) {b : Block}
    (hb : h.rowsAsOf (.ofNat start) (.ofNat (start + count)) = .ok b) : b.shape = (count, h.block.ncols) := by
  rw [rowsAsOf_eq hN hs] at hb
  split at hb
  · obtain rfl := Except.ok.inj hb
    rw [Block.shape_sliceRows]
    congr 1
    omega
  · refine (Block.shape_concatRows hb fun part hpart => (?_ : part.shape = (1, h.block.ncols))).trans ?_
    · obtain ⟨i, hi, rfl⟩ := List.mem_map.1 hpart
      have := List.mem_range.1 hi
      rw [Block.shape_sliceRows, nrows_knownBefore, ncols_knownBefore]
      congr 1
      omega
    · rw [List.length_map, List.length_range, Nat.mul_one]

/-- Rows inside a block can be taken as they were known, and each of them shows the
adjustments keyed at it or above. -/
theorem rowsAsOf_known {h : History} (hv : h.Valid) (hN : h.block.nrows < 0x8000000000000000) {start count : Nat}
    (hs : start + count ≤ h.block.nrows) :
    ∃ b, h.rowsAsOf (.ofNat start) (.ofNat (start + count)) = .ok b ∧ b.dtype = h.dtype ∧
      b.Valid ∧ (h.block.Distinct → b.Distinct) ∧ b.shape = (count, h.block.ncols) ∧
      ∀ i j, b.get? i j = if i < count then h.cell? (start + i) (start + i) j else none := by
  rw [rowsAsOf_eq hN hs]
  by_cases hc : h.adjustments.isEmpty = true ∨ count = 0
  · rw [if_pos hc]
    refine ⟨_, rfl, Block.dtype_sliceRows .., Block.valid_sliceRows hv _ _, fun hd => Block.distinct_sliceRows hd _ _,
      ?_, fun i j => ?_⟩
    · rw [Block.shape_sliceRows]
      congr 1
      omega
    · rw [Block.get?_sliceRows]
      by_cases hi : i < count
      · rw [if_pos (by omega), if_pos hi, cell?, knownBefore_of_isEmpty (hc.resolve_right (by omega))]
      · rw [if_neg (by omega), if_neg hi]
  · rw [if_neg hc]
    obtain ⟨b, hb, hbd, hbv, hbn, hbs, hbc⟩ := concatRows_known hv (by omega : 0 < count) hs
    exact ⟨b, hb, hbd, hbv, fun _ => hbn, hbs, hbc⟩

/-- So do rows of a block whose labels are distinct, and their labels are distinct. -/
theorem rowsAsOf_spec {h : History} (hv : h.Valid) (hd : h.block.Distinct)
    (hN : h.block.nrows < 0x8000000000000000) {start count : Nat} (hs : start + count ≤ h.block.nrows) :
    ∃ b, h.rowsAsOf (.ofNat start) (.ofNat (start + count)) = .ok b ∧ b.dtype = h.dtype ∧
      b.Valid ∧ b.Distinct ∧ b.shape = (count, h.block.ncols) ∧
      ∀ i j, b.get? i j = if i < count then h.cell? (start + i) (start + i) j else none := by
  obtain ⟨b, hb, hbd, hbv, hbn, hbs, hbc⟩ := rowsAsOf_known hv hN hs
  exact ⟨b, hb, hbd, hbv, hbn hd, hbs, hbc⟩

end History
end AsOf
