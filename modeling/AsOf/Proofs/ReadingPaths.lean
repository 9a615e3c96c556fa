import AsOf.Proofs.Cursor

/-!
# Reading a history in different ways

The rows of a history can be taken as they were known, cut out of the block where it has no
adjustments and read one by one where it has some; they can be read in windows of any length;
and the block can be asked for with all its adjustments. Adjustments may reach past the row on
which they become known, and more of them may be put in later. What holds of all readings is
that a row is shown after the adjustments keyed at it or above.

* `getElem?_windows`: all windows of a traversal, also where its sizes wrap.
* `Grown.keys_lt`: what putting in adjustments keeps.
* `EndsAt.get?_last`: the last row of a window.
* `reading_paths_agree`: all readings.
-/
namespace AsOf

/-! ## Adjustments that are put in later -/

namespace Adjustments

variable {m : Adjustments} {key : Nat}

/-- A list that gains at most `as` at a key. -/
theorem mem_flat_update {f : List Adjustment → List Adjustment} {as : List Adjustment}
    (hf : ∀ held, ∀ a ∈ f held, a ∈ held ∨ a ∈ as) {x : Nat × Adjustment} (h : x ∈ (m.update key f).flat) : x ∈ m.flat ∨ x ∈ flat [(key, as)] := by
  rw [mem_flat, mem_flat]
  obtain ⟨bs, hbs, hx⟩ := mem_flat.1 h
  rcases mem_update hbs with hbs | hbs | ⟨held, hheld, hbs⟩
  · exact .inl ⟨bs, hbs, hx⟩
  · obtain ⟨hkey, rfl⟩ := Prod.mk.inj hbs
    rcases hf [] x.2 hx with hx | hx
    · cases hx
    · exact .inr ⟨as, by simp [hkey], hx⟩
  · obtain ⟨hkey, rfl⟩ := Prod.mk.inj hbs
    rcases hf held x.2 hx with hx | hx
    · exact .inl ⟨held, hkey ▸ hheld, hx⟩
    · exact .inr ⟨as, by simp [hkey], hx⟩

/-- Keyed lists that are put in one by one bring nothing but themselves. -/
theorem mem_flat_foldl_update {join : List Adjustment → List Adjustment → List Adjustment}
    (hjoin : ∀ held as, ∀ a ∈ join held as, a ∈ held ∨ a ∈ as) (incoming : Adjustments)
    {x : Nat × Adjustment} (h : x ∈ (incoming.foldl (fun m y => m.update y.1 (join · y.2)) m).flat) :
    x ∈ m.flat ∨ x ∈ incoming.flat := by
  induction incoming generalizing m with
  | nil => exact .inl h
  | cons y incoming ih =>
    have hflat : flat (y :: incoming) = flat [y] ++ flat incoming := by simp [flat]
    rw [hflat, List.mem_append]
    rcases ih h with h | h
    · exact (mem_flat_update (fun held => hjoin held y.2) h).imp_right .inl
    · exact .inr (.inr h)

end Adjustments

namespace History

variable {h : History} {window offset : UInt64} {row : Nat} {w : Block}

/-- A history that was made of a block, whose labels are valid as all labels are, and was then given
adjustments some number of times. -/
inductive Grown : History → Prop
  | new {b : Block} {adjustments : Adjustments} {missing : Scalar} {h : History} (hv : b.Valid)
      (hh : mk? b adjustments missing = .ok h) : Grown h
  | update {h h' : History} {incoming : Adjustments} {mode : Merge} (hg : Grown h)
      (hu : h.updateAdjustments incoming mode = .ok h') : Grown h'

theorem of_updateAdjustments {h' : History} {incoming : Adjustments} {mode : Merge}
    (hu : h.updateAdjustments incoming mode = .ok h') : h'.block = h.block ∧
      validate h.block incoming = .ok () ∧
      ∀ x ∈ h'.adjustments.flat, x ∈ h.adjustments.flat ∨ x ∈ incoming.flat := by
  obtain ⟨⟨⟩, hv, hrest⟩ := Checked.bind_eq_ok.1 hu
  obtain rfl := Except.ok.inj hrest
  refine ⟨rfl, hv, fun x => ?_⟩
  cases mode with
  | append =>
    exact @Adjustments.mem_flat_foldl_update h.adjustments (fun held as => held ++ as)
      (fun _ _ _ => List.mem_append.1) incoming x
  | prepend =>
    exact @Adjustments.mem_flat_foldl_update h.adjustments (fun held as => as ++ held)
      (fun _ _ _ ha => (List.mem_append.1 ha).symm) incoming x

theorem Grown.valid (hg : h.Grown) : h.Valid := by
  induction hg with
  | new hv hh =>
    obtain ⟨-, -, rfl⟩ := mk?_eq_ok.1 hh
    exact hv
  | update _ hu ih =>
    obtain ⟨hb, -, -⟩ := of_updateAdjustments hu
    rw [Valid, hb]
    exact ih

/-- Adjustments are keyed inside the block, those it was made with and those put in later. -/
theorem Grown.keys_lt (hg : h.Grown) : ∀ x ∈ h.adjustments.flat, x.1 < h.block.nrows := by
  induction hg with
  | new hv hh =>
    obtain ⟨-, hok, rfl⟩ := mk?_eq_ok.1 hh
    exact fun x hx => (validate_eq_ok.1 hok x hx).1
  | update _ hu ih =>
    intro x hx
    obtain ⟨hb, hok, hfrom⟩ := of_updateAdjustments hu
    rw [hb]
    rcases hfrom x hx with hx | hx
    · exact ih x hx
    · exact (validate_eq_ok.1 hok x hx).1

/-- Before the end of the block everything is known. -/
theorem knownBefore_nrows (hkeys : ∀ x ∈ h.adjustments.flat, x.1 < h.block.nrows) :
    h.knownBefore h.block.nrows = h.adjusted := by
  rw [knownBefore, List.takeWhile_eq_self_iff.2 fun x hx => by simpa using hkeys x hx]
  rfl

/-! ## All windows of a traversal -/

/-- All windows, by induction on their number: what a window leaves behind has seen what is
keyed before the anchor, and the next anchor is one row below. -/
theorem getElem?_take {c : Cursor} {k : Nat} (hN : h.block.nrows + 1 < 0x10000000000000000) (h0 : c.perspective = 0)
    (hb : c.block = h.knownBefore k) (hp : c.pending = h.adjustments.flat.dropWhile (·.1 < k))
    (hk : k ≤ c.anchor.toNat) (n i : Nat) :
    (c.take n)[i]? = if i < n ∧ c.anchor.toNat + i ≤ h.block.nrows then
      some ((h.knownBefore (c.anchor.toNat + i)).sliceRows
        (Grid.place h.block.nrows (c.anchor - c.window + .ofNat i)) (c.anchor.toNat + i)) else none := by
  induction n generalizing c k i with
  | zero => exact (if_neg (by omega)).symm
  | succ n ih =>
    rw [Cursor.take]
    by_cases ha : c.anchor.toNat ≤ h.block.nrows
    · have hhorizon : c.anchor + c.perspective = c.anchor := by rw [h0, UInt64.add_zero]
      rw [next?_of_seen h hb hp (by rwa [hhorizon]) ha, hhorizon]
      have hanchor : (c.anchor + 1).toNat = c.anchor.toNat + 1 := by
        rw [UInt64.toNat_add]
        exact Nat.mod_eq_of_lt (show c.anchor.toNat + 1 < 0x10000000000000000 by omega)
      cases i with
      | zero =>
        rw [if_pos ⟨by omega, ha⟩, show (UInt64.ofNat 0) = 0 from rfl, UInt64.add_zero]
        rfl
      | succ i =>
        have hstart : c.anchor + 1 - c.window + .ofNat i = c.anchor - c.window + .ofNat (i + 1) := by
          rw [UInt64.ofNat_add, UInt64.sub_eq_add_neg, UInt64.sub_eq_add_neg]
          show _ = c.anchor + -c.window + (.ofNat i + 1)
          ac_rfl
        refine (ih (c := { c with
          block := h.knownBefore c.anchor.toNat
          pending := h.adjustments.flat.dropWhile (·.1 < c.anchor.toNat)
          anchor := c.anchor + 1 }) h0 rfl rfl (by simp only [hanchor]; omega) i).trans ?_
        simp only [hanchor, hstart, Nat.add_right_comm _ 1 i, Nat.add_assoc, Nat.add_lt_add_iff_right]
    · have hnone : c.next? = none := by
        rw [Cursor.next?, hb, nrows_knownBefore, if_pos (by omega)]
      rw [hnone, if_neg (by omega)]
      rfl

/-- All windows of a traversal: each begins one row below the one before and ends one row below
it, and shows what is known before the row below its end. -/
theorem getElem?_windows (hN : h.block.nrows + 1 < 0x10000000000000000) {c : Cursor}
    (ht : h.traverse window offset 0 = .ok c) (i : Nat) :
    c.windows[i]? = if (offset + window).toNat + i ≤ h.block.nrows then
      some ((h.knownBefore ((offset + window).toNat + i)).sliceRows
        (Grid.place h.block.nrows (offset + .ofNat i)) ((offset + window).toNat + i)) else none := by
  obtain ⟨-, -, rfl⟩ := traverse_eq_ok.1 ht
  have hpending : h.adjustments.flat = h.adjustments.flat.dropWhile (·.1 < 0) := by
    cases h.adjustments.flat <;> rfl
  refine (getElem?_take hN rfl h.knownBefore_zero.symm hpending (Nat.zero_le _) _ i).trans ?_
  simp only [Cursor.start, UInt64.add_sub_cancel, Cursor.remaining]
  congr 1
  exact propext ⟨And.right, fun hle => ⟨by omega, hle⟩⟩

/-- The window `w` ends at a row, and is one of the windows of `window` rows that are read from
row `offset` on. -/
def EndsAt (h : History) (window offset : UInt64) (row : Nat) (w : Block) : Prop :=
  ∃ c i, h.traverse window offset 0 = .ok c ∧ c.windows[i]? = some w ∧ (offset + window).toNat + i = row + 1

theorem EndsAt.eq (hN : h.block.nrows + 1 < 0x10000000000000000) (hw : h.EndsAt window offset row w) :
    row < h.block.nrows ∧ ∃ first, w = (h.knownBefore (row + 1)).sliceRows first (row + 1) := by
  obtain ⟨c, i, ht, hi, hrow⟩ := hw
  rw [getElem?_windows hN ht] at hi
  split at hi
  · obtain rfl := Option.some.inj hi
    exact ⟨by omega, _, by rw [hrow]⟩
  · cases hi

/-- The last row of a window shows what is known on that row. -/
theorem EndsAt.get?_last (hN : h.block.nrows + 1 < 0x10000000000000000) (hw : h.EndsAt window offset row w)
    (hne : 0 < w.nrows) (j : Nat) : w.get? (w.nrows - 1) j = h.cell? row row j := by
  obtain ⟨hrow, first, rfl⟩ := hw.eq hN
  have hrows : ((h.knownBefore (row + 1)).sliceRows first (row + 1)).nrows = row + 1 - first := by
    refine (congrArg Prod.fst (Block.shape_sliceRows ..)).trans ?_
    rw [nrows_knownBefore, Nat.min_eq_left hrow]
  rw [hrows] at hne ⊢
  rw [Block.get?_sliceRows, if_pos (by omega), cell?]
  congr 1
  omega

/-- A window that fits above the end of a row ends at it. -/
theorem exists_endsAt (hN : h.block.nrows < 0x8000000000000000) (hpos : window ≠ 0) (hrow : row < h.block.nrows)
    (hfit : offset.toNat + window.toNat ≤ row + 1) :
    ∃ w, h.EndsAt window offset row w ∧ w.shape = (window.toNat, h.block.ncols) := by
  have hsum : (offset + window).toNat = offset.toNat + window.toNat := by
    rw [UInt64.toNat_add]
    exact Nat.mod_eq_of_lt (by omega)
  have hc : h.traverse window offset 0 = .ok (.start h.block h.adjustments.flat window offset 0) :=
    traverse_eq_ok.2 ⟨hpos, by omega, rfl⟩
  -- the window before it in the traversal ends one row above, and so on up to the first one
  obtain ⟨i, hi⟩ := Nat.exists_eq_add_of_le hfit
  have hw := getElem?_windows (by omega) hc i
  rw [if_pos (by omega)] at hw
  refine ⟨_, ⟨_, i, hc, hw, by omega⟩, ?_⟩
  have hfirst : Grid.place h.block.nrows (offset + .ofNat i) = offset.toNat + i := by
    have := place_of_le (n := h.block.nrows) (k := offset.toNat + i) (by omega)
    rwa [UInt64.ofNat_add, UInt64.ofNat_toNat] at this
  rw [Block.shape_sliceRows, nrows_knownBefore, ncols_knownBefore, hfirst]
  congr 1
  omega

/-! ## All readings -/

/-- The windows that fit above the end of a row end at it, and `cells` is the last row of every
window that does. -/
structure LastRow (h : History) (row : Nat) (cells : Nat → Option Scalar) : Prop where
  exists_window : ∀ window offset : UInt64, window ≠ 0 → offset.toNat + window.toNat ≤ row + 1 →
    ∃ w, h.EndsAt window offset row w ∧ w.shape = (window.toNat, h.block.ncols)
  eq_last : ∀ window offset w, h.EndsAt window offset row w → w.dtype = h.dtype ∧ w.ncols = h.block.ncols ∧
    (0 < w.nrows → ∀ j, w.get? (w.nrows - 1) j = cells j)

theorem lastRow_cell? (hN : h.block.nrows < 0x8000000000000000) (hrow : row < h.block.nrows) :
    h.LastRow row (h.cell? row row) where
  exists_window window offset hpos hfit := exists_endsAt hN hpos hrow hfit
  eq_last window offset w hw := by
    refine ⟨?_, ?_, hw.get?_last (by omega)⟩
    · obtain ⟨-, first, rfl⟩ := hw.eq (by omega)
      rw [Block.dtype_sliceRows, dtype_knownBefore]
    · obtain ⟨-, first, rfl⟩ := hw.eq (by omega)
      exact (congrArg Prod.snd (Block.shape_sliceRows ..)).trans (ncols_knownBefore ..)

/-- Rows inside a block can be taken, and each shows what is known on it. -/
theorem rowsAsOf_between (hv : h.Valid) (hN : h.block.nrows < 0x8000000000000000) {start stop : UInt64}
    (hle : start ≤ stop) (hs : stop.toNat ≤ h.block.nrows) :
    ∃ rows, h.rowsAsOf start stop = .ok rows ∧ rows.dtype = h.dtype ∧ rows.Valid ∧
      rows.shape = (stop.toNat - start.toNat, h.block.ncols) ∧
      ∀ i j, rows.get? i j =
        if i < stop.toNat - start.toNat then h.cell? (start.toNat + i) (start.toNat + i) j else none := by
  have hsum : start.toNat + (stop.toNat - start.toNat) = stop.toNat :=
    Nat.add_sub_cancel' (UInt64.le_iff_toNat_le.1 hle)
  obtain ⟨rows, hrows, hd, hvalid, -, hshape, hcells⟩ := rowsAsOf_known hv hN (hsum.trans_le hs)
  rw [hsum, UInt64.ofNat_toNat, UInt64.ofNat_toNat] at hrows
  exact ⟨rows, hrows, hd, hvalid, hshape, hcells⟩

/-- Rows can be taken in two parts. -/
theorem rowsAsOf_append (hv : h.Valid) (hN : h.block.nrows < 0x8000000000000000) {start middle stop : UInt64}
    (hup : start ≤ middle) (hlow : middle ≤ stop) (hs : stop.toNat ≤ h.block.nrows) {rows : Block}
    (hrows : h.rowsAsOf start stop = .ok rows) :
    ∃ upper lower whole, h.rowsAsOf start middle = .ok upper ∧ h.rowsAsOf middle stop = .ok lower ∧
      Block.concatRows [upper, lower] = .ok whole ∧ whole.view = rows.view := by
  have hup' := UInt64.le_iff_toNat_le.1 hup
  have hlow' := UInt64.le_iff_toNat_le.1 hlow
  obtain ⟨_, hrows', hd, -, hshape, hcells⟩ := rowsAsOf_between hv hN (UInt64.le_trans hup hlow) hs
  obtain rfl := Except.ok.inj (hrows'.symm.trans hrows)
  obtain ⟨upper, hupper, hud, huv, hus, hucells⟩ := rowsAsOf_between hv hN hup (hlow'.trans hs)
  obtain ⟨lower, hlower, hld, hlv, hls, hlcells⟩ := rowsAsOf_between hv hN hlow hs
  have hurows : upper.nrows = middle.toNat - start.toNat := (congrArg Prod.fst hus :)
  have hlrows : lower.nrows = stop.toNat - middle.toNat := (congrArg Prod.fst hls :)
  have hucols : upper.ncols = h.block.ncols := (congrArg Prod.snd hus :)
  have hlcols : lower.ncols = h.block.ncols := (congrArg Prod.snd hls :)
  obtain ⟨whole, hwhole, hwd, hws, hwcells⟩ :=
    Block.concatRows_pair huv hlv (hld.trans hud.symm) (hlcols.trans hucols.symm)
  refine ⟨upper, lower, whole, hupper, hlower, hwhole,
    Block.ext_view (hwd.trans (hud.trans hd.symm)) ?_ fun i j => ?_⟩
  · rw [hws, hshape]
    exact Prod.ext (by simp only; omega) hucols
  · rw [hwcells, hcells, hucells, hlcells, hurows]
    by_cases hi : i < middle.toNat - start.toNat
    · rw [if_pos hi, if_pos hi, if_pos (by omega)]
    · have hplace : middle.toNat + (i - (middle.toNat - start.toNat)) = start.toNat + i := by omega
      rw [if_neg hi, hplace]
      congr 1
      exact propext ⟨fun _ => by omega, fun _ => by omega⟩

/-- A window as long as the block is read once, and shows the block with all adjustments. -/
theorem windows_nrows (hkeys : ∀ x ∈ h.adjustments.flat, x.1 < h.block.nrows)
    (hN : h.block.nrows < 0x8000000000000000) (hpos : 1 ≤ h.block.nrows) :
    ∃ c, h.traverse (.ofNat h.block.nrows) 0 0 = .ok c ∧ c.windows = [h.adjusted] := by
  have hlen := toNat_ofNat hN
  have hend : (0 + UInt64.ofNat h.block.nrows).toNat = h.block.nrows := by rw [UInt64.zero_add, hlen]
  have hne : UInt64.ofNat h.block.nrows ≠ 0 := by
    intro h0
    rw [h0] at hlen
    exact absurd hlen (by simp only [UInt64.toNat_zero]; omega)
  have hc : h.traverse (.ofNat h.block.nrows) 0 0 =
      .ok (.start h.block h.adjustments.flat (.ofNat h.block.nrows) 0 0) :=
    traverse_eq_ok.2 ⟨hne, hend.le, rfl⟩
  refine ⟨_, hc, List.ext_getElem? fun i => ?_⟩
  rw [getElem?_windows (by omega) hc, hend]
  cases i with
  | zero =>
    have hall : h.adjusted.sliceRows 0 h.block.nrows = h.adjusted := by
      have := (h.knownBefore h.block.nrows).sliceRows_all
      rwa [nrows_knownBefore, knownBefore_nrows hkeys] at this
    rw [if_pos (by omega), Nat.add_zero, knownBefore_nrows hkeys]
    exact congrArg some hall
  | succ i =>
    rw [if_neg (by omega)]
    rfl

/-- However a history was made and whatever adjustments were put in, its rows as they were
known are the last rows of the windows that end at them, they can be taken in parts, and the
window of all rows is the block with all adjustments. -/
theorem reading_paths_agree (hg : h.Grown) (hN : h.block.nrows < 0x8000000000000000) :
    (∀ start stop : UInt64, start ≤ stop → stop.toNat ≤ h.block.nrows → ∃ rows,
      h.rowsAsOf start stop = .ok rows ∧ rows.dtype = h.dtype ∧ rows.shape = (stop.toNat - start.toNat, h.block.ncols) ∧
      (∀ i < stop.toNat - start.toNat, h.LastRow (start.toNat + i) (rows.get? i)) ∧
      ∀ middle, start ≤ middle → middle ≤ stop → ∃ upper lower whole,
        h.rowsAsOf start middle = .ok upper ∧ h.rowsAsOf middle stop = .ok lower ∧
        Block.concatRows [upper, lower] = .ok whole ∧ whole.view = rows.view) ∧
    (1 ≤ h.block.nrows → ∃ c, h.traverse (.ofNat h.block.nrows) 0 0 = .ok c ∧ c.windows = [h.adjusted]) := by
  refine ⟨fun start stop hle hs => ?_, windows_nrows hg.keys_lt hN⟩
  obtain ⟨rows, hrows, hd, -, hshape, hcells⟩ := rowsAsOf_between hg.valid hN hle hs
  refine ⟨rows, hrows, hd, hshape, fun i hi => ?_,
    fun middle hup hlow => rowsAsOf_append hg.valid hN hup hlow hs hrows⟩
  have hrow : rows.get? i = h.cell? (start.toNat + i) (start.toNat + i) := by
    funext j
    rw [hcells, if_pos hi]
  rw [hrow]
  exact lastRow_cell? hN (by omega)

/-- Sevens for the upper three rows are put in, known on the third. -/
theorem reading_paths_agree_overlapping :
    let h : History := ⟨.full (.int 1) (4, 1), overlapping, .int 0⟩
    ∃ h', h.updateAdjustments [(2, [⟨0, 2, 0, 0, .overwrite (.int 7)⟩])] .prepend = .ok h' ∧
      (∃ rows, h'.rowsAsOf 1 3 = .ok rows ∧ rows.cells.toLists = [[.int 6], [.int 7]] ∧
        h'.LastRow 1 (rows.get? 0) ∧ h'.LastRow 2 (rows.get? 1)) ∧
      ∃ c, h'.traverse 4 0 0 = .ok c ∧ c.windows = [h'.adjusted] := by
  intro h
  have hh : mk? (.full (.int 1) (4, 1)) overlapping (.int 0) = .ok h := rfl
  have hg : h.Grown := .new (show (Block.full (.int 1) (4, 1)).Valid from trivial) hh
  obtain ⟨h', hu⟩ : ∃ h', h.updateAdjustments [(2, [⟨0, 2, 0, 0, .overwrite (.int 7)⟩])] .prepend = .ok h' := ⟨_, rfl⟩
  have hrows4 : h'.block.nrows = 4 := congrArg Block.nrows (of_updateAdjustments hu).1
  obtain ⟨hrows, hall⟩ := reading_paths_agree (hg.update hu) (by rw [hrows4]; decide)
  rw [hrows4] at hrows hall
  obtain ⟨rows, h13, -, -, hlast, -⟩ := hrows 1 3 (by decide) (by decide)
  refine ⟨h', hu, ⟨rows, h13, ?_, hlast 0 (by decide), hlast 1 (by decide)⟩, hall (by decide)⟩
  obtain rfl := Except.ok.inj hu
  obtain rfl := Except.ok.inj h13
  cbv

end History
end AsOf
