import AsOf.Proofs.Evaluate.Kinds
import AsOf.Proofs.Graph.Depth
import AsOf.Proofs.Meaning
import AsOf.Run.Chunk

/-!
# What a history of a chunk holds

A chunk covers some sessions of a world. A history in its workspace holds a strand when
each of its cells is the strand's value, for the session of its row as known on the
session of the reader's row, whatever other rows and assets the chunk carries.

* `Chunk.rows_spec`: rows, each as known on it, are the strand's rows.
* `Chunk.window_spec`: the windows of a reader are the strand's windows.
-/
namespace AsOf

/-- A chunk whose first row is session `start` of a world. -/
structure Chunk.Covers (c : Chunk) (w : World) (start : Nat) : Prop where
  /-- There is a session to put out. -/
  output : c.history < c.dates.length
  /-- Sessions are counted in machine words. -/
  small : start + c.dates.length < 0x4000000000000000
  date : ∀ i < c.dates.length, c.dates[i]? = some (w.date (start + i))
  mask : c.mask.shape = (c.dates.length, c.sids.length)
  nodup : c.sids.Nodup
  live : ∀ i < c.dates.length, pick (c.mask.row i) c.sids = w.live (start + i)

namespace Chunk

/-- The session of a row of a node with some extra rows. -/
def sessionOf (c : Chunk) (start : Nat) (extra : UInt64) (i : Nat) : Nat :=
  start + c.firstRow extra + i

/-- How many rows a node with some extra rows has. -/
def rowsOf (c : Chunk) (extra : UInt64) : Nat := c.dates.length - c.firstRow extra

/-- The history holds the values of a strand for the rows and assets of the chunk. -/
structure Holds (c : Chunk) (start : Nat) (extra : UInt64) (s : Strand) (h : History) : Prop where
  valid : h.Valid
  distinct : h.block.Distinct
  dtype : h.dtype = s.dtype
  shape : h.shape = (c.rowsOf extra, c.sids.length)
  cell : ∀ i q, i ≤ q → q < c.rowsOf extra →
    ∃ x, s.row? (c.sessionOf start extra i) (c.sessionOf start extra q) = some x ∧
      ∀ (j : Nat) (sid : Sid), c.sids[j]? = some sid → h.cell? i q j = some (x sid)

variable {c : Chunk} {w : World} {start : Nat} {extra a b : UInt64} {s : Strand} {h : History}

theorem length_datesFrom (c : Chunk) (extra : UInt64) : (c.datesFrom extra).length = c.rowsOf extra :=
  List.length_drop

theorem rowsOf_eq (ho : c.history < c.dates.length) (he : extra.toNat ≤ c.history) :
    c.rowsOf extra = c.dates.length - c.history + extra.toNat := by
  rw [rowsOf, firstRow]
  omega

/-- A row of a node is as many rows further down in one that has more extra rows. -/
theorem sessionOf_add (ha : a.toNat ≤ b.toNat) (hb : b.toNat ≤ c.history) (i : Nat) :
    c.sessionOf start b (b.toNat - a.toNat + i) = c.sessionOf start a i := by
  rw [sessionOf, sessionOf, firstRow, firstRow]
  omega

theorem Holds.nrows (hh : c.Holds start extra s h) : h.block.nrows = c.rowsOf extra :=
  congrArg Prod.fst hh.shape

theorem Holds.ncols (hh : c.Holds start extra s h) : h.block.ncols = c.sids.length :=
  congrArg Prod.snd hh.shape

theorem Holds.nrows_lt (hh : c.Holds start extra s h) (hc : c.Covers w start) :
    h.block.nrows < 0x8000000000000000 := by
  have := hc.small
  rw [hh.nrows, rowsOf]
  omega

/-! ## Rows -/

/-- Rows of a history as its reader's rows, each as known on it. -/
theorem rows_spec (hc : c.Covers w start) (hh : c.Holds start b s h) (hab : a.toNat ≤ b.toNat)
    (hb : b.toNat ≤ c.history) :
    ∃ block, Plan.rows h (b.toNat - a.toNat) (c.rowsOf a) = .ok block ∧ block.dtype = s.dtype ∧
      block.Valid ∧ block.Distinct ∧ block.shape = (c.rowsOf a, c.sids.length) ∧
      ∀ i < c.rowsOf a, ∃ x, s.row? (c.sessionOf start a i) (c.sessionOf start a i) = some x ∧
        ∀ (j : Nat) (sid : Sid), c.sids[j]? = some sid → block.get? i j = some (x sid) := by
  have hra := rowsOf_eq hc.output (Nat.le_trans hab hb)
  have hrb := rowsOf_eq hc.output hb
  obtain ⟨block, ho, hd, hv, hn, hs, hget⟩ := @History.rowsAsOf_spec h hh.valid hh.distinct
    (hh.nrows_lt hc) (b.toNat - a.toNat) (c.rowsOf a) (by rw [hh.nrows]; omega)
  refine ⟨block, by rw [Plan.rows, ho]; rfl, hd.trans hh.dtype, hv, hn, by rw [hs, hh.ncols],
    fun i hi => ?_⟩
  obtain ⟨x, hx, hcell⟩ := hh.cell (b.toNat - a.toNat + i) (b.toNat - a.toNat + i) (Nat.le_refl _)
    (by omega)
  rw [sessionOf_add hab hb] at hx
  refine ⟨x, hx, fun j sid hj => ?_⟩
  rw [hget, if_pos hi, hcell j sid hj]

/-! ## What some assets see -/

/-- Cells by place are cells by asset. -/
theorem ofRows_eq {block : Block} {windowed : Bool} {rows : List (Sid → Scalar)} {flags : List Bool}
    {sids : List Sid} (hf : flags.length = sids.length) (hs : block.shape = (rows.length, sids.length))
    (hcell : ∀ (k : Nat) (x : Sid → Scalar), rows[k]? = some x → ∀ (j : Nat) (sid : Sid),
      sids[j]? = some sid → block.get? k j = some (x sid)) :
    Sight.ofRows windowed block.dtype (pick flags sids) rows =
      ⟨windowed, block.dtype, block.cells.selectColumns (places flags)⟩ := by
  have hshape := Grid.shape_eq.1 (block.shape_cells.trans hs)
  have hp : ∀ j ∈ places flags, j < block.cells.ncols := fun j hj => by
    rw [hshape.2, ← hf]
    exact lt_of_mem_places hj
  rw [Sight.ofRows]
  congr 2
  refine Grid.ext_get? ?_ fun k m => ?_
  · rw [Grid.shape_ofFn, Grid.shape_selectColumns hp, hshape.1, length_pick hf]
  · rw [Grid.get?_ofFn, Grid.get?_selectColumns hp]
    by_cases hm : m < (pick flags sids).length
    · have hplace : m < (places flags).length := length_pick hf ▸ hm
      have hj := lt_of_mem_places (List.getElem_mem hplace)
      have hsid : (pick flags sids)[m]? = sids[(places flags)[m]]? := by
        rw [getElem?_pick, List.getElem?_eq_getElem hplace, Option.bind_some]
      rw [List.getElem?_eq_getElem hplace, Option.bind_some]
      by_cases hk : k < rows.length
      · rw [dif_pos ⟨hk, hm⟩, Block.get?_cells, hcell k rows[k] (List.getElem?_eq_getElem hk)
          (places flags)[m] (pick flags sids)[m]]
        · rfl
        · rw [← hsid, List.getElem?_eq_getElem hm]
      · rw [dif_neg fun h => hk h.1, Grid.get?_eq_none.2 fun h => hk (hshape.1 ▸ h.1)]
    · rw [dif_neg fun h => hm h.2, List.getElem?_eq_none]
      · rfl
      · rw [← length_pick hf]
        omega

/-! ## Windows -/

/-- A window of a history, as some assets see it, is the strand's window. -/
theorem sight_windows (hh : c.Holds start b s h) {flags : List Bool} (hf : flags.length = c.sids.length)
    {n first r : Nat} (hn : n ≤ c.rowsOf b) (hr : c.sessionOf start b n = r + 1) :
    ((List.range' (c.sessionOf start b first) (n - first)).mapM fun q => s.row? q r).map
        (Sight.ofRows true s.dtype (pick flags c.sids)) =
      some (Sight.mk true ⟨((h.knownBefore n).sliceRows first n).dtype,
        ((h.knownBefore n).sliceRows first n).cells.selectColumns (places flags)⟩) := by
  have hcell (k : Nat) (hk : k < n - first) :
      ∃ x, s.row? (c.sessionOf start b first + k) r = some x ∧ ∀ (j : Nat) (sid : Sid),
        c.sids[j]? = some sid → (h.knownBefore n).get? (first + k) j = some (x sid) := by
    have hq : c.sessionOf start b (n - 1) = r := by
      rw [sessionOf] at hr ⊢
      omega
    obtain ⟨x, hx, hget⟩ := hh.cell (first + k) (n - 1) (by omega) (by omega)
    rw [hq] at hx
    refine ⟨x, by rw [← hx, sessionOf, sessionOf, Nat.add_assoc _ first k], fun j sid hj => ?_⟩
    have := hget j sid hj
    rwa [History.cell?, show n - 1 + 1 = n by omega] at this
  have hrows : ∃ rows, (List.range' (c.sessionOf start b first) (n - first)).mapM
      (fun q => s.row? q r) = some rows := by
    rw [← Option.isSome_iff_exists, Checked.isSome_mapM]
    intro q hq
    obtain ⟨k, hk, rfl⟩ := List.mem_range'.1 hq
    obtain ⟨x, hx, -⟩ := hcell k hk
    rw [Nat.one_mul, hx]
    rfl
  obtain ⟨rows, hrows⟩ := hrows
  have hall := Checked.mapM_eq_some.1 hrows
  have hlen : rows.length = n - first := by rw [← hall.length_eq, List.length_range']
  rw [hrows, Option.map_some]
  have hd : ((h.knownBefore n).sliceRows first n).dtype = s.dtype := by
    rw [Block.dtype_sliceRows, History.dtype_knownBefore, hh.dtype]
  rw [← hd, ofRows_eq hf]
  · rw [Block.shape_sliceRows, History.nrows_knownBefore, History.ncols_knownBefore,
      hh.nrows, hh.ncols, hlen, Nat.min_eq_left hn]
  · intro k x hx j sid hj
    have hk : k < n - first := hlen ▸ (List.getElem?_eq_some_iff.1 hx).1
    obtain ⟨x', hx', hget⟩ := hcell k hk
    have := hall.get (by rw [List.length_range']; exact hk) (by rw [hlen]; exact hk)
    simp only [List.get_eq_getElem, List.getElem_range', Nat.one_mul, hx'] at this
    rw [Block.get?_sliceRows, if_pos (by omega), hget j sid hj]
    rw [List.getElem?_eq_getElem (hlen ▸ hk)] at hx
    rw [Option.some.inj this, Option.some.inj hx]

theorem toNat_sub_one {window : UInt64} (hw : window ≠ 0) : (window - 1).toNat + 1 = window.toNat := by
  have hpos : 0 < window.toNat := Nat.pos_of_ne_zero fun e => hw (UInt64.toNat_inj.1 e)
  have hone : (1 : UInt64) ≤ window := UInt64.le_iff_toNat_le.2 hpos
  rw [UInt64.toNat_sub_of_le _ _ hone]
  exact Nat.sub_add_cancel hpos

/-- The first window of a reader begins within what it reads. It begins its length above the
reader's first row, or below that row if the demand went beyond the words. -/
theorem firstWindow_spec {window : UInt64} (hw : window ≠ 0) (hle : a + (window - 1) ≤ b) :
    (b - a - (window - 1)).toNat ≤ b.toNat ∧
      if a.toNat + (window.toNat - 1) < 0x10000000000000000 then
        (b - a - (window - 1)).toNat = b.toNat - a.toNat - (window.toNat - 1) ∧
          a.toNat + (window.toNat - 1) ≤ b.toNat
      else b.toNat < a.toNat + (b - a - (window - 1)).toNat := by
  rw [← toNat_sub_one hw, Nat.add_sub_cancel]
  split
  · rename_i hlt
    obtain ⟨h1, h2⟩ := Plan.offset_spec hle hlt
    exact ⟨by omega, h2, h1⟩
  · rename_i hlt
    obtain ⟨h1, h2⟩ := Plan.offset_of_wrap hle (Nat.not_lt.1 hlt)
    exact ⟨h2, h1⟩

/-- The first window of a reader that begins no later than one above what it reads ends with
the reader's first row. -/
theorem anchor_eq (hc : c.Covers w start) (hb : b.toNat ≤ c.history) (hfit : a.toNat ≤ b.toNat + 1)
    (window : UInt64) : (b - a - (window - 1) + window).toNat = b.toNat + 1 - a.toNat := by
  have hsmall := hc.small
  have hout := hc.output
  rw [Plan.offset_add_window]
  omega

/-- The sessions of the window of a row are the rows from the window's first to its last. -/
theorem sessionsIn_sessionOf (hc : c.Covers w start) (ha : a.toNat ≤ c.history) (hb : b.toNat ≤ c.history)
    {window : UInt64} (hw : window ≠ 0) (hle : a + (window - 1) ≤ b) (hfit : a.toNat ≤ b.toNat + 1)
    {i : Nat} (hi : i < c.rowsOf a) :
    Strand.sessionsIn window (c.sessionOf start a i) =
      List.range' (c.sessionOf start b ((b - a - (window - 1)).toNat + i))
        ((b - a - (window - 1) + window).toNat + i - ((b - a - (window - 1)).toNat + i)) := by
  obtain ⟨hob, hfirst⟩ := firstWindow_spec hw hle
  have hpos := toNat_sub_one hw
  have e : c.sessionOf start a i = start + (c.history - a.toNat) + i := rfl
  have e' : c.sessionOf start b ((b - a - (window - 1)).toNat + i) =
      start + (c.history - b.toNat) + ((b - a - (window - 1)).toNat + i) := rfl
  rw [Strand.sessionsIn, e, e', anchor_eq hc hb hfit]
  by_cases hlt : a.toNat + (window.toNat - 1) < 0x10000000000000000
  · rw [if_pos hlt] at hfirst
    rw [if_pos (by omega)]
    congr 1
    · omega
    · omega
  · -- a window that the words cannot hold has no sessions
    have hra := rowsOf_eq hc.output ha
    have hout := hc.output
    have hsmall := hc.small
    rw [if_neg hlt] at hfirst
    rw [if_neg (by omega), show b.toNat + 1 - a.toNat + i - ((b - a - (window - 1)).toNat + i) = 0 by omega]
    rfl

/-- A reader whose rows begin no later than one above those that it reads has a window for
each of its rows, and every one of them is the strand's window. -/
theorem window_spec (hc : c.Covers w start) (hh : c.Holds start b s h) (ha : a.toNat ≤ c.history)
    (hb : b.toNat ≤ c.history) {window : UInt64} (hw : window ≠ 0) (hle : a + (window - 1) ≤ b)
    (hfit : a.toNat ≤ b.toNat + 1) :
    ∃ cursor windows, h.traverse window (b - a - (window - 1)) 0 = .ok cursor ∧
      cursor.Shows windows (c.rowsOf a) ∧
      (Source.windows windows).Fits (c.rowsOf a, c.sids.length) ∧
      ∀ i flags, i < c.rowsOf a → flags.length = c.sids.length →
        s.sight? window (pick flags c.sids) (c.sessionOf start a i) =
          some ((Source.windows windows).sight i flags) := by
  have hra := rowsOf_eq hc.output ha
  have hrb := rowsOf_eq hc.output hb
  have hanchor := anchor_eq hc hb hfit window
  have hob := (firstWindow_spec hw hle).1
  have hsessions {i : Nat} (hi : i < c.rowsOf a) := sessionsIn_sessionOf hc ha hb hw hle hfit hi
  have hout := hc.output
  have hsmall := hc.small
  generalize b - a - (window - 1) = offset at *
  have ht : h.traverse window offset 0 = .ok (.start h.block h.adjustments.flat window offset 0) :=
    History.traverse_eq_ok.2 ⟨hw, by rw [hh.nrows]; omega, rfl⟩
  refine ⟨_, _, ht, History.shows_traverse (by have := hh.nrows_lt hc; omega) ht
    (n := c.rowsOf a) (by rw [hh.nrows]; omega) (by omega),
    ⟨s.dtype, b.toNat + 1 - a.toNat - offset.toNat, fun i hi => ?_⟩, fun i flags hi hf => ?_⟩
  · refine ⟨?_, ?_, Block.valid_sliceRows (History.valid_knownBefore hh.valid _) _ _,
      Block.distinct_sliceRows (History.distinct_knownBefore hh.distinct _) _ _⟩
    · rw [Block.dtype_sliceRows, History.dtype_knownBefore, hh.dtype]
    · rw [Block.shape_sliceRows, History.nrows_knownBefore,
        History.ncols_knownBefore, hh.nrows, hh.ncols]
      congr 1
      omega
  · have hr : c.sessionOf start b ((offset + window).toNat + i) = c.sessionOf start a i + 1 := by
      rw [sessionOf, sessionOf, firstRow, firstRow, hanchor]
      omega
    rw [Strand.sight?, if_neg hw, hsessions hi]
    exact @sight_windows _ _ _ _ _ hh _ hf ((offset + window).toNat + i) (offset.toNat + i) _ (by omega) hr

/-- A reader that begins further up is refused its windows. -/
theorem window_error (hc : c.Covers w start) (hh : c.Holds start b s h) (ha : a.toNat ≤ c.history)
    (hb : b.toNat ≤ c.history) {window : UInt64} (hfit : ¬a.toNat ≤ b.toNat + 1) :
    ∃ e, h.traverse window (b - a - (window - 1)) 0 = .error e := by
  refine Checked.exists_error_iff.2 fun cursor ht => ?_
  obtain ⟨-, hle, -⟩ := History.traverse_eq_ok.1 ht
  have hsmall := hc.small
  have hout := hc.output
  rw [Plan.offset_add_window, hh.nrows, rowsOf_eq hc.output hb] at hle
  omega

end Chunk
end AsOf
