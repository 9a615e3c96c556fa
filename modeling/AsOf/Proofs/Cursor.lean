import AsOf.Proofs.Checked
import AsOf.Proofs.Loader.Keyed
import Mathlib

/-!
# Moves of a cursor

A cursor is moved by reading its next window and by seeking an anchor, in any order. Reading
restates its block in place, and skipped windows are never read, so that its block alone does
not tell how it came to its anchor. It never has to: what has been applied to it was keyed
before the horizon of a window above, and what is pending comes in the order of the keys.

* `Cursor.Tracks.move`: what a move keeps, and `Cursor.Tracks.after` what all moves keep.
* `Cursor.Tracks.next?_eq`: what a cursor shows at its anchor.
* `Cursor.Tracks.length_take`: how much is left to read.
* `History.traversal_reads`: all moves of a traversal.
-/
namespace AsOf

namespace Cursor

/-- A call on a cursor. -/
inductive Move where
  | next
  | seek (target : UInt64)

/-- The cursor after a call; one that shows nothing or fails leaves it as it was. -/
def move (c : Cursor) : Move → Cursor
  | .next => match c.next? with
    | some (_, c') => c'
    | none => c
  | .seek target => match c.seek target with
    | .ok c' => c'
    | .error _ => c

/-- The cursor after calls, one after the other. -/
def after (c : Cursor) (moves : List Move) : Cursor := moves.foldl move c

/-- A cursor over a history has seen what is keyed before some row, and no row above the
horizon of its next window. -/
structure Tracks (h : History) (window perspective : UInt64) (c : Cursor) : Prop where
  window_eq : c.window = window
  perspective_eq : c.perspective = perspective
  room : window.toNat ≤ c.anchor.toNat
  seen : ∃ k, k ≤ c.anchor.toNat + perspective.toNat ∧ c.block = h.knownBefore k ∧
    c.pending = h.adjustments.flat.dropWhile (·.1 < k)

namespace Tracks

variable {h : History} {window perspective : UInt64} {c : Cursor}

theorem nrows_block (ht : Tracks h window perspective c) : c.block.nrows = h.block.nrows := by
  obtain ⟨k, -, hb, -⟩ := ht.seen
  rw [hb, History.nrows_knownBefore]

/-- At an anchor inside the block a cursor shows the rows above it, as known before the horizon. -/
theorem next?_eq (hN : h.block.nrows < 0x8000000000000000)
    (hP : h.block.nrows + perspective.toNat < 0x10000000000000000) (ht : Tracks h window perspective c)
    (ha : c.anchor.toNat ≤ h.block.nrows) :
    c.next? = some
      ((h.knownBefore (c.anchor.toNat + perspective.toNat)).sliceRows (c.anchor.toNat - window.toNat) c.anchor.toNat,
        { c with
          block := h.knownBefore (c.anchor.toNat + perspective.toNat)
          pending := h.adjustments.flat.dropWhile (·.1 < c.anchor.toNat + perspective.toNat)
          anchor := c.anchor + 1 }) := by
  obtain ⟨k, hk, hb, hp⟩ := ht.seen
  have hhorizon : (c.anchor + c.perspective).toNat = c.anchor.toNat + perspective.toNat := by
    rw [ht.perspective_eq, UInt64.toNat_add]
    exact Nat.mod_eq_of_lt (by omega)
  have hstart : (c.anchor - c.window).toNat = c.anchor.toNat - window.toNat := by
    rw [ht.window_eq, UInt64.toNat_sub_of_le _ _ (UInt64.le_iff_toNat_le.2 ht.room)]
  rw [History.next?_of_seen h hb hp (by omega) ha, hhorizon, History.place_of_lt (by omega), hstart]

theorem next?_eq_none (ht : Tracks h window perspective c) : c.next? = none ↔ h.block.nrows < c.anchor.toNat := by
  rw [Cursor.next?, ht.nrows_block]
  split
  · exact iff_of_true rfl ‹_›
  · exact iff_of_false (Option.some_ne_none _) ‹_›

/-- What a cursor leaves behind when it has shown a window. -/
theorem next (hN : h.block.nrows < 0x8000000000000000)
    (hP : h.block.nrows + perspective.toNat < 0x10000000000000000) (ht : Tracks h window perspective c)
    {w : Block} {c' : Cursor} (hn : c.next? = some (w, c')) :
    Tracks h window perspective c' ∧ c'.anchor.toNat = c.anchor.toNat + 1 := by
  have ha : c.anchor.toNat ≤ h.block.nrows := by
    have := mt ht.next?_eq_none.2 (by rw [hn]; exact Option.some_ne_none _)
    omega
  rw [ht.next?_eq hN hP ha] at hn
  obtain rfl := (Prod.mk.inj (Option.some.inj hn)).2
  have hanchor : (c.anchor + 1).toNat = c.anchor.toNat + 1 := by
    rw [UInt64.toNat_add]
    exact Nat.mod_eq_of_lt (show c.anchor.toNat + 1 < 0x10000000000000000 by omega)
  have hroom := ht.room
  exact ⟨⟨ht.window_eq, ht.perspective_eq, by simp only [hanchor]; omega, _, by simp only [hanchor]; omega, rfl, rfl⟩,
    hanchor⟩

theorem seek_of_lt {target : UInt64} (h : target < c.anchor) :
    c.seek target = .error (.seekBackwards c.anchor target) := if_pos h

theorem seek_of_le {target : UInt64} (h : c.anchor ≤ target) : c.seek target = .ok { c with anchor := target } :=
  if_neg (UInt64.not_lt.2 h)

/-- Seeking below lets more be seen. -/
theorem seek (ht : Tracks h window perspective c) {target : UInt64} (hle : c.anchor ≤ target) :
    Tracks h window perspective { c with anchor := target } := by
  have hle := UInt64.le_iff_toNat_le.1 hle
  obtain ⟨k, hk, hb, hp⟩ := ht.seen
  have hroom := ht.room
  exact ⟨ht.window_eq, ht.perspective_eq, by simp only; omega, k, by simp only; omega, hb, hp⟩

/-- What a move keeps. -/
theorem move (hN : h.block.nrows < 0x8000000000000000)
    (hP : h.block.nrows + perspective.toNat < 0x10000000000000000) (ht : Tracks h window perspective c) (m : Move) :
    Tracks h window perspective (c.move m) := by
  cases m with
  | next =>
    simp only [Cursor.move]
    cases hn : c.next? with
    | none => exact ht
    | some x => exact (ht.next hN hP hn).1
  | seek target =>
    simp only [Cursor.move]
    by_cases hlt : target < c.anchor
    · rw [seek_of_lt hlt]
      exact ht
    · rw [seek_of_le (UInt64.not_lt.1 hlt)]
      exact ht.seek (UInt64.not_lt.1 hlt)

/-- What moves keep. -/
theorem after (hN : h.block.nrows < 0x8000000000000000)
    (hP : h.block.nrows + perspective.toNat < 0x10000000000000000) (ht : Tracks h window perspective c)
    (moves : List Move) : Tracks h window perspective (c.after moves) := by
  induction moves generalizing c with
  | nil => exact ht
  | cons m moves ih => exact ih (ht.move hN hP m)

/-- As many windows are left as there are anchors. -/
theorem length_take (hN : h.block.nrows < 0x8000000000000000)
    (hP : h.block.nrows + perspective.toNat < 0x10000000000000000) (ht : Tracks h window perspective c) (n : Nat) :
    (c.take n).length = min n c.remaining := by
  induction n generalizing c with
  | zero => rw [Nat.zero_min]; rfl
  | succ n ih =>
    have hrows := ht.nrows_block
    unfold remaining at ih ⊢
    rw [take]
    cases hn : c.next? with
    | none =>
      have := ht.next?_eq_none.1 hn
      simp only [List.length_nil]
      omega
    | some x =>
      obtain ⟨w, c'⟩ := x
      obtain ⟨ht', ha⟩ := ht.next hN hP hn
      have hrows' := ht'.nrows_block
      have : ¬h.block.nrows < c.anchor.toNat := mt ht.next?_eq_none.2 (by rw [hn]; exact Option.some_ne_none _)
      simp only [List.length_cons, ih ht']
      omega

end Tracks

/-- What a cursor shows of keyed adjustments to a block, and where it can be moved. -/
structure Reads (b : Block) (as : List (Nat × Adjustment)) (window perspective : Nat) (c : Cursor) : Prop where
  /-- The window lies inside the block if its end does. -/
  room : window ≤ c.anchor.toNat
  ends : c.next? = none ↔ b.nrows < c.anchor.toNat
  /-- The rows above the anchor, after the adjustments keyed before the horizon. -/
  shows : c.anchor.toNat ≤ b.nrows → ∃ w c', c.next? = some (w, c') ∧ c'.anchor.toNat = c.anchor.toNat + 1 ∧
    w = (History.applyAll (as.filter (·.1 < c.anchor.toNat + perspective)) b).sliceRows
      (c.anchor.toNat - window) c.anchor.toNat
  /-- Each of their cells is restated by each of these adjustments in turn. -/
  cells : b.Valid → ∀ w c', c.next? = some (w, c') → w.dtype = b.dtype ∧ w.shape = (window, b.ncols) ∧
    ∀ i j, w.get? i j = if i < window then
      (b.get? (c.anchor.toNat - window + i) j).map
        (History.onCell (as.filter (·.1 < c.anchor.toNat + perspective)) (c.anchor.toNat - window + i) j)
      else none
  refuses : ∀ target, (∃ err, c.seek target = .error err) ↔ target < c.anchor
  stays : ∀ target, target < c.anchor → c.move (.seek target) = c
  goes : ∀ target, c.anchor ≤ target → (c.move (.seek target)).anchor = target
  /-- However many windows are asked for, those that remain are shown. -/
  remaining : ∀ n, (c.take n).length = min n c.remaining

end Cursor

namespace Adjustments

/-- What comes in the order of its keys begins with what has a key below. -/
theorem takeWhile_flat {m : Adjustments} (h : m.Ordered) (n : Nat) :
    m.flat.takeWhile (·.1 < n) = m.flat.filter (·.1 < n) :=
  (takeWhile_eq_flatMap h.flat n).trans (filter_eq_flatMap h.flat n).symm

end Adjustments

namespace History

open Cursor

variable {h : History} {window offset perspective : UInt64}

/-- A cursor that tracks a history reads it. -/
theorem reads_of_tracks (hkeys : h.adjustments.Ordered) (hN : h.block.nrows < 0x8000000000000000)
    (hP : h.block.nrows + perspective.toNat < 0x10000000000000000) {c : Cursor} (ht : Tracks h window perspective c) :
    c.Reads h.block h.adjustments.flat window.toNat perspective.toNat where
  room := ht.room
  ends := ht.next?_eq_none
  shows ha := by
    rw [ht.next?_eq hN hP ha]
    refine ⟨_, _, rfl, (ht.next hN hP (ht.next?_eq hN hP ha)).2, ?_⟩
    rw [knownBefore, Adjustments.takeWhile_flat hkeys]
  cells hv w c' hn := by
    have ha : c.anchor.toNat ≤ h.block.nrows := by
      have := mt ht.next?_eq_none.2 (by rw [hn]; exact Option.some_ne_none _)
      omega
    have hroom := ht.room
    rw [ht.next?_eq hN hP ha] at hn
    obtain rfl := (Prod.mk.inj (Option.some.inj hn)).1
    refine ⟨(Block.dtype_sliceRows ..).trans (dtype_knownBefore h _), ?_, fun i j => ?_⟩
    · rw [Block.shape_sliceRows, nrows_knownBefore, ncols_knownBefore]
      congr 1
      omega
    · rw [Block.get?_sliceRows, knownBefore, Adjustments.takeWhile_flat hkeys, ← Block.get?_cells,
        cells_applyAll _ hv, Grid.get?_mapIdx, Block.get?_cells]
      by_cases hi : i < window.toNat
      · rw [if_pos hi, if_pos (by omega)]
      · rw [if_neg hi, if_neg (by omega)]
  refuses target := by
    by_cases hlt : target < c.anchor
    · exact iff_of_true ⟨_, Tracks.seek_of_lt hlt⟩ hlt
    · refine iff_of_false ?_ hlt
      rw [Tracks.seek_of_le (UInt64.not_lt.1 hlt)]
      rintro ⟨_, ⟨⟩⟩
  stays target hlt := by
    rw [Cursor.move, Tracks.seek_of_lt hlt]
  goes target hle := by
    rw [Cursor.move, Tracks.seek_of_le hle]
  remaining := ht.length_take hN hP

theorem validate_eq_ok {b : Block} {adjustments : Adjustments} :
    validate b adjustments = .ok () ↔ ∀ x ∈ adjustments.flat, x.1 < b.nrows ∧ x.2.fits b.shape = true ∧
      x.2.checkDtype b.dtype = .ok () := by
  rw [validate, Checked.forM_eq_ok]
  refine forall₂_congr fun x _ => ?_
  obtain ⟨key, a⟩ := x
  by_cases hx : (decide (b.nrows ≤ key) || !a.fits b.shape) = true
  · simp only [if_pos hx]
    refine iff_of_false nofun fun h => ?_
    simp only [h.2.1, Bool.not_true, Bool.or_false, decide_eq_true_eq] at hx
    omega
  · simp only [if_neg hx]
    simp only [Bool.or_eq_true, decide_eq_true_eq, Bool.not_eq_true', not_or, Bool.not_eq_false] at hx
    exact ⟨fun h => ⟨by omega, hx.2, h⟩, fun h => h.2.2⟩

theorem mk?_eq_ok {b : Block} {adjustments : Adjustments} {missing : Scalar} :
    mk? b adjustments missing = .ok h ↔ missing.expect b.dtype = .ok () ∧ validate b adjustments = .ok () ∧
      h = ⟨b, adjustments, missing⟩ := by
  unfold mk?
  rw [Checked.bind_eq_ok]
  constructor
  · rintro ⟨⟨⟩, hm, hrest⟩
    obtain ⟨⟨⟩, hv, hrest⟩ := Checked.bind_eq_ok.1 hrest
    exact ⟨hm, hv, (Except.ok.inj hrest).symm⟩
  · rintro ⟨hm, hv, rfl⟩
    exact ⟨(), hm, Checked.bind_eq_ok.2 ⟨(), hv, rfl⟩⟩

/-- A window that fits can be moved down a block. Whatever its moves, at every anchor it shows
the rows above the anchor after the adjustments keyed before the horizon, in the order of
their keys. The keys ascend, and no sum exceeds a machine word. -/
theorem traversal_reads {b : Block} {adjustments : Adjustments} {missing : Scalar}
    (hh : mk? b adjustments missing = .ok h) (hkeys : adjustments.Ordered) (hN : b.nrows < 0x8000000000000000)
    (hw : 1 ≤ window.toNat) (hfit : offset.toNat + window.toNat ≤ b.nrows)
    (hP : b.nrows + perspective.toNat < 0x10000000000000000) :
    (∀ x ∈ adjustments.flat, x.1 < b.nrows ∧ x.2.fits b.shape = true) ∧
    adjustments.flat.Pairwise (fun x y => x.1 ≤ y.1) ∧
    ∃ c, h.traverse window offset perspective = .ok c ∧ c.anchor.toNat = offset.toNat + window.toNat ∧
      ∀ moves, (c.after moves).Reads b adjustments.flat window.toNat perspective.toNat := by
  obtain ⟨-, hv, rfl⟩ := mk?_eq_ok.1 hh
  have hsum : (offset + window).toNat = offset.toNat + window.toNat := by
    rw [UInt64.toNat_add]
    exact Nat.mod_eq_of_lt (by omega)
  have hpos : window ≠ 0 := by
    rintro rfl
    exact absurd hw (by decide)
  have ht : Tracks ⟨b, adjustments, missing⟩ window perspective
      (.start b adjustments.flat window offset perspective) := by
    refine ⟨rfl, rfl, ?_, 0, Nat.zero_le _, (knownBefore_zero ⟨b, adjustments, missing⟩).symm, ?_⟩
    · show window.toNat ≤ (offset + window).toNat
      omega
    · show adjustments.flat = _
      cases adjustments.flat <;> rfl
  refine ⟨fun x hx => ⟨(validate_eq_ok.1 hv x hx).1, (validate_eq_ok.1 hv x hx).2.1⟩, hkeys.flat, _,
    traverse_eq_ok.2 ⟨hpos, hsum ▸ hfit, rfl⟩, hsum, fun moves => ?_⟩
  exact reads_of_tracks hkeys hN hP (ht.after hN hP moves)

/-! Four numbers, two of whose adjustments overlap and share a key. -/

/-- Five for the upper rows and six for the middle ones, known on the second row, and nine for
all, known on the last. -/
def overlapping : Adjustments :=
  [(1, [⟨0, 1, 0, 0, .overwrite (.int 5)⟩, ⟨1, 2, 0, 0, .overwrite (.int 6)⟩]), (3, [⟨0, 3, 0, 0, .overwrite (.int 9)⟩])]

/-- A window of two rows is read, cannot go back, and goes past an anchor. -/
theorem traversal_reads_overlapping :
    let h : History := ⟨.full (.int 1) (4, 1), overlapping, .int 0⟩
    mk? (.full (.int 1) (4, 1)) overlapping (.int 0) = .ok h ∧
    ∃ c, h.traverse 2 0 0 = .ok c ∧
      ((c.after [.next, .seek 1, .seek 3]).next?.map fun x => (x.1.get? 0 0, x.1.get? 1 0)) =
        some (some (.int 6), some (.int 6)) ∧
      (c.after [.next, .seek 1, .seek 3]).remaining = 2 ∧
      (c.after [.next, .seek 1, .seek 3]).Reads (.full (.int 1) (4, 1)) overlapping.flat 2 0 := by
  intro h
  have hh : mk? (.full (.int 1) (4, 1)) overlapping (.int 0) = .ok h := rfl
  have hordered : overlapping.Ordered := by
    unfold Adjustments.Ordered
    decide
  obtain ⟨-, -, c, hc, -, hreads⟩ := traversal_reads hh hordered (by decide) (show 1 ≤ (2 : UInt64).toNat by decide)
    (show (0 : UInt64).toNat + (2 : UInt64).toNat ≤ 4 by decide) (show 4 + (0 : UInt64).toNat < _ by decide)
  obtain ⟨-, -, rfl⟩ := traverse_eq_ok.1 hc
  refine ⟨hh, _, hc, ?_, rfl, hreads _⟩
  cbv

end History
end AsOf
