import AsOf.Array.Adjustment

/-!
# Moving windows

A `Cursor` walks a window of `window` rows down a block. Its anchor is the row
below the window. Before a window is shown, every adjustment keyed before
`anchor + perspective` that has not been applied yet is applied to the block, in
the order of the list; a window already shown is never restated. The anchor only
moves forward, by `next?` or by `seek`.

Sizes are machine words and their sums wrap.
-/
namespace AsOf

/-- A window at some anchor of a block, with the adjustments not yet applied. -/
structure Cursor where
  block : Block
  pending : List (Nat × Adjustment)
  window : UInt64
  anchor : UInt64
  perspective : UInt64

namespace Cursor

/-- The first window begins at row `offset`. -/
def start (block : Block) (pending : List (Nat × Adjustment)) (window offset perspective : UInt64) :
    Cursor :=
  ⟨block, pending, window, offset + window, perspective⟩

def dtype (c : Cursor) : Dtype := c.block.dtype

def ncols (c : Cursor) : Nat := c.block.ncols

/-- How many windows are left. -/
def remaining (c : Cursor) : Nat := c.block.nrows + 1 - c.anchor.toNat

/-- Moves the anchor forward. -/
def seek (c : Cursor) (target : UInt64) : Except ArrayError Cursor :=
  if target < c.anchor then .error (.seekBackwards c.anchor target)
  else .ok { c with anchor := target }

/-- Applies the adjustments keyed before `horizon` that come first in the list. -/
def applyBefore (horizon : UInt64) : List (Nat × Adjustment) → Block →
    Block × List (Nat × Adjustment)
  | [], b => (b, [])
  | (key, a) :: rest, b =>
    if horizon.toNat ≤ key then (b, (key, a) :: rest) else applyBefore horizon rest (a.apply b)

/-- The first row of the window at the anchor. The difference wraps, and what it
wraps to is read as a place: a window that would begin a little above the block
begins as far above its end. -/
def firstRow (c : Cursor) : Nat := Grid.place c.block.nrows (c.anchor - c.window)

/-- The window at the anchor and the cursor behind it; none past the last row. -/
def next? (c : Cursor) : Option (Block × Cursor) :=
  if c.block.nrows < c.anchor.toNat then none
  else
    let (block, pending) := applyBefore (c.anchor + c.perspective) c.pending c.block
    some (block.sliceRows c.firstRow c.anchor.toNat, { c with block, pending, anchor := c.anchor + 1 })

/-- The next `n` windows, or as many as there are. -/
def take : Nat → Cursor → List Block
  | 0, _ => []
  | n + 1, c =>
    match c.next? with
    | none => []
    | some (window, c) => window :: take n c

/-- All windows that are left. -/
def windows (c : Cursor) : List Block := c.take c.remaining

end Cursor
end AsOf
