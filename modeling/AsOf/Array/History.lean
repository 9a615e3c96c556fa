import AsOf.Array.Cursor

/-!
# Blocks with a history of adjustments

A `History` is a block of cells as first recorded, the adjustments that restate
it and the value that stands for a missing cell. An adjustment is keyed at the
row on which it becomes known; a reading as of row `p` has seen exactly the
adjustments keyed at `p` or before. Keys ascend, and the adjustments of one key
apply in the order of their list.
-/
namespace AsOf

/-- Adjustments by the row at which they become known, keys ascending. -/
abbrev Adjustments := List (Nat × List Adjustment)

namespace Adjustments

/-- Changes the list at a key, which is empty if the key is new. -/
def update (key : Nat) (f : List Adjustment → List Adjustment) : Adjustments → Adjustments
  | [] => [(key, f [])]
  | (k, as) :: rest =>
    if key < k then (key, f []) :: (k, as) :: rest
    else if key = k then (k, f as) :: rest
    else (k, as) :: update key f rest

/-- Groups keyed adjustments, in the order given. -/
def ofList (keyed : List (Nat × Adjustment)) : Adjustments :=
  keyed.foldl (fun m (key, a) => m.update key (· ++ [a])) []

/-- All adjustments, by key and then by place. -/
def flat (m : Adjustments) : List (Nat × Adjustment) :=
  m.flatMap fun (key, as) => as.map (key, ·)

end Adjustments

/-- How incoming adjustments join those of the same key. -/
inductive Merge where
  | append
  | prepend
deriving DecidableEq, Repr

/-- A block, its adjustments and its missing value. -/
structure History where
  block : Block
  adjustments : Adjustments
  missing : Scalar

namespace History

def dtype (h : History) : Dtype := h.block.dtype

def shape (h : History) : Nat × Nat := h.block.shape

/-- Refuses an adjustment that lies outside the block or does not fit its type. -/
def validate (b : Block) (adjustments : Adjustments) : Except ArrayError Unit :=
  adjustments.flat.forM fun (key, a) => do
    if b.nrows ≤ key || !a.fits b.shape then throw (.adjustmentOutOfBounds key b.shape)
    a.checkDtype b.dtype

/-- A history over a block. -/
def mk? (block : Block) (adjustments : Adjustments) (missing : Scalar) :
    Except ArrayError History := do
  missing.expect block.dtype
  validate block adjustments
  return ⟨block, adjustments, missing⟩

/-- A history without adjustments. -/
def unadjusted (block : Block) (missing : Scalar) : Except ArrayError History :=
  mk? block [] missing

/-- A history in which every cell is missing. -/
def allMissing (missing : Scalar) (shape : Nat × Nat) : History :=
  ⟨.full missing shape, [], missing⟩

/-- Windows of `window` rows from row `offset`, each seeing the adjustments keyed
before its end plus `perspective`. -/
def traverse (h : History) (window : UInt64) (offset perspective : UInt64) :
    Except ArrayError Cursor := do
  if window = 0 then throw .windowLengthNotPositive
  if h.block.nrows < (offset + window).toNat then
    throw (.windowLengthTooLong window offset h.block.nrows)
  return .start h.block h.adjustments.flat window offset perspective

/-- Rows `start` up to, not including, `stop`, each as it was known on that row. -/
def rowsAsOf (h : History) (start stop : UInt64) : Except ArrayError Block := do
  if h.adjustments.isEmpty || stop ≤ start then return h.block.rowsBetween start stop
  let cursor ← h.traverse 1 start 0
  Block.concatRows (cursor.take (stop - start).toNat)

/-- Adds adjustments behind or before those held at the same key. -/
def updateAdjustments (h : History) (incoming : Adjustments) (mode : Merge) :
    Except ArrayError History := do
  validate h.block incoming
  let join (held : List Adjustment) (as : List Adjustment) : List Adjustment :=
    match mode with
    | .append => held ++ as
    | .prepend => as ++ held
  return { h with
    adjustments := incoming.foldl (fun m (key, as) => m.update key (join · as)) h.adjustments }

/-- The block with every adjustment applied. -/
def adjusted (h : History) : Block :=
  h.adjustments.flat.foldl (fun b (_, a) => a.apply b) h.block

/-- Equal cells, equal adjustments and the same missing value. -/
def same (a b : History) : Bool :=
  a.block == b.block && a.adjustments == b.adjustments && a.missing == b.missing

instance : BEq History := ⟨same⟩

end History
end AsOf
