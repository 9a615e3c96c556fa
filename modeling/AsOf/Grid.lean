/-!
# Rectangular tables

A `Grid α` is a table of `nrows` sessions by `ncols` assets. Both axes may be
empty, and the shape is kept even then. Every operation that builds a grid is
an `ofFn`, so a cell of the result is read off by `get_ofFn`; indexes that lie
outside a grid are dropped by the selections and read as `none` by `get?`.

Results:
* `get_ofFn`: the cells of a tabulated grid.
* `get?_eq_some`: `get?` answers exactly inside the grid.
-/
namespace AsOf

/-- A table of cells, row by row. -/
structure Grid (α : Type) where
  nrows : Nat
  ncols : Nat
  rows : Vector (Vector α ncols) nrows

namespace Grid

variable {α β γ : Type}

/-- Rows and columns of a grid. -/
def shape (g : Grid α) : Nat × Nat := (g.nrows, g.ncols)

/-! ## Reading -/

/-- The cell at row `i` and column `j`. -/
def get (g : Grid α) (i j : Nat) (hi : i < g.nrows) (hj : j < g.ncols) : α :=
  g.rows[i][j]

/-- The cell at row `i` and column `j`, if there is one. -/
def get? (g : Grid α) (i j : Nat) : Option α :=
  if h : i < g.nrows ∧ j < g.ncols then some (g.get i j h.1 h.2) else none

/-- The cells of row `i`, from the left; none outside the grid. -/
def row (g : Grid α) (i : Nat) : List α :=
  if h : i < g.nrows then g.rows[i].toList else []

/-- The cells of column `j`, from the top; none outside the grid. -/
def column (g : Grid α) (j : Nat) : List α :=
  if h : j < g.ncols then g.rows.toList.map (·[j]) else []

/-- The rows as lists. -/
def toLists (g : Grid α) : List (List α) := g.rows.toList.map (·.toList)

/-- All cells, row by row. -/
def toList (g : Grid α) : List α := g.toLists.flatten

/-! ## Building -/

/-- The grid whose cell at `i`, `j` is `f i j`. -/
def ofFn (nrows ncols : Nat) (f : Fin nrows → Fin ncols → α) : Grid α :=
  ⟨nrows, ncols, Vector.ofFn fun i => Vector.ofFn fun j => f i j⟩

theorem get_ofFn (r c : Nat) (f : Fin r → Fin c → α) (i j : Nat) (hi : i < r) (hj : j < c) :
    (ofFn r c f).get i j hi hj = f ⟨i, hi⟩ ⟨j, hj⟩ := by
  simp [get, ofFn]

theorem get?_eq_some {g : Grid α} {i j : Nat} {x : α} :
    g.get? i j = some x ↔ ∃ (hi : i < g.nrows) (hj : j < g.ncols), g.get i j hi hj = x := by
  unfold get?
  split
  · rename_i h
    exact ⟨fun e => ⟨h.1, h.2, Option.some.inj e⟩, fun ⟨_, _, e⟩ => congrArg some e⟩
  · rename_i h
    exact ⟨nofun, fun ⟨hi, hj, _⟩ => absurd ⟨hi, hj⟩ h⟩

/-- The grid that holds `x` in every cell. -/
def replicate (shape : Nat × Nat) (x : α) : Grid α :=
  ofFn shape.1 shape.2 fun _ _ => x

/-- The grid over a list of rows of one width. -/
def ofRows (ncols : Nat) (rows : List (Vector α ncols)) : Grid α :=
  ⟨rows.length, ncols, ⟨rows.toArray, rfl⟩⟩

/-- A row of the width `n`, if the list has that many cells. -/
def rowOfList? (n : Nat) (cells : List α) : Option (Vector α n) :=
  if h : cells.length = n then some ⟨cells.toArray, h⟩ else none

/-- The grid of the given shape over lists of cells, if they have that shape. -/
def ofLists? (shape : Nat × Nat) (rows : List (List α)) : Option (Grid α) := do
  let rows ← rows.mapM (rowOfList? shape.2)
  if rows.length = shape.1 then some (ofRows shape.2 rows) else none

/-! ## Cellwise -/

def map (f : α → β) (g : Grid α) : Grid β :=
  ofFn g.nrows g.ncols fun i j => f (g.get i j i.2 j.2)

/-- `map` with the row and the column of each cell. -/
def mapIdx (f : Nat → Nat → α → β) (g : Grid α) : Grid β :=
  ofFn g.nrows g.ncols fun i j => f i j (g.get i j i.2 j.2)

/-- Two grids cell by cell, on the rows and columns that both have. -/
def zipWith (f : α → β → γ) (a : Grid α) (b : Grid β) : Grid γ :=
  ofFn (min a.nrows b.nrows) (min a.ncols b.ncols) fun i j =>
    f (a.get i j (by omega) (by omega)) (b.get i j (by omega) (by omega))

/-! ## Selecting and stacking -/

/-- The place that a number names on an axis of length `n`: a number from `2 ^ 63`
on counts back from the end. -/
def place (n : Nat) (i : UInt64) : Nat :=
  if i < 0x8000000000000000 then i.toNat else n - (0 - i).toNat

/-- Rows `start` up to, not including, `stop`. -/
def sliceRows (start stop : Nat) (g : Grid α) : Grid α :=
  ofFn (min stop g.nrows - start) g.ncols fun i j =>
    g.get (start + i) j (by omega) j.2

/-- The indexes of `is` that lie below `n`. -/
def inRange (n : Nat) (is : List Nat) : List (Fin n) :=
  is.filterMap fun i => if h : i < n then some ⟨i, h⟩ else none

/-- The named columns, in the order named. -/
def selectColumns (cols : List Nat) (g : Grid α) : Grid α :=
  let cs := (inRange g.ncols cols).toArray
  ofFn g.nrows cs.size fun i k => g.get i cs[k] i.2 cs[k].2

/-- The named rows, in the order named. -/
def selectRows (rows : List Nat) (g : Grid α) : Grid α :=
  let rs := (inRange g.nrows rows).toArray
  ofFn rs.size g.ncols fun k j => g.get rs[k] j rs[k].2 j.2

/-- The rows of a grid of width `n`; none of any other grid. -/
def rowsOfWidth (n : Nat) (g : Grid α) : List (Vector α n) :=
  if h : g.ncols = n then h ▸ g.rows.toList else []

/-- The rows of all parts of width `n`, one part under the other. -/
def stack (n : Nat) (parts : List (Grid α)) : Grid α :=
  ofRows n (parts.flatMap (rowsOfWidth n))

/-! ## Equality -/

/-- The same shape and equal cells. -/
def same [BEq α] (a b : Grid α) : Bool :=
  a.shape == b.shape && a.toList == b.toList

instance [BEq α] : BEq (Grid α) := ⟨same⟩

end Grid
end AsOf
