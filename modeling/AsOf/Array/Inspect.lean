import AsOf.Array.History

/-!
# Reports on a history

`History.inspect` prints a history: its type, shape and missing value, the
block, then the adjustments. A block of 500 cells or more is cut to the first
and last five rows and columns.
-/
namespace AsOf.Inspect

/-- From this many cells on, long axes are cut. -/
def manyCells : Nat := 500

/-- The longest axis that is not cut in a block of many cells. -/
def axisLimit : Nat := 11

/-- Joins the texts; if `cut` and there are too many, the middle becomes dots. -/
def joined (cut : Bool) (separator : String) (items : List String) : String :=
  if cut && axisLimit < items.length then
    let edge := axisLimit / 2
    separator.intercalate
      (items.take edge ++ ["..."] ++ items.drop (items.length - edge))
  else separator.intercalate items

/-- A grid of texts between brackets, one row a line. -/
def grid (g : Grid String) : String :=
  if g.nrows = 0 || g.ncols = 0 then "[[]]"
  else
    let cut : Bool := manyCells ≤ g.nrows * g.ncols
    let rows := g.toLists.map fun cells => "[" ++ joined cut ", " cells ++ "]"
    "[" ++ joined cut ",\n " rows ++ "]"

/-- The memory layout that a report on labels ends with: row-major, and
column-major as well when at most one axis is longer than one. -/
def layout (shape : Nat × Nat) : String :=
  let (r, c) := shape
  let strides := if r = 0 || c = 0 then (0, 0) else (c, 1)
  let kind := if 1 < r && 1 < c then "Cc (0x5)" else "CFcf (0xf)"
  s!", shape=[{r}, {c}], strides=[{strides.1}, {strides.2}], layout={kind}, const ndim=2"

/-- The cells of a block. -/
def block : Block → String
  | .floats g => grid (g.map Decimal.plain.write)
  | .ints g | .times g => grid (g.map toString)
  | .bools g => grid (g.map toString)
  | .labels a =>
    let cell : Option String → String
      | some l => "Some(" ++ Text.quote l ++ ")"
      | none => "None"
    grid (a.toLabels.map cell) ++ layout a.shape

end AsOf.Inspect

namespace AsOf.History

/-- A report on the history. -/
def inspect (h : History) : String :=
  let (nrows, ncols) := h.shape
  let held := h.adjustments.flat.map fun (key, a) => s!"  {key}: " ++ a.text ++ "\n"
  "Adjusted Array (" ++ h.dtype.name ++ s!", {nrows}x{ncols}, missing=" ++ h.missing.text ++
    "):\n\nData:\n" ++ Inspect.block h.block ++ "\n\nAdjustments:\n" ++
    (if h.adjustments.isEmpty then "  (none)\n" else "") ++ String.join held

end AsOf.History
