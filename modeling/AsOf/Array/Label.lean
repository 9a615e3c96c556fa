import AsOf.Grid
import AsOf.Array.Error

/-!
# Labels out of a dictionary

`Labels` is a grid of optional texts, each text kept once. A cell holds a code:
0 for a missing label, `k` for entry number `k` of the dictionary, counted from
one. A dictionary may list a text twice; looking a text up then finds its last
entry. Selections keep the whole dictionary, stacking and `mapLabels` build a
new one in the order in which labels are met.

Equality is that of the decoded grids (`Labels.same`).
-/
namespace AsOf

/-! ## Dictionaries -/

/-- The texts that codes stand for; entry `k` (from one) has code `k`. -/
abbrev Dictionary := List String

namespace Dictionary

/-- The code of a missing label. -/
def missingCode : Nat := 0

/-- The text behind a code. -/
def decode (d : Dictionary) (code : Nat) : Option String :=
  if code = missingCode then none else d[code - 1]?

/-- The code of the last entry that is `label`. -/
def codeOf? (d : Dictionary) (label : String) : Option Nat :=
  match d with
  | [] => none
  | entry :: rest =>
    match codeOf? rest label with
    | some code => some (code + 1)
    | none => if entry = label then some 1 else none

/-- The code of a label, which becomes a new entry if there is none. -/
def intern (d : Dictionary) : Option String → Dictionary × Nat
  | none => (d, missingCode)
  | some label =>
    match codeOf? d label with
    | some code => (d, code)
    | none => (d ++ [label], d.length + 1)

/-- Interns labels from the left and lists their codes. -/
def internAll (d : Dictionary) : List (Option String) → Dictionary × List Nat
  | [] => (d, [])
  | label :: rest =>
    let (d, code) := d.intern label
    let (d, codes) := internAll d rest
    (d, code :: codes)

end Dictionary

/-! ## Grids of labels -/

/-- A grid of labels by code. -/
structure Labels where
  codes : Grid Nat
  categories : Dictionary

namespace Labels

open Dictionary

def shape (a : Labels) : Nat × Nat := a.codes.shape

/-- No label anywhere. -/
def missing (shape : Nat × Nat) : Labels := ⟨.replicate shape missingCode, []⟩

/-- The grid of decoded labels. -/
def toLabels (a : Labels) : Grid (Option String) := a.codes.map a.categories.decode

/-- Row by row, each new text becomes the next entry. -/
def ofLabels (g : Grid (Option String)) : Labels :=
  let (categories, _) := internAll [] g.toList
  ⟨g.map fun label => (categories.intern label).2, categories⟩

/-- Labels listed row by row, which must be as many as the shape has cells. -/
def ofFlat (shape : Nat × Nat) (labels : List (Option String)) : Except ArrayError Labels :=
  if labels.length = shape.1 * shape.2 then
    let cells := labels.toArray
    .ok <| ofLabels <| .ofFn shape.1 shape.2 fun i j => (cells[i * shape.2 + j]?).join
  else .error (.shapeMismatch shape (labels.length, 1))

/-- Ready codes, each of which must be 0 or the code of an entry. -/
def ofCodes (codes : Grid Nat) (categories : Dictionary) : Except ArrayError Labels :=
  match codes.toList.find? (categories.length < ·) with
  | some code => .error (.invalidCategoryCode code (categories.length + 1))
  | none => .ok ⟨codes, categories⟩

/-- The label in a cell; none also outside the grid. -/
def get? (a : Labels) (i j : Nat) : Option String :=
  (a.codes.get? i j).bind a.categories.decode

def codeOf? (a : Labels) (label : String) : Option Nat := a.categories.codeOf? label

/-- Makes room for a label; its code. -/
def intern (a : Labels) (label : Option String) : Labels × Nat :=
  let (categories, code) := a.categories.intern label
  (⟨a.codes, categories⟩, code)

/-- Puts one label into every cell that satisfies `p`. -/
def fillWhere (p : Nat → Nat → Bool) (label : Option String) (a : Labels) : Labels :=
  let (a, code) := a.intern label
  ⟨a.codes.mapIdx fun i j old => if p i j then code else old, a.categories⟩

/-- Puts a label into one cell. -/
def set (row col : Nat) (label : Option String) (a : Labels) : Labels :=
  a.fillWhere (fun i j => i == row && j == col) label

/-- Puts a label into a rectangle, both ends of both ranges included. -/
def fillRegion (rows cols : Nat × Nat) (label : Option String) (a : Labels) : Labels :=
  a.fillWhere (fun i j => rows.1 ≤ i && i ≤ rows.2 && cols.1 ≤ j && j ≤ cols.2) label

/-! ## Predicates -/

def isMissing (a : Labels) : Grid Bool := a.codes.map (· == missingCode)

def notMissing (a : Labels) : Grid Bool := a.codes.map (· != missingCode)

/-- Where a present label satisfies `f`. -/
def satisfying (f : String → Bool) (a : Labels) : Grid Bool :=
  a.codes.map fun code => (a.categories.decode code).any f

/-- Where the code is the one that looking `label` up finds. -/
def eqLabel (label : String) (a : Labels) : Grid Bool :=
  match a.codeOf? label with
  | some code => a.codes.map (· == code)
  | none => .replicate a.shape false

def neLabel (label : String) (a : Labels) : Grid Bool := a.satisfying (· != label)

def isIn (choices : List String) (a : Labels) : Grid Bool := a.satisfying choices.contains

def startsWith (head : String) (a : Labels) : Grid Bool :=
  a.satisfying fun s => head.toList.isPrefixOf s.toList

def endsWith (tail : String) (a : Labels) : Grid Bool :=
  a.satisfying fun s => tail.toList.isSuffixOf s.toList

def contains (needle : String) (a : Labels) : Grid Bool :=
  a.satisfying fun s => Text.occursIn needle.toList s.toList

/-! ## Reshaping -/

/-- Rows `start` up to, not including, `stop`, under the whole dictionary. -/
def sliceRows (start stop : Nat) (a : Labels) : Labels :=
  ⟨a.codes.sliceRows start stop, a.categories⟩

/-- The rows between two places, which may be counted from the end. -/
def rowsBetween (start stop : UInt64) (a : Labels) : Labels :=
  a.sliceRows (Grid.place a.codes.nrows start) (Grid.place a.codes.nrows stop)

def selectColumns (cols : List Nat) (a : Labels) : Labels :=
  ⟨a.codes.selectColumns cols, a.categories⟩

def selectRows (rows : List Nat) (a : Labels) : Labels :=
  ⟨a.codes.selectRows rows, a.categories⟩

/-- Codes of one dictionary as codes of a larger one. -/
def recode (table : List Nat) (code : Nat) : Nat :=
  if code = missingCode then missingCode else table.getD (code - 1) missingCode

/-- Replaces every present label by `f` of it. -/
def mapLabels (f : String → Option String) (a : Labels) : Labels :=
  let (categories, table) := internAll [] (a.categories.map f)
  ⟨a.codes.map (recode table), categories⟩

/-- Interns the dictionaries of the parts and rewrites their codes. -/
def recodeAll (ncols : Nat) :
    Dictionary → List Labels → Except ArrayError (Dictionary × List (Grid Nat))
  | d, [] => .ok (d, [])
  | d, part :: rest => do
    if part.shape.2 ≠ ncols then
      throw (.shapeMismatch (part.shape.1, ncols) part.shape)
    let (d, table) := internAll d (part.categories.map some)
    let (d, grids) ← recodeAll ncols d rest
    return (d, part.codes.map (recode table) :: grids)

/-- One part under the other, over a common dictionary. -/
def concatRows : List Labels → Except ArrayError Labels
  | [] => .ok (missing (0, 0))
  | first :: rest => do
    let ncols := first.shape.2
    let (categories, grids) ← recodeAll ncols [] (first :: rest)
    return ⟨.stack ncols grids, categories⟩

/-- Equal shapes and equal decoded cells. -/
def same (a b : Labels) : Bool := a.toLabels == b.toLabels

instance : BEq Labels := ⟨same⟩

end Labels
end AsOf
