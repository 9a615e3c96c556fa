import AsOf.Loader.Basic

/-!
# Faulty loaders

A `Fault` makes a loader misbehave towards one column, for trying out how a run
fails: the loader is cut off, or leaves the column out, or answers with the wrong
shape, cell type or missing value.
-/
namespace AsOf

/-- What goes wrong. -/
inductive FaultKind where
  | cutOff
  | omit
  | shape
  | dtype
  | missing (value : Scalar)

/-- What goes wrong with a column, given by its full name. -/
structure Fault where
  kind : FaultKind
  column : String

namespace Fault

/-- The answer with the history of the column spoiled. -/
def spoil (f : Fault) (r : Request) (m : Loaded) (c : Column) (h : History) :
    Except ArrayError Loaded :=
  match f.kind with
  | .cutOff => .ok m
  | .omit => .ok (m.erase c)
  | .shape => .ok (m.insert c (.allMissing h.missing (r.shape.1 + 1, r.shape.2)))
  | .dtype => m.insert c <$> History.unadjusted (.bools (.replicate r.shape false)) (.bool false)
  | .missing value => m.insert c <$> History.unadjusted h.block value

/-- A loader with the fault. -/
def load (f : Fault) (load : Request → Except LoadError Loaded) (r : Request) :
    Except LoadError Loaded := do
  let isCutOff := match f.kind with
    | .cutOff => r.columns.any (·.qualifiedName == f.column)
    | _ => false
  if isCutOff then throw (.source (r.columns.map Column.qualifiedName) .connectionLost)
  let m ← load r
  match m.find? (·.1.qualifiedName == f.column) with
  | some (c, h) => (f.spoil r m c h).mapError .array
  | none => return m

end Fault
end AsOf
