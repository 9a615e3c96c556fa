import AsOf.Array.History
import AsOf.Dataset
import AsOf.Loader.Error
import AsOf.Sid

/-!
# Loaders

A `Loader` answers a `Request` for columns with a history for each. `Loaders`
says which loader serves the columns of a data set. Loaders are told apart by
their number.
-/
namespace AsOf

/-- Columns of some sessions and assets, all served by one loader. -/
structure Request where
  domain : Domain
  columns : List Column
  dates : List Date
  sids : List Sid
  /-- Where the assets exist. -/
  mask : Grid Bool

/-- The shape that every answer has. -/
def Request.shape (r : Request) : Nat × Nat := (r.dates.length, r.sids.length)

/-- A request for assets that exist throughout. -/
def Request.unmasked (columns : List Column) (dates : List Date) (sids : List Sid) : Request :=
  ⟨.generic, columns, dates, sids, .replicate (dates.length, sids.length) true⟩

/-- Histories by column, in the order of the columns. -/
abbrev Loaded := List (Column × History)

namespace Loaded

/-- Puts a history at its place, instead of one of the same column. -/
def insert (column : Column) (h : History) : Loaded → Loaded
  | [] => [(column, h)]
  | (c, old) :: rest =>
    if column == c then (c, h) :: rest
    else if column.precedes c then (column, h) :: (c, old) :: rest
    else (c, old) :: insert column h rest

/-- The history of a column. -/
def get? (m : Loaded) (column : Column) : Option History := m.lookup column

/-- All histories but that of a column. -/
def erase (m : Loaded) (column : Column) : Loaded := m.filter (·.1 != column)

/-- The histories of both; of two for one column the second. -/
def extend (a b : Loaded) : Loaded := b.foldl (fun m (c, h) => m.insert c h) a

end Loaded

/-- A source of columns. -/
structure Loader where
  number : Nat
  load : Request → Except LoadError Loaded

/-- The loaders in use, in the order in which they came, and which serves a data set. -/
structure Loaders where
  all : List Loader
  /-- The place of the loader of a data set; the newest entry holds. -/
  byDataset : List (String × Nat)

namespace Loaders

def empty : Loaders := ⟨[], []⟩

/-- Serves a data set from a loader from now on. -/
def register (ls : Loaders) (dataset : String) (loader : Loader) : Loaders :=
  match ls.all.findIdx? (·.number == loader.number) with
  | some place => { ls with byDataset := (dataset, place) :: ls.byDataset }
  | none => ⟨ls.all ++ [loader], (dataset, ls.all.length) :: ls.byDataset⟩

/-- The loader of a column, and its place. -/
def serving? (ls : Loaders) (column : Column) : Option (Nat × Loader) := do
  let place ← ls.byDataset.lookup column.dataset
  return (place, ← ls.all[place]?)

end Loaders
end AsOf
