import AsOf.Calendar.Date
import AsOf.Grid
import AsOf.Sid

/-!
# Universes

A `Universe` knows the assets there are and on which days each is alive. A
`Lifetimes` is a universe of intervals of days: an asset is alive on every day
that one of its intervals covers.
-/
namespace AsOf

/-- The assets, ascending, and the days on which they are alive. -/
structure Universe where
  sids : List Sid
  alive : List Date → List Sid → Grid Bool

/-- Days from the first to the second, both included. -/
abbrev Interval := Date × Date

/-- The intervals in which assets are alive, assets ascending. -/
abbrev Lifetimes := List (Sid × List Interval)

namespace Lifetimes

/-- Adds an interval of an asset behind those that it has. -/
def add (sid : Sid) (interval : Interval) : Lifetimes → Lifetimes
  | [] => [(sid, [interval])]
  | (s, is) :: rest =>
    if sid < s then (sid, [interval]) :: (s, is) :: rest
    else if sid = s then (s, is ++ [interval]) :: rest
    else (s, is) :: add sid interval rest

/-- Assets that are alive at all times. -/
def always (sids : List Sid) : Lifetimes :=
  sids.foldl (fun m sid => m.add sid (.earliest, .latest)) []

/-- Some assets that are alive at all times, and the intervals of others. -/
def ofList (always : List Sid) (intervals : List (Sid × Interval)) : Lifetimes :=
  intervals.foldl (fun m (sid, interval) => m.add sid interval) (.always always)

def isAlive (m : Lifetimes) (sid : Sid) (date : Date) : Bool :=
  ((m.lookup sid).getD []).any fun (start, stop) => start ≤ date && date ≤ stop

def toUniverse (m : Lifetimes) : Universe where
  sids := m.map (·.1)
  alive dates sids :=
    let rows := dates.toArray
    let cols := (sids.map fun sid => (m.lookup sid).getD []).toArray
    .ofFn rows.size cols.size fun i j =>
      cols[j].any fun (start, stop) => start ≤ rows[i] && rows[i] ≤ stop

end Lifetimes
end AsOf
