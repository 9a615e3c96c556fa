import AsOf.Calendar.Date
import AsOf.Calendar.Search

/-!
# Trading calendars

A `Calendar` names the days on which there is trading, its sessions, in
ascending order and without repeats. Sessions are counted from zero.
-/
namespace AsOf

/-- Named sessions, ascending. -/
structure Calendar where
  name : String
  sessions : Array Date
deriving DecidableEq, Repr

namespace Calendar

/-- Drops an item that equals the one before it. -/
def dropRepeats : List Date → List Date
  | a :: b :: rest => if a = b then dropRepeats (b :: rest) else a :: dropRepeats (b :: rest)
  | ds => ds

/-- The calendar of some days, given in any order. -/
def ofDates (name : String) (dates : List Date) : Calendar :=
  ⟨name, (dropRepeats (dates.mergeSort fun a b => decide (a ≤ b))).toArray⟩

/-- The days from `start` to `stop`, both included, but for the latest day there is. -/
def days (start stop : Date) : List Date :=
  let count := min stop.day (Date.latest.day - 1) - start.day + 1
  (List.range count.toNat).map fun (n : Nat) => ⟨start.day + n⟩

/-- Every day from `start` to `stop` that is not on a weekend. -/
def weekdays (name : String) (start stop : Date) : Calendar :=
  ofDates name ((days start stop).filter fun d => !d.isWeekend)

def first? (c : Calendar) : Option Date := c.sessions[0]?

def last? (c : Calendar) : Option Date := c.sessions.back?

/-- The number of sessions before `d`. -/
def countBefore (c : Calendar) (d : Date) : Nat := partitionPoint (· < d) c.sessions

/-- The number of sessions up to and including `d`. -/
def countThrough (c : Calendar) (d : Date) : Nat := partitionPoint (· ≤ d) c.sessions

/-- The number of the session on `d`. -/
def index? (c : Calendar) (d : Date) : Option Nat :=
  let i := c.countBefore d
  if c.sessions[i]? = some d then some i else none

def isSession (c : Calendar) (d : Date) : Bool := (c.index? d).isSome

/-- The number of the first session on `d` or later. -/
def indexOnOrAfter? (c : Calendar) (d : Date) : Option Nat :=
  let i := c.countBefore d
  if i < c.sessions.size then some i else none

/-- The number of the last session on `d` or earlier. -/
def indexOnOrBefore? (c : Calendar) (d : Date) : Option Nat :=
  match c.countThrough d with
  | 0 => none
  | n + 1 => some n

/-- The sessions from `start` to `stop`, both included. -/
def sessionsIn (c : Calendar) (start stop : Date) : List Date :=
  (c.sessions.extract (c.countBefore start) (c.countThrough stop)).toList

end Calendar
end AsOf
