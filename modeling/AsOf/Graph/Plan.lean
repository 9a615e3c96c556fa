import AsOf.Graph.Terms

/-!
# Plans

A `Plan` says how many sessions before the first one of the output every term of
a graph has to be computed for, its extra rows: as many as its readers have and
as they read before their own first row. It also puts the terms into levels,
none of which reads another term of its level, and counts the readers of each.

A graph cannot be planned for a range of sessions that the calendar does not
have, nor when some term needs more sessions than there are before the range.
Sums of rows are machine words and wrap.
-/
namespace AsOf

/-- Why a graph cannot be planned for the sessions `first` to `last`. -/
inductive PlanError where
  | outsideCalendar (first last sessions : Nat)
  | insufficientHistory (term : String) (needed : UInt64) (available : Nat)

def PlanError.message : PlanError → String
  | outsideCalendar first last sessions =>
    s!"session range {first}..={last} is outside a calendar of {sessions} sessions"
  | insufficientHistory term needed available =>
    term ++ s!" needs {needed} sessions of history before the start date, only {available} exist"

/-- A graph with the extra rows of every node. -/
structure Plan where
  graph : TermGraph
  extra : Array UInt64
  level : Array Nat

namespace Plan

/-- Gives the node that an edge leads to the rows that the reader needs of it. -/
def demand (node : Nat) (extra : Array UInt64) (e : Edge) : Array UInt64 :=
  let needed := extra.getD node 0 + e.extraRows
  if extra.getD e.node 0 < needed then extra.setIfInBounds e.node needed else extra

/-- The extra rows of every node, from the last one, which nothing reads, back. -/
def extraRows (g : TermGraph) : Array UInt64 :=
  (List.range g.size).reverse.foldl
    (fun extra node => (g.edgesOf node).foldl (demand node) extra)
    (Array.replicate g.size 0)

/-- The first node with the most extra rows, and those rows. -/
def deepest? (extra : Array UInt64) : Option (Nat × UInt64) :=
  extra.toList.zipIdx.foldl (fun best (rows, node) =>
    match best with
    | some (_, most) => if most < rows then some (node, rows) else best
    | none => some (node, rows)) none

/-- The level of every node: above all that it reads. -/
def levels (g : TermGraph) : Array Nat :=
  (List.range g.size).foldl (fun level node =>
    level.push ((g.readBy node).foldl (fun l dep => max l (level.getD dep 0 + 1)) 0)) #[]

/-- The plan of a graph for the sessions `first` to `last` of a calendar. -/
def of? (graph : TermGraph) (sessions first last : Nat) : Except PlanError Plan := do
  if last < first || sessions ≤ last then throw (.outsideCalendar first last sessions)
  let extra := extraRows graph
  if let some (node, rows) := deepest? extra then
    if first < rows.toNat then
      throw (.insufficientHistory (graph.textOf node) rows first)
  return ⟨graph, extra, levels graph⟩

def size (p : Plan) : Nat := p.graph.size

/-- The extra rows of a node. -/
def extraOf (p : Plan) (node : Nat) : UInt64 := p.extra.getD node 0

/-- The extra rows of a term, if it is in the graph. -/
def extra? (p : Plan) (t : Term) : Option UInt64 := (p.graph.index? t).map p.extraOf

/-- The most extra rows of any node. -/
def maxExtra (p : Plan) : UInt64 := p.extra.foldl max 0

/-- The nodes of each level. -/
def byLevel (p : Plan) : List (List Nat) :=
  let depth := p.level.foldl (fun d l => max d (l + 1)) 0
  (List.range depth).map fun l => (List.range p.size).filter fun node => p.level[node]? == some l

/-- How many nodes read a node. -/
def readers (p : Plan) (node : Nat) : Nat :=
  (List.range p.size).countP fun reader => (p.graph.readBy reader).contains node

/-- The rows of what an edge leads to that lie before those its reader reads. -/
def offsetOf (p : Plan) (node : Nat) (e : Edge) : UInt64 :=
  p.extraOf e.node - p.extraOf node - e.extraRows

/-- The rows of `input` before those that `reader` reads, if it reads it. -/
def offset? (p : Plan) (reader input : Term) : Option UInt64 := do
  let node ← p.graph.index? reader
  let dep ← p.graph.index? input
  let e ← (p.graph.edgesOf node).find? (·.node == dep)
  return p.offsetOf node e

end Plan
end AsOf
