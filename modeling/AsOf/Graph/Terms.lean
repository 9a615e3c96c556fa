import AsOf.Graph.Walk
import AsOf.Named
import AsOf.Term.Draft

/-!
# The graph of a pipeline's terms

A `TermGraph` holds every term that some outputs and a screen depend on, equal
terms once, each after the terms that it reads. A term reads its inputs and its
mask; without a mask of its own it reads whether the asset exists. A loadable
term reads nothing.
-/
namespace AsOf

namespace Term

/-- A term that another one reads. -/
structure Reading where
  term : Term
  /-- Sessions of the term that are read before the reader's own first one. -/
  extraRows : UInt64
  isMask : Bool

/-- What a term reads: its inputs, then its mask. -/
def readings (t : Term) : List Reading :=
  if t.isLoadable then []
  else
    let extraRows := if t.window = 0 then 0 else t.window - 1
    t.inputs.map (⟨·, extraRows, false⟩) ++ [⟨t.mask.getD assetExists, 0, true⟩]

def dependencies (t : Term) : List Term := t.readings.map Reading.term

mutual
/-- A bound on the number of terms on a path of dependencies. -/
def height : Term → Nat
  | mk _ inputs mask => max (heights inputs) (maskHeight mask) + 1

def heights : List Term → Nat
  | [] => 0
  | t :: ts => max (height t) (heights ts)

def maskHeight : Option Term → Nat
  | none => 1
  | some t => height t
end

/-- The terms that the roots depend on, each after what it reads. -/
def inOrder (roots : List Term) : Except (List Term) (List Term) :=
  Walk.order dependencies (heights roots + 1) roots

end Term

/-- What a node of the graph reads. -/
structure Edge where
  node : Nat
  /-- Sessions of the node that are read before the reader's own first one. -/
  extraRows : UInt64
  isMask : Bool
deriving DecidableEq, Repr

/-- Terms in an order in which they can be computed. -/
structure TermGraph where
  terms : Array Term
  edges : Array (List Edge)
  outputs : Named Nat
  screen : Option Nat

namespace TermGraph

/-- The place of a term. -/
def indexIn? (terms : List Term) (t : Term) : Option Nat := terms.findIdx? (· == t)

/-- The edges of a term. -/
def edgesIn (terms : List Term) (t : Term) : List Edge :=
  t.readings.filterMap fun r => (indexIn? terms r.term).map (⟨·, r.extraRows, r.isMask⟩)

/-- The graph of named outputs and perhaps a screen, or a cycle of dependencies. -/
def of? (outputs : Named Term) (screen : Option Term) : Except (List Term) TermGraph := do
  let terms ← Term.inOrder (outputs.items ++ screen.toList)
  return {
    terms := terms.toArray
    edges := (terms.map (edgesIn terms)).toArray
    outputs := outputs.filterMap fun (name, t) => (indexIn? terms t).map (name, ·)
    screen := screen.bind (indexIn? terms) }

def size (g : TermGraph) : Nat := g.terms.size

def index? (g : TermGraph) (t : Term) : Option Nat := indexIn? g.terms.toList t

/-- What a node reads: its inputs in order, then its mask. -/
def edgesOf (g : TermGraph) (node : Nat) : List Edge := g.edges.getD node []

/-- The nodes that a node reads, each once, ascending. -/
def readBy (g : TermGraph) (node : Nat) : List Nat :=
  ((g.edgesOf node).map Edge.node).eraseDups.mergeSort

/-- The text of a node's term. -/
def textOf (g : TermGraph) (node : Nat) : String := (g.terms[node]?.map Term.text).getD ""

/-- Whether a node is an output or the screen. -/
def isRoot (g : TermGraph) (node : Nat) : Bool :=
  g.screen == some node || g.outputs.items.contains node

/-- The columns that the graph reads, with their nodes. -/
def columns (g : TermGraph) : List (Nat × Column) :=
  g.terms.toList.zipIdx.filterMap fun (t, node) => t.column?.map (node, ·)

end TermGraph
end AsOf
