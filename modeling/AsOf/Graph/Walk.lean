/-!
# Walking a graph of dependencies

`Walk.order` lists everything that some roots depend on, each node once and
after all of its dependencies. Roots come in the order given, and so do the
dependencies of a node. A cycle ends the walk: the error is the path around it,
from a node to the same node.

The walk is bounded by the number of nodes that a path without repeats can have.
-/
namespace AsOf.Walk

variable {N : Type} [BEq N]

/-- Appends a node to the order, its dependencies first; `path` leads to the node. -/
def visit (dependencies : N → List N) :
    Nat → List N → List N → N → Except (List N) (List N)
  | 0, _, order, _ => .ok order
  | bound + 1, path, order, node =>
    if order.contains node then .ok order
    else if path.contains node then .error (path.dropWhile (· != node) ++ [node])
    else do
      let order ← (dependencies node).foldlM (visit dependencies bound (path ++ [node])) order
      return order ++ [node]

/-- All nodes that the roots depend on, if paths have fewer nodes than `bound`. -/
def order (dependencies : N → List N) (bound : Nat) (roots : List N) :
    Except (List N) (List N) :=
  roots.foldlM (visit dependencies bound []) []

/-- The order of a graph given by the dependencies of each node; a node that is not
listed has none. -/
def ofLists (graph : List (N × List N)) (roots : List N) : Except (List N) (List N) :=
  let bound := graph.length + 2
  order (fun node => (graph.lookup node).getD []) bound roots

end AsOf.Walk
