import AsOf.Result.Basic
import AsOf.Run.Error
import AsOf.Term.Evaluate

/-!
# Chunks

A `Chunk` is a stretch of output sessions with the history before them that some
term needs, and the assets that are alive in it. A `Workspace` holds what is
known of each node of the plan. Level by level, every node that is not yet known
is computed from the workspace as it stood before the level; then the outputs
are trimmed to the output sessions and the rows that pass are gathered.
-/
namespace AsOf

/-- Sessions and assets that all nodes share. -/
structure Chunk where
  domain : Domain
  /-- The history and the output sessions. -/
  dates : List Date
  /-- How many of the dates are history. -/
  history : Nat
  sids : List Sid
  /-- Where the assets are alive. -/
  mask : Grid Bool

namespace Chunk

/-- The first date of a node with some extra rows. -/
def firstRow (c : Chunk) (extra : UInt64) : Nat := c.history - extra.toNat

/-- The dates of a node with some extra rows. -/
def datesFrom (c : Chunk) (extra : UInt64) : List Date := c.dates.drop (c.firstRow extra)

/-- Where assets are alive on the dates of a node with some extra rows. -/
def maskFrom (c : Chunk) (extra : UInt64) : Grid Bool :=
  c.mask.sliceRows (c.firstRow extra) c.mask.nrows

def outputRows (c : Chunk) : Nat := c.dates.length - c.history

end Chunk

/-- What is known of each node. -/
abbrev Workspace := Array (Option History)

namespace Workspace

def empty (nodes : Nat) : Workspace := Array.replicate nodes none

def get? (ws : Workspace) (node : Nat) : Option History := (ws[node]?).join

def put (ws : Workspace) (node : Nat) (h : History) : Workspace :=
  ws.setIfInBounds node (some h)

def drop (ws : Workspace) (node : Nat) : Workspace := ws.setIfInBounds node none

/-- The history of a node that `reader` reads. -/
def expect (ws : Workspace) (p : Plan) (reader : String) (node : Nat) :
    Except RunError History :=
  match ws.get? node with
  | some h => .ok h
  | none => .error (.missingDependency reader (p.graph.textOf node))

end Workspace

namespace Plan

/-- Rows of a history, each as known on it. -/
def rows (h : History) (start count : Nat) : Except RunError Block :=
  (h.rowsAsOf (.ofNat start) (.ofNat (start + count))).mapError .array

/-- Truth values out of a block. -/
def truths (b : Block) : Except RunError (Grid Bool) := b.intoBools.mapError .array

/-- Adds what an edge leads to: rows that narrow the mask, or an input. -/
def follow (p : Plan) (ws : Workspace) (node : Nat) (t : Term) (count : Nat)
    (found : Grid Bool × List Input) (e : Edge) : Except RunError (Grid Bool × List Input) := do
  let (mask, inputs) := found
  let h ← ws.expect p t.text e.node
  let offset := p.offsetOf node e
  if e.isMask then
    return (mask.zipWith (· && ·) (← truths (← rows h offset.toNat count)), inputs)
  else if t.window = 0 then
    return (mask, inputs ++ [.block (← rows h offset.toNat count)])
  else
    return (mask, inputs ++ [.window (← (h.traverse t.window offset 0).mapError .array)])

/-- The values of one node. -/
def computeNode (p : Plan) (c : Chunk) (ws : Workspace) (node : Nat) (t : Term) :
    Except RunError History := do
  let extra := p.extraOf node
  let dates := c.datesFrom extra
  let (mask, inputs) ← (p.graph.edgesOf node).foldlM (p.follow ws node t dates.length)
    (c.maskFrom extra, [])
  let block ← (evaluate t inputs ⟨dates, c.sids, mask⟩).mapError .eval
  (History.unadjusted block t.missing).mapError .array

/-! ## Levels -/

/-- The values of the nodes of a level that are not yet known. -/
def computeLevel (p : Plan) (c : Chunk) (ws : Workspace) (level : List Nat) :
    Except RunError Workspace := do
  let computed ← (level.filter fun node => (ws.get? node).isNone).filterMapM fun node =>
    match p.graph.terms[node]? with
    | some t => do return some (node, ← p.computeNode c ws node t)
    | none => .ok none
  return computed.foldl (fun ws (node, h) => ws.put node h) ws

/-- Counts down the readers left of a node and drops its values after the last. -/
def releaseNode (p : Plan) (state : Workspace × Array Nat) (node : Nat) : Workspace × Array Nat :=
  let (ws, left) := state
  let left := left.modify node (· - 1)
  (if left[node]? = some 0 && !p.graph.isRoot node then ws.drop node else ws, left)

/-- Counts the nodes of a level as readers that are done. -/
def release (p : Plan) (level : List Nat) (state : Workspace × Array Nat) :
    Workspace × Array Nat :=
  level.foldl (fun state node => (p.graph.readBy node).foldl p.releaseNode state) state

/-- The workspace after all levels. -/
def computeAll (p : Plan) (config : Config) (c : Chunk) (ws : Workspace) :
    Except RunError Workspace := do
  let left := ((List.range p.size).map p.readers).toArray
  let (ws, _) ← p.byLevel.foldlM (fun (state : Workspace × Array Nat) level => do
    let ws ← p.computeLevel c state.1 level
    return if config.releaseIntermediates then p.release level (ws, state.2) else (ws, state.2))
    (ws, left)
  return ws

/-! ## Rows that pass -/

/-- The output rows of a root. -/
def trimmed (p : Plan) (c : Chunk) (ws : Workspace) (node : Nat) : Except RunError Block := do
  let h ← ws.expect p "pipeline output" node
  rows h (p.extraOf node).toNat c.outputRows

/-- The cells in which a grid is true, row by row. -/
def cellsOf (g : Grid Bool) : List (Nat × Nat) :=
  (g.toLists.zipIdx).flatMap fun (row, i) =>
    (row.zipIdx.filter (·.1)).map fun (_, j) => (i, j)

/-- The rows of living assets that pass the screen. -/
def assemble (p : Plan) (c : Chunk) (ws : Workspace) : Except RunError Result := do
  let alive := c.mask.sliceRows c.history c.mask.nrows
  let keep ← match p.graph.screen with
    | some screen => do
      let passed ← truths (← p.trimmed c ws screen)
      pure (alive.zipWith (· && ·) passed)
    | none => pure alive
  let cells := cellsOf keep
  let dates := (c.dates.drop c.history).toArray
  let sids := c.sids.toArray
  let columns ← p.graph.outputs.mapM fun (name, node) => do
    return (name, Values.gather (← p.trimmed c ws node) cells)
  (Result.mk? (cells.filterMap (dates[·.1]?)) (cells.filterMap (sids[·.2]?)) columns).mapError
    .output

end Plan
end AsOf
