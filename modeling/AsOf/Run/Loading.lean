import AsOf.Loader.Basic
import AsOf.Run.Chunk

/-!
# Loading the columns of a chunk

Columns of one loader and one depth of history are asked for together. A loader
that has no data for one of several columns is asked for each by itself, and a
column without data is missing throughout. Every request to a loader is
recorded. What a loader answers is checked for its shape, its cell type and its
missing value.
-/
namespace AsOf

/-- A request that was made to a loader. -/
structure Call where
  loader : Nat
  request : Request

/-- A computation that may fail and records the calls it makes. -/
abbrev Run := ExceptT RunError (StateM (List Call))

namespace Run

/-- Asks a loader. -/
def call (l : Loader) (r : Request) : Run (Except LoadError Loaded) := do
  modify (· ++ [⟨l.number, r⟩])
  return l.load r

/-- An answer for one column, all missing if there is no data. -/
def orMissing (r : Request) (c : Column) : Except LoadError Loaded → Except RunError Loaded
  | .ok m => .ok m
  | .error (.noData _) => .ok [(c, .allMissing c.missing r.shape)]
  | .error e => .error (.load e)

/-- Asks for one column. -/
def loadOne (l : Loader) (r : Request) (c : Column) : Run Loaded := do
  let r := { r with columns := [c] }
  orMissing r c (← call l r)

/-- Asks for all columns, and for each by itself if some have no data. -/
def loadAll (l : Loader) (r : Request) : Run Loaded := do
  match r.columns with
  | [c] => loadOne l r c
  | columns =>
    match ← call l r with
    | .ok m => return m
    | .error (.noData _) =>
      columns.foldlM (fun m c => do return m.extend (← loadOne l r c)) []
    | .error e => throw (.load e)

/-- Checks the history of a column. -/
def check (c : Column) (h : History) (shape : Nat × Nat) : Except RunError Unit := do
  if h.shape ≠ shape then throw (.load (.shape c.qualifiedName shape h.shape))
  if h.dtype ≠ c.dtype then throw (.array (.dtypeMismatch c.dtype h.dtype))
  if h.missing != c.missing then
    throw (.load (.missingValue c.qualifiedName c.missing.text h.missing.text))

/-- Takes the histories of some nodes out of an answer. -/
def take (shape : Nat × Nat) (state : Workspace × Loaded) (member : Nat × Column) :
    Except RunError (Workspace × Loaded) := do
  let (ws, m) := state
  let (node, c) := member
  match m.get? c with
  | none => throw (.load (.source [c.qualifiedName] .columnOmitted))
  | some h =>
    check c h shape
    return (ws.put node h, m.erase c)

/-! ## Groups of columns -/

/-- Columns that are asked for together. -/
structure Group where
  /-- The place of the loader. -/
  place : Nat
  loader : Loader
  extra : UInt64
  /-- The columns and their nodes. -/
  members : List (Nat × Column)

/-- By loader, then by depth of history. -/
def Group.precedes (a b : Group) : Bool :=
  a.place < b.place || (a.place == b.place && a.extra < b.extra)

/-- Puts a column into the group that it belongs to. -/
def Group.insert (g : Group) : List Group → List Group
  | [] => [g]
  | h :: rest =>
    if g.precedes h then g :: h :: rest
    else if h.precedes g then h :: insert g rest
    else { h with members := h.members ++ g.members } :: rest

/-- The loader of a column. -/
def loaderOf (ls : Loaders) (c : Column) : Except RunError (Nat × Loader) :=
  match ls.serving? c with
  | some found => .ok found
  | none => .error (.unregisteredColumn c.qualifiedName)

/-- The columns of a plan in groups. -/
def groups (ls : Loaders) (p : Plan) : Except RunError (List Group) :=
  p.graph.columns.foldlM (fun gs (node, c) => do
    let (place, loader) ← loaderOf ls c
    return Group.insert ⟨place, loader, p.extraOf node, [(node, c)]⟩ gs) []

/-- Loads a group into the workspace. -/
def loadGroup (chunk : Chunk) (ws : Workspace) (g : Group) : Run Workspace := do
  let r : Request := {
    domain := chunk.domain, columns := g.members.map (·.2), dates := chunk.datesFrom g.extra
    sids := chunk.sids, mask := chunk.maskFrom g.extra }
  let m ← loadAll g.loader r
  let (ws, _) ← (g.members.foldlM (take r.shape) (ws, m) : Except RunError _)
  return ws

/-- Loads all columns of a plan. -/
def loadColumns (ls : Loaders) (p : Plan) (chunk : Chunk) (ws : Workspace) : Run Workspace := do
  let gs ← groups ls p
  gs.foldlM (loadGroup chunk) ws

end Run
end AsOf
