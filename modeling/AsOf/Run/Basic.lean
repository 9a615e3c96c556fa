import AsOf.Graph.Narrow
import AsOf.Pipeline
import AsOf.Run.Loading
import AsOf.Universe

/-!
# Running a pipeline

An `Engine` runs pipelines over its loaders and its universe. A run checks dates,
market and loaders before anything is loaded, plans the pipeline, and then works
through its sessions chunk by chunk; before each chunk it asks whether it has
been cancelled. The result does not depend on the size of the chunks.
-/
namespace AsOf

/-- What pipelines are run with. -/
structure Engine where
  loaders : Loaders
  assets : Universe
  /-- The market of a pipeline whose terms are all generic. -/
  domain : Domain
  config : Config

/-- Whether a run is found cancelled after some chunks and some calls to loaders. -/
abbrev Cancellation := (completed : Nat) → (calls : List Call) → Bool

/-- A run that nobody cancels. -/
def Cancellation.never : Cancellation := fun _ _ => false

/-- The chunks of at most `size` sessions from `first` to `last`. -/
def chunkRanges (size first last : Nat) : List (Nat × Nat) :=
  if first ≤ last then
    let stop := min (first + (size - 1)) last
    (first, stop) :: chunkRanges size (stop + 1) last
  else []
termination_by last + 1 - first

namespace Engine

/-- The market's calendar, which has to cover both dates. -/
def calendarFor (domain : Domain) (start stop : Date) : Except RunError Calendar := do
  match domain.calendar? with
  | none => throw (.noCalendar domain.code)
  | some calendar =>
    match calendar.first?, calendar.last? with
    | some first, some last =>
      if start < first then throw (.dateOutsideCalendar start calendar.name)
      if last < stop then throw (.dateOutsideCalendar stop calendar.name)
      return calendar
    | _, _ => throw (.dateOutsideCalendar start calendar.name)

/-- The numbers of the first and the last session of a range of dates. -/
def sessionRange? (calendar : Calendar) (start stop : Date) : Option (Nat × Nat) := do
  let first ← calendar.indexOnOrAfter? start
  let last ← calendar.indexOnOrBefore? stop
  if first ≤ last then some (first, last) else none

/-- The assets that a plan is computed for. -/
def assetsFor (e : Engine) (p : Plan) : List Sid :=
  match if e.config.prescreen then p.graph.narrowed? else none with
  | some keep => e.assets.sids.filter keep.contains
  | none => e.assets.sids

/-- The chunk of the sessions `first` to `last`. -/
def chunkOf (e : Engine) (p : Plan) (domain : Domain) (sessions : Array Date) (sids : List Sid)
    (first last : Nat) : Chunk :=
  let history := p.maxExtra.toNat
  let dates := (sessions.extract (first - history) (last + 1)).toList
  let lives := e.assets.alive dates sids
  let alive := (List.range sids.length).filter fun j => (lives.column j).any id
  { domain, dates, history
    sids := alive.filterMap (sids[·]?)
    mask := lives.selectColumns alive }

/-- The node that tells whether assets exist, filled in. -/
def seed (p : Plan) (c : Chunk) : Except RunError Workspace := do
  let ws := Workspace.empty p.size
  match p.graph.index? Term.assetExists with
  | none => return ws
  | some node =>
    let h ← (History.unadjusted (.bools (c.maskFrom (p.extraOf node)))
      Term.assetExists.missing).mapError .array
    return ws.put node h

/-- The result of one chunk. -/
def runChunk (e : Engine) (p : Plan) (c : Chunk) : Run Result := do
  let ws ← seed p c
  let ws ← Run.loadColumns e.loaders p c ws
  let ws ← p.computeAll e.config c ws
  p.assemble c ws

/-- A result without rows. -/
def emptyResult (g : TermGraph) : Result :=
  .empty (g.outputs.filterMap fun (name, node) =>
    (g.terms[node]?).map fun t => (name, t.dtype))

/-- The results of all chunks. -/
def runChunks (e : Engine) (p : Plan) (domain : Domain) (sessions : Array Date) (sids : List Sid)
    (cancelled : Cancellation) (ranges : List (Nat × Nat)) : Run (List Result) :=
  ranges.foldlM (fun parts (first, last) => do
    if cancelled parts.length (← get) then throw (.cancelled parts.length)
    return parts ++ [← e.runChunk p (e.chunkOf p domain sessions sids first last)]) []

/-- Computes a pipeline for the sessions from `start` to `stop`, some at a time. -/
def runChunked (e : Engine) (pipeline : Pipeline) (start stop : Date) (size : Nat)
    (cancelled : Cancellation) : Run Result := do
  if size = 0 then throw (.config .zeroChunk)
  if stop < start then throw (.invalidDateRange start stop)
  let domain ← pipeline.domainOr e.domain
  let calendar ← calendarFor domain start stop
  let graph ← pipeline.graph
  graph.columns.forM fun (_, c) => discard (Run.loaderOf e.loaders c)
  match sessionRange? calendar start stop with
  | none => return emptyResult graph
  | some (first, last) =>
    let p ← (Plan.of? graph calendar.sessions.size first last).mapError RunError.plan
    let sids := e.assetsFor p
    let parts ← e.runChunks p domain calendar.sessions sids cancelled (chunkRanges size first last)
    (Result.concat parts).mapError RunError.output

/-- Computes a pipeline in chunks of the configured size. -/
def run (e : Engine) (pipeline : Pipeline) (start stop : Date) : Run Result :=
  e.runChunked pipeline start stop e.config.chunkSize.toNat .never

end Engine
end AsOf
