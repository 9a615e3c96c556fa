import AsOf.Proofs.Built
import AsOf.Proofs.Run.Chunked

/-!
# Whole runs

A run that ends well is the table of its sessions, where the sessions of each chunk are
those of the chunk's own world: what the loaders answer to the requests of the chunk.

* `Engine.runChunked_eq`: a run is checked before it is worked on.
* `Engine.Setting.scheduled`: a chunk of a run is a stretch of its world.
* `Engine.Setting.chunk_spec`: a chunk of a run is the table of its world.
* `Engine.work_of_ok`: what a run that ends well ends with.
-/
namespace AsOf

/-! ## The chunk of a session -/

/-- The first range that a number lies in. -/
def rangeOf (ranges : List (Nat × Nat)) (r : Nat) : Nat × Nat :=
  (ranges.find? fun x => decide (x.1 ≤ r) && decide (r ≤ x.2)).getD (0, 0)

theorem rangeOf_chunkRanges {size first last : Nat} {x : Nat × Nat} (hx : x ∈ chunkRanges size first last)
    {r : Nat} (hr : x.1 ≤ r ∧ r ≤ x.2) : rangeOf (chunkRanges size first last) r = x := by
  fun_induction chunkRanges size first last with
  | case1 first hle stop ih =>
    rw [rangeOf, List.find?_cons]
    rcases List.mem_cons.1 hx with rfl | hx
    · rw [show (decide (first ≤ r) && decide (r ≤ stop)) = true by simpa using hr]
      rfl
    · have hlow := (mem_chunkRanges hx).1
      rw [show (decide (first ≤ r) && decide (r ≤ stop)) = false by simp; omega]
      exact ih hx
  | case2 => cases hx

theorem chunkRanges_ne_nil {size first last : Nat} (h : first ≤ last) : chunkRanges size first last ≠ [] := by
  rw [chunkRanges, if_pos h]
  exact List.cons_ne_nil _ _

namespace Engine

variable {e : Engine} {p : Plan} {domain : Domain} {sessions : Array Date} {sids : List Sid}
  {alive : Date → Sid → Bool} {ledger? : List Date → Column → Option Ledger} {mayRefuse : Prop}
  {first last : Nat}

/-! ## The world of a chunk -/

/-- The dates for which a chunk has a node. -/
def datesAsked (p : Plan) (sessions : Array Date) (first last node : Nat) : List Date :=
  (sessions.extract (first - (p.extraOf node).toNat) (last + 1)).toList

/-- What there is to know in the chunk of the sessions `first` to `last`. -/
def chunkWorld (p : Plan) (sessions : Array Date) (sids : List Sid) (alive : Date → Sid → Bool)
    (ledger? : List Date → Column → Option Ledger) (first last : Nat) : World where
  date r := sessions.getD r ⟨0⟩
  live r := livingOn alive sids (sessions.getD r ⟨0⟩)
  known node r q sid := match p.graph.terms[node]?.bind Term.column? with
    | some c => (ledgerOf (ledger? (datesAsked p sessions first last node)) c).known
        (sessions.getD r ⟨0⟩) (sessions.getD q ⟨0⟩) sid
    | none => .label none

theorem known_chunkWorld {node : Nat} {column : Column} (hc : (node, column) ∈ p.graph.columns)
    (r q : Nat) (sid : Sid) : (chunkWorld p sessions sids alive ledger? first last).known node r q sid =
      (ledgerOf (ledger? (datesAsked p sessions first last node)) column).known
        (sessions.getD r ⟨0⟩) (sessions.getD q ⟨0⟩) sid := by
  obtain ⟨t, ht, hcol⟩ := TermGraph.mem_columns.1 hc
  simp only [chunkWorld, ht, Option.bind_some, hcol]

/-- What a run is about. -/
structure Setting (e : Engine) (p : Plan) (sessions : Array Date) (sids : List Sid)
    (alive : Date → Sid → Bool) (ledger? : List Date → Column → Option Ledger) (mayRefuse : Prop)
    (first : Nat) : Prop where
  assets : e.assets.Pointwise alive
  nodup : sids.Nodup
  keep : e.loaders.Keep p.graph.Asks ledger? mayRefuse
  ascending : Ascending sessions.toList
  small : sessions.size < 0x4000000000000000
  ordered : p.Ordered
  served : ∀ x ∈ p.graph.columns, (e.loaders.serving? x.2).isSome = true
  /-- There is history enough before the first session. -/
  extra : ∀ node, (p.extraOf node).toNat ≤ first

theorem datesFrom_chunkOf (hx : ∀ node, (p.extraOf node).toNat ≤ first) (node : Nat) :
    (e.chunkOf p domain sessions sids first last).datesFrom (p.extraOf node) =
      datesAsked p sessions first last node := by
  have hmax : p.maxExtra.toNat ≤ first := Plan.maxExtra_le hx
  have hle := UInt64.le_iff_toNat_le.1 (Plan.extraOf_le_maxExtra (p := p) node)
  rw [Chunk.datesFrom, dates_chunkOf, Chunk.firstRow, history_chunkOf, datesAsked, Array.toList_extract,
    Array.toList_extract, List.extract_eq_take_drop, List.extract_eq_take_drop, startOf, List.drop_take,
    List.drop_drop]
  congr 1
  · omega
  · congr 1
    omega

/-- The table of a chunk. -/
def chunkTable (p : Plan) (sessions : Array Date) (sids : List Sid) (alive : Date → Sid → Bool)
    (ledger? : List Date → Column → Option Ledger) (x : Nat × Nat) : Result :=
  p.graph.table (fun _ => chunkWorld p sessions sids alive ledger? x.1 x.2)
    (List.range' x.1 (x.2 + 1 - x.1))

/-- The chunk of the sessions `x.1` to `x.2` can be computed. -/
def FeasibleAt (e : Engine) (p : Plan) (domain : Domain) (sessions : Array Date) (sids : List Sid)
    (alive : Date → Sid → Bool) (ledger? : List Date → Column → Option Ledger) (x : Nat × Nat) : Prop :=
  e.Feasible p (e.chunkOf p domain sessions sids x.1 x.2)
    (chunkWorld p sessions sids alive ledger? x.1 x.2) (startOf p x.1) ledger?

/-- A chunk of a run is a stretch of its world, and the plan reads it in order. -/
theorem Setting.scheduled (hs : e.Setting p sessions sids alive ledger? mayRefuse first) (domain : Domain)
    {x : Nat × Nat} (hfx : first ≤ x.1) (hx : x.1 ≤ x.2) (hl : x.2 < sessions.size) :
    p.Scheduled (e.chunkOf p domain sessions sids x.1 x.2)
      (chunkWorld p sessions sids alive ledger? x.1 x.2) (startOf p x.1) :=
  { hs.ordered with
    covers := chunkOf_covers hs.assets hs.nodup hs.small
      (Plan.maxExtra_le fun node => Nat.le_trans (hs.extra node) hfx) hx hl (fun _ => rfl) fun _ => rfl
    deep := fun node => UInt64.le_iff_toNat_le.1 (Plan.extraOf_le_maxExtra node) }

theorem Setting.ascending_dates (hs : e.Setting p sessions sids alive ledger? mayRefuse first) (domain : Domain)
    (x : Nat × Nat) : Ascending (e.chunkOf p domain sessions sids x.1 x.2).dates := by
  rw [dates_chunkOf, Array.toList_extract, List.extract_eq_take_drop]
  exact List.Pairwise.take (List.Pairwise.drop hs.ascending)

/-- The loaders tell a chunk of a run of its world. -/
theorem Setting.tells (hs : e.Setting p sessions sids alive ledger? mayRefuse first) (domain : Domain)
    {x : Nat × Nat} (hfx : first ≤ x.1) : (e.chunkOf p domain sessions sids x.1 x.2).Tells p
      (chunkWorld p sessions sids alive ledger? x.1 x.2) (startOf p x.1) ledger? := by
  intro node column hc i q sid _ _ _
  rw [datesFrom_chunkOf fun node => Nat.le_trans (hs.extra node) hfx, known_chunkWorld hc]
  rfl

/-- A chunk of a run is the table of its world, if it can be computed. -/
theorem Setting.chunk_spec (hs : e.Setting p sessions sids alive ledger? mayRefuse first) (domain : Domain)
    {x : Nat × Nat} (hfx : first ≤ x.1) (hx : x.1 ≤ x.2) (hl : x.2 < sessions.size) :
    (e.FeasibleAt p domain sessions sids alive ledger? x ∧
      (e.runChunk p (e.chunkOf p domain sessions sids x.1 x.2)).Is
        (.ok (chunkTable p sessions sids alive ledger? x))) ∨
    ((¬e.FeasibleAt p domain sessions sids alive ledger? x ∨ mayRefuse) ∧
      ∃ err, (e.runChunk p (e.chunkOf p domain sessions sids x.1 x.2)).Is (.error err)) := by
  have hmax : p.maxExtra.toNat ≤ x.1 := Plan.maxExtra_le fun node => Nat.le_trans (hs.extra node) hfx
  have hout : Plan.outputSessions (e.chunkOf p domain sessions sids x.1 x.2) (startOf p x.1) =
      List.range' x.1 (x.2 + 1 - x.1) := by
    rw [Plan.outputSessions, Chunk.outputRows, length_dates_chunkOf hl, history_chunkOf, startOf]
    congr 1 <;> omega
  have := runChunk_spec (hs.scheduled domain hfx hx hl) (hs.ascending_dates domain x) hs.keep (hs.tells domain hfx)
    hs.served
  rwa [hout] at this

/-! ## All chunks -/

/-- The world of the chunk of a session. -/
def worlds (p : Plan) (sessions : Array Date) (sids : List Sid) (alive : Date → Sid → Bool)
    (ledger? : List Date → Column → Option Ledger) (ranges : List (Nat × Nat)) (r : Nat) : World :=
  chunkWorld p sessions sids alive ledger? (rangeOf ranges r).1 (rangeOf ranges r).2

/-- The tables of all chunks, one below the other. -/
theorem concat_chunkTable (p : Plan) (sessions : Array Date) (sids : List Sid) (alive : Date → Sid → Bool)
    (ledger? : List Date → Column → Option Ledger) (size : Nat) (hfl : first ≤ last) :
    Result.concat ((chunkRanges size first last).map (chunkTable p sessions sids alive ledger?)) =
      .ok (p.graph.table (worlds p sessions sids alive ledger? (chunkRanges size first last))
        (List.range' first (last + 1 - first))) := by
  have hmap : (chunkRanges size first last).map (chunkTable p sessions sids alive ledger?) =
      ((chunkRanges size first last).map fun x => List.range' x.1 (x.2 + 1 - x.1)).map
        (p.graph.table (worlds p sessions sids alive ledger? (chunkRanges size first last))) := by
    rw [List.map_map]
    refine List.map_congr_left fun x hx => TermGraph.table_of_eq fun r hr => ?_
    have hr := List.mem_range'_1.1 hr
    rw [worlds, rangeOf_chunkRanges hx (by omega)]
  rw [hmap, TermGraph.concat_table _ _ fun h => chunkRanges_ne_nil hfl (List.map_eq_nil_iff.1 h),
    ← List.flatMap_def, chunkRanges_flatMap]

/-- Chunks that end well have all been computed, and make up one table. -/
theorem Setting.concat_of_ok (hs : e.Setting p sessions sids alive ledger? mayRefuse first) (hfl : first ≤ last)
    (hl : last < sessions.size) {size : Nat} {cancelled : Cancellation} {calls : List Call}
    {parts : List Result}
    (h : ((e.runChunks p domain sessions sids cancelled (chunkRanges size first last)).run.run calls).1 =
      .ok parts) :
    (∀ x ∈ chunkRanges size first last, e.FeasibleAt p domain sessions sids alive ledger? x) ∧
    Result.concat parts = .ok (p.graph.table
      (worlds p sessions sids alive ledger? (chunkRanges size first last))
      (List.range' first (last + 1 - first))) := by
  obtain ⟨value, hvalue⟩ : ∃ value : Nat × Nat → Except RunError Result, value = fun x =>
    ((e.runChunk p (e.chunkOf p domain sessions sids x.1 x.2)).run.run []).1 := ⟨_, rfl⟩
  have hspec {x : Nat × Nat} (hx : x ∈ chunkRanges size first last) :=
    hs.chunk_spec domain (mem_chunkRanges hx).1 (mem_chunkRanges hx).2.1
      (Nat.lt_of_le_of_lt (mem_chunkRanges hx).2.2 hl)
  have hv : ∀ x ∈ chunkRanges size first last,
      (e.runChunk p (e.chunkOf p domain sessions sids x.1 x.2)).Is (value x) := by
    intro x hx
    rw [hvalue]
    rcases hspec hx with ⟨-, hok⟩ | ⟨-, err, herr⟩
    · exact (hok []).symm.subst (motive := Run.Is _) hok
    · exact (herr []).symm.subst (motive := Run.Is _) herr
  obtain ⟨parts', hparts, rfl⟩ := mapM_of_foldlM_stepChunk hv h
  have hall : ∀ x ∈ chunkRanges size first last, e.FeasibleAt p domain sessions sids alive ledger? x ∧
      value x = .ok (chunkTable p sessions sids alive ledger? x) := by
    intro x hx
    obtain ⟨part, hpart⟩ := Checked.exists_mapM.1 ⟨_, hparts⟩ x hx
    rcases hspec hx with ⟨hf, hok⟩ | ⟨-, err, herr⟩
    · exact ⟨hf, (hv x hx).unique hok⟩
    · rw [(hv x hx).unique herr] at hpart
      cases hpart
  rw [Checked.mapM_of_ok fun x hx => (hall x hx).2] at hparts
  obtain rfl := Except.ok.inj hparts
  exact ⟨fun x hx => (hall x hx).1, concat_chunkTable p sessions sids alive ledger? size hfl⟩

/-! ## Checking a run -/

/-- What a run works on, once it has been checked. -/
structure Job where
  domain : Domain
  calendar : Calendar
  graph : TermGraph

/-- Checks dates, market and loaders. -/
def prepare (e : Engine) (pipeline : Pipeline) (start stop : Date) : Except RunError Job := do
  if stop < start then throw (.invalidDateRange start stop)
  let domain ← pipeline.domainOr e.domain
  let calendar ← calendarFor domain start stop
  let graph ← pipeline.graph
  graph.columns.forM fun x => discard (Run.loaderOf e.loaders x.2)
  return ⟨domain, calendar, graph⟩

/-- Works through the sessions of a run. -/
def work (e : Engine) (job : Job) (start stop : Date) (size : Nat) (cancelled : Cancellation) :
    Run Result :=
  match sessionRange? job.calendar start stop with
  | none => return emptyResult job.graph
  | some (first, last) => do
    let p ← (Plan.of? job.graph job.calendar.sessions.size first last).mapError RunError.plan
    let parts ← e.runChunks p job.domain job.calendar.sessions (e.assetsFor p) cancelled
      (chunkRanges size first last)
    (Result.concat parts).mapError RunError.output

/-- A run is checked before it is worked on. -/
theorem runChunked_eq (e : Engine) (pipeline : Pipeline) (start stop : Date) {size : Nat} (hs : size ≠ 0)
    (cancelled : Cancellation) : e.runChunked pipeline start stop size cancelled =
      liftM (e.prepare pipeline start stop) >>= fun job => e.work job start stop size cancelled := by
  unfold runChunked prepare
  rw [if_neg hs]
  by_cases hd : stop < start
  · simp only [if_pos hd]
    rfl
  · simp only [if_neg hd, Run.lift_bind, bind_assoc, ← Run.lift_forM]
    rfl

/-- A run in chunks of no session is refused. -/
theorem runChunked_zero (e : Engine) (pipeline : Pipeline) (start stop : Date) (cancelled : Cancellation) :
    e.runChunked pipeline start stop 0 cancelled = throw (.config .zeroChunk) := by
  unfold runChunked
  rw [if_pos rfl]
  rfl

/-- A run that does not pass its checks is refused. -/
theorem runChunked_of_error {pipeline : Pipeline} {start stop : Date} {size : Nat} (hs : size ≠ 0) {err : RunError}
    (h : e.prepare pipeline start stop = .error err) (cancelled : Cancellation) :
    e.runChunked pipeline start stop size cancelled = throw err := by
  rw [runChunked_eq e pipeline start stop hs, h]
  rfl

/-- A run that passes its checks is worked on. -/
theorem runChunked_of_prepared {pipeline : Pipeline} {start stop : Date} {size : Nat} (hs : size ≠ 0) {job : Job}
    (h : e.prepare pipeline start stop = .ok job) (cancelled : Cancellation) :
    e.runChunked pipeline start stop size cancelled = e.work job start stop size cancelled := by
  rw [runChunked_eq e pipeline start stop hs, h]
  rfl

theorem calendarFor_eq_ok {start stop : Date} {calendar : Calendar} :
    calendarFor domain start stop = .ok calendar ↔ domain.calendar? = some calendar ∧
      ∃ a b, calendar.first? = some a ∧ calendar.last? = some b ∧ ¬start < a ∧ ¬b < stop := by
  unfold calendarFor
  cases hc : domain.calendar? with
  | none => exact ⟨nofun, nofun⟩
  | some found =>
    constructor
    · intro h
      cases ha : found.first? with
      | none =>
        simp only [ha] at h
        cases h
      | some a =>
        cases hb : found.last? with
        | none =>
          simp only [ha, hb] at h
          cases h
        | some b =>
          by_cases hsa : start < a
          · simp only [ha, hb, if_pos hsa] at h
            cases h
          by_cases hbs : b < stop
          · simp only [ha, hb, if_neg hsa, if_pos hbs] at h
            cases h
          simp only [ha, hb, if_neg hsa, if_neg hbs] at h
          obtain rfl := Except.ok.inj h
          exact ⟨rfl, a, b, ha, hb, hsa, hbs⟩
    · rintro ⟨hfound, a, b, ha, hb, hsa, hbs⟩
      obtain rfl := Option.some.inj hfound
      simp only [ha, hb, if_neg hsa, if_neg hbs]
      rfl

/-- A run that passes its checks. -/
theorem prepare_eq_ok {pipeline : Pipeline} {start stop : Date} {job : Job} :
    e.prepare pipeline start stop = .ok job ↔ ¬stop < start ∧ pipeline.domainOr e.domain = .ok job.domain ∧
      calendarFor job.domain start stop = .ok job.calendar ∧ pipeline.graph = .ok job.graph ∧
      ∀ x ∈ job.graph.columns, (e.loaders.serving? x.2).isSome = true := by
  have hserve (g : TermGraph) : (g.columns.forM fun x => discard (Run.loaderOf e.loaders x.2)) =
      (.ok () : Except RunError PUnit) ↔ ∀ x ∈ g.columns, (e.loaders.serving? x.2).isSome = true := by
    rw [Checked.forM_eq_ok]
    refine forall₂_congr fun x _ => ?_
    rw [Run.loaderOf]
    cases e.loaders.serving? x.2 with
    | none => exact ⟨nofun, nofun⟩
    | some found => exact ⟨fun _ => rfl, fun _ => rfl⟩
  unfold prepare
  by_cases hd : stop < start
  · rw [if_pos hd]
    exact ⟨nofun, fun h => absurd hd h.1⟩
  · rw [if_neg hd]
    show (pipeline.domainOr e.domain >>= _) = _ ↔ _
    simp only [Checked.bind_eq_ok]
    constructor
    · rintro ⟨domain, hdomain, calendar, hcalendar, graph, hgraph, u, hu, hjob⟩
      obtain rfl := Except.ok.inj hjob
      exact ⟨hd, hdomain, hcalendar, hgraph, (hserve graph).1 hu⟩
    · rintro ⟨-, hdomain, hcalendar, hgraph, hu⟩
      exact ⟨_, hdomain, _, hcalendar, _, hgraph, _, (hserve _).2 hu, rfl⟩

/-! ## Working through the sessions -/

theorem sessionRange?_eq_some {calendar : Calendar} {start stop : Date} :
    sessionRange? calendar start stop = some (first, last) ↔
      calendar.indexOnOrAfter? start = some first ∧ calendar.indexOnOrBefore? stop = some last ∧
        first ≤ last := by
  unfold sessionRange?
  cases calendar.indexOnOrAfter? start with
  | none => exact ⟨nofun, nofun⟩
  | some a =>
    cases calendar.indexOnOrBefore? stop with
    | none => exact ⟨nofun, nofun⟩
    | some b =>
      show (if a ≤ b then some (a, b) else none) = some (first, last) ↔ _
      split
      · rename_i hab
        constructor
        · intro h
          cases h
          exact ⟨rfl, rfl, hab⟩
        · rintro ⟨ha, hb, -⟩
          rw [Option.some.inj ha, Option.some.inj hb]
      · rename_i hab
        refine ⟨nofun, fun ⟨ha, hb, hle⟩ => absurd hle ?_⟩
        rwa [← Option.some.inj ha, ← Option.some.inj hb]

/-- The sessions of a range are those on its days. -/
theorem sessionRange?_spec {calendar : Calendar} (hc : calendar.WellFormed) {start stop : Date}
    (h : sessionRange? calendar start stop = some (first, last)) :
    first ≤ last ∧ last < calendar.sessions.size ∧
      (∀ (i : Nat) (d : Date), calendar.sessions[i]? = some d → (start ≤ d ↔ first ≤ i)) ∧
      ∀ (i : Nat) (d : Date), calendar.sessions[i]? = some d → (d ≤ stop ↔ i ≤ last) := by
  obtain ⟨ha, hb, hle⟩ := sessionRange?_eq_some.1 h
  obtain ⟨hlow, hlt⟩ := partitionPoint_lt hc.ascending start
  obtain ⟨hhigh, hle'⟩ := partitionPoint_le hc.ascending stop
  have hfirst : partitionPoint (· < start) calendar.sessions = first := by
    rw [Calendar.indexOnOrAfter?] at ha
    split at ha
    · exact Option.some.inj ha
    · cases ha
  have hlast : partitionPoint (· ≤ stop) calendar.sessions = last + 1 := by
    rw [Calendar.indexOnOrBefore?, Calendar.countThrough] at hb
    split at hb
    · cases hb
    · rename_i n hn
      rw [hn, Option.some.inj hb]
  refine ⟨hle, by omega, fun i d hd => ?_, fun i d hd => ?_⟩
  · have := hlt i d hd
    rw [Date.lt_iff] at this
    rw [Date.le_iff]
    omega
  · rw [hle' i d hd]
    omega

/-- The kernels of a pipeline look at decoded values. -/
def KernelsDecode (pipeline : Pipeline) : Prop :=
  ∀ g, pipeline.graph = .ok g → ∀ (node : Nat) (t : Term) (k : RowKernel), g.terms[node]? = some t →
    t.kind = .custom k → k.Decodes

/-- What there is to know of an engine, and of a pipeline that it runs. -/
structure Told (e : Engine) (pipeline : Pipeline) (alive : Date → Sid → Bool)
    (ledger? : List Date → Column → Option Ledger) (mayRefuse : Prop) : Prop where
  assets : e.assets.Pointwise alive
  keep : ∀ g, pipeline.graph = .ok g → e.loaders.Keep g.Asks ledger? mayRefuse
  calendar : ∀ domain calendar, pipeline.domainOr e.domain = .ok domain →
    domain.calendar? = some calendar → calendar.WellFormed
  kernels : KernelsDecode pipeline

theorem nodup_assetsFor (hu : e.assets.Pointwise alive) : (e.assetsFor p).Nodup := by
  rw [assetsFor]
  split
  · exact hu.nodup.filter _
  · exact hu.nodup

/-- What is told of an engine sets the stage for its plans. -/
theorem Told.setting {pipeline : Pipeline} (ht : e.Told pipeline alive ledger? mayRefuse) {start stop : Date} {job : Job}
    (hj : e.prepare pipeline start stop = .ok job)
    (hp : Plan.of? job.graph job.calendar.sessions.size first last = .ok p) :
    e.Setting p job.calendar.sessions (e.assetsFor p) alive ledger? mayRefuse first := by
  obtain ⟨-, hdomain, hcalendar, hgraph, hserve⟩ := prepare_eq_ok.1 hj
  have hwell := ht.calendar _ _ hdomain (calendarFor_eq_ok.1 hcalendar).1
  obtain ⟨hg, -⟩ := Plan.sound_of (Pipeline.graph_eq_ok hgraph) hp
  exact ⟨ht.assets, nodup_assetsFor ht.assets, hg ▸ ht.keep _ hgraph, hwell.ascending, hwell.size_lt,
    Plan.ordered_of (Pipeline.graph_eq_ok hgraph) hp (ht.kernels _ hgraph), hg ▸ hserve, (Plan.of?_spec hp).2.2.2⟩

/-- What a run that ends well has gone through: nothing, where there are no sessions, or a plan, its
chunks and the table of their rows. -/
theorem work_eq_ok {job : Job} {start stop : Date} {size : Nat} {cancelled : Cancellation} {calls : List Call}
    {r : Result} (h : ((e.work job start stop size cancelled).run.run calls).1 = .ok r) :
    (sessionRange? job.calendar start stop = none ∧ r = emptyResult job.graph) ∨
    ∃ first last p parts calls', sessionRange? job.calendar start stop = some (first, last) ∧
      Plan.of? job.graph job.calendar.sessions.size first last = .ok p ∧
      ((e.runChunks p job.domain job.calendar.sessions (e.assetsFor p) cancelled
        (chunkRanges size first last)).run.run calls').1 = .ok parts ∧ Result.concat parts = .ok r := by
  unfold work at h
  cases hrange : sessionRange? job.calendar start stop with
  | none =>
    rw [hrange] at h
    exact .inl ⟨rfl, (Except.ok.inj h).symm⟩
  | some range =>
    obtain ⟨first, last⟩ := range
    rw [hrange] at h
    obtain ⟨p, calls', hp, h⟩ := (Run.is_lift _).of_bind h
    rw [Run.run_bind] at h
    cases hruns : (e.runChunks p job.domain job.calendar.sessions (e.assetsFor p) cancelled
        (chunkRanges size first last)).run.run calls' with
    | mk result calls'' =>
      rw [hruns] at h
      cases result with
      | error err => cases h
      | ok parts =>
        exact .inr ⟨first, last, p, parts, calls', rfl, Checked.mapError_eq_ok.1 hp, congrArg Prod.fst hruns,
          Checked.mapError_eq_ok.1 ((Run.is_lift _ calls'').symm.trans h)⟩

/-- A run without sessions ends well without rows. -/
theorem work_of_none {job : Job} {start stop : Date} (h : sessionRange? job.calendar start stop = none)
    (size : Nat) (cancelled : Cancellation) :
    (e.work job start stop size cancelled).Is (.ok (emptyResult job.graph)) := by
  unfold work
  rw [h]
  exact Run.is_pure _

/-- A run that ends well has no sessions, or it is the table of its sessions. -/
theorem work_of_ok {pipeline : Pipeline} (ht : e.Told pipeline alive ledger? mayRefuse) {start stop : Date} {job : Job}
    (hj : e.prepare pipeline start stop = .ok job) {size : Nat} {cancelled : Cancellation}
    {calls : List Call} {r : Result}
    (h : ((e.work job start stop size cancelled).run.run calls).1 = .ok r) :
    (sessionRange? job.calendar start stop = none ∧ r = emptyResult job.graph) ∨
    ∃ first last p, sessionRange? job.calendar start stop = some (first, last) ∧
      Plan.of? job.graph job.calendar.sessions.size first last = .ok p ∧
      (∀ x ∈ chunkRanges size first last, e.FeasibleAt p job.domain job.calendar.sessions (e.assetsFor p)
        alive ledger? x) ∧
      r = job.graph.table
        (worlds p job.calendar.sessions (e.assetsFor p) alive ledger? (chunkRanges size first last))
        (List.range' first (last + 1 - first)) := by
  rcases work_eq_ok h with hnone | ⟨first, last, p, parts, calls', hrange, hp, hruns, hr⟩
  · exact .inl hnone
  · obtain ⟨-, hfl, hl, -⟩ := Plan.of?_spec hp
    obtain ⟨hall, hconcat⟩ := (ht.setting hj hp).concat_of_ok hfl hl hruns
    refine .inr ⟨first, last, p, hrange, hp, hall, ?_⟩
    rw [← (Plan.sound_of (Pipeline.graph_eq_ok (prepare_eq_ok.1 hj).2.2.2.1) hp).1]
    exact Except.ok.inj (hr.symm.trans hconcat)

/-- A run whose chunks can all be computed ends with the table of its sessions. -/
theorem Told.work_is_ok {pipeline : Pipeline} (ht : e.Told pipeline alive ledger? False) {start stop : Date}
    {job : Job} (hj : e.prepare pipeline start stop = .ok job)
    (hr : sessionRange? job.calendar start stop = some (first, last))
    (hp : Plan.of? job.graph job.calendar.sessions.size first last = .ok p) {size : Nat}
    (hall : ∀ x ∈ chunkRanges size first last, e.FeasibleAt p job.domain job.calendar.sessions
      (e.assetsFor p) alive ledger? x) :
    (e.work job start stop size .never).Is (.ok (job.graph.table
      (worlds p job.calendar.sessions (e.assetsFor p) alive ledger? (chunkRanges size first last))
      (List.range' first (last + 1 - first)))) := by
  obtain ⟨-, hfl, hl, -⟩ := Plan.of?_spec hp
  have hv : ∀ x ∈ chunkRanges size first last,
      (e.runChunk p (e.chunkOf p job.domain job.calendar.sessions (e.assetsFor p) x.1 x.2)).Is
        (.ok (chunkTable p job.calendar.sessions (e.assetsFor p) alive ledger? x)) := by
    intro x hx
    rcases (ht.setting hj hp).chunk_spec job.domain (mem_chunkRanges hx).1 (mem_chunkRanges hx).2.1
      (Nat.lt_of_le_of_lt (mem_chunkRanges hx).2.2 hl) with ⟨-, hok⟩ | ⟨hno, -⟩
    · exact hok
    · exact absurd (hall x hx) (hno.resolve_right id)
  have hplan : (liftM ((Plan.of? job.graph job.calendar.sessions.size first last).mapError
      RunError.plan) : Run Plan).Is (.ok p) := by
    rw [hp]
    exact Run.is_lift _
  have hruns : (e.runChunks p job.domain job.calendar.sessions (e.assetsFor p) .never
      (chunkRanges size first last)).Is (.ok ((chunkRanges size first last).map
        (chunkTable p job.calendar.sessions (e.assetsFor p) alive ledger?))) := by
    have := @foldlM_stepChunk _ _ _ _ _ _ _ [] hv
    rwa [Checked.mapM_of_ok fun _ _ => rfl] at this
  unfold work
  rw [hr]
  refine hplan.bind (hruns.bind ?_)
  rw [concat_chunkTable p _ _ _ _ _ hfl, (Plan.sound_of (Pipeline.graph_eq_ok (prepare_eq_ok.1 hj).2.2.2.1) hp).1]
  exact Run.is_lift _

/-! ## Runs without sessions -/

/-- The type of a node is the type of its term. -/
theorem dtypeOf_eq {g : TermGraph} {node : Nat} {t : Term} (ht : g.terms[node]? = some t) (h : t.Typed) :
    g.dtypeOf node = t.dtype := by
  rw [TermGraph.dtypeOf, ht]
  by_cases hn : g.index? Term.assetExists = some node
  · simp only [if_pos hn]
    exact (Term.dtype_of_same (TermGraph.same_of_index? hn ht)).symm
  · simp only [if_neg hn]
    cases hc : t.column? with
    | some c => exact h.column c hc
    | none => exact h.missing

/-- The outputs of a graph are the columns of its pipeline. -/
theorem names_outputs {pipeline : Pipeline} {g : TermGraph} (hg : pipeline.graph = .ok g) :
    g.outputs.names = pipeline.columns.names :=
  Checked.map_eq_map (TermGraph.outputs_spec (Pipeline.graph_eq_ok hg)).flip fun _ _ h => h.1

theorem ordered_outputs {pipeline : Pipeline} (hp : pipeline.Built) {g : TermGraph} (hg : pipeline.graph = .ok g) :
    g.outputs.Ordered := hp.ordered.of_names (names_outputs hg)

/-- A result without rows is the table of no sessions. -/
theorem emptyResult_eq {pipeline : Pipeline} (hp : pipeline.Built) {g : TermGraph}
    (hg : pipeline.graph = .ok g) (w : Nat → World) : emptyResult g = g.table w [] := by
  have houtputs := TermGraph.outputs_spec (Pipeline.graph_eq_ok hg)
  have hdtypes : (g.outputs.filterMap fun output => (g.terms[output.2]?).map fun t => (output.1, t.dtype)) =
      g.outputs.map fun output => (output.1, g.dtypeOf output.2) := by
    refine Checked.filterMap_eq_map (R := fun x y => x = y ∧ x ∈ g.outputs)
      (List.forall₂_same.2 fun x hx => ⟨rfl, hx⟩) fun x y hxy => ?_
    obtain ⟨rfl, hx⟩ := hxy
    obtain ⟨o, -, -, t, ht, -⟩ := Checked.exists_left houtputs hx
    rw [ht, Option.map_some, dtypeOf_eq ht (hp.of_graph hg ht).typed]
  show Result.empty (g.outputs.filterMap fun output => (g.terms[output.2]?).map fun t =>
    (output.1, t.dtype)) = _
  rw [hdtypes, Result.empty, List.map_map, Named.ofList_eq_self]
  · rfl
  · exact List.pairwise_map.2 (ordered_outputs hp hg)

end Engine
end AsOf
