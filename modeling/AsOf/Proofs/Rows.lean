import Mathlib
import AsOf.Proofs.Invariance
import AsOf.Proofs.Lifetimes
import AsOf.Proofs.Result
import AsOf.Proofs.Run.Shape

/-!
# The rows of a run

A run that ends well has a row for exactly the sessions of its range and the assets that
are alive on them and pass the screen, by date and then by asset; its values are what the
chunks have computed, and each is found by its date, its asset and the name of its
column. This needs nothing of the loaders: `Engine.computed?` is what the run has computed,
whatever they answered.

* `Plan.assemble_shows`: the rows of one chunk.
* `Engine.work_shows`: the rows of all chunks, one below the other.
* `Engine.rows_exact`: which rows there are, in which order, and where their values are.
-/
namespace AsOf

/-! ## Gathering cells -/

/-- The values of some cells, if all of them are in the block. -/
theorem Values.toScalars_gather {b : Block} {cells : List (Nat × Nat)}
    (h : ∀ cell ∈ cells, (b.get? cell.1 cell.2).isSome = true) :
    (gather b cells).toScalars.map some = cells.map fun cell => b.get? cell.1 cell.2 := by
  have typed {α : Type} (wrap : α → Scalar) (g : Grid α)
      (hg : ∀ cell ∈ cells, ((g.get? cell.1 cell.2).map wrap).isSome = true) :
      ((cellsAt g cells).map wrap).map some = cells.map fun cell => (g.get? cell.1 cell.2).map wrap := by
    clear h
    induction cells with
    | nil => rfl
    | cons cell cells ih =>
      obtain ⟨x, hx⟩ := Option.isSome_iff_exists.1 (hg cell List.mem_cons_self)
      obtain ⟨a, ha, -⟩ := Option.map_eq_some_iff.1 hx
      have hcons : cellsAt g (cell :: cells) = a :: cellsAt g cells := List.filterMap_cons_some ha
      rw [hcons, List.map_cons, List.map_cons, List.map_cons, ha,
        ih fun cell hcell => hg cell (List.mem_cons_of_mem _ hcell)]
      rfl
  cases b with
  | floats g => exact typed .float g h
  | ints g => exact typed .int g h
  | bools g => exact typed .bool g h
  | times g => exact typed .time g h
  | labels a =>
    show (((cells.map fun cell => a.get? cell.1 cell.2).map Scalar.label).map some) = _
    rw [List.map_map, List.map_map]
    refine List.map_congr_left fun cell hcell => ?_
    obtain ⟨x, hx⟩ := Option.isSome_iff_exists.1 (h cell hcell)
    obtain ⟨code, hcode, rfl⟩ := Option.map_eq_some_iff.1 hx
    show some (Scalar.label (a.get? cell.1 cell.2)) = _
    rw [Labels.get?, hcode, hx]
    rfl

/-! ## One chunk -/

/-- The screen, if there is one, is true in a row. -/
def TermGraph.passesIn (g : TermGraph) (value : Nat → Date × Sid → Option Scalar) (row : Date × Sid) : Bool :=
  match g.screen with
  | some screen => ((value screen row).bind Scalar.asBool?).getD false
  | none => true

theorem TermGraph.passesIn_iff {g : TermGraph} {value : Nat → Date × Sid → Option Scalar} {row : Date × Sid} :
    g.passesIn value row = true ↔ ∀ screen, g.screen = some screen → value screen row = some (.bool true) := by
  unfold passesIn
  cases g.screen with
  | none => exact ⟨nofun, fun _ => rfl⟩
  | some screen =>
    constructor
    · intro h s hs
      obtain rfl := Option.some.inj hs
      have h : ((value screen row).bind Scalar.asBool?).getD false = true := h
      cases hv : value screen row with
      | none =>
        rw [hv] at h
        cases h
      | some x =>
        rw [hv] at h
        cases x with
        | bool b =>
          obtain rfl : b = true := h
          rfl
        | _ => cases h
    · intro h
      show ((value screen row).bind Scalar.asBool?).getD false = true
      rw [h screen rfl]
      rfl

namespace Plan

variable {p : Plan} {c : Chunk} {w : World} {start : Nat} {ws : Workspace} {node : Nat} {b : Block}

theorem shape_trimmed (hc : c.Covers w start) (hx : ∀ n, (p.extraOf n).toNat ≤ c.history) (hs : p.Shaped c ws)
    (h : p.trimmed c ws node = .ok b) : b.shape = (c.outputRows, c.sids.length) := by
  obtain ⟨history, hhistory, h⟩ := Checked.bind_eq_ok.1 h
  have hget : ws.get? node = some history := by
    unfold Workspace.expect at hhistory
    cases hg : ws.get? node with
    | none =>
      rw [hg] at hhistory
      cases hhistory
    | some found =>
      rw [hg] at hhistory
      rw [Except.ok.inj hhistory]
  have hshape := hs node history hget
  have hrows : history.block.nrows = c.dates.length - c.history + (p.extraOf node).toNat :=
    (congrArg Prod.fst hshape).trans (Chunk.rowsOf_eq hc.output (hx node))
  have := hc.small
  have := hx node
  have := hc.output
  have hcols : history.block.ncols = c.sids.length := congrArg Prod.snd hshape
  rw [← hcols]
  refine History.shape_rowsAsOf (by omega) ?_ (Checked.mapError_eq_ok.1 h)
  rw [Chunk.outputRows]
  omega

/-- What a workspace holds for each node, by date and asset. -/
def Reads (p : Plan) (c : Chunk) (w : World) (start : Nat) (ws : Workspace)
    (value : Nat → Date × Sid → Option Scalar) : Prop :=
  ∀ node b, p.trimmed c ws node = .ok b → ∀ i < c.outputRows, ∀ (j : Nat) (sid : Sid),
    c.sids[j]? = some sid → value node (w.date (start + c.history + i), sid) = b.get? i j

variable {value : Nat → Date × Sid → Option Scalar}

/-- The living assets that pass on a session. -/
def passingOn (p : Plan) (w : World) (value : Nat → Date × Sid → Option Scalar) (r : Nat) : List Sid :=
  (w.live r).filter fun sid => p.graph.passesIn value (w.date r, sid)

/-- The living assets that pass on each session, and no others, are kept. -/
theorem keepOf_reads (hc : c.Covers w start) (hx : ∀ n, (p.extraOf n).toNat ≤ c.history) (hs : p.Shaped c ws)
    (hv : p.Reads c w start ws value) {keep : Grid Bool} (h : p.keepOf c ws = .ok keep) :
    keep.shape = (c.outputRows, c.sids.length) ∧ ∀ i < c.outputRows,
      pick (keep.row i) c.sids = p.passingOn w value (start + c.history + i) := by
  have halive := shape_aliveOf hc
  unfold keepOf at h
  unfold passingOn TermGraph.passesIn
  cases hscreen : p.graph.screen with
  | none =>
    simp only [hscreen] at h
    obtain rfl := Except.ok.inj h
    exact ⟨halive, fun i hi => by simp only [List.filter_true, pick_aliveOf hc hi]⟩
  | some screen =>
    simp only [hscreen] at h
    obtain ⟨b, hb, h⟩ := Checked.bind_eq_ok.1 h
    obtain ⟨passed, hpassed, h⟩ := Checked.bind_eq_ok.1 h
    obtain rfl := Except.ok.inj h
    obtain rfl : b = .bools passed := by
      cases b with
      | bools g => exact congrArg Block.bools (Except.ok.inj hpassed)
      | _ => cases hpassed
    have hshape : passed.shape = (c.outputRows, c.sids.length) := shape_trimmed hc hx hs hb
    refine ⟨(Grid.shape_zipWith _ (halive.trans hshape.symm)).trans halive, fun i hi => ?_⟩
    have hlen : ((aliveOf c).row i).length = c.sids.length := by
      rw [Grid.length_row ((Grid.shape_eq.1 halive).1.symm ▸ hi)]
      exact (Grid.shape_eq.1 halive).2
    simp only
    rw [Grid.row_zipWith, pick_and (p := fun sid => ((value screen
      (w.date (start + c.history + i), sid)).bind Scalar.asBool?).getD false) hlen, pick_aliveOf hc hi]
    intro j sid hj
    obtain ⟨v, hget⟩ := Option.isSome_iff_exists.1 (Grid.isSome_get?.2
      ⟨(Grid.shape_eq.1 hshape).1.symm ▸ hi,
        (Grid.shape_eq.1 hshape).2.symm ▸ (List.getElem?_eq_some_iff.1 hj).1⟩ : (passed.get? i j).isSome = true)
    rw [Grid.getElem?_row, hv screen _ hb i hi j sid hj, Block.get?, hget]
    rfl

/-- The rows of the output sessions of a chunk. -/
def rowsOn (p : Plan) (w : World) (value : Nat → Date × Sid → Option Scalar) (r : Nat) : List (Date × Sid) :=
  (p.passingOn w value r).map (w.date r, ·)

/-- A chunk that is put together shows the living assets that pass, session by session. -/
theorem assemble_shows (hc : c.Covers w start) (hx : ∀ n, (p.extraOf n).toNat ≤ c.history) (hs : p.Shaped c ws)
    (hv : p.Reads c w start ws value) {part : Result} (h : p.assemble c ws = .ok part) :
    part.Shows p.graph.outputs value ((outputSessions c start).flatMap (p.rowsOn w value)) := by
  rw [assemble_eq] at h
  obtain ⟨keep, hkeep, h⟩ := Checked.bind_eq_ok.1 h
  obtain ⟨hshape, hpick⟩ := keepOf_reads hc hx hs hv hkeep
  obtain ⟨keys, hkeys⟩ : ∃ keys, keys = (outputSessions c start).flatMap fun r =>
    (p.passingOn w value r).map (r, ·) := ⟨_, rfl⟩
  have hcells : List.Forall₂ (CellIs c start) (cellsOf keep) keys := hkeys ▸ cellsOf_spec hshape hpick
  have hrows : (outputSessions c start).flatMap (p.rowsOn w value) = keys.map fun k => (w.date k.1, k.2) := by
    rw [hkeys, List.map_flatMap]
    refine List.flatMap_congr fun r _ => ?_
    rw [List.map_map]
    rfl
  rw [hrows]
  obtain ⟨columns, hcolumns, h⟩ := Checked.bind_eq_ok.1 h
  obtain ⟨-, -, hpart⟩ := Result.mk?_eq_ok.1 (Checked.mapError_eq_ok.1 h)
  have hdates : (cellsOf keep).filterMap ((c.dates.drop c.history).toArray[·.1]?) =
      keys.map fun k => w.date k.1 := by
    refine Checked.filterMap_eq_map hcells fun cell key ⟨hi, hr, _⟩ => ?_
    rw [Chunk.outputRows] at hi
    rw [List.getElem?_toArray, List.getElem?_drop, hc.date _ (by omega), hr, Nat.add_assoc]
  have hsids : (cellsOf keep).filterMap (c.sids.toArray[·.2]?) = keys.map Prod.snd := by
    refine Checked.filterMap_eq_map hcells fun cell key ⟨_, _, hj⟩ => ?_
    rw [List.getElem?_toArray, hj]
  rw [← hpart]
  refine ⟨?_, ?_, ?_⟩
  · rw [List.map_map]
    exact hdates
  · rw [List.map_map]
    exact hsids
  · refine (Checked.mapM_eq_ok.1 hcolumns).flip.imp fun x o hxo => ?_
    obtain ⟨b, hb, hx'⟩ := Checked.bind_eq_ok.1 hxo
    obtain rfl := Except.ok.inj hx'
    have hbshape := shape_trimmed hc hx hs hb
    have hnrows : b.nrows = c.outputRows := congrArg Prod.fst hbshape
    have hncols : b.ncols = c.sids.length := congrArg Prod.snd hbshape
    have hcell : ∀ cell ∈ cellsOf keep, (b.get? cell.1 cell.2).isSome = true := by
      intro cell hcell
      obtain ⟨key, -, hi, -, hj⟩ := Checked.exists_right hcells hcell
      exact Block.isSome_get?.2 ⟨hnrows ▸ hi, hncols ▸ (List.getElem?_eq_some_iff.1 hj).1⟩
    refine ⟨rfl, ?_⟩
    rw [Values.toScalars_gather hcell, List.map_map, ← List.forall₂_eq_eq_eq, List.forall₂_map_left_iff,
      List.forall₂_map_right_iff]
    refine hcells.imp fun cell key ⟨hi, hr, hj⟩ => ?_
    rw [Function.comp_apply, hr]
    exact (hv o.2 b hb cell.1 hi cell.2 key.2 hj).symm

end Plan

/-! ## Sessions of a range -/

namespace Calendar

variable {c : Calendar} {start stop d : Date}

theorem WellFormed.lt_of_lt (hc : c.WellFormed) {i j : Nat} {a b : Date} (hi : c.sessions[i]? = some a)
    (hj : c.sessions[j]? = some b) (hij : i < j) : a < b := by
  obtain ⟨hi', rfl⟩ := Array.getElem?_eq_some_iff.1 hi
  obtain ⟨hj', rfl⟩ := Array.getElem?_eq_some_iff.1 hj
  exact List.pairwise_iff_getElem.1 hc.ascending i j hi' hj' hij

/-- A session is found by its date. -/
theorem WellFormed.index?_eq (hc : c.WellFormed) {k : Nat} (hk : c.sessions[k]? = some d) : c.index? d = some k := by
  have hlt := (partitionPoint_lt hc.ascending d).2
  have hsize := (Array.getElem?_eq_some_iff.1 hk).1
  have hcount : c.countBefore d = k := by
    rcases Nat.lt_trichotomy (c.countBefore d) k with h | h | h
    · have hget : c.sessions[c.countBefore d]? = some _ := Array.getElem?_eq_getElem (by omega)
      exact absurd ((hlt _ _ hget).1 (hc.lt_of_lt hget hk h)) (Nat.lt_irrefl _)
    · exact h
    · exact absurd ((hlt k d hk).2 h) (Date.lt_irrefl d)
  rw [index?]
  simp only [hcount]
  exact if_pos hk

theorem ascending_sessionsIn (hc : c.WellFormed) : Ascending (c.sessionsIn start stop) := by
  rw [sessionsIn, Array.toList_extract, List.extract_eq_take_drop]
  exact List.Pairwise.take (List.Pairwise.drop hc.ascending)

/-- The sessions of a range are the sessions on its days. -/
theorem mem_sessionsIn (hc : c.WellFormed) :
    d ∈ c.sessionsIn start stop ↔ d ∈ c.sessions ∧ start ≤ d ∧ d ≤ stop := by
  obtain ⟨hle, hlt⟩ := partitionPoint_lt hc.ascending start
  obtain ⟨hle', hthrough⟩ := partitionPoint_le hc.ascending stop
  have hget (k : Nat) : (c.sessionsIn start stop)[k]? =
      if k < min (c.countThrough stop) c.sessions.size - c.countBefore start then
        c.sessions[c.countBefore start + k]? else none := by
    rw [sessionsIn, Array.getElem?_toList, Array.getElem?_extract]
  constructor
  · intro hd
    obtain ⟨k, hk⟩ := List.getElem?_of_mem hd
    rw [hget] at hk
    split at hk
    · rename_i hlen
      refine ⟨Array.mem_of_getElem? hk, ?_, (hthrough _ d hk).2 ?_⟩
      · have hnot : ¬d < start := fun h => by
          have := (hlt _ d hk).1 h
          have : partitionPoint (· < start) c.sessions = c.countBefore start := rfl
          omega
        rw [Date.le_iff]
        rw [Date.lt_iff] at hnot
        omega
      · show c.countBefore start + k < c.countThrough stop
        omega
    · cases hk
  · rintro ⟨hd, hlow, hhigh⟩
    obtain ⟨i, hi⟩ := Array.getElem?_of_mem hd
    have hsize := (Array.getElem?_eq_some_iff.1 hi).1
    have hfrom : c.countBefore start ≤ i := by
      refine Nat.le_of_not_lt fun h => ?_
      have := (hlt i d hi).2 h
      rw [Date.lt_iff] at this
      rw [Date.le_iff] at hlow
      omega
    have hto : i < c.countThrough stop := (hthrough i d hi).1 hhigh
    refine List.mem_of_getElem? (i := i - c.countBefore start) ?_
    rw [hget, if_pos (by omega), Nat.add_sub_cancel' hfrom]
    exact hi

end Calendar

namespace Engine

variable {e : Engine} {pipeline : Pipeline} {job : Job} {start stop : Date} {size : Nat} {p : Plan}
  {first last : Nat} {alive : Date → Sid → Bool}

/-- The sessions of a range that has some, in order. -/
theorem sessionsIn_eq {calendar : Calendar} (hc : calendar.WellFormed)
    (h : sessionRange? calendar start stop = some (first, last)) : calendar.sessionsIn start stop =
      (List.range' first (last + 1 - first)).map fun r => calendar.sessions.getD r ⟨0⟩ := by
  obtain ⟨-, hl, hlow, hhigh⟩ := sessionRange?_spec hc h
  have hget {r : Nat} (hr : r < calendar.sessions.size) :
      calendar.sessions[r]? = some (calendar.sessions.getD r ⟨0⟩) := by
    rw [Array.getElem?_eq_getElem hr, Array.getD_eq_getD_getElem?, Array.getElem?_eq_getElem hr]
    rfl
  have : Std.Irrefl fun a b : Date => a < b := ⟨Date.lt_irrefl⟩
  have : Std.Antisymm fun a b : Date => a < b :=
    ⟨fun a b h h' => absurd (Int.lt_trans h h') (Int.lt_irrefl _)⟩
  refine List.Pairwise.eq_of_mem_iff (r := (· < ·)) (Calendar.ascending_sessionsIn hc)
    (List.pairwise_map.2 (List.Pairwise.imp_of_mem ?_ List.pairwise_lt_range')) fun d => ?_
  · intro i j hi hj hij
    have hi := List.mem_range'_1.1 hi
    have hj := List.mem_range'_1.1 hj
    exact hc.lt_of_lt (hget (by omega)) (hget (by omega)) hij
  · rw [Calendar.mem_sessionsIn hc, List.mem_map]
    constructor
    · rintro ⟨hd, hs⟩
      obtain ⟨r, hr⟩ := Array.getElem?_of_mem hd
      have hsize := (Array.getElem?_eq_some_iff.1 hr).1
      have := (hlow r d hr).1 hs.1
      have := (hhigh r d hr).1 hs.2
      exact ⟨r, List.mem_range'_1.2 (by omega), Option.some.inj ((hget hsize).symm.trans hr)⟩
    · rintro ⟨r, hr, rfl⟩
      have hr := List.mem_range'_1.1 hr
      have hr' := hget (r := r) (by omega)
      exact ⟨Array.mem_of_getElem? hr', (hlow r _ hr').2 (by omega), (hhigh r _ hr').2 (by omega)⟩

/-- There are none in a range that has none. -/
theorem sessionsIn_eq_nil {calendar : Calendar} (hc : calendar.WellFormed)
    (h : sessionRange? calendar start stop = none) : calendar.sessionsIn start stop = [] := by
  refine List.eq_nil_iff_forall_not_mem.2 fun d hd => ?_
  obtain ⟨hmem, hrange⟩ := (Calendar.mem_sessionsIn hc).1 hd
  obtain ⟨r, hr⟩ := Array.getElem?_of_mem hmem
  exact sessionRange?_eq_none hc h hr hrange

/-! ## What a run computes -/

/-- The value that a chunk computes for a node in one of its output rows. -/
def cellOf? (e : Engine) (p : Plan) (c : Chunk) (node i : Nat) (sid : Sid) : Option Scalar := do
  let ws ← ((e.evaluated p c).run.run []).1.toOption
  let b ← (p.trimmed c ws node).toOption
  b.get? i (← c.sids.idxOf? sid)

/-- The value that a run computes for a node on a date for an asset: that of the chunk in
which the session on the date lies. -/
def computed? (e : Engine) (job : Job) (start stop : Date) (size : Nat) (node : Nat) (row : Date × Sid) :
    Option Scalar := do
  let (first, last) ← sessionRange? job.calendar start stop
  let p ← (Plan.of? job.graph job.calendar.sessions.size first last).toOption
  let r ← job.calendar.index? row.1
  let x := rangeOf (chunkRanges size first last) r
  e.cellOf? p (e.chunkOf p job.domain job.calendar.sessions (e.assetsFor p) x.1 x.2) node (r - x.1) row.2

theorem idxOf?_eq_some {sids : List Sid} (hn : sids.Nodup) {j : Nat} {sid : Sid} (hj : sids[j]? = some sid) :
    sids.idxOf? sid = some j := by
  obtain ⟨hlt, rfl⟩ := List.getElem?_eq_some_iff.1 hj
  rw [List.idxOf?, List.findIdx?_eq_some_iff_getElem]
  refine ⟨hlt, beq_self_eq_true _, fun i hi h => ?_⟩
  exact absurd (List.pairwise_iff_getElem.1 hn i j (by omega) hlt hi) (not_not_intro (beq_iff_eq.1 h))

section Chunks

variable {sessions : Array Date} {sids : List Sid} {domain : Domain} {value : Nat → Date × Sid → Option Scalar}

/-- The days of a run, and nothing that is known on them. -/
def days (p : Plan) (sessions : Array Date) (sids : List Sid) (alive : Date → Sid → Bool) : World :=
  chunkWorld p sessions sids alive (fun _ _ => none) 0 0

/-- A chunk of a run that ends well shows the living assets that pass, session by session. -/
theorem chunk_shows (hu : e.assets.Pointwise alive) (hn : sids.Nodup) (hsmall : sessions.size < 0x4000000000000000)
    (hserve : ∀ x ∈ p.graph.columns, (e.loaders.serving? x.2).isSome = true) {x : Nat × Nat}
    (hextra : ∀ node, (p.extraOf node).toNat ≤ x.1) (hx : x.1 ≤ x.2) (hl : x.2 < sessions.size)
    (hvalue : ∀ node r sid, x.1 ≤ r → r ≤ x.2 → value node (sessions.getD r ⟨0⟩, sid) =
      e.cellOf? p (e.chunkOf p domain sessions sids x.1 x.2) node (r - x.1) sid)
    {part : Result} (h : (e.runChunk p (e.chunkOf p domain sessions sids x.1 x.2)).Is (.ok part)) :
    part.Shows p.graph.outputs value
      ((List.range' x.1 (x.2 + 1 - x.1)).flatMap (p.rowsOn (days p sessions sids alive) value)) := by
  obtain ⟨c, hc⟩ : ∃ c, c = e.chunkOf p domain sessions sids x.1 x.2 := ⟨_, rfl⟩
  have hmax : p.maxExtra.toNat ≤ x.1 := Plan.maxExtra_le hextra
  have hcovers : c.Covers (days p sessions sids alive) (startOf p x.1) :=
    hc ▸ chunkOf_covers hu hn hsmall hmax hx hl (fun _ => rfl) fun _ => rfl
  have hhistory : startOf p x.1 + c.history = x.1 := by
    rw [hc, history_chunkOf, startOf]
    omega
  have houtput : c.outputRows = x.2 + 1 - x.1 := by
    rw [Chunk.outputRows, hc, length_dates_chunkOf hl, history_chunkOf, startOf]
    omega
  have hdeep : ∀ node, (p.extraOf node).toNat ≤ c.history := fun node => by
    rw [hc, history_chunkOf]
    exact UInt64.le_iff_toNat_le.1 (Plan.extraOf_le_maxExtra node)
  rw [← hc] at h hvalue
  rw [runChunk_eq] at h
  obtain ⟨result, hresult⟩ := e.exists_evaluated p c
  obtain ⟨ws, calls, rfl, h⟩ := hresult.of_bind (h [])
  have hassemble : p.assemble c ws = .ok part := ((Run.is_lift _) calls).symm.trans h
  have hreads : p.Reads c (days p sessions sids alive) (startOf p x.1) ws value := by
    intro node b hb i hi j sid hj
    have hdate : (days p sessions sids alive).date (startOf p x.1 + c.history + i) =
        sessions.getD (x.1 + i) ⟨0⟩ := by rw [hhistory]; rfl
    rw [hdate, hvalue node (x.1 + i) sid (by omega) (by omega), Nat.add_sub_cancel_left, cellOf?,
      hresult []]
    show ((p.trimmed c ws node).toOption.bind _) = _
    rw [hb]
    show ((c.sids.idxOf? sid).bind _) = _
    rw [idxOf?_eq_some hcovers.nodup hj]
    rfl
  have := Plan.assemble_shows hcovers hdeep (shaped_evaluated hcovers.mask hserve hresult) hreads hassemble
  rwa [Plan.outputSessions, hhistory, houtput] at this

/-- Each chunk comes to something, whatever the loaders answer. -/
theorem exists_runChunk (e : Engine) (p : Plan) (c : Chunk) : ∃ r, (e.runChunk p c).Is r := by
  rw [runChunk_eq]
  exact Run.exists_bind (e.exists_evaluated p c) fun _ => ⟨_, Run.is_lift _⟩

/-- Chunks that end well have each come to a part. -/
theorem runChunks_eq_ok {ranges : List (Nat × Nat)} {cancelled : Cancellation} {calls : List Call}
    {parts : List Result}
    (h : ((e.runChunks p domain sessions sids cancelled ranges).run.run calls).1 = .ok parts) :
    List.Forall₂ (fun x part => (e.runChunk p (e.chunkOf p domain sessions sids x.1 x.2)).Is (.ok part))
      ranges parts := by
  have hv : ∀ x ∈ ranges, (e.runChunk p (e.chunkOf p domain sessions sids x.1 x.2)).Is
      ((e.runChunk p (e.chunkOf p domain sessions sids x.1 x.2)).run.run []).1 := fun x _ => by
    obtain ⟨result, hresult⟩ := e.exists_runChunk p (e.chunkOf p domain sessions sids x.1 x.2)
    rwa [hresult []]
  obtain ⟨parts', hparts, rfl⟩ := mapM_of_foldlM_stepChunk hv h
  have hmem := (List.forall₂_and_left (p := (· ∈ ranges)) _ _).2 ⟨fun _ hx => hx, Checked.mapM_eq_ok.1 hparts⟩
  exact hmem.imp fun x _ h => h.2 ▸ hv x h.1

end Chunks

/-- What a run computes on a session of a chunk is what the chunk computes. -/
theorem computed?_eq (hc : job.calendar.WellFormed) (hrange : sessionRange? job.calendar start stop = some (first, last))
    (hplan : Plan.of? job.graph job.calendar.sessions.size first last = .ok p) (hl : last < job.calendar.sessions.size)
    {x : Nat × Nat} (hx : x ∈ chunkRanges size first last) {r : Nat} (hr : x.1 ≤ r) (hr' : r ≤ x.2)
    (node : Nat) (sid : Sid) :
    e.computed? job start stop size node (job.calendar.sessions.getD r ⟨0⟩, sid) =
      e.cellOf? p (e.chunkOf p job.domain job.calendar.sessions (e.assetsFor p) x.1 x.2) node (r - x.1) sid := by
  obtain ⟨-, -, hxl⟩ := mem_chunkRanges hx
  have hget : job.calendar.sessions[r]? = some (job.calendar.sessions.getD r ⟨0⟩) := by
    rw [Array.getD_eq_getD_getElem?, Array.getElem?_eq_getElem (by omega)]
    rfl
  unfold computed?
  rw [hrange]
  show ((Plan.of? _ _ first last).toOption.bind _) = _
  rw [hplan]
  show ((job.calendar.index? _).bind _) = _
  rw [hc.index?_eq hget]
  show e.cellOf? p (e.chunkOf p _ _ _ (rangeOf _ r).1 (rangeOf _ r).2) node _ sid = _
  rw [rangeOf_chunkRanges hx ⟨hr, hr'⟩]

/-- A run without sessions shows no rows. -/
theorem emptyResult_shows (hb : pipeline.Built) (hg : pipeline.graph = .ok job.graph)
    (value : Nat → Date × Sid → Option Scalar) : (emptyResult job.graph).Shows job.graph.outputs value [] := by
  rw [emptyResult_eq hb hg fun _ => ⟨fun _ => ⟨0⟩, fun _ => [], fun _ _ _ _ => .label none⟩]
  refine ⟨rfl, rfl, ?_⟩
  rw [show (job.graph.table _ []).columns = job.graph.outputs.map fun o =>
    (o.1, .ofScalars (job.graph.dtypeOf o.2) []) from rfl, List.forall₂_map_left_iff, List.forall₂_same]
  intro o _
  refine ⟨rfl, ?_⟩
  cases job.graph.dtypeOf o.2 <;> rfl

/-- The living assets that pass the screen on each session of a range. -/
def rowsOf (e : Engine) (alive : Date → Sid → Bool) (job : Job) (start stop : Date) (size : Nat) :
    List (Date × Sid) :=
  (job.calendar.sessionsIn start stop).flatMap fun date =>
    ((livingOn alive e.assets.sids date).filter fun sid =>
      job.graph.passesIn (e.computed? job start stop size) (date, sid)).map (date, ·)

/-- A run that ends well shows the living assets that pass, session by session. -/
theorem work_shows (hb : pipeline.Built) (hu : e.assets.Pointwise alive) (hp : e.config.prescreen = false)
    (hj : e.prepare pipeline start stop = .ok job) (hc : job.calendar.WellFormed)
    {cancelled : Cancellation} {calls : List Call} {r : Result}
    (h : ((e.work job start stop size cancelled).run.run calls).1 = .ok r) :
    r.Shows job.graph.outputs (e.computed? job start stop size) (e.rowsOf alive job start stop size) := by
  obtain ⟨-, -, -, hgraph, hserve⟩ := prepare_eq_ok.1 hj
  rcases work_eq_ok h with ⟨hnone, rfl⟩ | ⟨first, last, p, parts, calls', hrange, hplan, hruns, hconcat⟩
  · rw [rowsOf, sessionsIn_eq_nil hc hnone]
    exact emptyResult_shows hb hgraph _
  · obtain ⟨-, hfl, hl, hextra⟩ := Plan.of?_spec hplan
    have hg : p.graph = job.graph := (Plan.sound_of (Pipeline.graph_eq_ok hgraph) hplan).1
    have hassets : e.assetsFor p = e.assets.sids := by
      rw [assetsFor, if_neg (by rw [hp]; exact Bool.false_ne_true)]
    have hparts := runChunks_eq_ok hruns
    have hshows : List.Forall₂ (fun (x : Nat × Nat) part => Result.Shows part job.graph.outputs
        (e.computed? job start stop size) ((List.range' x.1 (x.2 + 1 - x.1)).flatMap
          (p.rowsOn (days p job.calendar.sessions e.assets.sids alive) (e.computed? job start stop size))))
        (chunkRanges size first last) parts := by
      refine ((List.forall₂_and_left (p := (· ∈ chunkRanges size first last)) _ _).2
        ⟨fun _ hx => hx, hparts⟩).imp fun x part hxp => ?_
      obtain ⟨hx, hpart⟩ := hxp
      obtain ⟨hfx, hxx, hxl⟩ := mem_chunkRanges hx
      rw [hassets] at hpart
      refine hg ▸ chunk_shows hu hu.nodup hc.size_lt (hg ▸ hserve)
        (fun node => Nat.le_trans (hextra node) hfx) hxx (by omega) (fun node r sid hr hr' => ?_) hpart
      rw [computed?_eq hc hrange hplan hl hx hr hr', hassets]
    have hne : parts ≠ [] := by
      rintro rfl
      exact chunkRanges_ne_nil hfl (List.forall₂_nil_right_iff.1 hparts)
    have := Result.Shows.concat hshows hne hconcat
    rw [← List.flatMap_assoc, chunkRanges_flatMap] at this
    rw [rowsOf, sessionsIn_eq hc hrange, List.flatMap_map]
    rwa [show p.rowsOn (days p job.calendar.sessions e.assets.sids alive) (e.computed? job start stop size) =
      _ from funext fun r => by rw [Plan.rowsOn, Plan.passingOn, hg]] at this

/-! ## Which rows there are -/

theorem mem_rowsOf {d : Date} {s : Sid} (hc : job.calendar.WellFormed) :
    (d, s) ∈ e.rowsOf alive job start stop size ↔ (d ∈ job.calendar.sessions ∧ start ≤ d ∧ d ≤ stop) ∧
      (s ∈ e.assets.sids ∧ alive d s = true) ∧
      job.graph.passesIn (e.computed? job start stop size) (d, s) = true := by
  rw [rowsOf, List.mem_flatMap, ← Calendar.mem_sessionsIn hc]
  constructor
  · rintro ⟨date, hdate, hrow⟩
    obtain ⟨sid, hsid, heq⟩ := List.mem_map.1 hrow
    obtain ⟨rfl, rfl⟩ := Prod.mk.inj heq
    obtain ⟨halive, hpass⟩ := List.mem_filter.1 hsid
    exact ⟨hdate, List.mem_filter.1 halive, hpass⟩
  · rintro ⟨hdate, halive, hpass⟩
    exact ⟨d, hdate, List.mem_map_of_mem (List.mem_filter.2 ⟨List.mem_filter.2 halive, hpass⟩)⟩

/-- Where the assets ascend, so do the rows. -/
theorem pairwise_rowsOf (hc : job.calendar.WellFormed) (ha : e.assets.sids.Pairwise (· < ·)) :
    (e.rowsOf alive job start stop size).Pairwise RowBefore := by
  rw [rowsOf]
  refine List.pairwise_flatMap.2 ⟨fun date _ => ?_, List.Pairwise.imp ?_ (Calendar.ascending_sessionsIn hc)⟩
  · exact List.pairwise_map.2 (((ha.filter _).filter _).imp fun h => .inr ⟨rfl, h⟩)
  · intro a b hab x hx y hy
    obtain ⟨s, -, rfl⟩ := List.mem_map.1 hx
    obtain ⟨s', -, rfl⟩ := List.mem_map.1 hy
    exact .inl hab

/-- A result is exactly what a run over lifetimes has to come to. -/
structure RowsExact (e : Engine) (m : Lifetimes) (pipeline : Pipeline) (job : Job) (start stop : Date)
    (size : Nat) (r : Result) : Prop where
  sizes : r.sids.size = r.dates.size
  /-- The rows ascend, so that there are none twice. -/
  ascending : r.keys.Pairwise RowBefore
  /-- There is a row for each session of the range and each asset that an interval covers
  and the screen passes, and there are no others. -/
  mem_keys : ∀ d s, (d, s) ∈ r.keys ↔ (d ∈ job.calendar.sessions ∧ start ≤ d ∧ d ≤ stop) ∧ m.Covers s d ∧
    ∀ screen, job.graph.screen = some screen → e.computed? job start stop size screen (d, s) = some (.bool true)
  names : r.names = pipeline.columns.names
  lengths : ∀ x ∈ r.columns, x.2.length = r.keys.length
  /-- The value stored in a row is found by the date and the asset of the row. -/
  stored : ∀ (i : Nat) (d : Date) (s : Sid), r.keys[i]? = some (d, s) → ∀ x ∈ r.columns,
    ∃ v, x.2.get? i = some v ∧ r.value? d s x.1 = some v
  /-- It is what has been computed. -/
  computed : ∀ o ∈ job.graph.outputs, ∀ row ∈ r.keys,
    r.value? row.1 row.2 o.1 = e.computed? job start stop size o.2 row
  /-- No other date, asset or name has a value. -/
  absent : ∀ d s name, (d, s) ∉ r.keys ∨ name ∉ pipeline.columns.names → r.value? d s name = none

/-- A run over lifetimes, without narrowing, has exactly the rows it has to have, in their
order, and each value is found by date, asset and name. -/
theorem rows_exact {m : Lifetimes} (hb : pipeline.Built) (hm : m.Ordered) (ha : e.assets = m.toUniverse)
    (hp : e.config.prescreen = false) (hc : ∀ domain calendar, pipeline.domainOr e.domain = .ok domain →
      domain.calendar? = some calendar → calendar.WellFormed)
    {cancelled : Cancellation} {calls : List Call} {r : Result}
    (h : ((e.runChunked pipeline start stop size cancelled).run.run calls).1 = .ok r) :
    ∃ job, e.prepare pipeline start stop = .ok job ∧ e.RowsExact m pipeline job start stop size r := by
  obtain ⟨-, job, calls', hj, hwork⟩ := runChunked_of_ok h
  obtain ⟨-, hdomain, hcalendar, hgraph, -⟩ := prepare_eq_ok.1 hj
  have hwell := hc _ _ hdomain (calendarFor_eq_ok.1 hcalendar).1
  have hu : e.assets.Pointwise fun date sid => m.isAlive sid date := ha ▸ m.pointwise hm
  have hshows := work_shows hb hu hp hj hwell hwork
  have hsids : e.assets.sids = m.map Prod.fst := by rw [ha]; rfl
  have hpairwise : (e.rowsOf (fun date sid => m.isAlive sid date) job start stop size).Pairwise RowBefore :=
    pairwise_rowsOf hwell (hsids ▸ List.pairwise_map.2 hm)
  have hordered := ordered_outputs hb hgraph
  have hrows := hshows.keys_eq
  have hlength : r.length = r.keys.length := by
    rw [Result.length, ← Array.length_toList, hshows.dates, List.length_map, hrows]
  refine ⟨job, hj, ?_, hrows ▸ hpairwise, fun d s => ?_, hshows.names.trans (names_outputs hgraph),
    fun x hx => (hshows.length_column hx).trans hlength, fun i d s hi x hx => ?_, fun o ho row hrow => ?_,
    fun d s name hno => ?_⟩
  · rw [← Array.length_toList, ← Array.length_toList, hshows.sids, hshows.dates, List.length_map, List.length_map]
  · rw [hrows, mem_rowsOf hwell, TermGraph.passesIn_iff, ← m.isAlive_iff hm]
    refine and_congr_right fun _ => and_congr_left fun _ => and_iff_right_of_imp fun halive => ?_
    obtain ⟨x, hx, rfl, -⟩ := (m.isAlive_iff hm).1 halive
    exact hsids ▸ List.mem_map_of_mem hx
  · have hlt : i < x.2.toScalars.length := by
      rw [Values.length_toScalars, hshows.length_column hx, hlength]
      exact (List.getElem?_eq_some_iff.1 hi).1
    rw [Result.value?_of_getElem? (hrows ▸ hpairwise) (hshows.ordered hordered) hi hx, Values.get?_eq]
    exact ⟨_, List.getElem?_eq_getElem hlt, List.getElem?_eq_getElem hlt⟩
  · exact (hshows.value?_eq hpairwise hordered (hrows ▸ hrow) ho).1
  · exact hshows.value?_eq_none hpairwise (hno.imp (fun h => hrows ▸ h) fun h => (names_outputs hgraph).symm ▸ h)

/-! A market of three days, on which the second asset is not alive on the first, and a
screen for that asset. -/

/-- Three days in a row. -/
def threeDays : Calendar := ⟨"THREE", #[⟨0⟩, ⟨1⟩, ⟨2⟩]⟩

theorem threeDays_wellFormed : threeDays.WellFormed := ⟨by unfold Ascending; decide, by decide⟩

/-- An asset that is alive throughout and one that begins a day later, in two intervals. -/
def twoLives : Lifetimes := [(⟨1⟩, [(⟨0⟩, ⟨2⟩)]), (⟨2⟩, [(⟨1⟩, ⟨1⟩), (⟨2⟩, ⟨2⟩)])]

theorem twoLives_ordered : twoLives.Ordered := by
  unfold Lifetimes.Ordered
  decide

/-- An engine without loaders that does not narrow. -/
def bareEngine : Engine := ⟨.empty, twoLives.toUniverse, .market "M" threeDays, { prescreen := false }⟩

theorem bareEngine_wellFormed {domain : Domain} {calendar : Calendar}
    (hmarket : pipeline.domainOr bareEngine.domain = .ok (.market "M" threeDays))
    (hdomain : pipeline.domainOr bareEngine.domain = .ok domain) (hcalendar : domain.calendar? = some calendar) :
    calendar.WellFormed := by
  obtain rfl := Except.ok.inj (hmarket.symm.trans hdomain)
  obtain rfl := Option.some.inj hcalendar
  exact threeDays_wellFormed

/-- The filter of the second asset. -/
def secondAsset : Term := .mk ⟨.staticAssets [⟨2⟩], .filter, .bool, .bool false, 0, .generic, true⟩ [] none

/-- Whether assets exist, where the second asset is. -/
def screenedPipeline : Pipeline := { columns := [("alive", Term.assetExists)], screen := some ⟨secondAsset⟩ }

theorem secondAsset_built : secondAsset.Built :=
  .draft { kind := .staticAssets [⟨2⟩], role := .filter, dtype := .bool, windowSafe := true } _ rfl nofun nofun rfl

theorem screenedPipeline_built : screenedPipeline.Built where
  ordered := List.pairwise_singleton _ _
  terms t ht := by
    rcases List.mem_cons.1 ht with rfl | ht
    · exact .assetExists
    · obtain rfl := List.mem_singleton.1 ht
      exact secondAsset_built

/-- A run in chunks of one session over the three days. -/
theorem rows_exact_screened :
    ((bareEngine.runChunked screenedPipeline ⟨0⟩ ⟨2⟩ 1 .never).run.run []).1 =
      .ok ⟨#[⟨1⟩, ⟨2⟩], #[⟨2⟩, ⟨2⟩], [("alive", .bools [true, true])]⟩ ∧
    ∃ job, bareEngine.prepare screenedPipeline ⟨0⟩ ⟨2⟩ = .ok job ∧
      bareEngine.RowsExact twoLives screenedPipeline job ⟨0⟩ ⟨2⟩ 1
        ⟨#[⟨1⟩, ⟨2⟩], #[⟨2⟩, ⟨2⟩], [("alive", .bools [true, true])]⟩ := by
  have hrun : ((bareEngine.runChunked screenedPipeline ⟨0⟩ ⟨2⟩ 1 .never).run.run []).1 =
      .ok ⟨#[⟨1⟩, ⟨2⟩], #[⟨2⟩, ⟨2⟩], [("alive", .bools [true, true])]⟩ := by cbv
  exact ⟨hrun, rows_exact screenedPipeline_built twoLives_ordered rfl rfl
    (fun _ _ => bareEngine_wellFormed rfl) hrun⟩

end Engine
end AsOf
