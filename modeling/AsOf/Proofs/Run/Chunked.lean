import AsOf.Proofs.Calendar
import AsOf.Proofs.Run.Assemble
import AsOf.Proofs.Run.Given
import Mathlib.Data.List.Sort

/-!
# From chunks to a run

The chunks of a run cover its sessions one after the other. Each of them is a stretch of
one world, so that a run that succeeds is the table of that world, whatever the size of
its chunks and whichever assets each of them carries.

* `chunkRanges_flatMap`: the chunks partition the sessions.
* `Engine.chunkOf_covers`: a chunk covers the sessions it is made for.
* `Engine.runChunk_spec`: one chunk.
* `Engine.runChunks_spec`: all chunks, one after the other.
-/
namespace AsOf

/-! ## Ranges -/

theorem mem_chunkRanges {size first last : Nat} {x : Nat × Nat} (h : x ∈ chunkRanges size first last) :
    first ≤ x.1 ∧ x.1 ≤ x.2 ∧ x.2 ≤ last := by
  fun_induction chunkRanges size first last with
  | case1 first hle stop ih =>
    have hstop : first ≤ stop ∧ stop ≤ last := by
      show first ≤ min _ _ ∧ min _ _ ≤ last
      omega
    rcases List.mem_cons.1 h with rfl | h
    · exact ⟨Nat.le_refl _, hstop.1, hstop.2⟩
    · have := ih h
      omega
  | case2 => cases h

/-- The chunks partition the sessions, in order. -/
theorem chunkRanges_flatMap (size first last : Nat) :
    (chunkRanges size first last).flatMap (fun x => List.range' x.1 (x.2 + 1 - x.1)) =
      List.range' first (last + 1 - first) := by
  fun_induction chunkRanges size first last with
  | case1 first hle stop ih =>
    have hstop : first ≤ stop ∧ stop ≤ last := by
      show first ≤ min _ _ ∧ min _ _ ≤ last
      omega
    rw [List.flatMap_cons, ih]
    have happend := List.range'_append_1 (s := first) (m := stop + 1 - first)
      (n := last + 1 - (stop + 1))
    rwa [show first + (stop + 1 - first) = stop + 1 by omega,
      show stop + 1 - first + (last + 1 - (stop + 1)) = last + 1 - first by omega] at happend
  | case2 first hle =>
    rw [List.flatMap_nil, show last + 1 - first = 0 by omega]
    rfl

/-! ## The assets of a chunk -/

/-- Whether an asset is alive depends on the day and on the asset alone. -/
structure Universe.Pointwise (u : Universe) (alive : Date → Sid → Bool) : Prop where
  nodup : u.sids.Nodup
  alive : ∀ dates sids, u.alive dates sids =
    .ofFn dates.length sids.length fun i j => alive (dates.get i) (sids.get j)

/-- The assets of a run that are alive on a day, in order. -/
def livingOn (alive : Date → Sid → Bool) (sids : List Sid) (date : Date) : List Sid :=
  sids.filter (alive date)

theorem row_alive {u : Universe} {alive : Date → Sid → Bool} (hu : u.Pointwise alive) {dates : List Date}
    {sids : List Sid} {i : Nat} {d : Date} (hd : dates[i]? = some d) :
    (u.alive dates sids).row i = sids.map (alive d) := by
  obtain ⟨hi, rfl⟩ := List.getElem?_eq_some_iff.1 hd
  refine List.ext_getElem? fun j => ?_
  rw [Grid.getElem?_row, hu.alive, Grid.get?_ofFn, List.getElem?_map]
  by_cases hj : j < sids.length
  · rw [dif_pos ⟨hi, hj⟩, List.getElem?_eq_getElem hj]
    rfl
  · rw [dif_neg fun h => hj h.2, List.getElem?_eq_none (by omega)]
    rfl

namespace Engine

variable {e : Engine} {p : Plan} {domain : Domain} {sessions : Array Date} {sids : List Sid}
  {alive : Date → Sid → Bool} {first last : Nat}

/-- The session of the first row of the chunk that ends the range `first` to `last`. -/
def startOf (p : Plan) (first : Nat) : Nat := first - p.maxExtra.toNat

theorem dates_chunkOf : (e.chunkOf p domain sessions sids first last).dates =
    (sessions.extract (startOf p first) (last + 1)).toList := rfl

theorem history_chunkOf : (e.chunkOf p domain sessions sids first last).history = p.maxExtra.toNat := rfl

theorem length_dates_chunkOf (hl : last < sessions.size) :
    (e.chunkOf p domain sessions sids first last).dates.length = last + 1 - startOf p first := by
  rw [dates_chunkOf, Array.length_toList, Array.size_extract, Nat.min_eq_left (by omega)]

theorem getElem?_dates_chunkOf (hl : last < sessions.size) {i : Nat} (hi : i < last + 1 - startOf p first) :
    (e.chunkOf p domain sessions sids first last).dates[i]? =
      some (sessions.getD (startOf p first + i) ⟨0⟩) := by
  rw [dates_chunkOf, Array.getElem?_toList, Array.getElem?_extract, if_pos (by omega),
    Array.getD_eq_getD_getElem?, Array.getElem?_eq_getElem (by omega)]
  rfl

/-- Which assets are alive on some day of the chunk. -/
def carried (alive : Date → Sid → Bool) (dates : List Date) (sids : List Sid) : List Bool :=
  sids.map fun sid => dates.any (alive · sid)

theorem getElem?_carried {dates : List Date} {j : Nat} {sid : Sid} (hj : sids[j]? = some sid) :
    (carried alive dates sids)[j]? = some (dates.any (alive · sid)) := by
  rw [carried, List.getElem?_map, hj]
  rfl

theorem places_carried (hu : e.assets.Pointwise alive) (dates : List Date) :
    (List.range sids.length).filter (fun j => ((e.assets.alive dates sids).column j).any id) =
      places (carried alive dates sids) := by
  refine List.Pairwise.eq_of_mem_iff (r := (· < ·)) (List.pairwise_lt_range.filter _)
    (pairwise_placesFrom 0 _) fun j => ?_
  rw [List.mem_filter, List.mem_range, mem_places]
  by_cases hj : j < sids.length
  · rw [getElem?_carried (List.getElem?_eq_getElem hj), Option.some_inj, List.any_eq_true, List.any_eq_true]
    constructor
    · rintro ⟨-, x, hx, rfl⟩
      obtain ⟨i, hi⟩ := List.getElem?_of_mem hx
      rw [Grid.getElem?_column, hu.alive, Grid.get?_ofFn] at hi
      split at hi
      · rename_i hij
        exact ⟨dates[i], List.getElem_mem hij.1, Option.some.inj hi⟩
      · cases hi
    · rintro ⟨d, hd, hdj⟩
      obtain ⟨i, hi, rfl⟩ := List.getElem_of_mem hd
      refine ⟨hj, true, ?_, rfl⟩
      refine List.mem_of_getElem? (i := i) ?_
      rw [Grid.getElem?_column, hu.alive, Grid.get?_ofFn, dif_pos ⟨hi, hj⟩]
      exact congrArg some hdj
  · refine ⟨fun h => absurd h.1 hj, fun h => absurd (List.getElem?_eq_some_iff.1 h).1 ?_⟩
    rw [carried, List.length_map]
    exact hj

theorem sids_chunkOf (hu : e.assets.Pointwise alive) :
    (e.chunkOf p domain sessions sids first last).sids =
      pick (carried alive (e.chunkOf p domain sessions sids first last).dates sids) sids := by
  rw [pick_eq_filterMap, ← places_carried hu]
  rfl

theorem mask_chunkOf (hu : e.assets.Pointwise alive) :
    (e.chunkOf p domain sessions sids first last).mask =
      (e.assets.alive (e.chunkOf p domain sessions sids first last).dates sids).selectColumns
        (places (carried alive (e.chunkOf p domain sessions sids first last).dates sids)) := by
  rw [← places_carried hu]
  rfl

/-- A chunk covers the sessions from its history to its last. -/
theorem chunkOf_covers (hu : e.assets.Pointwise alive) (hn : sids.Nodup) (hs : sessions.size < 0x4000000000000000)
    (hx : p.maxExtra.toNat ≤ first) (hle : first ≤ last) (hl : last < sessions.size) {w : World}
    (hdate : ∀ r, w.date r = sessions.getD r ⟨0⟩)
    (hlive : ∀ r, w.live r = livingOn alive sids (w.date r)) :
    (e.chunkOf p domain sessions sids first last).Covers w (startOf p first) := by
  obtain ⟨c, hc⟩ : ∃ c, c = e.chunkOf p domain sessions sids first last := ⟨_, rfl⟩
  have hlen : c.dates.length = last + 1 - startOf p first := hc ▸ length_dates_chunkOf hl
  have hstart : startOf p first = first - p.maxExtra.toNat := rfl
  have hget {i : Nat} (hi : i < c.dates.length) : c.dates[i]? = some (w.date (startOf p first + i)) := by
    rw [hdate, hc]
    exact getElem?_dates_chunkOf hl (hlen ▸ hi)
  have hsids : c.sids = pick (carried alive c.dates sids) sids := hc ▸ sids_chunkOf hu
  have hmask : c.mask = (e.assets.alive c.dates sids).selectColumns (places (carried alive c.dates sids)) :=
    hc ▸ mask_chunkOf hu
  have hflags : (carried alive c.dates sids).length = sids.length := List.length_map _
  have hshape : (e.assets.alive c.dates sids).shape = (c.dates.length, sids.length) := by
    rw [hu.alive]
    rfl
  have hcols : ∀ j ∈ places (carried alive c.dates sids), j < (e.assets.alive c.dates sids).ncols := by
    intro j hj
    rw [(Grid.shape_eq.1 hshape).2, ← hflags]
    exact lt_of_mem_places hj
  rw [← hc]
  refine ⟨?_, by omega, fun i hi => hget hi, ?_, ?_, fun i hi => ?_⟩
  · rw [hlen, hc, history_chunkOf]
    omega
  · rw [hmask, Grid.shape_selectColumns hcols, hsids, length_pick hflags, (Grid.shape_eq.1 hshape).1]
  · rw [hsids, carried, pick_map_self]
    exact hn.filter _
  · have hrow : (c.mask.row i) = pick (carried alive c.dates sids) (sids.map (alive (w.date (startOf p first + i)))) := by
      rw [hmask, Grid.row_selectColumns,
        row_alive hu (hget hi)]
    rw [hrow, hsids, pick_pick_of_le hflags (List.length_map _), pick_map_self, hlive]
    · rfl
    · intro j hj
      rw [List.getElem?_map, Option.map_eq_some_iff] at hj
      obtain ⟨sid, hsid, hj⟩ := hj
      rw [getElem?_carried hsid, Option.some_inj, List.any_eq_true]
      exact ⟨_, List.mem_of_getElem? (hget hi), hj⟩

/-! ## One chunk -/

variable {c : Chunk} {w : World} {start : Nat} {ledger? : List Date → Column → Option Ledger}
  {mayRefuse : Prop}

/-- What a chunk needs to be computed. -/
structure Feasible (e : Engine) (p : Plan) (c : Chunk) (w : World) (start : Nat)
    (ledger? : List Date → Column → Option Ledger) : Prop where
  loadable : Run.Loadable e.loaders p c ledger?
  computable : p.AllComputable c w start
  screen : p.ScreenIsBool

/-- A chunk comes to the table of its output sessions, if it can be computed. -/
theorem runChunk_spec (hs : p.Scheduled c w start) (hdates : Ascending c.dates)
    (hk : e.loaders.Keep p.graph.Asks ledger? mayRefuse) (ht : c.Tells p w start ledger?)
    (hserve : ∀ x ∈ p.graph.columns, (e.loaders.serving? x.2).isSome = true) :
    (e.Feasible p c w start ledger? ∧
      (e.runChunk p c).Is (.ok (p.graph.table (fun _ => w) (Plan.outputSessions c start)))) ∨
    ((¬e.Feasible p c w start ledger? ∨ mayRefuse) ∧ ∃ err, (e.runChunk p c).Is (.error err)) := by
  obtain ⟨ws, hseed, hf⟩ := seed_spec (p := p) hs.covers
  have hseeded : (liftM (seed p c) : Run Workspace).Is (.ok ws) := hseed ▸ Run.is_lift _
  rcases Run.loadColumns_spec hs.covers hdates hk ht hserve hf with ⟨hl, ws, hload, hg⟩ | ⟨hl, err, herr⟩
  · rcases Plan.computeAll_spec e.config hs hg with ⟨ha, ws', hcomp, hroots⟩ | ⟨ha, err, herr⟩
    · have hcomputed : (liftM (p.computeAll e.config c ws) : Run Workspace).Is (.ok ws') :=
        hcomp ▸ Run.is_lift _
      have hr : p.Rooted c w start ws' := fun node hn => hroots node (hs.roots node hn) hn
      have hassembled := Run.is_lift (p.assemble c ws')
      rcases Plan.assemble_spec hs.covers hs.deep hr with ⟨hb, hok⟩ | ⟨hb, err, herr⟩
      · rw [hok] at hassembled
        exact .inl ⟨⟨hl, ha, hb⟩, hseeded.bind (hload.bind (hcomputed.bind (hok ▸ hassembled)))⟩
      · rw [herr] at hassembled
        exact .inr ⟨.inl fun h => hb h.screen, err,
          hseeded.bind (hload.bind (hcomputed.bind (herr ▸ hassembled)))⟩
    · have hfailed : (liftM (p.computeAll e.config c ws) : Run Workspace).Is (.error err) :=
        herr ▸ Run.is_lift _
      exact .inr ⟨.inl fun h => ha h.computable, err, hseeded.bind (hload.bind hfailed.bind_error)⟩
  · exact .inr ⟨hl.imp_left fun hno h => hno h.loadable, err, hseeded.bind herr.bind_error⟩

/-! ## All chunks -/

/-- One chunk of a run, put behind those before it. -/
def stepChunk (e : Engine) (p : Plan) (domain : Domain) (sessions : Array Date) (sids : List Sid)
    (cancelled : Cancellation) (parts : List Result) (range : Nat × Nat) : Run (List Result) := do
  if cancelled parts.length (← get) then throw (.cancelled parts.length)
  return parts ++ [← e.runChunk p (e.chunkOf p domain sessions sids range.1 range.2)]

/-- A chunk, put behind those before it, unless the run is found cancelled. -/
def nextChunk (e : Engine) (p : Plan) (cancelled : Cancellation) (parts : List Result) (c : Chunk) :
    Run (List Result) := do
  if cancelled parts.length (← get) then throw (.cancelled parts.length)
  return parts ++ [← e.runChunk p c]

theorem run_nextChunk (cancelled : Cancellation) (parts : List Result) (c : Chunk) (calls : List Call) :
    (e.nextChunk p cancelled parts c).run.run calls =
      if cancelled parts.length calls = true then (.error (.cancelled parts.length), calls)
      else (e.runChunk p c >>= fun part => pure (parts ++ [part])).run.run calls := by
  have hget : ((get : Run (List Call)).run.run calls) = (.ok calls, calls) := rfl
  unfold nextChunk
  rw [Run.run_bind, hget]
  by_cases h : cancelled parts.length calls = true
  · simp only [if_pos h]
    rfl
  · simp only [if_neg h]

theorem run_stepChunk (cancelled : Cancellation) (parts : List Result) (x : Nat × Nat) (calls : List Call) :
    (e.stepChunk p domain sessions sids cancelled parts x).run.run calls =
      if cancelled parts.length calls = true then (.error (.cancelled parts.length), calls)
      else (e.runChunk p (e.chunkOf p domain sessions sids x.1 x.2) >>= fun part =>
        pure (parts ++ [part])).run.run calls :=
  run_nextChunk cancelled parts (e.chunkOf p domain sessions sids x.1 x.2) calls

variable {value : Nat × Nat → Except RunError Result} {ranges : List (Nat × Nat)} {parts parts' : List Result}

/-- A run that nobody cancels comes to what its chunks come to. -/
theorem foldlM_stepChunk
    (hv : ∀ x ∈ ranges, (e.runChunk p (e.chunkOf p domain sessions sids x.1 x.2)).Is (value x)) :
    (ranges.foldlM (e.stepChunk p domain sessions sids .never) parts).Is
      ((ranges.mapM value).map (parts ++ ·)) := by
  induction ranges generalizing parts with
  | nil =>
    rw [List.mapM_nil, List.foldlM_nil]
    show Run.Is _ (.ok (parts ++ []))
    rw [List.append_nil]
    exact Run.is_pure parts
  | cons x ranges ih =>
    have hx := hv x List.mem_cons_self
    have hstep : (e.stepChunk p domain sessions sids .never parts x).Is
        ((value x).map fun part => parts ++ [part]) := by
      intro calls
      rw [run_stepChunk, if_neg (show ¬Cancellation.never parts.length calls = true from
        Bool.false_ne_true)]
      cases hval : value x with
      | ok part => exact (hval ▸ hx).bind (f := fun part => pure (parts ++ [part])) (Run.is_pure _) calls
      | error err => exact (hval ▸ hx).bind_error calls
    rw [List.foldlM_cons, List.mapM_cons]
    cases hval : value x with
    | ok part =>
      rw [hval] at hstep
      have := hstep.bind (f := fun parts =>
        ranges.foldlM (e.stepChunk p domain sessions sids .never) parts) (ih fun y hy => hv y (List.mem_cons_of_mem _ hy))
      cases hrest : ranges.mapM value with
      | ok rest =>
        rw [hrest] at this
        show Run.Is _ (.ok (parts ++ part :: rest))
        rw [List.append_cons]
        exact this
      | error err =>
        rw [hrest] at this
        exact this
    | error err =>
      rw [hval] at hstep
      exact hstep.bind_error

/-- A run that ends well ends with what its chunks come to. -/
theorem mapM_of_foldlM_stepChunk {cancelled : Cancellation}
    (hv : ∀ x ∈ ranges, (e.runChunk p (e.chunkOf p domain sessions sids x.1 x.2)).Is (value x))
    {calls : List Call}
    (h : ((ranges.foldlM (e.stepChunk p domain sessions sids cancelled) parts).run.run calls).1 = .ok parts') :
    ∃ rest, ranges.mapM value = .ok rest ∧ parts' = parts ++ rest := by
  induction ranges generalizing parts calls with
  | nil => exact ⟨[], rfl, by rw [List.append_nil]; exact (Except.ok.inj h).symm⟩
  | cons x ranges ih =>
    have hx := hv x List.mem_cons_self
    rw [List.foldlM_cons, Run.run_bind, run_stepChunk] at h
    by_cases hc : cancelled parts.length calls = true
    · rw [if_pos hc] at h
      cases h
    · rw [if_neg hc, Run.run_bind] at h
      have hval := hx calls
      cases hrun : (e.runChunk p (e.chunkOf p domain sessions sids x.1 x.2)).run.run calls with
      | mk result calls' =>
        rw [hrun] at h hval
        cases result with
        | error err => cases h
        | ok part =>
          obtain ⟨rest, hrest, rfl⟩ := ih (fun y hy => hv y (List.mem_cons_of_mem _ hy)) h
          refine ⟨part :: rest, ?_, (List.append_cons ..).symm⟩
          rw [List.mapM_cons, ← hval, hrest]
          rfl

end Engine
end AsOf
