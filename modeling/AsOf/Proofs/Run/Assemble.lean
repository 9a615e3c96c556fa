import AsOf.Proofs.Result
import AsOf.Proofs.Run.Schedule
import AsOf.Proofs.Table

/-!
# Putting a chunk together

A chunk whose roots hold their strands is put together into the table of its output
sessions, if its screen is of truth values.

* `Values.gather_eq`: the values of some cells, as scalars.
* `Plan.cellsOf_spec`: cells of a mask, as sessions and assets.
* `Plan.assemble_spec`: the table of a chunk.
-/
namespace AsOf

/-! ## Cells -/

/-- What is picked stands at the places of the flags. -/
theorem forall₂_pick {α : Type} {flags : List Bool} {xs : List α} (h : flags.length = xs.length) :
    List.Forall₂ (fun j x => xs[j]? = some x) (places flags) (pick flags xs) := by
  rw [List.forall₂_iff_get]
  refine ⟨(length_pick h).symm, fun k h1 h2 => ?_⟩
  have := getElem?_pick flags xs k
  rw [List.getElem?_eq_getElem h1, List.getElem?_eq_getElem h2, Option.bind_some] at this
  exact this.symm

namespace Values

theorem cellsAt_eq {α : Type} {wrap : α → Scalar} {get : Scalar → α} (hw : ∀ a, get (wrap a) = a)
    {g : Grid α} {cells : List (Nat × Nat)} {xs : List Scalar}
    (h : List.Forall₂ (fun cell x => (g.get? cell.1 cell.2).map wrap = some x) cells xs) :
    cellsAt g cells = xs.map get := by
  induction h with
  | nil => rfl
  | @cons cell x cells xs hx _ ih =>
    obtain ⟨a, ha, rfl⟩ := Option.map_eq_some_iff.1 hx
    have hcons : cellsAt g (cell :: cells) = a :: cellsAt g cells := List.filterMap_cons_some ha
    rw [hcons, ih, List.map_cons, hw]

/-- The values of some cells, if all of them are in the block. -/
theorem gather_eq {b : Block} {cells : List (Nat × Nat)} {xs : List Scalar}
    (h : List.Forall₂ (fun cell x => b.get? cell.1 cell.2 = some x) cells xs) :
    gather b cells = ofScalars b.dtype xs := by
  cases b with
  | floats g => exact congrArg floats (cellsAt_eq (fun _ => rfl) h)
  | ints g => exact congrArg ints (cellsAt_eq (fun _ => rfl) h)
  | bools g => exact congrArg bools (cellsAt_eq (fun _ => rfl) h)
  | times g => exact congrArg times (cellsAt_eq (fun _ => rfl) h)
  | labels a =>
    refine congrArg labels ?_
    induction h with
    | nil => rfl
    | @cons cell x cells xs hx _ ih =>
      obtain ⟨code, hcode, rfl⟩ := Option.map_eq_some_iff.1 hx
      have hcell : a.get? cell.1 cell.2 = a.categories.decode code := by
        rw [Labels.get?, hcode, Option.bind_some]
      rw [List.map_cons, List.map_cons, ih]
      exact congrArg (· :: _) hcell

end Values

namespace Plan

/-- The cells in which a grid is true, row by row. -/
theorem cellsOf_eq (g : Grid Bool) : cellsOf g =
    (List.range g.nrows).flatMap fun i => (places (g.row i)).map (i, ·) := by
  rw [cellsOf, Grid.toLists_eq, List.zipIdx_map, List.flatMap_map]
  rw [show (List.range g.nrows).zipIdx = (List.range g.nrows).map fun i => (i, i) from ?_, List.flatMap_map]
  · refine List.flatMap_congr fun i _ => ?_
    rw [places, placesFrom, List.map_map]
    rfl
  · refine List.ext_getElem? fun k => ?_
    rw [List.getElem?_zipIdx, List.getElem?_map]
    by_cases hk : k < g.nrows
    · rw [List.getElem?_range hk]
      simp
    · rw [List.getElem?_eq_none (by simpa using hk)]
      rfl

variable {p : Plan} {c : Chunk} {w : World} {start : Nat} {ws : Workspace}

/-- The output sessions of a chunk. -/
def outputSessions (c : Chunk) (start : Nat) : List Nat :=
  List.range' (start + c.history) c.outputRows

/-- A cell of the output is a session and an asset. -/
def CellIs (c : Chunk) (start : Nat) (cell : Nat × Nat) (key : Nat × Sid) : Prop :=
  cell.1 < c.outputRows ∧ key.1 = start + c.history + cell.1 ∧ c.sids[cell.2]? = some key.2

/-- Cells of a mask that picks some assets on each session, as sessions and assets. -/
theorem cellsOf_spec {keep : Grid Bool} (hk : keep.shape = (c.outputRows, c.sids.length))
    {passing : Nat → List Sid}
    (hpass : ∀ i < c.outputRows, pick (keep.row i) c.sids = passing (start + c.history + i)) :
    List.Forall₂ (CellIs c start) (cellsOf keep)
      ((outputSessions c start).flatMap fun r => (passing r).map (r, ·)) := by
  rw [cellsOf_eq, (Grid.shape_eq.1 hk).1, outputSessions]
  have hrows : List.Forall₂ (fun i r => i < c.outputRows ∧ r = start + c.history + i)
      (List.range c.outputRows) (List.range' (start + c.history) c.outputRows) := by
    rw [List.range'_eq_map_range, List.forall₂_map_right_iff, List.forall₂_same]
    exact fun i hi => ⟨List.mem_range.1 hi, rfl⟩
  refine List.rel_flatMap hrows fun i r hir => ?_
  obtain ⟨hi, rfl⟩ := hir
  have hlen : (keep.row i).length = c.sids.length := by
    rw [Grid.length_row ((Grid.shape_eq.1 hk).1.symm ▸ hi)]
    exact (Grid.shape_eq.1 hk).2
  rw [← hpass i hi, List.forall₂_map_left_iff, List.forall₂_map_right_iff]
  exact (forall₂_pick hlen).imp fun j sid hj => ⟨hi, rfl, hj⟩

/-! ## Rows of the roots -/

/-- All roots hold their strands. -/
def Rooted (p : Plan) (c : Chunk) (w : World) (start : Nat) (ws : Workspace) : Prop :=
  ∀ node, p.graph.isRoot node = true → ∃ h, ws.get? node = some h ∧
    c.Holds start (p.extraOf node) (p.graph.strand w node) h

theorem isRoot_screen {screen : Nat} (h : p.graph.screen = some screen) : p.graph.isRoot screen = true := by
  rw [TermGraph.isRoot, h, beq_self_eq_true, Bool.true_or]

theorem isRoot_output {output : String × Nat} (h : output ∈ p.graph.outputs) :
    p.graph.isRoot output.2 = true := by
  rw [TermGraph.isRoot, Bool.or_eq_true, List.contains_iff_mem]
  exact .inr (List.mem_map_of_mem h)

/-- The output rows of a root are its strand's. -/
theorem trimmed_spec (hc : c.Covers w start) (hx : ∀ n, (p.extraOf n).toNat ≤ c.history)
    (hr : p.Rooted c w start ws) {node : Nat} (hn : p.graph.isRoot node = true) :
    ∃ b, p.trimmed c ws node = .ok b ∧ b.dtype = p.graph.dtypeOf node ∧
      b.shape = (c.outputRows, c.sids.length) ∧ ∀ i < c.outputRows, ∀ (j : Nat) (sid : Sid),
        c.sids[j]? = some sid →
          b.get? i j = some ((p.graph.strand w node).value (start + c.history + i) sid) := by
  obtain ⟨h, hget, hh⟩ := hr node hn
  obtain ⟨b, hb, hd, -, -, hs, hcell⟩ := Chunk.rows_spec hc hh (a := 0) (Nat.zero_le _) (hx node)
  refine ⟨b, ?_, hd.trans (p.graph.dtype_strand w node), hs, fun i hi j sid hj => ?_⟩
  · rw [trimmed, Workspace.expect, hget]
    exact hb
  · obtain ⟨x, hx, hcell⟩ := hcell i hi
    have hx' : (p.graph.strand w node).row? (start + c.history + i) (start + c.history + i) = some x := hx
    rw [hcell j sid hj, Strand.value, hx']
    rfl

/-- The screen, if there is one, is of truth values. -/
def ScreenIsBool (p : Plan) : Prop :=
  ∀ screen, p.graph.screen = some screen → p.graph.dtypeOf screen = .bool

/-- The living assets of the output rows. -/
def aliveOf (c : Chunk) : Grid Bool := c.mask.sliceRows c.history c.mask.nrows

/-- The rows and assets that are kept. -/
def keepOf (p : Plan) (c : Chunk) (ws : Workspace) : Except RunError (Grid Bool) :=
  match p.graph.screen with
  | some screen => p.trimmed c ws screen >>= fun b => truths b >>= fun passed =>
      .ok ((aliveOf c).zipWith (· && ·) passed)
  | none => .ok (aliveOf c)

theorem shape_aliveOf (hc : c.Covers w start) : (aliveOf c).shape = (c.outputRows, c.sids.length) := by
  have hmask := Grid.shape_eq.1 hc.mask
  rw [aliveOf, Grid.shape_sliceRows, hmask.1, hmask.2, Nat.min_self]
  rfl

theorem pick_aliveOf (hc : c.Covers w start) {i : Nat} (hi : i < c.outputRows) :
    pick ((aliveOf c).row i) c.sids = w.live (start + c.history + i) := by
  rw [Chunk.outputRows] at hi
  rw [aliveOf, Grid.row_sliceRows (by rw [(Grid.shape_eq.1 hc.mask).1]; omega), hc.live _ (by omega),
    Nat.add_assoc]

/-- The assets that are kept are those that pass, if the screen is of truth values. -/
theorem keepOf_spec (hc : c.Covers w start) (hx : ∀ n, (p.extraOf n).toNat ≤ c.history)
    (hr : p.Rooted c w start ws) :
    (p.ScreenIsBool ∧ ∃ keep, p.keepOf c ws = .ok keep ∧ keep.shape = (c.outputRows, c.sids.length) ∧
      ∀ i < c.outputRows, pick (keep.row i) c.sids = p.graph.passing w (start + c.history + i)) ∨
    (¬p.ScreenIsBool ∧ ∃ e, p.keepOf c ws = .error e) := by
  have halive := shape_aliveOf hc
  unfold keepOf ScreenIsBool
  cases hscreen : p.graph.screen with
  | none =>
    refine .inl ⟨nofun, aliveOf c, rfl, halive, fun i hi => ?_⟩
    rw [TermGraph.passing, hscreen, pick_aliveOf hc hi]
  | some screen =>
    obtain ⟨b, hb, hd, hs, hcell⟩ := trimmed_spec hc hx hr (isRoot_screen hscreen)
    simp only [hb]
    by_cases hbool : p.graph.dtypeOf screen = .bool
    · obtain ⟨passed, rfl⟩ : ∃ passed, b = .bools passed := by
        rw [hbool] at hd
        cases b <;> first | exact ⟨_, rfl⟩ | cases hd
      refine .inl ⟨fun s h => ?_, (aliveOf c).zipWith (· && ·) passed, rfl, ?_, fun i hi => ?_⟩
      · rwa [← Option.some.inj h]
      · rw [Grid.shape_zipWith _ (halive.trans (show passed.shape = _ from hs).symm), halive]
      · have hlen : ((aliveOf c).row i).length = c.sids.length := by
          rw [Grid.length_row ((Grid.shape_eq.1 halive).1.symm ▸ hi)]
          exact (Grid.shape_eq.1 halive).2
        rw [Grid.row_zipWith, pick_and (p := fun sid => ((p.graph.strand w screen).value
          (start + c.history + i) sid).asBool?.getD false) hlen, pick_aliveOf hc hi, TermGraph.passing, hscreen]
        intro j sid hj
        have hget : (passed.get? i j).map Scalar.bool = some _ := hcell i hi j sid hj
        obtain ⟨v, hv, hvx⟩ := Option.map_eq_some_iff.1 hget
        rw [Grid.getElem?_row, hv, ← hvx]
        rfl
    · refine .inr ⟨fun h => hbool (h screen rfl), ?_⟩
      cases b with
      | bools g => exact absurd hd.symm hbool
      | _ => exact ⟨_, rfl⟩

/-- The values of all outputs at some cells. -/
def gatherAll (p : Plan) (c : Chunk) (ws : Workspace) (cells : List (Nat × Nat)) :
    Except RunError Result := do
  let columns ← p.graph.outputs.mapM fun (name, node) => do
    return (name, Values.gather (← p.trimmed c ws node) cells)
  (Result.mk? (cells.filterMap ((c.dates.drop c.history).toArray[·.1]?))
    (cells.filterMap (c.sids.toArray[·.2]?)) columns).mapError .output

theorem assemble_eq (p : Plan) (c : Chunk) (ws : Workspace) :
    p.assemble c ws = p.keepOf c ws >>= fun keep => p.gatherAll c ws (cellsOf keep) := by
  unfold assemble keepOf
  cases p.graph.screen with
  | none => rfl
  | some screen =>
    show (p.trimmed c ws screen >>= _) = (p.trimmed c ws screen >>= _) >>= _
    cases p.trimmed c ws screen with
    | error e => rfl
    | ok b =>
      show (truths b >>= _) = (truths b >>= _) >>= _
      cases truths b <;> rfl

/-- The cells of some sessions and assets make up the table of these. -/
theorem gatherAll_spec (hc : c.Covers w start) (hx : ∀ n, (p.extraOf n).toNat ≤ c.history)
    (hr : p.Rooted c w start ws) {cells : List (Nat × Nat)} {keys : List (Nat × Sid)}
    (hk : List.Forall₂ (CellIs c start) cells keys) :
    p.gatherAll c ws cells = .ok (p.graph.tableOf (fun _ => w) keys) := by
  have hdates : cells.filterMap ((c.dates.drop c.history).toArray[·.1]?) =
      keys.map fun k => w.date k.1 := by
    refine Checked.filterMap_eq_map hk fun cell key ⟨hi, hr, _⟩ => ?_
    rw [Chunk.outputRows] at hi
    rw [List.getElem?_toArray, List.getElem?_drop, hc.date _ (by omega), hr, Nat.add_assoc]
  have hsids : cells.filterMap (c.sids.toArray[·.2]?) = keys.map Prod.snd := by
    refine Checked.filterMap_eq_map hk fun cell key ⟨_, _, hj⟩ => ?_
    rw [List.getElem?_toArray, hj]
  have hcolumns : (p.graph.outputs.mapM fun (name, node) => do
      return (name, Values.gather (← p.trimmed c ws node) cells) : Except RunError (List (String × Values))) =
      .ok (p.graph.tableOf (fun _ => w) keys).columns := by
    refine Checked.mapM_of_ok fun output ho => ?_
    obtain ⟨b, hb, hd, -, hcell⟩ := trimmed_spec hc hx hr (isRoot_output ho)
    have hgather : Values.gather b cells = .ofScalars (p.graph.dtypeOf output.2)
        (keys.map fun k => (p.graph.strand w output.2).value k.1 k.2) := by
      rw [← hd]
      refine Values.gather_eq (List.forall₂_map_right_iff.2 (hk.imp fun cell key ⟨hi, hr, hj⟩ => ?_))
      rw [hcell cell.1 hi cell.2 key.2 hj, hr]
    show (p.trimmed c ws output.2 >>= _) = _
    rw [hb]
    exact congrArg (fun values => Except.ok (output.1, values)) hgather
  rw [gatherAll, hcolumns]
  show (Result.mk? _ _ _).mapError _ = _
  rw [hdates, hsids]
  refine Checked.mapError_eq_ok.2 (Result.mk?_eq_ok.2 ⟨?_, fun x hx => ?_, rfl⟩)
  · rw [List.length_map, List.length_map]
  · obtain ⟨output, -, rfl⟩ := List.mem_map.1 hx
    rw [Values.length_ofScalars, List.length_map, List.length_map]

/-- A chunk is put together into the table of its output sessions. -/
theorem assemble_spec (hc : c.Covers w start) (hx : ∀ n, (p.extraOf n).toNat ≤ c.history)
    (hr : p.Rooted c w start ws) :
    (p.ScreenIsBool ∧ p.assemble c ws = .ok (p.graph.table (fun _ => w) (outputSessions c start))) ∨
    (¬p.ScreenIsBool ∧ ∃ e, p.assemble c ws = .error e) := by
  rw [assemble_eq]
  rcases keepOf_spec hc hx hr with ⟨hs, keep, hkeep, hshape, hpass⟩ | ⟨hs, e, he⟩
  · refine .inl ⟨hs, ?_⟩
    rw [hkeep]
    exact gatherAll_spec hc hx hr (cellsOf_spec hshape hpass)
  · exact .inr ⟨hs, e, by rw [he]; rfl⟩

end Plan
end AsOf
