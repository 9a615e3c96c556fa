import AsOf.Proofs.Evaluate.Lasts
import AsOf.Proofs.Graph.Paths
import AsOf.Proofs.Run.Chunked
import AsOf.Proofs.Run.Shape

/-!
# Rows that line up

Where no path of dependencies needs more rows than a word can count, the offset of an edge is
a difference of natural numbers. In a chunk that has the history of every node, the rows of a
node that lie behind the offset of an edge and behind the extra rows of its reader are the
reader's own: a block that the reader cuts out has the reader's rows, and its windows end on
them. What has the shape of its node has as many windows as are read.

* `Plan.exact_of`: the demands of a plan, as natural numbers.
* `Plan.aligned`: what an edge leads to, in a chunk.
* `Plan.ends_computeNode_of_shaped`: computing a node runs out of no window.
-/
namespace AsOf

def RunError.RunsOut : RunError → Prop
  | array e => e.RunsOut
  | eval e => e.RunsOut
  | _ => False

namespace Plan

variable {outputs : Named Term} {screen : Option Term} {g : TermGraph} {p : Plan} {c : Chunk}

/-- What the edges of a plan ask for are sums of natural numbers. -/
structure Exact (p : Plan) : Prop extends p.Sound where
  sum : ∀ node, ∀ e ∈ p.graph.edgesOf node, (p.extraOf node).toNat + e.extraRows.toNat < 0x10000000000000000
  bounded : ∀ node, ∀ e ∈ p.graph.edgesOf node, node < p.size

theorem exact_of (h : TermGraph.of? outputs screen = .ok g) (hw : Countable g) {sessions first last : Nat}
    (hp : of? g sessions first last = .ok p) : p.Exact := by
  obtain ⟨rfl, hs⟩ := sound_of h hp
  obtain ⟨he, -⟩ := of?_spec hp
  have hbounded (node : Nat) (e : Edge) (hmem : e ∈ p.graph.edgesOf node) : node < p.size := by
    by_contra hn
    rw [TermGraph.edgesOf_eq_nil h (Array.getElem?_eq_none (Nat.le_of_not_lt hn))] at hmem
    cases hmem
  refine ⟨hs, fun node e hmem => ?_, hbounded⟩
  have hat := (extraRows_isGreatest h hw (hbounded node e hmem)).1
  have hextra : p.extraOf node = (extraRows p.graph).getD node 0 := by rw [extraOf, he]
  rw [hextra]
  exact hw _ _ (hat.edge hmem)

/-- The offset of an edge is what its node has more than its reader needs. -/
theorem Exact.offset_add (hp : p.Exact) {node : Nat} {e : Edge} (he : e ∈ p.graph.edgesOf node) :
    (p.offsetOf node e).toNat + e.extraRows.toNat + (p.extraOf node).toNat = (p.extraOf e.node).toNat := by
  obtain ⟨hle, hsub⟩ := offset_spec (hp.demand node (hp.bounded node e he) e he) (hp.sum node e he)
  rw [offsetOf, hsub]
  omega

/-! ## Rows in a chunk -/

/-- A chunk has the history of every node, and sessions to put out. -/
structure Fits (p : Plan) (c : Chunk) : Prop where
  output : c.history < c.dates.length
  small : c.dates.length < 0x8000000000000000
  deep : ∀ node, (p.extraOf node).toNat ≤ c.history

/-- What an edge leads to, in a chunk. -/
structure Aligned (p : Plan) (c : Chunk) (node : Nat) (t : Term) (e : Edge) : Prop where
  /-- No difference goes below zero. -/
  offset : (p.offsetOf node e).toNat + e.extraRows.toNat + (p.extraOf node).toNat = (p.extraOf e.node).toNat
  rows : (p.offsetOf node e).toNat + e.extraRows.toNat + c.rowsOf (p.extraOf node) = c.rowsOf (p.extraOf e.node)
  /-- Behind the offset and the extra rows, rows are of the same sessions. -/
  session : ∀ k, (c.datesFrom (p.extraOf e.node))[(p.offsetOf node e).toNat + e.extraRows.toNat + k]? =
    (c.datesFrom (p.extraOf node))[k]?
  /-- A block has the rows of the reader, each as known on it. -/
  block : e.isMask = true ∨ t.window = 0 → e.extraRows = 0 ∧ ∀ h : History, h.Valid → h.shape = p.shapeIn c e.node →
    ∃ b, Plan.rows h (p.offsetOf node e).toNat (c.datesFrom (p.extraOf node)).length = .ok b ∧
      b.shape = p.shapeIn c node ∧ ∀ k < c.rowsOf (p.extraOf node), ∀ j,
        b.get? k j = h.cell? ((p.offsetOf node e).toNat + k) ((p.offsetOf node e).toNat + k) j
  /-- There is a window for each row of the reader, which ends on it. -/
  window : e.isMask = false → t.window ≠ 0 → e.extraRows.toNat + 1 = t.window.toNat ∧
    ∀ h : History, h.shape = p.shapeIn c e.node → ∃ cursor, h.traverse t.window (p.offsetOf node e) 0 = .ok cursor ∧
      cursor.remaining = c.rowsOf (p.extraOf node) ∧
      cursor.Shows (fun k => (h.knownBefore ((p.offsetOf node e).toNat + e.extraRows.toNat + k + 1)).sliceRows
        ((p.offsetOf node e).toNat + k) ((p.offsetOf node e).toNat + e.extraRows.toNat + k + 1))
        (c.rowsOf (p.extraOf node))

/-- What edges lead to lines up. -/
theorem aligned (hp : p.Exact) (hc : p.Fits c) {node : Nat} {t : Term} (ht : p.graph.terms[node]? = some t) {e : Edge}
    (he : e ∈ p.graph.edgesOf node) : p.Aligned c node t e := by
  have hoffset := hp.offset_add he
  have hout := hc.output
  have hsmall := hc.small
  have hrows : (p.offsetOf node e).toNat + e.extraRows.toNat + c.rowsOf (p.extraOf node) =
      c.rowsOf (p.extraOf e.node) := by
    rw [Chunk.rowsOf_eq hout (hc.deep node), Chunk.rowsOf_eq hout (hc.deep e.node)]
    omega
  have hpos : 0 < c.rowsOf (p.extraOf node) := by
    rw [Chunk.rowsOf_eq hout (hc.deep node)]
    omega
  have hle : c.rowsOf (p.extraOf e.node) ≤ c.dates.length := Nat.sub_le _ _
  have hextra := hp.extraRows_eq ht he
  refine ⟨hoffset, hrows, fun k => ?_, fun hblock => ?_, fun hmask hwindow => ?_⟩
  · have := hc.deep e.node
    rw [Chunk.datesFrom, Chunk.datesFrom, List.getElem?_drop, List.getElem?_drop, Chunk.firstRow, Chunk.firstRow]
    congr 1
    omega
  · rw [if_pos hblock] at hextra
    rw [hextra, UInt64.toNat_zero, Nat.add_zero] at hrows
    refine ⟨hextra, fun h hv hshape => ?_⟩
    have hn : h.block.nrows = c.rowsOf (p.extraOf e.node) := congrArg Prod.fst hshape
    have hm : h.block.ncols = c.sids.length := congrArg Prod.snd hshape
    obtain ⟨b, hb, -, -, -, hbs, hget⟩ := History.rowsAsOf_known hv (by omega)
      (by omega : (p.offsetOf node e).toNat + c.rowsOf (p.extraOf node) ≤ h.block.nrows)
    refine ⟨b, by rw [Plan.rows, Chunk.length_datesFrom, hb]; rfl, by rw [hbs, hm]; rfl, fun k hk j => ?_⟩
    rw [hget, if_pos hk]
  · rw [if_neg (by rw [hmask]; simp [hwindow])] at hextra
    have hw : e.extraRows.toNat + 1 = t.window.toNat := by
      have hpos : 1 ≤ t.window.toNat := Nat.pos_of_ne_zero fun h0 => hwindow (UInt64.toNat_inj.1 h0)
      have hone : 1 ≤ t.window := UInt64.le_iff_toNat_le.2 hpos
      rw [hextra, UInt64.toNat_sub_of_le _ _ hone]
      exact Nat.sub_add_cancel hpos
    refine ⟨hw, fun h hshape => ?_⟩
    have hn : h.block.nrows = c.rowsOf (p.extraOf e.node) := congrArg Prod.fst hshape
    have hend : (p.offsetOf node e + t.window).toNat = (p.offsetOf node e).toNat + e.extraRows.toNat + 1 := by
      rw [UInt64.toNat_add, ← hw]
      show ((p.offsetOf node e).toNat + (e.extraRows.toNat + 1)) % 0x10000000000000000 = _
      omega
    have htraverse : h.traverse t.window (p.offsetOf node e) 0 =
        .ok (.start h.block h.adjustments.flat t.window (p.offsetOf node e) 0) :=
      History.traverse_eq_ok.2 ⟨hwindow, by omega, rfl⟩
    refine ⟨_, htraverse, ?_, ?_⟩
    · show h.block.nrows + 1 - (p.offsetOf node e + t.window).toNat = _
      omega
    · have hshows := History.shows_traverse (by omega) htraverse
        (by omega : (p.offsetOf node e + t.window).toNat + c.rowsOf (p.extraOf node) ≤ h.block.nrows + 1) (by omega)
      rw [hend] at hshows
      simpa only [Nat.add_right_comm _ 1] using hshows

/-! ## Nothing runs out -/

section RunsOut

variable {ws : Workspace} {node : Nat} {t : Term}

theorem ends_rows_of_le {h : History} (hN : h.block.nrows < 0x8000000000000000) {start count : Nat}
    (hs : start + count ≤ h.block.nrows) : Checked.Ends (fun _ => True) (¬·.RunsOut) (rows h start count) := by
  have hends : Checked.Ends (fun _ => True) (¬·.RunsOut) (h.rowsAsOf (.ofNat start) (.ofNat (start + count))) := by
    rw [History.rowsAsOf_eq hN hs]
    split
    · trivial
    · exact Block.ends_concatRows _
  exact hends.mapError fun _ => id

theorem ends_truths_in_range (b : Block) : Checked.Ends (fun _ => True) (¬·.RunsOut) (truths b) := by
  cases b with
  | bools g => trivial
  | floats | ints | times | labels => exact id

/-- Following an edge finds rows, or windows for all rows. -/
theorem ends_follow (hp : p.Exact) (hc : p.Fits c) (hs : p.Shaped c ws) (ht : p.graph.terms[node]? = some t) {e : Edge}
    (he : e ∈ p.graph.edgesOf node) {found : Grid Bool × List Input}
    (hfound : ∀ x ∈ found.2, x.Lasts (c.rowsOf (p.extraOf node))) :
    Checked.Ends (fun found => ∀ x ∈ found.2, x.Lasts (c.rowsOf (p.extraOf node))) (¬·.RunsOut)
      (p.follow ws node t (c.datesFrom (p.extraOf node)).length found e) := by
  have haligned := aligned hp hc ht he
  have hexpect : Checked.Ends (fun h : History => h.shape = p.shapeIn c e.node) (¬·.RunsOut)
      (ws.expect p t.text e.node) := by
    cases hget : ws.get? e.node with
    | none =>
      rw [Workspace.expect, hget]
      exact id
    | some h =>
      rw [Workspace.expect, hget]
      exact hs e.node h hget
  have hconcat {input : Input} (hinput : input.Lasts (c.rowsOf (p.extraOf node))) :
      ∀ x ∈ found.2 ++ [input], x.Lasts (c.rowsOf (p.extraOf node)) := fun x hx =>
    (List.mem_append.1 hx).elim (hfound x) fun hx => List.mem_singleton.1 hx ▸ hinput
  refine hexpect.bind fun h hh => ?_
  have hn : h.block.nrows = c.rowsOf (p.extraOf e.node) := congrArg Prod.fst hh
  have hN : h.block.nrows < 0x8000000000000000 := hn ▸ Nat.lt_of_le_of_lt (Nat.sub_le _ _) hc.small
  have hblock : Checked.Ends (fun _ => True) (¬·.RunsOut)
      (rows h (p.offsetOf node e).toNat (c.datesFrom (p.extraOf node)).length) :=
    ends_rows_of_le hN (by
      rw [Chunk.length_datesFrom, hn, ← haligned.rows]
      omega)
  split
  · exact hblock.bind fun b _ => (ends_truths_in_range b).bind fun _ _ => hfound
  · rename_i hmask
    split
    · exact hblock.bind fun b _ => hconcat trivial
    · rename_i hwindow
      obtain ⟨-, hcursor⟩ := haligned.window (Bool.eq_false_iff.2 hmask) hwindow
      obtain ⟨cursor, hcursor, -, hshows⟩ := hcursor h hh
      simp only [hcursor]
      exact hconcat ⟨_, hshows⟩

/-- A node whose inputs have their shapes runs out of no window. -/
theorem ends_computeNode_of_shaped (hp : p.Exact) (hc : p.Fits c) (hs : p.Shaped c ws)
    (ht : p.graph.terms[node]? = some t) :
    Checked.Ends (fun _ => True) (¬·.RunsOut) (p.computeNode c ws node t) := by
  refine (Checked.ends_foldlM (B := fun found : Grid Bool × List Input =>
    ∀ x ∈ found.2, x.Lasts (c.rowsOf (p.extraOf node))) (fun e he found hfound => ends_follow hp hc hs ht he hfound)
      fun _ hx => absurd hx List.not_mem_nil).bind fun found hinputs => ?_
  have hblock : Checked.Ends (fun _ => True) (¬·.RunsOut)
      ((evaluate t found.2 ⟨c.datesFrom (p.extraOf node), c.sids, found.1⟩).mapError RunError.eval) :=
    (ends_evaluate (by rwa [Chunk.length_datesFrom])).mapError fun _ => id
  have hhistory (block : Block) : Checked.Ends (fun _ => True) (¬·.RunsOut) (History.unadjusted block t.missing) :=
    (Block.ends_expect t.missing block.dtype).bind fun _ _ => trivial
  exact hblock.bind fun block _ => (hhistory block).mapError fun _ => id

end RunsOut

/-! ## Chunks of a run -/

/-- The chunks of an accepted plan have the history of every node. -/
theorem fits_chunkOf {e : Engine} {domain : Domain} {sessions : Array Date} {sids : List Sid} {first last : Nat}
    (hsmall : sessions.size < 0x8000000000000000) (hx : ∀ node, (p.extraOf node).toNat ≤ first) (hle : first ≤ last)
    (hl : last < sessions.size) : p.Fits (e.chunkOf p domain sessions sids first last) := by
  have hmax : p.maxExtra.toNat ≤ first := maxExtra_le hx
  have hlength : (e.chunkOf p domain sessions sids first last).dates.length = last + 1 - (first - p.maxExtra.toNat) :=
    Engine.length_dates_chunkOf hl
  refine ⟨?_, by omega, fun node => UInt64.le_iff_toNat_le.1 (extraOf_le_maxExtra node)⟩
  rw [hlength]
  show p.maxExtra.toNat < _
  omega

end Plan
end AsOf
