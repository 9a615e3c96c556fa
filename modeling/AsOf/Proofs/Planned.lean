import AsOf.Kernel.Samples
import AsOf.Proofs.Chunks
import AsOf.Proofs.Run.Aligned

/-!
# Plans give every reader the rows that it needs

Where no path of dependencies needs more rows than a word can count, the extra rows of a node
are the most that any path from an output or the screen to it needs. A plan is refused for want
of history exactly if some node needs more sessions than lie before the first. The levels of an
accepted plan part the nodes, and everything that a node reads is on an earlier one. In every
chunk of its sessions the rows of readers and of what they read line up.

* `Plan.InStep`: a chunk in which all rows line up.
* `Plan.plan_is_exact`: extra rows, history that is wanting, levels, and all chunks.
-/
namespace AsOf.Plan

variable {outputs : Named Term} {screen : Option Term} {g : TermGraph} {p : Plan}

/-- Every node is on one of the levels, none of which is empty, and what it reads on an earlier one. -/
structure Parted (g : TermGraph) (levels : List (List Nat)) : Prop where
  perm : levels.flatten.Perm (List.range g.size)
  ne_nil : ∀ level ∈ levels, level ≠ []
  earlier : ∀ (l : Nat) (nodes : List Nat), levels[l]? = some nodes → ∀ node ∈ nodes, ∀ e ∈ g.edgesOf node,
    ∃ k < l, ∃ below, levels[k]? = some below ∧ e.node ∈ below

theorem parted (hl : p.Layered) : Parted p.graph p.byLevel := by
  refine ⟨byLevel_perm hl, fun level hlevel => ?_, fun l nodes hnodes node hn e he => ?_⟩
  · rw [byLevel_eq hl.size, List.mem_map] at hlevel
    obtain ⟨l, hmem, rfl⟩ := hlevel
    exact nodesAt_ne_nil hl (List.mem_range.1 hmem)
  · rw [getElem?_byLevel hl hnodes] at hn
    obtain ⟨hlt, rfl⟩ := mem_nodesAt.1 hn
    have hdep : e.node < p.size := Nat.lt_trans (hl.lt node e he) hlt
    have hbelow := hl.above node hlt e.node (TermGraph.mem_readBy.2 ⟨e, he, rfl⟩)
    refine ⟨p.levelOf e.node, hbelow, p.nodesAt (p.levelOf e.node), ?_, mem_nodesAt.2 ⟨hdep, rfl⟩⟩
    rw [byLevel_eq hl.size, List.getElem?_map, List.getElem?_range (levelOf_lt_depth hl.size hdep)]
    rfl

/-- A chunk in which all rows line up. -/
structure InStep (p : Plan) (c : Chunk) : Prop where
  edges : ∀ node t, p.graph.terms[node]? = some t → ∀ e ∈ p.graph.edgesOf node, p.Aligned c node t e
  /-- The last rows of a node are those of the output sessions. -/
  outputs : ∀ node, (p.extraOf node).toNat + c.outputRows = c.rowsOf (p.extraOf node) ∧
    ∀ k, (c.datesFrom (p.extraOf node))[(p.extraOf node).toNat + k]? = (c.dates.drop c.history)[k]?
  /-- From histories of their nodes' shapes, no node runs out of rows. -/
  lasts : ∀ ws, p.Shaped c ws → ∀ node t, p.graph.terms[node]? = some t →
    ∀ err, p.computeNode c ws node t = .error err → ¬err.RunsOut

theorem inStep (hp : p.Exact) {c : Chunk} (hc : p.Fits c) : p.InStep c := by
  refine ⟨fun node t ht e he => aligned hp hc ht he, fun node => ⟨?_, fun k => ?_⟩, fun ws hs node t ht err herr => ?_⟩
  · have hout := hc.output
    rw [Chunk.rowsOf_eq hc.output (hc.deep node), Chunk.outputRows]
    omega
  · have := hc.deep node
    rw [Chunk.datesFrom, List.getElem?_drop, List.getElem?_drop, Chunk.firstRow]
    congr 1
    omega
  · have hends := ends_computeNode_of_shaped hp hc hs ht
    rwa [herr] at hends

/-- What an accepted plan gives, and when a plan is refused for want of history. -/
theorem plan_is_exact (h : TermGraph.of? outputs screen = .ok g) (hw : Countable g) {sessions : Array Date}
    (hsmall : sessions.size < 0x8000000000000000) {first last : Nat} :
    (first ≤ last → last < sessions.size →
      ((∃ text rows available, of? g sessions.size first last = .error (.insufficientHistory text rows available)) ↔
        ∃ node rows, IsGreatest {rows | g.Needs node rows} rows ∧ first < rows)) ∧
    ∀ p, of? g sessions.size first last = .ok p →
      (∀ node < g.size, IsGreatest {rows | g.Needs node rows} (p.extraOf node).toNat) ∧
      Parted g p.byLevel ∧
      ∀ (e : Engine) (domain : Domain) (sids : List Sid) (start stop : Nat), first ≤ start → start ≤ stop →
        stop ≤ last → p.maxExtra.toNat ≤ start ∧ p.InStep (e.chunkOf p domain sessions sids start stop) := by
  refine ⟨fun hfl hl => ?_, fun p hp => ?_⟩
  · rw [insufficient_iff h hw hfl hl]
    constructor
    · rintro ⟨node, rows, hneeds, hlt⟩
      have hgreatest := extraRows_isGreatest h hw (hneeds.lt h)
      exact ⟨node, _, hgreatest, Nat.lt_of_lt_of_le hlt (hgreatest.2 hneeds)⟩
    · rintro ⟨node, rows, hgreatest, hlt⟩
      exact ⟨node, rows, hgreatest.1, hlt⟩
  · obtain ⟨heq, hfl, hl, hextra⟩ := of?_spec hp
    have hgraph : p.graph = g := congrArg Plan.graph heq
    refine ⟨fun node hn => ?_, hgraph ▸ parted (layered_of h hp), fun e domain sids start stop hstart hle hstop => ?_⟩
    · rw [extraOf, heq]
      exact extraRows_isGreatest h hw hn
    · exact ⟨Nat.le_trans (maxExtra_le hextra) hstart, inStep (exact_of h hw hp)
        (fits_chunkOf hsmall (fun node => Nat.le_trans (hextra node) hstart) hle (by omega))⟩

/-- Where the demands of all edges are bounded, paths are countable. -/
theorem countable_of_bound {bound : Nat → Nat} (hb : ∀ node, bound node < 0x10000000000000000)
    (he : ∀ node, ∀ e ∈ g.edgesOf node, bound node + e.extraRows.toNat ≤ bound e.node) : Countable g := by
  intro node rows hneeds
  refine Nat.lt_of_le_of_lt ?_ (hb node)
  induction hneeds with
  | root => exact Nat.zero_le _
  | edge _ hmem ih => exact Nat.le_trans (Nat.add_le_add_right ih _) (he _ _ hmem)

/-! Two windows, one over the other, of a column that is loaded. -/

/-- The cells that a window has. -/
def cellsOver (input : Term) (window : UInt64) : Term :=
  .mk ⟨.custom (.sample "A" "Cells" "cells" [] .int64 (some (.int 0)) true), .factor, .int64, .int 0, window,
    .generic, true⟩ [input] none

def rollingOutputs : Named Term :=
  let inner := cellsOver (.ofColumn Tables.rate) 2
  [("inner", inner), ("outer", cellsOver inner 3)]

def rollingGraph : TermGraph where
  terms := #[.ofColumn Tables.rate, .assetExists, cellsOver (.ofColumn Tables.rate) 2,
    cellsOver (cellsOver (.ofColumn Tables.rate) 2) 3]
  edges := #[[], [], [⟨0, 1, false⟩, ⟨1, 0, true⟩], [⟨2, 2, false⟩, ⟨1, 0, true⟩]]
  outputs := [("inner", 2), ("outer", 3)]
  screen := none

def rollingPlan : Plan := ⟨rollingGraph, #[3, 2, 2, 0], #[0, 0, 1, 2]⟩

theorem rollingGraph_countable : Countable rollingGraph := by
  refine @countable_of_bound rollingGraph (fun node => [3, 2, 2, 0].getD node 0) (fun node => ?_) fun node => ?_
  · match node with
    | 0 | 1 | 2 | 3 => decide
    | _ + 4 => exact (by decide : 0 < 0x10000000000000000)
  · match node with
    | 0 | 1 | 2 | 3 => decide
    | _ + 4 => exact fun _ he => nomatch he

/-- The outer window needs three sessions of the column before its first. -/
theorem plan_is_exact_rolling :
    IsGreatest {rows | rollingGraph.Needs 0 rows} 3 ∧
    (∃ text rows available, of? rollingGraph 5 2 4 = .error (.insufficientHistory text rows available)) ∧
    Parted rollingGraph [[0, 1], [2], [3]] ∧
    rollingPlan.InStep
      (Engine.bareEngine.chunkOf rollingPlan .generic #[⟨0⟩, ⟨1⟩, ⟨2⟩, ⟨3⟩, ⟨4⟩] [⟨1⟩] 4 4) := by
  have hgraph : TermGraph.of? rollingOutputs none = .ok rollingGraph := rfl
  have hplan : of? rollingGraph 5 3 4 = .ok rollingPlan := by cbv
  have hlevels : rollingPlan.byLevel = [[0, 1], [2], [3]] := by decide
  have hsmall : (#[⟨0⟩, ⟨1⟩, ⟨2⟩, ⟨3⟩, ⟨4⟩] : Array Date).size < 0x8000000000000000 := by decide
  obtain ⟨hgreatest, hparted, hchunk⟩ := (plan_is_exact hgraph rollingGraph_countable hsmall).2 rollingPlan hplan
  have hat := hgreatest 0 (by decide)
  have hwanting := (plan_is_exact hgraph rollingGraph_countable hsmall).1 (by decide : 2 ≤ 4) (by decide)
  exact ⟨hat, hwanting.2 ⟨0, 3, hat, by decide⟩, hlevels ▸ hparted,
    (hchunk Engine.bareEngine .generic [⟨1⟩] 4 4 (by decide) (by decide) (by decide)).2⟩

end AsOf.Plan
