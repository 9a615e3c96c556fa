import AsOf.Proofs.Graph.Paths
import AsOf.Proofs.Graph.Reads
import AsOf.Proofs.Run.Load

/-!
# What a chunk starts from

Before anything is computed, a chunk is told which assets exist and loads its columns.
Where the loaders keep ledgers and a world tells what they say, the workspace holds
exactly the strands that are given, or the run ends.

* `Engine.seed_spec`: the existence of assets.
* `Run.loadColumns_spec`: all columns, unless a request or a ledger does not do.
-/
namespace AsOf

namespace TermGraph

variable {g : TermGraph} {node : Nat} {t : Term} {c : Column}

theorem mem_columns : (node, c) ∈ g.columns ↔ ∃ t, g.terms[node]? = some t ∧ t.column? = some c := by
  rw [columns, List.mem_filterMap]
  constructor
  · rintro ⟨⟨t, k⟩, hmem, h⟩
    obtain ⟨c', hc', h⟩ := Option.map_eq_some_iff.1 h
    cases h
    refine ⟨t, ?_, hc'⟩
    rw [← Array.getElem?_toList]
    exact List.mem_zipIdx_iff_getElem?.1 hmem
  · rintro ⟨t, ht, hc⟩
    refine ⟨(t, node), List.mem_zipIdx_iff_getElem?.2 ?_, congrArg (Option.map (node, ·)) hc⟩
    show g.terms.toList[node]? = some t
    rw [Array.getElem?_toList, ht]

/-- The columns that a graph reads. -/
def Asks (g : TermGraph) (c : Column) : Prop := ∃ node, (node, c) ∈ g.columns

/-- A column is not the existence of assets. -/
theorem index?_ne_of_column (hx : (node, c) ∈ g.columns) : g.index? Term.assetExists ≠ some node := by
  intro hn
  obtain ⟨t, ht, hc⟩ := mem_columns.1 hx
  rw [Term.column?, kind_of_index? hn ht] at hc
  cases hc

theorem isGiven_iff (ht : g.terms[node]? = some t) : g.isGiven node t = true ↔
    g.index? Term.assetExists = some node ∨ ∃ c, (node, c) ∈ g.columns := by
  rw [isGiven, Bool.or_eq_true, beq_iff_eq, Option.isSome_iff_exists]
  refine or_congr_right (exists_congr fun c => ?_)
  rw [mem_columns]
  refine ⟨fun hc => ⟨t, ht, hc⟩, ?_⟩
  rintro ⟨t', ht', hc⟩
  rw [ht] at ht'
  rwa [Option.some.inj ht']

end TermGraph

/-- The plan of a graph that was built is in order. -/
theorem Plan.ordered_of {outputs : Named Term} {screen : Option Term} {g : TermGraph}
    (h : TermGraph.of? outputs screen = .ok g) {sessions first last : Nat} {p : Plan}
    (hp : Plan.of? g sessions first last = .ok p)
    (hd : ∀ (node : Nat) (t : Term) (k : RowKernel), g.terms[node]? = some t → t.kind = .custom k →
      k.Decodes) : p.Ordered := by
  have hl := layered_of h hp
  obtain ⟨rfl, hs⟩ := sound_of h hp
  refine ⟨hs, hl.size, hl.above, hl.lowest, fun node t ht hg => ?_, hl.roots, hd⟩
  have := hs.reads node t ht
  rw [Term.readings, if_pos (TermGraph.isLoadable_of_isGiven ht hg), List.forall₂_nil_left_iff] at this
  exact this

/-- A world tells what the ledgers of a chunk's columns say. -/
def Chunk.Tells (c : Chunk) (p : Plan) (w : World) (start : Nat)
    (ledger? : List Date → Column → Option Ledger) : Prop :=
  ∀ node column, (node, column) ∈ p.graph.columns → ∀ i q sid, i ≤ q → q < c.rowsOf (p.extraOf node) →
    sid ∈ c.sids → w.known node (c.sessionOf start (p.extraOf node) i)
        (c.sessionOf start (p.extraOf node) q) sid =
      (ledgerOf (ledger? (c.datesFrom (p.extraOf node))) column).known
        (w.date (c.sessionOf start (p.extraOf node) i)) (w.date (c.sessionOf start (p.extraOf node) q)) sid

variable {p : Plan} {c : Chunk} {w : World} {start : Nat} {ws : Workspace}
  {ledger? : List Date → Column → Option Ledger} {mayRefuse : Prop}

theorem Chunk.getElem?_datesFrom (hc : c.Covers w start) {extra : UInt64} {i : Nat}
    (hi : i < c.rowsOf extra) : (c.datesFrom extra)[i]? = some (w.date (c.sessionOf start extra i)) := by
  rw [rowsOf] at hi
  rw [datesFrom, List.getElem?_drop, hc.date _ (by omega), sessionOf, Nat.add_assoc]

/-- What records the ledger of a column holds its strand. -/
theorem Chunk.holds_of_records (hc : c.Covers w start) (ht : c.Tells p w start ledger?) {node : Nat}
    {column : Column} (hx : (node, column) ∈ p.graph.columns)
    (hs : (ledgerOf (ledger? (c.datesFrom (p.extraOf node))) column).Suits column) {h : History}
    (hr : h.Records (c.datesFrom (p.extraOf node)) c.sids
      (ledgerOf (ledger? (c.datesFrom (p.extraOf node))) column)) :
    c.Holds start (p.extraOf node) (p.graph.strand w node) h := by
  obtain ⟨t, hterm, hcol⟩ := TermGraph.mem_columns.1 hx
  rw [TermGraph.strand_column hterm (TermGraph.index?_ne_of_column hx) hcol]
  refine ⟨hr.valid, hr.distinct, hr.dtype.trans hs.1, ?_, fun i q hiq hq => ⟨_, rfl, fun j sid hj => ?_⟩⟩
  · rw [hr.shape, Chunk.length_datesFrom]
  · rw [hr.cell i q j _ _ sid hiq (getElem?_datesFrom hc (by omega)) (getElem?_datesFrom hc hq) hj,
      ht node column hx i q sid hiq hq (List.mem_of_getElem? hj)]

/-- A workspace in which exactly some nodes hold their strands. -/
structure Plan.Filled (p : Plan) (c : Chunk) (w : World) (start : Nat) (nodes : Nat → Prop)
    (ws : Workspace) : Prop where
  size : ws.size = p.size
  right : ∀ node h, ws.get? node = some h →
    c.Holds start (p.extraOf node) (p.graph.strand w node) h
  isSome_iff : ∀ node < p.size, (ws.get? node).isSome = true ↔ nodes node

namespace Plan.Filled

variable {nodes : Nat → Prop}

theorem congr (hf : p.Filled c w start nodes ws) {nodes' : Nat → Prop} (h : ∀ node, nodes node ↔ nodes' node) :
    p.Filled c w start nodes' ws :=
  ⟨hf.size, hf.right, fun node hn => (hf.isSome_iff node hn).trans (h node)⟩

/-- Histories that hold their strands are put beside those that are there. -/
theorem put_all (hf : p.Filled c w start nodes ws) {pairs : List (Nat × History)}
    (hsize : ∀ y ∈ pairs, y.1 < p.size)
    (hholds : ∀ y ∈ pairs, c.Holds start (p.extraOf y.1) (p.graph.strand w y.1) y.2) :
    p.Filled c w start (fun node => nodes node ∨ node ∈ pairs.map Prod.fst)
      (pairs.foldl (fun ws y => ws.put y.1 y.2) ws) := by
  obtain ⟨hs, hget, hput, helse⟩ := Workspace.foldl_put fun y hy => hf.size ▸ hsize y hy
  refine ⟨hs.trans hf.size, fun node h hh => ?_, fun node hn => ?_⟩
  · rcases hget node h hh with hy | hold
    · exact hholds _ hy
    · exact hf.right node h hold
  · by_cases hmem : node ∈ pairs.map Prod.fst
    · obtain ⟨y, hy, rfl⟩ := List.mem_map.1 hmem
      exact ⟨fun _ => .inr hmem, fun _ => hput y hy⟩
    · rw [helse node hmem, hf.isSome_iff node hn]
      exact ⟨.inl, fun h => h.resolve_right hmem⟩

end Plan.Filled

/-! ## The existence of assets -/

/-- The mask of a chunk holds the existence of assets. -/
theorem Chunk.holds_mask (hc : c.Covers w start) (extra : UInt64) (missing : Scalar) :
    c.Holds start extra ⟨.bool, fun r _ => some fun sid => .bool ((w.live r).contains sid)⟩
      ⟨.bools (c.maskFrom extra), [], missing⟩ := by
  have hshape : (c.maskFrom extra).shape = (c.rowsOf extra, c.sids.length) := by
    rw [Chunk.maskFrom, Grid.shape_sliceRows, (Grid.shape_eq.1 hc.mask).1, (Grid.shape_eq.1 hc.mask).2,
      Nat.min_self]
    rfl
  refine ⟨trivial, trivial, rfl, hshape, fun i q hiq hq => ⟨_, rfl, fun j sid hj => ?_⟩⟩
  rw [rowsOf] at hq
  have hrow : c.firstRow extra + i < c.mask.nrows := by
    rw [(Grid.shape_eq.1 hc.mask).1]
    omega
  have hcol : j < c.mask.ncols := by
    rw [(Grid.shape_eq.1 hc.mask).2]
    exact (List.getElem?_eq_some_iff.1 hj).1
  have hmem := @mem_pick _ (c.mask.row (c.firstRow extra + i)) _ hc.nodup _ _ hj
  rw [hc.live _ (by rw [← (Grid.shape_eq.1 hc.mask).1]; exact hrow), Grid.getElem?_row] at hmem
  rw [History.cell?, History.knownBefore_of_isEmpty rfl, sessionOf, Nat.add_assoc]
  show ((c.maskFrom extra).get? i j).map Scalar.bool = _
  rw [maskFrom, Grid.get?_sliceRows, if_pos (by omega), Grid.get?_of_lt hrow hcol] at *
  rw [Option.map_some, Option.some.injEq, Scalar.bool.injEq, Bool.eq_iff_iff, List.contains_iff_mem, hmem,
    Option.some.injEq]

/-- The existence of assets is all that a chunk is told at first. -/
theorem Engine.seed_spec (hc : c.Covers w start) : ∃ ws, seed p c = .ok ws ∧
    p.Filled c w start (fun node => p.graph.index? Term.assetExists = some node) ws := by
  have hempty (node : Nat) : (Workspace.empty p.size).get? node = none := by
    rw [Workspace.get?, Workspace.empty, Array.getElem?_replicate]
    split <;> rfl
  have hsize : (Workspace.empty p.size).size = p.size := Array.size_replicate
  unfold seed
  cases hi : p.graph.index? Term.assetExists with
  | none =>
    refine ⟨_, rfl, hsize, fun node h hh => ?_, fun node _ => ?_⟩
    · rw [hempty] at hh
      cases hh
    · simp only [hempty, Option.isSome_none, Bool.false_eq_true, reduceCtorEq]
  | some node =>
    have hnode : node < p.graph.terms.size := (List.findIdx?_eq_some_iff_getElem.1 hi).1
    have hterm := Array.getElem?_eq_getElem hnode
    have hlt : node < (Workspace.empty p.size).size := by
      rw [hsize]
      exact hnode
    refine ⟨(Workspace.empty p.size).put node
        ⟨.bools (c.maskFrom (p.extraOf node)), [], Term.assetExists.missing⟩, rfl,
      Workspace.size_put.trans hsize, fun k h hh => ?_, fun k _ => ?_⟩
    · rw [Workspace.get?_put hlt] at hh
      split at hh
      · rename_i hk
        obtain rfl := Option.some.inj hh
        rw [hk, TermGraph.strand_assetExists hterm hi]
        exact Chunk.holds_mask hc _ _
      · rw [hempty] at hh
        cases hh
    · rw [Workspace.get?_put hlt, hempty]
      split
      · rename_i hk
        exact ⟨fun _ => congrArg some hk.symm, fun _ => rfl⟩
      · rename_i hk
        exact ⟨fun h => absurd h Bool.false_ne_true, fun h => absurd (Option.some.inj h).symm hk⟩

/-! ## Columns -/

namespace Run

variable {ls : Loaders}

/-- A group is loaded where no column is asked for twice in it and the ledgers suit its columns. -/
def Does (c : Chunk) (ledger? : List Date → Column → Option Ledger) (g : Group) : Prop :=
  Distinct g.members ∧ Suited (ledger? (c.datesFrom g.extra)) g.members

/-- Loading a group fills in its columns, unless it does not do or is refused. -/
theorem fills_of_loadGroup (hc : c.Covers w start) (hdates : c.dates.Pairwise (· < ·))
    (hk : ls.Keep p.graph.Asks ledger? mayRefuse) (ht : c.Tells p w start ledger?) {g : Group}
    (hg : Group.Proper ls p g) {nodes : Nat → Prop} (hf : p.Filled c w start nodes ws) :
    (Does c ledger? g ∧ ∃ ws', (loadGroup c ws g).Is (.ok ws') ∧
      p.Filled c w start (fun node => nodes node ∨ ∃ x ∈ g.members, x.1 = node) ws') ∨
    ((¬Does c ledger? g ∨ mayRefuse) ∧ ∃ e, (loadGroup c ws g).Is (.error e)) := by
  have hans (hd : Distinct g.members) (columns : List Column) (hne : columns ≠ [])
      (hsub : columns.Sublist (g.members.map (·.2))) :
      g.loader.Answers (ledger? (c.datesFrom g.extra)) mayRefuse { requestOf c g with columns } := by
    refine hk g.place g.loader { requestOf c g with columns } ⟨hne, hdates.drop, hc.nodup, hd.sublist hsub⟩
      fun column hcol => ?_
    obtain ⟨x, hx, rfl⟩ := List.mem_map.1 (hsub.subset hcol)
    exact ⟨⟨x.1, hg.columns x hx⟩, hg.serving x hx⟩
  rcases @loadGroup_spec _ _ ws _ _ hdates hc.nodup hg.nonempty hans with ⟨hgood, pairs, hok, hpairs⟩ | ⟨hbad, e, he⟩
  · have hfrom : ∀ y ∈ pairs, ∃ x ∈ g.members, y.1 = x.1 ∧
        c.Holds start (p.extraOf y.1) (p.graph.strand w y.1) y.2 := by
      intro y hy
      obtain ⟨x, hx, hxy, hrec⟩ := Checked.exists_left hpairs hy
      refine ⟨x, hx, hxy, ?_⟩
      rw [hxy]
      rw [← hg.extra x hx] at hrec
      exact Chunk.holds_of_records hc ht (hg.columns x hx)
        (hg.extra x hx ▸ hgood.2 x hx) hrec
    have hsize : ∀ y ∈ pairs, y.1 < p.size := by
      intro y hy
      obtain ⟨x, hx, hxy, -⟩ := hfrom y hy
      obtain ⟨t, hterm, -⟩ := TermGraph.mem_columns.1 (hg.columns x hx)
      rw [hxy]
      exact (Array.getElem?_eq_some_iff.1 hterm).1
    have hkeys (node : Nat) : node ∈ pairs.map Prod.fst ↔ ∃ x ∈ g.members, x.1 = node := by
      constructor
      · intro h
        obtain ⟨y, hy, rfl⟩ := List.mem_map.1 h
        obtain ⟨x, hx, hxy, -⟩ := hfrom y hy
        exact ⟨x, hx, hxy.symm⟩
      · rintro ⟨x, hx, rfl⟩
        obtain ⟨y, hy, hxy, -⟩ := Checked.exists_right hpairs hx
        exact List.mem_map.2 ⟨y, hy, hxy⟩
    have hholds : ∀ y ∈ pairs, c.Holds start (p.extraOf y.1) (p.graph.strand w y.1) y.2 := fun y hy =>
      (hfrom y hy).choose_spec.2.2
    exact .inl ⟨hgood, _, hok, (hf.put_all hsize hholds).congr fun node => or_congr_right (hkeys node)⟩
  · exact .inr ⟨hbad, e, he⟩

/-- Loading some groups fills in their columns, unless one of them does not do or is refused. -/
theorem foldlM_loadGroup (hc : c.Covers w start) (hdates : c.dates.Pairwise (· < ·))
    (hk : ls.Keep p.graph.Asks ledger? mayRefuse) (ht : c.Tells p w start ledger?) {gs : List Group}
    (hgs : ∀ g ∈ gs, Group.Proper ls p g) {nodes : Nat → Prop} (hf : p.Filled c w start nodes ws) :
    ((∀ g ∈ gs, Does c ledger? g) ∧ ∃ ws', (gs.foldlM (loadGroup c) ws).Is (.ok ws') ∧
      p.Filled c w start (fun node => nodes node ∨ ∃ g ∈ gs, ∃ x ∈ g.members, x.1 = node) ws') ∨
    (((∃ g ∈ gs, ¬Does c ledger? g) ∨ mayRefuse) ∧
      ∃ e, (gs.foldlM (loadGroup c) ws).Is (.error e)) := by
  induction gs generalizing ws nodes with
  | nil =>
    refine .inl ⟨fun _ hg => absurd hg List.not_mem_nil, ws, is_pure ws, hf.congr fun node => ?_⟩
    simp only [List.not_mem_nil, false_and, exists_false, or_false]
  | cons g gs ih =>
    rw [List.foldlM_cons]
    rcases fills_of_loadGroup hc hdates hk ht (hgs g List.mem_cons_self) hf with
      ⟨hgood, ws₁, hok, hf₁⟩ | ⟨hbad, e, he⟩
    · rcases ih (fun h hh => hgs h (List.mem_cons_of_mem _ hh)) hf₁ with ⟨hgood', ws', hok', hf'⟩ | ⟨hbad, e, he⟩
      · refine .inl ⟨List.forall_mem_cons.2 ⟨hgood, hgood'⟩, ws', hok.bind hok', hf'.congr fun node => ?_⟩
        simp only [List.exists_mem_cons_iff, or_assoc]
      · exact .inr ⟨hbad.imp_left fun ⟨h, hh, hno⟩ => ⟨h, List.mem_cons_of_mem _ hh, hno⟩, e, hok.bind he⟩
    · exact .inr ⟨hbad.imp_left fun hno => ⟨g, List.mem_cons_self, hno⟩, e, he.bind_error⟩

/-- All groups of a plan do: no column is asked for twice in one of them, and the ledgers
suit the columns. -/
def Loadable (ls : Loaders) (p : Plan) (c : Chunk) (ledger? : List Date → Column → Option Ledger) :
    Prop :=
  ∀ gs, groups ls p = .ok gs → ∀ g ∈ gs,
    Distinct g.members ∧ Suited (ledger? (c.datesFrom g.extra)) g.members

/-- Loading all columns of a chunk fills in what is given, unless the groups do not do or one
of them is refused. -/
theorem loadColumns_spec (hc : c.Covers w start) (hdates : c.dates.Pairwise (· < ·))
    (hk : ls.Keep p.graph.Asks ledger? mayRefuse) (ht : c.Tells p w start ledger?)
    (hs : ∀ x ∈ p.graph.columns, (ls.serving? x.2).isSome = true)
    (hf : p.Filled c w start (fun node => p.graph.index? Term.assetExists = some node) ws) :
    (Loadable ls p c ledger? ∧ ∃ ws', (loadColumns ls p c ws).Is (.ok ws') ∧ p.Given c w start ws') ∨
    ((¬Loadable ls p c ledger? ∨ mayRefuse) ∧ ∃ e, (loadColumns ls p c ws).Is (.error e)) := by
  obtain ⟨gs, hgs, hproper, hmem⟩ := groups_spec hs
  have hload : (liftM (groups ls p) : Run _).Is (.ok gs) := hgs ▸ is_lift _
  rcases foldlM_loadGroup hc hdates hk ht hproper hf with ⟨hgood, ws', hok, hf'⟩ | ⟨hbad, e, he⟩
  · refine .inl ⟨fun gs' hgs' => ?_, ws', hload.bind hok, hf'.size, hf'.right, fun node t ht => ?_⟩
    · rw [hgs] at hgs'
      obtain rfl := Except.ok.inj hgs'
      exact hgood
    · rw [hf'.isSome_iff node (Array.getElem?_eq_some_iff.1 ht).1, TermGraph.isGiven_iff ht]
      refine or_congr_right ⟨?_, ?_⟩
      · rintro ⟨g, hg, x, hx, rfl⟩
        exact ⟨x.2, (hmem x).1 ⟨g, hg, hx⟩⟩
      · rintro ⟨column, hx⟩
        obtain ⟨g, hg, hx⟩ := (hmem (node, column)).2 hx
        exact ⟨g, hg, _, hx, rfl⟩
  · exact .inr ⟨hbad.imp_left fun ⟨g, hg, hno⟩ h => hno (h gs hgs g hg), e, hload.bind he⟩

end Run

end AsOf
