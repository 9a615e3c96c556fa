import AsOf.Proofs.Graph.Order
import AsOf.Proofs.Run.Holds

/-!
# Computing one node of a chunk

If the workspace holds what a node reads, computing the node either holds its strand or
fails. It fails for one of two reasons: a window would have to begin above the history
that it reads, which the plan alone decides, or the strand has no row on some session.

* `Plan.follow_spec`: one edge adds to the mask or to the inputs.
* `Plan.computeNode_spec`: all edges, then the evaluation.
-/
namespace AsOf

namespace Plan

/-- What a run relies on in a plan. -/
structure Sound (p : Plan) : Prop where
  lt : ∀ node, ∀ e ∈ p.graph.edgesOf node, e.node < node
  reads : ∀ node t, p.graph.terms[node]? = some t →
    List.Forall₂ (TermGraph.Stands p.graph node) t.readings (p.graph.edgesOf node)
  demand : ∀ node < p.size, ∀ e ∈ p.graph.edgesOf node,
    p.extraOf node + e.extraRows ≤ p.extraOf e.node

/-- The windows of a node do not begin above what they read. -/
def FitsAt (p : Plan) (node : Nat) (t : Term) : Prop :=
  t.window ≠ 0 → ∀ e ∈ p.graph.edgesOf node, e.isMask = false →
    (p.extraOf node).toNat ≤ (p.extraOf e.node).toNat + 1

/-- A node can be computed: its windows fit, and its strand has all rows of the chunk. -/
def Computable (p : Plan) (c : Chunk) (w : World) (start node : Nat) (t : Term) : Prop :=
  p.FitsAt node t ∧ ∀ i < c.rowsOf (p.extraOf node), ((p.graph.strand w node).row?
    (c.sessionOf start (p.extraOf node) i) (c.sessionOf start (p.extraOf node) i)).isSome = true

theorem sound_of {outputs : Named Term} {screen : Option Term} {g : TermGraph}
    (h : TermGraph.of? outputs screen = .ok g) {sessions first last : Nat} {p : Plan}
    (hp : of? g sessions first last = .ok p) : p.graph = g ∧ p.Sound := by
  obtain ⟨rfl, -⟩ := of?_spec hp
  exact ⟨rfl, TermGraph.edges_lt h, fun _ _ => TermGraph.reads h,
    (extraRows_spec (TermGraph.edges_lt h)).2⟩

variable {p : Plan}

/-- Only inputs that are read through windows have rows before those of their reader. -/
theorem Sound.extraRows_eq (hp : p.Sound) {node : Nat} {t : Term} (ht : p.graph.terms[node]? = some t)
    {e : Edge} (he : e ∈ p.graph.edgesOf node) :
    e.extraRows = if e.isMask ∨ t.window = 0 then 0 else t.window - 1 := by
  obtain ⟨r, hr, hs⟩ := Checked.exists_left (hp.reads node t ht) he
  rw [hs.extraRows, hs.isMask]
  rw [Term.readings] at hr
  split at hr
  · cases hr
  · rcases List.mem_append.1 hr with hr | hr
    · obtain ⟨input, -, rfl⟩ := List.mem_map.1 hr
      by_cases hw : t.window = 0 <;> simp [hw]
    · rw [List.mem_singleton.1 hr]
      simp

/-! ## Following the edges -/

/-- The strands that some edges lead to, as masks or as inputs. -/
def along (g : TermGraph) (w : World) (es : List Edge) (isMask : Bool) : List Strand :=
  (es.filter (·.isMask == isMask)).map fun e => g.strand w e.node

theorem along_concat (g : TermGraph) (w : World) (es : List Edge) (e : Edge) (isMask : Bool) :
    along g w (es ++ [e]) isMask =
      along g w es isMask ++ if e.isMask = isMask then [g.strand w e.node] else [] := by
  rw [along, along, List.filter_append, List.map_append]
  congr 1
  by_cases h : e.isMask = isMask <;> simp [h]

/-- What some edges have given a reader with some extra rows. -/
structure Follows (p : Plan) (c : Chunk) (w : World) (start : Nat) (extra window : UInt64)
    (es : List Edge) (found : Grid Bool × List Input) (sources : List Source) : Prop where
  shape : found.1.shape = (c.rowsOf extra, c.sids.length)
  passes : ∀ i < c.rowsOf extra, ∃ ps,
    (along p.graph w es true).mapM (·.passes? (c.sessionOf start extra i)) = some ps ∧
      pick (found.1.row i) c.sids = (w.live (c.sessionOf start extra i)).filter fun sid => ps.all (· sid)
  feeds : List.Forall₂ (Source.Feeds (c.rowsOf extra)) sources found.2
  fits : ∀ s ∈ sources, s.Fits (c.rowsOf extra, c.sids.length)
  sights : ∀ i flags, i < c.rowsOf extra → flags.length = c.sids.length →
    (along p.graph w es false).mapM
        (·.sight? window (pick flags c.sids) (c.sessionOf start extra i)) =
      some (sources.map (Source.sight i flags))

variable {c : Chunk} {w : World} {start : Nat} {extra window : UInt64} {es : List Edge} {e : Edge}
  {found : Grid Bool × List Input} {sources : List Source}

/-- A mask narrows the rows. -/
theorem Follows.mask (hf : p.Follows c w start extra window es found sources) (he : e.isMask = true)
    (hd : (p.graph.strand w e.node).dtype = .bool) {g : Grid Bool}
    (hs : g.shape = (c.rowsOf extra, c.sids.length))
    (hg : ∀ i < c.rowsOf extra, ∃ x, (p.graph.strand w e.node).row? (c.sessionOf start extra i)
        (c.sessionOf start extra i) = some x ∧ ∀ (j : Nat) (sid : Sid), c.sids[j]? = some sid →
          (Block.bools g).get? i j = some (x sid)) :
    p.Follows c w start extra window (es ++ [e]) (found.1.zipWith (· && ·) g, found.2) sources where
  shape := (Grid.shape_zipWith _ (hf.shape.trans hs.symm)).trans hf.shape
  passes i hi := by
    obtain ⟨ps, hps, hpick⟩ := hf.passes i hi
    obtain ⟨x, hx, hcell⟩ := hg i hi
    have hpass : (p.graph.strand w e.node).passes? (c.sessionOf start extra i) =
        some fun sid => (x sid).asBool?.getD false := by
      rw [Strand.passes?, if_pos hd, hx]
      rfl
    refine ⟨ps ++ [fun sid => (x sid).asBool?.getD false], ?_, ?_⟩
    · rw [along_concat, if_pos he]
      exact Checked.mapM_concat hps hpass
    · have hrow : i < found.1.nrows := (Grid.shape_eq.1 hf.shape).1.symm ▸ hi
      have hlen : (found.1.row i).length = c.sids.length := by
        rw [Grid.length_row hrow]
        exact (Grid.shape_eq.1 hf.shape).2
      rw [Grid.row_zipWith, pick_and (p := fun sid => (x sid).asBool?.getD false) hlen, hpick,
        List.filter_filter]
      · refine List.filter_congr fun sid _ => ?_
        rw [List.all_append, List.all_cons, List.all_nil, Bool.and_true, Bool.and_comm]
      · intro j sid hj
        have hget := hcell j sid hj
        rw [Grid.getElem?_row]
        rw [Block.get?, Option.map_eq_some_iff] at hget
        obtain ⟨v, hv, hvx⟩ := hget
        rw [hv, ← hvx]
        rfl
  feeds := hf.feeds
  fits := hf.fits
  sights i flags hi hfl := by
    rw [along_concat, if_neg (by rw [he]; decide), List.append_nil]
    exact hf.sights i flags hi hfl

/-- An input adds a source. -/
theorem Follows.input (hf : p.Follows c w start extra window es found sources)
    (he : e.isMask = false) {s : Source} {input : Input} (hs : s.Feeds (c.rowsOf extra) input)
    (hfit : s.Fits (c.rowsOf extra, c.sids.length))
    (hsight : ∀ i flags, i < c.rowsOf extra → flags.length = c.sids.length →
      (p.graph.strand w e.node).sight? window (pick flags c.sids) (c.sessionOf start extra i) =
        some (s.sight i flags)) :
    p.Follows c w start extra window (es ++ [e]) (found.1, found.2 ++ [input]) (sources ++ [s]) where
  shape := hf.shape
  passes i hi := by
    rw [along_concat, if_neg (by rw [he]; decide), List.append_nil]
    exact hf.passes i hi
  feeds := List.rel_append hf.feeds (.cons hs .nil)
  fits s' hs' := by
    rcases List.mem_append.1 hs' with hs' | hs'
    · exact hf.fits s' hs'
    · rw [List.mem_singleton.1 hs']
      exact hfit
  sights i flags hi hfl := by
    rw [along_concat, if_pos he, List.map_append]
    exact Checked.mapM_concat (hf.sights i flags hi hfl) (hsight i flags hi hfl)

/-- Why an edge cannot be followed. -/
def Blocked (p : Plan) (w : World) (node : Nat) (t : Term) (e : Edge) : Prop :=
  (e.isMask = true ∧ (p.graph.strand w e.node).dtype ≠ .bool) ∨
    (e.isMask = false ∧ t.window ≠ 0 ∧ ¬(p.extraOf node).toNat ≤ (p.extraOf e.node).toNat + 1)

/-- What a node of a chunk reads is at hand. -/
structure Supplied (p : Plan) (c : Chunk) (w : World) (start : Nat) (ws : Workspace) (node : Nat) :
    Prop where
  covers : c.Covers w start
  deep : ∀ n, (p.extraOf n).toNat ≤ c.history
  holds : ∀ e ∈ p.graph.edgesOf node, ∃ h, ws.get? e.node = some h ∧
    c.Holds start (p.extraOf e.node) (p.graph.strand w e.node) h

variable {ws : Workspace} {node : Nat} {t : Term}

/-- What an edge leads to is read by its kind: a mask, rows or windows. -/
theorem follow_eq {h : History} (hget : ws.get? e.node = some h)
    (count : Nat) (found : Grid Bool × List Input) :
    p.follow ws node t count found e =
      if e.isMask then (truths =<< rows h (p.offsetOf node e).toNat count) >>=
        fun g => .ok (found.1.zipWith (· && ·) g, found.2)
      else if t.window = 0 then rows h (p.offsetOf node e).toNat count >>=
        fun b => .ok (found.1, found.2 ++ [.block b])
      else (h.traverse t.window (p.offsetOf node e) 0).mapError RunError.array >>=
        fun cur => .ok (found.1, found.2 ++ [.window cur]) := by
  have hex : ws.expect p t.text e.node = .ok h := by rw [Workspace.expect, hget]
  rw [follow, hex]
  show (if e.isMask then _ else _) = _
  split
  · cases rows h (p.offsetOf node e).toNat count <;> rfl
  · rfl

/-- An edge that reads no windows leads to the rows of its reader, each as known on it. -/
theorem Supplied.exists_rows (hsup : p.Supplied c w start ws node) (hp : p.Sound)
    (ht : p.graph.terms[node]? = some t) (he : e ∈ p.graph.edgesOf node)
    (hrow : e.isMask = true ∨ t.window = 0) :
    ∃ h b, ws.get? e.node = some h ∧
      rows h (p.offsetOf node e).toNat (c.rowsOf (p.extraOf node)) = .ok b ∧
      b.dtype = (p.graph.strand w e.node).dtype ∧ b.Valid ∧ b.Distinct ∧
      b.shape = (c.rowsOf (p.extraOf node), c.sids.length) ∧
      ∀ i < c.rowsOf (p.extraOf node), ∃ x,
        (p.graph.strand w e.node).row? (c.sessionOf start (p.extraOf node) i)
          (c.sessionOf start (p.extraOf node) i) = some x ∧
        ∀ (j : Nat) (sid : Sid), c.sids[j]? = some sid → b.get? i j = some (x sid) := by
  obtain ⟨h, hget, hh⟩ := hsup.holds e he
  have hdemand := hp.demand node (Array.getElem?_eq_some_iff.1 ht).1 e he
  rw [hp.extraRows_eq ht he, if_pos hrow, UInt64.add_zero] at hdemand
  have hoff : (p.offsetOf node e).toNat = (p.extraOf e.node).toNat - (p.extraOf node).toNat := by
    rw [offsetOf, hp.extraRows_eq ht he, if_pos hrow, UInt64.sub_zero,
      UInt64.toNat_sub_of_le _ _ hdemand]
  obtain ⟨b, hb, hb'⟩ := Chunk.rows_spec hsup.covers hh (UInt64.le_iff_toNat_le.1 hdemand) (hsup.deep e.node)
  exact ⟨h, b, hget, hoff ▸ hb, hb'⟩

/-- A mask is followed if it has flags. -/
theorem follow_mask (hp : p.Sound) (ht : p.graph.terms[node]? = some t)
    (hsup : p.Supplied c w start ws node) (he : e ∈ p.graph.edgesOf node)
    (hf : p.Follows c w start (p.extraOf node) t.window es found sources) (hm : e.isMask = true) :
    ((p.graph.strand w e.node).dtype = .bool ∧ ∃ found',
      p.follow ws node t (c.rowsOf (p.extraOf node)) found e = .ok found' ∧
        p.Follows c w start (p.extraOf node) t.window (es ++ [e]) found' sources) ∨
    ((p.graph.strand w e.node).dtype ≠ .bool ∧
      ∃ err, p.follow ws node t (c.rowsOf (p.extraOf node)) found e = .error err) := by
  obtain ⟨h, b, hget, hb, hd, -, -, hs, hcell⟩ := hsup.exists_rows hp ht he (.inl hm)
  rw [follow_eq hget, if_pos hm, hb]
  by_cases hbool : (p.graph.strand w e.node).dtype = .bool
  · obtain ⟨g, rfl⟩ : ∃ g, b = .bools g := by
      rw [hbool] at hd
      cases b <;> first | exact ⟨_, rfl⟩ | cases hd
    exact .inl ⟨hbool, _, rfl, hf.mask hm hbool hs hcell⟩
  · refine .inr ⟨hbool, ?_⟩
    cases b with
    | bools g => exact absurd hd.symm hbool
    | _ => exact ⟨_, rfl⟩

/-- A row of a block is what its strand shows on the session of the row. -/
theorem sight?_row {s : Strand} {b : Block} {i n r : Nat} {sids : List Sid} {flags : List Bool} (hi : i < n)
    (hfl : flags.length = sids.length) (hd : b.dtype = s.dtype) (hs : b.shape = (n, sids.length))
    {x : Sid → Scalar} (hx : s.row? r r = some x)
    (hget : ∀ (j : Nat) (sid : Sid), sids[j]? = some sid → b.get? i j = some (x sid)) :
    s.sight? 0 (pick flags sids) r = some ((Source.block b).sight i flags) := by
  rw [Strand.sight?, if_pos rfl, hx, Option.map_some, ← hd, ← b.dtype_sliceRows i (i + 1), Chunk.ofRows_eq hfl]
  · rw [Source.sight, Block.seenAt, Block.cells_sliceRows, Block.dtype_sliceRows]
  · rw [Block.shape_sliceRows, show b.nrows = _ from congrArg Prod.fst hs,
      show b.ncols = _ from congrArg Prod.snd hs]
    congr 1
    show min (i + 1) _ - i = 1
    omega
  · intro k y hk j sid hj
    obtain ⟨rfl, rfl⟩ : k = 0 ∧ x = y := by
      cases k with
      | zero => exact ⟨rfl, Option.some.inj hk⟩
      | succ k => cases hk
    rw [Block.get?_sliceRows, if_pos (by omega), Nat.add_zero, hget j sid hj]

/-- An input that is not read through windows is followed. -/
theorem follow_row (hp : p.Sound) (ht : p.graph.terms[node]? = some t)
    (hsup : p.Supplied c w start ws node) (he : e ∈ p.graph.edgesOf node)
    (hf : p.Follows c w start (p.extraOf node) t.window es found sources) (hm : e.isMask = false)
    (hw : t.window = 0) : ∃ found' sources',
      p.follow ws node t (c.rowsOf (p.extraOf node)) found e = .ok found' ∧
        p.Follows c w start (p.extraOf node) t.window (es ++ [e]) found' sources' := by
  obtain ⟨h, b, hget, hb, hd, hv, hn, hs, hcell⟩ := hsup.exists_rows hp ht he (.inr hw)
  rw [follow_eq hget, if_neg (by rw [hm]; decide), if_pos hw, hb]
  refine ⟨_, _, rfl, hf.input hm (s := .block b) rfl ⟨hs, hv, hn⟩ fun i flags hi hfl => ?_⟩
  obtain ⟨x, hx, hget⟩ := hcell i hi
  rw [hw]
  exact sight?_row hi hfl hd hs hx hget

/-- An input that is read through windows is followed if they do not begin above what it has. -/
theorem follow_window (hp : p.Sound) (ht : p.graph.terms[node]? = some t)
    (hsup : p.Supplied c w start ws node) (he : e ∈ p.graph.edgesOf node)
    (hf : p.Follows c w start (p.extraOf node) t.window es found sources) (hm : e.isMask = false)
    (hw : t.window ≠ 0) :
    ((p.extraOf node).toNat ≤ (p.extraOf e.node).toNat + 1 ∧ ∃ found' sources',
      p.follow ws node t (c.rowsOf (p.extraOf node)) found e = .ok found' ∧
        p.Follows c w start (p.extraOf node) t.window (es ++ [e]) found' sources') ∨
    (¬(p.extraOf node).toNat ≤ (p.extraOf e.node).toNat + 1 ∧
      ∃ err, p.follow ws node t (c.rowsOf (p.extraOf node)) found e = .error err) := by
  obtain ⟨h, hget, hh⟩ := hsup.holds e he
  have hnot : ¬(e.isMask = true ∨ t.window = 0) := not_or.2 ⟨by rw [hm]; decide, hw⟩
  have hdemand := hp.demand node (Array.getElem?_eq_some_iff.1 ht).1 e he
  rw [hp.extraRows_eq ht he, if_neg hnot] at hdemand
  rw [follow_eq hget, if_neg (not_or.1 hnot).1, if_neg hw, offsetOf, hp.extraRows_eq ht he, if_neg hnot]
  by_cases hfit : (p.extraOf node).toNat ≤ (p.extraOf e.node).toNat + 1
  · obtain ⟨cur, windows, htr, hshow, hfits, hsight⟩ := Chunk.window_spec hsup.covers hh
      (hsup.deep node) (hsup.deep e.node) hw hdemand hfit
    rw [htr]
    exact .inl ⟨hfit, _, _, rfl, hf.input hm (s := .windows windows) hshow hfits hsight⟩
  · obtain ⟨err, htr⟩ := @Chunk.window_error _ _ _ _ _ _ _ hsup.covers hh (hsup.deep node) (hsup.deep e.node)
      t.window hfit
    rw [htr]
    exact .inr ⟨hfit, _, rfl⟩

/-- An edge is followed to what its strand shows, unless it is blocked. -/
theorem follow_spec (hp : p.Sound) (ht : p.graph.terms[node]? = some t) (hsup : p.Supplied c w start ws node)
    (he : e ∈ p.graph.edgesOf node)
    (hf : p.Follows c w start (p.extraOf node) t.window es found sources) :
    (¬p.Blocked w node t e ∧ ∃ found' sources',
      p.follow ws node t (c.rowsOf (p.extraOf node)) found e = .ok found' ∧
        p.Follows c w start (p.extraOf node) t.window (es ++ [e]) found' sources') ∨
    (p.Blocked w node t e ∧
      ∃ err, p.follow ws node t (c.rowsOf (p.extraOf node)) found e = .error err) := by
  unfold Blocked
  cases hm : e.isMask with
  | true =>
    rcases follow_mask hp ht hsup he hf hm with ⟨hbool, found', hok, hf'⟩ | ⟨hbool, herr⟩
    · exact .inl ⟨by simp [hbool], found', sources, hok, hf'⟩
    · exact .inr ⟨.inl ⟨rfl, hbool⟩, herr⟩
  | false =>
    by_cases hw : t.window = 0
    · exact .inl ⟨by simp [hw], follow_row hp ht hsup he hf hm hw⟩
    · rcases follow_window hp ht hsup he hf hm hw with ⟨hfit, hok⟩ | ⟨hfit, herr⟩
      · exact .inl ⟨by simp [hfit], hok⟩
      · exact .inr ⟨.inr ⟨rfl, hw, hfit⟩, herr⟩

/-- The edges are all followed, unless one of them is blocked. -/
theorem foldlM_follow (hp : p.Sound) (ht : p.graph.terms[node]? = some t) (hsup : p.Supplied c w start ws node) {rest : List Edge}
    (hrest : ∀ e ∈ rest, e ∈ p.graph.edgesOf node)
    (hf : p.Follows c w start (p.extraOf node) t.window es found sources) :
    ((∀ e ∈ rest, ¬p.Blocked w node t e) ∧ ∃ found' sources',
      rest.foldlM (p.follow ws node t (c.rowsOf (p.extraOf node))) found = .ok found' ∧
        p.Follows c w start (p.extraOf node) t.window (es ++ rest) found' sources') ∨
    ((∃ e ∈ rest, p.Blocked w node t e) ∧
      ∃ err, rest.foldlM (p.follow ws node t (c.rowsOf (p.extraOf node))) found = .error err) := by
  induction rest generalizing es found sources with
  | nil => exact .inl ⟨fun _ he => (nomatch he), found, sources, rfl, by rwa [List.append_nil]⟩
  | cons e rest ih =>
    rw [List.foldlM_cons]
    rcases follow_spec hp ht hsup (hrest e List.mem_cons_self) hf with
      ⟨hn, found', sources', hok, hf'⟩ | ⟨hb, err, herr⟩
    · rw [hok]
      have hmem : ∀ e ∈ rest, e ∈ p.graph.edgesOf node := fun e he => hrest e (List.mem_cons_of_mem _ he)
      rcases ih hmem hf' with ⟨hns, hrest'⟩ | ⟨⟨e', he', hb⟩, herr⟩
      · refine .inl ⟨fun e' he' => ?_, by rwa [List.append_cons]⟩
        rcases List.mem_cons.1 he' with rfl | he'
        · exact hn
        · exact hns e' he'
      · exact .inr ⟨⟨e', List.mem_cons_of_mem _ he', hb⟩, herr⟩
    · rw [herr]
      exact .inr ⟨⟨e, List.mem_cons_self, hb⟩, err, rfl⟩

/-! ## The node -/

/-- A reader has its own rows of the chunk before it follows an edge. -/
theorem Follows.nil (hc : c.Covers w start) :
    p.Follows c w start extra window [] (c.maskFrom extra, []) [] where
  shape := by
    rw [Chunk.maskFrom, Grid.shape_sliceRows, (Grid.shape_eq.1 hc.mask).1, (Grid.shape_eq.1 hc.mask).2,
      Nat.min_self]
    rfl
  passes i hi := by
    refine ⟨[], rfl, ?_⟩
    rw [Chunk.rowsOf] at hi
    rw [Chunk.maskFrom, Grid.row_sliceRows (by rw [(Grid.shape_eq.1 hc.mask).1]; omega),
      hc.live _ (by omega), Chunk.sessionOf, Nat.add_assoc]
    exact (List.filter_eq_self.2 fun _ _ => rfl).symm
  feeds := .nil
  fits _ hs := nomatch hs
  sights _ _ _ _ := rfl

/-- A blocked edge leaves its reader without rows, or breaks the plan. -/
theorem rowAt?_of_blocked (he : e ∈ p.graph.edgesOf node)
    (hb : p.Blocked w node t e) : ¬p.FitsAt node t ∨ ∀ r,
      t.rowAt? w (p.graph.strands w node true) (p.graph.strands w node false) r = none := by
  rcases hb with ⟨hm, hd⟩ | ⟨hm, hw, hfit⟩
  · refine .inr fun r => ?_
    have hmem : p.graph.strand w e.node ∈ p.graph.strands w node true :=
      List.mem_map.2 ⟨e, List.mem_filter.2 ⟨he, by rw [hm]; rfl⟩, rfl⟩
    rw [Term.rowAt?, Checked.mapM_of_none hmem (if_neg hd)]
    rfl
  · exact .inl fun h => hfit (h hw e he hm)

/-- The cells of a masked grid, found by asset. -/
theorem get?_eq_lookup {mask : Grid Bool} {cells : Grid Scalar} {sids : List Sid} {missing : Scalar}
    (hn : sids.Nodup) (hm : mask.ncols = sids.length) (hs : cells.shape = mask.shape)
    (hout : ∀ i j, mask.get? i j = some false → cells.get? i j = some missing) {i j : Nat} {sid : Sid}
    (hi : i < mask.nrows) (hj : sids[j]? = some sid) :
    cells.get? i j = some ((((pick (mask.row i) sids).zip (pick (mask.row i) (cells.row i))).lookup
      sid).getD missing) := by
  have hcells := Grid.shape_eq.1 hs
  have hjn : j < mask.ncols := by
    rw [hm]
    exact (List.getElem?_eq_some_iff.1 hj).1
  have hflags : (mask.row i).length = sids.length := (Grid.length_row hi).trans hm
  have hrow : (mask.row i).length = (cells.row i).length := by
    rw [Grid.length_row hi, Grid.length_row (hcells.1.symm ▸ hi), hcells.2]
  rw [lookup_pick hn hflags hrow hj, Grid.getElem?_row, Grid.getElem?_row]
  by_cases hf : mask.get? i j = some true
  · rw [if_pos hf, Grid.get?_of_lt (hcells.1.symm ▸ hi) (hcells.2.symm ▸ hjn)]
    rfl
  · rw [if_neg hf]
    refine hout i j ?_
    rw [Grid.get?_of_lt hi hjn] at hf ⊢
    simpa using hf

/-- What a node evaluates its term in. -/
def contextOf (p : Plan) (c : Chunk) (node : Nat) (mask : Grid Bool) : Context :=
  ⟨c.datesFrom (p.extraOf node), c.sids, mask⟩

/-- Once its edges are followed, the row of the strand is the row of the evaluation. -/
theorem Follows.rowAt?_eq (hc : c.Covers w start)
    (hf : p.Follows c w start (p.extraOf node) t.window (p.graph.edgesOf node) found sources)
    {i : Nat} (hi : i < c.rowsOf (p.extraOf node)) :
    t.rowAt? w (p.graph.strands w node true) (p.graph.strands w node false)
        (c.sessionOf start (p.extraOf node) i) =
      (t.row? ((p.contextOf c node found.1).dates.getD i ⟨0⟩)
          (Evaluate.assets (p.contextOf c node found.1) i)
          (Evaluate.seen (p.contextOf c node found.1) sources i)).map
        fun values sid =>
          (((Evaluate.assets (p.contextOf c node found.1) i).zip values).lookup sid).getD t.missing := by
  obtain ⟨ps, hps, hpick⟩ := hf.passes i hi
  have hdate : (p.contextOf c node found.1).dates.getD i ⟨0⟩ = w.date (c.sessionOf start (p.extraOf node) i) := by
    show (c.datesFrom (p.extraOf node)).getD i ⟨0⟩ = _
    rw [Chunk.rowsOf] at hi
    rw [Chunk.datesFrom, List.getD_eq_getElem?_getD, List.getElem?_drop, hc.date _ (by omega),
      Chunk.sessionOf, Nat.add_assoc]
    rfl
  have hflags : (found.1.row i).length = c.sids.length := by
    rw [Grid.length_row ((Grid.shape_eq.1 hf.shape).1.symm ▸ hi)]
    exact (Grid.shape_eq.1 hf.shape).2
  have hsights := hf.sights i (found.1.row i) hi hflags
  have hstrands (isMask : Bool) :
      p.graph.strands w node isMask = along p.graph w (p.graph.edgesOf node) isMask := rfl
  simp only [Term.rowAt?, Option.bind_eq_bind, hstrands, hps, Option.bind_some, ← hpick, hsights, hdate]
  exact Option.map_eq_bind.symm

theorem shape_contextOf (p : Plan) (c : Chunk) (node : Nat) (mask : Grid Bool) :
    (p.contextOf c node mask).shape = (c.rowsOf (p.extraOf node), c.sids.length) := by
  rw [Context.shape, contextOf, Chunk.length_datesFrom]

theorem rowsOf_pos (hc : c.Covers w start) (extra : UInt64) : 0 < c.rowsOf extra := by
  have := hc.output
  rw [Chunk.rowsOf, Chunk.firstRow]
  omega

/-- What the edges have given a reader is ready to be evaluated. -/
theorem Follows.ready (hc : c.Covers w start)
    (hf : p.Follows c w start (p.extraOf node) window es found sources) :
    Evaluate.Ready (p.contextOf c node found.1) sources found.2 := by
  have hshape := p.shape_contextOf c node found.1
  have hrows : (p.contextOf c node found.1).dates.length = c.rowsOf (p.extraOf node) := congrArg Prod.fst hshape
  exact ⟨hrows ▸ rowsOf_pos hc _, hf.shape.trans hshape.symm, hrows ▸ hf.feeds, hshape ▸ hf.fits⟩

/-- A block that gives the assets of each row what the strand has for them holds the strand. -/
theorem Follows.holds (hc : c.Covers w start)
    (hf : p.Follows c w start (p.extraOf node) window es found sources) {b : Block}
    (hs : b.shape = (c.rowsOf (p.extraOf node), c.sids.length)) (hv : b.Valid) (hn : b.Distinct)
    {s : Strand} (hd : b.dtype = s.dtype) {missing : Scalar}
    (hrow : ∀ i < c.rowsOf (p.extraOf node), ∀ r, s.row? (c.sessionOf start (p.extraOf node) i) r =
      some fun sid => (((pick (found.1.row i) c.sids).zip (pick (found.1.row i) (b.cells.row i))).lookup
        sid).getD missing)
    (hout : ∀ i j, found.1.get? i j = some false → b.get? i j = some missing) :
    c.Holds start (p.extraOf node) s ⟨b, [], missing⟩ := by
  refine ⟨hv, hn, hd, hs, fun i q hiq hq => ?_⟩
  have hi := Nat.lt_of_le_of_lt hiq hq
  refine ⟨_, hrow i hi _, fun j sid hj => ?_⟩
  have hmask := Grid.shape_eq.1 hf.shape
  rw [History.cell?, History.knownBefore_of_isEmpty rfl, ← Block.get?_cells]
  exact get?_eq_lookup hc.nodup hmask.2 (b.shape_cells.trans (hs.trans hf.shape.symm))
    (fun i j h => (Block.get?_cells ..).trans (hout i j h)) (hmask.1.symm ▸ hi) hj

/-- A node that can be computed is, and then its strand is held; any other fails. -/
theorem computeNode_spec (hp : p.Sound) (ht : p.graph.terms[node]? = some t) (hg : p.graph.isGiven node t = false)
    (hsup : p.Supplied c w start ws node) (hd : ∀ k, t.kind = .custom k → k.Decodes) :
    (p.Computable c w start node t ∧ ∃ h, p.computeNode c ws node t = .ok h ∧
      c.Holds start (p.extraOf node) (p.graph.strand w node) h) ∨
    (¬p.Computable c w start node t ∧ ∃ err, p.computeNode c ws node t = .error err) := by
  have hc := hsup.covers
  have hstrand := TermGraph.strand_computed (w := w) ht hg (hp.lt node)
  have hall : ∀ e ∈ p.graph.edgesOf node, e ∈ p.graph.edgesOf node := fun _ he => he
  rw [Computable, hstrand, computeNode, Chunk.length_datesFrom]
  rcases foldlM_follow hp ht hsup hall (Follows.nil hc) with
    ⟨hblock, found, sources, hfold, hf⟩ | ⟨⟨e, he, hb⟩, err, hfold⟩
  · have hfit : p.FitsAt node t := fun hw e he hm =>
      not_not.1 fun hn => hblock e he (.inr ⟨hm, hw, hn⟩)
    rw [List.nil_append] at hf
    have hshape := p.shape_contextOf c node found.1
    have hrows : (p.contextOf c node found.1).dates.length = c.rowsOf (p.extraOf node) := congrArg Prod.fst hshape
    rw [hfold]
    rcases Evaluate.evaluate_spec t (hf.ready hc) hd with
      ⟨b, hb, hbd, hbs, hbv, hbn, hcells, hout⟩ | ⟨⟨err, herr⟩, i, hi, hnone⟩
    · have hrow (i : Nat) (hi : i < c.rowsOf (p.extraOf node)) := hf.rowAt?_eq hc hi
      have hholds := hf.holds hc (hbs.trans hshape) hbv hbn
        (s := ⟨t.missing.dtype, fun q _ => t.rowAt? w (p.graph.strands w node true) (p.graph.strands w node false) q⟩)
        hbd (fun i hi _ => (hrow i hi).trans (by rw [hcells i (hrows ▸ hi)]; rfl)) hout
      refine .inl ⟨⟨hfit, fun i hi => ?_⟩, ⟨b, [], t.missing⟩, ?_, hholds⟩
      · obtain ⟨x, hx, -⟩ := hholds.cell i i (Nat.le_refl _) hi
        exact Option.isSome_iff_exists.2 ⟨x, hx⟩
      · show (evaluate t found.2 (p.contextOf c node found.1)).mapError _ >>= _ = _
        rw [hb]
        show (History.unadjusted b t.missing).mapError _ = _
        rw [History.unadjusted, History.mk?, Block.expect_eq_ok.2 hbd.symm]
        rfl
    · -- the evaluation has no row `i`, so the strand has none either
      refine .inr ⟨fun hcomp => ?_, .eval err, ?_⟩
      · have hsome := hcomp.2 i (hrows ▸ hi)
        have hrow := hf.rowAt?_eq hc (hrows ▸ hi)
        rw [hnone, Option.map_none] at hrow
        rw [show (Strand.mk _ _).row? _ _ = none from hrow] at hsome
        cases hsome
      · show (evaluate t found.2 (p.contextOf c node found.1)).mapError _ >>= _ = _
        rw [herr]
        rfl
  · refine .inr ⟨fun hcomp => ?_, err, by rw [hfold]; rfl⟩
    rcases rowAt?_of_blocked he hb with hfit | hr
    · exact hfit hcomp.1
    · have hsome := hcomp.2 0 (rowsOf_pos hc _)
      rw [show (Strand.mk _ _).row? _ _ = none from hr _] at hsome
      cases hsome

end Plan
end AsOf
