import AsOf.Proofs.Evaluate.Follow
import Mathlib.Data.List.Sort

/-!
# Every kind of term, over some of the columns

Where an evaluation over a context succeeds, so does one over some of its columns, from
inputs that show those columns, and it comes to those columns of the result: a term that
does not look across a row treats every asset by itself, and one that does sees no asset
outside of its mask, so it is enough that the columns hold all that the mask lets through.

* `follows`: one lemma a kind, and all of them.
* `evaluate_selectColumns`: the result of an evaluation.
-/
namespace AsOf.Evaluate

variable {t : Term} {flags : List Bool} {ctx : Context} {inputs inputs' : List Input}

/-! ## Kinds without inputs -/

theorem restricts_full (hs : Selects flags ctx) (value : Scalar) : (Block.full value ctx.shape).Restricts (places flags)
    (.full value (ctx.selectColumns (places flags)).shape) := by
  refine .of_cells (Block.valid_full ..) (Block.valid_full ..) ?_ ?_
  · rw [Block.dtype_full, Block.dtype_full]
  · rw [Block.cells_full, Block.cells_full, Grid.selectColumns_replicate (pairwise_places flags) hs.inside,
      hs.shape_selectColumns]

theorem follows_constant (hs : Selects flags ctx) {value : Scalar} (hk : t.kind = .constant value) :
    Follows flags ctx (unmasked t inputs ctx) (unmasked t inputs' (ctx.selectColumns (places flags))) := by
  intro out ho _
  have hu (inputs : List Input) (ctx : Context) : unmasked t inputs ctx = .ok (.full value ctx.shape) := by
    rw [unmasked, hk]
    rfl
  obtain rfl := Except.ok.inj ((hu inputs ctx).symm.trans ho)
  exact ⟨_, hu .., .inr (restricts_full hs value)⟩

theorem follows_staticAssets (hs : Selects flags ctx) {keep : List Sid} (hk : t.kind = .staticAssets keep) :
    Follows flags ctx (unmasked t inputs ctx) (unmasked t inputs' (ctx.selectColumns (places flags))) := by
  intro out ho _
  have hu (inputs : List Input) (ctx : Context) : unmasked t inputs ctx =
      .ok (.bools (gridOf ctx.shape false (List.replicate ctx.shape.1 (ctx.sids.map keep.contains)))) := by
    rw [unmasked, hk]
    rfl
  obtain rfl := Except.ok.inj ((hu inputs ctx).symm.trans ho)
  refine ⟨_, hu .., .inl ?_⟩
  rw [hs.shape_selectColumns]
  show Block.bools (gridOf _ false (List.replicate ctx.shape.1 (((places flags).filterMap (ctx.sids[·]?)).map _))) = _
  rw [← pick_eq_filterMap, ← pick_map, ← List.map_replicate, gridOf_pick hs.length]
  rfl

/-! ## Kinds that read windows -/

theorem latest_cons (t : Term) (shape : Nat × Nat) (c : Cursor) (cs : List Cursor) : latest t shape (c :: cs) =
    overRows t (fun _ _ b => .ok (b.sliceRows (b.nrows - 1) b.nrows)) (fun _ bs => .ok bs) (List.range shape.1) [c] >>=
      fun rows => if rows.isEmpty then .ok (.full t.missing shape)
        else (Block.concatRows rows.flatten).mapError .array := by
  refine congrArg (overRows t _ _ (List.range shape.1) [c] >>= ·) (funext fun rows => ?_)
  cases rows <;> rfl

theorem follows_latest (hs : Selects flags ctx) (hin : Given flags ctx inputs inputs') (hk : t.kind = .latest) :
    Follows flags ctx (unmasked t inputs ctx) (unmasked t inputs' (ctx.selectColumns (places flags))) := by
  intro out ho hshape
  have hasc := pairwise_places flags
  have hu (inputs : List Input) (ctx : Context) : unmasked t inputs ctx = cursors t inputs >>= latest t ctx.shape := by
    rw [unmasked, hk]
  rw [hu] at ho ⊢
  obtain ⟨cs, hcs, ho⟩ := Checked.bind_eq_ok.1 ho
  obtain ⟨cs', hcs', hpaired⟩ := cursors_follow hin hcs
  cases hpaired with
  | nil => cases ho
  | @cons c c' _ _ hc _ =>
    rw [latest_cons] at ho
    obtain ⟨rows, hrows, ho⟩ := Checked.bind_eq_ok.1 ho
    have hlast : (c.take (List.range ctx.shape.1).length).Forall₂ (Block.Restricts (places flags))
        (c'.take (List.range ctx.shape.1).length) := by rwa [List.length_range]
    obtain ⟨rows', hrows', hrel⟩ : ∃ rows', overRows t (fun _ _ b => .ok (b.sliceRows (b.nrows - 1) b.nrows))
        (fun _ bs => .ok bs) (List.range ctx.shape.1) [c'] = .ok rows' ∧
          List.Forall₂ (List.Forall₂ (Block.Restricts (places flags))) rows rows' := by
      refine overRows_keeps (X := fun _ => Block.Restricts (places flags)) (fun _ _ _ w w' x hw hx => ?_)
        (fun _ _ xs xs' y hxs hy => ?_) (.cons hlast .nil) hrows
      · obtain rfl := Except.ok.inj hx
        exact ⟨_, rfl, hw.nrows ▸ hw.sliceRows hasc _ _⟩
      · obtain rfl := Except.ok.inj hy
        exact ⟨xs', rfl, hxs⟩
    have hgo {out' : Block} (h : (if rows'.isEmpty then .ok (.full t.missing (ctx.selectColumns (places flags)).shape)
        else (Block.concatRows rows'.flatten).mapError EvalError.array) = Except.ok out') :
        (cursors t inputs' >>= latest t (ctx.selectColumns (places flags)).shape) = .ok out' := by
      refine Checked.bind_eq_ok.2 ⟨_, hcs', ?_⟩
      rw [latest_cons]
      exact Checked.bind_eq_ok.2 ⟨rows', hrows', h⟩
    cases hrel with
    | nil =>
      obtain rfl := Except.ok.inj ho
      exact ⟨_, hgo rfl, .inr (restricts_full hs t.missing)⟩
    | cons hrow hrest =>
      obtain ⟨out', ho', hrestricts⟩ := Block.Restricts.concatRows hasc (List.rel_flatten (.cons hrow hrest))
        (Checked.mapError_eq_ok.1 ho) fun j hj => (hs.inside j hj).trans_eq (congrArg Prod.snd hshape.symm)
      exact ⟨out', hgo (Checked.mapError_eq_ok.2 ho'), .inr hrestricts⟩

/-- Values put in their places, of which some are picked. -/
theorem scatter_pick {n : Nat} (hl : flags.length = n) {inner : List Bool} {v v' : Nat → Option Float}
    {xs xs' : List Float} (hx : ∀ k : Nat, xs[k]? = (places inner)[k]?.bind v)
    (hx' : ∀ k : Nat, xs'[k]? = (places (pick flags inner))[k]?.bind v')
    (hv : ∀ p : Nat, v' p = (places flags)[p]?.bind v) :
    Stats.scatter (places flags).length ((places (pick flags inner)).zip xs') =
      pick flags (Stats.scatter n ((places inner).zip xs)) := by
  have hnodup (inner : List Bool) (xs : List Float) : (((places inner).zip xs).map (·.1)).Nodup :=
    (nodup_places inner).sublist (map_fst_zip_sublist _ _)
  apply List.ext_getElem?
  intro p
  rw [getElem?_pick]
  cases hp : (places flags)[p]? with
  | none =>
    rw [Option.bind_none, List.getElem?_eq_none_iff, Stats.length_scatter]
    exact List.getElem?_eq_none_iff.1 hp
  | some j =>
    have hj : j < n := (lt_of_mem_places (List.mem_of_getElem? hp)).trans_eq hl
    rw [Option.bind_some, Stats.getElem?_scatter (hnodup ..) hj,
      Stats.getElem?_scatter (hnodup ..) (List.getElem?_eq_some_iff.1 hp).1, lookup_places hx, lookup_places hx',
      hv, getElem?_pick, hp, Option.bind_some, Option.bind_some]

/-- The numbers in some columns of a window. -/
theorem numbers_restricts {cols ks ks' : List Nat} {w w' : Block} (hw : w.Restricts cols w') {index : Nat}
    {x : Grid Float} (hx : numbers t index (w.selectColumns ks) = .ok x) : ∃ x',
      numbers t index (w'.selectColumns ks') = .ok x' ∧
        ∃ g : Grid Float, x = g.selectColumns ks ∧ x' = (g.selectColumns cols).selectColumns ks' := by
  rw [numbers_eq, Block.dtype_selectColumns] at hx
  rw [numbers_eq, Block.dtype_selectColumns, hw.dtype]
  by_cases hd : w.dtype = .categorical
  · rw [if_pos hd] at hx
    cases hx
  · rw [if_neg hd] at hx ⊢
    obtain rfl := Except.ok.inj hx
    refine ⟨_, rfl, w.cells.map (Scalar.number (t.missingOf index)), ?_, ?_⟩
    · rw [Block.cells_selectColumns, Grid.map_selectColumns]
    · rw [Block.cells_selectColumns, hw.cells, Grid.map_selectColumns, Grid.map_selectColumns]

theorem follows_windowed (hs : Selects flags ctx) (hin : Given flags ctx inputs inputs') {k : WindowKernel}
    (hk : t.kind = .window k) :
    Follows flags ctx (unmasked t inputs ctx) (unmasked t inputs' (ctx.selectColumns (places flags))) := by
  intro out ho _
  have hu (inputs : List Input) (ctx : Context) : unmasked t inputs ctx = cursors t inputs >>= windowed t k ctx := by
    rw [unmasked, hk]
  rw [hu] at ho ⊢
  obtain ⟨cs, hcs, ho⟩ := Checked.bind_eq_ok.1 ho
  obtain ⟨cs', hcs', hpaired⟩ := cursors_follow hin hcs
  obtain ⟨rows, hrows, ho⟩ := Checked.bind_eq_ok.1 ho
  obtain rfl := Except.ok.inj ho
  let flagsOf (row : Nat) : List Bool := pick flags (ctx.mask.row row)
  have hflags (row : Nat) : (ctx.selectColumns (places flags)).columns row = places (flagsOf row) :=
    congrArg places (Grid.row_selectColumns flags ctx.mask row)
  obtain ⟨rows', hrows', hrel⟩ : ∃ rows', overRows t
      (fun row index b => numbers t index (b.selectColumns ((ctx.selectColumns (places flags)).columns row)))
      (fun row windows => .ok (Stats.scatter (ctx.selectColumns (places flags)).shape.2
        (((ctx.selectColumns (places flags)).columns row).zip (k.compute windows)))) (List.range ctx.shape.1) cs' =
        .ok rows' ∧ List.Forall₂ (fun y y' => y' = pick flags y) rows rows' := by
    refine overRows_keeps (X := fun row x x' => ∃ g : Grid Float, x = g.selectColumns (ctx.columns row) ∧
        x' = (g.selectColumns (places flags)).selectColumns (places (flagsOf row)))
      (fun row _ index w w' x hw hx => ?_) (fun row _ xs xs' y hxs hy => ?_) (by rwa [List.length_range]) hrows
    · rw [hflags]
      exact numbers_restricts hw hx
    · obtain ⟨gs, rfl, rfl⟩ := Checked.exists_map_eq hxs
      obtain rfl := Except.ok.inj hy
      refine ⟨_, rfl, ?_⟩
      rw [hflags, hs.shape_selectColumns]
      refine scatter_pick hs.length (v := k.value? gs) (fun i => ?_) (fun i => ?_)
        (k.value?_selectColumns (pairwise_places flags) gs)
      · rw [k.getElem?_compute]
        exact k.value?_selectColumns (pairwise_places _) gs i
      · have hmap : gs.map (fun g => (g.selectColumns (places flags)).selectColumns (places (flagsOf row))) =
            (gs.map (Grid.selectColumns (places flags))).map (Grid.selectColumns (places (flagsOf row))) :=
          (List.map_map (g := Grid.selectColumns (places (flagsOf row))) (f := Grid.selectColumns (places flags))).symm
        rw [hmap, k.getElem?_compute]
        exact k.value?_selectColumns (pairwise_places _) _ i
  refine ⟨_, Checked.bind_eq_ok.2 ⟨cs', hcs', Checked.bind_eq_ok.2 ⟨rows', hrows', rfl⟩⟩, .inl ?_⟩
  rw [hs.shape_selectColumns, Checked.eq_map hrel, gridOf_pick hs.length, ofFloats_selectColumns]

/-- What a custom kernel gives for some of the assets, if it is given for all of them that take part. -/
theorem kernelCells_pick {n : Nat} (hl : flags.length = n) {inner : List Bool} (hi : inner.length = flags.length)
    (hle : ∀ j : Nat, inner[j]? = some true → flags[j]? = some true) {result : Except String RowValues}
    {row : List (Option Scalar)} (h : kernelCells t n inner result = .ok row) :
    kernelCells t (places flags).length (pick flags inner) result = .ok (pick flags row) := by
  cases result with
  | error reason => cases h
  | ok values =>
    rw [kernelCells] at h ⊢
    rw [length_places_pick hi hle]
    by_cases hf : (values.length ≠ (places inner).length || values.dtype ≠ t.dtype) = true
    · rw [if_pos hf] at h
      cases h
    · rw [if_neg hf] at h ⊢
      obtain rfl := Except.ok.inj h
      refine congrArg Except.ok (List.ext_getElem? fun p => ?_)
      rw [getElem?_pick, List.getElem?_map]
      cases hp : (places flags)[p]? with
      | none =>
        rw [Option.bind_none, List.getElem?_eq_none (by simpa using List.getElem?_eq_none_iff.1 hp)]
        rfl
      | some j =>
        have hj : j < n := (lt_of_mem_places (List.mem_of_getElem? hp)).trans_eq hl
        rw [Option.bind_some, List.getElem?_map, List.getElem?_range hj,
          List.getElem?_range (List.getElem?_eq_some_iff.1 hp).1, Option.map_some, Option.map_some,
          lookup_places_pick hi hle _ hp]

/-- The cells of a block overlaid with values of its shape. -/
theorem cells_overlay {cells : Grid (Option Scalar)} {shape : Nat × Nat} (hs : cells.shape = shape) (missing : Scalar) :
    (overlay cells (.full missing shape)).cells =
      cells.map fun x => (x.bind (Scalar.cast? missing.dtype)).getD missing := by
  obtain ⟨-, hshape, -, -, hcells⟩ := overlay_full cells missing shape
  have hs' := Grid.shape_eq.1 hs
  refine Grid.ext_get? (((Block.shape_cells _).trans hshape).trans hs.symm) fun i j => ?_
  rw [Grid.get?_map]
  by_cases hij : i < shape.1 ∧ j < shape.2
  · obtain ⟨x, hx⟩ := Option.isSome_iff_exists.1 (Grid.isSome_get?.2 ⟨hs'.1.symm ▸ hij.1, hs'.2.symm ▸ hij.2⟩)
    rw [hcells i hij.1 j hij.2, hx]
    rfl
  · have hs'' := Grid.shape_eq.1 ((Block.shape_cells _).trans hshape)
    rw [Grid.get?_eq_none.2 (by rwa [hs''.1, hs''.2]), Grid.get?_eq_none.2 (by rwa [hs'.1, hs'.2])]
    rfl

theorem follows_custom (hs : Selects flags ctx) (hin : Given flags ctx inputs inputs') {k : RowKernel}
    (hk : t.kind = .custom k) (hd : k.Decodes)
    (hle : ∀ i j : Nat, (ctx.mask.row i)[j]? = some true → flags[j]? = some true) :
    Follows flags ctx (unmasked t inputs ctx) (unmasked t inputs' (ctx.selectColumns (places flags))) := by
  intro out ho _
  have hu (inputs : List Input) (ctx : Context) : unmasked t inputs ctx = cursors t inputs >>= custom t k ctx := by
    rw [unmasked, hk]
  rw [hu] at ho ⊢
  obtain ⟨cs, hcs, ho⟩ := Checked.bind_eq_ok.1 ho
  obtain ⟨cs', hcs', hpaired⟩ := cursors_follow hin hcs
  obtain ⟨rows, hrows, ho⟩ := Checked.bind_eq_ok.1 ho
  obtain rfl := Except.ok.inj ho
  have hmask (row : Nat) : (ctx.selectColumns (places flags)).mask.row row = pick flags (ctx.mask.row row) :=
    Grid.row_selectColumns flags ctx.mask row
  obtain ⟨rows', hrows', hrel⟩ : ∃ rows', overRows t
      (fun row _ b => .ok (b.selectColumns ((ctx.selectColumns (places flags)).columns row)))
      (customRow t k (ctx.selectColumns (places flags))) (List.range ctx.shape.1) cs' =
        .ok rows' ∧ List.Forall₂ (fun y y' => y' = pick flags y) rows rows' := by
    refine overRows_keeps (X := fun _ x x' => x.view = x'.view) (fun row hrow _ w w' x hw hx => ?_)
      (fun row hrow xs xs' y hxs hy => ?_) (by rwa [List.length_range]) hrows
    · obtain rfl := Except.ok.inj hx
      refine ⟨_, rfl, ?_⟩
      rw [show (ctx.selectColumns (places flags)).columns row = places (pick flags (ctx.mask.row row)) from
        congrArg places (hmask row), Block.view, Block.view, Block.dtype_selectColumns, Block.dtype_selectColumns,
        hw.dtype, Block.cells_selectColumns, Block.cells_selectColumns, hw.cells,
        Grid.selectColumns_selectColumns (pairwise_places flags) (pairwise_places _),
        filterMap_places_pick (hs.length_row (List.mem_range.1 hrow)) (hle row)]
      rfl
    · refine ⟨_, ?_, rfl⟩
      rw [customRow_eq] at hy ⊢
      rw [hd _ _ xs' xs (Checked.map_eq_map hxs fun _ _ h => h).symm, hs.shape_selectColumns, hmask,
        hs.assets_selectColumns (List.mem_range.1 hrow) (hle row)]
      exact kernelCells_pick hs.length (hs.length_row (List.mem_range.1 hrow)) (hle row) hy
  refine ⟨_, Checked.bind_eq_ok.2 ⟨cs', hcs', Checked.bind_eq_ok.2 ⟨rows', hrows', rfl⟩⟩, .inr ?_⟩
  rw [hs.shape_selectColumns, Checked.eq_map hrel]
  obtain ⟨hod, -, hov, -⟩ := overlay_full (gridOf ctx.shape none rows) t.missing ctx.shape
  obtain ⟨hod', -, hov', -⟩ := overlay_full (gridOf (ctx.shape.1, (places flags).length) none (rows.map (pick flags)))
    t.missing (ctx.shape.1, (places flags).length)
  refine .of_cells hov hov' (hod'.trans hod.symm) ?_
  rw [cells_overlay (shape_gridOf ..), cells_overlay (shape_gridOf ..), gridOf_pick hs.length, Grid.map_selectColumns]

/-! ## Formulas -/

theorem numbers_selectColumns {index : Nat} {b : Block} {g : Grid Float} (h : numbers t index b = .ok g)
    (cols : List Nat) :
    numbers t index (b.selectColumns cols) = .ok (g.selectColumns cols) := by
  rw [numbers_eq] at h
  rw [numbers_eq, Block.dtype_selectColumns]
  by_cases hd : b.dtype = .categorical
  · rw [if_pos hd] at h
    cases h
  · rw [if_neg hd] at h ⊢
    obtain rfl := Except.ok.inj h
    rw [Block.cells_selectColumns, Grid.map_selectColumns]

theorem shape_numbers {index : Nat} {b : Block} {g : Grid Float} (h : numbers t index b = .ok g) :
    g.shape = b.shape := by
  rw [numbers_eq] at h
  by_cases hd : b.dtype = .categorical
  · rw [if_pos hd] at h
    cases h
  · rw [if_neg hd] at h
    obtain rfl := Except.ok.inj h
    rw [Grid.shape_map, Block.shape_cells]

theorem numbersAll_selectColumns {bs : List Block} {gs : List (Grid Float)} (h : numbersAll t bs = .ok gs)
    (cols : List Nat) :
    numbersAll t (bs.map (Block.selectColumns cols)) = .ok (gs.map (Grid.selectColumns cols)) := by
  rw [numbersAll, List.zipIdx_map, List.mapM_map, Checked.mapM_eq_ok, List.forall₂_map_right_iff]
  exact (Checked.mapM_eq_ok.1 h).imp fun x g hx => numbers_selectColumns hx cols

/-- A formula treats every cell by itself. -/
theorem eval_selectColumns (e : Expr) {cols : List Nat} (h : cols.Pairwise (· < ·)) {shape : Nat × Nat}
    (hlt : ∀ j ∈ cols, j < shape.2) {gs : List (Grid Float)} (hs : ∀ g ∈ gs, g.shape = shape) :
    e.eval (gs.map (Grid.selectColumns cols)) (shape.1, cols.length) = (e.eval gs shape).selectColumns cols := by
  induction e with
  | input i =>
    rw [Expr.eval, Expr.eval, List.getD_eq_getElem?_getD, List.getD_eq_getElem?_getD, List.getElem?_map]
    cases gs[i]? with
    | none => exact (Grid.selectColumns_replicate h hlt nan).symm
    | some g => rfl
  | const c => exact (Grid.selectColumns_replicate h hlt c.toFloat).symm
  | unary op e ih => rw [Expr.eval, Expr.eval, ih, Grid.map_selectColumns]
  | binary op a b iha ihb =>
    rw [Expr.eval, Expr.eval, iha, ihb, Grid.selectColumns_zipWith h]
    exact (a.get?_eval hs).1.trans (b.get?_eval hs).1.symm

theorem follows_expression (hs : Selects flags ctx) (hin : Given flags ctx inputs inputs') {e : Expr}
    (hk : t.kind = .expression e) :
    Follows flags ctx (unmasked t inputs ctx) (unmasked t inputs' (ctx.selectColumns (places flags))) := by
  intro out ho _
  rw [unmasked_expression hk] at ho ⊢
  obtain ⟨bs, hbs, ho⟩ := Checked.bind_eq_ok.1 ho
  obtain ⟨gs, hgs, ho⟩ := Checked.bind_eq_ok.1 ho
  obtain rfl := Except.ok.inj ho
  obtain ⟨hbs', hshape⟩ := blocks_follow hs hin hbs
  have hgrids : ∀ g ∈ gs, g.shape = ctx.shape := fun g hg => by
    obtain ⟨x, hx, hxg⟩ := Checked.exists_left (Checked.mapM_eq_ok.1 hgs) hg
    exact (shape_numbers hxg).trans (hshape x.1 (List.fst_mem_of_mem_zipIdx hx))
  refine ⟨_, Checked.bind_eq_ok.2 ⟨_, hbs', Checked.bind_eq_ok.2 ⟨_, numbersAll_selectColumns hgs _, rfl⟩⟩, .inl ?_⟩
  rw [hs.shape_selectColumns, eval_selectColumns e (pairwise_places flags) hs.inside hgrids, ofFloats_selectColumns]

/-! ## Kinds that look across a row -/

/-- Values that are NaN where few flags are true are NaN where more are. -/
theorem blank_of_le {inner : List Bool} {xs : List Float} (h : Stats.Blank inner xs) (hl : flags.length = xs.length)
    (hle : ∀ j : Nat, inner[j]? = some true → flags[j]? = some true) : Stats.Blank flags xs := by
  obtain ⟨hlen, hget⟩ := List.forall₂_iff_get.1 h
  refine List.forall₂_iff_get.2 ⟨hl, fun j hj hx hflag => hget j (hlen.symm ▸ hx) hx ?_⟩
  by_contra hne
  have hinner : inner[j]? = some true := by
    rw [List.getElem?_eq_getElem (hlen.symm ▸ hx)]
    exact congrArg some (by simpa using hne)
  have := hle j hinner
  rw [List.getElem?_eq_getElem hj] at this
  exact Bool.false_ne_true (hflag.symm.trans (Option.some.inj this))

theorem groupIds?_selectColumns (missing : Scalar) (cols : List Nat) (b : Block) :
    groupIds? missing (b.selectColumns cols) = (groupIds? missing b).map (Grid.selectColumns cols) := by
  cases b with
  | ints g => exact congrArg some (Grid.map_selectColumns ..)
  | labels a => exact congrArg some (Grid.map_selectColumns (groupOfCode missing a) cols a.codes)
  | _ => rfl

theorem shape_groupIds? {missing : Scalar} {b : Block} {gs : Grid (Option Int)} (h : groupIds? missing b = some gs) :
    gs.shape = b.shape := by
  cases b <;> cases h <;> rfl

theorem groupsOf_selectColumns (bs : List Block) (cols : List Nat) :
    groupsOf t (bs.map (Block.selectColumns cols)) = (groupsOf t bs).map (Grid.selectColumns cols) := by
  unfold groupsOf
  rw [List.getElem?_map]
  cases t.inputs[1]? with
  | none => rfl
  | some classifier =>
    cases bs[1]? with
    | none => rfl
    | some b => exact groupIds?_selectColumns classifier.missing cols b

theorem shape_groupsOf {shape : Nat × Nat} {bs : List Block} (hb : ∀ b ∈ bs, b.shape = shape) {gs : Grid (Option Int)}
    (h : groupsOf t bs = some gs) : gs.shape = shape := by
  unfold groupsOf at h
  cases hc : t.inputs[1]? with
  | none =>
    rw [hc] at h
    cases h
  | some classifier =>
    cases hb1 : bs[1]? with
    | none =>
      rw [hc, hb1] at h
      cases h
    | some b =>
      rw [hc, hb1] at h
      exact (shape_groupIds? h).trans (hb b (List.mem_of_getElem? hb1))

/-- The numbers of the first input, or of none. -/
theorem firstNumbers_follow (hs : Selects flags ctx) {bs : List Block} (hshape : ∀ b ∈ bs, b.shape = ctx.shape)
    {g : Grid Float} (h : numbers t 0 (bs.headD (.floats (.replicate ctx.shape nan))) = .ok g) :
    numbers t 0 ((bs.map (Block.selectColumns (places flags))).headD
        (.floats (.replicate (ctx.selectColumns (places flags)).shape nan))) = .ok (g.selectColumns (places flags)) ∧
      g.shape = ctx.shape := by
  refine ⟨?_, (shape_numbers h).trans ?_⟩
  · rw [← numbers_selectColumns h (places flags)]
    cases bs with
    | cons b bs => rfl
    | nil =>
      rw [hs.shape_selectColumns, List.map_nil, List.headD_nil,
        ← Grid.selectColumns_replicate (pairwise_places flags) hs.inside]
      rfl
  · cases bs with
    | nil => rfl
    | cons b bs => exact hshape b List.mem_cons_self

/-- Numbers under the mask are NaN for every asset that does not take part. -/
theorem blank_row (hs : Selects flags ctx) {g : Grid Float} (hg : g.shape = ctx.shape) {i : Nat} (hi : i < ctx.shape.1)
    (hle : ∀ j : Nat, (ctx.mask.row i)[j]? = some true → flags[j]? = some true) :
    Stats.Blank flags ((underMask ctx g).row i) := by
  refine blank_of_le (blank_underMask hs.mask hg hi) ?_ hle
  rw [← hs.length_row hi, length_flags_eq hs.mask (shape_underMask hs.mask hg) hi]

theorem underMask_selectColumns (hs : Selects flags ctx) {g : Grid Float} (hg : g.shape = ctx.shape) :
    underMask (ctx.selectColumns (places flags)) (g.selectColumns (places flags)) =
      (underMask ctx g).selectColumns (places flags) :=
  (Grid.selectColumns_zipWith (pairwise_places flags) _ (hg.trans hs.mask.symm)).symm

/-- The cross-section of the assets under the flags, if no other asset takes part. -/
theorem crossSection_follows (hs : Selects flags ctx) (hin : Given flags ctx inputs inputs')
    (hle : ∀ i j : Nat, (ctx.mask.row i)[j]? = some true → flags[j]? = some true) {grouped : Bool}
    {values : Grid Float} {groups : Option (Grid (Option Int))}
    (h : crossSection t ctx grouped inputs = .ok (values, groups)) :
    crossSection t (ctx.selectColumns (places flags)) grouped inputs' =
        .ok (values.selectColumns (places flags), groups.map (Grid.selectColumns (places flags))) ∧
      values.shape = ctx.shape ∧ (∀ gs ∈ groups, gs.shape = ctx.shape) ∧
      ∀ i < ctx.shape.1, Stats.Blank flags (values.row i) := by
  obtain ⟨bs, hbs, h'⟩ := Checked.bind_eq_ok.1 h
  obtain ⟨g, hg, -⟩ := Checked.bind_eq_ok.1 h'
  obtain ⟨hbs', hshape⟩ := blocks_follow hs hin hbs
  obtain ⟨hg', hgs⟩ := firstNumbers_follow hs hshape hg
  have hvalues := shape_underMask hs.mask hgs
  have hblank (i : Nat) (hi : i < ctx.shape.1) := blank_row hs hgs hi (hle i)
  rw [crossSection_eq t grouped hbs hg] at h
  rw [crossSection_eq t grouped hbs' hg', groupsOf_selectColumns, underMask_selectColumns hs hgs]
  cases grouped with
  | false =>
    obtain ⟨rfl, rfl⟩ := Prod.mk.inj (Except.ok.inj h)
    exact ⟨rfl, hvalues, nofun, hblank⟩
  | true =>
    rw [if_pos rfl] at h
    cases hgroups : groupsOf t bs with
    | none =>
      rw [hgroups] at h
      cases h
    | some gs =>
      rw [hgroups] at h
      obtain ⟨rfl, rfl⟩ := Prod.mk.inj (Except.ok.inj h)
      exact ⟨rfl, hvalues, fun gs' hgs' => Option.some.inj hgs' ▸ shape_groupsOf hshape hgroups, hblank⟩

/-- A local function of every row, or of every group in it, over the assets under the flags. -/
theorem byRow_selectColumns {f : List Float → List Float} (hf : Stats.Local f) {values : Grid Float}
    {groups : Option (Grid (Option Int))} (hg : ∀ gs ∈ groups, gs.shape = values.shape)
    (hb : ∀ i < values.nrows, Stats.Blank flags (values.row i)) (hl : flags.length = values.ncols) :
    byRow f (values.selectColumns (places flags)) (groups.map (Grid.selectColumns (places flags))) =
      (byRow f values groups).selectColumns (places flags) := by
  have hinside : ∀ j ∈ places flags, j < values.ncols := fun j hj => (lt_of_mem_places hj).trans_eq hl
  have hshape := Grid.shape_selectColumns hinside
  have hg' : ∀ gs ∈ groups.map (Grid.selectColumns (places flags)),
      gs.shape = (values.selectColumns (places flags)).shape := by
    intro gs' hgs'
    obtain ⟨gs, hgs, rfl⟩ := Option.map_eq_some_iff.1 hgs'
    exact Grid.shape_selectColumns_congr (hg gs hgs) _
  refine Grid.ext_row (hshape.trans (Grid.shape_selectColumns (g := byRow f values groups) hinside).symm) fun i hi => ?_
  have hi' : i < values.nrows := hi
  rw [row_byRow hf hg' hi, Grid.row_selectColumns, Grid.row_selectColumns, row_byRow hf hg hi']
  cases groups with
  | none => exact (hf.pick (hb i hi')).symm
  | some gs =>
    obtain ⟨hrows, hcols⟩ := Prod.mk.inj (hg gs rfl)
    have hgl : (gs.row i).length = (values.row i).length := by
      rw [Grid.length_row hi', Grid.length_row (hi'.trans_eq hrows.symm), hcols]
    rw [Option.map_some, Option.map_some, Option.map_some, Grid.row_selectColumns]
    exact (Stats.pick_grouped hf (hb i hi') hgl).symm

theorem follows_across (hs : Selects flags ctx) (hin : Given flags ctx inputs inputs')
    (hle : ∀ i j : Nat, (ctx.mask.row i)[j]? = some true → flags[j]? = some true) {grouped : Bool}
    {f : List Float → List Float} (hf : Stats.Local f)
    (hu : ∀ inputs ctx, unmasked t inputs ctx = crossSection t ctx grouped inputs >>= fun (values, groups) =>
      .ok (.floats (byRow f values groups))) :
    Follows flags ctx (unmasked t inputs ctx) (unmasked t inputs' (ctx.selectColumns (places flags))) := by
  intro out ho _
  rw [hu] at ho ⊢
  obtain ⟨⟨values, groups⟩, hc, ho⟩ := Checked.bind_eq_ok.1 ho
  obtain rfl := Except.ok.inj ho
  obtain ⟨hc', hvs, hgs, hb⟩ := crossSection_follows hs hin hle hc
  obtain ⟨hrows, hcols⟩ := Grid.shape_eq.1 hvs
  refine ⟨_, Checked.bind_eq_ok.2 ⟨_, hc', rfl⟩, .inl ?_⟩
  exact congrArg Block.floats (byRow_selectColumns hf (fun gs h => (hgs gs h).trans hvs.symm)
    (fun i hi => hb i (hi.trans_eq hrows)) (hs.length.trans hcols.symm))

theorem follows_rowwise {β : Type} (hs : Selects flags ctx) (hin : Given flags ctx inputs inputs')
    (hle : ∀ i j : Nat, (ctx.mask.row i)[j]? = some true → flags[j]? = some true)
    {f : List Float → List β} (hf : Stats.Local f) {d : β} {w : Grid β → Block}
    (hw : ∀ g, w (g.selectColumns (places flags)) = (w g).selectColumns (places flags))
    (hu : ∀ inputs ctx, unmasked t inputs ctx = crossSection t ctx false inputs >>= fun (values, _) =>
      .ok (w (gridOf ctx.shape d (values.toLists.map f)))) :
    Follows flags ctx (unmasked t inputs ctx) (unmasked t inputs' (ctx.selectColumns (places flags))) := by
  intro out ho _
  rw [hu] at ho ⊢
  obtain ⟨⟨values, groups⟩, hc, ho⟩ := Checked.bind_eq_ok.1 ho
  obtain rfl := Except.ok.inj ho
  obtain ⟨hc', hvs, -, hb⟩ := crossSection_follows hs hin hle hc
  refine ⟨_, Checked.bind_eq_ok.2 ⟨_, hc', rfl⟩, .inl ?_⟩
  have hrows : (values.selectColumns (places flags)).toLists.map f = (values.toLists.map f).map (pick flags) := by
    rw [toLists_selectColumns, List.map_map, List.map_map]
    refine List.map_congr_left fun row hrow => ?_
    rw [Grid.toLists_eq] at hrow
    obtain ⟨i, hi, rfl⟩ := List.mem_map.1 hrow
    exact (hf.pick (hb i ((List.mem_range.1 hi).trans_eq (Grid.shape_eq.1 hvs).1))).symm
  rw [← hw, hs.shape_selectColumns]
  show w (gridOf _ d ((values.selectColumns (places flags)).toLists.map f)) = _
  rw [hrows, gridOf_pick hs.length]

/-! ## Kinds with one input -/

theorem single_follows (hs : Selects flags ctx) (hin : Given flags ctx inputs inputs') {b : Block} {missing : Scalar}
    (h : single t ctx.shape inputs = .ok (b, missing)) :
    single t (ctx.selectColumns (places flags)).shape inputs' = .ok (b.selectColumns (places flags), missing) := by
  obtain ⟨bs, hbs, h⟩ := Checked.bind_eq_ok.1 h
  refine Checked.bind_eq_ok.2 ⟨_, (blocks_follow hs hin hbs).1, ?_⟩
  cases bs with
  | nil => cases h
  | cons first rest =>
    cases hi : t.inputs with
    | nil =>
      rw [hi] at h
      cases h
    | cons input more =>
      rw [hi] at h
      obtain ⟨rfl, rfl⟩ := Prod.mk.inj (Except.ok.inj h)
      rfl

/-- What is made of the only input alone. -/
theorem follows_single (hs : Selects flags ctx) (hin : Given flags ctx inputs inputs')
    {f : Scalar → Block → Except EvalError Block}
    (hf : ∀ missing b out, f missing b = .ok out →
      f missing (b.selectColumns (places flags)) = .ok (out.selectColumns (places flags)))
    (hu : ∀ inputs ctx, unmasked t inputs ctx = single t ctx.shape inputs >>= fun x => f x.2 x.1) :
    Follows flags ctx (unmasked t inputs ctx) (unmasked t inputs' (ctx.selectColumns (places flags))) := by
  intro out ho _
  rw [hu] at ho ⊢
  obtain ⟨⟨b, missing⟩, hb, ho⟩ := Checked.bind_eq_ok.1 ho
  exact ⟨_, Checked.bind_eq_ok.2 ⟨_, single_follows hs hin hb, hf missing b out ho⟩, .inl rfl⟩

theorem fillMissing_selectColumns {cols : List Nat} (h : cols.Pairwise (· < ·)) {value missing : Scalar} {b out : Block}
    (ho : (b.whereMask ((b.isMissing missing).map (!·)) value).mapError EvalError.array = .ok out) :
    ((b.selectColumns cols).whereMask (((b.selectColumns cols).isMissing missing).map (!·)) value).mapError
      EvalError.array = .ok (out.selectColumns cols) := by
  refine Checked.mapError_eq_ok.2 ?_
  rw [Block.isMissing_selectColumns h, Grid.map_selectColumns]
  exact Block.whereMask_selectColumns h (Checked.mapError_eq_ok.1 ho)

theorem testLabels_selectColumns (cols : List Nat) (a : Labels) (test : LabelTest) :
    testLabels (a.selectColumns cols) test = (testLabels a test).map (Grid.selectColumns cols) := by
  have hsat (f : String → Bool) : (a.selectColumns cols).satisfying f = (a.satisfying f).selectColumns cols :=
    Grid.map_selectColumns (fun code => (a.categories.decode code).any f) cols a.codes
  cases test with
  | equal v =>
    rw [testLabels, testLabels, Option.map_map]
    exact congrArg (v.asLabel?.map ·) (funext fun l => Labels.eqLabel_selectColumns cols l a)
  | notEqual v =>
    rw [testLabels, testLabels, Option.map_map]
    exact congrArg (v.asLabel?.map ·) (funext fun l => hsat _)
  | isIn vs =>
    rw [testLabels, testLabels, Option.map_map]
    exact congrArg ((vs.mapM Scalar.asLabel?).map ·) (funext fun ls => hsat _)
  | startsWith s => exact congrArg some (hsat _)
  | endsWith s => exact congrArg some (hsat _)
  | contains s => exact congrArg some (hsat _)

theorem testInts_selectColumns (cols : List Nat) (g : Grid Int64) (test : LabelTest) :
    testInts (g.selectColumns cols) test = (testInts g test).map (Grid.selectColumns cols) := by
  cases test with
  | equal v =>
    rw [testInts, testInts, Option.map_map]
    exact congrArg (v.asInt?.map ·) (funext fun n => Grid.map_selectColumns (· == n) cols g)
  | notEqual v =>
    rw [testInts, testInts, Option.map_map]
    exact congrArg (v.asInt?.map ·) (funext fun n => Grid.map_selectColumns (· != n) cols g)
  | isIn vs =>
    rw [testInts, testInts, Option.map_map]
    exact congrArg ((vs.mapM Scalar.asInt?).map ·) (funext fun ns => Grid.map_selectColumns ns.contains cols g)
  | _ => rfl

theorem shape_testLabels {a : Labels} {test : LabelTest} {g : Grid Bool} (h : testLabels a test = some g) :
    g.shape = a.shape := by
  cases test with
  | equal v =>
    obtain ⟨l, -, rfl⟩ := Option.map_eq_some_iff.1 h
    exact a.shape_eqLabel l
  | notEqual v =>
    obtain ⟨l, -, rfl⟩ := Option.map_eq_some_iff.1 h
    rfl
  | isIn vs =>
    obtain ⟨ls, -, rfl⟩ := Option.map_eq_some_iff.1 h
    rfl
  | startsWith s =>
    cases h
    rfl
  | endsWith s =>
    cases h
    rfl
  | contains s =>
    cases h
    rfl

theorem shape_testInts {g : Grid Int64} {test : LabelTest} {out : Grid Bool} (h : testInts g test = some out) :
    out.shape = g.shape := by
  cases test with
  | equal v =>
    obtain ⟨n, -, rfl⟩ := Option.map_eq_some_iff.1 h
    rfl
  | notEqual v =>
    obtain ⟨n, -, rfl⟩ := Option.map_eq_some_iff.1 h
    rfl
  | isIn vs =>
    obtain ⟨ns, -, rfl⟩ := Option.map_eq_some_iff.1 h
    rfl
  | _ => cases h

/-- A test looks at one cell at a time. -/
theorem labelTest_selectColumns {cols : List Nat} (h : cols.Pairwise (· < ·)) {test : LabelTest} {missing : Scalar}
    {b out : Block} (ho : labelTest t test missing b = .ok out) :
    labelTest t test missing (b.selectColumns cols) = .ok (out.selectColumns cols) := by
  have present {g : Grid Bool} (hg : g.shape = b.shape) :
      (g.selectColumns cols).zipWith (fun x absent => x && !absent) ((b.selectColumns cols).isMissing missing) =
        (g.zipWith (fun x absent => x && !absent) (b.isMissing missing)).selectColumns cols := by
    rw [Block.isMissing_selectColumns h, Grid.selectColumns_zipWith h _ (hg.trans (b.shape_isMissing missing).symm)]
  cases b with
  | labels a =>
    cases hg : testLabels a test with
    | none =>
      rw [labelTest, hg] at ho
      cases ho
    | some g =>
      rw [labelTest, hg] at ho
      obtain rfl := Except.ok.inj ho
      show labelTest t test missing (.labels (a.selectColumns cols)) = _
      rw [labelTest, testLabels_selectColumns, hg]
      exact congrArg (Except.ok ∘ Block.bools) (present (shape_testLabels hg))
  | ints g =>
    cases hg : testInts g test with
    | none =>
      rw [labelTest, hg] at ho
      cases ho
    | some tested =>
      rw [labelTest, hg] at ho
      obtain rfl := Except.ok.inj ho
      show labelTest t test missing (.ints (g.selectColumns cols)) = _
      rw [labelTest, testInts_selectColumns, hg]
      exact congrArg (Except.ok ∘ Block.bools) (present (shape_testInts hg))
  | _ => cases ho

/-! ## Every kind -/

/-- Whatever a term does, doing it over a context does it over the assets under the flags. -/
theorem follows (hs : Selects flags ctx) (hin : Given flags ctx inputs inputs')
    (hd : ∀ k, t.kind = .custom k → k.Decodes)
    (hle : t.kind.isCrossSectional = true →
      ∀ i j : Nat, (ctx.mask.row i)[j]? = some true → flags[j]? = some true) :
    Follows flags ctx (unmasked t inputs ctx) (unmasked t inputs' (ctx.selectColumns (places flags))) := by
  have hasc := pairwise_places flags
  cases hk : t.kind with
  | assetExists =>
    intro out ho
    rw [unmasked, hk] at ho
    cases ho
  | column c =>
    intro out ho
    rw [unmasked, hk] at ho
    cases ho
  | constant value => exact follows_constant hs hk
  | staticAssets keep => exact follows_staticAssets hs hk
  | latest => exact follows_latest hs hin hk
  | expression e => exact follows_expression hs hin hk
  | window k => exact follows_windowed hs hin hk
  | custom k => exact follows_custom hs hin hk (hd k hk) (hle (hk ▸ rfl))
  | rank method ascending grouped =>
    exact follows_across hs hin (hle (hk ▸ rfl)) (Stats.local_rank method ascending)
      fun inputs ctx => by rw [unmasked, hk]; rfl
  | transform kind grouped =>
    cases kind with
    | demean =>
      exact follows_across hs hin (hle (hk ▸ rfl)) Stats.local_demean fun inputs ctx => by rw [unmasked, hk]; rfl
    | zscore =>
      exact follows_across hs hin (hle (hk ▸ rfl)) Stats.local_zscore fun inputs ctx => by rw [unmasked, hk]; rfl
  | quantiles bins =>
    exact follows_rowwise (w := .ints) hs hin (hle (hk ▸ rfl)) (Stats.local_quantiles bins) (fun _ => rfl)
      fun inputs ctx => by rw [unmasked, hk]; rfl
  | percentileBetween low high =>
    exact follows_rowwise (w := .bools) hs hin (hle (hk ▸ rfl)) (local_between low high) (fun _ => rfl)
      fun inputs ctx => by rw [unmasked, hk]; rfl
  | nullCheck negate =>
    refine follows_single (f := fun missing b => .ok (.bools ((b.isMissing missing).map (· != negate)))) hs hin
      (fun missing b out ho => ?_) fun inputs ctx => by rw [unmasked, hk]; rfl
    obtain rfl := Except.ok.inj ho
    rw [Block.isMissing_selectColumns hasc, Grid.map_selectColumns]
    rfl
  | fillMissing value =>
    exact follows_single (f := fun missing b => (b.whereMask ((b.isMissing missing).map (!·)) value).mapError .array)
      hs hin (fun missing b out ho => fillMissing_selectColumns hasc ho) fun inputs ctx => by rw [unmasked, hk]
  | labelTest test =>
    exact follows_single (f := labelTest t test) hs hin (fun missing b out ho => labelTest_selectColumns hasc ho)
      fun inputs ctx => by rw [unmasked, hk]

/-! ## The result -/

/-- Ascending places are those of the flags that tell them. -/
theorem places_map_contains {n : Nat} {cols : List Nat} (h : cols.Pairwise (· < ·)) (hlt : ∀ j ∈ cols, j < n) :
    places ((List.range n).map cols.contains) = cols := by
  refine List.Pairwise.eq_of_mem_iff (r := (· < ·)) (pairwise_places _) h fun j => ?_
  rw [mem_places, List.getElem?_map]
  by_cases hj : j < n
  · rw [List.getElem?_range hj, Option.map_some, Option.some_inj, List.contains_iff_mem]
  · rw [List.getElem?_eq_none (by simpa using hj)]
    exact iff_of_false nofun fun hmem => hj (hlt j hmem)

/-- Where an evaluation succeeds, so does one over some of the columns, if inputs are given
that show them and, for a term that looks across rows, the mask lets no other asset through.
It comes to those columns of the whole. -/
theorem evaluate_selectColumns (t : Term) {ctx : Context} {inputs inputs' : List Input} {cols : List Nat}
    (hasc : cols.Pairwise (· < ·)) (hlt : ∀ j ∈ cols, j < ctx.sids.length)
    (hd : ∀ k, t.kind = .custom k → k.Decodes)
    (hcross : t.kind.isCrossSectional = false ∨ ∀ i j, ctx.mask.get? i j = some true → j ∈ cols)
    (hin : List.Forall₂ (Input.Restricts cols ctx.dates.length) inputs inputs') {out : Block}
    (h : evaluate t inputs ctx = .ok out) :
    ∃ out', evaluate t inputs' (ctx.selectColumns cols) = .ok out' ∧ out'.view = (out.selectColumns cols).view := by
  obtain ⟨hmask, hlength, whole, hwhole, hshape, hout⟩ := evaluate_eq_ok.1 h
  let flags := (List.range ctx.sids.length).map cols.contains
  have hplaces : places flags = cols := places_map_contains hasc hlt
  have hs : Selects flags ctx := ⟨by rw [List.length_map, List.length_range], hmask⟩
  have hle (hk : t.kind.isCrossSectional = true) (i j : Nat) (hj : (ctx.mask.row i)[j]? = some true) :
      flags[j]? = some true := by
    rw [Grid.getElem?_row] at hj
    rw [← mem_places, hplaces]
    exact hcross.resolve_left (by rw [hk]; nofun) i j hj
  have hfollows := follows hs (by rwa [Given, hplaces]) hd hle whole hwhole hshape
  have hs' := hs.shape_selectColumns
  rw [hplaces] at hfollows hs'
  have hmask' : (ctx.selectColumns cols).mask.shape = (ctx.selectColumns cols).shape := by
    rw [hs']
    exact (Grid.shape_selectColumns fun j hj => (hlt j hj).trans_eq (congrArg Prod.snd hmask).symm).trans
      (congrArg (·.1, cols.length) hmask)
  obtain ⟨part, hpart, out', hout', hview⟩ : ∃ part, unmasked t inputs' (ctx.selectColumns cols) = .ok part ∧
      ∃ out', part.whereMask (ctx.mask.selectColumns cols) t.missing = .ok out' ∧
        out'.view = (out.selectColumns cols).view := by
    obtain ⟨part, hpart, rfl | hrestricts⟩ := hfollows
    · exact ⟨_, hpart, _, Block.whereMask_selectColumns hasc hout, rfl⟩
    · obtain ⟨out', hout', hrestricts'⟩ := hrestricts.whereMask hasc hout
      exact ⟨part, hpart, out', hout', hrestricts'.view⟩
  exact ⟨out', evaluate_eq_ok.2 ⟨hmask', hin.length_eq.symm.trans hlength, part, hpart,
    (Block.of_whereMask hout').1.symm.trans hmask', hout'⟩, hview⟩

/-! Totals of two rows of three assets, the second of which takes no part. -/

/-- The sum of all integers in the windows, for every asset at hand. -/
def rowTotal : RowKernel :=
  ⟨"Example", "RowTotal", [], .int64, none, false, fun _ sids windows =>
    .ok (.ints (sids.map fun _ =>
      ((windows.map Block.view).flatMap fun v => v.cells.toList.filterMap Scalar.asInt?).foldl (· + ·) 0))⟩

theorem rowTotal_decodes : rowTotal.Decodes := by
  intro _ sids ws ws' h
  show Except.ok (RowValues.ints (sids.map fun _ => ((ws.map Block.view).flatMap _).foldl _ _)) = _
  rw [h]
  rfl

/-- The totals of some integers. -/
def totals : Term :=
  .mk ⟨.custom rowTotal, .factor, .int64, .int 0, 1, .generic, false⟩
    [.mk ⟨.constant (.int 0), .factor, .int64, .int 0, 0, .generic, true⟩ [] none] none

def twoRows : Context := ⟨[⟨0⟩, ⟨1⟩], [⟨1⟩, ⟨2⟩, ⟨3⟩], .ofRows 3 [#v[true, false, true], #v[true, false, false]]⟩

/-- Windows of one row. -/
def rowByRow (g : Grid Int64) : Cursor := .start (.ints g) [] 1 0 0

theorem evaluate_selectColumns_totals :
    ∃ out, evaluate totals [.window (rowByRow (.ofRows 3 [#v[1, 2, 3], #v[4, 5, 6]]))] twoRows = .ok out ∧
      out.view.cells.toLists = [[.int 4, .int 0, .int 4], [.int 4, .int 0, .int 0]] ∧
      ∃ out', evaluate totals [.window (rowByRow (.ofRows 2 [#v[1, 3], #v[4, 6]]))] (twoRows.selectColumns [0, 2]) = .ok out' ∧
        out'.view = (out.selectColumns [0, 2]).view := by
  have hin : List.Forall₂ (Input.Restricts [0, 2] twoRows.dates.length)
      [.window (rowByRow (.ofRows 3 [#v[1, 2, 3], #v[4, 5, 6]]))] [.window (rowByRow (.ofRows 2 [#v[1, 3], #v[4, 6]]))] :=
    .cons (Input.restricts_window (List.forall_mem_cons.2 ⟨trivial, List.forall_mem_singleton.2 trivial⟩) rfl) .nil
  have hmask : ∀ i < 2, ∀ j < 3, twoRows.mask.get? i j = some true → j ∈ [0, 2] := by decide
  refine ⟨_, rfl, rfl, evaluate_selectColumns totals (by decide) (by decide) ?_ (.inr fun i j h => ?_) hin rfl⟩
  · rintro k ⟨⟩
    exact rowTotal_decodes
  · obtain ⟨hi, hj⟩ := Grid.lt_of_get? h
    exact hmask i hi j hj h

end AsOf.Evaluate
