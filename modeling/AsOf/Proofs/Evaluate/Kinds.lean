import AsOf.Proofs.Evaluate.Rows

/-!
# Every kind of term, row by row

One lemma a kind: computing the kind over a context agrees with computing every row by
itself. Either both succeed, and the values of a row are the cells that the mask picks
in it, or neither does.
-/
namespace AsOf.Evaluate

/-- An evaluation and its rows: both succeed and agree, or some row has no values and
the evaluation makes no block of the shape. -/
def Agrees (ctx : Context) (rows : Nat → Option (Dtype × List Scalar))
    (r : Except EvalError Block) : Prop :=
  (∃ out, r = .ok out ∧ out.shape = ctx.shape ∧ out.Valid ∧ out.Distinct ∧
    ∀ i < ctx.dates.length, rows i = some (out.dtype, pick (ctx.mask.row i) (out.cells.row i))) ∨
  ((∀ out, r = .ok out → out.shape ≠ ctx.shape) ∧ ∃ i < ctx.dates.length, rows i = none)

variable {ctx : Context} {sources : List Source} {inputs : List Input}

/-- The values of a row. -/
def rowOf (t : Term) (ctx : Context) (sources : List Source) (i : Nat) : Option (Dtype × List Scalar) :=
  t.values? (ctx.dates.getD i ⟨0⟩) (assets ctx i) (seen ctx sources i)

theorem agrees_of_error (h : Ready ctx sources inputs) {rows : Nat → Option (Dtype × List Scalar)}
    {r : Except EvalError Block} (hr : ∃ e, r = .error e) (hn : ∀ i < ctx.dates.length, rows i = none) :
    Agrees ctx rows r := by
  obtain ⟨e, rfl⟩ := hr
  exact .inr ⟨nofun, 0, h.rows, hn 0 h.rows⟩

/-! ## Kinds without inputs -/

theorem agrees_constant (t : Term) {value : Scalar} (hk : t.kind = .constant value) :
    Agrees ctx (rowOf t ctx sources) (unmasked t inputs ctx) := by
  refine .inl ⟨.full value ctx.shape, by rw [unmasked, hk]; rfl, Block.shape_full _ _,
    Block.valid_full _ _, Block.distinct_full _ _, fun i hi => ?_⟩
  have e : List.replicate ctx.shape.2 value = ctx.sids.map fun _ => value := by
    rw [List.map_const']
    rfl
  rw [rowOf, Term.values?, hk, Block.dtype_full, Block.cells_full,
    Grid.row_replicate (show i < ctx.shape.1 from hi), e, pick_map]
  rfl

theorem agrees_staticAssets (t : Term) {keep : List Sid} (hk : t.kind = .staticAssets keep) :
    Agrees ctx (rowOf t ctx sources) (unmasked t inputs ctx) := by
  have e : List.replicate ctx.shape.1 (ctx.sids.map keep.contains) =
      (List.range ctx.shape.1).map fun _ => ctx.sids.map keep.contains := by
    rw [List.map_const', List.length_range]
  refine .inl ⟨.bools (gridOf ctx.shape false
    ((List.range ctx.shape.1).map fun _ => ctx.sids.map keep.contains)), by rw [unmasked, hk, ← e]; rfl,
    rfl, trivial, trivial, fun i hi => ?_⟩
  have hl : (ctx.sids.map keep.contains).length = ctx.shape.2 := List.length_map _
  rw [rowOf, Term.values?, hk, Block.cells, Grid.row_map,
    @row_gridOf _ _ (fun _ => ctx.sids.map keep.contains) _ hi hl, pick_map, pick_map, List.map_map]
  rfl

/-! ## Kinds that read windows -/

/-- The newest row of each window. -/
def newestRows (w : Nat → Block) (n : Nat) : List Block :=
  (List.range n).map fun i => (w i).sliceRows ((w i).nrows - 1) (w i).nrows

theorem latest_eq (t : Term) {w : Nat → Block} {c : Cursor} {shape : Nat × Nat} (h0 : 0 < shape.1)
    (hw : c.Shows w shape.1) (cs : List Cursor) : latest t shape (c :: cs) =
      (Block.concatRows (newestRows w shape.1)).mapError .array := by
  have hrows : overRows t (fun _ _ b => .ok (b.sliceRows (b.nrows - 1) b.nrows)) (fun _ bs => .ok bs)
      (List.range shape.1) [c] = .ok ((List.range shape.1).map fun i =>
        [(w i).sliceRows ((w i).nrows - 1) (w i).nrows]) := by
    rw [overRows_eq t _ _ (.cons hw .nil)]
    exact Checked.mapM_of_ok fun i _ => rfl
  have hne : ((List.range shape.1).map fun i =>
      [(w i).sliceRows ((w i).nrows - 1) (w i).nrows]).isEmpty = false := by
    rw [List.isEmpty_eq_false_iff_exists_mem]
    exact ⟨_, List.mem_map_of_mem (List.mem_range.2 h0)⟩
  unfold latest
  show (overRows t _ _ (List.range shape.1) [c] >>= _) = _
  rw [hrows]
  show (if _ then _ else _) = _
  rw [if_neg (by rw [hne]; exact Bool.false_ne_true), ← List.flatMap_def, ← List.map_eq_flatMap, newestRows]

/-- The newest row of the first window. -/
def newest? : List View → Option (Dtype × List Scalar)
  | [] => none
  | v :: _ => if v.cells.nrows = 0 then none else some (v.dtype, v.cells.row (v.cells.nrows - 1))

theorem newest?_shown {w : Nat → Block} {i height : Nat} {d : Dtype} (hd : (w i).dtype = d)
    (hn : (w i).nrows = height) (ws : List (Nat → Block)) (flags : List Bool) :
    newest? ((shown (w :: ws) i flags).map Block.view) =
      if height = 0 then none else some (d, pick flags ((w i).cells.row (height - 1))) := by
  rw [shown, List.map_cons, List.map_cons]
  show (if ((w i).selectColumns _).cells.nrows = 0 then none else
    some (((w i).selectColumns _).dtype, ((w i).selectColumns _).cells.row
      (((w i).selectColumns _).cells.nrows - 1))) = _
  have hnrows : ((w i).cells.selectColumns (places flags)).nrows = height := (w i).nrows_cells.trans hn
  rw [Block.cells_selectColumns, Block.dtype_selectColumns, hnrows, hd]
  by_cases h0 : height = 0
  · rw [if_pos h0, if_pos h0]
  · rw [if_neg h0, if_neg h0, Grid.row_selectColumns]

/-- The newest rows of windows of one height make up a block, which is too short if they have none. -/
theorem newestRows_spec {w : Nat → Block} {n height width : Nat} {d : Dtype} (hn : 0 < n)
    (hfit : ∀ i < n, (w i).dtype = d ∧ (w i).shape = (height, width) ∧ (w i).Valid) :
    ∃ b, Block.concatRows (newestRows w n) = .ok b ∧
      if height = 0 then b.shape ≠ (n, width)
      else b.shape = (n, width) ∧ b.dtype = d ∧ b.Valid ∧ b.Distinct ∧
        ∀ i < n, b.cells.row i = (w i).cells.row (height - 1) := by
  have hshape (i : Nat) (hi : i < n) :
      ((w i).sliceRows ((w i).nrows - 1) (w i).nrows).shape = (height - (height - 1), width) := by
    rw [Block.shape_sliceRows, Nat.min_self, Block.nrows, Block.ncols, (hfit i hi).2.1]
  have hdtype (i : Nat) (hi : i < n) : ((w i).sliceRows ((w i).nrows - 1) (w i).nrows).dtype = d :=
    (Block.dtype_sliceRows ..).trans (hfit i hi).1
  have hvalid (i : Nat) (hi : i < n) : ((w i).sliceRows ((w i).nrows - 1) (w i).nrows).Valid :=
    Block.valid_sliceRows (hfit i hi).2.2 _ _
  by_cases h0 : height = 0
  · obtain ⟨b, hb, -, -, -, hbs, -⟩ := Block.concatRows_range hn hshape hdtype hvalid
    refine ⟨b, hb, ?_⟩
    rw [if_pos h0, hbs, h0, Nat.zero_sub, Nat.mul_zero]
    intro h
    have : 0 = n := congrArg Prod.fst h
    omega
  · rw [show height - (height - 1) = 1 by omega] at hshape
    obtain ⟨b, hb, hbd, hbv, hbn, hbs, hbc⟩ := Block.concatRows_singles hn hshape hdtype hvalid
    refine ⟨b, hb, ?_⟩
    rw [if_neg h0]
    refine ⟨hbs, hbd, hbv, hbn, fun i hi => List.ext_getElem? fun j => ?_⟩
    have hlast : (w i).nrows = height := congrArg Prod.fst (hfit i hi).2.1
    rw [Grid.getElem?_row, Grid.getElem?_row, Block.get?_cells, Block.get?_cells, hbc, if_pos hi,
      Block.get?_sliceRows, hlast, if_pos (by omega), Nat.add_zero]

/-- The assets of a row see the newest row of a window as it is. -/
theorem agrees_latest (t : Term) (h : Ready ctx sources inputs) (hk : t.kind = .latest) :
    Agrees ctx (rowOf t ctx sources) (unmasked t inputs ctx) := by
  have hu : unmasked t inputs ctx = cursors t inputs >>= latest t ctx.shape := by rw [unmasked, hk]
  have hr (i : Nat) : rowOf t ctx sources i = (Sight.windows? (seen ctx sources i)).bind newest? := by
    rw [rowOf, Term.values?, hk]
    cases Sight.windows? (seen ctx sources i) with
    | none => rfl
    | some vs => cases vs <;> rfl
  rcases cursors_spec t h.feeds with ⟨ws, cs, hs, hc, hshows, hwin⟩ | ⟨⟨e, he⟩, hwin⟩
  · rw [hu, hc]
    show Agrees ctx _ (latest t ctx.shape cs)
    cases hshows with
    | nil =>
      refine agrees_of_error h ⟨_, rfl⟩ fun i _ => ?_
      rw [hr, seen, hwin]
      rfl
    | @cons w c ws cs hw _ =>
      obtain ⟨d, height, hfit⟩ := h.fits (.windows w) (hs ▸ List.mem_cons_self)
      have hrow (i : Nat) (hi : i < ctx.shape.1) : rowOf t ctx sources i =
          if height = 0 then none else some (d, pick (ctx.mask.row i) ((w i).cells.row (height - 1))) := by
        rw [hr, seen, hwin, Option.bind_some, newest?_shown (hfit i hi).1 (congrArg Prod.fst (hfit i hi).2.1)]
      obtain ⟨b, hb, hspec⟩ := newestRows_spec (show 0 < ctx.shape.1 from h.rows) fun i hi =>
        ⟨(hfit i hi).1, (hfit i hi).2.1, (hfit i hi).2.2.1⟩
      rw [latest_eq t h.rows hw cs, hb]
      by_cases h0 : height = 0
      · rw [if_pos h0] at hspec
        refine .inr ⟨fun out ho hos => ?_, 0, h.rows, by rw [hrow 0 h.rows, if_pos h0]⟩
        obtain rfl := Except.ok.inj ho
        exact hspec hos
      · rw [if_neg h0] at hspec
        obtain ⟨hbs, hbd, hbv, hbn, hbc⟩ := hspec
        refine .inl ⟨b, rfl, hbs, hbv, hbn, fun i hi => ?_⟩
        rw [hrow i hi, if_neg h0, hbd, hbc i hi]
  · rw [hu, he]
    refine agrees_of_error h ⟨e, rfl⟩ fun i _ => ?_
    rw [hr, seen, hwin]
    rfl

/-- A block built of rows that may fail agrees with them if it does so when none fails. -/
theorem agrees_of_rows {α : Type} (h : Ready ctx sources inputs)
    {rows : Nat → Option (Dtype × List Scalar)} {g : Nat → Except EvalError α} {build : List α → Block}
    (hfail : ∀ i < ctx.dates.length, (∃ y, g i = .ok y) ∨ ((∃ e, g i = .error e) ∧ rows i = none))
    (hbuild : ∀ row : Nat → α, (∀ i < ctx.dates.length, g i = .ok (row i)) →
      Agrees ctx rows (.ok (build ((List.range ctx.dates.length).map row)))) :
    Agrees ctx rows ((List.range ctx.dates.length).mapM g >>= fun ys => .ok (build ys)) := by
  by_cases hf : ∃ i < ctx.dates.length, ∃ e, g i = .error e
  · obtain ⟨i, hi, e, he⟩ := hf
    obtain ⟨e', hm⟩ := Checked.mapM_of_error (List.mem_range.2 hi) he
    rcases hfail i hi with ⟨y, hy⟩ | ⟨-, hn⟩
    · rw [he] at hy
      cases hy
    · rw [hm]
      exact .inr ⟨nofun, i, hi, hn⟩
  · have hok (i : Nat) (hi : i < ctx.dates.length) : ∃ y, g i = .ok y :=
      (hfail i hi).resolve_right fun hn => hf ⟨i, hi, hn.1⟩
    obtain ⟨y0, -⟩ := hok 0 h.rows
    have hrow (i : Nat) (hi : i < ctx.dates.length) :
        g i = .ok (match g i with | .ok y => y | .error _ => y0) := by
      obtain ⟨y, hy⟩ := hok i hi
      rw [hy]
    rw [Checked.mapM_of_ok fun i hi => hrow i (List.mem_range.1 hi)]
    exact hbuild _ hrow

/-- A window kernel is computed of the numbers that each row sees. -/
theorem windowed_eq (t : Term) (k : WindowKernel) {ws : List (Nat → Block)} {cs : List Cursor}
    (h : List.Forall₂ (fun w (c : Cursor) => c.Shows w ctx.dates.length) ws cs) :
    windowed t k ctx cs = (List.range ctx.dates.length).mapM
      (fun i => numbersAll t (shown ws i (ctx.mask.row i)) >>= fun gs =>
        .ok (Stats.scatter ctx.shape.2 ((places (ctx.mask.row i)).zip (k.compute gs)))) >>= fun rows =>
      .ok (ofFloats (gridOf ctx.shape nan rows) t.dtype) := by
  unfold windowed
  show (overRows t _ _ (List.range ctx.dates.length) cs >>= _) = _
  rw [overRows_eq t _ _ h]
  refine congrArg (fun r => r >>= _) (congrArg (fun g => List.mapM g _) (funext fun i => ?_))
  show (ws.zipIdx.mapM _ >>= _) = (numbersAll t (shown ws i (ctx.mask.row i)) >>= _)
  rw [numbersAll, shown, List.zipIdx_map, List.mapM_map]
  rfl

/-- A window kernel treats every asset of a row by itself. -/
theorem agrees_windowed (t : Term) (h : Ready ctx sources inputs) {k : WindowKernel}
    (hk : t.kind = .window k) : Agrees ctx (rowOf t ctx sources) (unmasked t inputs ctx) := by
  have hu : unmasked t inputs ctx = cursors t inputs >>= windowed t k ctx := by rw [unmasked, hk]
  have hr (i : Nat) : rowOf t ctx sources i = (Sight.windows? (seen ctx sources i)).bind fun vs =>
      (t.numbers? vs).bind fun gs => some (Term.ofFloats t.dtype
        ((List.range (assets ctx i).length).map fun j => (k.compute gs).getD j nan)) := by
    rw [rowOf, Term.values?, hk]
    rfl
  rcases cursors_spec t h.feeds with ⟨ws, cs, hs, hc, hshows, hwin⟩ | ⟨⟨e, he⟩, hwin⟩
  · rw [hu, hc]
    show Agrees ctx _ (windowed t k ctx cs)
    let numbersOf (i : Nat) : Except EvalError (List (Grid Float)) :=
      numbersAll t (shown ws i (ctx.mask.row i))
    let put (i : Nat) (gs : List (Grid Float)) : List Float :=
      Stats.scatter ctx.shape.2 ((places (ctx.mask.row i)).zip (k.compute gs))
    have hw : windowed t k ctx cs = (List.range ctx.dates.length).mapM
        (fun i => numbersOf i >>= fun gs => .ok (put i gs)) >>= fun rows =>
          .ok (ofFloats (gridOf ctx.shape nan rows) t.dtype) := windowed_eq t k hshows
    rw [hw]
    have hnum (i : Nat) := numbersAll_view t (shown ws i (ctx.mask.row i))
    refine agrees_of_rows h (fun i _ => ?_) fun row hrow => ?_
    · rcases hnum i with ⟨gs, hgs, -⟩ | ⟨⟨e, he⟩, hn⟩
      · exact .inl ⟨put i gs, by rw [show numbersOf i = _ from hgs]; rfl⟩
      · refine .inr ⟨⟨e, by rw [show numbersOf i = _ from he]; rfl⟩, ?_⟩
        rw [hr, seen, hwin, Option.bind_some, hn]
        rfl
    · obtain ⟨hos, hov, hon⟩ := ofFloats_spec
        (gridOf ctx.shape nan ((List.range ctx.dates.length).map row)) t.dtype
      refine .inl ⟨_, rfl, hos, hov, hon, fun i hi => ?_⟩
      rw [ofFloats_row]
      rcases hnum i with ⟨gs, hgs, hv⟩ | ⟨⟨e, he⟩, -⟩
      · have hput : row i = put i gs := by
          have := hrow i hi
          rw [show numbersOf i = _ from hgs] at this
          exact (Except.ok.inj this).symm
        have hl : (row i).length = ctx.shape.2 := by rw [hput, Stats.length_scatter]
        have hgrid : (gridOf ctx.shape nan ((List.range ctx.dates.length).map row)).row i = row i :=
          row_gridOf hi hl nan
        have hpick : pick (ctx.mask.row i) (put i gs) = _ :=
          pick_scatter (h.length_flags hi) (k.compute gs)
        rw [hr, seen, hwin, Option.bind_some, hv, Option.bind_some, hgrid, hput, hpick,
          h.length_assets hi]
      · have := hrow i hi
        rw [show numbersOf i = _ from he] at this
        cases this
  · rw [hu, he]
    refine agrees_of_error h ⟨e, rfl⟩ fun i _ => ?_
    rw [hr, seen, hwin]
    rfl

/-- The cells that a block overlaid with values has. -/
theorem overlay_full (cells : Grid (Option Scalar)) (missing : Scalar) (shape : Nat × Nat) :
    (overlay cells (.full missing shape)).dtype = missing.dtype ∧
      (overlay cells (.full missing shape)).shape = shape ∧
      (overlay cells (.full missing shape)).Valid ∧ (overlay cells (.full missing shape)).Distinct ∧
      ∀ i < shape.1, ∀ j < shape.2, (overlay cells (.full missing shape)).cells.get? i j =
        some (((cells.get? i j).join.bind (Scalar.cast? missing.dtype)).getD missing) := by
  have key {α : Type} (wrap : α → Scalar) (as? : Scalar → Option α) (x : α) (i j : Nat)
      (hi : i < shape.1) (hj : j < shape.2) :
      (((Grid.replicate shape x).mapIdx fun i j old =>
        ((cells.get? i j).join.bind as?).getD old).map wrap).get? i j =
      some (((cells.get? i j).join.bind fun y => (as? y).map wrap).getD (wrap x)) := by
    rw [Grid.get?_map, Grid.get?_mapIdx, Grid.get?_replicate, if_pos ⟨hi, hj⟩]
    cases (cells.get? i j).join with
    | none => rfl
    | some y =>
      simp only [Option.map_some, Option.bind_some]
      cases as? y <;> rfl
  cases missing with
  | float x => exact ⟨rfl, rfl, trivial, trivial, fun i hi j hj => key .float _ x i j hi hj⟩
  | int x => exact ⟨rfl, rfl, trivial, trivial, fun i hi j hj => key .int _ x i j hi hj⟩
  | bool x => exact ⟨rfl, rfl, trivial, trivial, fun i hi j hj => key .bool _ x i j hi hj⟩
  | time x => exact ⟨rfl, rfl, trivial, trivial, fun i hi j hj => key .time _ x i j hi hj⟩
  | label l =>
    obtain ⟨a, ha⟩ := Block.exists_labels (Block.dtype_full (.label l) shape)
    have ho : overlay cells (.full (.label l) shape) = .full (.label l) shape := by rw [ha, overlay]
    rw [ho]
    refine ⟨Block.dtype_full _ _, Block.shape_full _ _, Block.valid_full _ _, Block.distinct_full _ _,
      fun i hi j hj => ?_⟩
    rw [Block.cells_full, Grid.get?_replicate, if_pos ⟨hi, hj⟩]
    cases (cells.get? i j).join <;> rfl

/-- What a custom kernel gives for some assets, as cells. -/
def kernelRow? (t : Term) (assets : Nat) : Except String RowValues → Option (Dtype × List Scalar)
  | .error _ => none
  | .ok values =>
    if values.length ≠ assets || values.dtype ≠ t.dtype then none
    else some (t.missing.dtype, values.toScalars.map fun x => (x.cast? t.missing.dtype).getD t.missing)

/-- What a custom kernel gives for the assets under some flags, at their places. -/
def kernelCells (t : Term) (width : Nat) (flags : List Bool) :
    Except String RowValues → Except EvalError (List (Option Scalar))
  | .error reason => .error (.kernel t.text (.refused reason))
  | .ok values =>
    if values.length ≠ (places flags).length || values.dtype ≠ t.dtype then
      .error (.kernel t.text (.returned values.length values.dtype (places flags).length))
    else .ok ((List.range width).map fun c => ((places flags).zip values.toScalars).lookup c)

theorem customRow_eq (t : Term) (k : RowKernel) (ctx : Context) (i : Nat) (windows : List Block) :
    customRow t k ctx i windows = kernelCells t ctx.shape.2 (ctx.mask.row i)
      (k.compute (ctx.dates.getD i ⟨0⟩) (assets ctx i) windows) := by
  rw [assets, pick_eq_filterMap]
  unfold customRow
  dsimp only
  rw [show ctx.columns i = places (ctx.mask.row i) from rfl]
  cases k.compute (ctx.dates.getD i ⟨0⟩) ((places (ctx.mask.row i)).filterMap (ctx.sids[·]?)) windows <;> rfl

/-- A kernel that fails has no values for a row, and one that does not has one for each asset. -/
theorem kernelCells_spec (t : Term) (width : Nat) (flags : List Bool) (r : Except String RowValues) :
    ((∃ e, kernelCells t width flags r = .error e) ∧ kernelRow? t (places flags).length r = none) ∨
    ∃ row values, kernelCells t width flags r = .ok row ∧ row.length = width ∧
      kernelRow? t (places flags).length r = some (t.missing.dtype, values) ∧
      values.length = (places flags).length ∧ ∀ (k j : Nat), (places flags)[k]? = some j → j < width →
        values[k]? = some ((row[j]?.join.bind (Scalar.cast? t.missing.dtype)).getD t.missing) := by
  cases r with
  | error reason => exact .inl ⟨⟨_, rfl⟩, rfl⟩
  | ok values =>
    by_cases hf : (values.length ≠ (places flags).length || values.dtype ≠ t.dtype) = true
    · exact .inl ⟨⟨_, if_pos hf⟩, if_pos hf⟩
    · have hlength : values.toScalars.length = (places flags).length := by
        rw [RowValues.length_toScalars]
        simp only [ne_eq, Bool.or_eq_true, decide_eq_true_eq, not_or, not_not] at hf
        exact hf.1
      refine .inr ⟨_, _, if_neg hf, (List.length_map _).trans List.length_range, if_neg hf,
        (List.length_map _).trans hlength, fun k j hk hj => ?_⟩
      have hlt : k < values.toScalars.length := hlength ▸ (List.getElem?_eq_some_iff.1 hk).1
      rw [List.getElem?_map, List.getElem?_map, List.getElem?_range hj, Option.map_some, lookup_zip (nodup_places _) hk,
        List.getElem?_eq_getElem hlt]
      rfl

/-- A custom kernel is computed of the windows that each row sees. -/
theorem custom_eq (t : Term) (k : RowKernel) {ws : List (Nat → Block)} {cs : List Cursor}
    (h : List.Forall₂ (fun w (c : Cursor) => c.Shows w ctx.dates.length) ws cs) :
    custom t k ctx cs = (List.range ctx.dates.length).mapM
      (fun i => kernelCells t ctx.shape.2 (ctx.mask.row i)
        (k.compute (ctx.dates.getD i ⟨0⟩) (assets ctx i) (shown ws i (ctx.mask.row i)))) >>= fun rows =>
      .ok (overlay (gridOf ctx.shape none rows) (.full t.missing ctx.shape)) := by
  unfold custom
  show (overRows t _ _ (List.range ctx.dates.length) cs >>= _) = _
  rw [overRows_eq t _ _ h]
  refine congrArg (fun r => r >>= _) (congrArg (fun g => List.mapM g _) (funext fun i => ?_))
  rw [Checked.mapM_of_ok (g := fun p : (Nat → Block) × Nat =>
    (p.1 i).selectColumns (ctx.columns i)) fun p _ => rfl, ← customRow_eq]
  show customRow t k ctx i _ = _
  refine congrArg (customRow t k ctx i) ?_
  conv_rhs => rw [shown, ← List.zipIdx_map_fst 0 ws, List.map_map]
  rfl

/-- A custom kernel that looks at decoded windows gives the assets of a row its values. -/
theorem agrees_custom (t : Term) (h : Ready ctx sources inputs) {k : RowKernel}
    (hk : t.kind = .custom k) (hd : k.Decodes) :
    Agrees ctx (rowOf t ctx sources) (unmasked t inputs ctx) := by
  have hu : unmasked t inputs ctx = cursors t inputs >>= custom t k ctx := by rw [unmasked, hk]
  have hr (i : Nat) : rowOf t ctx sources i = (Sight.windows? (seen ctx sources i)).bind fun vs =>
      kernelRow? t (assets ctx i).length
        (k.compute (ctx.dates.getD i ⟨0⟩) (assets ctx i) (vs.map View.toBlock)) := by
    rw [rowOf, Term.values?, hk]
    refine congrArg (Option.bind _) (funext fun vs => ?_)
    cases k.compute (ctx.dates.getD i ⟨0⟩) (assets ctx i) (vs.map View.toBlock) <;> rfl
  rcases cursors_spec t h.feeds with ⟨ws, cs, hs, hc, hshows, hwin⟩ | ⟨⟨e, he⟩, hwin⟩
  · have hcompute (i : Nat) : k.compute (ctx.dates.getD i ⟨0⟩) (assets ctx i)
        (((shown ws i (ctx.mask.row i)).map Block.view).map View.toBlock) =
          k.compute (ctx.dates.getD i ⟨0⟩) (assets ctx i) (shown ws i (ctx.mask.row i)) := by
      refine hd _ _ _ _ ?_
      rw [List.map_map, List.map_map]
      exact List.map_congr_left fun b _ => View.view_toBlock b
    have hspec (i : Nat) := kernelCells_spec t ctx.shape.2 (ctx.mask.row i)
      (k.compute (ctx.dates.getD i ⟨0⟩) (assets ctx i) (shown ws i (ctx.mask.row i)))
    rw [hu, hc]
    show Agrees ctx _ (custom t k ctx cs)
    rw [custom_eq t k hshows]
    refine agrees_of_rows h (fun i hi => ?_) fun row hrow => ?_
    · rw [hr, seen, hwin, Option.bind_some, hcompute, h.length_assets hi]
      rcases hspec i with herror | ⟨row, -, hok, -⟩
      · exact .inr herror
      · exact .inl ⟨row, hok⟩
    · obtain ⟨hod, hos, hov, hon, hcells⟩ := overlay_full
        (gridOf ctx.shape none ((List.range ctx.dates.length).map row)) t.missing ctx.shape
      refine .inl ⟨_, rfl, hos, hov, hon, fun i hi => ?_⟩
      rw [hr, seen, hwin, Option.bind_some, hcompute, hod, h.length_assets hi]
      rcases hspec i with ⟨⟨e, he⟩, -⟩ | ⟨row', values, hok, hwidth, hvalues, hlength, hat⟩
      · rw [hrow i hi] at he
        cases he
      · obtain rfl : row i = row' := Except.ok.inj ((hrow i hi).symm.trans hok)
        rw [hvalues]
        refine congrArg (fun row => some (t.missing.dtype, row)) (List.ext_getElem? fun k => ?_)
        rw [getElem?_pick]
        cases hp : (places (ctx.mask.row i))[k]? with
        | none => rw [List.getElem?_eq_none (hlength ▸ List.getElem?_eq_none_iff.1 hp), Option.bind_none]
        | some j =>
          have hj : j < ctx.shape.2 := (lt_of_mem_places (List.mem_of_getElem? hp)).trans_eq (h.length_flags hi)
          have hgrid : (gridOf ctx.shape none ((List.range ctx.dates.length).map row)).row i = row i :=
            row_gridOf hi hwidth none
          rw [hat k j hp hj, Option.bind_some, Grid.getElem?_row, hcells i hi j hj, ← Grid.getElem?_row, hgrid]
  · rw [hu, he]
    refine agrees_of_error h ⟨e, rfl⟩ fun i _ => ?_
    rw [hr, seen, hwin]
    rfl

/-! ## Formulas -/

/-- The numbers of a row that its assets see are those of the whole row. -/
theorem get?_seenAt (b : Block) (i : Nat) {flags : List Bool} {k j : Nat} (hk : (places flags)[k]? = some j) :
    (b.seenAt i flags).cells.get? 0 k = b.cells.get? i j := by
  rw [← Grid.getElem?_row, row_seenAt, getElem?_pick, hk, Option.bind_some, Grid.getElem?_row]

theorem numberGrids_seenAt (t : Term) (bs : List Block) (i : Nat) {flags : List Bool} {k j : Nat}
    (hk : (places flags)[k]? = some j) (m : Nat) :
    (numberGrids t ((bs.map (Block.seenAt i flags)).map View.cells))[m]?.bind (·.get? 0 k) =
      (numberGrids t (bs.map Block.cells))[m]?.bind (·.get? i j) := by
  rw [getElem?_numberGrids, getElem?_numberGrids, List.map_map, List.getElem?_map, List.getElem?_map]
  cases bs[m]? with
  | none => rfl
  | some b =>
    simp only [Option.map_some, Option.bind_some, Grid.get?_map, Function.comp_apply]
    rw [get?_seenAt b i hk]

/-- A formula treats every cell by itself: what it makes of the part of a row that is seen
is that part of what it makes of the row. -/
theorem evalCell_seen (t : Term) (e : Expr) {bs : List Block} {shape : Nat × Nat}
    (hs : ∀ b ∈ bs, b.shape = shape) {i : Nat} (hi : i < shape.1) {flags : List Bool}
    (hf : flags.length = shape.2) :
    (List.range (places flags).length).map (fun k => e.evalCell fun m =>
        ((numberGrids t ((bs.map (Block.seenAt i flags)).map View.cells))[m]?.bind (·.get? 0 k)).getD nan) =
      pick flags ((e.eval (numberGrids t (bs.map Block.cells)) shape).row i) := by
  obtain ⟨-, hev⟩ := Expr.get?_eval e (shape_numberGrids t hs)
  refine List.ext_getElem? fun k => ?_
  rw [getElem?_pick, List.getElem?_map]
  cases hp : (places flags)[k]? with
  | none =>
    rw [List.getElem?_eq_none (by
      rw [List.length_range]
      exact List.getElem?_eq_none_iff.1 hp)]
    rfl
  | some j =>
    have hj : j < shape.2 := (lt_of_mem_places (List.mem_of_getElem? hp)).trans_eq hf
    rw [List.getElem?_range (List.getElem?_eq_some_iff.1 hp).1, Option.map_some, Option.bind_some,
      Grid.getElem?_row, hev i hi j hj]
    refine congrArg (fun inputs => some (e.evalCell inputs)) (funext fun m => ?_)
    rw [numberGrids_seenAt t bs i hp]

theorem agrees_expression (t : Term) (h : Ready ctx sources inputs) {e : Expr}
    (hk : t.kind = .expression e) : Agrees ctx (rowOf t ctx sources) (unmasked t inputs ctx) := by
  have hr (i : Nat) : rowOf t ctx sources i = (Sight.rows? (seen ctx sources i)).bind fun vs =>
      (t.numbers? vs).bind fun gs => some (Term.ofFloats t.dtype
        ((List.range (assets ctx i).length).map fun j =>
          e.evalCell fun i => (gs[i]?.bind (·.get? 0 j)).getD nan)) := by
    rw [rowOf, Term.values?, hk]
    rfl
  rw [unmasked_expression hk]
  rcases blocks_spec t h.feeds h.fits with ⟨bs, hs, hb, hrows⟩ | ⟨⟨e, he⟩, hrows⟩
  · rw [show blocks t ctx.shape inputs = _ from hb]
    show Agrees ctx _ (numbersAll t bs >>= _)
    by_cases hc : ∃ b ∈ bs, b.dtype = .categorical
    · -- a label has no number, in the whole block and in every row of it
      obtain ⟨e, he⟩ := numbersAll_eq_error t hc
      rw [he]
      refine agrees_of_error h ⟨e, rfl⟩ fun i _ => ?_
      rw [hr, seen, hrows, Option.bind_some, numbers?_eq_none t]
      · rfl
      · obtain ⟨b, hb, hd⟩ := hc
        exact ⟨b.seenAt i (ctx.mask.row i), List.mem_map_of_mem hb, hd⟩
    · have hc' : ∀ b ∈ bs, b.dtype ≠ .categorical := fun b hb hd => hc ⟨b, hb, hd⟩
      have hshape : ∀ b ∈ bs, b.shape = ctx.shape := fun b hb => (h.fits_block hs hb).1
      rw [numbersAll_eq t hc']
      obtain ⟨hos, hov, hon⟩ := ofFloats_spec (e.eval (numberGrids t (bs.map Block.cells)) ctx.shape) t.dtype
      refine .inl ⟨_, rfl, hos.trans (Expr.get?_eval e (shape_numberGrids t hshape)).1, hov, hon,
        fun i hi => ?_⟩
      have hcats : ∀ v ∈ bs.map (Block.seenAt i (ctx.mask.row i)), v.dtype ≠ .categorical :=
        List.forall_mem_map.2 hc'
      rw [ofFloats_row, hr, seen, hrows, Option.bind_some, numbers?_eq t hcats, Option.bind_some,
        h.length_assets hi, evalCell_seen t e hshape hi (h.length_flags hi)]
  · rw [show blocks t ctx.shape inputs = _ from he]
    refine agrees_of_error h ⟨e, rfl⟩ fun i _ => ?_
    rw [hr, seen, hrows]
    rfl

/-! ## Kinds that look across a row -/

/-- A local function of every row, or of every group in it. -/
theorem agrees_across (t : Term) (h : Ready ctx sources inputs) {grouped : Bool}
    {f : List Float → List Float} (hf : Stats.Local f)
    (hu : unmasked t inputs ctx = crossSection t ctx grouped inputs >>= fun (values, groups) =>
      .ok (.floats (byRow f values groups)))
    (hr : ∀ i, rowOf t ctx sources i =
      (t.crossSection? grouped (assets ctx i).length (seen ctx sources i)).bind fun (values, groups) =>
        some (.float64, (Stats.across f values groups).map .float)) :
    Agrees ctx (rowOf t ctx sources) (unmasked t inputs ctx) := by
  rcases crossSection_spec t grouped h with ⟨values, groups, hc, hvs, hrow⟩ | ⟨⟨e, he⟩, hrow⟩
  · rw [hu, hc]
    refine .inl ⟨.floats (byRow f values groups), rfl, hvs, trivial, trivial, fun i hi => ?_⟩
    obtain ⟨-, groups', hcr, hacross⟩ := hrow i hi
    rw [hr, hcr, Block.cells, Grid.row_map, pick_map, ← hacross f hf]
    rfl
  · rw [hu, he]
    refine agrees_of_error h ⟨e, rfl⟩ fun i hi => ?_
    rw [hr, hrow i hi]
    rfl

/-- A local function of every row that makes other values than floats. -/
theorem agrees_rowwise {β : Type} (t : Term) (h : Ready ctx sources inputs) {f : List Float → List β}
    (hf : Stats.Local f) {d : β} {wrap : Grid β → Block} {cell : β → Scalar} {dtype : Dtype}
    (hw : ∀ g, (wrap g).shape = g.shape ∧ (wrap g).Valid ∧ (wrap g).Distinct ∧
      (wrap g).dtype = dtype ∧ (wrap g).cells = g.map cell)
    (hu : unmasked t inputs ctx = crossSection t ctx false inputs >>= fun (values, _) =>
      .ok (wrap (gridOf ctx.shape d (values.toLists.map f))))
    (hr : ∀ i, rowOf t ctx sources i =
      (t.crossSection? false (assets ctx i).length (seen ctx sources i)).bind fun (values, _) =>
        some (dtype, (f values).map cell)) :
    Agrees ctx (rowOf t ctx sources) (unmasked t inputs ctx) := by
  rcases crossSection_spec t false h with ⟨values, groups, hc, hvs, hrow⟩ | ⟨⟨e, he⟩, hrow⟩
  · rw [hu, hc]
    obtain ⟨hos, hov, hon, hod, hoc⟩ := hw (gridOf ctx.shape d (values.toLists.map f))
    refine .inl ⟨_, rfl, hos, hov, hon, fun i hi => ?_⟩
    obtain ⟨hb, groups', hcr, -⟩ := hrow i hi
    have hn := Grid.shape_eq.1 hvs
    have hl : (f (values.row i)).length = ctx.shape.2 := by
      rw [hf.length, Grid.length_row (by rw [hn.1]; exact hi)]
      exact hn.2
    have hgrid : (gridOf ctx.shape d (values.toLists.map f)).row i = f (values.row i) := by
      rw [Grid.toLists_eq, List.map_map, hn.1]
      exact @row_gridOf _ _ (f ∘ values.row) _ hi hl d
    rw [hr, hcr, hod, hoc, Grid.row_map, pick_map, hgrid, hf.pick hb]
    rfl
  · rw [hu, he]
    refine agrees_of_error h ⟨e, rfl⟩ fun i hi => ?_
    rw [hr, hrow i hi]
    rfl

theorem local_between (low high : Param) : Stats.Local (between low high) :=
  Stats.local_of_map (fun ps x =>
    decide (x ≥ Stats.percentile (Stats.sortedPresent ps) low.toFloat) &&
      decide (x ≤ Stats.percentile (Stats.sortedPresent ps) high.toFloat)) fun xs => by
    simp only [between, Stats.sortedPresent_filter]

/-! ## Kinds with one input -/

/-- The only input is there for every row or for none. -/
theorem single_spec (t : Term) (h : Ready ctx sources inputs) :
    (∃ b missing, single t ctx.shape inputs = .ok (b, missing) ∧ b.shape = ctx.shape ∧ b.Valid ∧
      b.Distinct ∧ ∀ i, t.single? (seen ctx sources i) = some (b.seenAt i (ctx.mask.row i), missing)) ∨
    ((∃ e, single t ctx.shape inputs = .error e) ∧ ∀ i, t.single? (seen ctx sources i) = none) := by
  unfold Term.single? single
  rcases blocks_spec t h.feeds h.fits with ⟨bs, hs, hb, hrows⟩ | ⟨⟨e, he⟩, hrows⟩
  · rw [show blocks t ctx.shape inputs = _ from hb]
    simp only [seen, hrows]
    cases bs with
    | nil => exact .inr ⟨⟨_, rfl⟩, fun _ => rfl⟩
    | cons b bs =>
      cases t.inputs with
      | nil => exact .inr ⟨⟨_, rfl⟩, fun _ => rfl⟩
      | cons input _ =>
        obtain ⟨hbs, hv, hd⟩ := h.fits_block hs List.mem_cons_self
        exact .inl ⟨b, input.missing, rfl, hbs, hv, hd, fun _ => rfl⟩
  · rw [show blocks t ctx.shape inputs = _ from he]
    simp only [seen, hrows]
    exact .inr ⟨⟨e, rfl⟩, fun _ => rfl⟩

theorem agrees_nullCheck (t : Term) (h : Ready ctx sources inputs) {negate : Bool}
    (hk : t.kind = .nullCheck negate) : Agrees ctx (rowOf t ctx sources) (unmasked t inputs ctx) := by
  have hu : unmasked t inputs ctx = single t ctx.shape inputs >>= fun x =>
      .ok (.bools ((x.1.isMissing x.2).map (· != negate))) := by rw [unmasked, hk]; rfl
  have hr (i : Nat) : rowOf t ctx sources i = (t.single? (seen ctx sources i)).bind fun s =>
      some (.bool, (s.1.cells.row 0).map fun x => .bool (Scalar.isAbsent s.2 x != negate)) := by
    rw [rowOf, Term.values?, hk]
    rfl
  rcases single_spec t h with ⟨b, missing, hs, hbs, hv, hd, hrow⟩ | ⟨⟨e, he⟩, hrow⟩
  · rw [hu, hs]
    refine .inl ⟨.bools ((b.isMissing missing).map (· != negate)), rfl,
      (b.shape_isMissing missing).trans hbs, trivial, trivial, fun i hi => ?_⟩
    rw [hr, hrow, Option.bind_some]
    simp only
    rw [row_seenAt, Block.cells, Block.isMissing_eq hv hd, Grid.row_map, Grid.row_map,
      Grid.row_map, pick_map, pick_map, pick_map, List.map_map, List.map_map]
    rfl
  · rw [hu, he]
    refine agrees_of_error h ⟨e, rfl⟩ fun i _ => ?_
    rw [hr, hrow]
    rfl

theorem zipWith_map_self {α β : Type} (f : α → β → α) (g : α → β) (xs : List α) :
    List.zipWith f xs (xs.map g) = xs.map fun x => f x (g x) := by
  induction xs with
  | nil => rfl
  | cons x xs ih => exact congrArg (f x (g x) :: ·) ih

theorem agrees_fillMissing (t : Term) (h : Ready ctx sources inputs) {value : Scalar}
    (hk : t.kind = .fillMissing value) : Agrees ctx (rowOf t ctx sources) (unmasked t inputs ctx) := by
  have hu : unmasked t inputs ctx = single t ctx.shape inputs >>= fun x =>
      (x.1.whereMask ((x.1.isMissing x.2).map (!·)) value).mapError .array := by
    rw [unmasked, hk]
  have hr (i : Nat) : rowOf t ctx sources i = (t.single? (seen ctx sources i)).bind fun s =>
      if value.dtype ≠ s.1.dtype then none
      else some (s.1.dtype, (s.1.cells.row 0).map fun x =>
        if Scalar.isAbsent s.2 x then value else x) := by
    rw [rowOf, Term.values?, hk]
    rfl
  rcases single_spec t h with ⟨b, missing, hs, hbs, hv, hd, hrow⟩ | ⟨⟨e, he⟩, hrow⟩
  · rw [hu, hs]
    show Agrees ctx _ ((b.whereMask ((b.isMissing missing).map (!·)) value).mapError .array)
    have hms : ((b.isMissing missing).map (!·)).shape = b.shape := b.shape_isMissing missing
    by_cases hdt : value.dtype = b.dtype
    · obtain ⟨out, ho, hod, hov, hon, hoc⟩ := Block.whereMask_spec hms hdt hv
      refine .inl ⟨out, by rw [ho]; rfl, ?_, hov, hon hd, fun i hi => ?_⟩
      · rw [Block.shape_whereMask hms hoc, hbs]
      · rw [hr, hrow, Option.bind_some]
        simp only
        rw [if_neg (show ¬value.dtype ≠ (b.seenAt i (ctx.mask.row i)).dtype from not_not_intro hdt), hod, hoc,
          Grid.row_zipWith, Block.isMissing_eq hv hd,
          Grid.row_map, Grid.row_map, List.map_map, zipWith_map_self, pick_map, row_seenAt]
        refine congrArg (fun row => some (b.dtype, row)) (List.map_congr_left fun x _ => ?_)
        by_cases ha : Scalar.isAbsent missing x = true
        · simp [ha]
        · simp [ha]
    · obtain ⟨e, he⟩ := @Block.whereMask_eq_error ((b.isMissing missing).map (!·)) _ _ hdt
      rw [he]
      refine agrees_of_error h ⟨_, rfl⟩ fun i _ => ?_
      rw [hr, hrow]
      exact if_pos hdt
  · rw [hu, he]
    refine agrees_of_error h ⟨e, rfl⟩ fun i _ => ?_
    rw [hr, hrow]
    rfl

/-- A test of labels can be made of single labels. -/
theorem testLabels_spec {a : Labels} (hv : a.Valid) (hd : a.categories.Nodup) (test : LabelTest) :
    testLabels a test =
      (test.holds? .categorical).map fun holds => (Block.labels a).cells.map holds := by
  have hsat (f : String → Bool) : a.satisfying f =
      (Block.labels a).cells.map fun x => x.asLabel?.any f := by
    rw [Labels.satisfying_eq, Block.cells, Grid.map_map]
    rfl
  cases test with
  | equal v =>
    show (v.asLabel?.map fun l => a.eqLabel l) = _
    rw [LabelTest.holds?, Option.map_map]
    refine congrArg (v.asLabel?.map ·) (funext fun l => ?_)
    rw [Labels.eqLabel_eq hv hd, Function.comp_apply, Block.cells, Grid.map_map]
    rfl
  | notEqual v =>
    show (v.asLabel?.map fun l => a.neLabel l) = _
    rw [LabelTest.holds?, Option.map_map]
    exact congrArg (v.asLabel?.map ·) (funext fun l => hsat _)
  | isIn vs =>
    show ((vs.mapM Scalar.asLabel?).map fun ls => a.isIn ls) = _
    rw [LabelTest.holds?, Option.map_map]
    exact congrArg ((vs.mapM Scalar.asLabel?).map ·) (funext fun ls => hsat _)
  | startsWith s => exact congrArg some (hsat _)
  | endsWith s => exact congrArg some (hsat _)
  | contains s => exact congrArg some (hsat _)

theorem testInts_spec (g : Grid Int64) (test : LabelTest) :
    testInts g test = (test.holds? .int64).map fun holds => (Block.ints g).cells.map holds := by
  have hmap (f : Scalar → Bool) (p : Int64 → Bool) (e : ∀ n, f (.int n) = p n) :
      g.map p = (Block.ints g).cells.map f := by
    rw [Block.cells, Grid.map_map]
    exact Grid.map_congr fun _ _ n _ => (e n).symm
  cases test with
  | equal v =>
    show (v.asInt?.map fun n => g.map (· == n)) = _
    rw [LabelTest.holds?, Option.map_map]
    exact congrArg (v.asInt?.map ·) (funext fun n =>
      hmap (fun x => x.asInt? == some n) (· == n) fun _ => rfl)
  | notEqual v =>
    show (v.asInt?.map fun n => g.map (· != n)) = _
    rw [LabelTest.holds?, Option.map_map]
    exact congrArg (v.asInt?.map ·) (funext fun n =>
      hmap (fun x => x.asInt?.any (· != n)) (· != n) fun _ => rfl)
  | isIn vs =>
    show ((vs.mapM Scalar.asInt?).map fun ns => g.map ns.contains) = _
    rw [LabelTest.holds?, Option.map_map]
    exact congrArg ((vs.mapM Scalar.asInt?).map ·) (funext fun ns =>
      hmap (fun x => x.asInt?.any ns.contains) ns.contains fun _ => rfl)
  | _ => rfl

theorem labelTest_eq (t : Term) (test : LabelTest) (missing : Scalar) {b : Block} (hv : b.Valid)
    (hd : b.Distinct) : labelTest t test missing b = match test.holds? b.dtype with
      | some holds => .ok (.bools ((b.cells.map holds).zipWith (fun x absent => x && !absent)
          (b.isMissing missing)))
      | none => .error (.inputForm t.text 0 .testable) := by
  cases b with
  | labels a =>
    simp only [labelTest, testLabels_spec hv hd]
    show _ = match test.holds? .categorical with | some holds => _ | none => _
    cases test.holds? .categorical <;> rfl
  | ints g =>
    simp only [labelTest, testInts_spec]
    show _ = match test.holds? .int64 with | some holds => _ | none => _
    cases test.holds? .int64 <;> rfl
  | _ => cases test <;> rfl

theorem agrees_labelTest (t : Term) (h : Ready ctx sources inputs) {test : LabelTest}
    (hk : t.kind = .labelTest test) : Agrees ctx (rowOf t ctx sources) (unmasked t inputs ctx) := by
  have hu : unmasked t inputs ctx = single t ctx.shape inputs >>= fun x =>
      labelTest t test x.2 x.1 := by rw [unmasked, hk]
  have hr (i : Nat) : rowOf t ctx sources i = (t.single? (seen ctx sources i)).bind fun s =>
      (test.holds? s.1.dtype).bind fun holds => some (.bool, (s.1.cells.row 0).map fun x =>
        .bool (holds x && !Scalar.isAbsent s.2 x)) := by
    rw [rowOf, Term.values?, hk]
    rfl
  rcases single_spec t h with ⟨b, missing, hs, hbs, hv, hd, hrow⟩ | ⟨⟨e, he⟩, hrow⟩
  · rw [hu, hs]
    show Agrees ctx _ (labelTest t test missing b)
    rw [labelTest_eq t test missing hv hd]
    cases hh : test.holds? b.dtype with
    | none =>
      refine agrees_of_error h ⟨_, rfl⟩ fun i _ => ?_
      rw [hr, hrow, Option.bind_some]
      simp only
      rw [show (b.seenAt i (ctx.mask.row i)).dtype = b.dtype from rfl, hh]
      rfl
    | some holds =>
      have hzip : (b.cells.map holds).shape = (b.isMissing missing).shape := by
        rw [Grid.shape_map, Block.shape_cells, Block.shape_isMissing]
      refine .inl ⟨_, rfl, ?_, trivial, trivial, fun i hi => ?_⟩
      · refine (Grid.shape_zipWith _ hzip).trans ?_
        rw [Grid.shape_map, Block.shape_cells, hbs]
      · rw [hr, hrow, Option.bind_some]
        simp only
        rw [show (b.seenAt i (ctx.mask.row i)).dtype = b.dtype from rfl, hh, Option.bind_some,
          row_seenAt, Block.cells, Grid.row_map, Grid.row_zipWith, Block.isMissing_eq hv hd,
          Grid.row_map, Grid.row_map, List.zipWith_map, List.zipWith_self, List.map_map, pick_map]
        rfl
  · rw [hu, he]
    refine agrees_of_error h ⟨e, rfl⟩ fun i _ => ?_
    rw [hr, hrow]
    rfl

/-! ## Every kind -/

/-- Whatever a term does, computing it over a context is computing each row by itself. -/
theorem agrees (t : Term) (h : Ready ctx sources inputs) (hd : ∀ k, t.kind = .custom k → k.Decodes) :
    Agrees ctx (rowOf t ctx sources) (unmasked t inputs ctx) := by
  have hrank (method : Stats.RankMethod) (ascending : Bool) := Stats.local_rank method ascending
  cases hk : t.kind with
  | assetExists =>
    exact agrees_of_error h ⟨_, by rw [unmasked, hk]; rfl⟩ fun i _ => by rw [rowOf, Term.values?, hk]
  | column c =>
    exact agrees_of_error h ⟨_, by rw [unmasked, hk]; rfl⟩ fun i _ => by rw [rowOf, Term.values?, hk]
  | constant value => exact agrees_constant t hk
  | staticAssets keep => exact agrees_staticAssets t hk
  | latest => exact agrees_latest t h hk
  | expression e => exact agrees_expression t h hk
  | window k => exact agrees_windowed t h hk
  | custom k => exact agrees_custom t h hk (hd k hk)
  | rank method ascending grouped =>
    exact agrees_across t h (hrank method ascending) (by rw [unmasked, hk]; rfl)
      fun i => by rw [rowOf, Term.values?, hk]; rfl
  | transform kind grouped =>
    cases kind with
    | demean =>
      exact agrees_across t h Stats.local_demean (by rw [unmasked, hk]; rfl)
        fun i => by rw [rowOf, Term.values?, hk]; rfl
    | zscore =>
      exact agrees_across t h Stats.local_zscore (by rw [unmasked, hk]; rfl)
        fun i => by rw [rowOf, Term.values?, hk]; rfl
  | quantiles bins =>
    exact @agrees_rowwise _ _ _ _ t h _ (Stats.local_quantiles bins) _ .ints .int _
      (fun g => ⟨rfl, trivial, trivial, rfl, rfl⟩) (by rw [unmasked, hk]; rfl)
      fun i => by rw [rowOf, Term.values?, hk]; rfl
  | percentileBetween low high =>
    exact @agrees_rowwise _ _ _ _ t h _ (local_between low high) _ .bools .bool _
      (fun g => ⟨rfl, trivial, trivial, rfl, rfl⟩) (by rw [unmasked, hk]; rfl)
      fun i => by rw [rowOf, Term.values?, hk]; rfl
  | nullCheck negate => exact agrees_nullCheck t h hk
  | fillMissing value => exact agrees_fillMissing t h hk
  | labelTest test => exact agrees_labelTest t h hk

/-- An evaluation succeeds if all its checks do. -/
theorem evaluate_eq_ok {t : Term} {inputs : List Input} {ctx : Context} {b : Block} :
    evaluate t inputs ctx = .ok b ↔ ctx.mask.shape = ctx.shape ∧ inputs.length = t.inputs.length ∧
      ∃ out, unmasked t inputs ctx = .ok out ∧ out.shape = ctx.shape ∧ out.whereMask ctx.mask t.missing = .ok b := by
  unfold evaluate
  by_cases hm : ctx.mask.shape = ctx.shape
  · rw [if_neg (not_not_intro hm), and_iff_right hm]
    by_cases hl : inputs.length = t.inputs.length
    · rw [if_neg (not_not_intro hl), and_iff_right hl]
      refine Checked.bind_eq_ok.trans (exists_congr fun out => and_congr_right fun _ => ?_)
      by_cases hs : out.shape = ctx.shape
      · rw [if_neg (not_not_intro hs), and_iff_right hs]
        exact Checked.mapError_eq_ok
      · rw [if_pos hs]
        exact iff_of_false nofun fun h => hs h.1
    · rw [if_pos hl]
      exact iff_of_false nofun fun h => hl h.1
  · rw [if_pos hm]
    exact iff_of_false nofun fun h => hm h.1

/-- What is computed becomes what the term evaluates to, with the missing value outside the mask. -/
theorem evaluate_of_unmasked {t : Term} {inputs : List Input} {ctx : Context} {whole : Block}
    (hm : ctx.mask.shape = ctx.shape) (hl : inputs.length = t.inputs.length)
    (hu : unmasked t inputs ctx = .ok whole) (hs : whole.shape = ctx.shape) (hd : t.missing.dtype = whole.dtype)
    (hv : whole.Valid) : ∃ out, evaluate t inputs ctx = .ok out ∧ out.shape = ctx.shape ∧ out.dtype = whole.dtype ∧
      out.Valid ∧ (whole.Distinct → out.Distinct) ∧
      out.cells = whole.cells.zipWith (fun v keep => if keep then v else t.missing) ctx.mask := by
  obtain ⟨out, hout, hod, hov, hon, hcells⟩ := Block.whereMask_spec (hm.trans hs.symm) hd hv
  exact ⟨out, evaluate_eq_ok.2 ⟨hm, hl, whole, hu, hs, hout⟩, (Block.shape_of_whereMask hout).trans hs, hod, hov, hon,
    hcells⟩

/-- Evaluating a term is computing the row of every session for the assets that the mask
lets through, and putting the missing value elsewhere. It fails where some row does. -/
theorem evaluate_spec (t : Term) (h : Ready ctx sources inputs)
    (hd : ∀ k, t.kind = .custom k → k.Decodes) :
    (∃ b, evaluate t inputs ctx = .ok b ∧ b.dtype = t.missing.dtype ∧ b.shape = ctx.shape ∧ b.Valid ∧
      b.Distinct ∧ (∀ i < ctx.dates.length,
        t.row? (ctx.dates.getD i ⟨0⟩) (assets ctx i) (seen ctx sources i) =
          some (pick (ctx.mask.row i) (b.cells.row i))) ∧
      ∀ i j, ctx.mask.get? i j = some false → b.get? i j = some t.missing) ∨
    ((∃ e, evaluate t inputs ctx = .error e) ∧ ∃ i < ctx.dates.length,
      t.row? (ctx.dates.getD i ⟨0⟩) (assets ctx i) (seen ctx sources i) = none) := by
  have hlen : inputs.length = sources.length := h.feeds.length_eq.symm
  have hrow (i : Nat) : t.row? (ctx.dates.getD i ⟨0⟩) (assets ctx i) (seen ctx sources i) =
      if inputs.length ≠ t.inputs.length then none
      else (rowOf t ctx sources i).bind fun x =>
        if x.1 = t.missing.dtype then some x.2 else none := by
    rw [Term.row?, seen, List.length_map, ← hlen]
    rfl
  by_cases hl : inputs.length = t.inputs.length
  · have hl' : ¬inputs.length ≠ t.inputs.length := not_not_intro hl
    rcases agrees t h hd with ⟨out, ho, hos, hov, hon, hrows⟩ | ⟨hno, i, hi, hn⟩
    · by_cases hdt : t.missing.dtype = out.dtype
      · obtain ⟨b, hb, hbs, hbd, hbv, hbn, hbc⟩ := evaluate_of_unmasked h.mask hl ho hos hdt hov
        refine .inl ⟨b, hb, hbd.trans hdt.symm, hbs, hbv, hbn hon, fun i hi => ?_,
          fun i j hm => Block.get?_whereMask (h.mask.trans hos.symm) hbc hm⟩
        have hcells := Grid.shape_eq.1 (out.shape_cells.trans hos)
        have hcl : (ctx.mask.row i).length = (out.cells.row i).length := by
          rw [h.length_flags hi, Grid.length_row (by rw [hcells.1]; exact hi)]
          exact hcells.2.symm
        rw [hrow, if_neg hl', hrows i hi, Option.bind_some, hbc, Grid.row_zipWith, pick_masked hcl]
        exact if_pos hdt.symm
      · refine .inr ⟨Checked.exists_error_iff.2 fun b hb => ?_, 0, h.rows, ?_⟩
        · obtain ⟨-, -, out', ho', -, hb⟩ := evaluate_eq_ok.1 hb
          obtain rfl := Except.ok.inj (ho.symm.trans ho')
          exact hdt (Block.of_whereMask hb).2
        · rw [hrow, if_neg hl', hrows 0 h.rows, Option.bind_some]
          exact if_neg fun e => hdt e.symm
    · refine .inr ⟨Checked.exists_error_iff.2 fun b hb => ?_, i, hi, by rw [hrow, if_neg hl', hn]; rfl⟩
      obtain ⟨-, -, out, ho, hos, -⟩ := evaluate_eq_ok.1 hb
      exact hno out ho hos
  · exact .inr ⟨Checked.exists_error_iff.2 fun b hb => hl (evaluate_eq_ok.1 hb).2.1, 0, h.rows,
      by rw [hrow, if_pos hl]⟩

end AsOf.Evaluate
