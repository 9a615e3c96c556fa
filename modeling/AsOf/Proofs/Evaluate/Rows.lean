import AsOf.Proofs.Evaluate.Sight

/-!
# Rows of what an evaluation builds

The grids that an evaluation builds are built row by row. Each lemma here says which
cells of a row the assets under the flags get: what they would get if the row were
theirs alone.

* `pick_scatter`: values put in place, and picked again, are the values.
* `Expr.get?_eval`: a formula is computed cell by cell.
* `crossSection_spec`, `across_eq`: a row compared with itself, or with its groups.
-/
namespace AsOf

/-- Where keys do not repeat, the key at a place finds the value at that place. -/
theorem lookup_zip {α β : Type} [BEq α] [LawfulBEq α] {keys : List α} (h : keys.Nodup) {xs : List β}
    {k : Nat} {key : α} (hk : keys[k]? = some key) : (keys.zip xs).lookup key = xs[k]? := by
  induction keys generalizing xs k with
  | nil => cases hk
  | cons a keys ih =>
    obtain ⟨ha, hn⟩ := List.nodup_cons.1 h
    cases xs with
    | nil => rw [List.zip_nil_right, List.lookup_nil, List.getElem?_nil]
    | cons x xs =>
      rw [List.zip_cons_cons, List.lookup_cons]
      cases k with
      | zero =>
        obtain rfl := Option.some.inj hk
        rw [beq_self_eq_true]
        rfl
      | succ k =>
        have hmem : key ∈ keys := List.mem_of_getElem? hk
        have hne : key ≠ a := fun e => ha (e ▸ hmem)
        rw [beq_eq_false_iff_ne.2 hne]
        exact ih hn hk

theorem map_fst_zip_sublist {α β : Type} (keys : List α) (xs : List β) :
    ((keys.zip xs).map Prod.fst).Sublist keys := by
  induction keys generalizing xs with
  | nil => exact List.Sublist.refl []
  | cons a keys ih =>
    cases xs with
    | nil => exact List.nil_sublist _
    | cons x xs => exact (ih xs).cons_cons a

/-- Values put in place, and picked again, are the values, as many as there are places. -/
theorem pick_scatter {n : Nat} {flags : List Bool} (h : flags.length = n) (xs : List Float) :
    pick flags (Stats.scatter n ((places flags).zip xs)) =
      (List.range (places flags).length).map fun k => xs.getD k nan := by
  have hn : (((places flags).zip xs).map (·.1)).Nodup :=
    (nodup_places flags).sublist (map_fst_zip_sublist _ _)
  apply List.ext_getElem?
  intro k
  rw [getElem?_pick, List.getElem?_map]
  cases hk : (places flags)[k]? with
  | none =>
    rw [List.getElem?_eq_none (l := List.range _)]
    · rfl
    · rw [List.length_range]
      exact List.getElem?_eq_none_iff.1 hk
  | some j =>
    have hlt : k < (places flags).length := (List.getElem?_eq_some_iff.1 hk).1
    have hj : j < n := h ▸ lt_of_mem_places (List.mem_of_getElem? hk)
    rw [Option.bind_some, Stats.getElem?_scatter hn hj, lookup_zip (nodup_places flags) hk,
      List.getElem?_range hlt, Option.map_some, List.getD_eq_getElem?_getD]

/-- The value of a formula in a cell is the formula of the values in that cell. -/
theorem Expr.get?_eval (e : Expr) {grids : List (Grid Float)} {shape : Nat × Nat}
    (h : ∀ g ∈ grids, g.shape = shape) : (e.eval grids shape).shape = shape ∧
      ∀ i < shape.1, ∀ j < shape.2, (e.eval grids shape).get? i j =
        some (e.evalCell fun k => (grids[k]?.bind (·.get? i j)).getD nan) := by
  induction e with
  | input k =>
    cases hk : grids[k]? with
    | none =>
      simp only [eval, List.getD_eq_getElem?_getD, hk, Option.getD_none]
      refine ⟨rfl, fun i hi j hj => ?_⟩
      rw [Grid.get?_replicate, if_pos ⟨hi, hj⟩, evalCell, hk]
      rfl
    | some g =>
      simp only [eval, List.getD_eq_getElem?_getD, hk, Option.getD_some]
      have hg : g.shape = shape := h g (List.mem_of_getElem? hk)
      refine ⟨hg, fun i hi j hj => ?_⟩
      have hs := Grid.shape_eq.1 hg
      obtain ⟨x, hx⟩ := Option.isSome_iff_exists.1 (Grid.isSome_get?.2 ⟨hs.1 ▸ hi, hs.2 ▸ hj⟩)
      rw [evalCell, hk, Option.bind_some, hx]
      rfl
  | const c =>
    refine ⟨rfl, fun i hi j hj => ?_⟩
    rw [eval, Grid.get?_replicate, if_pos ⟨hi, hj⟩, evalCell]
  | unary op e ih =>
    refine ⟨ih.1, fun i hi j hj => ?_⟩
    rw [eval, Grid.get?_map, ih.2 i hi j hj, evalCell]
    rfl
  | binary op a b iha ihb =>
    refine ⟨?_, fun i hi j hj => ?_⟩
    · rw [eval, Grid.shape_zipWith _ (iha.1.trans ihb.1.symm), iha.1]
    · rw [eval, Grid.get?_zipWith, iha.2 i hi j hj, ihb.2 i hi j hj, evalCell]
      rfl

namespace Evaluate

/-! ## Grids built row by row -/

theorem shape_gridOf {α : Type} (shape : Nat × Nat) (d : α) (rows : List (List α)) :
    (gridOf shape d rows).shape = shape := rfl

/-- A grid over as many rows as it has, each of its width, has those rows. -/
theorem row_gridOf {α : Type} {shape : Nat × Nat} {row : Nat → List α} {i : Nat} (hi : i < shape.1)
    (hl : (row i).length = shape.2) (d : α) :
    (gridOf shape d ((List.range shape.1).map row)).row i = row i := by
  apply List.ext_getElem?
  intro j
  rw [Grid.getElem?_row, gridOf, Grid.get?_ofFn]
  by_cases hj : j < shape.2
  · rw [dif_pos ⟨hi, hj⟩, List.getElem?_eq_getElem (hl ▸ hj)]
    simp only [List.map_map, List.getElem?_toArray, List.getElem?_map, List.getElem?_range hi,
      Option.map_some, Option.bind_some, Function.comp_apply, List.getElem?_eq_getElem (hl ▸ hj),
      Option.getD_some]
  · rw [dif_neg fun h => hj h.2, List.getElem?_eq_none (by omega)]

/-- Floats as cells of a type, row by row. -/
theorem ofFloats_row (g : Grid Float) (dtype : Dtype) (i : Nat) (flags : List Bool) :
    ((ofFloats g dtype).dtype, pick flags ((ofFloats g dtype).cells.row i)) =
      Term.ofFloats dtype (pick flags (g.row i)) := by
  have hf : ((Block.floats g).dtype, pick flags ((Block.floats g).cells.row i)) =
      (Dtype.float64, (pick flags (g.row i)).map .float) := by
    rw [Block.cells, Grid.row_map, pick_map]
    rfl
  cases dtype with
  | bool =>
    rw [ofFloats, Block.cells, Grid.row_map, Grid.row_map, pick_map, pick_map, List.map_map]
    rfl
  | _ => exact hf

theorem ofFloats_spec (g : Grid Float) (dtype : Dtype) : (ofFloats g dtype).shape = g.shape ∧
    (ofFloats g dtype).Valid ∧ (ofFloats g dtype).Distinct := by
  cases dtype <;> exact ⟨rfl, trivial, trivial⟩

/-! ## Masked rows -/

theorem pick_masked {α : Type} {flags : List Bool} {xs : List α} (h : flags.length = xs.length) (d : α) :
    pick flags (List.zipWith (fun x keep => if keep then x else d) xs flags) = pick flags xs := by
  induction xs generalizing flags with
  | nil => rw [List.zipWith_nil_left]
  | cons x xs ih =>
    match flags, h with
    | flag :: flags, h =>
      have := @ih flags (by simpa using h)
      cases flag with
      | true => exact congrArg (x :: ·) this
      | false => exact this

theorem blank_masked {flags : List Bool} {xs : List Float} (h : flags.length = xs.length) :
    Stats.Blank flags (List.zipWith (fun x keep => if keep then x else nan) xs flags) := by
  induction xs generalizing flags with
  | nil =>
    rw [List.zipWith_nil_left, List.length_eq_zero_iff.1 h]
    exact .nil
  | cons x xs ih =>
    match flags, h with
    | flag :: flags, h =>
      refine .cons (fun hf => ?_) (ih (by simpa using h))
      rw [hf]
      show nan.isNaN = true
      decide

/-! ## Inputs of a context -/

/-- Inputs that show some sources over a context that has a row and a mask of its shape. -/
structure Ready (ctx : Context) (sources : List Source) (inputs : List Input) : Prop where
  rows : 0 < ctx.dates.length
  mask : ctx.mask.shape = ctx.shape
  feeds : List.Forall₂ (Source.Feeds ctx.dates.length) sources inputs
  fits : ∀ s ∈ sources, s.Fits ctx.shape

variable {ctx : Context} {sources : List Source} {inputs : List Input}

/-- What the assets that take part in a row see of the sources. -/
def seen (ctx : Context) (sources : List Source) (i : Nat) : List Sight :=
  sources.map (Source.sight i (ctx.mask.row i))

/-- The assets that take part in a row. -/
def assets (ctx : Context) (i : Nat) : List Sid := pick (ctx.mask.row i) ctx.sids

namespace Ready

theorem nrows_mask (h : Ready ctx sources inputs) : ctx.mask.nrows = ctx.dates.length :=
  congrArg Prod.fst h.mask

theorem length_flags (h : Ready ctx sources inputs) {i : Nat} (hi : i < ctx.dates.length) :
    (ctx.mask.row i).length = ctx.sids.length := by
  rw [Grid.length_row (h.nrows_mask ▸ hi)]
  exact congrArg Prod.snd h.mask

theorem length_assets (h : Ready ctx sources inputs) {i : Nat} (hi : i < ctx.dates.length) :
    (assets ctx i).length = (places (ctx.mask.row i)).length := length_pick (h.length_flags hi)

theorem fits_block (h : Ready ctx sources inputs) {bs : List Block} (hs : sources = bs.map .block)
    {b : Block} (hb : b ∈ bs) : b.shape = ctx.shape ∧ b.Valid ∧ b.Distinct :=
  h.fits (.block b) (hs ▸ List.mem_map_of_mem hb)

end Ready

/-! ## Numbers under the mask -/

/-- Numbers under the mask: NaN for every asset that takes no part. -/
def underMask (ctx : Context) (g : Grid Float) : Grid Float :=
  g.zipWith (fun x keep => if keep then x else nan) ctx.mask

section UnderMask

variable {g : Grid Float} {i : Nat} (hm : ctx.mask.shape = ctx.shape) (hg : g.shape = ctx.shape)
include hm hg

theorem shape_underMask : (underMask ctx g).shape = ctx.shape := by
  rw [underMask, Grid.shape_zipWith _ (hg.trans hm.symm), hg]

theorem length_flags_eq (hi : i < ctx.shape.1) : (ctx.mask.row i).length = (g.row i).length := by
  rw [Grid.length_row (hi.trans_eq (congrArg Prod.fst hm).symm),
    Grid.length_row (hi.trans_eq (congrArg Prod.fst hg).symm)]
  exact congrArg Prod.snd (hm.trans hg.symm)

theorem blank_underMask (hi : i < ctx.shape.1) : Stats.Blank (ctx.mask.row i) ((underMask ctx g).row i) := by
  rw [underMask, Grid.row_zipWith]
  exact blank_masked (length_flags_eq hm hg hi)

/-- The mask changes nothing that takes part. -/
theorem pick_underMask (hi : i < ctx.shape.1) :
    pick (ctx.mask.row i) ((underMask ctx g).row i) = pick (ctx.mask.row i) (g.row i) := by
  rw [underMask, Grid.row_zipWith, pick_masked (length_flags_eq hm hg hi)]

end UnderMask

/-! ## Cross-sections -/

/-- The first input can be read as floats in every row or in none. -/
theorem firstNumbers?_spec (t : Term) (h : Ready ctx sources inputs) {bs : List Block}
    (hs : sources = bs.map .block) :
    (∃ g, numbers t 0 (bs.headD (.floats (.replicate ctx.shape nan))) = .ok g ∧ g.shape = ctx.shape ∧
      ∀ i < ctx.dates.length, t.firstNumbers? (assets ctx i).length
        (bs.map (Block.seenAt i (ctx.mask.row i))) = some (pick (ctx.mask.row i) (g.row i))) ∨
    ((∃ e, numbers t 0 (bs.headD (.floats (.replicate ctx.shape nan))) = .error e) ∧
      ∀ i < ctx.dates.length, t.firstNumbers? (assets ctx i).length
        (bs.map (Block.seenAt i (ctx.mask.row i))) = none) := by
  cases bs with
  | nil =>
    have hc : (Block.floats (.replicate ctx.shape nan)).cells.map (Scalar.number (t.missingOf 0)) =
        .replicate ctx.shape (Scalar.number (t.missingOf 0) (.float nan)) := by
      rw [Block.cells, Block.map_replicate, Block.map_replicate]
    have hn : Scalar.number (t.missingOf 0) (.float nan) = nan := by
      rw [Scalar.number]
      cases (t.missingOf 0).asFloat? with
      | none => rfl
      | some m => simp only [ite_self]
    refine .inl ⟨(Block.floats (.replicate ctx.shape nan)).cells.map (Scalar.number (t.missingOf 0)),
      ?_, ?_, fun i hi => ?_⟩
    · rw [List.headD_nil, numbers_eq, if_neg (by rintro ⟨⟩)]
    · rw [Grid.shape_map, Block.shape_cells]
      rfl
    · rw [hc, hn, Grid.row_replicate (show i < ctx.shape.1 from hi), List.map_nil, Term.firstNumbers?]
      refine congrArg some (List.ext_getElem? fun k => ?_)
      rw [getElem?_pick, List.getElem?_replicate, h.length_assets hi]
      cases hk : (places (ctx.mask.row i))[k]? with
      | none =>
        rw [if_neg (by have := List.getElem?_eq_none_iff.1 hk; omega)]
        rfl
      | some j =>
        have hj : j < ctx.shape.2 := by
          have := lt_of_mem_places (List.mem_of_getElem? hk)
          rwa [h.length_flags hi] at this
        rw [if_pos (List.getElem?_eq_some_iff.1 hk).1, Option.bind_some, List.getElem?_replicate,
          if_pos hj]
  | cons b bs =>
    obtain ⟨hbs, -, -⟩ := h.fits_block hs List.mem_cons_self
    by_cases hd : b.dtype = .categorical
    · refine .inr ⟨⟨.inputForm t.text 0 .numbers, ?_⟩, fun i hi => ?_⟩
      · rw [List.headD_cons, numbers_eq, if_pos hd]
      · rw [List.map_cons, Term.firstNumbers?, View.numbers?, if_pos (show (b.seenAt _ _).dtype = _ from hd)]
        rfl
    · refine .inl ⟨b.cells.map (Scalar.number (t.missingOf 0)), ?_, ?_, fun i hi => ?_⟩
      · rw [List.headD_cons, numbers_eq, if_neg hd]
      · rw [Grid.shape_map, Block.shape_cells, hbs]
      · rw [List.map_cons, Term.firstNumbers?, View.numbers?,
          if_neg (show ¬(b.seenAt _ _).dtype = _ from hd), Option.map_some, Grid.row_map, Grid.row_map,
          row_seenAt, pick_map]

/-- The groups of a row are called by other names in it alone. -/
structure Renamed (gs gs' : List (Option Int)) (name : Int → Int) : Prop where
  eq : gs' = gs.map (Option.map name)
  injective : ∀ x y, some x ∈ gs → some y ∈ gs → name x = name y → x = y

/-- The groups of the second input, as the evaluation finds them. -/
def groupsOf (t : Term) (bs : List Block) : Option (Grid (Option Int)) :=
  match t.inputs[1]?, bs[1]? with
  | some classifier, some b => groupIds? classifier.missing b
  | _, _ => none

/-- The groups of the second input can be told in every row or in none. -/
theorem secondGroups?_spec (t : Term) (h : Ready ctx sources inputs) {bs : List Block}
    (hs : sources = bs.map .block) :
    (∃ gs, groupsOf t bs = some gs ∧ gs.shape = ctx.shape ∧
      ∀ i < ctx.dates.length, ∃ gs' name,
        t.secondGroups? (bs.map (Block.seenAt i (ctx.mask.row i))) = some gs' ∧
          Renamed (pick (ctx.mask.row i) (gs.row i)) gs' name) ∨
    (groupsOf t bs = none ∧
      ∀ i < ctx.dates.length, t.secondGroups? (bs.map (Block.seenAt i (ctx.mask.row i))) = none) := by
  simp only [groupsOf, Term.secondGroups?, List.getElem?_map]
  cases t.inputs[1]? with
  | none => exact .inr ⟨rfl, fun _ _ => rfl⟩
  | some classifier =>
    cases hb : bs[1]? with
    | none => exact .inr ⟨rfl, fun _ _ => rfl⟩
    | some b =>
      obtain ⟨hbs, hv, hd⟩ := h.fits_block hs (List.mem_of_getElem? hb)
      rcases groupIds?_spec classifier.missing hv hd with ⟨hn, hrow⟩ | ⟨gs, hg, hgs, hrow⟩
      · exact .inr ⟨hn, fun _ _ => hrow _⟩
      · refine .inl ⟨gs, hg, hgs.trans hbs, fun i hi => ?_⟩
        obtain ⟨name, hname, hinj⟩ := hrow i (ctx.mask.row i)
        exact ⟨_, name, hname, rfl, hinj⟩

/-- A function of every row, or of every group in every row, row by row. -/
theorem row_byRow {f : List Float → List Float} (hf : Stats.Local f) {values : Grid Float}
    {groups : Option (Grid (Option Int))} (hg : ∀ gs ∈ groups, gs.shape = values.shape) {i : Nat}
    (hi : i < values.nrows) :
    (byRow f values groups).row i = Stats.across f (values.row i) (groups.map (·.row i)) := by
  have hl := Grid.length_row hi
  cases groups with
  | none => exact @row_gridOf _ _ (fun i => f (values.row i)) _ hi ((hf.length _).trans hl) nan
  | some gs =>
    have hgl : (gs.row i).length = (values.row i).length := by
      have := Prod.mk.inj (hg gs rfl)
      rw [hl, Grid.length_row (this.1 ▸ hi), this.2]
    refine @row_gridOf _ _ (fun i => Stats.grouped f (values.row i) (gs.row i)) _ hi ?_ nan
    rw [Stats.grouped_eq f hgl, Stats.length_scatter, hl]
    rfl

/-- A local function gives the assets under the flags what it would give them alone. -/
theorem pick_across {f : List Float → List Float} (hf : Stats.Local f) {flags : List Bool}
    {values : List Float} (hb : Stats.Blank flags values) {groups : List (Option Int)}
    (hl : groups.length = values.length) {gs' : List (Option Int)} {name : Int → Int}
    (hr : Renamed (pick flags groups) gs' name) :
    Stats.across f (pick flags values) (some gs') = pick flags (Stats.across f values (some groups)) := by
  obtain ⟨rfl, hinj⟩ := hr
  have hfl : flags.length = values.length := hb.length_eq
  rw [Stats.across, Stats.grouped_map hf (length_pick_eq (hfl.trans hl.symm) hfl) hinj, Stats.across,
    Stats.pick_grouped hf hb hl]

/-- A local function of every row, or of every group in it, gives the assets under the flags
what it would give them alone. -/
theorem pick_byRow {f : List Float → List Float} (hf : Stats.Local f) {flags : List Bool}
    {values : Grid Float} {i : Nat} (hi : i < values.nrows) (hb : Stats.Blank flags (values.row i)) :
    Stats.across f (pick flags (values.row i)) none = pick flags ((byRow f values none).row i) := by
  have hg : ∀ gs ∈ (none : Option (Grid (Option Int))), gs.shape = values.shape := fun _ h =>
    absurd h (Option.not_mem_none _)
  rw [row_byRow hf hg hi, Option.map_none,
    Stats.across, Stats.across, hf.pick hb]

theorem pick_byRow_groups {f : List Float → List Float} (hf : Stats.Local f) {flags : List Bool}
    {values : Grid Float} {gs : Grid (Option Int)} (hg : gs.shape = values.shape) {i : Nat}
    (hi : i < values.nrows) (hb : Stats.Blank flags (values.row i)) {gs' : List (Option Int)}
    {name : Int → Int} (hr : Renamed (pick flags (gs.row i)) gs' name) :
    Stats.across f (pick flags (values.row i)) (some gs') =
      pick flags ((byRow f values (some gs)).row i) := by
  obtain ⟨hrows, hcols⟩ := Prod.mk.inj hg
  have hl : (gs.row i).length = (values.row i).length := by
    rw [Grid.length_row (hi.trans_eq hrows.symm), Grid.length_row hi, hcols]
  rw [row_byRow hf (fun _ h => Option.some.inj h ▸ hg) hi, Option.map_some, pick_across hf hb hl hr]

/-- The cross-section of some blocks: their numbers, masked, and their groups. -/
theorem crossSection_eq (t : Term) (grouped : Bool) {bs : List Block} {g : Grid Float}
    (hb : blocks t ctx.shape inputs = .ok bs)
    (hg : numbers t 0 (bs.headD (.floats (.replicate ctx.shape nan))) = .ok g) :
    crossSection t ctx grouped inputs =
      if grouped then
        (groupsOf t bs).elim (.error (.inputForm t.text 1 .classifier)) fun gs =>
          .ok (underMask ctx g, some gs)
      else .ok (underMask ctx g, none) := by
  unfold crossSection
  rw [show blocks t ctx.shape inputs = _ from hb]
  show (numbers t 0 _ >>= _) = _
  rw [hg]
  cases grouped with
  | false => rfl
  | true =>
    unfold groupsOf
    cases t.inputs[1]? with
    | none => rfl
    | some classifier =>
      cases bs[1]? with
      | none => rfl
      | some b =>
        dsimp only
        cases groupIds? classifier.missing b <;> rfl

theorem crossSection_eq_error (t : Term) (grouped : Bool) {bs : List Block} {e : EvalError}
    (hb : blocks t ctx.shape inputs = .ok bs)
    (he : numbers t 0 (bs.headD (.floats (.replicate ctx.shape nan))) = .error e) :
    crossSection t ctx grouped inputs = .error e := by
  unfold crossSection
  rw [show blocks t ctx.shape inputs = _ from hb]
  show (numbers t 0 _ >>= _) = _
  rw [he]
  rfl

/-- The cross-section of a row: the numbers of its first input, and the groups of its second. -/
theorem crossSection?_eq (t : Term) (grouped : Bool) (assets : Nat) {seen : List Sight} {vs : List View}
    (hs : Sight.rows? seen = some vs) : t.crossSection? grouped assets seen =
      (t.firstNumbers? assets vs).bind fun values =>
        if grouped then (t.secondGroups? vs).map fun gs => (values, some gs) else some (values, none) := by
  rw [Term.crossSection?, hs]
  show (t.firstNumbers? assets vs >>= _) = _
  cases t.firstNumbers? assets vs with
  | none => rfl
  | some values =>
    cases grouped with
    | false => rfl
    | true => cases t.secondGroups? vs <;> rfl

/-- A cross-section can be taken in every row or in none. A local function of it gives
the assets of a row what it would give them alone. -/
theorem crossSection_spec (t : Term) (grouped : Bool) (h : Ready ctx sources inputs) :
    (∃ values groups, crossSection t ctx grouped inputs = .ok (values, groups) ∧
      values.shape = ctx.shape ∧ ∀ i < ctx.dates.length,
        Stats.Blank (ctx.mask.row i) (values.row i) ∧
        ∃ groups', t.crossSection? grouped (assets ctx i).length (seen ctx sources i) =
            some (pick (ctx.mask.row i) (values.row i), groups') ∧
          ∀ f, Stats.Local f → Stats.across f (pick (ctx.mask.row i) (values.row i)) groups' =
            pick (ctx.mask.row i) ((byRow f values groups).row i)) ∨
    ((∃ e, crossSection t ctx grouped inputs = .error e) ∧ ∀ i < ctx.dates.length,
      t.crossSection? grouped (assets ctx i).length (seen ctx sources i) = none) := by
  rcases blocks_spec t h.feeds h.fits with ⟨bs, hs, hb, hrows⟩ | ⟨⟨e, he⟩, hrows⟩
  · have hcr (i : Nat) := crossSection?_eq t grouped (assets ctx i).length (hrows i (ctx.mask.row i))
    rcases firstNumbers?_spec t h hs with ⟨g, hg, hgs, hfirst⟩ | ⟨⟨e, he⟩, hfirst⟩
    · have hvs := shape_underMask h.mask hgs
      have hlt {i : Nat} (hi : i < ctx.dates.length) : i < (underMask ctx g).nrows :=
        hi.trans_eq (congrArg Prod.fst hvs).symm
      have hblank {i : Nat} (hi : i < ctx.dates.length) := blank_underMask h.mask hgs hi
      have hpick {i : Nat} (hi : i < ctx.dates.length) := pick_underMask h.mask hgs hi
      have hcs := crossSection_eq t grouped hb hg
      cases grouped with
      | false =>
        refine .inl ⟨_, none, hcs, hvs, fun i hi => ⟨hblank hi, none, ?_, fun f hf => ?_⟩⟩
        · rw [seen, hcr, hfirst i hi, hpick hi]
          rfl
        · exact pick_byRow hf (hlt hi) (hblank hi)
      | true =>
        rcases secondGroups?_spec t h hs with ⟨gs, hgs', hgshape, hsecond⟩ | ⟨hnone, hsecond⟩
        · rw [hgs'] at hcs
          refine .inl ⟨_, some gs, hcs, hvs, fun i hi => ?_⟩
          obtain ⟨gs', name, hsome, hren⟩ := hsecond i hi
          refine ⟨hblank hi, some gs', ?_, fun f hf => ?_⟩
          · rw [seen, hcr, hfirst i hi, Option.bind_some, hsome, hpick hi]
            rfl
          · exact pick_byRow_groups hf (hgshape.trans hvs.symm) (hlt hi) (hblank hi) hren
        · rw [hnone] at hcs
          refine .inr ⟨⟨_, hcs⟩, fun i hi => ?_⟩
          rw [seen, hcr, hfirst i hi, Option.bind_some, hsecond i hi]
          rfl
    · refine .inr ⟨⟨e, crossSection_eq_error t grouped hb he⟩, fun i hi => ?_⟩
      rw [seen, hcr, hfirst i hi, Option.bind_none]
  · refine .inr ⟨⟨e, ?_⟩, fun i _ => ?_⟩
    · unfold crossSection
      rw [show blocks t ctx.shape inputs = _ from he]
      rfl
    · rw [Term.crossSection?, seen, hrows]
      rfl

end Evaluate
end AsOf
