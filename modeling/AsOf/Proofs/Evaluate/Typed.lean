import AsOf.Proofs.Evaluate.Kinds
import AsOf.Proofs.Made

/-!
# Terms that evaluate

A proper term that is given what its inputs are evaluates: it is given a block of the context
or, where it has a window, a cursor that shows one for every session, each of the type of the
input. What comes out has the shape of the context and the type of the term. One kind asks for
more than its operation checks: whether an input was present throughout is decided by numbers,
which labels are not.

* `Evaluate.unmasked_of_proper`: the kinds, one by one.
* `Term.Made.evaluate_ok`: what the operations make evaluates.
-/
namespace AsOf

/-- What a term is given of one of its inputs: where the term has a window, a cursor that shows
one for every session, and otherwise a block. -/
def Input.Suits (ctx : Context) (window : UInt64) (x : Term) : Input → Prop
  | .block b => window = 0 ∧ b.shape = ctx.shape ∧ b.dtype = x.dtype ∧ b.Valid
  | .window c => window ≠ 0 ∧ ∃ w, c.Shows w ctx.dates.length ∧ ∀ i < ctx.dates.length,
      (w i).dtype = x.dtype ∧ (w i).shape = (window.toNat, ctx.sids.length) ∧ (w i).Valid

/-- The windows of a column of the type of an input suit it, if there are enough of them. -/
theorem Input.suits_traverse {ctx : Context} {window offset : UInt64} {x : Term} {h : History} {c : Cursor}
    (hv : h.Valid) (hN : h.block.nrows < 0x8000000000000000) (hd : h.dtype = x.dtype)
    (hc : h.block.ncols = ctx.sids.length) (ht : h.traverse window offset 0 = .ok c)
    (hfit : offset.toNat + window.toNat + ctx.dates.length ≤ h.block.nrows + 1) :
    Input.Suits ctx window x (.window c) := by
  obtain ⟨hw, -, -⟩ := History.traverse_eq_ok.1 ht
  have hw1 : 1 ≤ window.toNat := Nat.one_le_iff_ne_zero.2 fun h0 => hw (UInt64.toNat_inj.1 h0)
  have hsum : (offset + window).toNat = offset.toNat + window.toNat := by
    rw [UInt64.toNat_add]
    exact Nat.mod_eq_of_lt (by omega)
  refine ⟨hw, _, History.shows_traverse hN ht (n := ctx.dates.length) (by omega) (by omega), fun i hi => ⟨?_, ?_, ?_⟩⟩
  · exact (Block.dtype_sliceRows ..).trans ((History.dtype_knownBefore ..).trans hd)
  · rw [Block.shape_sliceRows, History.nrows_knownBefore, History.ncols_knownBefore, hc, hsum]
    congr 1
    omega
  · exact Block.valid_sliceRows (History.valid_knownBefore hv _) _ _

namespace Evaluate

variable {t : Term} {inputs : List Input} {ctx : Context}

/-- Blocks of the context, each of the type of a term. -/
def Blocks (ctx : Context) (ts : List Term) (bs : List Block) : Prop :=
  List.Forall₂ (fun t b => b.shape = ctx.shape ∧ b.dtype = t.dtype ∧ b.Valid) ts bs

/-- Windows for every session, each of the type of a term. -/
def Windows (ctx : Context) (height : Nat) (ts : List Term) (ws : List (Nat → Block)) : Prop :=
  List.Forall₂ (fun t w => ∀ i < ctx.dates.length,
    (w i).dtype = t.dtype ∧ (w i).shape = (height, ctx.sids.length) ∧ (w i).Valid) ts ws

/-- A term without a window is given blocks. -/
theorem exists_blocks {ts : List Term} (h : List.Forall₂ (Input.Suits ctx 0) ts inputs) :
    ∃ bs, blocks t ctx.shape inputs = .ok bs ∧ Blocks ctx ts bs := by
  suffices h : ∃ bs : List Block, inputs = bs.map .block ∧ Blocks ctx ts bs by
    obtain ⟨bs, rfl, hbs⟩ := h
    exact ⟨bs, blocks_eq_ok.2 ⟨rfl, fun b hb => (Checked.exists_left hbs hb).choose_spec.2.1⟩, hbs⟩
  induction h with
  | nil => exact ⟨[], rfl, .nil⟩
  | @cons x input ts inputs hx _ ih =>
    obtain ⟨bs, rfl, hbs⟩ := ih
    cases input with
    | window c => exact absurd rfl hx.1
    | block b => exact ⟨b :: bs, rfl, .cons hx.2 hbs⟩

/-- A term with a window is given cursors. -/
theorem exists_windows {ts : List Term} {window : UInt64} (hw : window ≠ 0)
    (h : List.Forall₂ (Input.Suits ctx window) ts inputs) :
    ∃ ws cs, cursors t inputs = .ok cs ∧ List.Forall₂ (fun w (c : Cursor) => c.Shows w ctx.dates.length) ws cs ∧
      Windows ctx window.toNat ts ws := by
  suffices h : ∃ (ws : List (Nat → Block)) (cs : List Cursor), inputs = cs.map .window ∧
      List.Forall₂ (fun w (c : Cursor) => c.Shows w ctx.dates.length) ws cs ∧ Windows ctx window.toNat ts ws by
    obtain ⟨ws, cs, rfl, hs, hws⟩ := h
    exact ⟨ws, cs, cursors_eq_ok.2 rfl, hs, hws⟩
  induction h with
  | nil => exact ⟨[], [], rfl, .nil, .nil⟩
  | @cons x input ts inputs hx _ ih =>
    obtain ⟨ws, cs, rfl, hs, hws⟩ := ih
    cases input with
    | block b => exact absurd hx.1 hw
    | window c =>
      obtain ⟨-, w, hshows, hfit⟩ := hx
      exact ⟨w :: ws, c :: cs, rfl, .cons hshows hs, .cons hfit hws⟩

/-- Types that are not among those of the terms are not among those of the blocks. -/
theorem Blocks.dtype_ne {ts : List Term} {bs : List Block} (h : Blocks ctx ts bs) {d : Dtype}
    (hd : d ∉ ts.map Term.dtype) : ∀ b ∈ bs, b.dtype ≠ d := by
  rintro b hb rfl
  obtain ⟨x, hx, -, hxb, -⟩ := Checked.exists_left h hb
  exact hd (hxb ▸ List.mem_map_of_mem hx)

theorem Windows.dtype_ne {height : Nat} {ts : List Term} {ws : List (Nat → Block)} (h : Windows ctx height ts ws)
    {d : Dtype} (hd : d ∉ ts.map Term.dtype) : ∀ w ∈ ws, ∀ i < ctx.dates.length, (w i).dtype ≠ d := by
  rintro w hw i hi rfl
  obtain ⟨x, hx, hxw⟩ := Checked.exists_left h hw
  exact hd ((hxw i hi).1 ▸ List.mem_map_of_mem hx)

/-- The cells of a term before its mask, in the shape of the context and of the type of the term. -/
def Whole (t : Term) (inputs : List Input) (ctx : Context) : Prop :=
  ∃ out, unmasked t inputs ctx = .ok out ∧ out.shape = ctx.shape ∧ out.dtype = t.dtype ∧ out.Valid

theorem dtype_ofFloats (g : Grid Float) {d : Dtype} (h : d = .bool ∨ d = .float64) : (ofFloats g d).dtype = d := by
  rcases h with rfl | rfl <;> rfl

theorem dtype_window (k : WindowKernel) : k.dtype = .bool ∨ k.dtype = .float64 := by
  unfold WindowKernel.dtype
  split <;> simp

/-! ## Kinds that read windows -/

theorem whole_latest (hp : t.Proper) (hk : t.kind = .latest)
    (hin : List.Forall₂ (Input.Suits ctx t.window) t.inputs inputs) : Whole t inputs ctx := by
  have htakes := hp.takes
  rw [hk] at htakes
  obtain ⟨hw, hinputs⟩ := htakes
  obtain ⟨x, hx, hdtype⟩ := List.map_eq_singleton_iff.1 hinputs
  have hw1 : 1 ≤ t.window.toNat := UInt64.le_iff_toNat_le.1 hw
  obtain ⟨ws, cs, hc, hs, hws⟩ := exists_windows (t := t) (by rintro h; rw [h] at hw1; cases hw1) hin
  obtain ⟨w, rfl, hfit⟩ : ∃ w, ws = [w] ∧ ∀ i < ctx.dates.length, (w i).dtype = x.dtype ∧
      (w i).shape = (t.window.toNat, ctx.sids.length) ∧ (w i).Valid := by
    rw [hx] at hws
    obtain ⟨w, rest, hfit, hnil, rfl⟩ := List.forall₂_cons_left_iff.1 hws
    exact ⟨w, congrArg _ (List.forall₂_nil_left_iff.1 hnil), hfit⟩
  obtain ⟨c, rfl, hshows⟩ : ∃ c, cs = [c] ∧ c.Shows w ctx.dates.length := by
    obtain ⟨c, rest, hshows, hnil, rfl⟩ := List.forall₂_cons_left_iff.1 hs
    exact ⟨c, congrArg _ (List.forall₂_nil_left_iff.1 hnil), hshows⟩
  have hu : unmasked t inputs ctx = latest t ctx.shape [c] := by
    rw [unmasked, hk]
    show (cursors t inputs >>= _) = _
    rw [hc]
    rfl
  rcases Nat.eq_zero_or_pos ctx.dates.length with h0 | h0
  · -- there is no session, and no window is read
    refine ⟨.full t.missing ctx.shape, hu.trans ?_, Block.shape_full _ _, (Block.dtype_full _ _).trans hp.missing,
      Block.valid_full _ _⟩
    unfold latest
    rw [show ctx.shape.1 = 0 from h0]
    rfl
  · obtain ⟨b, hb, hspec⟩ := newestRows_spec h0 hfit
    rw [if_neg (Nat.ne_of_gt hw1)] at hspec
    obtain ⟨hbs, hbd, hbv, -, -⟩ := hspec
    refine ⟨b, hu.trans ?_, hbs, hbd.trans hdtype, hbv⟩
    rw [latest_eq t h0 hshows, show ctx.shape.1 = ctx.dates.length from rfl, hb]
    rfl

theorem whole_windowed {k : WindowKernel} (hp : t.Proper) (hk : t.kind = .window k)
    (hn : Dtype.categorical ∉ t.inputs.map Term.dtype) (hin : List.Forall₂ (Input.Suits ctx t.window) t.inputs inputs) :
    Whole t inputs ctx := by
  have htakes := hp.takes
  rw [hk] at htakes
  obtain ⟨hdtype, hw, -⟩ := htakes
  obtain ⟨ws, cs, hc, hs, hws⟩ := exists_windows (t := t) (by rintro h; rw [h] at hw; exact absurd hw (by decide)) hin
  have hrows : ∃ rows, overRows t (fun row index b => numbers t index (b.selectColumns (ctx.columns row)))
      (fun row windows => .ok (Stats.scatter ctx.shape.2 ((ctx.columns row).zip (k.compute windows))))
      (List.range ctx.shape.1) cs = .ok rows := by
    rw [show ctx.shape.1 = ctx.dates.length from rfl, overRows_eq t _ _ hs]
    refine Checked.exists_mapM.2 fun i hi => ?_
    have hread : ∃ gs, (ws.zipIdx.mapM fun x => numbers t x.2 ((x.1 i).selectColumns (ctx.columns i))) =
        .ok gs := by
      refine Checked.exists_mapM.2 fun x hmem => ?_
      have hne := hws.dtype_ne hn x.1 (List.fst_mem_of_mem_zipIdx hmem) i (List.mem_range.1 hi)
      exact ⟨_, (numbers_eq ..).trans (if_neg (by rwa [Block.dtype_selectColumns]))⟩
    obtain ⟨gs, hgs⟩ := hread
    exact ⟨_, Checked.bind_eq_ok.2 ⟨gs, hgs, rfl⟩⟩
  obtain ⟨rows, hrows⟩ := hrows
  obtain ⟨hshape, hvalid, -⟩ := ofFloats_spec (gridOf ctx.shape nan rows) t.dtype
  refine ⟨ofFloats (gridOf ctx.shape nan rows) t.dtype, ?_, hshape, dtype_ofFloats _ ?_, hvalid⟩
  · rw [unmasked, hk]
    show (cursors t inputs >>= _) = _
    rw [hc]
    show (overRows t _ _ _ cs >>= _) = _
    rw [hrows]
    rfl
  · rw [hdtype]
    exact dtype_window k

/-! ## Kinds that read blocks -/

theorem whole_expression {e : Expr} (hp : t.Proper) (hk : t.kind = .expression e)
    (hin : List.Forall₂ (Input.Suits ctx t.window) t.inputs inputs) : Whole t inputs ctx := by
  have htakes := hp.takes
  rw [hk] at htakes
  obtain ⟨hdtype, hw, hn⟩ := htakes
  obtain ⟨bs, hb, hbs⟩ := exists_blocks (t := t) (hw ▸ hin)
  have hblocks : ∀ b ∈ bs, b.shape = ctx.shape := fun b hb => (Checked.exists_left hbs hb).choose_spec.2.1
  let grids := numberGrids t (bs.map Block.cells)
  obtain ⟨hshape, hvalid, -⟩ := ofFloats_spec (e.eval grids ctx.shape) t.dtype
  refine ⟨ofFloats (e.eval grids ctx.shape) t.dtype, ?_,
    hshape.trans (e.get?_eval (shape_numberGrids t hblocks)).1, dtype_ofFloats _ ?_, hvalid⟩
  · rw [unmasked_expression hk, hb]
    show (numbersAll t bs >>= _) = _
    rw [numbersAll_eq t (hbs.dtype_ne hn)]
    rfl
  · rw [hdtype]
    split <;> simp

/-- The values of a cross-section, and its groups if it has some. -/
theorem exists_crossSection {grouped : Bool} {value : Dtype} {groups : List Dtype}
    (hinputs : t.inputs.map Term.dtype = value :: groups) (hv : value ≠ .categorical)
    (hg : grouped = true → ∃ g, groups = [g] ∧ Role.classifier.accepts g = true)
    (hm : ctx.mask.shape = ctx.shape) (hin : List.Forall₂ (Input.Suits ctx 0) t.inputs inputs) :
    ∃ values groups, crossSection t ctx grouped inputs = .ok (values, groups) ∧ values.shape = ctx.shape := by
  obtain ⟨bs, hb, hbs⟩ := exists_blocks (t := t) hin
  obtain ⟨x, xs, hx, hxd, hxs⟩ := List.map_eq_cons_iff.1 hinputs
  rw [hx] at hbs
  obtain ⟨b, rest, ⟨hshape, hdtype, -⟩, hrest, rfl⟩ := List.forall₂_cons_left_iff.1 hbs
  have hfirst : numbers t 0 ((b :: rest).headD (.floats (.replicate ctx.shape nan))) =
      .ok (b.cells.map (Scalar.number (t.missingOf 0))) := by
    rw [List.headD_cons, numbers_eq, if_neg (by rw [hdtype, hxd]; exact hv)]
  have hvalues := shape_underMask hm (g := b.cells.map (Scalar.number (t.missingOf 0)))
    (by rw [Grid.shape_map, Block.shape_cells, hshape])
  rw [crossSection_eq t grouped hb hfirst]
  cases grouped with
  | false => exact ⟨_, _, rfl, hvalues⟩
  | true =>
    obtain ⟨g, hgs, haccepts⟩ := hg rfl
    obtain ⟨y, rfl, hyd⟩ := List.map_eq_singleton_iff.1 (hxs.trans hgs)
    obtain ⟨b', rest', ⟨-, hdtype', -⟩, hnil, rfl⟩ := List.forall₂_cons_left_iff.1 hrest
    obtain rfl := List.forall₂_nil_left_iff.1 hnil
    obtain ⟨gs, hgs⟩ : ∃ gs, groupsOf t [b, b'] = some gs := by
      rw [groupsOf, hx]
      show ∃ gs, groupIds? y.missing b' = some gs
      rw [← hyd, ← hdtype'] at haccepts
      cases b' with
      | ints g => exact ⟨_, rfl⟩
      | labels a => exact ⟨_, rfl⟩
      | _ => cases haccepts
    exact ⟨_, _, by rw [hgs]; rfl, hvalues⟩

/-- Rows compared with themselves, or with their groups. -/
theorem whole_across {f : List Float → List Float} {grouped : Bool} (hd : t.dtype = .float64) {value : Dtype}
    {groups : List Dtype} (hinputs : t.inputs.map Term.dtype = value :: groups) (hv : value ≠ .categorical)
    (hg : grouped = true → ∃ g, groups = [g] ∧ Role.classifier.accepts g = true)
    (hm : ctx.mask.shape = ctx.shape) (hin : List.Forall₂ (Input.Suits ctx 0) t.inputs inputs)
    (hu : unmasked t inputs ctx = crossSection t ctx grouped inputs >>= fun x => .ok (.floats (byRow f x.1 x.2))) :
    Whole t inputs ctx := by
  obtain ⟨values, groups, hc, hs⟩ := exists_crossSection hinputs hv hg hm hin
  exact ⟨.floats (byRow f values groups), hu.trans (by rw [hc]; rfl), hs, hd.symm, trivial⟩

/-- The only block of a term with one input. -/
theorem exists_single {value : Dtype} (hinputs : t.inputs.map Term.dtype = [value])
    (hin : List.Forall₂ (Input.Suits ctx 0) t.inputs inputs) :
    ∃ b missing, single t ctx.shape inputs = .ok (b, missing) ∧ b.shape = ctx.shape ∧ b.dtype = value ∧ b.Valid := by
  obtain ⟨bs, hb, hbs⟩ := exists_blocks (t := t) hin
  obtain ⟨x, hx, hxd⟩ := List.map_eq_singleton_iff.1 hinputs
  rw [hx] at hbs
  obtain ⟨b, rest, ⟨hshape, hdtype, hvalid⟩, -, rfl⟩ := List.forall₂_cons_left_iff.1 hbs
  refine ⟨b, x.missing, ?_, hshape, hdtype.trans hxd, hvalid⟩
  unfold single
  rw [hb, hx]
  rfl

theorem shape_eqLabel (a : Labels) (label : String) : (a.eqLabel label).shape = a.shape := by
  unfold Labels.eqLabel
  split <;> rfl

/-- Labels can be put to a test of labels. -/
theorem exists_testLabels {test : LabelTest} (h : test.Suits .categorical) (a : Labels) :
    ∃ g, testLabels a test = some g ∧ g.shape = a.shape := by
  cases test with
  | equal v =>
    obtain ⟨l, rfl⟩ := h
    exact ⟨_, rfl, shape_eqLabel a l⟩
  | notEqual v =>
    obtain ⟨l, rfl⟩ := h
    exact ⟨_, rfl, rfl⟩
  | isIn vs =>
    obtain ⟨ls, rfl⟩ := h
    have hls : (ls.map fun l => Scalar.label (some l)).mapM Scalar.asLabel? = some ls := by
      rw [List.mapM_map]
      exact (Checked.mapM_of_some fun _ _ => rfl).trans (congrArg some (List.map_id _))
    refine ⟨a.isIn ls, ?_, rfl⟩
    simp only [testLabels, hls]
    rfl
  | _ => exact ⟨_, rfl, rfl⟩

/-- Integers can be put to a test of integers. -/
theorem exists_testInts {test : LabelTest} (h : test.Suits .int64) (g : Grid Int64) :
    ∃ g', testInts g test = some g' ∧ g'.shape = g.shape := by
  cases test with
  | equal v =>
    obtain ⟨n, rfl⟩ := h
    exact ⟨_, rfl, rfl⟩
  | notEqual v =>
    obtain ⟨n, rfl⟩ := h
    exact ⟨_, rfl, rfl⟩
  | isIn vs =>
    obtain ⟨ns, rfl⟩ := h
    have hns : (ns.map Scalar.int).mapM Scalar.asInt? = some ns := by
      rw [List.mapM_map]
      exact (Checked.mapM_of_some fun _ _ => rfl).trans (congrArg some (List.map_id _))
    refine ⟨g.map ns.contains, ?_, rfl⟩
    simp only [testInts, hns]
    rfl
  | _ => exact h.elim

/-- A test that suits the type of the cells can be made of them. -/
theorem exists_labelTest (t : Term) {test : LabelTest} (missing : Scalar) {b : Block} (h : test.Suits b.dtype) :
    ∃ g, labelTest t test missing b = .ok (.bools g) ∧ g.shape = b.shape := by
  have hmissing := b.shape_isMissing missing
  cases b with
  | labels a =>
    obtain ⟨g, hg, hs⟩ := exists_testLabels h a
    refine ⟨g.zipWith (fun x absent => x && !absent) ((Block.labels a).isMissing missing), ?_,
      (Grid.shape_zipWith _ (hs.trans hmissing.symm)).trans hs⟩
    simp only [labelTest, hg]
  | ints g =>
    obtain ⟨g', hg, hs⟩ := exists_testInts h g
    refine ⟨g'.zipWith (fun x absent => x && !absent) ((Block.ints g).isMissing missing), ?_,
      (Grid.shape_zipWith _ (hs.trans hmissing.symm)).trans hs⟩
    simp only [labelTest, hg]
  | _ => cases test <;> exact h.elim

/-! ## All kinds -/

/-- What a proper term comes to before its mask. -/
theorem unmasked_of_proper (hp : t.Proper) (computed : t.isLoadable = false) (builtin : ∀ k, t.kind ≠ .custom k)
    (labels : t.kind = .window .allPresent → Dtype.categorical ∉ t.inputs.map Term.dtype)
    (hm : ctx.mask.shape = ctx.shape) (hin : List.Forall₂ (Input.Suits ctx t.window) t.inputs inputs) :
    Whole t inputs ctx := by
  have htakes := hp.takes
  cases hk : t.kind with
  | assetExists => rw [Term.isLoadable, hk] at computed; cases computed
  | column c => rw [Term.isLoadable, hk] at computed; cases computed
  | custom k => exact absurd hk (builtin k)
  | constant value =>
    rw [hk] at htakes
    exact ⟨.full value ctx.shape, by rw [unmasked, hk]; rfl, Block.shape_full _ _,
      (Block.dtype_full _ _).trans htakes.1.symm, Block.valid_full _ _⟩
  | staticAssets keep =>
    rw [hk] at htakes
    exact ⟨.bools _, by rw [unmasked, hk]; rfl, rfl, htakes.1.symm, trivial⟩
  | latest => exact whole_latest hp hk hin
  | window k =>
    rw [hk] at htakes
    refine whole_windowed hp hk ?_ hin
    by_cases hall : k = .allPresent
    · exact labels (hall ▸ hk)
    · exact htakes.2.2 hall
  | expression e => exact whole_expression hp hk hin
  | rank method ascending grouped =>
    rw [hk] at htakes
    obtain ⟨hdtype, hw, value, groups, hinputs, hv, hg⟩ := htakes
    exact whole_across hdtype hinputs hv hg hm (hw ▸ hin) (by rw [unmasked, hk]; rfl)
  | transform kind grouped =>
    rw [hk] at htakes
    obtain ⟨hdtype, hw, value, groups, hinputs, hv, hg⟩ := htakes
    cases kind with
    | demean => exact whole_across hdtype hinputs hv hg hm (hw ▸ hin) (by rw [unmasked, hk]; rfl)
    | zscore => exact whole_across hdtype hinputs hv hg hm (hw ▸ hin) (by rw [unmasked, hk]; rfl)
  | quantiles bins =>
    rw [hk] at htakes
    obtain ⟨hdtype, hw, value, hinputs, hv⟩ := htakes
    obtain ⟨values, groups, hc, -⟩ := exists_crossSection hinputs hv (fun h => absurd h Bool.false_ne_true) hm
      (hw ▸ hin)
    exact ⟨.ints _, by rw [unmasked, hk]; simp only [hc]; rfl, rfl, hdtype.symm, trivial⟩
  | percentileBetween low high =>
    rw [hk] at htakes
    obtain ⟨hdtype, hw, value, hinputs, hv⟩ := htakes
    obtain ⟨values, groups, hc, -⟩ := exists_crossSection hinputs hv (fun h => absurd h Bool.false_ne_true) hm
      (hw ▸ hin)
    exact ⟨.bools _, by rw [unmasked, hk]; simp only [hc]; rfl, rfl, hdtype.symm, trivial⟩
  | nullCheck negate =>
    rw [hk] at htakes
    obtain ⟨hdtype, hw, value, hinputs⟩ := htakes
    obtain ⟨b, missing, hs, hbs, -, -⟩ := exists_single hinputs (hw ▸ hin)
    exact ⟨.bools ((b.isMissing missing).map (· != negate)), by rw [unmasked, hk]; simp only [hs]; rfl,
      (Block.shape_isMissing b missing).trans hbs, hdtype.symm, trivial⟩
  | fillMissing value =>
    rw [hk] at htakes
    obtain ⟨hdtype, hw, hinputs⟩ := htakes
    obtain ⟨b, missing, hs, hbs, hbd, hbv⟩ := exists_single hinputs (hw ▸ hin)
    obtain ⟨out, hout, hd, hv, -, -⟩ := Block.whereMask_spec
      (show ((b.isMissing missing).map (!·)).shape = b.shape from Block.shape_isMissing b missing)
      (hdtype.symm.trans hbd.symm) hbv
    refine ⟨out, ?_, (Block.shape_of_whereMask hout).trans hbs, hd.trans hbd, hv⟩
    rw [unmasked, hk]
    simp only [hs]
    show (b.whereMask _ value).mapError _ = _
    rw [hout]
    rfl
  | labelTest test =>
    rw [hk] at htakes
    obtain ⟨hdtype, hw, value, hinputs, hsuits⟩ := htakes
    obtain ⟨b, missing, hs, hbs, hbd, -⟩ := exists_single hinputs (hw ▸ hin)
    obtain ⟨g, hg, hgs⟩ := exists_labelTest t missing (hbd ▸ hsuits)
    exact ⟨.bools g, by rw [unmasked, hk]; simp only [hs]; exact hg, hgs.trans hbs, hdtype.symm, trivial⟩

end Evaluate

open Evaluate in
/-- What the operations make evaluates, and comes to a block of its type. What is not made of the
program itself may fail, and so may the question whether labels were present throughout. -/
theorem Term.Made.evaluate_ok {t : Term} {inputs : List Input} {ctx : Context} (h : t.Made)
    (computed : t.isLoadable = false) (builtin : ∀ k, t.kind ≠ .custom k)
    (labels : t.kind = .window .allPresent → ∀ x ∈ t.inputs, x.dtype ≠ .categorical)
    (hm : ctx.mask.shape = ctx.shape) (hin : List.Forall₂ (Input.Suits ctx t.window) t.inputs inputs) :
    ∃ b, evaluate t inputs ctx = .ok b ∧ b.shape = ctx.shape ∧ b.dtype = t.dtype := by
  obtain ⟨out, hout, hs, hd, hv⟩ := unmasked_of_proper h.proper computed builtin (fun hk hmem => by
    obtain ⟨x, hx, hc⟩ := List.mem_map.1 hmem
    exact labels hk x hx hc) hm hin
  obtain ⟨b, hb, hbs, hbd, -⟩ := evaluate_of_unmasked hm hin.length_eq.symm hout hs (h.proper.missing.trans hd.symm) hv
  exact ⟨b, hb, hbs, hbd.trans hd⟩

/-! Whether something was present on two days, of a number and of a label. -/

/-- Whether a column was present on two days in a row. -/
def presentTwice (c : Column) : Term :=
  .mk ⟨.window .allPresent, .filter, .bool, .bool false, 2, c.domain, true⟩ [.ofColumn c] none

def price : Column := ⟨"Pricing", "close", .float64, .float nan, .generic⟩

def sector : Column := ⟨"Fundamentals", "sector", .categorical, .label none, .generic⟩

theorem allPresent_made {c : Column} (hc : c.missing.dtype = c.dtype) {f : Filter}
    (h : (Term.ofColumn c).allPresent 2 = .ok f) : f.term.Made := .allPresent (.ofColumn c hc) h

/-- One asset on one day. -/
def oneDay : Context := ⟨[⟨0⟩], [⟨1⟩], .replicate (1, 1) true⟩

/-- Two days of one value, as a window of both. -/
def twoDays (value : Scalar) : Cursor := .start (.full value (2, 1)) [] 2 0 0

theorem twoDays_suits {value : Scalar} {c : Column} (hd : value.dtype = c.dtype) :
    Input.Suits oneDay 2 (.ofColumn c) (.window (twoDays value)) := by
  have hrows : (Block.full value (2, 1)).nrows = 2 := congrArg Prod.fst (Block.shape_full ..)
  have hcols : (Block.full value (2, 1)).ncols = 1 := congrArg Prod.snd (Block.shape_full ..)
  refine Input.suits_traverse (h := ⟨.full value (2, 1), [], value⟩) (Block.valid_full _ _) (by rw [hrows]; decide)
    ((Block.dtype_full _ _).trans hd) hcols
    (show History.traverse _ 2 0 0 = .ok _ from History.traverse_eq_ok.2 ⟨by decide, ?_, rfl⟩) ?_
  · rw [hrows]
    decide
  · rw [hrows]
    decide

theorem evaluate_ok_numbers : (presentTwice price).Made ∧
    ∃ b, evaluate (presentTwice price) [.window (twoDays (.float 1.0))] oneDay = .ok b ∧ b.shape = (1, 1) ∧
      b.dtype = .bool := by
  have hmade : (presentTwice price).Made := allPresent_made (c := price) rfl (f := ⟨presentTwice price⟩) rfl
  refine ⟨hmade, hmade.evaluate_ok rfl nofun (fun _ x hx => ?_) rfl (.cons ?_ .nil)⟩
  · rw [List.mem_singleton.1 hx]
    nofun
  · exact twoDays_suits rfl

/-- The question can be put to labels, and then has no answer. -/
theorem evaluate_labels : (presentTwice sector).Made ∧
    Input.Suits oneDay 2 (.ofColumn sector) (.window (twoDays (.label (some "energy")))) ∧
    ∃ name, evaluate (presentTwice sector) [.window (twoDays (.label (some "energy")))] oneDay =
      .error (.inputForm name 0 .numbers) :=
  ⟨allPresent_made (c := sector) rfl (f := ⟨presentTwice sector⟩) rfl, twoDays_suits rfl, _, rfl⟩

end AsOf
