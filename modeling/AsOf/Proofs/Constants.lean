import AsOf.Proofs.CrossSections

/-!
# Constants

A constant has its value in every cell, and the value is also what stands for a missing cell of
it. So whatever reads a constant takes every cell of it for a missing one: operators and window
kernels read NaN, a statistic of a row finds nothing to compare, a null check finds that all is
missing, and to fill what is missing puts another value in its place. A number that is written
into a formula is not read off a term and keeps its value.

* `Block.Constantly`: a block with one value, and what windows over it show.
* `Term.evaluate_constant`: what a constant comes to.
* `Term.ReadAsMissing`: what its readers make of that.
* `Term.constants_read_as_missing`: all constants, under any masks.
-/
namespace AsOf

/-! ## One value everywhere -/

namespace Scalar

/-- The number that a value is read as where it is the missing value itself. -/
def asMissing : Scalar → Float
  | bool b => truth b
  | _ => nan

theorem asMissing_eq_nan {value : Scalar} (h : value.dtype ≠ .bool) : value.asMissing = nan := by
  cases value with
  | bool b => exact absurd rfl h
  | _ => rfl

theorem number_self (value : Scalar) : number value value = value.asMissing := by
  cases value with
  | float x =>
    show (if x.isNaN then x else if x == x then nan else x) = nan
    by_cases hx : x.isNaN = true
    · rw [if_pos hx, eq_nan hx]
    · rw [if_neg hx, if_pos (beq_self_of_isNaN (Bool.eq_false_iff.2 hx))]
  | int n => exact if_pos (beq_self_eq_true _)
  | bool b => rfl
  | time t =>
    show (if t == notATime || some t == some t then nan else Float.ofInt t.toInt) = nan
    rw [beq_self_eq_true, Bool.or_true, if_pos rfl]
  | label l => rfl

theorem isAbsent_self (value : Scalar) : isAbsent value value = true := by
  cases value with
  | float x =>
    show (x.isNaN || x == x) = true
    cases hx : x.isNaN with
    | true => rfl
    | false => exact beq_self_of_isNaN hx
  | int n => exact beq_self_eq_true _
  | bool b => exact beq_self_eq_true _
  | time t =>
    show (t == notATime || some t == some t) = true
    rw [beq_self_eq_true, Bool.or_true]
  | label l =>
    cases l with
    | none => rfl
    | some l =>
      show (false || (true && some l == some l)) = true
      rw [beq_self_eq_true]
      rfl

end Scalar

theorem Param.toFloat_ofFloat (x : Float) : (ofFloat x).toFloat = if x == 0.0 then 0.0 else x :=
  Float.ofBits_toBits _

theorem Param.isNaN_toFloat_ofFloat (x : Float) : (ofFloat x).toFloat.isNaN = x.isNaN := by
  rw [toFloat_ofFloat]
  split
  · rename_i h
    rw [Float.beq_iff_ne_nan_and_eq] at h
    rw [Float.isNaN_eq_decide_eq_nan, Float.isNaN_eq_decide_eq_nan, decide_eq_false h.1]
    decide
  · rfl

/-- All operators take NaN and a number for the same only if the number is NaN: any other number
equals itself. -/
theorem BinaryOp.apply_nan_iff {c : Float} :
    (∀ (op : BinaryOp) (x : Float), op.apply x nan = op.apply x c) ↔ c.isNaN = true := by
  refine ⟨fun h => ?_, fun h op x => by rw [eq_nan h]⟩
  have htruth : truth (c != nan) = truth (c != c) := h .ne c
  have hne : (c != nan) = (c != c) := by rw [← isTrue_truth (c != nan), htruth, isTrue_truth]
  rw [bne, bne, show (c == nan) = false from Float.beq_nan_eq_false c, Bool.not_inj_iff, eq_comm,
    Float.beq_self_eq_false_iff] at hne
  rw [hne]
  decide

theorem Grid.eq_replicate {α : Type} {g : Grid α} {x : α}
    (h : ∀ i j y, g.get? i j = some y → y = x) : g = .replicate g.shape x := by
  refine ext_get? rfl fun i j => ?_
  rw [get?_replicate]
  cases hy : g.get? i j with
  | none => exact (if_neg (get?_eq_none.1 hy)).symm
  | some y => exact (congrArg some (h i j y hy)).trans (if_pos (lt_of_get? hy)).symm

/-- A kernel gives every asset the same where all numbers are the same. -/
theorem WindowKernel.getElem?_compute_replicate (k : WindowKernel) {height width : Nat} {x : Float}
    {n : Nat} (hn : n < width) :
    (k.compute [.replicate (height, width) x])[n]? = some (k.apply (List.replicate height x) []) := by
  have hcolumn : (Grid.replicate (height, width) x).column n = List.replicate height x := by
    refine List.ext_getElem? fun i => ?_
    rw [Grid.getElem?_column, Grid.get?_replicate, List.getElem?_replicate]
    simp only [hn, and_true]
  have hcols : (Grid.replicate (height, width) x).ncols = width := rfl
  rw [compute, List.getElem?_map, hcols, List.getElem?_range hn, Option.map_some, hcolumn]
  rfl

namespace Block

/-- Every cell of a block is the value. -/
structure Constantly (value : Scalar) (b : Block) : Prop where
  dtype : b.dtype = value.dtype
  valid : b.Valid
  distinct : b.Distinct
  cells : b.cells = .replicate b.shape value

variable {value : Scalar} {b : Block}

theorem constantly_full (value : Scalar) (shape : Nat × Nat) : (full value shape).Constantly value :=
  ⟨dtype_full value shape, valid_full value shape, distinct_full value shape,
    by rw [cells_full, shape_full]⟩

theorem Constantly.isMissing (h : b.Constantly value) : b.isMissing value = .replicate b.shape true := by
  rw [isMissing_eq h.valid h.distinct, h.cells, map_replicate, Scalar.isAbsent_self]

/-- A cell that is there is the value. -/
theorem Constantly.eq_of_get? (h : b.Constantly value) {i j : Nat} {x : Scalar}
    (hx : b.get? i j = some x) : x = value := by
  rw [← get?_cells, h.cells, Grid.get?_replicate] at hx
  split at hx
  · exact (Option.some.inj hx).symm
  · cases hx

theorem Constantly.get? (h : b.Constantly value) {i j : Nat} (hi : i < b.nrows) (hj : j < b.ncols) :
    b.get? i j = some value := by
  rw [← get?_cells, h.cells, Grid.get?_replicate, if_pos ⟨hi, hj⟩]

theorem constantly_of_get? (hd : b.dtype = value.dtype) (hv : b.Valid) (hn : b.Distinct)
    (h : ∀ i j x, b.get? i j = some x → x = value) : b.Constantly value := by
  refine ⟨hd, hv, hn, ?_⟩
  rw [← shape_cells]
  refine Grid.eq_replicate fun i j x hx => ?_
  rw [get?_cells] at hx
  exact h i j x hx

theorem Constantly.sliceRows (h : b.Constantly value) (start stop : Nat) :
    (b.sliceRows start stop).Constantly value := by
  refine constantly_of_get? ((dtype_sliceRows ..).trans h.dtype) (valid_sliceRows h.valid ..)
    (distinct_sliceRows h.distinct ..) fun i j x hx => ?_
  rw [get?_sliceRows] at hx
  split at hx
  · exact h.eq_of_get? hx
  · cases hx

end Block

/-- Windows over a block of one value, which nothing restates, are of that value. -/
theorem History.shows_constantly {value : Scalar} {h : History} (hb : h.block.Constantly value)
    (ha : h.adjustments = []) (hN : h.block.nrows < 0x8000000000000000) {window offset : UInt64} {c : Cursor}
    (hc : h.traverse window offset 0 = .ok c) {n : Nat}
    (hn : offset.toNat + window.toNat + n ≤ h.block.nrows + 1) :
    ∃ w, c.Shows w n ∧ ∀ i < n, (w i).Constantly value ∧ (w i).shape = (window.toNat, h.block.ncols) := by
  have hend : (offset + window).toNat = offset.toNat + window.toNat := by
    rw [UInt64.toNat_add]
    exact Nat.mod_eq_of_lt (by omega)
  refine ⟨_, shows_traverse hN hc (hend ▸ hn) (by omega), fun i hi => ?_⟩
  rw [knownBefore_of_isEmpty (List.isEmpty_iff.2 ha)]
  refine ⟨hb.sliceRows _ _, ?_⟩
  rw [Block.shape_sliceRows, hend]
  congr 1
  omega

namespace Evaluate

/-- What is computed to be one value is so under the mask. -/
theorem evaluate_constantly {t : Term} {inputs : List Input} {ctx : Context} {whole : Block} {value : Scalar}
    (hm : ctx.mask.shape = ctx.shape) (hl : inputs.length = t.inputs.length)
    (hu : unmasked t inputs ctx = .ok whole) (hs : whole.shape = ctx.shape) (hd : t.missing.dtype = value.dtype)
    (hw : whole.Constantly value) : ∃ out, evaluate t inputs ctx = .ok out ∧
      ∀ i j, ctx.mask.get? i j = some true → out.get? i j = some value := by
  obtain ⟨out, hout, -, -, -, -, hcells⟩ := evaluate_of_unmasked hm hl hu hs (hd.trans hw.dtype.symm) hw.valid
  refine ⟨out, hout, fun i j hij => ?_⟩
  obtain ⟨hi, hj⟩ := Grid.lt_of_get? hij
  rw [Block.get?_whereMask (hm.trans hs.symm) hcells hij, if_pos rfl]
  exact hw.get? (hi.trans_eq (congrArg Prod.fst (hm.trans hs.symm)))
    (hj.trans_eq (congrArg Prod.snd (hm.trans hs.symm)))

end Evaluate

namespace Term

/-! ## The term -/

/-- A term that has the value in every cell, and the same value for a missing one. -/
structure ConstantOf (value : Scalar) (u : Term) : Prop where
  kind : u.kind = .constant value
  inputs : u.inputs = []
  dtype : u.dtype = value.dtype
  missing : u.missing = value

variable {value : Scalar} {u : Term} {ctx : Context}

/-- A constant can be made of any value. -/
theorem exists_constant (value : Scalar) : ∃ u, Term.constant value = .ok u ∧ u.ConstantOf value := by
  cases value <;> exact ⟨_, rfl, rfl, rfl, rfl, rfl⟩

/-- A mask leaves it one. -/
theorem ConstantOf.withMask (h : u.ConstantOf value) {m u' : Term} (hm : u.withMask m = .ok u') :
    u'.ConstantOf value := by
  obtain ⟨domain, rfl, -⟩ := Draft.build_eq_ok hm
  exact ⟨h.kind, h.inputs, h.dtype, h.missing⟩

theorem evaluate_constant (h : u.ConstantOf value) (hm : ctx.mask.shape = ctx.shape) :
    ∃ b, evaluate u [] ctx = .ok b ∧ b.shape = ctx.shape ∧ b.Constantly value := by
  have hfull := Block.constantly_full value ctx.shape
  have hu : Evaluate.unmasked u [] ctx = .ok (.full value ctx.shape) := by
    rw [Evaluate.unmasked, h.kind]
    rfl
  obtain ⟨b, hb, hs, hd, hv, hn, hcells⟩ := Evaluate.evaluate_of_unmasked hm (congrArg List.length h.inputs).symm hu
    (Block.shape_full value ctx.shape) (by rw [h.missing, hfull.dtype]) hfull.valid
  refine ⟨b, hb, hs, Block.constantly_of_get? (hd.trans hfull.dtype) hv (hn hfull.distinct) fun i j x hx => ?_⟩
  obtain ⟨hi, hj⟩ := Block.isSome_get?.1 (Option.isSome_iff_exists.2 ⟨x, hx⟩)
  have hi : i < ctx.shape.1 := hi.trans_eq (congrArg Prod.fst hs)
  have hj : j < ctx.shape.2 := hj.trans_eq (congrArg Prod.snd hs)
  obtain ⟨keep, hkeep⟩ := Option.isSome_iff_exists.1 (Grid.isSome_get?.2
    ⟨hi.trans_eq (congrArg Prod.fst hm).symm, hj.trans_eq (congrArg Prod.snd hm).symm⟩)
  have hvalue : (Block.full value ctx.shape).get? i j = some value :=
    hfull.get? (by rw [Block.nrows, Block.shape_full]; exact hi) (by rw [Block.ncols, Block.shape_full]; exact hj)
  rw [Block.get?_whereMask (hm.trans (Block.shape_full value ctx.shape).symm) hcells hkeep, hvalue, h.missing,
    ite_self] at hx
  exact (Option.some.inj hx).symm

/-! ## Its readers -/

variable {b : Block} {t : Term}

theorem missingOf_constant (h : u.ConstantOf value) {index : Nat} (hi : t.inputs[index]? = some u) :
    t.missingOf index = value := by
  rw [missingOf, hi]
  exact h.missing

theorem single_constant (h : u.ConstantOf value) (hi : t.inputs = [u]) (hs : b.shape = ctx.shape) :
    Evaluate.single t ctx.shape [.block b] = .ok (b, value) := by
  have hblocks : Evaluate.blocks t ctx.shape [.block b] = .ok [b] :=
    Evaluate.blocks_eq_ok.2 ⟨rfl, fun x hx => List.mem_singleton.1 hx ▸ hs⟩
  rw [Evaluate.single, hblocks, hi, ← h.missing]
  rfl

/-- A null check finds that every cell is missing. -/
theorem evaluate_nullCheck_constant (h : u.ConstantOf value) (hm : ctx.mask.shape = ctx.shape)
    (hs : b.shape = ctx.shape) (hb : b.Constantly value) (ht : t.Made) {negate : Bool}
    (hk : t.kind = .nullCheck negate) (hi : t.inputs = [u]) : ∃ out, evaluate t [.block b] ctx = .ok out ∧
      ∀ i j, ctx.mask.get? i j = some true → out.get? i j = some (.bool (!negate)) := by
  have htakes := ht.proper.takes
  rw [hk] at htakes
  have hread : Evaluate.unmasked t [.block b] ctx = .ok (.bools ((b.isMissing value).map (· != negate))) := by
    rw [Evaluate.unmasked, hk]
    show (Evaluate.single t ctx.shape [.block b] >>= _) = _
    rw [single_constant h hi hs]
    rfl
  rw [hb.isMissing, Block.map_replicate, Bool.true_bne, hs] at hread
  exact Evaluate.evaluate_constantly hm (by rw [hi]; rfl) hread rfl (ht.proper.missing.trans htakes.1)
    (Block.constantly_full (.bool (!negate)) ctx.shape)

/-- To fill missing cells fills every cell. -/
theorem evaluate_fillMissing_constant (h : u.ConstantOf value) (hm : ctx.mask.shape = ctx.shape)
    (hs : b.shape = ctx.shape) (hb : b.Constantly value) (ht : t.Made) {fill : Scalar}
    (hk : t.kind = .fillMissing fill) (hi : t.inputs = [u]) : ∃ out, evaluate t [.block b] ctx = .ok out ∧
      ∀ i j, ctx.mask.get? i j = some true → out.get? i j = some fill := by
  have htakes := ht.proper.takes
  rw [hk, hi] at htakes
  obtain ⟨hfill, -, hinput⟩ := htakes
  have hdtype : fill.dtype = b.dtype := by
    rw [hb.dtype, ← h.dtype, ← hfill]
    exact (List.cons.inj hinput).1.symm
  have hmask : ((b.isMissing value).map (!·)).shape = b.shape := by rw [Grid.shape_map, Block.shape_isMissing]
  obtain ⟨whole, hwhole, hd, hv, hn, hcells⟩ := Block.whereMask_spec hmask hdtype hb.valid
  have hread : Evaluate.unmasked t [.block b] ctx = .ok whole := by
    rw [Evaluate.unmasked, hk]
    show (Evaluate.single t ctx.shape [.block b] >>= _) = _
    rw [single_constant h hi hs]
    show (b.whereMask ((b.isMissing value).map (!·)) fill).mapError _ = _
    rw [hwhole]
    rfl
  have hfilled : whole.Constantly fill := by
    refine Block.constantly_of_get? (hd.trans hdtype.symm) hv (hn hb.distinct) fun i j y hy => ?_
    rw [← Block.get?_cells, hcells, hb.isMissing, Block.map_replicate, Grid.get?_zipWith] at hy
    obtain ⟨x, -, hx⟩ := Option.bind_eq_some_iff.1 hy
    obtain ⟨keep, hkeep, rfl⟩ := Option.map_eq_some_iff.1 hx
    rw [Grid.get?_replicate] at hkeep
    split at hkeep
    · obtain rfl := Option.some.inj hkeep
      rfl
    · cases hkeep
  exact Evaluate.evaluate_constantly hm (by rw [hi]; rfl) hread ((Block.shape_of_whereMask hwhole).trans hs)
    (ht.proper.missing.trans hfill) hfilled

/-- A statistic of a row finds nothing to compare. -/
theorem evaluate_comparison_constant (h : u.ConstantOf value) (hm : ctx.mask.shape = ctx.shape)
    (hb : b.Constantly value) (hbool : value.dtype ≠ .bool) (ht : t.Made) {f : List Float → List Float}
    {grouped : Bool} (hk : t.kind.comparison? = some (f, grouped)) (hi : t.inputs[0]? = some u) (s : CrossSection ctx grouped)
    (hs : s.values = b) : evaluate t s.inputs ctx = .ok (.floats (.replicate ctx.shape nan)) := by
  have hf := Evaluate.compares_of_comparison? hk
  obtain ⟨hmissing, hlength⟩ := ht.of_comparison hk
  obtain ⟨out, hout, hshape, hrow⟩ := Evaluate.evaluate_comparison hk hmissing s (by rw [hlength, s.length_blocks]) hm
  have hnone (i j : Nat) : s.number t i j = nan := by
    rw [CrossSection.number, hs, missingOf_constant h hi]
    cases hx : b.get? i j with
    | none => rfl
    | some x =>
      rw [hb.eq_of_get? hx, Option.map_some, Option.getD_some, Scalar.number_self, Scalar.asMissing_eq_nan hbool]
  have hnan : out = .replicate out.shape nan := by
    refine Grid.eq_replicate fun i j y hy => ?_
    obtain ⟨hi, hj⟩ := Grid.lt_of_get? hy
    have hi : i < ctx.shape.1 := hi.trans_eq (congrArg Prod.fst hshape)
    have hj : j < ctx.shape.2 := hj.trans_eq (congrArg Prod.snd hshape)
    rw [← Grid.getElem?_row, hrow i hi, (CrossSection.grouped_columns hf s t i).2 j hj fun g hg => ?_] at hy
    · exact (Option.some.inj hy).symm
    · have hpass := (List.mem_filter.1 hg).2
      rw [hnone, isNaN_nan, Bool.not_true, Bool.and_false, Bool.false_and] at hpass
      cases hpass
  rw [hout, hnan, hshape]

/-- Windows of a constant are columns of the number of a missing value. -/
theorem numbersAll_shown_constant (h : u.ConstantOf value) (hn : value.dtype ≠ .categorical) (hi : t.inputs = [u])
    {w : Nat → Block} {i height width : Nat} (hconst : (w i).Constantly value) (hshape : (w i).shape = (height, width))
    {flags : List Bool} (hf : flags.length = width) : Evaluate.numbersAll t (Evaluate.shown [w] i flags) =
      .ok [.replicate (height, (places flags).length) value.asMissing] := by
  have hcells : ((w i).selectColumns (places flags)).cells = .replicate (height, (places flags).length) value := by
    rw [Block.cells_selectColumns, hconst.cells, hshape,
      Grid.selectColumns_replicate (pairwise_places _) fun j hj => hf ▸ lt_of_mem_places hj]
  rw [Evaluate.shown, Evaluate.numbersAll_eq t fun b hb => ?_]
  · show Except.ok [((w i).selectColumns (places flags)).cells.map (Scalar.number (t.missingOf 0))] = _
    rw [hcells, missingOf_constant h (by rw [hi]; rfl), Block.map_replicate, Scalar.number_self]
  · rw [List.mem_singleton.1 hb, Block.dtype_selectColumns, hconst.dtype]
    exact hn

/-- What a window kernel makes of a row over windows of a constant. -/
def constantRow (k : WindowKernel) (value : Scalar) (height : Nat) (ctx : Context) (i : Nat) : List Float :=
  Stats.scatter ctx.shape.2 ((places (ctx.mask.row i)).zip
    (k.compute [.replicate (height, (places (ctx.mask.row i)).length) value.asMissing]))

theorem length_constantRow (k : WindowKernel) (value : Scalar) (height : Nat) (ctx : Context) (i : Nat) :
    (constantRow k value height ctx i).length = ctx.shape.2 := Stats.length_scatter _ _

theorem getElem?_constantRow (k : WindowKernel) (value : Scalar) (height : Nat) {i j : Nat}
    (hm : ctx.mask.shape = ctx.shape) (hij : ctx.mask.get? i j = some true) :
    (constantRow k value height ctx i)[j]? = some (k.apply (List.replicate height value.asMissing) []) := by
  have hj : j < ctx.shape.2 := (Grid.lt_of_get? hij).2.trans_eq (congrArg Prod.snd hm)
  have hplace : j ∈ places (ctx.mask.row i) := mem_places.2 ((Grid.getElem?_row ..).trans hij)
  obtain ⟨n, hn⟩ := List.getElem?_of_mem hplace
  have hkeys : (((places (ctx.mask.row i)).zip (k.compute
      [.replicate (height, (places (ctx.mask.row i)).length) value.asMissing])).map (·.1)).Nodup :=
    (nodup_places _).sublist (map_fst_zip_sublist _ _)
  rw [constantRow, Stats.getElem?_scatter hkeys hj, lookup_zip (nodup_places _) hn,
    k.getElem?_compute_replicate (List.getElem?_eq_some_iff.1 hn).1]
  rfl

/-- A window kernel is computed of columns of the number of a missing value. -/
theorem evaluate_window_constant (h : u.ConstantOf value) (hm : ctx.mask.shape = ctx.shape)
    (hn : value.dtype ≠ .categorical) (ht : t.Made) {k : WindowKernel} (hk : t.kind = .window k) (hi : t.inputs = [u])
    {c : Cursor} {w : Nat → Block} {height : Nat} (hc : c.Shows w ctx.shape.1)
    (hw : ∀ i < ctx.shape.1, (w i).Constantly value ∧ (w i).shape = (height, ctx.shape.2)) :
    ∃ out, evaluate t [.window c] ctx = .ok out ∧ ∀ i j, ctx.mask.get? i j = some true →
      out.get? i j = some (floatCell t.dtype (k.apply (List.replicate height value.asMissing) [])) := by
  obtain ⟨hdtype, -, -⟩ := (hk ▸ ht.proper.takes : (Kind.window k).Takes _ _ _)
  have hflags (i : Nat) (hi : i < ctx.shape.1) : (ctx.mask.row i).length = ctx.shape.2 := by
    rw [Grid.length_row (hi.trans_eq (congrArg Prod.fst hm).symm)]
    exact congrArg Prod.snd hm
  let grid := Evaluate.gridOf ctx.shape nan ((List.range ctx.shape.1).map (constantRow k value height ctx))
  have hread : Evaluate.unmasked t [.window c] ctx = .ok (Evaluate.ofFloats grid t.dtype) := by
    have hcursors : Evaluate.cursors t [.window c] = .ok [c] := Evaluate.cursors_eq_ok.2 rfl
    rw [Evaluate.unmasked, hk]
    show (Evaluate.cursors t [.window c] >>= _) = _
    rw [hcursors]
    show Evaluate.windowed t k ctx [c] = _
    rw [Evaluate.windowed_eq t k (.cons hc .nil), Checked.mapM_of_ok (g := constantRow k value height ctx)]
    · rfl
    · intro i hrow
      have hlt := List.mem_range.1 hrow
      rw [numbersAll_shown_constant h hn hi (hw i hlt).1 (hw i hlt).2 (hflags i hlt)]
      rfl
  obtain ⟨hos, hov, -⟩ := Evaluate.ofFloats_spec grid t.dtype
  obtain ⟨out, hout, -, -, -, -, hcells⟩ := Evaluate.evaluate_of_unmasked hm (by rw [hi]; rfl) hread hos
    (ht.proper.missing.trans (Evaluate.dtype_ofFloats _ (hdtype ▸ Evaluate.dtype_window k)).symm) hov
  refine ⟨out, hout, fun i j hij => ?_⟩
  have hlt : i < ctx.shape.1 := (Grid.lt_of_get? hij).1.trans_eq (congrArg Prod.fst hm)
  rw [Block.get?_whereMask (hm.trans hos.symm) hcells hij, if_pos rfl, get?_ofFloats, ← Grid.getElem?_row,
    Evaluate.row_gridOf hlt (length_constantRow ..), getElem?_constantRow k value height hm hij, Option.map_some]

/-- An operator is applied to the number of a missing value, and to the number that is written. -/
theorem evaluate_binary_constant (h : u.ConstantOf value) (hn : value.dtype ≠ .categorical) {val : Term → Block}
    (hv : Valued ctx val) (hu : (val u).Constantly value) {op : BinaryOp} {x : Operand} (hx : x.Plain val)
    (hstands : ∀ v, x = .term v → Stands ctx val v) :
    (∀ t, Term.binary op x (.term u) = .ok t → ∃ out, evaluate t (t.given val) ctx = .ok out ∧
      ∀ i j, ctx.mask.get? i j = some true → out.get? i j =
        some (floatCell (if op.isBoolean then .bool else .float64) (op.apply (x.numberIn val i j) value.asMissing))) ∧
    ∀ c t, Term.binary op x (.const c) = .ok t → ∃ out, evaluate t (t.given val) ctx = .ok out ∧
      ∀ i j, ctx.mask.get? i j = some true → out.get? i j =
        some (floatCell (if op.isBoolean then .bool else .float64)
          (op.apply (x.numberIn val i j) (Param.ofFloat c).toFloat)) := by
  have hplain : (Operand.term u).Plain val := fun v hvu => by
    cases hvu
    exact hu.dtype ▸ hn
  have hleaf : ∀ v, Operand.term u = .term v → Stands ctx val v := fun v hvu => by
    cases hvu
    have hkind (e : Expr) : u.kind ≠ .expression e := by
      rw [h.kind]
      nofun
    exact ⟨.leaf u hkind, fun e hk => absurd hk (hkind e)⟩
  -- what an operator makes of any operand that is plain and stands for itself
  have hvalues {y : Operand} (hy : y.Plain val) (hys : ∀ v, y = .term v → Stands ctx val v) {t : Term}
      (ht : Term.binary op x y = .ok t) : ∃ out, evaluate t (t.given val) ctx = .ok out ∧
        ∀ i j, ctx.mask.get? i j = some true → out.get? i j = some (floatCell
          (if op.isBoolean then .bool else .float64) (op.apply (x.numberIn val i j) (y.numberIn val i j))) := by
    rcases binary_eq_ok ht with ⟨-, _, rfl, ht⟩ | ⟨_, rfl, ht⟩
    · exact (folds_join hv (folds_unfolded hv hx hstands) (folds_unfolded hv hy hys)).term hv ht
    · exact (folds_join hv (folds_asInput hx) (folds_asInput hy)).term hv ht
  refine ⟨fun t ht => ?_, fun c t ht => ?_⟩
  rotate_left
  · obtain ⟨out, hout, hcell⟩ := hvalues (y := .const c) (fun v hvu => by cases hvu) (fun v hvu => by cases hvu) ht
    exact ⟨out, hout, hcell⟩
  obtain ⟨out, hout, hcell⟩ := hvalues hplain hleaf ht
  refine ⟨out, hout, fun i j hij => ?_⟩
  obtain ⟨hi, hj⟩ := Grid.lt_of_get? hij
  have hnumber : (Operand.term u).numberIn val i j = value.asMissing := by
    show (((val u).get? i j).map (Scalar.number u.missing)).getD nan = _
    rw [hu.get? (hi.trans_eq (congrArg Prod.fst (hv.mask.trans (hv.shape u).symm)))
      (hj.trans_eq (congrArg Prod.snd (hv.mask.trans (hv.shape u).symm))), h.missing, Option.map_some,
      Option.getD_some, Scalar.number_self]
  rw [hcell i j hij, hnumber]

/-- What is made of the block that a constant comes to. -/
structure ReadAsMissing (ctx : Context) (value : Scalar) (u : Term) (b : Block) : Prop where
  /-- An operator is applied to the number of a missing value; a number that is written stays. -/
  operator : value.dtype ≠ .categorical → ∀ val : Term → Block, Valued ctx val → val u = b →
    ∀ (op : BinaryOp) (x : Operand), x.Plain val → (∀ v, x = .term v → Stands ctx val v) →
    (∀ t, Term.binary op x (.term u) = .ok t → ∃ out, evaluate t (t.given val) ctx = .ok out ∧
      ∀ i j, ctx.mask.get? i j = some true → out.get? i j =
        some (floatCell (if op.isBoolean then .bool else .float64) (op.apply (x.numberIn val i j) value.asMissing))) ∧
    ∀ c t, Term.binary op x (.const c) = .ok t → ∃ out, evaluate t (t.given val) ctx = .ok out ∧
      ∀ i j, ctx.mask.get? i j = some true → out.get? i j = some (floatCell
        (if op.isBoolean then .bool else .float64) (op.apply (x.numberIn val i j) (Param.ofFloat c).toFloat))
  /-- Ranks and the like have nothing to compare, also within groups. -/
  comparison : value.dtype ≠ .bool → ∀ t : Term, t.Made → ∀ f grouped, t.kind.comparison? = some (f, grouped) →
    t.inputs[0]? = some u → ∀ s : CrossSection ctx grouped, s.values = b →
    evaluate t s.inputs ctx = .ok (.floats (.replicate ctx.shape nan))
  /-- A window over what it comes to, with rows before, is one of missing values. -/
  window : value.dtype ≠ .categorical → ∀ t : Term, t.Made → ∀ k, t.kind = .window k → t.inputs = [u] →
    ∀ past : Context, past.mask.shape = past.shape → past.sids = ctx.sids → past.dates.length < 0x8000000000000000 →
    ∀ h : History, evaluate u [] past = .ok h.block → h.adjustments = [] →
    ∀ (offset : UInt64) (c : Cursor), h.traverse t.window offset 0 = .ok c →
    offset.toNat + t.window.toNat + ctx.dates.length ≤ past.dates.length + 1 →
    ∃ out, evaluate t [.window c] ctx = .ok out ∧ ∀ i j, ctx.mask.get? i j = some true →
      out.get? i j = some (floatCell t.dtype (k.apply (List.replicate t.window.toNat value.asMissing) []))
  nullCheck : ∀ t : Term, t.Made → ∀ negate, t.kind = .nullCheck negate → t.inputs = [u] →
    ∃ out, evaluate t [.block b] ctx = .ok out ∧
      ∀ i j, ctx.mask.get? i j = some true → out.get? i j = some (.bool (!negate))
  fillMissing : ∀ t : Term, t.Made → ∀ fill, t.kind = .fillMissing fill → t.inputs = [u] →
    ∃ out, evaluate t [.block b] ctx = .ok out ∧ ∀ i j, ctx.mask.get? i j = some true → out.get? i j = some fill

/-- A constant, under any masks, comes to its value in every cell, and each of its readers takes
every cell for a missing one. Operators do with it what they do with the number only if it is NaN. -/
theorem constants_read_as_missing (value : Scalar) : (∃ u, Term.constant value = .ok u ∧ u.ConstantOf value) ∧
    (∀ c, value = .float c → ((∀ (op : BinaryOp) (x : Float),
      op.apply x value.asMissing = op.apply x (Param.ofFloat c).toFloat) ↔ c.isNaN = true)) ∧
    ∀ u : Term, u.ConstantOf value → ∀ ctx : Context, ctx.mask.shape = ctx.shape →
      ∃ b, evaluate u [] ctx = .ok b ∧ b.shape = ctx.shape ∧ b.Constantly value ∧ ReadAsMissing ctx value u b := by
  refine ⟨exists_constant value, fun c hc => ?_, fun u hu ctx hm => ?_⟩
  · rw [hc, Scalar.asMissing_eq_nan (show (Scalar.float c).dtype ≠ .bool from nofun), BinaryOp.apply_nan_iff,
      Param.isNaN_toFloat_ofFloat]
  obtain ⟨b, heval, hs, hb⟩ := evaluate_constant hu hm
  refine ⟨b, heval, hs, hb, ?_, ?_, ?_, ?_, ?_⟩
  · exact fun hn val hv hval op x hx hstands => evaluate_binary_constant hu hn hv (hval ▸ hb) hx hstands
  · exact fun hbool t ht f grouped hk hi s hvalues => evaluate_comparison_constant hu hm hb hbool ht hk hi s hvalues
  · intro hn t ht k hk hi past hpast hsids hsmall h hpasts ha offset c hc hrows
    obtain ⟨b', hb', hs', hconst⟩ := evaluate_constant hu hpast
    obtain rfl : b' = h.block := Except.ok.inj (hb'.symm.trans hpasts)
    have hnrows : h.block.nrows = past.dates.length := congrArg Prod.fst hs'
    have hncols : h.block.ncols = ctx.shape.2 := (congrArg Prod.snd hs').trans (congrArg List.length hsids)
    obtain ⟨w, hw, hconst⟩ := History.shows_constantly hconst ha (hnrows ▸ hsmall) hc (n := ctx.dates.length)
      (hnrows ▸ hrows)
    exact evaluate_window_constant hu hm hn ht hk hi hw (hncols ▸ hconst)
  · exact fun t ht negate hk hi => evaluate_nullCheck_constant hu hm hs hb ht hk hi
  · exact fun t ht fill hk hi => evaluate_fillMissing_constant hu hm hs hb ht hk hi

/-! A price and two, added as a constant and as a number. -/

def two : Term := .mk ⟨.constant (.float 2.0), .factor, .float64, .float 2.0, 0, .generic, true⟩ [] none

def oneAndTwo (t : Term) : Block := if t.same two then .full (.float 2.0) (1, 1) else .full (.float 1.0) (1, 1)

theorem oneAndTwo_valued : Valued oneDay oneAndTwo where
  mask := rfl
  shape t := by
    unfold oneAndTwo
    split <;> exact Block.shape_full _ _
  same t u h := by
    have hsame : t.same two = u.same two := by
      rw [Bool.eq_iff_iff]
      exact ⟨fun ht => same_trans _ _ _ ((same_comm u t).trans h) ht, fun hu => same_trans _ _ _ h hu⟩
    rw [oneAndTwo, oneAndTwo, hsame]

/-- Whether two is missing. -/
def twoIsNull : Term := .mk ⟨.nullCheck false, .filter, .bool, .bool false, 0, .generic, true⟩ [two] none

/-- The mean of two over a day. -/
def twoMean : Term := .mk ⟨.window .simpleMovingAverage, .factor, .float64, .float nan, 1, .generic, false⟩ [two] none

theorem constants_read_as_missing_two : Term.constant (.float 2.0) = .ok two ∧ two.ConstantOf (.float 2.0) ∧
    (∃ b, evaluate two [] oneDay = .ok b ∧ b.get? 0 0 = some (.float 2.0) ∧
      ∃ out, evaluate twoIsNull [.block b] oneDay = .ok out ∧ out.get? 0 0 = some (.bool true)) ∧
    (∃ t, Term.binary .add (.term (.ofColumn price)) (.term two) = .ok t ∧
      ∃ out, evaluate t (t.given oneAndTwo) oneDay = .ok out ∧ out.get? 0 0 = some (.float nan)) ∧
    (∃ t, Term.binary .add (.term (.ofColumn price)) (.const 2.0) = .ok t ∧
      ∃ out, evaluate t (t.given oneAndTwo) oneDay = .ok out ∧ out.get? 0 0 = some (.float 3.0)) ∧
    ∃ c, (⟨oneAndTwo two, [], .float 2.0⟩ : History).traverse 1 0 0 = .ok c ∧
      ∃ out, evaluate twoMean [.window c] oneDay = .ok out ∧ out.get? 0 0 = some (.float nan) := by
  have htwo : two.ConstantOf (.float 2.0) := ⟨rfl, rfl, rfl, rfl⟩
  have hmade : two.Made := .constant (show Term.constant (.float 2.0) = .ok two from rfl)
  obtain ⟨b, heval, hs, hb, hread⟩ := (constants_read_as_missing (.float 2.0)).2.2 two htwo oneDay rfl
  have htwice : evaluate two [] oneDay = .ok (oneAndTwo two) := rfl
  obtain rfl : oneAndTwo two = b := Except.ok.inj (htwice.symm.trans heval)
  obtain ⟨hterm, hliteral⟩ := hread.operator nofun oneAndTwo oneAndTwo_valued rfl .add (.term (.ofColumn price))
    (fun u hu => by cases hu; nofun) fun u hu => by cases hu; exact ⟨.leaf _ nofun, nofun⟩
  refine ⟨rfl, htwo, ⟨_, heval, rfl, ?_⟩, ⟨_, rfl, ?_⟩, ⟨_, rfl, ?_⟩, _, rfl, ?_⟩
  · have hnull : twoIsNull.Made := .nullCheck (x := two) (f := ⟨twoIsNull⟩) hmade nofun rfl
    obtain ⟨out, hout, hcell⟩ := hread.nullCheck twoIsNull hnull false rfl rfl
    exact ⟨out, hout, hcell 0 0 rfl⟩
  · obtain ⟨out, hout, hcell⟩ := hterm _ rfl
    exact ⟨out, hout, (hcell 0 0 rfl).trans rfl⟩
  · obtain ⟨out, hout, hcell⟩ := hliteral 2.0 _ rfl
    exact ⟨out, hout, (hcell 0 0 rfl).trans rfl⟩
  · have hmean : twoMean.Made := @Made.ofFactors .simpleMovingAverage [⟨two⟩] 1 ⟨twoMean⟩
      (fun x hx => by obtain rfl := List.mem_singleton.1 hx; exact hmade)
      (fun x hx => by obtain rfl := List.mem_singleton.1 hx; rfl) rfl rfl rfl
    obtain ⟨out, hout, hcell⟩ := hread.window nofun twoMean hmean .simpleMovingAverage rfl rfl oneDay rfl rfl
      (by decide) ⟨oneAndTwo two, [], .float 2.0⟩ heval rfl 0 _ rfl (by decide)
    exact ⟨out, hout, (hcell 0 0 rfl).trans rfl⟩

end Term
end AsOf
