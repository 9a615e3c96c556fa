import AsOf.Proofs.Block
import AsOf.Proofs.Checked
import AsOf.Proofs.Pick

/-!
# Some of the columns

Selecting ascending columns is reading at places that ascend: a column that is not there
leaves no gap, since only those behind it can be missing too. What treats every cell by
itself, or every row by its cells, can be done before or after columns are selected.

* `Grid.get?_selectColumns_of_pairwise`, `Grid.row_selectColumns`: what is selected.
* `Grid.selectColumns_selectColumns`: a selection of a selection.
* `Block.whereMask_selectColumns`, `Block.isMissing_selectColumns`: blocks cell by cell.
* `Block.Restricts.concatRows`: stacking blocks that show some columns of others.
-/
namespace AsOf

namespace Grid

variable {α β γ : Type}

/-! ## Ascending columns -/

theorem getElem?_filter_lt {cols : List Nat} (h : cols.Pairwise (· < ·)) (n k : Nat) :
    (cols.filter (· < n))[k]? = cols[k]?.filter (· < n) := by
  have hread (j : Nat) : (List.range n)[j]? = Option.guard (fun j => decide (j < n)) j := by
    by_cases hj : j < n
    · rw [List.getElem?_range hj, Option.guard_pos (by simpa using hj)]
    · rw [List.getElem?_eq_none (by simpa using hj), Option.guard_eq_none_iff.2 (by simpa using hj)]
  have e : cols.filter (· < n) = cols.filterMap ((List.range n)[·]?) := by
    rw [← List.filterMap_eq_filter]
    exact List.filterMap_congr fun j _ => (hread j).symm
  rw [e, getElem?_filterMap_getElem? h, ← Option.bind_guard]
  exact congrArg (Option.bind _) (funext hread)

/-- Columns that are not there are not selected. -/
theorem selectColumns_filter (cols : List Nat) (g : Grid α) :
    g.selectColumns (cols.filter (· < g.ncols)) = g.selectColumns cols := by
  have e : inRange g.ncols (cols.filter (· < g.ncols)) = inRange g.ncols cols := by
    rw [inRange, List.filterMap_filter]
    refine List.filterMap_congr fun j _ => ?_
    by_cases hj : j < g.ncols <;> simp [hj]
  exact congrArg (fun cs : List (Fin g.ncols) =>
    ofFn g.nrows cs.toArray.size fun i k => g.get i cs.toArray[k] i.2 cs.toArray[k].2) e

theorem ncols_selectColumns (cols : List Nat) (g : Grid α) :
    (g.selectColumns cols).ncols = (cols.filter (· < g.ncols)).length := by
  rw [← selectColumns_filter]
  exact congrArg Prod.snd (shape_selectColumns fun j hj => by simpa using (List.mem_filter.1 hj).2)

theorem get?_selectColumns_of_pairwise {cols : List Nat} (h : cols.Pairwise (· < ·)) (g : Grid α) (i k : Nat) :
    (g.selectColumns cols).get? i k = cols[k]?.bind (g.get? i) := by
  rw [← selectColumns_filter, get?_selectColumns fun j hj => by simpa using (List.mem_filter.1 hj).2,
    getElem?_filter_lt h]
  cases cols[k]? with
  | none => rfl
  | some j =>
    by_cases hj : j < g.ncols
    · rw [Option.filter_some_pos (by simpa using hj)]
    · rw [Option.filter_some_neg (by simpa using hj), Option.bind_some, get?_eq_none.2 (by omega)]
      rfl

theorem lt_ncols_selectColumns {cols : List Nat} (h : cols.Pairwise (· < ·)) {g : Grid α} {k : Nat} :
    k < (g.selectColumns cols).ncols ↔ ∃ j, cols[k]? = some j ∧ j < g.ncols := by
  rw [ncols_selectColumns, ← Nat.not_le, ← List.getElem?_eq_none_iff, getElem?_filter_lt h,
    ← ne_eq, Option.ne_none_iff_exists']
  simp only [Option.filter_eq_some_iff, decide_eq_true_eq]

/-- A column of the selection is the column that is selected. -/
theorem column_selectColumns {cols : List Nat} (h : cols.Pairwise (· < ·)) (g : Grid α) (k : Nat) :
    (g.selectColumns cols).column k = (cols[k]?.map g.column).getD [] := by
  apply List.ext_getElem?
  intro i
  rw [getElem?_column, get?_selectColumns_of_pairwise h]
  cases cols[k]? with
  | none => rfl
  | some j => exact (getElem?_column g i j).symm

theorem row_selectColumns_of_pairwise {cols : List Nat} (h : cols.Pairwise (· < ·)) (g : Grid α) (i : Nat) :
    (g.selectColumns cols).row i = cols.filterMap ((g.row i)[·]?) := by
  apply List.ext_getElem?
  intro k
  rw [getElem?_row, get?_selectColumns_of_pairwise h, getElem?_filterMap_getElem? h]
  exact congrArg (Option.bind _) (funext fun j => (getElem?_row g i j).symm)

/-- The cells of one row that stand under true flags. -/
theorem row_selectColumns (flags : List Bool) (g : Grid α) (i : Nat) :
    (g.selectColumns (places flags)).row i = pick flags (g.row i) :=
  (row_selectColumns_of_pairwise (pairwise_places flags) g i).trans (pick_eq_filterMap flags _).symm

/-- A selection of a selection selects what is named by its names. -/
theorem selectColumns_selectColumns {cols ks : List Nat} (h : cols.Pairwise (· < ·)) (hk : ks.Pairwise (· < ·))
    (g : Grid α) : (g.selectColumns cols).selectColumns ks = g.selectColumns (ks.filterMap (cols[·]?)) := by
  have hc : (ks.filterMap (cols[·]?)).Pairwise (· < ·) := hk.filterMap _ fun a a' haa' j hj j' hj' => by
    obtain ⟨ha, rfl⟩ := List.getElem?_eq_some_iff.1 hj
    obtain ⟨ha', rfl⟩ := List.getElem?_eq_some_iff.1 hj'
    exact List.pairwise_iff_getElem.1 h a a' ha ha' haa'
  refine ext_get? (Prod.ext rfl ?_) fun i k => ?_
  · show ((g.selectColumns cols).selectColumns ks).ncols = (g.selectColumns _).ncols
    rw [ncols_selectColumns ks, ncols_selectColumns (ks.filterMap _) g, ← List.countP_eq_length_filter,
      ← List.countP_eq_length_filter, List.countP_filterMap]
    refine List.countP_congr fun k _ => ?_
    rw [decide_eq_true_iff, lt_ncols_selectColumns h]
    cases cols[k]? <;> simp
  · rw [get?_selectColumns_of_pairwise hk, get?_selectColumns_of_pairwise hc, getElem?_filterMap_getElem? hk,
      Option.bind_assoc]
    exact congrArg (Option.bind _) (funext fun k => get?_selectColumns_of_pairwise h g i k)

/-! ## Before and after a selection -/

variable {cols : List Nat}

theorem shape_selectColumns_congr {a : Grid α} {b : Grid β} (hs : a.shape = b.shape) (cols : List Nat) :
    (a.selectColumns cols).shape = (b.selectColumns cols).shape := by
  obtain ⟨hr, hc⟩ := Prod.mk.inj hs
  refine Prod.ext hr ?_
  show (a.selectColumns cols).ncols = (b.selectColumns cols).ncols
  rw [ncols_selectColumns, ncols_selectColumns, hc]

theorem selectColumns_replicate (h : cols.Pairwise (· < ·)) {shape : Nat × Nat}
    (hlt : ∀ j ∈ cols, j < shape.2) (x : α) :
    (replicate shape x).selectColumns cols = replicate (shape.1, cols.length) x := by
  refine ext_get? (shape_selectColumns hlt) fun i k => ?_
  rw [get?_selectColumns_of_pairwise h, get?_replicate]
  cases hk : cols[k]? with
  | none => rw [if_neg fun hik => absurd (List.getElem?_eq_none_iff.1 hk) (Nat.not_le.2 hik.2), Option.bind_none]
  | some j =>
    have hj := hlt j (List.mem_of_getElem? hk)
    have hkl := (List.getElem?_eq_some_iff.1 hk).1
    rw [Option.bind_some, get?_replicate]
    simp only [hj, hkl, and_true]

theorem selectColumns_zipWith (h : cols.Pairwise (· < ·)) (f : α → β → γ) {a : Grid α} {b : Grid β}
    (hs : a.shape = b.shape) :
    (zipWith f a b).selectColumns cols = zipWith f (a.selectColumns cols) (b.selectColumns cols) := by
  refine ext_get? ?_ fun i k => ?_
  · rw [shape_zipWith f (shape_selectColumns_congr hs cols)]
    exact shape_selectColumns_congr (shape_zipWith f hs) cols
  · rw [get?_zipWith, get?_selectColumns_of_pairwise h, get?_selectColumns_of_pairwise h,
      get?_selectColumns_of_pairwise h]
    cases cols[k]? with
    | none => rfl
    | some j => exact get?_zipWith f a b i j

theorem selectColumns_sliceRows (h : cols.Pairwise (· < ·)) (start stop : Nat) (g : Grid α) :
    (g.sliceRows start stop).selectColumns cols = (g.selectColumns cols).sliceRows start stop := by
  refine ext_get? rfl fun i k => ?_
  rw [get?_sliceRows, get?_selectColumns_of_pairwise h, get?_selectColumns_of_pairwise h]
  cases cols[k]? with
  | none => exact (ite_self none).symm
  | some j => exact get?_sliceRows start stop g i j

theorem toLists_selectColumns (h : cols.Pairwise (· < ·)) (g : Grid α) :
    (g.selectColumns cols).toLists = g.toLists.map fun row => cols.filterMap (row[·]?) := by
  rw [toLists_eq, toLists_eq, List.map_map]
  exact List.map_congr_left fun i _ => row_selectColumns_of_pairwise h g i

theorem selectColumns_stack (h : cols.Pairwise (· < ·)) {n : Nat} {parts : List (Grid α)}
    (hlt : ∀ j ∈ cols, j < n) (hn : ∀ g ∈ parts, g.ncols = n) :
    (stack n parts).selectColumns cols = stack cols.length (parts.map (selectColumns cols)) := by
  have hwidth : ∀ g ∈ parts.map (selectColumns cols), g.ncols = cols.length := by
    intro g hg
    obtain ⟨part, hpart, rfl⟩ := List.mem_map.1 hg
    exact congrArg Prod.snd (shape_selectColumns fun j hj => (hn part hpart).symm ▸ hlt j hj)
  refine ext_toLists (congrArg Prod.snd (shape_selectColumns hlt)) ?_
  rw [toLists_selectColumns h, toLists_stack hn, toLists_stack hwidth, List.map_flatMap, List.flatMap_map]
  exact congrArg (fun f => List.flatMap f parts) (funext fun g => (toLists_selectColumns h g).symm)

end Grid

/-! ## Blocks -/

namespace Labels

theorem eqLabel_selectColumns (cols : List Nat) (label : String) (a : Labels) :
    (a.selectColumns cols).eqLabel label = (a.eqLabel label).selectColumns cols := by
  unfold eqLabel
  cases h : a.codeOf? label with
  | none =>
    rw [show (a.selectColumns cols).codeOf? label = none from h]
    exact Grid.map_selectColumns (fun _ => false) cols a.codes
  | some code =>
    rw [show (a.selectColumns cols).codeOf? label = some code from h]
    exact Grid.map_selectColumns (· == code) cols a.codes

end Labels

namespace Block

variable {cols : List Nat} {b b' : Block}

theorem shape_selectColumns (hlt : ∀ j ∈ cols, j < b.ncols) :
    (b.selectColumns cols).shape = (b.nrows, cols.length) := by
  rw [← shape_cells, cells_selectColumns, Grid.shape_selectColumns fun j hj => b.ncols_cells.symm ▸ hlt j hj,
    nrows_cells]

theorem isMissing_selectColumns (h : cols.Pairwise (· < ·)) (missing : Scalar) (b : Block) :
    (b.selectColumns cols).isMissing missing = (b.isMissing missing).selectColumns cols := by
  cases b with
  | labels a =>
    have hmissing : (a.selectColumns cols).isMissing = a.isMissing.selectColumns cols :=
      Grid.map_selectColumns (· == Dictionary.missingCode) cols a.codes
    show isMissing missing (labels (a.selectColumns cols)) = _
    unfold isMissing
    cases missing.asLabel? with
    | none => exact hmissing
    | some l =>
      have hshape : a.isMissing.shape = (a.eqLabel l).shape := (a.shape_eqLabel l).symm
      show Grid.zipWith _ _ _ = _
      rw [hmissing, Labels.eqLabel_selectColumns, Grid.selectColumns_zipWith h _ hshape]
  | floats g => exact Grid.map_selectColumns (fun x => x.isNaN || missing.asFloat?.any (· == x)) cols g
  | ints g => exact Grid.map_selectColumns (fun n => missing.asInt? == some n) cols g
  | bools g => exact Grid.map_selectColumns (fun b => missing.asBool? == some b) cols g
  | times g => exact Grid.map_selectColumns (fun t => t == notATime || missing.asInt? == some t) cols g

/-- Masking and selecting columns can be done in either order. -/
theorem whereMask_selectColumns (h : cols.Pairwise (· < ·)) {mask : Grid Bool} {missing : Scalar}
    (hb : b.whereMask mask missing = .ok b') :
    (b.selectColumns cols).whereMask (mask.selectColumns cols) missing = .ok (b'.selectColumns cols) := by
  obtain ⟨hs, hd⟩ := of_whereMask hb
  have he : missing.expect b.dtype = .ok () := expect_eq_ok.2 hd
  have hs' : (mask.selectColumns cols).shape = (b.selectColumns cols).shape := by
    rw [← shape_cells, cells_selectColumns]
    exact Grid.shape_selectColumns_congr (hs.trans b.shape_cells.symm) cols
  unfold whereMask at hb ⊢
  rw [if_neg (not_not_intro hs), he] at hb
  rw [if_neg (not_not_intro hs'), dtype_selectColumns, he]
  have key {α : Type} (x : α) {g : Grid α} (hg : mask.shape = g.shape) :
      (g.selectColumns cols).zipWith (fun v keep => if keep then v else x) (mask.selectColumns cols) =
        (g.zipWith (fun v keep => if keep then v else x) mask).selectColumns cols :=
    (Grid.selectColumns_zipWith h _ hg.symm).symm
  cases b with
  | floats g =>
    cases missing with
    | float x =>
      obtain rfl := Except.ok.inj hb
      exact congrArg (Except.ok ∘ floats) (key x hs)
    | _ => cases hd
  | ints g =>
    cases missing with
    | int x =>
      obtain rfl := Except.ok.inj hb
      exact congrArg (Except.ok ∘ ints) (key x hs)
    | _ => cases hd
  | bools g =>
    cases missing with
    | bool x =>
      obtain rfl := Except.ok.inj hb
      exact congrArg (Except.ok ∘ bools) (key x hs)
    | _ => cases hd
  | times g =>
    cases missing with
    | time x =>
      obtain rfl := Except.ok.inj hb
      exact congrArg (Except.ok ∘ times) (key x hs)
    | _ => cases hd
  | labels a =>
    cases missing with
    | label l =>
      obtain rfl := Except.ok.inj hb
      exact congrArg (fun codes => Except.ok (labels ⟨codes, (a.intern l).1.categories⟩)) (key (a.intern l).2 hs)
    | _ => cases hd

/-! ## By value -/

/-- A valid block that shows some columns of another. -/
structure Restricts (cols : List Nat) (b b' : Block) : Prop where
  valid : b.Valid
  valid' : b'.Valid
  view : b'.view = (b.selectColumns cols).view

namespace Restricts

theorem dtype (h : b.Restricts cols b') : b'.dtype = b.dtype :=
  (congrArg View.dtype h.view).trans (dtype_selectColumns cols b)

theorem cells (h : b.Restricts cols b') : b'.cells = b.cells.selectColumns cols :=
  (congrArg View.cells h.view).trans (cells_selectColumns cols b)

theorem of_cells (hv : b.Valid) (hv' : b'.Valid) (hd : b'.dtype = b.dtype)
    (hc : b'.cells = b.cells.selectColumns cols) : b.Restricts cols b' := by
  refine ⟨hv, hv', ?_⟩
  rw [Block.view, Block.view, hd, hc, dtype_selectColumns, cells_selectColumns]

theorem selectColumns (hv : b.Valid) (cols : List Nat) : b.Restricts cols (b.selectColumns cols) :=
  ⟨hv, valid_selectColumns hv cols, rfl⟩

theorem sliceRows (hcols : cols.Pairwise (· < ·)) (h : b.Restricts cols b') (start stop : Nat) :
    (b.sliceRows start stop).Restricts cols (b'.sliceRows start stop) := by
  refine .of_cells (valid_sliceRows h.valid _ _) (valid_sliceRows h.valid' _ _) ?_ ?_
  · rw [dtype_sliceRows, dtype_sliceRows, h.dtype]
  · rw [cells_sliceRows, cells_sliceRows, h.cells, Grid.selectColumns_sliceRows hcols]

theorem nrows (h : b.Restricts cols b') : b'.nrows = b.nrows := by
  rw [← nrows_cells, h.cells, ← nrows_cells]
  rfl

theorem ncols (h : b.Restricts cols b') (hlt : ∀ j ∈ cols, j < b.ncols) : b'.ncols = cols.length := by
  rw [← ncols_cells, h.cells]
  exact congrArg Prod.snd (Grid.shape_selectColumns fun j hj => b.ncols_cells.symm ▸ hlt j hj)

/-- What is masked still shows the columns. -/
theorem whereMask (hcols : cols.Pairwise (· < ·)) (h : b.Restricts cols b') {mask : Grid Bool} {missing : Scalar}
    {out : Block} (ho : b.whereMask mask missing = .ok out) :
    ∃ out', b'.whereMask (mask.selectColumns cols) missing = .ok out' ∧ out.Restricts cols out' := by
  obtain ⟨hs, hd⟩ := of_whereMask ho
  obtain ⟨_, ho₁, hod, hov, -, hoc⟩ := whereMask_spec hs hd h.valid
  obtain rfl := Except.ok.inj (ho₁.symm.trans ho)
  have hs' : (mask.selectColumns cols).shape = b'.shape := by
    rw [← shape_cells, h.cells]
    exact Grid.shape_selectColumns_congr (hs.trans b.shape_cells.symm) cols
  obtain ⟨out', ho', hod', hov', -, hoc'⟩ := whereMask_spec hs' (hd.trans h.dtype.symm) h.valid'
  refine ⟨out', ho', .of_cells hov hov' ?_ ?_⟩
  · rw [hod', hod, h.dtype]
  · rw [hoc', hoc, h.cells, Grid.selectColumns_zipWith hcols _ (b.shape_cells.trans hs.symm)]

end Restricts

/-- Blocks that show some columns of others show those of the others stacked. -/
theorem Restricts.concatRows (hcols : cols.Pairwise (· < ·)) {parts parts' : List Block}
    (h : List.Forall₂ (Restricts cols) parts parts') {out : Block} (ho : Block.concatRows parts = .ok out)
    (hlt : ∀ j ∈ cols, j < out.ncols) :
    ∃ out', Block.concatRows parts' = .ok out' ∧ out.Restricts cols out' := by
  cases h with
  | nil => cases ho
  | @cons first first' rest rest' hfirst hrest =>
    obtain ⟨hsame, -⟩ := concatRows_eq_ok.1 ho
    have hparts : List.Forall₂ (Restricts cols) (first :: rest) (first' :: rest') := .cons hfirst hrest
    have hv : ∀ b ∈ first :: rest, b.Valid := fun b hb => (Checked.exists_right hparts hb).choose_spec.2.valid
    obtain ⟨stacked, hstacked, hod, hov, -, hoc⟩ := concatRows_spec hv
      (fun b hb => (hsame b (List.mem_cons_of_mem _ hb)).1) fun b hb => (hsame b (List.mem_cons_of_mem _ hb)).2
    obtain rfl : stacked = out := Except.ok.inj (hstacked.symm.trans ho)
    have hwidth : stacked.ncols = first.ncols := by
      rw [← ncols_cells, hoc]
      rfl
    have hinside {b : Block} (hb : b ∈ first :: rest) : ∀ j ∈ cols, j < b.ncols := fun j hj => by
      rw [(hsame b hb).2, ← hwidth]
      exact hlt j hj
    have hpart {b' : Block} (hb' : b' ∈ first' :: rest') :
        b'.Valid ∧ b'.dtype = first'.dtype ∧ b'.ncols = cols.length := by
      obtain ⟨b, hb, hr⟩ := Checked.exists_left hparts hb'
      exact ⟨hr.valid', by rw [hr.dtype, hfirst.dtype, (hsame b hb).1], hr.ncols (hinside hb)⟩
    have hfirst' := (hpart List.mem_cons_self).2.2
    obtain ⟨out', ho', hod', hov', -, hoc'⟩ := concatRows_spec (fun b hb => (hpart hb).1)
      (fun b hb => (hpart (List.mem_cons_of_mem _ hb)).2.1)
      fun b hb => (hpart (List.mem_cons_of_mem _ hb)).2.2.trans hfirst'.symm
    have hcells : (first' :: rest').map Block.cells =
        ((first :: rest).map Block.cells).map (Grid.selectColumns cols) := by
      rw [List.map_map]
      exact (Checked.map_eq_map hparts fun b b' hr => hr.cells.symm).symm
    refine ⟨out', ho', .of_cells hov hov' (by rw [hod', hod, hfirst.dtype]) ?_⟩
    rw [hoc', hoc, hcells, hfirst', Grid.selectColumns_stack hcols fun j hj => hinside List.mem_cons_self j hj]
    intro g hg
    obtain ⟨b, hb, rfl⟩ := List.mem_map.1 hg
    exact b.ncols_cells.trans (hsame b hb).2

end Block
end AsOf
