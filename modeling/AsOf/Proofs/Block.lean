import AsOf.Array.Block
import AsOf.Proofs.Label

/-!
# What the cells of a block are

`Block.cells` reads every cell as a scalar, labels decoded. Two blocks with one
`View`, the type together with the cells, cannot be told apart by their values,
however their dictionaries differ.

Every operation on blocks is described by what it does to `cells`: selections move
them, `whereMask` rewrites them one by one, `concatRows` stacks them.

* `whereMask_spec`, `concatRows_spec`: masking and stacking succeed, and on what.
* `asFloat?_eq`, `isMissing_eq`: numbers and missing cells, cell by cell.
-/
namespace AsOf

/-! ## Single values -/

namespace Scalar

/-- The value as a float; a missing one, and a label, is NaN. -/
def number (missing : Scalar) : Scalar → Float
  | float x =>
    match missing.asFloat? with
    | some m => if m.isNaN then x else if x == m then nan else x
    | none => x
  | int n => if missing.asInt? == some n then nan else Float.ofInt n.toInt
  | time t => if t == notATime || missing.asInt? == some t then nan else Float.ofInt t.toInt
  | bool b => if b then 1.0 else 0.0
  | label _ => nan

/-- Whether the value is the missing one or missing by its type. -/
def isAbsent (missing : Scalar) : Scalar → Bool
  | float x => x.isNaN || missing.asFloat?.any (· == x)
  | int n => missing.asInt? == some n
  | time t => t == notATime || missing.asInt? == some t
  | bool b => missing.asBool? == some b
  | label l => l.isNone || (missing.asLabel?.isSome && l == missing.asLabel?)

/-- The value written over another one; a value of another type is ignored. -/
def overwrite (value old : Scalar) : Scalar := if value.dtype = old.dtype then value else old

end Scalar

/-- The type of a block and its cells. -/
structure View where
  dtype : Dtype
  cells : Grid Scalar

namespace Block

/-- The value of every cell. -/
def cells : Block → Grid Scalar
  | floats g => g.map .float
  | ints g => g.map .int
  | bools g => g.map .bool
  | times g => g.map .time
  | labels a => a.toLabels.map .label

/-- What the values of a block show. -/
def view (b : Block) : View := ⟨b.dtype, b.cells⟩

/-- The codes of labels name entries. -/
def Valid : Block → Prop
  | labels a => a.Valid
  | _ => True

/-- No text stands twice in a dictionary. -/
def Distinct : Block → Prop
  | labels a => a.categories.Nodup
  | _ => True

theorem exists_floats {b : Block} (h : b.dtype = .float64) : ∃ g, b = floats g := by
  cases b <;> cases h
  exact ⟨_, rfl⟩

theorem exists_ints {b : Block} (h : b.dtype = .int64) : ∃ g, b = ints g := by
  cases b <;> cases h
  exact ⟨_, rfl⟩

theorem exists_bools {b : Block} (h : b.dtype = .bool) : ∃ g, b = bools g := by
  cases b <;> cases h
  exact ⟨_, rfl⟩

theorem exists_times {b : Block} (h : b.dtype = .datetime) : ∃ g, b = times g := by
  cases b <;> cases h
  exact ⟨_, rfl⟩

theorem exists_labels {b : Block} (h : b.dtype = .categorical) : ∃ a, b = labels a := by
  cases b <;> cases h
  exact ⟨_, rfl⟩

theorem get?_cells (b : Block) (i j : Nat) : b.cells.get? i j = b.get? i j := by
  cases b with
  | labels a => simp only [cells, get?, Labels.toLabels, Grid.get?_map, Option.map_map]; rfl
  | _ => exact Grid.get?_map ..

theorem shape_cells (b : Block) : b.cells.shape = b.shape := by
  cases b <;> rfl

theorem nrows_cells (b : Block) : b.cells.nrows = b.nrows := congrArg Prod.fst b.shape_cells

theorem ncols_cells (b : Block) : b.cells.ncols = b.ncols := congrArg Prod.snd b.shape_cells

theorem dtype_of_mem_cells {b : Block} {i j : Nat} {x : Scalar} (h : b.cells.get? i j = some x) :
    x.dtype = b.dtype := by
  cases b <;>
  · rw [cells, Grid.get?_map, Option.map_eq_some_iff] at h
    obtain ⟨y, -, rfl⟩ := h
    rfl

theorem isSome_get? {b : Block} {i j : Nat} :
    (b.get? i j).isSome = true ↔ i < b.nrows ∧ j < b.ncols := by
  rw [← get?_cells, Grid.isSome_get?, nrows_cells, ncols_cells]

/-- Blocks of one type and shape that hold the same show the same. -/
theorem ext_view {a b : Block} (hd : a.dtype = b.dtype) (hs : a.shape = b.shape)
    (h : ∀ i j, a.get? i j = b.get? i j) : a.view = b.view := by
  have hcells : a.cells = b.cells := by
    refine Grid.ext_get? ?_ fun i j => ?_
    · rw [shape_cells, shape_cells, hs]
    · rw [get?_cells, get?_cells, h]
  rw [view, view, hd, hcells]

/-! ## Selections -/

theorem dtype_onGrid (f : {α : Type} → Grid α → Grid α) (b : Block) : (b.onGrid f).dtype = b.dtype := by
  cases b <;> rfl

theorem cells_onGrid {f : {α : Type} → Grid α → Grid α}
    (hf : ∀ {α β : Type} (h : α → β) (g : Grid α), (f g).map h = f (g.map h)) (b : Block) :
    (b.onGrid f).cells = f b.cells := by
  cases b with
  | labels a => simp only [onGrid, cells, Labels.toLabels, hf]
  | _ => exact hf _ _

/-- A selection keeps valid codes valid. -/
theorem valid_onGrid {f : {α : Type} → Grid α → Grid α}
    (hf : ∀ {α : Type} (g : Grid α) i j x, (f g).get? i j = some x → ∃ i' j', g.get? i' j' = some x)
    {b : Block} (h : b.Valid) : (b.onGrid f).Valid := by
  cases b with
  | labels a =>
    intro i j code hc
    obtain ⟨i', j', hc'⟩ := hf a.codes i j code hc
    exact h i' j' code hc'
  | _ => trivial

theorem distinct_onGrid {f : {α : Type} → Grid α → Grid α} {b : Block} (h : b.Distinct) :
    (b.onGrid f).Distinct := by
  cases b with
  | labels a => exact h
  | _ => trivial

theorem cells_sliceRows (start stop : Nat) (b : Block) :
    (b.sliceRows start stop).cells = b.cells.sliceRows start stop :=
  cells_onGrid (fun h g => Grid.map_sliceRows h start stop g) b

theorem cells_selectColumns (cols : List Nat) (b : Block) :
    (b.selectColumns cols).cells = b.cells.selectColumns cols :=
  cells_onGrid (fun h g => Grid.map_selectColumns h cols g) b

theorem cells_selectRows (rows : List Nat) (b : Block) :
    (b.selectRows rows).cells = b.cells.selectRows rows :=
  cells_onGrid (fun h g => Grid.map_selectRows h rows g) b

@[simp] theorem dtype_sliceRows (start stop : Nat) (b : Block) :
    (b.sliceRows start stop).dtype = b.dtype := dtype_onGrid (Grid.sliceRows start stop) b

@[simp] theorem dtype_selectColumns (cols : List Nat) (b : Block) :
    (b.selectColumns cols).dtype = b.dtype := dtype_onGrid (Grid.selectColumns cols) b

@[simp] theorem dtype_selectRows (rows : List Nat) (b : Block) :
    (b.selectRows rows).dtype = b.dtype := dtype_onGrid (Grid.selectRows rows) b

theorem distinct_sliceRows {b : Block} (h : b.Distinct) (start stop : Nat) :
    (b.sliceRows start stop).Distinct := distinct_onGrid (f := Grid.sliceRows start stop) h

theorem distinct_selectColumns {b : Block} (h : b.Distinct) (cols : List Nat) :
    (b.selectColumns cols).Distinct := distinct_onGrid (f := Grid.selectColumns cols) h

theorem distinct_selectRows {b : Block} (h : b.Distinct) (rows : List Nat) :
    (b.selectRows rows).Distinct := distinct_onGrid (f := Grid.selectRows rows) h

theorem shape_sliceRows (start stop : Nat) (b : Block) :
    (b.sliceRows start stop).shape = (min stop b.nrows - start, b.ncols) := by
  rw [← shape_cells, cells_sliceRows, Grid.shape_sliceRows, nrows_cells, ncols_cells]

theorem get?_sliceRows (start stop : Nat) (b : Block) (i j : Nat) :
    (b.sliceRows start stop).get? i j = if start + i < stop then b.get? (start + i) j else none := by
  rw [← get?_cells, cells_sliceRows, Grid.get?_sliceRows, get?_cells]

theorem sliceRows_all (b : Block) : b.sliceRows 0 b.nrows = b := by
  cases b with
  | labels a => exact congrArg (fun codes => labels ⟨codes, a.categories⟩) (Grid.sliceRows_all a.codes)
  | _ g => exact congrArg _ (Grid.sliceRows_all g)

theorem valid_sliceRows {b : Block} (h : b.Valid) (start stop : Nat) : (b.sliceRows start stop).Valid := by
  refine valid_onGrid (fun g i j x hx => ?_) h
  rw [Grid.get?_sliceRows] at hx
  split at hx
  · exact ⟨_, _, hx⟩
  · cases hx

theorem valid_selectColumns {b : Block} (h : b.Valid) (cols : List Nat) : (b.selectColumns cols).Valid :=
  valid_onGrid (fun _ _ _ _ hx => Grid.exists_of_get?_selectColumns hx) h

theorem valid_selectRows {b : Block} (h : b.Valid) (rows : List Nat) : (b.selectRows rows).Valid :=
  valid_onGrid (fun _ _ _ _ hx => Grid.exists_of_get?_selectRows hx) h

/-! ## Writing -/

theorem dtype_full (value : Scalar) (shape : Nat × Nat) : (full value shape).dtype = value.dtype := by
  cases value with
  | label l =>
    rw [full]
    split <;> rfl
  | _ => rfl

theorem labels_missing_valid (shape : Nat × Nat) : (Labels.missing shape).Valid := by
  intro i j code h
  rw [Labels.missing, Grid.get?_replicate] at h
  split at h
  · obtain rfl := Option.some.inj h
    exact Nat.le_refl 0
  · cases h

theorem toLabels_missing (shape : Nat × Nat) : (Labels.missing shape).toLabels = .replicate shape none := by
  refine Grid.ext_get? rfl fun i j => ?_
  rw [Labels.toLabels, Grid.get?_map, Labels.missing, Grid.get?_replicate, Grid.get?_replicate]
  split
  · rw [Option.map_some, Dictionary.decode_missing]
  · rfl

theorem map_replicate {α β : Type} (f : α → β) (shape : Nat × Nat) (x : α) :
    (Grid.replicate shape x).map f = .replicate shape (f x) := by
  refine Grid.ext_get? rfl fun i j => ?_
  rw [Grid.get?_map, Grid.get?_replicate, Grid.get?_replicate]
  split
  · rw [Option.map_some]
  · rw [Option.map_none]

/-- Filling a region from corner to corner fills the grid. -/
theorem toLabels_fillRegion (l : Option String) (shape : Nat × Nat) :
    ((Labels.missing shape).fillRegion (0, shape.1 - 1) (0, shape.2 - 1) l).toLabels =
      .replicate shape l := by
  rw [Labels.fillRegion, Labels.toLabels_fillWhere (labels_missing_valid shape), toLabels_missing]
  refine Grid.ext_get? rfl fun i j => ?_
  rw [Grid.get?_mapIdx, Grid.get?_replicate, Grid.get?_replicate]
  by_cases hij : i < shape.1 ∧ j < shape.2
  · rw [if_pos hij, if_pos hij, Option.map_some, if_pos]
    simp only [Bool.and_eq_true, decide_eq_true_eq]
    omega
  · rw [if_neg hij, if_neg hij, Option.map_none]

theorem cells_full (value : Scalar) (shape : Nat × Nat) :
    (full value shape).cells = .replicate shape value := by
  cases value with
  | label l =>
    rw [full]
    split
    · rw [cells, toLabels_fillRegion, map_replicate]
    · rename_i h
      rw [cells, toLabels_missing, map_replicate]
      cases l with
      | none => rfl
      | some l =>
        -- there is no cell that could tell the two labels apart
        refine Grid.ext_get? rfl fun i j => ?_
        have hno : ¬(i < shape.1 ∧ j < shape.2) := by
          simp only [Option.isSome_some, Bool.true_and, Bool.and_eq_true, decide_eq_true_eq] at h
          omega
        rw [Grid.get?_replicate, Grid.get?_replicate, if_neg hno, if_neg hno]
  | _ => rw [full, cells, map_replicate]

theorem shape_full (value : Scalar) (shape : Nat × Nat) : (full value shape).shape = shape := by
  rw [← shape_cells, cells_full]
  rfl

theorem valid_full (value : Scalar) (shape : Nat × Nat) : (full value shape).Valid := by
  cases value with
  | label l =>
    rw [full]
    split
    · exact Labels.valid_fillWhere (labels_missing_valid shape) _ _
    · exact labels_missing_valid shape
  | _ => trivial

theorem distinct_full (value : Scalar) (shape : Nat × Nat) : (full value shape).Distinct := by
  cases value with
  | label l =>
    rw [full]
    split
    · exact Dictionary.nodup_intern List.nodup_nil l
    · exact List.nodup_nil
  | _ => trivial

theorem expect_eq_ok {s : Scalar} {d : Dtype} : s.expect d = .ok () ↔ s.dtype = d := by
  unfold Scalar.expect
  split <;> simp_all

theorem of_whereMask {mask : Grid Bool} {missing : Scalar} {b b' : Block}
    (h : b.whereMask mask missing = .ok b') : mask.shape = b.shape ∧ missing.dtype = b.dtype := by
  unfold whereMask at h
  by_cases hs : mask.shape = b.shape
  · rw [if_neg (not_not_intro hs)] at h
    cases he : missing.expect b.dtype with
    | ok u => exact ⟨hs, expect_eq_ok.1 he⟩
    | error e =>
      rw [he] at h
      cases h
  · rw [if_pos hs] at h
    cases h

/-- A missing value of another type is refused. -/
theorem whereMask_eq_error {mask : Grid Bool} {missing : Scalar} {b : Block} (hd : missing.dtype ≠ b.dtype) :
    ∃ e, b.whereMask mask missing = .error e :=
  Checked.exists_error_iff.2 fun _ h => hd (of_whereMask h).2

/-- Masking does not change the shape, however labels are coded. -/
theorem shape_of_whereMask {mask : Grid Bool} {missing : Scalar} {b b' : Block}
    (h : b.whereMask mask missing = .ok b') : b'.shape = b.shape := by
  obtain ⟨hs, hd⟩ := of_whereMask h
  have he : missing.expect b.dtype = .ok () := expect_eq_ok.2 hd
  unfold whereMask at h
  rw [if_neg (not_not_intro hs), he] at h
  cases b <;> cases missing <;> cases hd
  all_goals
    obtain rfl := Except.ok.inj h
    exact Grid.shape_zipWith _ hs.symm

/-- Masking succeeds on a mask of the block's shape and a missing value of its type. -/
theorem whereMask_spec {mask : Grid Bool} {missing : Scalar} {b : Block}
    (hs : mask.shape = b.shape) (hd : missing.dtype = b.dtype) (hv : b.Valid) :
    ∃ b', b.whereMask mask missing = .ok b' ∧ b'.dtype = b.dtype ∧ b'.Valid ∧
      (b.Distinct → b'.Distinct) ∧
      b'.cells = b.cells.zipWith (fun v keep => if keep then v else missing) mask := by
  have he : missing.expect b.dtype = .ok () := expect_eq_ok.2 hd
  unfold whereMask
  rw [if_neg (not_not_intro hs), he]
  cases b with
  | floats g =>
    cases missing with
    | float x => exact ⟨_, rfl, rfl, trivial, id, Grid.map_keep Scalar.float x g mask⟩
    | _ => cases hd
  | ints g =>
    cases missing with
    | int x => exact ⟨_, rfl, rfl, trivial, id, Grid.map_keep Scalar.int x g mask⟩
    | _ => cases hd
  | bools g =>
    cases missing with
    | bool x => exact ⟨_, rfl, rfl, trivial, id, Grid.map_keep Scalar.bool x g mask⟩
    | _ => cases hd
  | times g =>
    cases missing with
    | time x => exact ⟨_, rfl, rfl, trivial, id, Grid.map_keep Scalar.time x g mask⟩
    | _ => cases hd
  | labels a =>
    cases missing with
    | label l =>
      refine ⟨_, rfl, rfl, Labels.valid_keep hv l mask, fun h => Dictionary.nodup_intern h l, ?_⟩
      exact (congrArg (Grid.map Scalar.label) (Labels.toLabels_keep hv l mask)).trans (Grid.map_keep Scalar.label l _ mask)
    | _ => cases hd

theorem shape_whereMask {mask : Grid Bool} {missing : Scalar} {b b' : Block}
    (hs : mask.shape = b.shape)
    (h : b'.cells = b.cells.zipWith (fun v keep => if keep then v else missing) mask) :
    b'.shape = b.shape := by
  rw [← shape_cells, h, Grid.shape_zipWith _ (by rw [shape_cells, hs]), shape_cells]

theorem get?_whereMask {mask : Grid Bool} {missing : Scalar} {b b' : Block}
    (hs : mask.shape = b.shape)
    (h : b'.cells = b.cells.zipWith (fun v keep => if keep then v else missing) mask)
    {i j : Nat} {keep : Bool} (hk : mask.get? i j = some keep) :
    b'.get? i j = if keep then b.get? i j else some missing := by
  obtain ⟨hi, hj⟩ := Grid.lt_of_get? hk
  obtain ⟨x, hx⟩ := Option.isSome_iff_exists.1 (isSome_get?.2
    ⟨Nat.lt_of_lt_of_eq hi (congrArg Prod.fst hs), Nat.lt_of_lt_of_eq hj (congrArg Prod.snd hs)⟩)
  rw [← get?_cells, h, Grid.get?_zipWith, get?_cells, hx, hk]
  cases keep <;> rfl

/-! ## Reading -/

theorem asFloat?_eq (missing : Scalar) (b : Block) :
    b.asFloat? missing =
      if b.dtype = .categorical then none else some (b.cells.map (Scalar.number missing)) := by
  cases b with
  | floats g =>
    rw [if_neg nofun, cells, Grid.map_map, asFloat?]
    cases hm : missing.asFloat? with
    | none =>
      refine congrArg some (Grid.ext_get? rfl fun i j => ?_)
      rw [Grid.get?_map]
      cases g.get? i j with
      | none => rfl
      | some x => simp only [Option.map_some, Function.comp_apply, Scalar.number, hm]
    | some m =>
      simp only
      by_cases hn : m.isNaN = true
      · rw [if_pos hn]
        refine congrArg some (Grid.ext_get? rfl fun i j => ?_)
        rw [Grid.get?_map]
        cases g.get? i j with
        | none => rfl
        | some x => simp only [Option.map_some, Function.comp_apply, Scalar.number, hm, hn, if_true]
      · rw [if_neg hn]
        refine congrArg some (Grid.map_congr fun i j x _ => ?_)
        simp only [Function.comp_apply, Scalar.number, hm, if_neg hn]
  | labels a => rfl
  | ints g =>
    rw [if_neg nofun, cells, Grid.map_map, asFloat?]
    exact congrArg some (Grid.map_congr fun i j n _ => by simp only [Function.comp_apply, Scalar.number])
  | bools g =>
    rw [if_neg nofun, cells, Grid.map_map, asFloat?]
    exact congrArg some (Grid.map_congr fun i j b _ => by simp only [Function.comp_apply, Scalar.number])
  | times g =>
    rw [if_neg nofun, cells, Grid.map_map, asFloat?]
    exact congrArg some (Grid.map_congr fun i j t _ => by simp only [Function.comp_apply, Scalar.number])

theorem isMissing_eq {b : Block} (hv : b.Valid) (hn : b.Distinct) (missing : Scalar) :
    b.isMissing missing = b.cells.map (Scalar.isAbsent missing) := by
  cases b with
  | labels a =>
    rw [cells, Grid.map_map, isMissing]
    cases hm : missing.asLabel? with
    | none =>
      simp only
      rw [Labels.isMissing_eq hv]
      refine Grid.map_congr fun i j l _ => ?_
      simp [Scalar.isAbsent, hm]
    | some m =>
      simp only
      rw [Labels.isMissing_eq hv, Labels.eqLabel_eq hv hn]
      refine Grid.ext_get? ?_ fun i j => ?_
      · exact Grid.shape_zipWith _ rfl
      · rw [Grid.get?_zipWith, Grid.get?_map, Grid.get?_map, Grid.get?_map]
        cases a.toLabels.get? i j with
        | none => rfl
        | some l => simp [Scalar.isAbsent, hm]
  | _ =>
    rw [cells, Grid.map_map, isMissing]
    exact Grid.map_congr fun i j x _ => by simp only [Function.comp_apply, Scalar.isAbsent]

theorem shape_isMissing (b : Block) (missing : Scalar) : (b.isMissing missing).shape = b.shape := by
  cases b with
  | labels a =>
    rw [isMissing]
    cases missing.asLabel? with
    | none => rfl
    | some l => exact Grid.shape_zipWith _ (a.shape_eqLabel l).symm
  | _ => rfl

/-! ## Stacking -/

/-- Where all parts read as one type of cell, reading stacked cells is stacking what is read. -/
theorem map_stack_filterMap {α : Type} {n : Nat} {parts : List Block} {as? : Block → Option (Grid α)}
    {wrap : Grid α → Block} {f : α → Scalar} (has : ∀ b ∈ parts, ∃ g, as? b = some g ∧ b = wrap g)
    (hcells : ∀ g, (wrap g).cells = g.map f) (hc : ∀ b ∈ parts, b.ncols = n) :
    (Grid.stack n (parts.filterMap as?)).map f = .stack n (parts.map cells) := by
  have e : (parts.filterMap as?).map (·.map f) = parts.map cells := by
    clear hc
    induction parts with
    | nil => rfl
    | cons b parts ih =>
      obtain ⟨g, hg, rfl⟩ := has b List.mem_cons_self
      rw [List.filterMap_cons_some hg, List.map_cons, List.map_cons, hcells,
        ih fun b hb => has b (List.mem_cons_of_mem _ hb)]
  rw [← e]
  apply Grid.map_stack
  intro g hg
  obtain ⟨b, hb, hbg⟩ := List.mem_filterMap.1 hg
  obtain ⟨g', hg', rfl⟩ := has b hb
  rw [hg'] at hbg
  obtain rfl := Option.some.inj hbg
  rw [← hc _ hb, ← ncols_cells, hcells]
  rfl

theorem filterMap_labels? (parts : List Labels) : (parts.map labels).filterMap labels? = parts := by
  rw [List.filterMap_map]
  exact List.filterMap_some

/-- Blocks of labels are the blocks over some grids of labels. -/
theorem exists_map_labels {parts : List Block} (h : ∀ b ∈ parts, b.dtype = .categorical) :
    ∃ as : List Labels, parts = as.map labels := by
  induction parts with
  | nil => exact ⟨[], rfl⟩
  | cons b parts ih =>
    obtain ⟨a, rfl⟩ := exists_labels (h b List.mem_cons_self)
    obtain ⟨as, rfl⟩ := ih fun b hb => h b (List.mem_cons_of_mem _ hb)
    exact ⟨a :: as, rfl⟩

/-- The parts in the type and the width of a first one. -/
def stackUnder (first : Block) (parts : List Block) : Except ArrayError Block :=
  match first with
  | floats g => .ok (floats (.stack g.ncols (parts.filterMap floats?)))
  | ints g => .ok (ints (.stack g.ncols (parts.filterMap ints?)))
  | bools g => .ok (bools (.stack g.ncols (parts.filterMap bools?)))
  | times g => .ok (times (.stack g.ncols (parts.filterMap times?)))
  | labels _ => Labels.concatRows (parts.filterMap labels?) >>= fun a => .ok (labels a)

/-- What is stacked has one type and one width. -/
theorem concatRows_eq_ok {first : Block} {rest : List Block} {out : Block} : concatRows (first :: rest) = .ok out ↔
    (∀ b ∈ first :: rest, b.dtype = first.dtype ∧ b.ncols = first.ncols) ∧
      stackUnder first (first :: rest) = .ok out := by
  unfold concatRows
  cases hd : (first :: rest).find? (·.dtype != first.dtype) with
  | some other =>
    refine iff_of_false (by simp only [hd]; nofun) fun h => ?_
    exact ne_of_beq_false (by simpa using List.find?_some hd) (h.1 other (List.mem_of_find?_eq_some hd)).1
  | none =>
    cases hc : (first :: rest).find? (·.ncols != first.ncols) with
    | some other =>
      refine iff_of_false (by simp only [hd, hc]; nofun) fun h => ?_
      exact ne_of_beq_false (by simpa using List.find?_some hc) (h.1 other (List.mem_of_find?_eq_some hc)).2
    | none =>
      have hsame : ∀ b ∈ first :: rest, b.dtype = first.dtype ∧ b.ncols = first.ncols := fun b hb =>
        ⟨by simpa using List.find?_eq_none.1 hd b hb, by simpa using List.find?_eq_none.1 hc b hb⟩
      rw [and_iff_right hsame]
      simp only [hd, hc]
      cases first <;> exact Iff.rfl

/-- Blocks of one type and one width can be stacked; their cells are. -/
theorem concatRows_spec {first : Block} {rest : List Block}
    (hv : ∀ b ∈ first :: rest, b.Valid) (hd : ∀ b ∈ rest, b.dtype = first.dtype)
    (hc : ∀ b ∈ rest, b.ncols = first.ncols) :
    ∃ b, concatRows (first :: rest) = .ok b ∧ b.dtype = first.dtype ∧ b.Valid ∧ b.Distinct ∧
      b.cells = .stack first.ncols ((first :: rest).map cells) := by
  have hd' : ∀ b ∈ first :: rest, b.dtype = first.dtype := List.forall_mem_cons.2 ⟨rfl, hd⟩
  have hc' : ∀ b ∈ first :: rest, b.ncols = first.ncols := List.forall_mem_cons.2 ⟨rfl, hc⟩
  suffices h : ∃ b, stackUnder first (first :: rest) = .ok b ∧ b.dtype = first.dtype ∧ b.Valid ∧ b.Distinct ∧
      b.cells = .stack first.ncols ((first :: rest).map cells) by
    obtain ⟨b, hb, hspec⟩ := h
    exact ⟨b, concatRows_eq_ok.2 ⟨fun b hb => ⟨hd' b hb, hc' b hb⟩, hb⟩, hspec⟩
  cases first with
  | floats g =>
    refine ⟨_, rfl, rfl, trivial, trivial, ?_⟩
    refine @map_stack_filterMap _ _ _ _ floats _ (fun b hb => ?_) (fun _ => rfl) hc'
    obtain ⟨g, rfl⟩ := exists_floats (hd' b hb)
    exact ⟨g, rfl, rfl⟩
  | ints g =>
    refine ⟨_, rfl, rfl, trivial, trivial, ?_⟩
    refine @map_stack_filterMap _ _ _ _ ints _ (fun b hb => ?_) (fun _ => rfl) hc'
    obtain ⟨g, rfl⟩ := exists_ints (hd' b hb)
    exact ⟨g, rfl, rfl⟩
  | bools g =>
    refine ⟨_, rfl, rfl, trivial, trivial, ?_⟩
    refine @map_stack_filterMap _ _ _ _ bools _ (fun b hb => ?_) (fun _ => rfl) hc'
    obtain ⟨g, rfl⟩ := exists_bools (hd' b hb)
    exact ⟨g, rfl, rfl⟩
  | times g =>
    refine ⟨_, rfl, rfl, trivial, trivial, ?_⟩
    refine @map_stack_filterMap _ _ _ _ times _ (fun b hb => ?_) (fun _ => rfl) hc'
    obtain ⟨g, rfl⟩ := exists_times (hd' b hb)
    exact ⟨g, rfl, rfl⟩
  | labels a =>
    obtain ⟨as, rfl⟩ := exists_map_labels hd
    have hw : ∀ x ∈ as, x.shape.2 = a.shape.2 := fun x hx => hc _ (List.mem_map_of_mem hx)
    obtain ⟨out, ho, hov, hon, -, hot⟩ := @Labels.concatRows_spec a as
      (fun x hx => hv (.labels x) (List.mem_map_of_mem (f := labels) hx)) hw
    refine ⟨.labels out, ?_, rfl, hov, hon, ?_⟩
    · rw [stackUnder, ← List.map_cons, filterMap_labels?, ho]
      rfl
    · rw [cells, hot, Grid.map_stack, ← List.map_cons, List.map_map, List.map_map]
      · rfl
      · intro g hg
        obtain ⟨x, hx, rfl⟩ := List.mem_map.1 hg
        have hw' : ∀ x ∈ a :: as, x.shape.2 = a.shape.2 := List.forall_mem_cons.2 ⟨rfl, hw⟩
        exact hw' x hx

/-- Stacking what reads as one type of cell, where all parts have one shape. -/
theorem shape_stack_filterMap {α : Type} {parts : List Block} {as? : Block → Option (Grid α)}
    {height width : Nat} (has : ∀ b ∈ parts, ∃ g, as? b = some g ∧ g.shape = (height, width)) :
    (Grid.stack width (parts.filterMap as?)).shape = (parts.length * height, width) := by
  have hshape : ∀ g ∈ parts.filterMap as?, g.shape = (height, width) := by
    intro g hg
    obtain ⟨b, hb, hbg⟩ := List.mem_filterMap.1 hg
    obtain ⟨g', hg', hs⟩ := has b hb
    rw [hg'] at hbg
    rwa [← Option.some.inj hbg]
  have hlength : (parts.filterMap as?).length = parts.length := by
    rw [List.length_filterMap_eq_countP, List.countP_eq_length]
    intro b hb
    obtain ⟨g, hg, -⟩ := has b hb
    rw [hg]
    rfl
  rw [Grid.shape_stack hshape, hlength]

/-- However labels are coded, stacked blocks of one shape have the shape of the stack. -/
theorem shape_concatRows {parts : List Block} {height width : Nat} {b : Block}
    (h : concatRows parts = .ok b) (hs : ∀ part ∈ parts, part.shape = (height, width)) :
    b.shape = (parts.length * height, width) := by
  cases parts with
  | nil => cases h
  | cons first rest =>
    obtain rfl : first.ncols = width := congrArg Prod.snd (hs first List.mem_cons_self)
    obtain ⟨hsame, h⟩ := concatRows_eq_ok.1 h
    have hdtype : ∀ part ∈ first :: rest, part.dtype = first.dtype := fun part hpart => (hsame part hpart).1
    cases first with
    | floats g =>
      obtain rfl := Except.ok.inj h
      refine shape_stack_filterMap fun part hpart => ?_
      obtain ⟨g', rfl⟩ := exists_floats (hdtype part hpart)
      exact ⟨g', rfl, hs _ hpart⟩
    | ints g =>
      obtain rfl := Except.ok.inj h
      refine shape_stack_filterMap fun part hpart => ?_
      obtain ⟨g', rfl⟩ := exists_ints (hdtype part hpart)
      exact ⟨g', rfl, hs _ hpart⟩
    | bools g =>
      obtain rfl := Except.ok.inj h
      refine shape_stack_filterMap fun part hpart => ?_
      obtain ⟨g', rfl⟩ := exists_bools (hdtype part hpart)
      exact ⟨g', rfl, hs _ hpart⟩
    | times g =>
      obtain rfl := Except.ok.inj h
      refine shape_stack_filterMap fun part hpart => ?_
      obtain ⟨g', rfl⟩ := exists_times (hdtype part hpart)
      exact ⟨g', rfl, hs _ hpart⟩
    | labels a =>
      obtain ⟨out, hout, h⟩ := Checked.bind_eq_ok.1 h
      obtain rfl := Except.ok.inj h
      obtain ⟨as, has⟩ := exists_map_labels hdtype
      rw [has, filterMap_labels?] at hout
      rw [has, List.length_map]
      refine Labels.shape_concatRows hout (by rintro rfl; cases has) fun x hx => ?_
      exact hs (labels x) (has ▸ List.mem_map_of_mem hx)

/-- Blocks of one height stacked: `count` times as many rows. -/
theorem concatRows_range {row : Nat → Block} {d : Dtype} {count height width : Nat} (h0 : 0 < count)
    (hs : ∀ i < count, (row i).shape = (height, width)) (hd : ∀ i < count, (row i).dtype = d)
    (hv : ∀ i < count, (row i).Valid) :
    ∃ b, concatRows ((List.range count).map row) = .ok b ∧ b.dtype = d ∧ b.Valid ∧ b.Distinct ∧
      b.shape = (count * height, width) ∧
      b.cells = .stack width ((List.range count).map (cells ∘ row)) := by
  obtain ⟨m, rfl⟩ : ∃ m, count = m + 1 := ⟨count - 1, by omega⟩
  have hmem {b : Block} (hb : b ∈ (List.range m).map (fun i => row (i + 1))) :
      ∃ i < m + 1, b = row i := by
    obtain ⟨i, hi, rfl⟩ := List.mem_map.1 hb
    exact ⟨i + 1, by simpa using hi, rfl⟩
  have hrows : (List.range (m + 1)).map row = row 0 :: (List.range m).map fun i => row (i + 1) := by
    rw [List.range_succ_eq_map, List.map_cons, List.map_map]
    rfl
  have hwidth {i : Nat} (hi : i < m + 1) : (row i).ncols = width := by
    rw [ncols, hs i hi]
  obtain ⟨b, hb, hbd, hbv, hbn, hbc⟩ := @concatRows_spec (row 0)
    ((List.range m).map fun i => row (i + 1))
    (by
      rw [← hrows]
      intro b hb
      obtain ⟨i, hi, rfl⟩ := List.mem_map.1 hb
      exact hv i (List.mem_range.1 hi))
    (fun b hb => by
      obtain ⟨i, hi, rfl⟩ := hmem hb
      rw [hd i hi, hd 0 h0])
    (fun b hb => by
      obtain ⟨i, hi, rfl⟩ := hmem hb
      rw [hwidth hi, hwidth h0])
  rw [← hrows, List.map_map, hwidth h0] at hbc
  rw [← hrows] at hb
  refine ⟨b, hb, hbd.trans (hd 0 h0), hbv, hbn, ?_, hbc⟩
  have hparts : ∀ g ∈ (List.range (m + 1)).map (cells ∘ row), g.shape = (height, width) := by
    intro g hg
    obtain ⟨i, hi, rfl⟩ := List.mem_map.1 hg
    rw [Function.comp_apply, shape_cells, hs i (List.mem_range.1 hi)]
  rw [← shape_cells, hbc, Grid.shape_stack hparts, List.length_map, List.length_range]

/-- Single rows stacked: row `i` is the only row of part `i`. -/
theorem concatRows_singles {row : Nat → Block} {d : Dtype} {count width : Nat} (h0 : 0 < count)
    (hs : ∀ i < count, (row i).shape = (1, width)) (hd : ∀ i < count, (row i).dtype = d)
    (hv : ∀ i < count, (row i).Valid) :
    ∃ b, concatRows ((List.range count).map row) = .ok b ∧ b.dtype = d ∧ b.Valid ∧ b.Distinct ∧
      b.shape = (count, width) ∧
      ∀ i j, b.get? i j = if i < count then (row i).get? 0 j else none := by
  obtain ⟨b, hb, hbd, hbv, hbn, hbs, hbc⟩ := concatRows_range h0 hs hd hv
  refine ⟨b, hb, hbd, hbv, hbn, by rw [hbs, Nat.mul_one], fun i j => ?_⟩
  have hparts : ∀ g ∈ (List.range count).map (cells ∘ row), g.shape = (1, width) := by
    intro g hg
    obtain ⟨i, hi, rfl⟩ := List.mem_map.1 hg
    rw [Function.comp_apply, shape_cells, hs i (List.mem_range.1 hi)]
  rw [← get?_cells, hbc, Grid.get?_stack (fun g hg => congrArg Prod.snd (hparts g hg))
    fun g hg => congrArg Prod.fst (hparts g hg), List.getElem?_map]
  split
  · rename_i hi
    rw [List.getElem?_range hi, Option.map_some, Option.bind_some, Function.comp_apply, get?_cells]
  · rename_i hi
    rw [List.getElem?_eq_none (by simpa using hi)]
    rfl

/-- Two blocks of one type and width, one under the other. -/
theorem concatRows_pair {a b : Block} (ha : a.Valid) (hb : b.Valid) (hd : b.dtype = a.dtype)
    (hc : b.ncols = a.ncols) :
    ∃ whole, concatRows [a, b] = .ok whole ∧ whole.dtype = a.dtype ∧ whole.shape = (a.nrows + b.nrows, a.ncols) ∧
      ∀ i j, whole.get? i j = if i < a.nrows then a.get? i j else b.get? (i - a.nrows) j := by
  obtain ⟨whole, hw, hwd, -, -, hcells⟩ := @concatRows_spec a [b]
    (by simpa using ⟨ha, hb⟩) (by simpa using hd) (by simpa using hc)
  have hrows : whole.cells.nrows = a.nrows + b.nrows := by
    rw [hcells, ← Grid.length_toLists, Grid.toLists_stack]
    · simp [Grid.length_toLists, nrows_cells]
    · simp [ncols_cells, hc]
  refine ⟨whole, hw, hwd, ?_, fun i j => ?_⟩
  · rw [← shape_cells]
    exact Grid.shape_eq.2 ⟨hrows, congrArg Grid.ncols hcells⟩
  · rw [← get?_cells, hcells, List.map_cons, List.map_singleton,
      Grid.get?_stack_pair a.ncols_cells (b.ncols_cells.trans hc), nrows_cells, get?_cells, get?_cells]

end Block
end AsOf
