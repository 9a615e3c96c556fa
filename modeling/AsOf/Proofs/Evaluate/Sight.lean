import AsOf.Proofs.Columns
import AsOf.Proofs.History
import AsOf.Proofs.Row

/-!
# What the inputs of an evaluation show to one row

A `Source` is an input as a function of the row: a block, or the windows that a
cursor is going to show. `Source.sight` is what the assets under some flags see of
it. The steps of an evaluation that prepare inputs are computed row by row of their
sources.

* `overRows_eq`: walking cursors down the rows computes every row of its own windows.
* `blocks_spec`, `cursors_spec`: inputs of the wrong form are refused in every row.
* `groupIds?_spec`: groups by code are groups by label.
-/
namespace AsOf

/-- An input as a function of the row. -/
inductive Source where
  | block (b : Block)
  | windows (window : Nat → Block)

/-- What the assets under the flags see of row `i` of a block. -/
def Block.seenAt (i : Nat) (flags : List Bool) (b : Block) : View :=
  ⟨b.dtype, (b.cells.sliceRows i (i + 1)).selectColumns (places flags)⟩

namespace Source

/-- What the assets under the flags see of row `i`. -/
def sight (i : Nat) (flags : List Bool) : Source → Sight
  | block b => ⟨false, b.seenAt i flags⟩
  | windows window => ⟨true, (window i).dtype, (window i).cells.selectColumns (places flags)⟩

/-- The input shows the source for `n` rows. -/
def Feeds (n : Nat) : Source → Input → Prop
  | block b, .block b' => b = b'
  | windows window, .window c => c.Shows window n
  | _, _ => False

/-- Valid blocks of the shape, or windows of one height and of the width of the shape. -/
def Fits (shape : Nat × Nat) : Source → Prop
  | block b => b.shape = shape ∧ b.Valid ∧ b.Distinct
  | windows window => ∃ dtype height, ∀ i < shape.1, (window i).dtype = dtype ∧
      (window i).shape = (height, shape.2) ∧ (window i).Valid ∧ (window i).Distinct

end Source

/-! ## Cursors -/

namespace Evaluate

variable {α β : Type}

theorem advance_eq (t : Term) (f : Nat → Block → Except EvalError α) (row : Nat) {n : Nat}
    {ws : List (Nat → Block)} {cs : List Cursor}
    (h : List.Forall₂ (fun w (c : Cursor) => c.Shows w (n + 1)) ws cs) (index : Nat) :
    ∃ cs', List.Forall₂ (fun w (c : Cursor) => c.Shows (fun i => w (i + 1)) n) ws cs' ∧
      advance t f row index cs =
        ((ws.zipIdx index).mapM fun (w, k) => f k (w 0)) >>= fun xs => .ok (xs, cs') := by
  induction h generalizing index with
  | nil => exact ⟨[], .nil, rfl⟩
  | @cons w c ws cs hc _ ih =>
    obtain ⟨c', hn, hs⟩ := hc
    obtain ⟨cs', hcs, ha⟩ := ih (index + 1)
    refine ⟨c' :: cs', .cons hs hcs, ?_⟩
    rw [advance, hn, List.zipIdx_cons, List.mapM_cons]
    simp only [ha]
    cases f index (w 0) with
    | error e => rfl
    | ok x =>
      cases (ws.zipIdx (index + 1)).mapM fun (w, k) => f k (w 0) with
      | error e => rfl
      | ok xs => rfl

/-- Walking cursors down the rows computes every row of its own windows. -/
theorem overRows_eq (t : Term) (f : Nat → Nat → Block → Except EvalError α)
    (combine : Nat → List α → Except EvalError β) {n : Nat} {ws : List (Nat → Block)}
    {cs : List Cursor} (h : List.Forall₂ (fun w (c : Cursor) => c.Shows w n) ws cs) :
    overRows t f combine (List.range n) cs = (List.range n).mapM fun i =>
      (ws.zipIdx.mapM fun (w, k) => f i k (w i)) >>= combine i := by
  have main (m s : Nat) (ws : List (Nat → Block)) (cs : List Cursor)
      (h : List.Forall₂ (fun w (c : Cursor) => c.Shows (fun i => w (s + i)) m) ws cs) :
      overRows t f combine (List.range' s m) cs = (List.range' s m).mapM fun i =>
        (ws.zipIdx.mapM fun (w, k) => f i k (w i)) >>= combine i := by
    induction m generalizing s cs with
    | zero => rfl
    | succ m ih =>
      have h' : List.Forall₂ (fun w (c : Cursor) => c.Shows w (m + 1))
          (ws.map fun w i => w (s + i)) cs := List.forall₂_map_left_iff.2 h
      obtain ⟨cs', hcs, ha⟩ := advance_eq t (f s) s h' 0
      have hrest := ih (s + 1) cs' ((List.forall₂_map_left_iff.1 hcs).imp fun w c hc => by
        simpa only [Nat.add_assoc, Nat.add_comm 1] using hc)
      rw [List.range'_succ, overRows, ha, List.mapM_cons, List.zipIdx_map, List.mapM_map]
      show ((ws.zipIdx.mapM fun (w, k) => f s k (w s)) >>= fun xs => Except.ok (xs, cs')) >>= _ = _
      cases ws.zipIdx.mapM fun (w, k) => f s k (w s) with
      | error e => rfl
      | ok xs =>
        exact congrArg (fun r => combine s xs >>= fun y => r >>= fun ys => pure (y :: ys)) hrest
  have := main n 0 ws cs (h.imp fun w c hc => by simpa only [Nat.zero_add] using hc)
  rwa [← List.range_eq_range'] at this

/-! ## The form of the inputs -/

variable {t : Term} {shape : Nat × Nat} {sources : List Source} {inputs : List Input}

theorem blocks_eq_ok {bs : List Block} :
    blocks t shape inputs = .ok bs ↔ inputs = bs.map .block ∧ ∀ b ∈ bs, b.shape = shape := by
  constructor
  · intro h
    have hread : List.Forall₂ (fun (x : Input × Nat) b => x.1 = .block b ∧ b.shape = shape) inputs.zipIdx bs := by
      refine (Checked.mapM_eq_ok.1 h).imp fun x b hx => ?_
      obtain ⟨input, index⟩ := x
      cases input with
      | window c => cases hx
      | block b' =>
        by_cases hs : b'.shape = shape
        · obtain rfl := Except.ok.inj ((if_pos hs).symm.trans hx)
          exact ⟨rfl, hs⟩
        · cases (if_neg hs).symm.trans hx
    refine ⟨?_, fun b hb => (Checked.exists_left hread hb).choose_spec.2.2⟩
    rw [← List.zipIdx_map_fst 0 inputs]
    exact Checked.map_eq_map hread fun x b hx => hx.1
  · rintro ⟨rfl, hs⟩
    rw [blocks, List.zipIdx_map, List.mapM_map]
    have hfst : bs.zipIdx.map Prod.fst = bs := List.zipIdx_map_fst ..
    refine (Checked.mapM_of_ok (g := Prod.fst) fun x hx => ?_).trans (congrArg Except.ok hfst)
    exact if_pos (hs x.1 (hfst ▸ List.mem_map_of_mem hx))

theorem cursors_eq_ok {cs : List Cursor} : cursors t inputs = .ok cs ↔ inputs = cs.map .window := by
  constructor
  · intro h
    rw [← List.zipIdx_map_fst 0 inputs]
    refine Checked.map_eq_map (Checked.mapM_eq_ok.1 h) fun x c hx => ?_
    obtain ⟨input, index⟩ := x
    cases input with
    | block b => cases hx
    | window c' => rw [← Except.ok.inj hx]
  · rintro rfl
    rw [cursors, List.zipIdx_map, List.mapM_map]
    have hfst : cs.zipIdx.map Prod.fst = cs := List.zipIdx_map_fst ..
    exact (Checked.mapM_of_ok (g := Prod.fst) fun x _ => rfl).trans (congrArg Except.ok hfst)

/-- Either all inputs are blocks, and every row sees their cells, or the inputs are
refused and so is every row. -/
theorem blocks_spec (t : Term) (h : List.Forall₂ (Source.Feeds shape.1) sources inputs)
    (hf : ∀ s ∈ sources, s.Fits shape) :
    (∃ bs : List Block, sources = bs.map .block ∧ blocks t shape inputs = .ok bs ∧
      ∀ i flags, Sight.rows? (sources.map (Source.sight i flags)) =
        some (bs.map (Block.seenAt i flags))) ∨
    ((∃ e, blocks t shape inputs = .error e) ∧
      ∀ i flags, Sight.rows? (sources.map (Source.sight i flags)) = none) := by
  by_cases hw : ∃ w, Source.windows w ∈ sources
  · obtain ⟨w, hw⟩ := hw
    refine .inr ⟨?_, fun i flags => ?_⟩
    · obtain ⟨input, hi, hfeed⟩ := Checked.exists_right h hw
      obtain ⟨index, hz⟩ := Checked.exists_mem_zipIdx hi
      cases input with
      | block b => exact hfeed.elim
      | window c => exact Checked.mapM_of_error hz (e := .inputForm t.text index .block) rfl
    · exact Checked.mapM_of_none (List.mem_map_of_mem hw) rfl
  · obtain ⟨bs, rfl⟩ : ∃ bs : List Block, sources = bs.map .block := by
      clear h hf
      induction sources with
      | nil => exact ⟨[], rfl⟩
      | cons s sources ih =>
        obtain ⟨bs, rfl⟩ := ih fun ⟨w, h⟩ => hw ⟨w, List.mem_cons_of_mem _ h⟩
        cases s with
        | block b => exact ⟨b :: bs, rfl⟩
        | windows w => exact absurd ⟨w, List.mem_cons_self⟩ hw
    have hin : inputs = bs.map .block := by
      clear hw hf
      induction bs generalizing inputs with
      | nil =>
        cases h
        rfl
      | cons b bs ih =>
        cases h with
        | @cons _ input _ inputs hb hrest =>
          cases input with
          | block b' => rw [ih hrest, show b = b' from hb, List.map_cons]
          | window c => exact hb.elim
    refine .inl ⟨bs, rfl, ?_, fun i flags => ?_⟩
    · exact hin ▸ blocks_eq_ok.2 ⟨rfl, fun b hb => (hf _ (List.mem_map_of_mem hb)).1⟩
    · rw [Sight.rows?, List.map_map, List.mapM_map]
      exact Checked.mapM_of_some fun b _ => rfl

/-- The windows of row `i` for the assets under the flags. -/
def shown (ws : List (Nat → Block)) (i : Nat) (flags : List Bool) : List Block :=
  ws.map fun w => (w i).selectColumns (places flags)

/-- Either all inputs are cursors, and every row sees their windows, or the inputs are
refused and so is every row. -/
theorem cursors_spec (t : Term) {n : Nat} (h : List.Forall₂ (Source.Feeds n) sources inputs) :
    (∃ (ws : List (Nat → Block)) (cs : List Cursor), sources = ws.map .windows ∧
      cursors t inputs = .ok cs ∧ List.Forall₂ (fun w (c : Cursor) => c.Shows w n) ws cs ∧
      ∀ i flags, Sight.windows? (sources.map (Source.sight i flags)) =
        some ((shown ws i flags).map Block.view)) ∨
    ((∃ e, cursors t inputs = .error e) ∧
      ∀ i flags, Sight.windows? (sources.map (Source.sight i flags)) = none) := by
  by_cases hb : ∃ b, Source.block b ∈ sources
  · obtain ⟨b, hb⟩ := hb
    refine .inr ⟨?_, fun i flags => Checked.mapM_of_none (List.mem_map_of_mem hb) rfl⟩
    obtain ⟨input, hi, hfeed⟩ := Checked.exists_right h hb
    obtain ⟨index, hz⟩ := Checked.exists_mem_zipIdx hi
    cases input with
    | block b => exact Checked.mapM_of_error hz (e := .inputForm t.text index .window) rfl
    | window c => exact hfeed.elim
  · obtain ⟨ws, rfl⟩ : ∃ ws : List (Nat → Block), sources = ws.map .windows := by
      clear h
      induction sources with
      | nil => exact ⟨[], rfl⟩
      | cons s sources ih =>
        obtain ⟨ws, rfl⟩ := ih fun ⟨b, h⟩ => hb ⟨b, List.mem_cons_of_mem _ h⟩
        cases s with
        | block b => exact absurd ⟨b, List.mem_cons_self⟩ hb
        | windows w => exact ⟨w :: ws, rfl⟩
    obtain ⟨cs, rfl, hs⟩ : ∃ cs : List Cursor, inputs = cs.map .window ∧
        List.Forall₂ (fun w (c : Cursor) => c.Shows w n) ws cs := by
      clear hb
      induction ws generalizing inputs with
      | nil =>
        cases h
        exact ⟨[], rfl, .nil⟩
      | cons w ws ih =>
        cases h with
        | @cons _ input _ inputs hw hrest =>
          obtain ⟨cs, rfl, hs⟩ := ih hrest
          cases input with
          | block b => exact hw.elim
          | window c => exact ⟨c :: cs, rfl, .cons hw hs⟩
    refine .inl ⟨ws, cs, rfl, cursors_eq_ok.2 rfl, hs, fun i flags => ?_⟩
    · rw [Sight.windows?, shown, List.map_map, List.map_map, List.mapM_map]
      refine Checked.mapM_of_some fun w _ => congrArg some ?_
      show View.mk _ _ = View.mk _ _
      rw [Block.dtype_selectColumns, Block.cells_selectColumns]

/-! ## Rows -/

/-- What some assets see of a row is the part of it that they pick. -/
theorem row_seenAt (b : Block) (i : Nat) (flags : List Bool) :
    (b.seenAt i flags).cells.row 0 = pick flags (b.cells.row i) := by
  rw [Block.seenAt, Grid.row_selectColumns, Grid.row_sliceRows (by omega), Nat.add_zero]

theorem numbers_eq (t : Term) (index : Nat) (b : Block) : numbers t index b =
    if b.dtype = .categorical then .error (.inputForm t.text index .numbers)
    else .ok (b.cells.map (Scalar.number (t.missingOf index))) := by
  have e : t.missingOf index = (t.inputs[index]?.map Term.missing).getD (.label none) := rfl
  rw [numbers, ← e, Block.asFloat?_eq]
  by_cases hd : b.dtype = .categorical
  · rw [if_pos hd, if_pos hd]
  · rw [if_neg hd, if_neg hd]

/-- All inputs as floats. -/
def numbersAll (t : Term) (bs : List Block) : Except EvalError (List (Grid Float)) :=
  bs.zipIdx.mapM fun x => numbers t x.2 x.1

/-- A formula reads all its inputs as floats. -/
theorem unmasked_expression {t : Term} {e : Expr} (hk : t.kind = .expression e) (inputs : List Input)
    (ctx : Context) : unmasked t inputs ctx = blocks t ctx.shape inputs >>= fun bs =>
      numbersAll t bs >>= fun gs => .ok (ofFloats (e.eval gs ctx.shape) t.dtype) := by
  rw [unmasked, hk]
  rfl

/-- The cells of all inputs as floats, the missing ones of each input as NaN. -/
def numberGrids (t : Term) (cells : List (Grid Scalar)) : List (Grid Float) :=
  cells.zipIdx.map fun x => x.1.map (Scalar.number (t.missingOf x.2))

theorem getElem?_numberGrids (t : Term) (cells : List (Grid Scalar)) (k : Nat) :
    (numberGrids t cells)[k]? = cells[k]?.map (Grid.map (Scalar.number (t.missingOf k))) := by
  rw [numberGrids, List.getElem?_map, List.getElem?_zipIdx, Option.map_map, Nat.zero_add]
  rfl

theorem shape_numberGrids (t : Term) {bs : List Block} {shape : Nat × Nat} (h : ∀ b ∈ bs, b.shape = shape) :
    ∀ g ∈ numberGrids t (bs.map Block.cells), g.shape = shape := by
  refine List.forall_mem_map.2 fun x hx => ?_
  obtain ⟨b, hb, hcells⟩ := List.mem_map.1 (List.fst_mem_of_mem_zipIdx hx)
  rw [Grid.shape_map, ← hcells, Block.shape_cells]
  exact h b hb

theorem numbersAll_eq (t : Term) {bs : List Block} (h : ∀ b ∈ bs, b.dtype ≠ .categorical) :
    numbersAll t bs = .ok (numberGrids t (bs.map Block.cells)) := by
  rw [numberGrids, List.zipIdx_map, List.map_map]
  exact Checked.mapM_of_ok fun x hx =>
    (numbers_eq ..).trans (if_neg (h x.1 (List.fst_mem_of_mem_zipIdx hx)))

theorem numbersAll_eq_error (t : Term) {bs : List Block} (h : ∃ b ∈ bs, b.dtype = .categorical) :
    ∃ e, numbersAll t bs = .error e := by
  obtain ⟨b, hb, hd⟩ := h
  obtain ⟨index, hz⟩ := Checked.exists_mem_zipIdx hb
  refine Checked.mapM_of_error hz (e := .inputForm t.text index .numbers) ?_
  simp only [numbers_eq, if_pos hd]

theorem numbers?_eq (t : Term) {vs : List View} (h : ∀ v ∈ vs, v.dtype ≠ .categorical) :
    t.numbers? vs = some (numberGrids t (vs.map View.cells)) := by
  rw [numberGrids, List.zipIdx_map, List.map_map]
  exact Checked.mapM_of_some fun x hx => if_neg (h x.1 (List.fst_mem_of_mem_zipIdx hx))

theorem numbers?_eq_none (t : Term) {vs : List View} (h : ∃ v ∈ vs, v.dtype = .categorical) :
    t.numbers? vs = none := by
  obtain ⟨v, hv, hd⟩ := h
  obtain ⟨index, hz⟩ := Checked.exists_mem_zipIdx hv
  exact Checked.mapM_of_none hz (if_pos hd)

/-- Blocks and their views have the same numbers, if they have numbers. -/
theorem numbersAll_view (t : Term) (bs : List Block) :
    (∃ gs, numbersAll t bs = .ok gs ∧
      t.numbers? (bs.map Block.view) = some gs) ∨
    ((∃ e, numbersAll t bs = .error e) ∧
      t.numbers? (bs.map Block.view) = none) := by
  by_cases h : ∃ b ∈ bs, b.dtype = .categorical
  · refine .inr ⟨numbersAll_eq_error t h, numbers?_eq_none t ?_⟩
    obtain ⟨b, hb, hd⟩ := h
    exact ⟨b.view, List.mem_map_of_mem hb, hd⟩
  · have h' : ∀ b ∈ bs, b.dtype ≠ .categorical := fun b hb hd => h ⟨b, hb, hd⟩
    refine .inl ⟨_, numbersAll_eq t h', ?_⟩
    rw [numbers?_eq t (List.forall_mem_map.2 h'), List.map_map]
    rfl

/-! ## Groups -/

/-- The number of a label among labels that are numbered as they are met. -/
def numbered (labels : List (Option String)) (label : Option String) : Int :=
  ((Dictionary.internAll [] labels).1.intern label).2

theorem numbered_injective {labels : List (Option String)} {a b : Option String} (ha : a ∈ labels)
    (hb : b ∈ labels) (h : numbered labels a = numbered labels b) : a = b := by
  rw [← Dictionary.decode_intern_of_mem ha, ← Dictionary.decode_intern_of_mem hb,
    Int.ofNat.inj h]

/-- The group of a code: none if the code stands for the missing label. -/
def groupOfCode (missing : Scalar) (a : Labels) (code : Nat) : Option Int :=
  if code = Dictionary.missingCode || missing.asLabel?.bind a.codeOf? == some code then none
  else some code

/-- Without repeats, the codes that stand for no group decode to the labels that do. -/
theorem groupOfCode_eq {a : Labels} (hn : a.categories.Nodup) {code : Nat}
    (hc : code ≤ a.categories.length) (missing : Scalar) : groupOfCode missing a code =
      if Scalar.isAbsent missing (.label (a.categories.decode code)) then none else some (code : Int) := by
  have h0 : (code = Dictionary.missingCode) = ((a.categories.decode code).isNone = true) := by
    rw [Option.isNone_iff_eq_none, Dictionary.decode_eq_none hc]
  have e : (decide (code = Dictionary.missingCode) || missing.asLabel?.bind a.codeOf? == some code) =
      Scalar.isAbsent missing (.label (a.categories.decode code)) := by
    rw [Bool.eq_iff_iff, Bool.or_eq_true_iff, decide_eq_true_iff, h0, Scalar.isAbsent,
      Bool.or_eq_true_iff, Bool.and_eq_true_iff, beq_iff_eq, beq_iff_eq]
    cases hm : missing.asLabel? with
    | none => simp
    | some l =>
      rw [Option.bind_some]
      refine or_congr Iff.rfl ⟨fun h => ⟨rfl, (Dictionary.decode_codeOf? h).2⟩, fun h => ?_⟩
      exact Dictionary.codeOf?_decode hn hc h.2
  rw [groupOfCode, e]

/-- The label by which a row groups a code: none if the code stands for no group. -/
def groupLabel (missing : Scalar) (a : Labels) (code : Nat) : Option String :=
  if Scalar.isAbsent missing (.label (a.categories.decode code)) then none else a.categories.decode code

theorem decode_of_groupLabel {missing : Scalar} {a : Labels} {code : Nat} {l : String}
    (h : groupLabel missing a code = some l) : a.categories.decode code = some l := by
  unfold groupLabel at h
  split at h
  · cases h
  · exact h

theorem groupOfCode_eq_map {a : Labels} (hn : a.categories.Nodup) {code : Nat}
    (hc : code ≤ a.categories.length) (missing : Scalar) :
    groupOfCode missing a code = (groupLabel missing a code).map fun _ => (code : Int) := by
  rw [groupOfCode_eq hn hc, groupLabel]
  split
  · rfl
  · rename_i hpresent
    cases hl : a.categories.decode code with
    | none =>
      rw [hl] at hpresent
      exact absurd rfl hpresent
    | some l => rfl

/-- Distinct codes that stand for groups have distinct labels. -/
theorem groupLabel_injective {missing : Scalar} {a : Labels} (hn : a.categories.Nodup) {c d : Nat}
    (hc : c ≤ a.categories.length) (hd : d ≤ a.categories.length) {l : String}
    (hcl : groupLabel missing a c = some l) (hdl : groupLabel missing a d = some l) : c = d :=
  Dictionary.decode_injective hn hc hd ((decode_of_groupLabel hcl).trans (decode_of_groupLabel hdl).symm)

/-- What a row of labels groups its cells by: its labels, numbered as they are met. -/
theorem groups?_labels (missing : Scalar) (a : Labels) (i : Nat) (flags : List Bool) :
    View.groups? missing ((Block.labels a).seenAt i flags) =
      some ((pick flags (a.codes.row i)).map fun code => (groupLabel missing a code).map fun l =>
        numbered ((pick flags (a.codes.row i)).map (groupLabel missing a)) (some l)) := by
  have hrow : ((Block.labels a).seenAt i flags).cells.row 0 =
      (pick flags (a.codes.row i)).map fun code => .label (a.categories.decode code) := by
    rw [row_seenAt, Block.cells, Labels.toLabels, Grid.row_map, Grid.row_map, pick_map, pick_map,
      List.map_map]
    rfl
  show some _ = some _
  rw [hrow]
  simp only [List.map_map]
  rfl

/-- The groups of a block can be told in every row or in none; in a row they are those
that the row tells by itself, under other names. -/
theorem groupIds?_spec (missing : Scalar) {b : Block} (hv : b.Valid) (hd : b.Distinct) :
    (groupIds? missing b = none ∧ ∀ cells, View.groups? missing ⟨b.dtype, cells⟩ = none) ∨
    ∃ gs, groupIds? missing b = some gs ∧ gs.shape = b.shape ∧
      ∀ (i : Nat) (flags : List Bool), ∃ name : Int → Int,
          View.groups? missing (b.seenAt i flags) =
            some ((pick flags (gs.row i)).map (Option.map name)) ∧
          ∀ x y, some x ∈ pick flags (gs.row i) → some y ∈ pick flags (gs.row i) →
            name x = name y → x = y := by
  cases b with
  | ints g =>
    refine .inr ⟨_, rfl, rfl, fun i flags => ⟨id, ?_, fun _ _ _ _ h => h⟩⟩
    show some _ = some _
    rw [row_seenAt, Option.map_id_fun, List.map_id, Block.cells,
      Grid.row_map, Grid.row_map, pick_map, pick_map, List.map_map]
    rfl
  | labels a =>
    refine .inr ⟨a.codes.map (groupOfCode missing a), rfl, rfl, fun i flags => ?_⟩
    let labels := (pick flags (a.codes.row i)).map (groupLabel missing a)
    have hcode {code : Nat} (h : code ∈ pick flags (a.codes.row i)) : code ≤ a.categories.length := by
      rw [pick_eq_filterMap] at h
      obtain ⟨j, -, hj⟩ := List.mem_filterMap.1 h
      rw [Grid.getElem?_row] at hj
      exact hv i j code hj
    have hgroups : pick flags ((a.codes.map (groupOfCode missing a)).row i) =
        (pick flags (a.codes.row i)).map fun code => (groupLabel missing a code).map fun _ => (code : Int) := by
      rw [Grid.row_map, pick_map]
      exact List.map_congr_left fun code hm => groupOfCode_eq_map hd (hcode hm) missing
    have hmem {x : Int} (h : some x ∈ pick flags ((a.codes.map (groupOfCode missing a)).row i)) :
        ∃ code ∈ pick flags (a.codes.row i), x = (code : Int) ∧ ∃ l, groupLabel missing a code = some l := by
      rw [hgroups] at h
      obtain ⟨code, hm, hx⟩ := List.mem_map.1 h
      obtain ⟨l, hl, rfl⟩ := Option.map_eq_some_iff.1 hx
      exact ⟨code, hm, rfl, l, hl⟩
    -- a code is renamed to the number that its label has in the row
    refine ⟨fun code => numbered labels (a.categories.decode code.toNat), ?_, fun x y hx hy h => ?_⟩
    · rw [groups?_labels, hgroups, List.map_map]
      refine congrArg some (List.map_congr_left fun code _ => ?_)
      rw [Function.comp_apply, Option.map_map]
      refine Option.map_congr fun l hl => ?_
      rw [Function.comp_apply, Int.toNat_natCast, decode_of_groupLabel hl]
    · obtain ⟨c, hc, rfl, l, hl⟩ := hmem hx
      obtain ⟨d, hd', rfl, l', hl'⟩ := hmem hy
      simp only [Int.toNat_natCast, decode_of_groupLabel hl, decode_of_groupLabel hl'] at h
      have e : some l = some l' :=
        numbered_injective (hl ▸ List.mem_map_of_mem hc) (hl' ▸ List.mem_map_of_mem hd') h
      rw [groupLabel_injective hd (hcode hc) (hcode hd') hl (hl'.trans e.symm)]
  | _ => exact .inl ⟨rfl, fun _ => rfl⟩

end Evaluate
end AsOf
