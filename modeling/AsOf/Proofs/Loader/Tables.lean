import AsOf.Proofs.Checked
import AsOf.Proofs.Loader.Ledger
import AsOf.Proofs.Loader.Restated
import AsOf.Proofs.Named

/-!
# What tables keep of their columns

A table keeps for each day and asset the value that it holds, and missing where it holds
none. What is known of it on a later day is that value after the restatements that are
known by then, in the order in which they apply.

* `Tables.Reached.sound`: what can be relied on in tables that were filled step by step.
* `Tables.historyOf_spec`: the history of a table records its ledger.
* `Tables.answers`: every request is filled, unless a column does not suit its table.
-/
namespace AsOf

/-- A table covers some days and assets, and its restatements suit it. -/
structure Table.Sound (shape : Nat × Nat) (table : Table) : Prop where
  shape : table.values.shape = shape
  valid : table.values.Valid
  single : ∀ x ∈ table.restatements, x.op.Single
  dtype : ∀ x ∈ table.restatements, x.op.checkDtype table.values.dtype = .ok ()

namespace Tables

variable {t t' : Tables} {table : Table} {c : Column} {r : Request}

/-! ## Filling tables -/

/-- Tables that were filled step by step. -/
inductive Reached : Tables → Prop
  | ofAxes (dates : List Date) (sids : List Sid) : Reached (.ofAxes dates sids)
  | addColumn {t t' : Tables} {c : Column} {values : Block} (h : Reached t) (valid : values.Valid)
      (ok : t.addColumn c values = .ok t') : Reached t'
  | restate {t t' : Tables} {c : Column} {x : Restatement} (h : Reached t) (ok : t.restate c x = .ok t') :
      Reached t'

/-- Every table is sound. -/
def Sound (t : Tables) : Prop :=
  ∀ name table, t.tables.get? name = some table → table.Sound t.shape

theorem addColumn_eq_ok {values : Block} : t.addColumn c values = .ok t' ↔ values.shape = t.shape ∧
    c.missing.dtype = values.dtype ∧ t' = { t with tables := t.tables.insert (key c) ⟨values, []⟩ } := by
  unfold addColumn
  by_cases hs : values.shape = t.shape
  · rw [if_neg (not_not_intro hs), and_iff_right hs, ← Block.expect_eq_ok]
    cases c.missing.expect values.dtype with
    | ok u => exact ⟨fun h => ⟨rfl, (Except.ok.inj h).symm⟩, fun h => congrArg Except.ok h.2.symm⟩
    | error e => exact ⟨fun h => (by cases h), fun h => (by cases h.1)⟩
  · rw [if_pos hs]
    exact ⟨fun h => (by cases h), fun h => absurd h.1 hs⟩

theorem restate_eq_ok {x : Restatement} (h : t.restate c x = .ok t') : ∃ table,
    t.tables.get? (key c) = some table ∧ x.op.Single ∧ x.op.checkDtype table.values.dtype = .ok () ∧
      t' = { t with tables :=
        t.tables.insert (key c) { table with restatements := table.restatements ++ [x] } } := by
  unfold restate at h
  cases hg : t.tables.get? (key c) with
  | none =>
    rw [hg] at h
    cases h
  | some table =>
    rw [hg] at h
    have hsingle : x.op.Single := by
      intro values ho
      simp only [ho] at h
      cases h
    refine ⟨table, rfl, hsingle, ?_⟩
    have hchecked : ((x.op.checkDtype table.values.dtype).mapError LoadError.array >>= fun _ =>
        .ok { t with tables :=
          t.tables.insert (key c) { table with restatements := table.restatements ++ [x] } }) = .ok t' := by
      cases ho : x.op with
      | overwriteRows values => exact absurd ho (hsingle values)
      | _ =>
        simp only [ho] at h
        exact h
    obtain ⟨u, hu, h⟩ := Checked.bind_eq_ok.1 hchecked
    exact ⟨Checked.mapError_eq_ok.1 hu, (Except.ok.inj h).symm⟩

theorem Reached.sound (h : t.Reached) : t.Sound := by
  induction h with
  | ofAxes dates sids =>
    intro name table hg
    cases hg
  | addColumn h valid ok ih =>
    obtain ⟨hs, -, rfl⟩ := addColumn_eq_ok.1 ok
    intro name table hg
    rw [Named.get?_insert] at hg
    split at hg
    · obtain rfl := Option.some.inj hg
      exact ⟨hs, valid, fun x hx => absurd hx List.not_mem_nil, fun x hx => absurd hx List.not_mem_nil⟩
    · exact ih name table hg
  | @restate t t' c x h ok ih =>
    obtain ⟨old, hold, hsingle, hdtype, rfl⟩ := restate_eq_ok ok
    intro name table hg
    rw [Named.get?_insert] at hg
    split at hg
    · obtain rfl := Option.some.inj hg
      obtain ⟨hs, hv, hx, hd⟩ := ih _ old hold
      have hlast {P : Restatement → Prop} (hall : ∀ y ∈ old.restatements, P y) (hone : P x) :
          ∀ y ∈ old.restatements ++ [x], P y := fun y hy =>
        (List.mem_append.1 hy).elim (hall y) fun hy => List.mem_singleton.1 hy ▸ hone
      exact ⟨hs, hv, hlast hx hsingle, hlast hd hdtype⟩
    · exact ih name table hg

/-! ## The requested cells -/

theorem getElem?_of_lastIndex? {α : Type} [BEq α] [LawfulBEq α] {x : α} {xs : List α} {i : Nat}
    (h : lastIndex? x xs = some i) : xs[i]? = some x := by
  obtain ⟨⟨y, k⟩, hy, rfl⟩ := Option.map_eq_some_iff.1 h
  obtain ⟨hmem, heq⟩ := List.mem_filter.1 (List.mem_of_getLast? hy)
  obtain rfl := eq_of_beq heq
  exact List.mem_zipIdx_iff_getElem?.1 hmem

theorem lastIndex?_lt {α : Type} [BEq α] [LawfulBEq α] {x : α} {xs : List α} {i : Nat}
    (h : lastIndex? x xs = some i) : i < xs.length :=
  (List.getElem?_eq_some_iff.1 (getElem?_of_lastIndex? h)).1

/-- The value that a table holds for a day and an asset, and missing where it holds none. -/
def stored (t : Tables) (table : Table) (missing : Scalar) (d : Date) (sid : Sid) : Scalar :=
  ((lastIndex? d t.dates).bind fun i => (lastIndex? sid t.sids).bind fun j => table.values.get? i j).getD missing

/-- A block holds the stored values of the requested days and assets. -/
structure Gathered (t : Tables) (table : Table) (r : Request) (missing : Scalar) (b : Block) : Prop where
  dtype : b.dtype = missing.dtype
  shape : b.shape = r.shape
  valid : b.Valid
  distinct : table.values.Distinct → b.Distinct
  cell : ∀ (i j : Nat) (d : Date) (sid : Sid), r.dates[i]? = some d → r.sids[j]? = some sid →
    b.get? i j = some (t.stored table missing d sid)

/-- The cells in some places, and those of the first row or column where there is no place. -/
def cellsIn (values : Block) (rows cols : List (Option Nat)) : Block :=
  (values.selectRows (rows.map (·.getD 0))).selectColumns (cols.map (·.getD 0))

/-- Where there is a place. -/
def present (rows cols : List (Option Nat)) : Grid Bool :=
  .ofFn rows.toArray.size cols.toArray.size fun i j => rows.toArray[i].isSome && cols.toArray[j].isSome

theorem gather_eq {values : Block} (h : ¬(values.nrows = 0 ∨ values.ncols = 0)) (r : Request) (missing : Scalar) :
    t.gather values r missing = (cellsIn values (r.dates.map (lastIndex? · t.dates))
      (r.sids.map (lastIndex? · t.sids))).whereMask (present (r.dates.map (lastIndex? · t.dates))
        (r.sids.map (lastIndex? · t.sids))) missing := by
  unfold gather
  rw [if_neg (by simpa using h)]
  rfl

theorem get?_present (rows cols : List (Option Nat)) (i j : Nat) : (present rows cols).get? i j =
    rows[i]?.bind fun a => cols[j]?.map fun b => a.isSome && b.isSome := by
  rw [present, Grid.get?_ofFn]
  by_cases hij : i < rows.toArray.size ∧ j < cols.toArray.size
  · rw [dif_pos hij, List.getElem?_eq_getElem hij.1, List.getElem?_eq_getElem hij.2]
    rfl
  · rw [dif_neg hij]
    by_cases hi : i < rows.length
    · rw [List.getElem?_eq_none (Nat.le_of_not_lt fun hj => hij ⟨hi, hj⟩)]
      cases rows[i]? <;> rfl
    · rw [List.getElem?_eq_none (Nat.le_of_not_lt hi)]
      rfl

/-- Places that are there lie inside the block. -/
def Inside (n : Nat) (places : List (Option Nat)) : Prop := ∀ place ∈ places, ∀ i ∈ place, i < n

theorem Inside.getD {n : Nat} {places : List (Option Nat)} (h : Inside n places) (hn : 0 < n) :
    ∀ i ∈ places.map (·.getD 0), i < n := by
  intro i hi
  obtain ⟨place, hplace, rfl⟩ := List.mem_map.1 hi
  cases place with
  | none => exact hn
  | some i => exact h _ hplace i rfl

variable {values : Block} {rows cols : List (Option Nat)}

theorem dtype_cellsIn : (cellsIn values rows cols).dtype = values.dtype := by
  rw [cellsIn, Block.dtype_selectColumns, Block.dtype_selectRows]

theorem shape_cellsIn (hr : ∀ i ∈ rows.map (·.getD 0), i < values.nrows)
    (hc : ∀ j ∈ cols.map (·.getD 0), j < values.ncols) :
    (cellsIn values rows cols).shape = (rows.length, cols.length) := by
  rw [← Block.shape_cells, cellsIn, Block.cells_selectColumns, Block.cells_selectRows]
  have hrows := Grid.shape_selectRows (g := values.cells) (by rw [Block.nrows_cells]; exact hr)
  have hn := Grid.shape_eq.1 hrows
  rw [Grid.shape_selectColumns (by rw [hn.2, Block.ncols_cells]; exact hc), hn.1, List.length_map, List.length_map]

theorem get?_cellsIn (hr : ∀ i ∈ rows.map (·.getD 0), i < values.nrows)
    (hc : ∀ j ∈ cols.map (·.getD 0), j < values.ncols) (i j : Nat) : (cellsIn values rows cols).get? i j =
      cols[j]?.bind fun b => rows[i]?.bind fun a => values.get? (a.getD 0) (b.getD 0) := by
  have hrows : ∀ i ∈ rows.map (·.getD 0), i < values.cells.nrows := by rw [Block.nrows_cells]; exact hr
  have hn := Grid.shape_eq.1 (Grid.shape_selectRows hrows)
  rw [← Block.get?_cells, cellsIn, Block.cells_selectColumns, Block.cells_selectRows,
    Grid.get?_selectColumns (by rw [hn.2, Block.ncols_cells]; exact hc), List.getElem?_map, Option.bind_map]
  refine congrArg (cols[j]?.bind ·) (funext fun b => ?_)
  show (values.cells.selectRows _).get? i (b.getD 0) = _
  rw [Grid.get?_selectRows hrows, List.getElem?_map, Option.bind_map]
  refine congrArg (rows[i]?.bind ·) (funext fun a => ?_)
  rw [← Block.get?_cells]
  rfl

/-- The places of what is asked for lie inside the table. -/
theorem inside_lastIndex? {α : Type} [BEq α] [LawfulBEq α] (asked held : List α) :
    Inside held.length (asked.map (lastIndex? · held)) := by
  intro place hplace i hi
  obtain ⟨x, -, rfl⟩ := List.mem_map.1 hplace
  exact lastIndex?_lt hi

/-- A table without cells is missing everywhere. -/
theorem gathered_of_empty (ht : table.Sound t.shape) (hempty : table.values.nrows = 0 ∨ table.values.ncols = 0)
    (r : Request) (missing : Scalar) : t.gather table.values r missing = .ok (.full missing r.shape) ∧
      t.Gathered table r missing (.full missing r.shape) := by
  have hrows : table.values.nrows = t.dates.length := congrArg Prod.fst ht.shape
  have hcols : table.values.ncols = t.sids.length := congrArg Prod.snd ht.shape
  constructor
  · unfold gather
    rw [if_pos (by simpa using hempty)]
  · refine ⟨Block.dtype_full .., Block.shape_full .., Block.valid_full .., fun _ => Block.distinct_full ..,
      fun i j d sid hi hj => ?_⟩
    have hstored : t.stored table missing d sid = missing := by
      unfold stored
      cases hd : lastIndex? d t.dates with
      | none => rfl
      | some i =>
        cases hs : lastIndex? sid t.sids with
        | none => rfl
        | some j =>
          have := lastIndex?_lt hd
          have := lastIndex?_lt hs
          omega
    rw [hstored, ← Block.get?_cells, Block.cells_full, Grid.get?_replicate,
      if_pos ⟨(List.getElem?_eq_some_iff.1 hi).1, (List.getElem?_eq_some_iff.1 hj).1⟩]

/-- The cells in some places, with `missing` where there is no place. -/
theorem masked_cellsIn {missing : Scalar} (hv : values.Valid) (hd : missing.dtype = values.dtype)
    (hr : ∀ i ∈ rows.map (·.getD 0), i < values.nrows) (hc : ∀ j ∈ cols.map (·.getD 0), j < values.ncols) :
    ∃ b, (cellsIn values rows cols).whereMask (present rows cols) missing = .ok b ∧ b.dtype = values.dtype ∧
      b.shape = (rows.length, cols.length) ∧ b.Valid ∧ (values.Distinct → b.Distinct) ∧
      ∀ (i j : Nat) (row? col? : Option Nat), rows[i]? = some row? → cols[j]? = some col? →
        b.get? i j = some ((row?.bind fun a => col?.bind fun b => values.get? a b).getD missing) := by
  have hshape := shape_cellsIn hr hc
  obtain ⟨b, hb, hbd, hbv, hbn, hbc⟩ := @Block.whereMask_spec (present rows cols) missing _ hshape.symm
    (hd.trans dtype_cellsIn.symm) (Block.valid_selectColumns (Block.valid_selectRows hv _) _)
  refine ⟨b, hb, hbd.trans dtype_cellsIn, (Block.shape_of_whereMask hb).trans hshape, hbv,
    fun hn => hbn (Block.distinct_selectColumns (Block.distinct_selectRows hn _) _),
    fun i j row? col? hri hcj => ?_⟩
  obtain ⟨x, hx⟩ := Option.isSome_iff_exists.1 (Block.isSome_get?.2
    ⟨hr _ (List.mem_map_of_mem (List.mem_of_getElem? hri)), hc _ (List.mem_map_of_mem (List.mem_of_getElem? hcj))⟩)
  rw [← Block.get?_cells, hbc, Grid.get?_zipWith, Block.get?_cells, get?_cellsIn hr hc, get?_present, hri, hcj]
  simp only [Option.bind_some, Option.map_some, hx]
  cases row? with
  | none => rfl
  | some row =>
    cases col? with
    | none => rfl
    | some col =>
      rw [Option.bind_some, Option.bind_some, show values.get? row col = some x from hx]
      rfl

/-- The requested cells are gathered, unless the table is of another type. -/
theorem gather_spec (ht : table.Sound t.shape) (r : Request) (missing : Scalar) :
    (∃ b, t.gather table.values r missing = .ok b ∧ t.Gathered table r missing b) ∨
    (missing.dtype ≠ table.values.dtype ∧ ∃ e, t.gather table.values r missing = .error e) := by
  by_cases hempty : table.values.nrows = 0 ∨ table.values.ncols = 0
  · exact .inl ⟨_, gathered_of_empty ht hempty r missing⟩
  · have hrows : table.values.nrows = t.dates.length := congrArg Prod.fst ht.shape
    have hcols : table.values.ncols = t.sids.length := congrArg Prod.snd ht.shape
    rw [gather_eq hempty]
    by_cases hd : missing.dtype = table.values.dtype
    · have hr := (hrows ▸ inside_lastIndex? r.dates t.dates).getD (by omega)
      have hc := (hcols ▸ inside_lastIndex? r.sids t.sids).getD (by omega)
      obtain ⟨b, hb, hbd, hbs, hbv, hbn, hcell⟩ := masked_cellsIn ht.valid hd hr hc
      refine .inl ⟨b, hb, hbd.trans hd.symm, ?_, hbv, hbn, fun i j d sid hi hj => ?_⟩
      · rw [hbs, List.length_map, List.length_map]
        rfl
      · exact hcell i j _ _ (by rw [List.getElem?_map, hi]; rfl) (by rw [List.getElem?_map, hj]; rfl)
    · exact .inr ⟨hd, Block.whereMask_eq_error fun h => hd (h.trans dtype_cellsIn)⟩

/-- What a table tells of a column, where some days are asked for together. -/
def told (t : Tables) (c : Column) (table : Table) (dates : List Date) : Ledger :=
  ⟨c.missing.dtype, c.missing, fun d p sid =>
    Restatements.onValue (Restatements.seen table.restatements dates d p sid) (t.stored table c.missing d sid)⟩

/-- What tables tell of a column. -/
def ledger? (t : Tables) (dates : List Date) (c : Column) : Option Ledger :=
  (t.tables.get? (key c)).map fun table => t.told c table dates

/-- The restatements of a table become adjustments that its cells admit. -/
theorem validate_adjustments {shape : Nat × Nat} (ht : table.Sound shape) {dates : List Date} (hd : Ascending dates)
    {sids : List Sid} {b : Block} (hs : b.shape = (dates.length, sids.length)) (hb : b.dtype = table.values.dtype) :
    History.validate b (Restatements.adjustments table.restatements dates sids) = .ok () := by
  refine Checked.forM_eq_ok.2 fun a ha => ?_
  obtain ⟨x, hx, hxa⟩ := List.mem_filterMap.1 (Adjustments.mem_flat_ofList.1 ha)
  obtain ⟨key, a⟩ := a
  obtain ⟨hkey, hfits, hop⟩ := Restatement.adjustment?_fits hd hxa
  have hrows : b.nrows = dates.length := congrArg Prod.fst hs
  have hin : ¬(decide (b.nrows ≤ key) || !a.fits b.shape) = true := by
    rw [hs, hfits, hrows]
    simpa using hkey
  show (if (decide (b.nrows ≤ key) || !a.fits b.shape) = true then _ else _) = _
  rw [if_neg hin, hb]
  show a.op.checkDtype _ = _
  rw [hop]
  exact ht.dtype x hx

/-- The history of a table tells what the table does, unless the column is of another type. -/
theorem historyOf_spec (ht : table.Sound t.shape) (hd : Ascending r.dates) (hs : r.sids.Nodup) (c : Column) :
    (∃ h, t.historyOf table r c.missing = .ok h ∧ h.Tells r.dates r.sids (t.told c table r.dates) ∧
      (table.values.Distinct → h.block.Distinct)) ∨
    (c.missing.dtype ≠ table.values.dtype ∧ ∃ e, t.historyOf table r c.missing = .error e) := by
  have hkeyed : (table.restatements.filterMapM fun x => x.keyed? r.dates.toArray r.sids) =
      .ok (table.restatements.filterMap (·.adjustment? r.dates r.sids)) :=
    Checked.filterMapM_of_ok fun x hx => Restatement.keyed?_eq (ht.single x hx) r.dates r.sids
  unfold historyOf
  rcases gather_spec ht r c.missing with ⟨b, hb, hg⟩ | ⟨hdtype, e, he⟩
  · rw [hb, hkeyed]
    show (∃ h, History.mk? b (Restatements.adjustments table.restatements r.dates r.sids) c.missing = .ok h ∧ _) ∨
      (_ ∧ ∃ e, History.mk? b (Restatements.adjustments table.restatements r.dates r.sids) c.missing = .error e)
    have hmk : History.mk? b (Restatements.adjustments table.restatements r.dates r.sids) c.missing =
        History.validate b (Restatements.adjustments table.restatements r.dates r.sids) >>= fun _ =>
          .ok ⟨b, Restatements.adjustments table.restatements r.dates r.sids, c.missing⟩ := by
      unfold History.mk?
      rw [Block.expect_eq_ok.2 hg.dtype.symm]
      rfl
    rw [hmk]
    cases hv : History.validate b (Restatements.adjustments table.restatements r.dates r.sids) with
    | error e =>
      refine .inr ⟨fun hdtype => ?_, e, rfl⟩
      rw [validate_adjustments ht hd hg.shape (hg.dtype.trans hdtype)] at hv
      cases hv
    | ok u =>
      refine .inl ⟨_, rfl, ⟨hg.valid, hg.dtype, rfl, hg.shape, fun i q j d p sid _ hi hq hj => ?_⟩, hg.distinct⟩
      rw [History.cell?_eq (by exact hg.valid), show (History.mk b _ c.missing).block.get? i j = _ from
        hg.cell i j d sid hi hj, Option.map_some, Restatements.onCell_adjustments ht.single hd hs hi hq hj]
      rfl
  · rw [he]
    exact .inr ⟨hdtype, e, rfl⟩

/-! ## Answers -/

theorem key_eq {a b : Column} (h : (a == b) = true) : key a = key b := by
  have e : a.key = b.key := Column.same_iff.1 h
  simp only [Column.key, Prod.mk.injEq] at e
  rw [key, key, e.1, e.2.1]

/-- The history that is answered for a column. -/
def answer (t : Tables) (r : Request) (c : Column) : Except LoadError History :=
  match t.tables.get? (key c) with
  | none => .error (.noData c.qualifiedName)
  | some table => (t.historyOf table r c.missing).mapError .array

theorem load_eq (t : Tables) (r : Request) :
    t.load r = (r.columns.mapM (t.answer r)).map fun hs => Loaded.extend [] (r.columns.zip hs) := by
  have main (columns : List Column) (out : Loaded) :
      columns.foldlM (fun out c => t.answer r c >>= fun h => .ok (out.insert c h)) out =
        (columns.mapM (t.answer r)).map fun hs => out.extend (columns.zip hs) := by
    induction columns generalizing out with
    | nil => rfl
    | cons c columns ih =>
      rw [List.foldlM_cons, List.mapM_cons]
      cases t.answer r c with
      | error e => rfl
      | ok h =>
        refine (ih (out.insert c h)).trans ?_
        cases columns.mapM (t.answer r) <;> rfl
  rw [← main]
  unfold load
  congr
  funext out c
  unfold answer
  cases t.tables.get? (key c) <;> rfl

/-- The column has a table of another type. -/
def Misfit (t : Tables) (c : Column) : Prop :=
  ∃ table, t.tables.get? (key c) = some table ∧ c.missing.dtype ≠ table.values.dtype

/-- The tables as a loader. -/
def loader (t : Tables) (number : Nat) : Loader := ⟨number, t.load⟩

theorem answer_spec (ht : t.Sound) (hn : ∀ table ∈ t.tables.get? (key c), table.values.Distinct)
    (hd : Ascending r.dates) (hs : r.sids.Nodup) :
    (∃ k h, t.ledger? r.dates c = some k ∧ t.answer r c = .ok h ∧ h.Records r.dates r.sids k) ∨
    (t.ledger? r.dates c = none ∧ t.answer r c = .error (.noData c.qualifiedName)) ∨
    (t.Misfit c ∧ ∃ e, t.answer r c = .error (.array e)) := by
  unfold answer ledger?
  cases hg : t.tables.get? (key c) with
  | none => exact .inr (.inl ⟨rfl, rfl⟩)
  | some table =>
    rcases historyOf_spec (ht _ table hg) hd hs c with ⟨h, hh, htells, hdist⟩ | ⟨hmis, e, he⟩
    · refine .inl ⟨_, h, rfl, ?_, htells, hdist (hn table hg)⟩
      simp only [hh]
      rfl
    · refine .inr (.inr ⟨⟨table, hg, hmis⟩, e, ?_⟩)
      simp only [he]
      rfl

/-- An answer holds the histories of the requested columns. -/
theorem load_eq_ok (hr : r.Regular) {m : Loaded} (h : t.load r = .ok m) :
    m.Apart ∧ (∀ x ∈ m, ∃ c ∈ r.columns, (x.1 == c) = true) ∧
      ∀ c ∈ r.columns, ∃ h, m.get? c = some h ∧ t.answer r c = .ok h := by
  rw [load_eq] at h
  cases hm : r.columns.mapM (t.answer r) with
  | error e =>
    rw [hm] at h
    cases h
  | ok hs =>
    rw [hm] at h
    obtain rfl := Except.ok.inj h
    have hall := Checked.mapM_eq_ok.1 hm
    have hkeys : (r.columns.zip hs).map (·.1) = r.columns := List.map_fst_zip (Nat.le_of_eq hall.length_eq)
    have hzip : Loaded.Apart (r.columns.zip hs) := by
      have := hr.columns
      rw [← hkeys, List.pairwise_map] at this
      exact this
    refine ⟨Loaded.Apart.extend .nil hzip fun x _ y hy => absurd hy List.not_mem_nil, fun x hx => ?_, fun c hc => ?_⟩
    · rcases Loaded.mem_extend hx with ⟨y, hy, he⟩ | hx
      · exact ⟨y.1, (List.of_mem_zip hy).1, he⟩
      · exact absurd hx List.not_mem_nil
    · obtain ⟨⟨c, h⟩, hx, rfl⟩ := List.mem_map.1 (hkeys.symm ▸ hc)
      refine ⟨h, ?_, (List.forall₂_iff_zip.1 hall).2 hx⟩
      rw [Loaded.get?_extend [] hzip, hzip.get?_of_mem hx]
      rfl

/-- A request is refused for one of its columns. -/
theorem load_eq_error {e : LoadError} (h : t.load r = .error e) : ∃ c ∈ r.columns, t.answer r c = .error e := by
  rw [load_eq] at h
  cases hm : r.columns.mapM (t.answer r) with
  | error e' =>
    rw [hm] at h
    exact Checked.exists_of_mapM_error (hm.trans (congrArg _ (Except.error.inj h)))
  | ok hs =>
    rw [hm] at h
    cases h

/-- Tables without two codes for one label answer every regular request. -/
theorem answers (ht : t.Sound) (hn : ∀ c ∈ r.columns, ∀ table ∈ t.tables.get? (key c), table.values.Distinct)
    (hr : r.Regular) (number : Nat) :
    (t.loader number).Answers (t.ledger? r.dates) (∃ c ∈ r.columns, t.Misfit c) r := by
  have hspec (c : Column) (hc : c ∈ r.columns) := answer_spec ht (hn c hc) hr.dates hr.sids
  cases hload : t.load r with
  | error e =>
    obtain ⟨c, hc, he⟩ := load_eq_error hload
    rcases hspec c hc with ⟨k, h, -, hok, -⟩ | ⟨hnone, hno⟩ | ⟨hmis, e', harray⟩
    · rw [hok] at he
      cases he
    · obtain rfl := Except.error.inj (hno.symm.trans he)
      refine .inl ⟨fun hall => ?_, fun _ => ⟨_, hload⟩⟩
      have := hall c hc
      rw [hnone] at this
      cases this
    · obtain rfl := Except.error.inj (harray.symm.trans he)
      exact .inr ⟨⟨c, hc, hmis⟩, _, hload, by rintro name ⟨⟩⟩
  | ok m =>
    obtain ⟨hm, hkeys, hget⟩ := load_eq_ok hr hload
    refine .inl ⟨fun _ => ⟨m, hload, hm, hkeys, fun c hc k hk => ?_⟩, fun ⟨c, hc, hno⟩ => ?_⟩
    · obtain ⟨h, hh, hok⟩ := hget c hc
      rcases hspec c hc with ⟨k', h', hk', hok', hrec⟩ | ⟨hnone, -⟩ | ⟨-, e, he⟩
      · obtain rfl := Option.some.inj (hk'.symm.trans hk)
        obtain rfl := Except.ok.inj (hok'.symm.trans hok)
        exact ⟨h', hh, hrec⟩
      · rw [hnone] at hk
        cases hk
      · rw [he] at hok
        cases hok
    · obtain ⟨h, -, hok⟩ := hget c hc
      rcases hspec c hc with ⟨k, h, hk, -⟩ | ⟨-, hno'⟩ | ⟨-, e, he⟩
      · rw [hno] at hk
        cases hk
      · rw [hno'] at hok
        cases hok
      · rw [he] at hok
        cases hok

end Tables
end AsOf
