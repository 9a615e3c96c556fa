import AsOf.Loader.Frame
import AsOf.Proofs.Loader.Apart

/-!
# What a baseline puts into a table

A baseline has its observations one under the other, each with a day, an asset and a value. A table
of any type but labels keeps for every cell the last value that was observed for it, passes over
nulls, and has the missing value of its column where nothing was observed. Labels are put down one
by one instead: a null takes away the label that an earlier row has put down, and where nothing
was observed there is no label, also in a column that names one for what is missing.

* `Tables.dense_eq`: the table of a column is made of the observations alone.
* `Tables.get?_pivot`, `Tables.get?_pivotLabels`: numbers and labels, cell by cell.
* `Tables.baseline_pivots`: what is kept of a baseline.
* `Tables.null_takes_label`: a label that is taken away again.
-/
namespace AsOf

/-- A row of a baseline, as the table of a column reads it. -/
structure Observation where
  date : Option Date
  sid : Option Sid
  value : Option Scalar

namespace Observation

/-- Rows out of columns. -/
def ofColumns (dates : List (Option Date)) (sids : List (Option Sid)) (values : List (Option Scalar)) :
    List Observation :=
  (dates.zip (sids.zip values)).map fun (date, sid, value) => { date, sid, value }

/-- The row has the day and the asset. -/
def concerns (x : Observation) (d : Date) (sid : Sid) : Bool := x.date == some d && x.sid == some sid

/-- The last value that is observed for an asset on a day. -/
def last? (xs : List Observation) (d : Date) (sid : Sid) : Option Scalar :=
  ((xs.filter (·.concerns d sid)).filterMap (·.value)).getLast?

/-- The value of the last row for an asset on a day, which may be a null. -/
def newest? (xs : List Observation) (d : Date) (sid : Sid) : Option Scalar :=
  (xs.filter (·.concerns d sid)).getLast?.bind (·.value)

end Observation

/-- The cells of a column of a frame, read as cells of a type. -/
def Series.readings (s : Series) : Dtype → Except SourceFault (List (Option Scalar))
  | .float64 => .ok (s.toFloats.map (·.map .float))
  | .int64 => .ok (s.toInts.map (·.map .int))
  | .datetime => .ok (s.toInts.map (·.map .time))
  | .bool => do return (← s.toBools).map (·.map .bool)
  | .categorical => .ok (s.toTexts.map (·.map fun text => .label (some text)))

namespace Tables

variable {t t' : Tables} {c : Column} {f : Frame} {xs : List Observation} {i j : Nat}

/-- The rows of a baseline, as the table of a column reads them. -/
def observations (c : Column) (f : Frame) : Except SourceFault (List Observation) := do
  let dates := (← f.column? "date").toDates
  let sids := (← f.column? "sid").toSids
  return Observation.ofColumns dates sids (← (← f.column? "value").readings c.dtype)

/-- The place of an observation; none off the axes. -/
def place? (t : Tables) (x : Observation) : Option (Nat × Nat) := do
  return (← lastIndex? (← x.date) t.dates, ← lastIndex? (← x.sid) t.sids)

/-- The table that some observations make for a column. -/
def blockOf (t : Tables) (c : Column) (xs : List Observation) : Block :=
  let places := xs.map t.place?
  match c.dtype with
  | .float64 => .floats (t.pivot (c.missing.asFloat?.getD nan) places (xs.map (·.value.bind Scalar.asFloat?)))
  | .int64 => .ints (t.pivot (c.missing.asInt?.getD 0) places (xs.map (·.value.bind Scalar.asInt?)))
  | .datetime => .times (t.pivot (c.missing.asInt?.getD 0) places (xs.map (·.value.bind Scalar.asInt?)))
  | .bool => .bools (t.pivot (c.missing.asBool?.getD false) places (xs.map (·.value.bind Scalar.asBool?)))
  | .categorical => .labels (t.pivotLabels places (xs.map (·.value.bind Scalar.asLabel?)))

/-! ## Observations -/

/-- What is put into a table is read off the rows. -/
theorem zip_places {α : Type} (make : α → Scalar) (read : Scalar → Option α) (hread : ∀ v, read (make v) = some v)
    (t : Tables) (dates : List (Option Date)) (sids : List (Option Sid)) (values : List (Option α)) :
    (t.places dates sids).zip values =
      ((Observation.ofColumns dates sids (values.map (·.map make))).map t.place?).zip
        ((Observation.ofColumns dates sids (values.map (·.map make))).map (·.value.bind read)) := by
  rw [List.zip_map']
  induction dates generalizing sids values with
  | nil => rfl
  | cons date dates ih =>
    cases sids with
    | nil => rfl
    | cons sid sids =>
      cases values with
      | nil => rfl
      | cons value values =>
        refine congrArg₂ List.cons (Prod.ext rfl ?_) (ih sids values)
        cases value with
        | none => rfl
        | some v => exact (hread v).symm

theorem pivot_ofColumns {α : Type} (make : α → Scalar) (read : Scalar → Option α) (hread : ∀ v, read (make v) = some v)
    (t : Tables) (fill : α) (dates : List (Option Date)) (sids : List (Option Sid)) (values : List (Option α)) :
    t.pivot fill (t.places dates sids) values =
      t.pivot fill ((Observation.ofColumns dates sids (values.map (·.map make))).map t.place?)
        ((Observation.ofColumns dates sids (values.map (·.map make))).map (·.value.bind read)) := by
  rw [pivot, pivot, zip_places make read hread]

/-- The table of a column is made of the observations alone. -/
theorem dense_eq (t : Tables) (c : Column) (f : Frame) : t.dense c f = (observations c f).map (t.blockOf c) := by
  unfold dense observations
  cases f.column? "date" with
  | error e => rfl
  | ok date =>
    cases f.column? "sid" with
    | error e => rfl
    | ok sid =>
      cases f.column? "value" with
      | error e => rfl
      | ok value =>
        have hblock : t.blockOf c = fun xs => t.blockOf c xs := rfl
        rw [hblock]
        simp only [blockOf, Series.readings]
        cases c.dtype with
        | float64 =>
          exact congrArg (Except.ok <| Block.floats ·)
            (pivot_ofColumns .float Scalar.asFloat? (fun _ => rfl) ..)
        | int64 =>
          exact congrArg (Except.ok <| Block.ints ·)
            (pivot_ofColumns .int Scalar.asInt? (fun _ => rfl) ..)
        | datetime =>
          exact congrArg (Except.ok <| Block.times ·)
            (pivot_ofColumns .time Scalar.asInt? (fun _ => rfl) ..)
        | bool =>
          show value.toBools >>= _ = Except.map _ ((value.toBools >>= fun bools => .ok (bools.map (·.map Scalar.bool))) >>= _)
          cases value.toBools with
          | error e => rfl
          | ok bools =>
            exact congrArg (Except.ok <| Block.bools ·)
              (pivot_ofColumns .bool Scalar.asBool? (fun _ => rfl) ..)
        | categorical =>
          refine congrArg (Except.ok <| Block.labels ·) ?_
          rw [pivotLabels, pivotLabels, zip_places (fun text => .label (some text)) Scalar.asLabel?
            fun _ => rfl]

/-- Every value has the type of the column. -/
def Typed (d : Dtype) (xs : List Observation) : Prop := ∀ x ∈ xs, ∀ v ∈ x.value, v.dtype = d

theorem typed_readings {s : Series} {d : Dtype} {values : List (Option Scalar)} (h : s.readings d = .ok values) :
    ∀ value ∈ values, ∀ v ∈ value, v.dtype = d := by
  have main {α : Type} (make : α → Scalar) (hd : ∀ a, (make a).dtype = d) (cells : List (Option α)) :
      ∀ value ∈ cells.map (·.map make), ∀ v ∈ value, v.dtype = d := by
    intro value hvalue v hv
    obtain ⟨cell, -, rfl⟩ := List.mem_map.1 hvalue
    obtain ⟨a, -, rfl⟩ := Option.map_eq_some_iff.1 hv
    exact hd a
  cases d with
  | bool =>
    obtain ⟨bools, -, h⟩ := Checked.bind_eq_ok.1 h
    exact Except.ok.inj h ▸ main .bool (fun _ => rfl) bools
  | float64 => exact Except.ok.inj h ▸ main .float (fun _ => rfl) _
  | int64 => exact Except.ok.inj h ▸ main .int (fun _ => rfl) _
  | datetime => exact Except.ok.inj h ▸ main .time (fun _ => rfl) _
  | categorical => exact Except.ok.inj h ▸ main (fun text => .label (some text)) (fun _ => rfl) _

theorem typed_observations (h : observations c f = .ok xs) : Typed c.dtype xs := by
  obtain ⟨date, -, h⟩ := Checked.bind_eq_ok.1 h
  obtain ⟨sid, -, h⟩ := Checked.bind_eq_ok.1 h
  obtain ⟨value, -, h⟩ := Checked.bind_eq_ok.1 h
  obtain ⟨values, hvalues, h⟩ := Checked.bind_eq_ok.1 h
  obtain rfl := Except.ok.inj h
  intro x hx
  obtain ⟨⟨date, sid, value⟩, hmem, rfl⟩ := List.mem_map.1 hx
  exact typed_readings hvalues value (List.of_mem_zip (List.of_mem_zip hmem).2).2

/-! ## Cells -/

/-- The rows whose place is a cell. -/
def rowsAt (t : Tables) (xs : List Observation) (i j : Nat) : List Observation :=
  xs.filter fun x => t.place? x == some (i, j)

theorem place?_eq_some {x : Observation} : t.place? x = some (i, j) ↔ ∃ d sid, x.date = some d ∧ x.sid = some sid ∧
    lastIndex? d t.dates = some i ∧ lastIndex? sid t.sids = some j := by
  constructor
  · intro h
    obtain ⟨d, hdate, h⟩ := Option.bind_eq_some_iff.1 h
    obtain ⟨row, hrow, h⟩ := Option.bind_eq_some_iff.1 h
    obtain ⟨sid, hsid, h⟩ := Option.bind_eq_some_iff.1 h
    obtain ⟨col, hcol, h⟩ := Option.bind_eq_some_iff.1 h
    obtain ⟨rfl, rfl⟩ := Prod.mk.inj (Option.some.inj h)
    exact ⟨d, sid, hdate, hsid, hrow, hcol⟩
  · rintro ⟨d, sid, hdate, hsid, hrow, hcol⟩
    simp only [place?, hdate, hsid, hrow, hcol, Option.bind_eq_bind, Option.bind_some]
    rfl

theorem rowsAt_eq {d : Date} {sid : Sid} (hd : lastIndex? d t.dates = some i) (hs : lastIndex? sid t.sids = some j)
    (xs : List Observation) : t.rowsAt xs i j = xs.filter (·.concerns d sid) := by
  refine List.filter_congr fun x _ => ?_
  rw [Bool.eq_iff_iff, beq_iff_eq, place?_eq_some, Observation.concerns, Bool.and_eq_true, beq_iff_eq, beq_iff_eq]
  constructor
  · rintro ⟨d', sid', hdate, hsid, hd', hs'⟩
    -- one place has one day and one asset
    rw [hdate, hsid, ← getElem?_of_lastIndex? hd', ← getElem?_of_lastIndex? hs']
    exact ⟨getElem?_of_lastIndex? hd, getElem?_of_lastIndex? hs⟩
  · exact fun ⟨hdate, hsid⟩ => ⟨d, sid, hdate, hsid, hd, hs⟩

/-- Of the items under a key the last is found first from behind. -/
theorem lookup_reverse {α β : Type} [BEq α] (items : List (α × β)) (key : α) :
    items.reverse.lookup key = (items.filterMap fun x => if key == x.1 then some x.2 else none).getLast? := by
  rw [List.lookup_eq_findSome?, List.getLast?_filterMap]

/-- A value with its place, if there are both. -/
def placed? {α : Type} (x : Option (Nat × Nat) × Option α) : Option ((Nat × Nat) × α) :=
  x.1.bind fun place => x.2.map (place, ·)

theorem pivot_eq {α : Type} (t : Tables) (fill : α) (places : List (Option (Nat × Nat))) (values : List (Option α)) :
    t.pivot fill places values = .ofFn t.shape.1 t.shape.2 fun i j =>
      (((places.zip values).filterMap placed?).reverse.lookup (i.val, j.val)).getD fill := by
  rw [← List.filterMap_reverse]
  refine congrArg (fun cells : List ((Nat × Nat) × α) => Grid.ofFn t.shape.1 t.shape.2 fun i j =>
    (cells.lookup (i.val, j.val)).getD fill) (List.filterMap_congr fun x _ => ?_)
  obtain ⟨place, v⟩ := x
  cases place with
  | none => rfl
  | some place => cases v <;> rfl

/-- Of the values for one cell the last that is not a null is kept. -/
theorem map_get?_pivot {α : Type} {make : α → Scalar} {read : Scalar → Option α}
    (hread : ∀ x ∈ xs, (x.value.bind read).map make = x.value) (t : Tables) (fill : α) (i j : Nat) :
    ((t.pivot fill (xs.map t.place?) (xs.map (·.value.bind read))).get? i j).map make =
      if i < t.dates.length ∧ j < t.sids.length then
        some ((((t.rowsAt xs i j).filterMap (·.value)).getLast?).getD (make fill))
      else none := by
  have hrows : (t.rowsAt xs i j).filterMap (·.value) = (((xs.map fun x => (t.place? x, x.value.bind read)).filterMap
      placed?).filterMap fun x => if (i, j) == x.1 then some x.2 else none).map make := by
    rw [rowsAt, List.filterMap_filter, List.map_filterMap, List.filterMap_filterMap, List.filterMap_map]
    refine List.filterMap_congr fun x hx => ?_
    have hvalue := hread x hx
    dsimp only [Function.comp_apply, placed?]
    generalize x.value.bind read = cell at hvalue ⊢
    rw [← hvalue]
    cases t.place? x with
    | none => simp
    | some place =>
      cases cell with
      | none => simp
      | some v => by_cases hij : place = (i, j) <;> simp [hij, Ne.symm]
  rw [pivot_eq, List.zip_map', Grid.get?_ofFn]
  simp only [lookup_reverse]
  rw [hrows, List.getLast?_map, Option.getD_map]
  show Option.map make (if h : i < t.dates.length ∧ j < t.sids.length then _ else none) = _
  split <;> rfl

/-- Puts down the label of a row; a null takes the label of its cell away. -/
def putLabel (t : Tables) (a : Labels) (x : Observation) : Labels :=
  match t.place? x with
  | some (row, col) => a.set row col (x.value.bind Scalar.asLabel?)
  | none => a

theorem pivotLabels_eq (t : Tables) (xs : List Observation) :
    t.pivotLabels (xs.map t.place?) (xs.map (·.value.bind Scalar.asLabel?)) =
      xs.foldl t.putLabel (.missing t.shape) := by
  rw [pivotLabels, List.zip_map', List.foldl_map]
  rfl

/-- Of the labels for one cell the last is kept, and a null is none. -/
theorem foldl_putLabel (t : Tables) {a : Labels} (ha : a.Valid) (xs : List Observation) :
    (xs.foldl t.putLabel a).Valid ∧ (xs.foldl t.putLabel a).shape = a.shape ∧
      ∀ i j, (xs.foldl t.putLabel a).toLabels.get? i j = (a.toLabels.get? i j).map fun old =>
        ((t.rowsAt xs i j).getLast?.map fun x => x.value.bind Scalar.asLabel?).getD old := by
  induction xs generalizing a with
  | nil => exact ⟨ha, rfl, fun i j => Option.map_id'.symm⟩
  | cons x xs ih =>
    have hput : (t.putLabel a x).Valid ∧ (t.putLabel a x).shape = a.shape ∧
        ∀ i j, (t.putLabel a x).toLabels.get? i j = (a.toLabels.get? i j).map fun old =>
          if t.place? x == some (i, j) then x.value.bind Scalar.asLabel? else old := by
      unfold putLabel
      cases hp : t.place? x with
      | none => exact ⟨ha, rfl, fun i j => Option.map_id'.symm⟩
      | some place =>
        refine ⟨Labels.valid_fillWhere ha _ _, rfl, fun i j => ?_⟩
        show (a.fillWhere _ _).toLabels.get? i j = _
        rw [Labels.toLabels_fillWhere ha, Grid.get?_mapIdx]
        refine congrArg (Option.map · _) (funext fun old => ?_)
        obtain ⟨row, col⟩ := place
        rw [show (i == row && j == col) = (some (row, col) == some (i, j)) by grind]
    obtain ⟨hvalid, hshape, hcell⟩ := ih hput.1
    refine ⟨hvalid, hshape.trans hput.2.1, fun i j => ?_⟩
    rw [List.foldl_cons, hcell, hput.2.2, Option.map_map]
    refine congrArg (Option.map · _) (funext fun old => ?_)
    rw [Function.comp_apply, rowsAt, rowsAt, List.filter_cons]
    split
    · rw [List.getLast?_cons]
      cases (xs.filter _).getLast? <;> rfl
    · rfl

/-! ## Tables -/

/-- What is kept for a cell of the rows that are its: the last value that is there, or for labels
what the last row says. -/
def kept (c : Column) (rows : List Observation) : Scalar :=
  if c.dtype = .categorical then (rows.getLast?.bind (·.value)).getD (.label none)
  else ((rows.filterMap (·.value)).getLast?).getD c.missing

/-- A table of numbers or truth values keeps what it is to keep. -/
theorem pivot_kept {α : Type} (make : α → Scalar) (read : Scalar → Option α) (hd : c.dtype ≠ .categorical)
    (hread : ∀ v : Scalar, v.dtype = c.dtype → (read v).map make = some v) (hx : Typed c.dtype xs)
    (hm : c.missing.dtype = c.dtype) (default : α) (t : Tables) (i j : Nat) :
    ((t.pivot ((read c.missing).getD default) (xs.map t.place?) (xs.map (·.value.bind read))).get? i j).map make =
      if i < t.dates.length ∧ j < t.sids.length then some (kept c (t.rowsAt xs i j)) else none := by
  have hrows : ∀ x ∈ xs, (x.value.bind read).map make = x.value := by
    intro x hmem
    cases hv : x.value with
    | none => rfl
    | some v => exact hread v (hx x hmem v hv)
  obtain ⟨fill, hfill, hmake⟩ := Option.map_eq_some_iff.1 (hread c.missing hm)
  rw [map_get?_pivot hrows, hfill, Option.getD_some, hmake, kept, if_neg hd]

/-- A table of labels keeps what it is to keep. -/
theorem labels_kept (hd : c.dtype = .categorical) (hx : Typed c.dtype xs) (t : Tables) (i j : Nat) :
    (Block.labels (t.pivotLabels (xs.map t.place?) (xs.map (·.value.bind Scalar.asLabel?)))).get? i j =
      if i < t.dates.length ∧ j < t.sids.length then some (kept c (t.rowsAt xs i j)) else none := by
  obtain ⟨-, -, hcell⟩ := foldl_putLabel t (Block.labels_missing_valid t.shape) xs
  rw [← pivotLabels_eq] at hcell
  have hget (a : Labels) : (Block.labels a).get? i j = (a.toLabels.get? i j).map .label := by
    rw [Labels.toLabels, Grid.get?_map, Option.map_map]
    rfl
  rw [hget, hcell, Block.toLabels_missing, Grid.get?_replicate, kept, if_pos hd]
  show Option.map _ (Option.map _ (if i < t.dates.length ∧ j < t.sids.length then _ else _)) = _
  split
  · refine congrArg some ?_
    cases hlast : (t.rowsAt xs i j).getLast? with
    | none => rfl
    | some x =>
      have hmem : x ∈ xs := List.mem_of_mem_filter (List.mem_of_getLast? hlast)
      cases hv : x.value with
      | none => simp [hv]
      | some v =>
        have hlabel := hx x hmem v hv
        rw [hd] at hlabel
        cases v with
        | label l => simp [hv, Scalar.asLabel?]
        | _ => cases hlabel
  · rfl

theorem dtype_blockOf (t : Tables) (c : Column) (xs : List Observation) : (t.blockOf c xs).dtype = c.dtype := by
  unfold blockOf
  cases c.dtype <;> rfl

theorem valid_blockOf (t : Tables) (c : Column) (xs : List Observation) :
    (t.blockOf c xs).shape = t.shape ∧ (t.blockOf c xs).Valid := by
  unfold blockOf
  cases c.dtype with
  | categorical =>
    obtain ⟨hvalid, hshape, -⟩ := foldl_putLabel t (Block.labels_missing_valid t.shape) xs
    rw [← pivotLabels_eq] at hvalid hshape
    exact ⟨hshape, hvalid⟩
  | _ => exact ⟨rfl, trivial⟩

theorem get?_blockOf (hx : Typed c.dtype xs) (hm : c.missing.dtype = c.dtype) (t : Tables) (i j : Nat) :
    (t.blockOf c xs).get? i j =
      if i < t.dates.length ∧ j < t.sids.length then some (kept c (t.rowsAt xs i j)) else none := by
  unfold blockOf
  cases hd : c.dtype with
  | float64 =>
    refine pivot_kept .float Scalar.asFloat? (by simp [hd]) (fun v hv => ?_) hx hm nan t i j
    rw [hd] at hv
    cases v <;> first | rfl | cases hv
  | int64 =>
    refine pivot_kept .int Scalar.asInt? (by simp [hd]) (fun v hv => ?_) hx hm 0 t i j
    rw [hd] at hv
    cases v <;> first | rfl | cases hv
  | bool =>
    refine pivot_kept .bool Scalar.asBool? (by simp [hd]) (fun v hv => ?_) hx hm false t i j
    rw [hd] at hv
    cases v <;> first | rfl | cases hv
  | datetime =>
    refine pivot_kept .time Scalar.asInt? (by simp [hd]) (fun v hv => ?_) hx hm 0 t i j
    rw [hd] at hv
    cases v <;> first | rfl | cases hv
  | categorical => exact labels_kept hd hx t i j

/-- Observations are added if they can be read and the missing value is of the column's type. -/
theorem addFrame_eq_ok : t.addFrame c f = .ok t' ↔ ∃ xs, observations c f = .ok xs ∧ c.missing.dtype = c.dtype ∧
    t.addColumn c (t.blockOf c xs) = .ok t' := by
  unfold addFrame
  rw [dense_eq, Checked.bind_eq_ok]
  constructor
  · rintro ⟨values, hvalues, hadd⟩
    obtain ⟨xs, hxs, rfl⟩ := Checked.map_eq_ok.1 (Checked.mapError_eq_ok.1 hvalues)
    exact ⟨xs, hxs, (addColumn_eq_ok.1 hadd).2.1.trans (dtype_blockOf ..), hadd⟩
  · rintro ⟨xs, hxs, -, hadd⟩
    exact ⟨_, Checked.mapError_eq_ok.2 (Checked.map_eq_ok.2 ⟨xs, hxs, rfl⟩), hadd⟩

/-- Whether a row has a place. -/
def onAxes (t : Tables) (x : Observation) : Bool := (t.place? x).isSome

theorem pivot_filter {α : Type} (t : Tables) (fill : α) (value : Observation → Option α) (xs : List Observation) :
    t.pivot fill ((xs.filter t.onAxes).map t.place?) ((xs.filter t.onAxes).map value) =
      t.pivot fill (xs.map t.place?) (xs.map value) := by
  have hcells : ((xs.filter t.onAxes).map fun x => (t.place? x, value x)).filterMap placed? =
      (xs.map fun x => (t.place? x, value x)).filterMap placed? := by
    rw [List.filterMap_map, List.filterMap_map, List.filterMap_filter]
    refine List.filterMap_congr fun x _ => ?_
    unfold onAxes
    rw [Function.comp_apply, placed?]
    cases t.place? x <;> rfl
  rw [pivot_eq, pivot_eq, List.zip_map', List.zip_map', hcells]

/-- Rows off the axes have no part in a table. -/
theorem blockOf_filter (t : Tables) (c : Column) (xs : List Observation) :
    t.blockOf c (xs.filter t.onAxes) = t.blockOf c xs := by
  unfold blockOf
  cases c.dtype with
  | categorical =>
    refine congrArg Block.labels ?_
    rw [pivotLabels_eq, pivotLabels_eq, List.foldl_filter]
    congr
    funext a x
    unfold onAxes putLabel
    cases t.place? x <;> rfl
  | float64 => exact congrArg Block.floats (pivot_filter ..)
  | int64 => exact congrArg Block.ints (pivot_filter ..)
  | datetime => exact congrArg Block.times (pivot_filter ..)
  | bool => exact congrArg Block.bools (pivot_filter ..)

/-- Where there is a value in every row, the last row says what the last value is. -/
theorem newest?_eq_last? {d : Date} {sid : Sid} (h : ∀ x ∈ xs, x.concerns d sid = true → x.value.isSome = true) :
    Observation.newest? xs d sid = Observation.last? xs d sid := by
  unfold Observation.newest? Observation.last?
  have hrows : ∀ x ∈ xs.filter (·.concerns d sid), x.value.isSome = true := fun x hx =>
    h x (List.mem_of_mem_filter hx) (List.mem_filter.1 hx).2
  rw [List.getLast?_filterMap, ← List.head?_reverse]
  cases hr : (xs.filter (·.concerns d sid)).reverse with
  | nil => rfl
  | cons x rest =>
    obtain ⟨v, hv⟩ := Option.isSome_iff_exists.1 (hrows x (List.mem_reverse.1 (hr ▸ List.mem_cons_self)))
    rw [List.head?_cons, Option.bind_some, List.findSome?_cons, hv]

/-- What is kept of a baseline. A cell holds the last value that is observed for its day and asset,
nulls passed over, and the missing value of the column if there is none. A cell of labels does so if
no row for it is a null, and if something is observed or the column names no label for what is
missing; in any case it holds what the last row for it says, and no label if that is a null or there
is none. Nothing else is changed, and rows without a day or an asset of the axes have no part in it. -/
theorem baseline_pivots (h : t.addFrame c f = .ok t') : ∃ xs values, observations c f = .ok xs ∧
    t'.tables.get? (key c) = some ⟨values, []⟩ ∧ values.dtype = c.dtype ∧ values.shape = t.shape ∧
    (∀ c', key c' ≠ key c → Keeps t t' c') ∧ (t.Reached → t'.Reached) ∧
    (∀ d sid i j, lastIndex? d t.dates = some i → lastIndex? sid t.sids = some j →
      ((c.dtype = .categorical → (∀ x ∈ xs, x.concerns d sid = true → x.value.isSome = true) ∧
          (c.missing = .label none ∨ (Observation.last? xs d sid).isSome = true)) →
        values.get? i j = some ((Observation.last? xs d sid).getD c.missing)) ∧
      (c.dtype = .categorical → values.get? i j = some ((Observation.newest? xs d sid).getD (.label none)))) ∧
    (∀ i j, i < t.dates.length → j < t.sids.length →
      (∀ d sid, ¬(lastIndex? d t.dates = some i ∧ lastIndex? sid t.sids = some j)) →
      values.get? i j = some (if c.dtype = .categorical then .label none else c.missing)) ∧
    ∀ f' xs', observations c f' = .ok xs' → xs'.filter t.onAxes = xs.filter t.onAxes → t.addFrame c f' = .ok t' := by
  obtain ⟨xs, hxs, hm, hadd⟩ := addFrame_eq_ok.1 h
  have hcell := get?_blockOf (typed_observations hxs) hm t
  obtain ⟨hshape, hvalid⟩ := valid_blockOf t c xs
  have htable : t'.tables.get? (key c) = some ⟨t.blockOf c xs, []⟩ := by
    obtain ⟨-, -, rfl⟩ := addColumn_eq_ok.1 hadd
    exact (Named.get?_insert ..).trans (if_pos rfl)
  refine ⟨xs, t.blockOf c xs, hxs, htable, dtype_blockOf .., hshape, fun c' hc => .addColumn hc hadd,
    fun ht => .addColumn ht hvalid hadd, fun d sid i j hi hj => ?_, fun i j hi hj hnone => ?_, fun f' xs' hxs' hsame => ?_⟩
  · rw [hcell, if_pos ⟨lastIndex?_lt hi, lastIndex?_lt hj⟩, rowsAt_eq hi hj, kept]
    refine ⟨fun hlast => ?_, fun hd => by rw [if_pos hd]; rfl⟩
    split
    · rename_i hd
      obtain ⟨hvalues, hmissing⟩ := hlast hd
      refine congrArg some ((congrArg (Option.getD · _) (newest?_eq_last? hvalues)).trans ?_)
      rcases hmissing with hmissing | hsome
      · rw [hmissing]
      · obtain ⟨v, hv⟩ := Option.isSome_iff_exists.1 hsome
        rw [hv]
        rfl
    · rfl
  · have hrows : t.rowsAt xs i j = [] := by
      refine List.filter_eq_nil_iff.2 fun x _ hx => ?_
      obtain ⟨d, sid, -, -, hplace⟩ := place?_eq_some.1 (beq_iff_eq.1 hx)
      exact hnone d sid hplace
    rw [hcell, if_pos ⟨hi, hj⟩, hrows]
    rfl
  · refine addFrame_eq_ok.2 ⟨xs', hxs', hm, ?_⟩
    rw [← blockOf_filter, hsame, blockOf_filter]
    exact hadd

/-! Rates, and labels with a null behind them. -/

/-- Two rates and a null for one asset and a null for another, among rows without a place. -/
def ratesFrame : Frame where
  columns := [("date", .texts [some "1970-01-02", some "1970-01-02", some "1970-01-02", some "soon", some "1970-01-02"]),
    ("sid", .ints [some 1, some 1, some 1, some 1, some 9]), ("value", .ints [some 5, some 6, none, some 7, some 8])]

theorem observations_ratesFrame : observations rate ratesFrame = .ok [⟨some ⟨1⟩, some ⟨1⟩, some (.int 5)⟩,
    ⟨some ⟨1⟩, some ⟨1⟩, some (.int 6)⟩, ⟨some ⟨1⟩, some ⟨1⟩, none⟩, ⟨none, some ⟨1⟩, some (.int 7)⟩,
    ⟨some ⟨1⟩, some ⟨9⟩, some (.int 8)⟩] := by
  have hdates : (Series.texts [some "1970-01-02", some "1970-01-02", some "1970-01-02", some "soon",
      some "1970-01-02"]).toDates = [some ⟨1⟩, some ⟨1⟩, some ⟨1⟩, none, some ⟨1⟩] := by
    decide +kernel
  have hsids : (Series.ints [some 1, some 1, some 1, some 1, some 9]).toSids =
      [some ⟨1⟩, some ⟨1⟩, some ⟨1⟩, some ⟨1⟩, some ⟨9⟩] := by
    decide +kernel
  have hvalues : (Series.ints [some 5, some 6, none, some 7, some 8]).toInts =
      [some 5, some 6, none, some 7, some 8] := by
    decide +kernel
  show Except.ok (Observation.ofColumns _ _ (List.map _ _)) = _
  rw [hdates, hsids, hvalues]
  rfl

theorem baseline_pivots_rates : ∃ t values, (rates [rateKnown 5 ⟨1⟩]).addFrame rate ratesFrame = .ok t ∧
    t.tables.get? "Rates.rate" = some ⟨values, []⟩ ∧ values.get? 1 0 = some (.int 6) ∧
    values.get? 2 0 = some (.int 0) := by
  obtain ⟨t, ht⟩ : ∃ t, (rates [rateKnown 5 ⟨1⟩]).addFrame rate ratesFrame = .ok t :=
    ⟨_, addFrame_eq_ok.2 ⟨_, observations_ratesFrame, rfl, rfl⟩⟩
  obtain ⟨xs, values, hxs, htable, -, -, -, -, hcells, -⟩ := baseline_pivots ht
  obtain rfl := Except.ok.inj (observations_ratesFrame.symm.trans hxs)
  exact ⟨t, values, ht, htable, (hcells ⟨1⟩ ⟨1⟩ 1 0 rfl rfl).1 nofun, (hcells ⟨2⟩ ⟨1⟩ 2 0 rfl rfl).1 nofun⟩

/-- A column of labels that names one for what is missing. -/
def sector : Column := ⟨"Sectors", "sector", .categorical, .label (some "none"), .generic⟩

/-- A label for one asset, and then a null. -/
def sectorFrame : Frame where
  columns := [("date", .texts [some "1970-01-02", some "1970-01-02"]), ("sid", .ints [some 1, some 1]),
    ("value", .texts [some "energy", none])]

/-- A label is the last value that was observed for an asset, and is not kept for the null behind
it. Nothing was observed for another asset, and the label for what is missing is not kept for it. -/
theorem null_takes_label : ∃ t xs values, (ofAxes [⟨1⟩] [⟨1⟩, ⟨2⟩]).addFrame sector sectorFrame = .ok t ∧
    observations sector sectorFrame = .ok xs ∧ t.tables.get? "Sectors.sector" = some ⟨values, []⟩ ∧
    Observation.last? xs ⟨1⟩ ⟨1⟩ = some (.label (some "energy")) ∧ values.get? 0 0 = some (.label none) ∧
    Observation.last? xs ⟨1⟩ ⟨2⟩ = none ∧ values.get? 0 1 = some (.label none) := by
  have hdates : (Series.texts [some "1970-01-02", some "1970-01-02"]).toDates = [some ⟨1⟩, some ⟨1⟩] := by
    decide +kernel
  have hsids : (Series.ints [some 1, some 1]).toSids = [some ⟨1⟩, some ⟨1⟩] := by
    decide +kernel
  have hxs : observations sector sectorFrame = .ok [⟨some ⟨1⟩, some ⟨1⟩, some (.label (some "energy"))⟩,
      ⟨some ⟨1⟩, some ⟨1⟩, none⟩] := by
    show Except.ok (Observation.ofColumns _ _ (List.map _ _)) = _
    rw [hdates, hsids]
    rfl
  exact ⟨_, _, _, addFrame_eq_ok.2 ⟨_, hxs, rfl, rfl⟩, hxs, rfl, rfl, rfl, rfl, rfl⟩

end Tables
end AsOf
