import AsOf.Grid

/-!
# What `get?` reads of a grid

`get?` is the view through which grids are compared: two grids of one shape are
equal when `get?` reads the same of both (`ext_get?`). For every operation on
grids there is one equation that says what `get?` reads of its result, so that no
later proof looks inside a grid.
-/
namespace AsOf.Grid

variable {α β γ : Type}

/-! ## Cells and shapes -/

theorem get?_of_lt {g : Grid α} {i j : Nat} (hi : i < g.nrows) (hj : j < g.ncols) :
    g.get? i j = some (g.get i j hi hj) := dif_pos ⟨hi, hj⟩

theorem get?_eq_none {g : Grid α} {i j : Nat} : g.get? i j = none ↔ ¬(i < g.nrows ∧ j < g.ncols) := by
  unfold get?
  split <;> simp_all

theorem isSome_get? {g : Grid α} {i j : Nat} :
    (g.get? i j).isSome = true ↔ i < g.nrows ∧ j < g.ncols := by
  rw [Option.isSome_iff_ne_none, ne_eq, get?_eq_none, Classical.not_not]

theorem lt_of_get? {g : Grid α} {i j : Nat} {x : α} (h : g.get? i j = some x) :
    i < g.nrows ∧ j < g.ncols := isSome_get?.1 (h ▸ rfl)

theorem shape_eq {a : Grid α} {r c : Nat} : a.shape = (r, c) ↔ a.nrows = r ∧ a.ncols = c :=
  Prod.ext_iff

theorem get_congr {g : Grid α} {i i' j j' : Nat} (hi : i = i') (hj : j = j') (h : i < g.nrows)
    (h' : j < g.ncols) : g.get i j h h' = g.get i' j' (hi ▸ h) (hj ▸ h') := by
  subst hi hj
  rfl

/-- Grids of one shape that read the same are equal. -/
theorem ext_get? {a b : Grid α} (hs : a.shape = b.shape) (h : ∀ i j, a.get? i j = b.get? i j) :
    a = b := by
  obtain ⟨r, c, xs⟩ := a
  obtain ⟨r', c', ys⟩ := b
  obtain ⟨rfl, rfl⟩ := Prod.mk.inj hs
  congr
  apply Vector.ext
  intro i hi
  apply Vector.ext
  intro j hj
  have h := h i j
  rw [get?_of_lt hi hj, get?_of_lt hi hj] at h
  exact Option.some.inj h

theorem get?_ofFn (r c : Nat) (f : Fin r → Fin c → α) (i j : Nat) :
    (ofFn r c f).get? i j = if h : i < r ∧ j < c then some (f ⟨i, h.1⟩ ⟨j, h.2⟩) else none := by
  split
  · rename_i h
    rw [get?_of_lt h.1 h.2, get_ofFn]
  · exact get?_eq_none.2 ‹_›

@[simp] theorem shape_ofFn (r c : Nat) (f : Fin r → Fin c → α) : (ofFn r c f).shape = (r, c) := rfl

@[simp] theorem shape_replicate (shape : Nat × Nat) (x : α) : (replicate shape x).shape = shape := rfl

theorem get?_replicate (shape : Nat × Nat) (x : α) (i j : Nat) :
    (replicate shape x).get? i j = if i < shape.1 ∧ j < shape.2 then some x else none := by
  rw [replicate, get?_ofFn]
  split <;> rfl

/-! ## Cell by cell -/

@[simp] theorem shape_map (f : α → β) (g : Grid α) : (g.map f).shape = g.shape := rfl

theorem get_map (f : α → β) (g : Grid α) (i j : Nat) (hi : i < g.nrows) (hj : j < g.ncols) :
    (g.map f).get i j hi hj = f (g.get i j hi hj) := get_ofFn ..

@[simp] theorem get?_map (f : α → β) (g : Grid α) (i j : Nat) :
    (g.map f).get? i j = (g.get? i j).map f := by
  rw [map, get?_ofFn]
  split
  · rename_i h
    rw [get?_of_lt h.1 h.2]
    rfl
  · rename_i h
    rw [get?_eq_none.2 h]
    rfl

@[simp] theorem shape_mapIdx (f : Nat → Nat → α → β) (g : Grid α) : (g.mapIdx f).shape = g.shape :=
  rfl

@[simp] theorem get?_mapIdx (f : Nat → Nat → α → β) (g : Grid α) (i j : Nat) :
    (g.mapIdx f).get? i j = (g.get? i j).map (f i j) := by
  rw [mapIdx, get?_ofFn]
  split
  · rename_i h
    rw [get?_of_lt h.1 h.2]
    rfl
  · rename_i h
    rw [get?_eq_none.2 h]
    rfl

theorem shape_zipWith (f : α → β → γ) {a : Grid α} {b : Grid β} (h : a.shape = b.shape) :
    (zipWith f a b).shape = a.shape := by
  obtain ⟨hr, hc⟩ := Prod.mk.inj h
  show (min a.nrows b.nrows, min a.ncols b.ncols) = (a.nrows, a.ncols)
  rw [← hr, ← hc, Nat.min_self, Nat.min_self]

theorem get?_zipWith (f : α → β → γ) (a : Grid α) (b : Grid β) (i j : Nat) :
    (zipWith f a b).get? i j = (a.get? i j).bind fun x => (b.get? i j).map (f x) := by
  rw [zipWith, get?_ofFn]
  split
  · rename_i h
    rw [get?_of_lt (by omega) (by omega), get?_of_lt (by omega) (by omega)]
    rfl
  · rename_i h
    by_cases ha : i < a.nrows ∧ j < a.ncols
    · rw [get?_eq_none.2 (show ¬(i < b.nrows ∧ j < b.ncols) by omega), get?_of_lt ha.1 ha.2]
      rfl
    · rw [get?_eq_none.2 ha]
      rfl

theorem map_zipWith {δ : Type} (h : γ → δ) (f : α → β → γ) (a : Grid α) (b : Grid β) :
    (zipWith f a b).map h = zipWith (fun x y => h (f x y)) a b := by
  refine ext_get? rfl fun i j => ?_
  rw [get?_map, get?_zipWith, get?_zipWith]
  cases a.get? i j with
  | none => rfl
  | some x => cases b.get? i j <;> rfl

theorem zipWith_map_left {δ : Type} (f : δ → β → γ) (h : α → δ) (a : Grid α) (b : Grid β) :
    zipWith f (a.map h) b = zipWith (fun x y => f (h x) y) a b := by
  refine ext_get? rfl fun i j => ?_
  rw [get?_zipWith, get?_zipWith, get?_map]
  cases a.get? i j <;> rfl

/-- Cells are masked before or after they are mapped. -/
theorem map_keep (f : α → β) (x : α) (g : Grid α) (mask : Grid Bool) :
    (zipWith (fun v keep => if keep then v else x) g mask).map f =
      zipWith (fun v keep => if keep then v else f x) (g.map f) mask := by
  rw [map_zipWith, zipWith_map_left]
  exact congrArg (fun h => zipWith h g mask) (funext fun v => funext fun keep => by cases keep <;> rfl)

/-! ## Selecting -/

theorem shape_sliceRows (start stop : Nat) (g : Grid α) :
    (g.sliceRows start stop).shape = (min stop g.nrows - start, g.ncols) := rfl

theorem get?_sliceRows (start stop : Nat) (g : Grid α) (i j : Nat) :
    (g.sliceRows start stop).get? i j = if start + i < stop then g.get? (start + i) j else none := by
  rw [sliceRows, get?_ofFn]
  split
  · rename_i h
    rw [if_pos (by omega), get?_of_lt (by omega) h.2]
  · rename_i h
    split
    · exact (get?_eq_none.2 (by omega)).symm
    · rfl

theorem sliceRows_all (g : Grid α) : g.sliceRows 0 g.nrows = g := by
  refine ext_get? ?_ fun i j => ?_
  · rw [shape_sliceRows, Nat.min_self]
    rfl
  · rw [get?_sliceRows, Nat.zero_add]
    split
    · rfl
    · exact (get?_eq_none.2 (by omega)).symm

/-- The columns that `cols` names inside a grid of width `n`. -/
theorem inRange_eq_map {n : Nat} {cols : List Nat} (h : ∀ j ∈ cols, j < n) :
    (inRange n cols).map Fin.val = cols := by
  induction cols with
  | nil => rfl
  | cons j cols ih =>
    have hj := h j List.mem_cons_self
    have ih := ih fun k hk => h k (List.mem_cons_of_mem j hk)
    simp only [inRange] at ih ⊢
    rw [List.filterMap_cons, dif_pos hj]
    simp [ih]

theorem length_inRange {n : Nat} {cols : List Nat} (h : ∀ j ∈ cols, j < n) :
    (inRange n cols).length = cols.length := by
  rw [← List.length_map (f := Fin.val), inRange_eq_map h]

theorem getElem_inRange {n : Nat} {cols : List Nat} (h : ∀ j ∈ cols, j < n) (k : Nat)
    (hk : k < (inRange n cols).length) (hc : k < cols.length) : (inRange n cols)[k].val = cols[k] := by
  rw [← List.getElem_map Fin.val (h := by simpa using hk)]
  exact List.getElem_of_eq (inRange_eq_map h) _

theorem shape_selectColumns {cols : List Nat} {g : Grid α} (h : ∀ j ∈ cols, j < g.ncols) :
    (g.selectColumns cols).shape = (g.nrows, cols.length) := by
  simp [selectColumns, length_inRange h]

theorem get?_selectColumns {cols : List Nat} {g : Grid α} (h : ∀ j ∈ cols, j < g.ncols)
    (i k : Nat) : (g.selectColumns cols).get? i k = cols[k]?.bind (g.get? i) := by
  rw [selectColumns, get?_ofFn]
  split
  · rename_i hk
    have hk' : k < (inRange g.ncols cols).length := by simpa using hk.2
    have hc : k < cols.length := length_inRange h ▸ hk'
    have e := getElem_inRange h k hk' hc
    rw [List.getElem?_eq_getElem hc, Option.bind_some, get?_of_lt hk.1 (h _ (List.getElem_mem hc))]
    exact congrArg some (get_congr rfl e _ _)
  · rename_i hk
    rw [List.size_toArray, length_inRange h] at hk
    by_cases hc : k < cols.length
    · rw [List.getElem?_eq_getElem hc, Option.bind_some, get?_eq_none.2 (by omega)]
    · rw [List.getElem?_eq_none (by omega)]
      rfl

theorem shape_selectRows {rows : List Nat} {g : Grid α} (h : ∀ i ∈ rows, i < g.nrows) :
    (g.selectRows rows).shape = (rows.length, g.ncols) := by
  simp [selectRows, length_inRange h]

theorem get?_selectRows {rows : List Nat} {g : Grid α} (h : ∀ i ∈ rows, i < g.nrows)
    (k j : Nat) : (g.selectRows rows).get? k j = rows[k]?.bind fun i => g.get? i j := by
  rw [selectRows, get?_ofFn]
  split
  · rename_i hk
    have hk' : k < (inRange g.nrows rows).length := by simpa using hk.1
    have hc : k < rows.length := length_inRange h ▸ hk'
    have e := getElem_inRange h k hk' hc
    rw [List.getElem?_eq_getElem hc, Option.bind_some, get?_of_lt (h _ (List.getElem_mem hc)) hk.2]
    exact congrArg some (get_congr e rfl _ _)
  · rename_i hk
    rw [List.size_toArray, length_inRange h] at hk
    by_cases hc : k < rows.length
    · rw [List.getElem?_eq_getElem hc, Option.bind_some, get?_eq_none.2 (by omega)]
    · rw [List.getElem?_eq_none (by omega)]
      rfl

theorem exists_of_get?_selectColumns {cols : List Nat} {g : Grid α} {i k : Nat} {x : α}
    (h : (g.selectColumns cols).get? i k = some x) : ∃ i' j', g.get? i' j' = some x := by
  rw [selectColumns, get?_ofFn] at h
  split at h
  · exact ⟨_, _, (get?_of_lt _ _).trans h⟩
  · cases h

theorem exists_of_get?_selectRows {rows : List Nat} {g : Grid α} {k j : Nat} {x : α}
    (h : (g.selectRows rows).get? k j = some x) : ∃ i' j', g.get? i' j' = some x := by
  rw [selectRows, get?_ofFn] at h
  split at h
  · exact ⟨_, _, (get?_of_lt _ _).trans h⟩
  · cases h

/-- Choosing cells does not look at them. -/
theorem map_sliceRows (f : α → β) (start stop : Nat) (g : Grid α) :
    (g.sliceRows start stop).map f = (g.map f).sliceRows start stop := by
  refine ext_get? rfl fun i j => ?_
  rw [get?_map, get?_sliceRows, get?_sliceRows, get?_map]
  split <;> rfl

theorem map_selectColumns (f : α → β) (cols : List Nat) (g : Grid α) :
    (g.selectColumns cols).map f = (g.map f).selectColumns cols := by
  refine ext_get? rfl fun i j => ?_
  simp only [selectColumns, get?_map, get?_ofFn]
  split
  · rw [dif_pos (by assumption)]
    exact congrArg some (get_map ..).symm
  · rw [dif_neg (by assumption)]
    rfl

theorem map_selectRows (f : α → β) (rows : List Nat) (g : Grid α) :
    (g.selectRows rows).map f = (g.map f).selectRows rows := by
  refine ext_get? rfl fun i j => ?_
  simp only [selectRows, get?_map, get?_ofFn]
  split
  · rw [dif_pos (by assumption)]
    exact congrArg some (get_map ..).symm
  · rw [dif_neg (by assumption)]
    rfl

theorem map_map (f : α → β) (h : β → γ) (g : Grid α) : (g.map f).map h = g.map (h ∘ f) := by
  refine ext_get? rfl fun i j => ?_
  simp

theorem map_congr {f h : α → β} {g : Grid α} (e : ∀ i j x, g.get? i j = some x → f x = h x) :
    g.map f = g.map h := by
  refine ext_get? rfl fun i j => ?_
  rw [get?_map, get?_map]
  cases hx : g.get? i j with
  | none => rfl
  | some x => exact congrArg some (e i j x hx)

/-! ## Rows and columns as lists -/

theorem row_of_lt {g : Grid α} {i : Nat} (hi : i < g.nrows) : g.row i = g.rows[i].toList := dif_pos hi

theorem length_row {g : Grid α} {i : Nat} (hi : i < g.nrows) : (g.row i).length = g.ncols := by
  simp [row_of_lt hi]

theorem getElem?_row (g : Grid α) (i j : Nat) : (g.row i)[j]? = g.get? i j := by
  by_cases hi : i < g.nrows
  · rw [row_of_lt hi]
    by_cases hj : j < g.ncols
    · rw [get?_of_lt hi hj, List.getElem?_eq_getElem (by simpa using hj)]
      simp [get]
    · rw [get?_eq_none.2 (by omega), List.getElem?_eq_none (by simpa using hj)]
  · rw [row, dif_neg hi, get?_eq_none.2 (by omega)]
    rfl

/-- Grids of one shape that have the same rows are equal. -/
theorem ext_row {a b : Grid α} (hs : a.shape = b.shape) (h : ∀ i < a.nrows, a.row i = b.row i) : a = b := by
  refine ext_get? hs fun i j => ?_
  by_cases hi : i < a.nrows
  · rw [← getElem?_row, ← getElem?_row, h i hi]
  · have hi' : ¬i < b.nrows := fun hlt => hi (Nat.lt_of_lt_of_eq hlt (congrArg Prod.fst hs.symm))
    rw [get?_eq_none.2 fun hij => hi hij.1, get?_eq_none.2 fun hij => hi' hij.1]

theorem getElem?_column (g : Grid α) (i j : Nat) : (g.column j)[i]? = g.get? i j := by
  by_cases hj : j < g.ncols
  · rw [column, dif_pos hj, List.getElem?_map]
    by_cases hi : i < g.nrows
    · rw [get?_of_lt hi hj, List.getElem?_eq_getElem (by simpa using hi)]
      simp [get]
    · rw [get?_eq_none.2 (by omega), List.getElem?_eq_none (by simpa using hi)]
      rfl
  · rw [column, dif_neg hj, get?_eq_none.2 (by omega)]
    rfl

theorem length_toLists (g : Grid α) : g.toLists.length = g.nrows := by
  simp [toLists]

theorem getElem?_toLists (g : Grid α) (i : Nat) :
    g.toLists[i]? = if i < g.nrows then some (g.row i) else none := by
  rw [toLists, List.getElem?_map]
  split
  · rename_i hi
    rw [row_of_lt hi, List.getElem?_eq_getElem (by simpa using hi)]
    simp
  · rename_i hi
    rw [List.getElem?_eq_none (by simpa using hi)]
    rfl

theorem toLists_eq (g : Grid α) : g.toLists = (List.range g.nrows).map g.row := by
  apply List.ext_getElem?
  intro i
  rw [getElem?_toLists, List.getElem?_map]
  split
  · rename_i hi
    rw [List.getElem?_range hi]
    rfl
  · rename_i hi
    rw [List.getElem?_eq_none (by simpa using hi)]
    rfl

theorem mem_toList {g : Grid α} {x : α} : x ∈ g.toList ↔ ∃ i j, g.get? i j = some x := by
  rw [toList, List.mem_flatten]
  constructor
  · rintro ⟨row, hrow, hx⟩
    obtain ⟨i, hi⟩ := List.getElem?_of_mem hrow
    obtain ⟨j, hj⟩ := List.getElem?_of_mem hx
    rw [getElem?_toLists] at hi
    split at hi
    · obtain rfl := Option.some.inj hi
      exact ⟨i, j, by rw [← getElem?_row, hj]⟩
    · cases hi
  · rintro ⟨i, j, h⟩
    have hi := (lt_of_get? h).1
    exact ⟨g.row i, List.mem_of_getElem? (by rw [getElem?_toLists, if_pos hi]),
      List.mem_of_getElem? (by rw [getElem?_row, h])⟩

/-! ## Stacking -/

/-- The rows of a grid, each as a list: what stacking puts one under the other. -/
theorem toLists_ofRows (n : Nat) (rows : List (Vector α n)) :
    (ofRows n rows).toLists = rows.map Vector.toList := by
  simp [ofRows, toLists]

theorem map_toList_rowsOfWidth {n : Nat} {g : Grid α} (h : g.ncols = n) :
    (rowsOfWidth n g).map Vector.toList = g.toLists := by
  obtain ⟨r, c, xs⟩ := g
  subst h
  simp [rowsOfWidth, toLists]

theorem toLists_stack {n : Nat} {parts : List (Grid α)} (h : ∀ g ∈ parts, g.ncols = n) :
    (stack n parts).toLists = parts.flatMap toLists := by
  rw [stack, toLists_ofRows]
  induction parts with
  | nil => rfl
  | cons g parts ih =>
    rw [List.flatMap_cons, List.map_append, List.flatMap_cons,
      map_toList_rowsOfWidth (h g List.mem_cons_self),
      ih fun g' hg' => h g' (List.mem_cons_of_mem g hg')]

/-- Parts of one shape stacked: as many times as many rows. -/
theorem shape_stack {height width : Nat} {parts : List (Grid α)} (h : ∀ g ∈ parts, g.shape = (height, width)) :
    (stack width parts).shape = (parts.length * height, width) := by
  have hrows : parts.map (fun g => g.toLists.length) = parts.map fun _ => height :=
    List.map_congr_left fun g hg => (length_toLists g).trans (congrArg Prod.fst (h g hg))
  have hstack : (stack width parts).nrows = parts.length * height := by
    rw [← length_toLists, toLists_stack fun g hg => congrArg Prod.snd (h g hg), List.length_flatMap, hrows,
      List.map_const', List.sum_replicate_nat]
  exact shape_eq.2 ⟨hstack, rfl⟩

theorem get?_eq_toLists (g : Grid α) (i j : Nat) : g.get? i j = g.toLists[i]?.bind (·[j]?) := by
  rw [getElem?_toLists]
  split
  · rw [Option.bind_some, getElem?_row]
  · rw [get?_eq_none.2 (by omega)]
    rfl

theorem row_map (f : α → β) (g : Grid α) (i : Nat) : (g.map f).row i = (g.row i).map f := by
  apply List.ext_getElem?
  intro j
  rw [getElem?_row, get?_map, List.getElem?_map, getElem?_row]

theorem row_zipWith (f : α → β → γ) (a : Grid α) (b : Grid β) (i : Nat) :
    (zipWith f a b).row i = List.zipWith f (a.row i) (b.row i) := by
  apply List.ext_getElem?
  intro j
  rw [getElem?_row, get?_zipWith, List.getElem?_zipWith, getElem?_row, getElem?_row]
  cases a.get? i j with
  | none => rfl
  | some x => cases b.get? i j <;> rfl

theorem row_replicate {shape : Nat × Nat} {i : Nat} (hi : i < shape.1) (x : α) :
    (replicate shape x).row i = List.replicate shape.2 x := by
  apply List.ext_getElem?
  intro j
  rw [getElem?_row, get?_replicate, List.getElem?_replicate]
  simp only [hi, true_and]

theorem row_sliceRows {start stop i : Nat} (h : start + i < stop) (g : Grid α) :
    (g.sliceRows start stop).row i = g.row (start + i) := by
  apply List.ext_getElem?
  intro j
  rw [getElem?_row, get?_sliceRows, if_pos h, getElem?_row]

theorem toLists_map (f : α → β) (g : Grid α) : (g.map f).toLists = g.toLists.map (·.map f) := by
  rw [toLists_eq, toLists_eq, List.map_map]
  exact List.map_congr_left fun i _ => row_map f g i

/-- Grids of one width that have the same rows are equal. -/
theorem ext_toLists {a b : Grid α} (hc : a.ncols = b.ncols) (h : a.toLists = b.toLists) : a = b := by
  have hr : a.nrows = b.nrows := by rw [← length_toLists, ← length_toLists, h]
  apply ext_get? (Prod.ext hr hc)
  intro i j
  rw [get?_eq_toLists, get?_eq_toLists, h]

theorem map_stack (f : α → β) {n : Nat} {parts : List (Grid α)} (h : ∀ g ∈ parts, g.ncols = n) :
    (stack n parts).map f = stack n (parts.map (·.map f)) := by
  refine ext_toLists rfl ?_
  rw [toLists_map, toLists_stack h, toLists_stack, List.map_flatMap, List.flatMap_map]
  · simp only [toLists_map]
  · intro g hg
    obtain ⟨g', hg', rfl⟩ := List.mem_map.1 hg
    exact h g' hg'

theorem exists_of_get?_stack {n : Nat} {parts : List (Grid α)} (h : ∀ g ∈ parts, g.ncols = n)
    {i j : Nat} {x : α} (hx : (stack n parts).get? i j = some x) :
    ∃ g ∈ parts, ∃ i', g.get? i' j = some x := by
  rw [get?_eq_toLists, toLists_stack h, Option.bind_eq_some_iff] at hx
  obtain ⟨row, hrow, hj⟩ := hx
  obtain ⟨g, hg, hm⟩ := List.mem_flatMap.1 (List.mem_of_getElem? hrow)
  obtain ⟨i', hi'⟩ := List.getElem?_of_mem hm
  exact ⟨g, hg, i', by rw [get?_eq_toLists, hi', Option.bind_some, hj]⟩

/-- Stacking single rows: row `i` of the stack is the only row of part `i`. -/
theorem get?_stack {n : Nat} {parts : List (Grid α)} (hc : ∀ g ∈ parts, g.ncols = n)
    (hr : ∀ g ∈ parts, g.nrows = 1) (i j : Nat) :
    (stack n parts).get? i j = parts[i]?.bind (·.get? 0 j) := by
  rw [get?_eq_toLists, toLists_stack hc]
  have e : parts.flatMap toLists = parts.map (·.row 0) := by
    induction parts with
    | nil => rfl
    | cons g parts ih =>
      rw [List.flatMap_cons, List.map_cons, toLists_eq, hr g List.mem_cons_self,
        ih (fun g' h => hc g' (List.mem_cons_of_mem g h)) fun g' h => hr g' (List.mem_cons_of_mem g h)]
      rfl
  rw [e, List.getElem?_map]
  cases parts[i]? with
  | none => rfl
  | some g => simp [getElem?_row]

/-- Stacking two parts: what is not in the upper one is in the lower one. -/
theorem get?_stack_pair {n : Nat} {a b : Grid α} (ha : a.ncols = n) (hb : b.ncols = n) (i j : Nat) :
    (stack n [a, b]).get? i j = if i < a.nrows then a.get? i j else b.get? (i - a.nrows) j := by
  have hlists : (stack n [a, b]).toLists = a.toLists ++ b.toLists := by
    rw [toLists_stack fun g hg => ?_]
    · simp
    · simp only [List.mem_cons, List.not_mem_nil, or_false] at hg
      rcases hg with rfl | rfl <;> assumption
  rw [get?_eq_toLists, hlists, List.getElem?_append, length_toLists]
  split <;> rw [get?_eq_toLists]

end AsOf.Grid
