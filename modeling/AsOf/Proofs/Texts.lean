import AsOf.Proofs.Block

/-!
# A grid of labels is a grid of texts

A grid of labels can be made in four ways and changed in many, and what it holds is a code
for each cell beside a dictionary. Whatever was done to it, every code is 0 or names an
entry, and only 0 stands for no label. So each operation on the codes is one on the decoded
cells, with no regard to how the dictionary came about: one text may stand in it twice, or
not be used at all.

* `Reached.valid`: what every operation keeps.
* `toLabels_mapLabels`, `exists_whereMask`: the operations that look at the cells.
* `labels_are_texts`: all of them.
-/
namespace AsOf.Labels

open Dictionary

variable {a : Labels}

/-- A grid of labels that can be made, and changed, by the operations on them. -/
inductive Reached : Labels → Prop
  | ofLabels (g : Grid (Option String)) : Reached (ofLabels g)
  | ofFlat {shape : Nat × Nat} {labels : List (Option String)} {a : Labels} (h : ofFlat shape labels = .ok a) :
      Reached a
  | ofCodes {codes : Grid Nat} {categories : Dictionary} {a : Labels} (h : ofCodes codes categories = .ok a) :
      Reached a
  | missing (shape : Nat × Nat) : Reached (missing shape)
  | intern {a : Labels} (h : Reached a) (label : Option String) : Reached (a.intern label).1
  | set {a : Labels} (h : Reached a) (row col : Nat) (label : Option String) : Reached (a.set row col label)
  | fillRegion {a : Labels} (h : Reached a) (rows cols : Nat × Nat) (label : Option String) :
      Reached (a.fillRegion rows cols label)
  | mapLabels {a : Labels} (h : Reached a) (f : String → Option String) : Reached (a.mapLabels f)
  | sliceRows {a : Labels} (h : Reached a) (start stop : Nat) : Reached (a.sliceRows start stop)
  | rowsBetween {a : Labels} (h : Reached a) (start stop : UInt64) : Reached (a.rowsBetween start stop)
  | selectColumns {a : Labels} (h : Reached a) (cols : List Nat) : Reached (a.selectColumns cols)
  | selectRows {a : Labels} (h : Reached a) (rows : List Nat) : Reached (a.selectRows rows)
  | concatRows {parts : List Labels} {a : Labels} (hs : ∀ part ∈ parts, Reached part)
      (h : concatRows parts = .ok a) : Reached a
  | whereMask {a b : Labels} {mask : Grid Bool} {missing : Scalar} (h : Reached a)
      (hm : (Block.labels a).whereMask mask missing = .ok (.labels b)) : Reached b

/-! ## Valid codes -/

theorem valid_ofLabels (g : Grid (Option String)) : (ofLabels g).Valid := by
  intro i j code h
  change (g.map fun label => ((internAll [] g.toList).1.intern label).2).get? i j = some code at h
  rw [Grid.get?_map, Option.map_eq_some_iff] at h
  obtain ⟨label, hlabel, rfl⟩ := h
  obtain ⟨-, hle, -⟩ := intern_spec (internAll [] g.toList).1 label
  rwa [intern_internAll (Grid.mem_toList.2 ⟨i, j, hlabel⟩)] at hle

theorem ofFlat_eq_ok {shape : Nat × Nat} {labels : List (Option String)} : ofFlat shape labels = .ok a ↔
    labels.length = shape.1 * shape.2 ∧
      a = ofLabels (.ofFn shape.1 shape.2 fun i j => (labels[i * shape.2 + j]?).join) := by
  unfold ofFlat
  split
  · simp [*, eq_comm]
  · simp [*]

theorem ofCodes_eq_ok {codes : Grid Nat} {categories : Dictionary} : ofCodes codes categories = .ok a ↔
    (∀ code ∈ codes.toList, code ≤ categories.length) ∧ a = ⟨codes, categories⟩ := by
  unfold ofCodes
  cases hf : codes.toList.find? (categories.length < ·) with
  | none =>
    have hle : ∀ code ∈ codes.toList, code ≤ categories.length := by simpa using hf
    exact ⟨fun h => ⟨hle, (Except.ok.inj h).symm⟩, fun h => congrArg Except.ok h.2.symm⟩
  | some code =>
    refine iff_of_false nofun fun h => ?_
    have hle := h.1 code (List.mem_of_find?_eq_some hf)
    have hlt : categories.length < code := by simpa using List.find?_some hf
    omega

theorem valid_mapLabels (f : String → Option String) : (a.mapLabels f).Valid := by
  obtain ⟨-, hle, -⟩ := internAll_spec [] (a.categories.map f)
  intro i j code h
  change (a.codes.map _).get? i j = some code at h
  rw [Grid.get?_map, Option.map_eq_some_iff] at h
  obtain ⟨old, -, rfl⟩ := h
  exact recode_le hle old

/-- What every operation keeps. -/
theorem Reached.valid (h : Reached a) : a.Valid := by
  induction h with
  | ofLabels g => exact valid_ofLabels g
  | ofFlat h =>
    obtain ⟨-, rfl⟩ := ofFlat_eq_ok.1 h
    exact valid_ofLabels _
  | ofCodes h =>
    obtain ⟨hle, rfl⟩ := ofCodes_eq_ok.1 h
    exact fun i j code hcode => hle code (Grid.mem_toList.2 ⟨i, j, hcode⟩)
  | missing shape => exact Block.labels_missing_valid shape
  | @intern a _ label ih =>
    exact fun i j code hcode => Nat.le_trans (ih i j code hcode) (intern_spec a.categories label).1.length_le
  | set _ row col label ih => exact valid_fillWhere ih _ label
  | fillRegion _ rows cols label ih => exact valid_fillWhere ih _ label
  | mapLabels _ f _ => exact valid_mapLabels f
  | @sliceRows a _ start stop ih => exact @Block.valid_sliceRows (.labels a) ih start stop
  | @rowsBetween a _ start stop ih => exact @Block.valid_sliceRows (.labels a) ih _ _
  | @selectColumns a _ cols ih => exact @Block.valid_selectColumns (.labels a) ih cols
  | @selectRows a _ rows ih => exact @Block.valid_selectRows (.labels a) ih rows
  | @concatRows parts a _ h ih =>
    cases parts with
    | nil =>
      obtain rfl := Except.ok.inj h
      exact Block.labels_missing_valid (0, 0)
    | cons first rest =>
      obtain ⟨recoded, hrecoded, -⟩ := Checked.bind_eq_ok.1 h
      obtain ⟨b, hb, hvalid, -⟩ := concatRows_spec ih fun part hpart =>
        width_of_recodeAll hrecoded part (List.mem_cons_of_mem _ hpart)
      obtain rfl := Except.ok.inj (hb.symm.trans h)
      exact hvalid
  | @whereMask a b mask missing _ hm ih =>
    obtain ⟨hshape, hdtype⟩ := Block.of_whereMask hm
    obtain ⟨c, hc, -, hvalid, -⟩ := Block.whereMask_spec hshape hdtype (b := .labels a) ih
    obtain rfl := Except.ok.inj (hc.symm.trans hm)
    exact hvalid

/-! ## Decoded cells -/

theorem toLabels_intern (h : a.Valid) (label : Option String) : (a.intern label).1.toLabels = a.toLabels :=
  Grid.map_congr fun i j code hcode => decode_of_isPrefix (intern_spec a.categories label).1 (h i j code hcode)

theorem toLabels_mapLabels (h : a.Valid) (f : String → Option String) :
    (a.mapLabels f).toLabels = a.toLabels.map (·.bind f) := by
  obtain ⟨-, -, ht⟩ := internAll_spec [] (a.categories.map f)
  show (Grid.map _ a.codes).map _ = _
  rw [toLabels, Grid.map_map, Grid.map_map]
  exact Grid.map_congr fun i j code hcode => decode_recode ht (h i j code hcode)

/-- Masking puts one label wherever the mask does not let a label through. -/
theorem exists_whereMask (h : a.Valid) {mask : Grid Bool} (hs : mask.shape = a.shape) (label : Option String) :
    ∃ b, (Block.labels a).whereMask mask (.label label) = .ok (.labels b) ∧
      b.toLabels = a.toLabels.zipWith (fun old keep => if keep then old else label) mask := by
  refine ⟨_, ?_, toLabels_keep h label mask⟩
  unfold Block.whereMask
  rw [if_neg (not_not_intro (show mask.shape = (Block.labels a).shape from hs))]
  rfl

theorem get?_eq_join (a : Labels) (i j : Nat) : a.get? i j = (a.toLabels.get? i j).join := by
  rw [get?, toLabels, Grid.get?_map]
  cases a.codes.get? i j <;> rfl

/-! ## All operations -/

/-- No code leads out of the dictionary, and what is done to the grid is done to its decoded cells. -/
structure Faithful (a : Labels) : Prop where
  code_le : ∀ i j code, a.codes.get? i j = some code → code ≤ a.categories.length
  /-- Nor out of a table of new codes, which lists one for each entry. -/
  lookup_lt : ∀ d f i j code, a.codes.get? i j = some code → code ≠ missingCode →
    code - 1 < a.categories.length ∧ code - 1 < (internAll d (a.categories.map f)).2.length
  decode_eq_none : ∀ code ≤ a.categories.length, a.categories.decode code = none ↔ code = missingCode
  /-- The code that a label is looked up to is one of that label. -/
  lookup : ∀ label code, a.codeOf? label = some code →
    code ≤ a.categories.length ∧ a.categories.decode code = some label
  get? : ∀ i j, a.get? i j = (a.toLabels.get? i j).join
  intern : ∀ label, (a.intern label).1.toLabels = a.toLabels ∧
    (a.intern label).1.categories.decode (a.intern label).2 = label
  set : ∀ row col label, (a.set row col label).toLabels =
    a.toLabels.mapIdx fun i j old => if i = row ∧ j = col then label else old
  fillRegion : ∀ rows cols label, (a.fillRegion rows cols label).toLabels =
    a.toLabels.mapIdx fun i j old =>
      if (rows.1 ≤ i ∧ i ≤ rows.2) ∧ cols.1 ≤ j ∧ j ≤ cols.2 then label else old
  mapLabels : ∀ f, (a.mapLabels f).toLabels = a.toLabels.map (·.bind f)
  sliceRows : ∀ start stop, (a.sliceRows start stop).toLabels = a.toLabels.sliceRows start stop
  rowsBetween : ∀ start stop, (a.rowsBetween start stop).toLabels =
    a.toLabels.sliceRows (Grid.place a.toLabels.nrows start) (Grid.place a.toLabels.nrows stop)
  selectColumns : ∀ cols, (a.selectColumns cols).toLabels = a.toLabels.selectColumns cols
  selectRows : ∀ rows, (a.selectRows rows).toLabels = a.toLabels.selectRows rows
  whereMask : ∀ mask label, mask.shape = a.shape →
    ∃ b, (Block.labels a).whereMask mask (.label label) = .ok (.labels b) ∧
      b.toLabels = a.toLabels.zipWith (fun old keep => if keep then old else label) mask

theorem Valid.faithful (h : a.Valid) : a.Faithful where
  code_le := h
  lookup_lt d f i j code hcode hne := by
    have hle := h i j code hcode
    have hpos : 0 < code := Nat.pos_of_ne_zero hne
    rw [length_internAll, List.length_map]
    omega
  decode_eq_none _ hle := Dictionary.decode_eq_none hle
  lookup _ _ hc := decode_codeOf? hc
  get? := a.get?_eq_join
  intern label := ⟨toLabels_intern h label, (intern_spec a.categories label).2.2⟩
  set row col label := by simp [Labels.set, toLabels_fillWhere h]
  fillRegion rows cols label := by simp [Labels.fillRegion, toLabels_fillWhere h, and_assoc]
  mapLabels := toLabels_mapLabels h
  sliceRows start stop := Grid.map_sliceRows a.categories.decode start stop a.codes
  rowsBetween start stop := Grid.map_sliceRows a.categories.decode _ _ a.codes
  selectColumns cols := Grid.map_selectColumns a.categories.decode cols a.codes
  selectRows rows := Grid.map_selectRows a.categories.decode rows a.codes
  whereMask _ label hs := exists_whereMask h hs label

/-- Parts of one width can be put one under the other, and so are their decoded cells. -/
theorem exists_concatRows {parts : List Labels} {width : Nat} (hv : ∀ part ∈ parts, part.Valid)
    (hw : ∀ part ∈ parts, part.shape.2 = width) : ∃ a, concatRows parts = .ok a ∧
      (parts ≠ [] → a.shape.2 = width) ∧ a.toLabels.toLists = parts.flatMap (·.toLabels.toLists) := by
  cases parts with
  | nil => exact ⟨_, rfl, fun h => absurd rfl h, rfl⟩
  | cons first rest =>
    have hfirst := hw first List.mem_cons_self
    obtain ⟨a, ha, -, -, hcols, htexts⟩ := concatRows_spec hv fun part hpart =>
      (hw part (List.mem_cons_of_mem _ hpart)).trans hfirst.symm
    refine ⟨a, ha, fun _ => hcols.trans hfirst, ?_⟩
    rw [htexts, Grid.toLists_stack, List.flatMap_map]
    intro g hg
    obtain ⟨part, hpart, rfl⟩ := List.mem_map.1 hg
    exact (hw part hpart).trans hfirst.symm

theorem exists_ofFlat {shape : Nat × Nat} {labels : List (Option String)} (h : labels.length = shape.1 * shape.2) :
    ∃ a, ofFlat shape labels = .ok a ∧ a.shape = shape ∧
      ∀ i < shape.1, ∀ j < shape.2, a.toLabels.get? i j = labels[i * shape.2 + j]? := by
  refine ⟨_, ofFlat_eq_ok.2 ⟨h, rfl⟩, rfl, fun i hi j hj => ?_⟩
  have hlt : i * shape.2 + j < labels.length := by
    calc i * shape.2 + j < (i + 1) * shape.2 := by rw [Nat.succ_mul]; omega
      _ ≤ shape.1 * shape.2 := Nat.mul_le_mul_right _ hi
      _ = labels.length := h.symm
  rw [toLabels_ofLabels, Grid.get?_ofFn, dif_pos ⟨hi, hj⟩, List.getElem?_eq_getElem hlt]
  rfl

/-- Whatever grids of labels are made of and however they are changed, their codes stay inside
their dictionaries, and decoded they are the grids of texts that the same operations make. -/
theorem labels_are_texts :
    (∀ a, Reached a → Faithful a) ∧
    (∀ g, (ofLabels g).toLabels = g) ∧
    (∀ shape labels, labels.length = shape.1 * shape.2 → ∃ a, ofFlat shape labels = .ok a ∧ a.shape = shape ∧
      ∀ i < shape.1, ∀ j < shape.2, a.toLabels.get? i j = labels[i * shape.2 + j]?) ∧
    (∀ codes categories, (∀ code ∈ codes.toList, code ≤ categories.length) →
      ∃ a, ofCodes codes categories = .ok a ∧ a.toLabels = codes.map categories.decode) ∧
    (∀ shape, (missing shape).toLabels = .replicate shape none) ∧
    ∀ parts width, (∀ part ∈ parts, Reached part) → (∀ part ∈ parts, part.shape.2 = width) →
      ∃ a, concatRows parts = .ok a ∧ (parts ≠ [] → a.shape.2 = width) ∧
        a.toLabels.toLists = parts.flatMap (·.toLabels.toLists) := by
  refine ⟨fun a ha => ha.valid.faithful, toLabels_ofLabels, fun _ _ => exists_ofFlat, fun codes categories hle => ?_,
    Block.toLabels_missing, fun parts width hr hw => ?_⟩
  · exact ⟨_, ofCodes_eq_ok.2 ⟨hle, rfl⟩, rfl⟩
  · exact exists_concatRows (fun part hpart => (hr part hpart).valid) hw

/-- A dictionary that has a text twice: both codes are read as it, and a label set in place of
one of them leaves the other. -/
theorem labels_are_texts_repeated : ∃ a, ofCodes (.ofFn 1 3 fun _ j => j.val) ["x", "x"] = .ok a ∧
    a.toLabels.toLists = [[none, some "x", some "x"]] ∧
    (a.set 0 1 (some "y")).toLabels.toLists = [[none, some "y", some "x"]] := by
  obtain ⟨hfaithful, -, -, hcodes, -⟩ := labels_are_texts
  obtain ⟨a, ha, htexts⟩ := hcodes (.ofFn 1 3 fun _ j => j.val) ["x", "x"] (by decide)
  refine ⟨a, ha, ?_, ?_⟩
  · rw [htexts]
    rfl
  · rw [(hfaithful a (.ofCodes ha)).set, htexts]
    rfl

end AsOf.Labels
