import Mathlib
import AsOf.Proofs.Evaluate.Typed

/-!
# Cross-sections by group

A rank and a distance from the mean are computed of what is present in a row, or in each group
of it. What the mask keeps out is made NaN first, and a group is given all of its cells, the NaN
among them. Each function leaves those out by itself, so that a group gets what the function
gives the list of its present values alone, and the other cells of the row get NaN.

* `Stats.Compares`: what a function of a row has to do for that, and which ones do.
* `Stats.grouped_columns`: a row, column by column.
* `Stats.groupedIn_perm`: groups can be taken in any order.
* `Evaluate.evaluate_comparison`: the row of a block that an evaluation makes.
* `comparisons_by_group`: groups in any order, and blocks that differ where the mask is down.
-/
namespace AsOf

/-- There is one NaN. -/
theorem eq_nan {x : Float} (h : x.isNaN = true) : x = nan := by
  rw [Float.isNaN_eq_decide_eq_nan, decide_eq_true_eq] at h
  exact h

/-- The items under flags that say something of each place of a list. -/
theorem pick_map_map {α β : Type} (p : α → Bool) (h : α → β) (xs : List α) :
    pick (xs.map p) (xs.map h) = (xs.filter p).map h := by
  induction xs with
  | nil => rfl
  | cons x xs ih =>
    rw [List.map_cons, List.map_cons]
    cases hp : p x with
    | true => rw [pick, ih, List.filter_cons_of_pos hp, List.map_cons]
    | false => rw [pick, ih, List.filter_cons_of_neg (by rw [hp]; exact Bool.false_ne_true)]

theorem places_map_range (p : Nat → Bool) (n : Nat) : places ((List.range n).map p) = (List.range n).filter p := by
  induction n with
  | zero => rfl
  | succ n ih =>
    have hplaces : places ((List.range n).map p ++ [p n]) =
        places ((List.range n).map p) ++ placesFrom n [p n] := by
      rw [places, placesFrom, List.zipIdx_append, List.filter_append, List.map_append, List.length_map,
        List.length_range, Nat.zero_add]
      rfl
    rw [List.range_succ, List.map_append, List.map_singleton, hplaces, ih, List.filter_append]
    cases hp : p n <;> simp [hp, placesFrom]

/-- What is picked is what stands at the places. -/
theorem map_some_pick {α : Type} {flags : List Bool} {xs : List α} (h : flags.length = xs.length) :
    (pick flags xs).map some = (places flags).map (xs[·]?) := by
  refine List.ext_getElem? fun k => ?_
  rw [List.getElem?_map, List.getElem?_map, getElem?_pick]
  cases hk : (places flags)[k]? with
  | none => rfl
  | some j =>
    have hj : j < xs.length := h ▸ lt_of_mem_places (List.mem_of_getElem? hk)
    rw [Option.bind_some, Option.map_some, List.getElem?_eq_getElem hj, Option.map_some]

theorem pick_true {α : Type} (xs : List α) : pick (xs.map fun _ => true) xs = xs := by
  induction xs with
  | nil => rfl
  | cons x xs ih => exact congrArg (x :: ·) ih

namespace Stats

/-! ## Functions of what is present -/

/-- A function of a row that is computed of the present values, and gives the others NaN. -/
structure Compares (f : List Float → List Float) : Prop where
  onPresent : Local f
  absent : ∀ {xs : List Float} {j : Nat}, xs[j]? = some nan → (f xs)[j]? = some nan

theorem compares_rank (method : RankMethod) (ascending : Bool) : Compares (rank method ascending) where
  onPresent := local_rank method ascending
  absent {xs j} h := by
    have hno : (rankCells method ascending xs).lookup j = none := by
      rw [List.lookup_eq_none_iff]
      intro cell hcell
      rw [bne_iff_ne]
      rintro rfl
      -- what is ranked is present
      have hplace := (perm_rankCells method ascending xs).subset (List.mem_map_of_mem hcell)
      rw [map_index_present] at hplace
      have hpresent := mem_places.1 hplace
      rw [List.getElem?_map, h, Option.map_some, isNaN_nan] at hpresent
      cases hpresent
    rw [rank_eq, getElem?_scatter (nodup_rankCells method ascending xs) (List.getElem?_eq_some_iff.1 h).1, hno]
    rfl

theorem compares_demean : Compares demean where
  onPresent := local_demean
  absent {xs j} h := by
    unfold demean
    split
    · rw [List.getElem?_map, h, Option.map_some]
    · rw [List.getElem?_map, h, Option.map_some, nan_sub]

theorem compares_zscore : Compares zscore where
  onPresent := local_zscore
  absent {xs j} h := by
    unfold zscore
    split
    · rw [List.getElem?_map, h, Option.map_some]
    · rw [List.getElem?_map, h, Option.map_some, nan_sub, nan_div]

/-! ## One row -/

variable {f : List Float → List Float} {values : List Float} {groups : List (Option Int)}

/-- Without groups, all values are in one. -/
theorem eq_grouped_one (hf : Local f) (values : List Float) :
    f values = grouped f values (values.map fun _ => some 0) := by
  refine eq_grouped hf (List.length_map _) (hf.length values) (fun g hg => ?_) fun i hn => ?_
  · obtain ⟨-, -, hg⟩ := List.mem_map.1 hg
    have hall : inGroup (values.map fun _ => some 0) (some g) = values.map fun _ => true := by
      rw [inGroup, List.map_map, ← hg]
      rfl
    have hout : pick (values.map fun _ => true) (f values) = f values := by
      have e : (values.map fun _ => true) = (f values).map fun _ => true := by
        rw [List.map_const', List.map_const', hf.length]
      rw [e, pick_true]
    rw [hall, pick_true, hout]
  · rw [List.getElem?_map] at hn
    cases hv : values[i]? <;> rw [hv] at hn <;> cases hn

/-- Which values are present and in a group. -/
def holding (values : List Float) (groups : List (Option Int)) (g : Int) : List Bool :=
  values.zipWith (fun x group => !x.isNaN && group == some g) groups

theorem getElem?_holding (h : groups.length = values.length) (g : Int) {j : Nat} (hj : j < values.length) :
    (holding values groups g)[j]? = some (!values[j].isNaN && groups[j] == some g) := by
  rw [holding, List.getElem?_zipWith, List.getElem?_eq_getElem hj, List.getElem?_eq_getElem (h ▸ hj)]

theorem blank_present (xs : List Float) : Blank (xs.map fun x => !x.isNaN) xs := by
  induction xs with
  | nil => exact .nil
  | cons x xs ih => exact .cons (fun hx => by rwa [Bool.not_eq_false'] at hx) ih

/-- A group gets what the function gives its present values alone. -/
theorem pick_holding (hf : Local f) (h : groups.length = values.length) (g : Int) :
    pick (holding values groups g) (grouped f values groups) = f (pick (holding values groups g) values) := by
  have hin : (inGroup groups (some g)).length = values.length := (length_inGroup _ _).trans h
  have hout : (grouped f values groups).length = values.length := by rw [grouped_eq f h, length_scatter]
  have hhold : (holding values groups g).length = values.length := by
    rw [holding, List.length_zipWith, h, Nat.min_self]
  -- what is present and in the group is what is present of the group
  have hle (j : Nat) (hj : (holding values groups g)[j]? = some true) :
      (inGroup groups (some g))[j]? = some true := by
    have hlt : j < values.length := hhold ▸ (List.getElem?_eq_some_iff.1 hj).1
    rw [getElem?_holding h g hlt, Option.some_inj, Bool.and_eq_true_iff] at hj
    rw [inGroup, List.getElem?_map, List.getElem?_eq_getElem (h ▸ hlt), Option.map_some, hj.2]
  have hpresent : pick (inGroup groups (some g)) (holding values groups g) =
      (pick (inGroup groups (some g)) values).map fun x => !x.isNaN := by
    refine List.ext_getElem? fun k => ?_
    rw [getElem?_pick, List.getElem?_map, getElem?_pick]
    cases hk : (places (inGroup groups (some g)))[k]? with
    | none => rfl
    | some j =>
      have hg := mem_inGroup.1 (List.mem_of_getElem? hk)
      obtain ⟨hgroups, hgj⟩ := List.getElem?_eq_some_iff.1 hg
      have hlt : j < values.length := h ▸ hgroups
      rw [Option.bind_some, Option.bind_some, getElem?_holding h g hlt, List.getElem?_eq_getElem hlt,
        Option.map_some, hgj, beq_self_eq_true, Bool.and_true]
  rw [← pick_pick_of_le (hin.trans hout.symm) (hhold.trans hout.symm) hle, pick_inGroup hf h,
    ← pick_pick_of_le hin hhold hle, hpresent, hf.pick (blank_present _)]

/-- A value that is not there is given none, in whatever group it is. -/
theorem grouped_nan (hf : Compares f) (h : groups.length = values.length) {j : Nat} (hj : values[j]? = some nan) :
    (grouped f values groups)[j]? = some nan := by
  have hlt : j < groups.length := h ▸ (List.getElem?_eq_some_iff.1 hj).1
  cases hg : groups[j] with
  | none => exact grouped_none hf.onPresent h (by rw [List.getElem?_eq_getElem hlt, hg])
  | some g =>
    have hmem : j ∈ places (inGroup groups (some g)) := mem_inGroup.2 (by rw [List.getElem?_eq_getElem hlt, hg])
    obtain ⟨k, hk⟩ := List.getElem?_of_mem hmem
    have hout := congrArg (·[k]?) (pick_inGroup hf.onPresent h g)
    have hvalue : (pick (inGroup groups (some g)) values)[k]? = some nan := by
      rw [getElem?_pick, hk, Option.bind_some, hj]
    rwa [getElem?_pick, hk, Option.bind_some, hf.absent hvalue] at hout

/-- The columns of a group that have a value. -/
def columnsOf (n : Nat) (value : Nat → Float) (group : Nat → Option Int) (g : Int) : List Nat :=
  (List.range n).filter fun j => !(value j).isNaN && group j == some g

/-- A row column by column: what stands in the columns of a group is what the function gives the
values there, and what stands in none is NaN. -/
theorem grouped_columns (hf : Compares f) (n : Nat) (value : Nat → Float) (group : Nat → Option Int) :
    (∀ g, (columnsOf n value group g).map ((grouped f ((List.range n).map value) ((List.range n).map group))[·]?) =
      (f ((columnsOf n value group g).map value)).map some) ∧
    ∀ j < n, (∀ g, j ∉ columnsOf n value group g) →
      (grouped f ((List.range n).map value) ((List.range n).map group))[j]? = some nan := by
  have hl : ((List.range n).map group).length = ((List.range n).map value).length := by
    rw [List.length_map, List.length_map]
  refine ⟨fun g => ?_, fun j hj hno => ?_⟩
  · have hflags : holding ((List.range n).map value) ((List.range n).map group) g =
        (List.range n).map fun j => !(value j).isNaN && group j == some g := by
      rw [holding, List.zipWith_map, List.zipWith_self]
    have hlength : ((List.range n).map fun j => !(value j).isNaN && group j == some g).length =
        (grouped f ((List.range n).map value) ((List.range n).map group)).length := by
      rw [grouped_eq f hl, length_scatter, List.length_map, List.length_map]
    have hpick := pick_holding hf.onPresent hl g
    rw [hflags, pick_map_map] at hpick
    rw [columnsOf, ← hpick, map_some_pick hlength, places_map_range]
  · have hvalue : ((List.range n).map value)[j]? = some (value j) := by
      rw [List.getElem?_map, List.getElem?_range hj, Option.map_some]
    by_cases hnan : (value j).isNaN = true
    · exact grouped_nan hf hl (by rw [hvalue, eq_nan hnan])
    · cases hg : group j with
      | none =>
        exact grouped_none hf.onPresent hl (by rw [List.getElem?_map, List.getElem?_range hj, Option.map_some, hg])
      | some g =>
        refine absurd (List.mem_filter.2 ⟨List.mem_range.2 hj, ?_⟩) (hno g)
        rw [hg, beq_self_eq_true, Bool.and_true, Bool.eq_false_iff.2 hnan]
        rfl

/-! ## The order of the groups -/

/-- `grouped`, over the groups in a given order. -/
def groupedIn (order : List Int) (f : List Float → List Float) (values : List Float)
    (groups : List (Option Int)) : List Float :=
  let row := values.toArray
  scatter values.length <| order.flatMap fun g =>
    let is := members groups g
    is.zip (f (is.map fun i => row.getD i nan))

/-- Where no place is given twice, the order of the places does not matter. -/
theorem scatter_perm {n : Nat} {cells cells' : List (Nat × Float)} (hn : (cells.map (·.1)).Nodup)
    (hp : cells'.Perm cells) : scatter n cells' = scatter n cells := by
  have hn' : (cells'.map (·.1)).Nodup := (hp.map (·.1)).nodup_iff.2 hn
  have hlookup (i : Nat) : cells'.lookup i = cells.lookup i := by
    cases h : cells.lookup i with
    | none =>
      rw [List.lookup_eq_none_iff] at h ⊢
      exact fun cell hcell => h cell (hp.subset hcell)
    | some x =>
      obtain ⟨before, after, rfl, -⟩ := List.lookup_eq_some_iff.1 h
      exact lookup_of_mem hn' (hp.symm.subset (List.mem_append_right _ List.mem_cons_self))
  refine List.ext_getElem? fun i => ?_
  by_cases hi : i < n
  · rw [getElem?_scatter hn hi, getElem?_scatter hn' hi, hlookup]
  · rw [List.getElem?_eq_none (by rw [length_scatter]; omega), List.getElem?_eq_none (by rw [length_scatter]; omega)]

theorem groupedIn_perm (hf : Local f) (h : groups.length = values.length) {order : List Int}
    (ho : order.Perm (distinct groups)) : groupedIn order f values groups = grouped f values groups := by
  have hin : groupedIn order f values groups = scatter values.length (order.flatMap fun g =>
      (places (inGroup groups (some g))).zip (f (pick (inGroup groups (some g)) values))) := by
    simp only [groupedIn, members_eq, map_getD_members h]
  rw [hin, grouped_eq f h]
  exact scatter_perm (nodup_groupCells hf h) (ho.flatMap_right _)

end Stats
/-! ## One cell -/

/-- What a kind does to the values of a group, and whether it goes by group. -/
def Kind.comparison? : Kind → Option ((List Float → List Float) × Bool)
  | .rank method ascending grouped => some (Stats.rank method ascending, grouped)
  | .transform .demean grouped => some (Stats.demean, grouped)
  | .transform .zscore grouped => some (Stats.zscore, grouped)
  | _ => none

/-- The number that the group of a cell goes by: its integer, or the code of its label. A missing
one is in no group. -/
def Block.groupOf? (missing : Scalar) (b : Block) (i j : Nat) : Option Int :=
  if (b.isMissing missing).get? i j = some true then none
  else
    match b with
    | ints g => (g.get? i j).map Int64.toInt
    | labels a => (a.codes.get? i j).map Int.ofNat
    | _ => none

/-- What a comparison is given: a block of numbers and, if it goes by group, one of integers or
labels. -/
structure CrossSection (ctx : Context) (grouped : Bool) where
  values : Block
  labels : Option Block
  shape : values.shape = ctx.shape
  numbers : values.dtype ≠ .categorical
  byGroup : labels.isSome = grouped
  labelsShape : ∀ b ∈ labels, b.shape = ctx.shape
  labelsType : ∀ b ∈ labels, b.dtype = .int64 ∨ b.dtype = .categorical

namespace CrossSection

variable {ctx : Context} {grouped : Bool} (s : CrossSection ctx grouped) (t : Term)

def blocks : List Block := s.values :: s.labels.toList

def inputs : List Input := s.blocks.map .block

theorem length_blocks : s.blocks.length = if grouped then 2 else 1 := by
  obtain ⟨values, labels, -, -, hgroup, -, -⟩ := s
  subst hgroup
  cases labels <;> rfl

/-- The number in a cell, NaN if its value is missing. -/
def number (i j : Nat) : Float := ((s.values.get? i j).map (Scalar.number (t.missingOf 0))).getD nan

/-- The group of a cell. Without labels, all cells are in one. -/
def group (i j : Nat) : Option Int :=
  match s.labels with
  | some b => b.groupOf? (t.missingOf 1) i j
  | none => some 0

/-- The columns of a row whose cells pass the mask, have a number and are in the group. -/
def columns (i : Nat) (g : Int) : List Nat :=
  (List.range ctx.shape.2).filter fun j =>
    ctx.mask.get? i j == some true && !(s.number t i j).isNaN && s.group t i j == some g

/-- The number in a cell, NaN also outside the mask. -/
def masked (i j : Nat) : Float := if ctx.mask.get? i j = some true then s.number t i j else nan

/-- The numbers of a row, NaN outside the mask. -/
def numberRow (i : Nat) : List Float := (List.range ctx.shape.2).map (s.masked t i)

/-- The groups of a row. -/
def groupRow (i : Nat) : List (Option Int) := (List.range ctx.shape.2).map (s.group t i)

theorem length_groupRow (i : Nat) : (s.groupRow t i).length = (s.numberRow t i).length := by
  rw [groupRow, numberRow, List.length_map, List.length_map]

/-- What the mask keeps out has no number either. -/
theorem columns_eq (i : Nat) : s.columns t i = Stats.columnsOf ctx.shape.2 (s.masked t i) (s.group t i) := by
  funext g
  refine List.filter_congr fun j _ => ?_
  by_cases hm : ctx.mask.get? i j = some true
  · rw [masked, if_pos hm, hm, beq_self_eq_true, Bool.true_and]
  · rw [masked, if_neg hm, isNaN_nan, beq_eq_false_iff_ne.2 hm]
    rfl

theorem of_mem_columns {i : Nat} {g : Int} {j : Nat} (h : j ∈ s.columns t i g) : ctx.mask.get? i j = some true := by
  have hpass := (List.mem_filter.1 h).2
  rw [Bool.and_eq_true_iff, Bool.and_eq_true_iff, beq_iff_eq] at hpass
  exact hpass.1.1

end CrossSection

namespace Evaluate

theorem compares_of_comparison? {k : Kind} {f : List Float → List Float} {grouped : Bool}
    (h : k.comparison? = some (f, grouped)) : Stats.Compares f := by
  cases k with
  | rank method ascending grouped' =>
    obtain ⟨rfl, -⟩ := Prod.mk.inj (Option.some.inj h)
    exact Stats.compares_rank method ascending
  | transform kind grouped' =>
    cases kind with
    | demean =>
      obtain ⟨rfl, -⟩ := Prod.mk.inj (Option.some.inj h)
      exact Stats.compares_demean
    | zscore =>
      obtain ⟨rfl, -⟩ := Prod.mk.inj (Option.some.inj h)
      exact Stats.compares_zscore
  | _ => cases h

theorem unmasked_comparison {t : Term} {f : List Float → List Float} {grouped : Bool}
    (h : t.kind.comparison? = some (f, grouped)) (inputs : List Input) (ctx : Context) :
    unmasked t inputs ctx = crossSection t ctx grouped inputs >>= fun x => .ok (.floats (byRow f x.1 x.2)) := by
  cases hk : t.kind with
  | rank method ascending grouped' =>
    rw [hk] at h
    obtain ⟨rfl, rfl⟩ := Prod.mk.inj (Option.some.inj h)
    rw [unmasked, hk]
    rfl
  | transform kind grouped' =>
    rw [hk] at h
    cases kind with
    | demean =>
      obtain ⟨rfl, rfl⟩ := Prod.mk.inj (Option.some.inj h)
      rw [unmasked, hk]
      rfl
    | zscore =>
      obtain ⟨rfl, rfl⟩ := Prod.mk.inj (Option.some.inj h)
      rw [unmasked, hk]
      rfl
  | _ => rw [hk] at h; cases h

/-- A label is missing by its code. -/
theorem get?_isMissing_labels (a : Labels) (missing : Scalar) (i j : Nat) :
    ((Block.labels a).isMissing missing).get? i j = (a.codes.get? i j).map fun code =>
      decide (code = Dictionary.missingCode) || missing.asLabel?.bind a.codeOf? == some code := by
  have hmissing : a.isMissing.get? i j = (a.codes.get? i j).map fun code => decide (code = Dictionary.missingCode) :=
    Grid.get?_map ..
  cases hm : missing.asLabel? with
  | none =>
    simp only [Block.isMissing, hm, Option.bind_none, Option.none_beq_some, Bool.or_false]
    exact hmissing
  | some l =>
    simp only [Block.isMissing, hm, Option.bind_some]
    rw [Grid.get?_zipWith, hmissing, Labels.get?_eqLabel]
    cases a.codes.get? i j <;> rfl

theorem groupIds?_eq {b : Block} (hd : b.dtype = .int64 ∨ b.dtype = .categorical) (missing : Scalar) :
    ∃ gs, groupIds? missing b = some gs ∧ gs.shape = b.shape ∧
      ∀ i < b.nrows, gs.row i = (List.range b.ncols).map (b.groupOf? missing i) := by
  suffices h : ∃ gs, groupIds? missing b = some gs ∧ gs.shape = b.shape ∧
      ∀ i j x, b.get? i j = some x → gs.get? i j = some (b.groupOf? missing i j) by
    obtain ⟨gs, hgs, hs, hcell⟩ := h
    refine ⟨gs, hgs, hs, fun i hi => List.ext_getElem? fun j => ?_⟩
    rw [Grid.getElem?_row, List.getElem?_map]
    by_cases hj : j < b.ncols
    · obtain ⟨x, hx⟩ := Option.isSome_iff_exists.1 (Block.isSome_get?.2 ⟨hi, hj⟩)
      rw [hcell i j x hx, List.getElem?_range hj, Option.map_some]
    · rw [List.getElem?_eq_none (by rw [List.length_range]; omega), Grid.get?_eq_none.2 fun h => hj ?_]
      · rfl
      · exact h.2.trans_eq (congrArg Prod.snd hs)
  cases b with
  | ints g =>
    refine ⟨_, rfl, rfl, fun i j x hx => ?_⟩
    obtain ⟨n, hn, -⟩ := Option.map_eq_some_iff.1 hx
    rw [Block.groupOf?, Block.isMissing, Grid.get?_map, Grid.get?_map, hn]
    simp only [Option.map_some, Option.some_inj]
  | labels a =>
    refine ⟨_, rfl, rfl, fun i j x hx => ?_⟩
    obtain ⟨code, hcode, -⟩ := Option.map_eq_some_iff.1 hx
    rw [Block.groupOf?, Grid.get?_map, hcode, Option.map_some]
    simp only [get?_isMissing_labels, hcode, Option.map_some, Option.some_inj]
    rfl
  | floats g => rcases hd with hd | hd <;> cases hd
  | bools g => rcases hd with hd | hd <;> cases hd
  | times g => rcases hd with hd | hd <;> cases hd

/-! ## One row -/

variable {ctx : Context} {grouped : Bool}

/-- The groups of the labels that a comparison is given, row by row. -/
theorem groupsOf_blocks (s : CrossSection ctx grouped) {t : Term} (hl : t.inputs.length = s.blocks.length)
    (hg : grouped = true) : ∃ gs, groupsOf t s.blocks = some gs ∧ gs.shape = ctx.shape ∧
      ∀ i < ctx.shape.1, gs.row i = s.groupRow t i := by
  obtain ⟨b, hb⟩ := Option.isSome_iff_exists.1 (s.byGroup.trans hg)
  have hblocks : s.blocks = [s.values, b] := by rw [CrossSection.blocks, hb]; rfl
  have hlt : 1 < t.inputs.length := by
    rw [hl, hblocks]
    exact Nat.lt_succ_self 1
  have hmissing : t.missingOf 1 = (t.inputs[1]).missing := by
    rw [Term.missingOf, List.getElem?_eq_getElem hlt]
    rfl
  obtain ⟨gs, hgs, hshape, hrow⟩ := groupIds?_eq (s.labelsType b hb) (t.missingOf 1)
  have hbs := s.labelsShape b hb
  refine ⟨gs, ?_, hshape.trans hbs, fun i hi => ?_⟩
  · rw [groupsOf, List.getElem?_eq_getElem hlt, hblocks]
    rw [hmissing] at hgs
    exact hgs
  · rw [hrow i (hi.trans_eq (congrArg Prod.fst hbs).symm), CrossSection.groupRow,
      show b.ncols = ctx.shape.2 from congrArg Prod.snd hbs]
    refine congrArg (List.map · _) (funext fun j => ?_)
    rw [CrossSection.group, hb]

/-- The numbers of a row, with what the mask keeps out made NaN. -/
theorem row_masked (s : CrossSection ctx grouped) (t : Term) (hm : ctx.mask.shape = ctx.shape) {i : Nat}
    (hi : i < ctx.shape.1) :
    (underMask ctx (s.values.cells.map (Scalar.number (t.missingOf 0)))).row i = s.numberRow t i := by
  refine List.ext_getElem? fun j => ?_
  rw [Grid.getElem?_row, underMask, Grid.get?_zipWith, Grid.get?_map, Block.get?_cells, CrossSection.numberRow,
    List.getElem?_map]
  by_cases hj : j < ctx.shape.2
  · have hin : i < s.values.nrows ∧ j < s.values.ncols := by
      rw [Block.nrows, Block.ncols, s.shape]
      exact ⟨hi, hj⟩
    obtain ⟨x, hx⟩ := Option.isSome_iff_exists.1 (Block.isSome_get?.2 hin)
    obtain ⟨keep, hkeep⟩ := Option.isSome_iff_exists.1 (Grid.isSome_get?.2
      ⟨hi.trans_eq (congrArg Prod.fst hm).symm, hj.trans_eq (congrArg Prod.snd hm).symm⟩)
    rw [hx, hkeep, List.getElem?_range hj, Option.map_some, Option.bind_some, Option.map_some, Option.map_some,
      CrossSection.masked, CrossSection.number, hx, hkeep]
    cases keep <;> rfl
  · rw [List.getElem?_eq_none (l := List.range _) (by rw [List.length_range]; omega),
      Grid.get?_eq_none.2 fun h => hj (h.2.trans_eq (congrArg Prod.snd hm))]
    cases s.values.get? i j <;> rfl

/-- The numbers of each row, and the groups if the comparison goes by group. -/
theorem crossSection_masked (s : CrossSection ctx grouped) (t : Term) (hm : ctx.mask.shape = ctx.shape) :
    ∃ values, values.shape = ctx.shape ∧ (∀ i < ctx.shape.1, values.row i = s.numberRow t i) ∧
      crossSection t ctx grouped s.inputs =
        if grouped then
          (groupsOf t s.blocks).elim (.error (.inputForm t.text 1 .classifier)) fun gs => .ok (values, some gs)
        else .ok (values, none) := by
  have hblocks : blocks t ctx.shape s.inputs = .ok s.blocks := by
    refine blocks_eq_ok.2 ⟨rfl, fun b hb => ?_⟩
    rcases List.mem_cons.1 hb with rfl | hb
    · exact s.shape
    · exact s.labelsShape b (Option.mem_toList.1 hb)
  have hfirst : numbers t 0 (s.blocks.headD (.floats (.replicate ctx.shape nan))) =
      .ok (s.values.cells.map (Scalar.number (t.missingOf 0))) := by
    rw [CrossSection.blocks, List.headD_cons, numbers_eq, if_neg s.numbers]
  have hnumbers : (s.values.cells.map (Scalar.number (t.missingOf 0))).shape = ctx.shape := by
    rw [Grid.shape_map, Block.shape_cells, s.shape]
  exact ⟨_, shape_underMask hm hnumbers, fun i hi => row_masked s t hm hi, crossSection_eq t grouped hblocks hfirst⟩

/-- A comparison is computed of the numbers and the groups of each row. -/
theorem crossSection_rows (s : CrossSection ctx grouped) {t : Term} (hl : t.inputs.length = s.blocks.length)
    (hm : ctx.mask.shape = ctx.shape) {f : List Float → List Float} (hf : Stats.Local f) :
    ∃ values groups, crossSection t ctx grouped s.inputs = .ok (values, groups) ∧
      (byRow f values groups).shape = ctx.shape ∧ ∀ i < ctx.shape.1,
        (byRow f values groups).row i = Stats.grouped f (s.numberRow t i) (s.groupRow t i) := by
  obtain ⟨values, hmasked, hrow, heq⟩ := crossSection_masked s t hm
  have hlt {i : Nat} (hi : i < ctx.shape.1) := hi.trans_eq (congrArg Prod.fst hmasked).symm
  rw [heq]
  by_cases hg : grouped = true
  · obtain ⟨gs, hgs, hshape, hgroup⟩ := groupsOf_blocks s hl hg
    rw [if_pos hg, hgs]
    refine ⟨_, some gs, rfl, hmasked, fun i hi => ?_⟩
    rw [row_byRow hf (fun _ h => Option.some.inj h ▸ hshape.trans hmasked.symm) (hlt hi), Option.map_some,
      Stats.across, hrow i hi, hgroup i hi]
  · have hnone : s.labels = none := by
      rw [← Option.not_isSome_iff_eq_none, s.byGroup]
      exact hg
    have hone (i : Nat) : s.groupRow t i = (s.numberRow t i).map fun _ => some 0 := by
      rw [CrossSection.groupRow, CrossSection.numberRow, List.map_map]
      refine congrArg (List.map · _) (funext fun j => ?_)
      rw [CrossSection.group, hnone]
      rfl
    rw [if_neg hg]
    refine ⟨_, none, rfl, hmasked, fun i hi => ?_⟩
    rw [row_byRow hf (fun (gs : Grid (Option Int)) (h : gs ∈ none) => by cases h) (hlt hi), Option.map_none,
      Stats.across, hrow i hi, hone]
    exact Stats.eq_grouped_one hf _

/-- A term that compares the cells of a row makes of each row what its function makes of the numbers
of each group. -/
theorem evaluate_comparison {t : Term} {f : List Float → List Float} (hk : t.kind.comparison? = some (f, grouped))
    (hmissing : t.missing = .float nan) (s : CrossSection ctx grouped) (hl : t.inputs.length = s.blocks.length)
    (hm : ctx.mask.shape = ctx.shape) : ∃ out, evaluate t s.inputs ctx = .ok (.floats out) ∧ out.shape = ctx.shape ∧
      ∀ i < ctx.shape.1, out.row i = Stats.grouped f (s.numberRow t i) (s.groupRow t i) := by
  have hf := compares_of_comparison? hk
  obtain ⟨values, groups, hcross, hshape, hrow⟩ := crossSection_rows s hl hm hf.onPresent
  have hunmasked : unmasked t s.inputs ctx = .ok (.floats (byRow f values groups)) := by
    rw [unmasked_comparison hk, hcross]
    rfl
  have hwhere : (Block.floats (byRow f values groups)).whereMask ctx.mask t.missing =
      .ok (.floats ((byRow f values groups).zipWith (fun x keep => if keep then x else nan) ctx.mask)) := by
    have hs : ctx.mask.shape = (Block.floats (byRow f values groups)).shape := hm.trans hshape.symm
    rw [hmissing, Block.whereMask, if_neg (not_not_intro hs)]
    rfl
  refine ⟨_, evaluate_eq_ok.2 ⟨hm, ?_, _, hunmasked, hshape, hwhere⟩, ?_, fun i hi => ?_⟩
  · rw [hl]
    exact List.length_map _
  · rw [Grid.shape_zipWith _ (hshape.trans hm.symm), hshape]
  · -- what the mask keeps out is NaN already
    rw [Grid.row_zipWith, hrow i hi]
    refine List.ext_getElem? fun j => ?_
    rw [List.getElem?_zipWith, Grid.getElem?_row]
    by_cases hj : j < ctx.shape.2
    · obtain ⟨keep, hkeep⟩ := Option.isSome_iff_exists.1 (Grid.isSome_get?.2
        ⟨hi.trans_eq (congrArg Prod.fst hm).symm, hj.trans_eq (congrArg Prod.snd hm).symm⟩)
      rw [hkeep]
      cases keep with
      | true => cases (Stats.grouped f (s.numberRow t i) (s.groupRow t i))[j]? <;> rfl
      | false =>
        have hnan : (s.numberRow t i)[j]? = some nan := by
          rw [CrossSection.numberRow, List.getElem?_map, List.getElem?_range hj, Option.map_some,
            CrossSection.masked, hkeep]
          rfl
        rw [Stats.grouped_nan hf (s.length_groupRow t i) hnan]
        rfl
    · have hlength : (Stats.grouped f (s.numberRow t i) (s.groupRow t i)).length = ctx.shape.2 := by
        rw [← hrow i hi, Grid.length_row (hi.trans_eq (congrArg Prod.fst hshape).symm)]
        exact congrArg Prod.snd hshape
      rw [List.getElem?_eq_none (by omega)]

end Evaluate

/-! ## Every term -/

/-- What is built of a draft that compares nothing compares nothing. -/
theorem Draft.comparison?_of_build {d : Draft} {t : Term} (h : d.build = .ok t) :
    t.kind.comparison? = d.kind.comparison? := by
  obtain ⟨domain, rfl, -⟩ := Draft.build_eq_ok h
  rfl

namespace Term

variable {t : Term}

theorem comparison?_of_ofExpr {e : Expr} {inputs : List Term} (h : ofExpr e inputs = .ok t) :
    t.kind.comparison? = none := by
  unfold ofExpr at h
  split at h <;> exact Draft.comparison?_of_build h

theorem scoped_of_comparison? {k : Kind} {f : List Float → List Float} {grouped : Bool}
    (h : k.comparison? = some (f, grouped)) : k.Scoped grouped := by
  unfold Kind.comparison? at h
  split at h <;> cases h <;> constructor

/-- What the operations make to compare the cells of a row has NaN for a missing value, and reads
the values and, if it goes by group, a classifier. -/
theorem Made.of_comparison (h : t.Made) {f : List Float → List Float} {grouped : Bool}
    (hk : t.kind.comparison? = some (f, grouped)) :
    t.missing = .float nan ∧ t.inputs.length = if grouped then 2 else 1 := by
  induction h using Made.drafted with
  | assetExists => cases hk
  | ofColumn c h => cases hk
  | latestOfColumn c h => cases hk
  | withMask _ _ h ih _ =>
    rw [Draft.comparison?_of_build h] at hk
    obtain ⟨domain, rfl, -⟩ := Draft.build_eq_ok h
    exact ih hk
  | binary _ _ _ _ h _ _ =>
    unfold Term.binary at h
    dsimp only at h
    split at h <;> rw [comparison?_of_ofExpr h] at hk <;> cases hk
  | unary _ _ h _ =>
    rw [comparison?_of_ofExpr h] at hk
    cases hk
  | @draft d _ _ h ho _ _ =>
    rw [Draft.comparison?_of_build h] at hk
    obtain ⟨hdtype, hmissing, hlength⟩ := ho.compares grouped (scoped_of_comparison? hk)
    obtain ⟨domain, rfl, -⟩ := Draft.build_eq_ok h
    refine ⟨?_, hlength⟩
    show ((d.missing.or d.dtype.defaultMissing?).getD (.int 0)) = _
    rw [hdtype, hmissing]
    rfl

end Term

namespace CrossSection

variable {ctx : Context} {grouped : Bool} {t : Term} {f : List Float → List Float}

/-- The row of a comparison, column by column. -/
theorem grouped_columns (hf : Stats.Compares f) (s : CrossSection ctx grouped) (t : Term) (i : Nat) :
    (∀ g, (s.columns t i g).map ((Stats.grouped f (s.numberRow t i) (s.groupRow t i))[·]?) =
      (f ((s.columns t i g).map (s.number t i))).map some) ∧
    ∀ j < ctx.shape.2, (∀ g, j ∉ s.columns t i g) →
      (Stats.grouped f (s.numberRow t i) (s.groupRow t i))[j]? = some nan := by
  obtain ⟨hin, hout⟩ := Stats.grouped_columns hf ctx.shape.2 (s.masked t i) (s.group t i)
  rw [← columns_eq] at hin hout
  refine ⟨fun g => ?_, hout⟩
  have hnumber : (s.columns t i g).map (s.masked t i) = (s.columns t i g).map (s.number t i) :=
    List.map_congr_left fun j hj => if_pos (s.of_mem_columns t hj)
  rw [← hnumber]
  exact hin g

/-- Two inputs have the same numbers in the cells that pass the mask, and those are in the same groups. -/
def Alike (t : Term) (s s' : CrossSection ctx grouped) : Prop := ∀ i j, ctx.mask.get? i j = some true →
  s.number t i j = s'.number t i j ∧ ((s.number t i j).isNaN = false → s.group t i j = s'.group t i j)

theorem Alike.columns_eq {s s' : CrossSection ctx grouped} (h : s.Alike t s') (i : Nat) (g : Int) :
    s.columns t i g = s'.columns t i g := by
  refine List.filter_congr fun j _ => ?_
  by_cases hm : ctx.mask.get? i j = some true
  · obtain ⟨hnumber, hgroup⟩ := h i j hm
    rw [← hnumber]
    cases hn : (s.number t i j).isNaN with
    | true => rw [Bool.not_true, Bool.and_false, Bool.false_and, Bool.false_and]
    | false => rw [hgroup hn]
  · simp only [beq_eq_false_iff_ne.2 hm, Bool.false_and]

/-- What the mask keeps out, and the groups of what has no number, do not show. -/
theorem Alike.grouped_eq {s s' : CrossSection ctx grouped} (h : s.Alike t s') (hf : Stats.Compares f) (i : Nat) :
    Stats.grouped f (s.numberRow t i) (s.groupRow t i) = Stats.grouped f (s'.numberRow t i) (s'.groupRow t i) := by
  obtain ⟨hin, hout⟩ := grouped_columns hf s t i
  obtain ⟨hin', hout'⟩ := grouped_columns hf s' t i
  have hlength (s : CrossSection ctx grouped) :
      (Stats.grouped f (s.numberRow t i) (s.groupRow t i)).length = ctx.shape.2 := by
    rw [Stats.grouped_eq f (s.length_groupRow t i), Stats.length_scatter, numberRow, List.length_map,
      List.length_range]
  refine List.ext_getElem? fun j => ?_
  by_cases hj : j < ctx.shape.2
  · by_cases hg : ∃ g, j ∈ s.columns t i g
    · obtain ⟨g, hg⟩ := hg
      have hnumbers : (s'.columns t i g).map (s.number t i) = (s'.columns t i g).map (s'.number t i) :=
        List.map_congr_left fun k hk => (h i k (s'.of_mem_columns t hk)).1
      have hmap := hin g
      rw [h.columns_eq, hnumbers, ← hin' g] at hmap
      exact List.map_inj_left.1 hmap j (h.columns_eq i g ▸ hg)
    · have hno := not_exists.1 hg
      rw [hout j hj hno, hout' j hj fun g => h.columns_eq i g ▸ hno g]
  · rw [List.getElem?_eq_none (by rw [hlength]; omega), List.getElem?_eq_none (by rw [hlength]; omega)]

end CrossSection

/-- A rank, a distance from the mean or a standardised one gives the cells of a row that pass the
mask, have a value and are in a group what the statistic gives the list of their values, in the
order of the columns, and gives all other cells NaN. The groups can be taken in any order, and
nothing else of the inputs shows. -/
theorem comparisons_by_group {t : Term} (ht : t.Made) {f : List Float → List Float} {grouped : Bool}
    (hk : t.kind.comparison? = some (f, grouped)) {ctx : Context} (hm : ctx.mask.shape = ctx.shape)
    (s : CrossSection ctx grouped) : ∃ out, evaluate t s.inputs ctx = .ok (.floats out) ∧ out.shape = ctx.shape ∧
      (∀ i < ctx.shape.1,
        (∀ g, (s.columns t i g).map (out.get? i) = (f ((s.columns t i g).map (s.number t i))).map some) ∧
        (∀ j < ctx.shape.2, (∀ g, j ∉ s.columns t i g) → out.get? i j = some nan) ∧
        ∀ order, order.Perm (Stats.distinct (s.groupRow t i)) →
          out.row i = Stats.groupedIn order f (s.numberRow t i) (s.groupRow t i)) ∧
      ∀ s' : CrossSection ctx grouped, s.Alike t s' → evaluate t s'.inputs ctx = .ok (.floats out) := by
  have hf := Evaluate.compares_of_comparison? hk
  obtain ⟨hmissing, hlength⟩ := ht.of_comparison hk
  have hinputs (s : CrossSection ctx grouped) : t.inputs.length = s.blocks.length := by
    rw [hlength, s.length_blocks]
  obtain ⟨out, hout, hshape, hrow⟩ := Evaluate.evaluate_comparison hk hmissing s (hinputs s) hm
  refine ⟨out, hout, hshape, fun i hi => ?_, fun s' halike => ?_⟩
  · obtain ⟨hin, hnone⟩ := CrossSection.grouped_columns hf s t i
    have hcell (j : Nat) : out.get? i j = (Stats.grouped f (s.numberRow t i) (s.groupRow t i))[j]? := by
      rw [← hrow i hi, Grid.getElem?_row]
    refine ⟨fun g => ?_, fun j hj hno => (hcell j).trans (hnone j hj hno), fun order ho => ?_⟩
    · rw [← hin g]
      exact List.map_congr_left fun j _ => hcell j
    · rw [hrow i hi, Stats.groupedIn_perm hf.onPresent (s.length_groupRow t i) ho]
  · obtain ⟨out', hout', hshape', hrow'⟩ := Evaluate.evaluate_comparison hk hmissing s' (hinputs s') hm
    have heq : out' = out := by
      refine Grid.ext_row (hshape'.trans hshape.symm) fun i hi => ?_
      have hi : i < ctx.shape.1 := hi.trans_eq (congrArg Prod.fst hshape')
      rw [hrow i hi, hrow' i hi, halike.grouped_eq hf i]
    rw [hout', heq]

/-! Prices against the mean of their sector, where one price is kept out. -/

/-- The distance of a price from the mean of its sector. -/
def aboveSector : Term :=
  .mk ⟨.transform .demean true, .factor, .float64, .float nan, 0, .generic, true⟩
    [.ofColumn price, .ofColumn sector] none

theorem aboveSector_made : aboveSector.Made :=
  .transform (x := ⟨.ofColumn price⟩) (s := ⟨none, some ⟨.ofColumn sector⟩⟩) (f := ⟨aboveSector⟩)
    (.ofColumn price rfl) rfl nofun (fun g hg => by obtain rfl := Option.some.inj hg; exact .ofColumn sector rfl)
    (fun g hg => by obtain rfl := Option.some.inj hg; rfl) rfl

/-- Four assets on one day, of which the third does not take part. -/
def fourAssets : Context := ⟨[⟨0⟩], [⟨1⟩, ⟨2⟩, ⟨3⟩, ⟨4⟩], .ofRows 4 [#v[true, true, false, true]]⟩

/-- The first three are of one sector. -/
def fourPrices : CrossSection fourAssets true where
  values := .floats (.ofRows 4 [#v[1.0, 3.0, 8.0, 5.0]])
  labels := some (.labels ⟨.ofRows 4 [#v[1, 1, 1, 2]], ["energy", "health"]⟩)
  shape := rfl
  numbers := nofun
  byGroup := rfl
  labelsShape := fun b hb => by
    obtain rfl := Option.some.inj hb
    rfl
  labelsType := fun b hb => by
    obtain rfl := Option.some.inj hb
    exact .inr rfl

theorem comparisons_by_group_fourPrices : aboveSector.Made ∧
    aboveSector.kind.comparison? = some (Stats.demean, true) ∧ fourAssets.mask.shape = fourAssets.shape ∧
    ∃ out, evaluate aboveSector fourPrices.inputs fourAssets = .ok (.floats out) ∧
      [0, 1].map (out.get? 0) = [some (-1.0), some 1.0] ∧ out.get? 0 2 = some nan ∧
      [3].map (out.get? 0) = [some 0.0] := by
  obtain ⟨out, hout, -, hrow, -⟩ := comparisons_by_group aboveSector_made rfl rfl fourPrices
  obtain ⟨hgroup, hnone, -⟩ := hrow 0 (by decide)
  refine ⟨aboveSector_made, rfl, rfl, out, hout, hgroup 1, hnone 2 (by decide) fun g hg => ?_, hgroup 2⟩
  have hpass := fourPrices.of_mem_columns aboveSector hg
  cases hpass

end AsOf
