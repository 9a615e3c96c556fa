import AsOf.Proofs.Evaluate.Kinds

/-!
# Contexts and inputs over some of the columns

`Context.selectColumns` keeps some of the assets of a context, and `Input.Restricts` says of
an input that it shows them of another. `Follows` is what is then to be proved of every kind
of term: where a computation over the context makes a block of its shape, the same over the
assets at hand makes their columns of it.

* `filterMap_places_pick`, `lookup_places_pick`: places chosen among others.
* `blocks_follow`, `cursors_follow`: what is read of the inputs.
* `overRows_keeps`: walking related cursors down the rows gives related rows.
* `gridOf_pick`: rows of which some cells are picked.
-/
namespace AsOf

/-- The assets at some places, with their cells of the mask. -/
def Context.selectColumns (cols : List Nat) (ctx : Context) : Context :=
  ⟨ctx.dates, cols.filterMap (ctx.sids[·]?), ctx.mask.selectColumns cols⟩

/-- An input that shows some columns of another: of its block, or of the windows that it
yields for some rows. -/
inductive Input.Restricts (cols : List Nat) (n : Nat) : Input → Input → Prop
  | block (b : Block) : Restricts cols n (.block b) (.block (b.selectColumns cols))
  | window {c c' : Cursor} (h : List.Forall₂ (Block.Restricts cols) (c.take n) (c'.take n)) :
      Restricts cols n (.window c) (.window c')

/-- A cursor whose windows are those of another, in some columns. -/
theorem Input.restricts_window {cols : List Nat} {n : Nat} {c c' : Cursor} (hv : ∀ w ∈ c.take n, w.Valid)
    (h : c'.take n = (c.take n).map (Block.selectColumns cols)) : Input.Restricts cols n (.window c) (.window c') := by
  refine .window ?_
  rw [h, List.forall₂_map_right_iff, List.forall₂_same]
  exact fun w hw => .selectColumns (hv w hw) cols

/-! ## Columns and places -/

/-- The places of flags are those of all places that they pick. -/
theorem places_eq_pick (flags : List Bool) : places flags = pick flags (List.range flags.length) := by
  rw [pick_eq_filterMap]
  conv_lhs => rw [← List.filterMap_some (l := places flags)]
  exact List.filterMap_congr fun j hj => (List.getElem?_range (lt_of_mem_places hj)).symm

/-- Places that are chosen among others, counted among them. -/
theorem filterMap_places_pick {flags inner : List Bool} (hl : inner.length = flags.length)
    (hle : ∀ j : Nat, inner[j]? = some true → flags[j]? = some true) :
    (places (pick flags inner)).filterMap ((places flags)[·]?) = places inner := by
  rw [← pick_eq_filterMap, places_eq_pick flags,
    pick_pick_of_le List.length_range.symm (hl.trans List.length_range.symm) hle, places_eq_pick inner, hl]

theorem length_places_pick {flags inner : List Bool} (hl : inner.length = flags.length)
    (hle : ∀ j : Nat, inner[j]? = some true → flags[j]? = some true) :
    (places (pick flags inner)).length = (places inner).length := by
  have hpick : (pick flags inner).length = (pick flags flags).length := length_pick_eq hl.symm rfl
  rw [← length_pick hpick, pick_pick_of_le rfl hl hle, length_pick hl]

theorem lookup_zip_eq_none {α β : Type} [BEq α] [LawfulBEq α] {keys : List α} {xs : List β} {key : α}
    (h : key ∉ keys) : (keys.zip xs).lookup key = none := by
  rw [List.lookup_eq_none_iff]
  intro p hp
  rw [bne_iff_ne]
  rintro rfl
  exact h (List.of_mem_zip (a := p.1) (b := p.2) hp).1

/-- Where values are listed place by place, a place has its value. -/
theorem lookup_places {α : Type} {flags : List Bool} {xs : List α} {value? : Nat → Option α}
    (hx : ∀ k : Nat, xs[k]? = (places flags)[k]?.bind value?) (j : Nat) :
    ((places flags).zip xs).lookup j = if flags[j]? = some true then value? j else none := by
  by_cases hj : flags[j]? = some true
  · obtain ⟨k, hk⟩ := List.getElem?_of_mem (mem_places.2 hj)
    rw [if_pos hj, lookup_zip (nodup_places flags) hk, hx, hk, Option.bind_some]
  · rw [if_neg hj, lookup_zip_eq_none fun h => hj (mem_places.1 h)]

/-- A place that is chosen among others finds what it finds as one of them. -/
theorem lookup_places_pick {α : Type} {flags inner : List Bool} (hl : inner.length = flags.length)
    (hle : ∀ j : Nat, inner[j]? = some true → flags[j]? = some true) (xs : List α) {p j : Nat}
    (hp : (places flags)[p]? = some j) :
    ((places (pick flags inner)).zip xs).lookup p = ((places inner).zip xs).lookup j := by
  have hflag : (pick flags inner)[p]? = inner[j]? := by rw [getElem?_pick, hp, Option.bind_some]
  by_cases hj : inner[j]? = some true
  · obtain ⟨k, hk⟩ := List.getElem?_of_mem (mem_places.2 (hflag.trans hj))
    have hk' : (places inner)[k]? = some j := by
      rw [← filterMap_places_pick hl hle, getElem?_filterMap_getElem? (pairwise_places _), hk, Option.bind_some, hp]
    rw [lookup_zip (nodup_places _) hk, lookup_zip (nodup_places _) hk']
  · rw [lookup_zip_eq_none fun h => hj (mem_places.1 h),
      lookup_zip_eq_none fun h => hj (hflag.symm.trans (mem_places.1 h))]

namespace WindowKernel

/-- The number of one asset. -/
def value? (k : WindowKernel) (windows : List (Grid Float)) (j : Nat) : Option Float :=
  match windows with
  | [] => none
  | first :: rest =>
    if j < first.ncols then some (k.apply (first.column j) ((rest.head?.map (·.column j)).getD [])) else none

theorem getElem?_compute (k : WindowKernel) (windows : List (Grid Float)) (j : Nat) :
    (k.compute windows)[j]? = k.value? windows j := by
  cases windows with
  | nil => rfl
  | cons first rest =>
    rw [compute, value?, List.getElem?_map]
    by_cases hj : j < first.ncols
    · rw [if_pos hj, List.getElem?_range hj]
      rfl
    · rw [if_neg hj, List.getElem?_eq_none (by simpa using hj)]
      rfl

/-- A window kernel looks at one asset at a time. -/
theorem value?_selectColumns (k : WindowKernel) {cols : List Nat} (h : cols.Pairwise (· < ·))
    (windows : List (Grid Float)) (p : Nat) :
    k.value? (windows.map (Grid.selectColumns cols)) p = cols[p]?.bind (k.value? windows) := by
  cases windows with
  | nil => cases cols[p]? <;> rfl
  | cons first rest =>
    rw [List.map_cons, value?]
    simp only [Grid.lt_ncols_selectColumns h]
    cases hp : cols[p]? with
    | none => rw [if_neg (by rintro ⟨j, hj, -⟩; cases hj), Option.bind_none]
    | some j =>
      rw [Option.bind_some, value?]
      by_cases hj : j < first.ncols
      · rw [if_pos ⟨j, rfl, hj⟩, if_pos hj, Grid.column_selectColumns h, hp]
        cases rest with
        | nil => rfl
        | cons second rest =>
          have hsecond : (second.selectColumns cols).column p = second.column j := by
            rw [Grid.column_selectColumns h, hp]
            rfl
          exact congrArg (fun y => some (k.apply (first.column j) y)) hsecond
      · rw [if_neg (by rintro ⟨_, ⟨⟩, hj'⟩; exact hj hj'), if_neg hj]

end WindowKernel

namespace Evaluate

/-! ## Walking down the rows -/

section Walk

variable {α β : Type} {t : Term} {R : Block → Block → Prop}

/-- Cursors whose next windows are related, one by one. -/
abbrev Paired (R : Block → Block → Prop) (n : Nat) (cs cs' : List Cursor) : Prop :=
  List.Forall₂ (fun c c' => List.Forall₂ R (c.take n) (c'.take n)) cs cs'

/-- What is read of related windows is related, and the windows behind them are. -/
theorem advance_keeps {f f' : Nat → Block → Except EvalError α} {X : α → α → Prop} {row n : Nat}
    (hf : ∀ index w w' x, R w w' → f index w = .ok x → ∃ x', f' index w' = .ok x' ∧ X x x')
    {cs cs' : List Cursor} (hc : Paired R (n + 1) cs cs') {index : Nat} {xs : List α} {rest : List Cursor}
    (h : advance t f row index cs = .ok (xs, rest)) :
    ∃ xs' rest', advance t f' row index cs' = .ok (xs', rest') ∧ List.Forall₂ X xs xs' ∧ Paired R n rest rest' := by
  induction hc generalizing index xs rest with
  | nil =>
    obtain ⟨rfl, rfl⟩ := Prod.mk.inj (Except.ok.inj h)
    exact ⟨[], [], rfl, .nil, .nil⟩
  | @cons c c' cs cs' hcc' _ ih =>
    rw [advance] at h
    rw [Cursor.take, Cursor.take] at hcc'
    cases hn : c.next? with
    | none =>
      rw [hn] at h
      cases h
    | some next =>
      obtain ⟨w, d⟩ := next
      rw [hn] at h hcc'
      cases hn' : c'.next? with
      | none =>
        rw [hn'] at hcc'
        cases hcc'
      | some next' =>
        obtain ⟨w', d'⟩ := next'
        rw [hn'] at hcc'
        obtain ⟨hw, hd⟩ := List.forall₂_cons.1 hcc'
        obtain ⟨x, hx, h⟩ := Checked.bind_eq_ok.1 h
        obtain ⟨⟨ys, ds⟩, hys, h⟩ := Checked.bind_eq_ok.1 h
        obtain ⟨rfl, rfl⟩ := Prod.mk.inj (Except.ok.inj h)
        obtain ⟨x', hx', hxx'⟩ := hf index w w' x hw hx
        obtain ⟨ys', ds', hys', hyy', hdd'⟩ := ih hys
        refine ⟨x' :: ys', d' :: ds', ?_, .cons hxx' hyy', .cons hd hdd'⟩
        rw [advance, hn']
        simp only [hx', hys']
        rfl

/-- Walking related cursors down the rows gives related rows. -/
theorem overRows_keeps {f f' : Nat → Nat → Block → Except EvalError α}
    {combine combine' : Nat → List α → Except EvalError β}
    {X : Nat → α → α → Prop} {Y : β → β → Prop} {rows : List Nat}
    (hf : ∀ row ∈ rows, ∀ index w w' x, R w w' → f row index w = .ok x → ∃ x', f' row index w' = .ok x' ∧ X row x x')
    (hc : ∀ row ∈ rows, ∀ xs xs' y, List.Forall₂ (X row) xs xs' → combine row xs = .ok y →
      ∃ y', combine' row xs' = .ok y' ∧ Y y y')
    {cs cs' : List Cursor} (hcs : Paired R rows.length cs cs') {ys : List β}
    (h : overRows t f combine rows cs = .ok ys) :
    ∃ ys', overRows t f' combine' rows cs' = .ok ys' ∧ List.Forall₂ Y ys ys' := by
  induction rows generalizing cs cs' ys with
  | nil =>
    obtain rfl := Except.ok.inj h
    exact ⟨[], rfl, .nil⟩
  | cons row rows ih =>
    rw [overRows] at h
    obtain ⟨⟨xs, ds⟩, hxs, h⟩ := Checked.bind_eq_ok.1 h
    obtain ⟨y, hy, h⟩ := Checked.bind_eq_ok.1 h
    obtain ⟨zs, hzs, h⟩ := Checked.bind_eq_ok.1 h
    obtain rfl := Except.ok.inj h
    obtain ⟨xs', ds', hxs', hxx', hdd'⟩ := advance_keeps (hf row List.mem_cons_self) hcs hxs
    obtain ⟨y', hy', hyy'⟩ := hc row List.mem_cons_self xs xs' y hxx' hy
    obtain ⟨zs', hzs', hzz'⟩ := ih (fun row hrow => hf row (List.mem_cons_of_mem _ hrow))
      (fun row hrow => hc row (List.mem_cons_of_mem _ hrow)) hdd' hzs
    refine ⟨y' :: zs', ?_, .cons hyy' hzz'⟩
    rw [overRows, hxs']
    show (combine' row xs' >>= _) = _
    rw [hy']
    show (overRows t f' combine' rows ds' >>= _) = _
    rw [hzs']
    rfl

end Walk

/-! ## What is given and what is made -/

/-- Flags for the assets of a context, whose mask has its shape. -/
structure Selects (flags : List Bool) (ctx : Context) : Prop where
  length : flags.length = ctx.sids.length
  mask : ctx.mask.shape = ctx.shape

/-- The inputs of an evaluation and those of one over the assets under the flags. -/
abbrev Given (flags : List Bool) (ctx : Context) (inputs inputs' : List Input) : Prop :=
  List.Forall₂ (Input.Restricts (places flags) ctx.dates.length) inputs inputs'

/-- Where a computation over a context makes a block of its shape, one over the assets under
the flags makes their columns of it: exactly, or as values. -/
def Follows (flags : List Bool) (ctx : Context) (r r' : Except EvalError Block) : Prop :=
  ∀ out, r = .ok out → out.shape = ctx.shape → ∃ out', r' = .ok out' ∧
    (out' = out.selectColumns (places flags) ∨ out.Restricts (places flags) out')

variable {t : Term} {flags : List Bool} {ctx : Context} {inputs inputs' : List Input}

namespace Selects

variable (h : Selects flags ctx)

include h

theorem inside : ∀ j ∈ places flags, j < ctx.shape.2 := fun _ hj => (lt_of_mem_places hj).trans_eq h.length

theorem shape_selectColumns : (ctx.selectColumns (places flags)).shape = (ctx.shape.1, (places flags).length) := by
  refine Prod.ext rfl ?_
  show ((places flags).filterMap (ctx.sids[·]?)).length = _
  rw [← pick_eq_filterMap, length_pick h.length]

theorem length_row {i : Nat} (hi : i < ctx.shape.1) : (ctx.mask.row i).length = flags.length := by
  rw [Grid.length_row ((Grid.shape_eq.1 h.mask).1.symm ▸ hi), h.length]
  exact congrArg Prod.snd h.mask

/-- The assets that take part in a row are the same, if none that does is left out. -/
theorem assets_selectColumns {i : Nat} (hi : i < ctx.shape.1)
    (hle : ∀ j : Nat, (ctx.mask.row i)[j]? = some true → flags[j]? = some true) :
    assets (ctx.selectColumns (places flags)) i = assets ctx i := by
  show pick ((ctx.mask.selectColumns (places flags)).row i) ((places flags).filterMap (ctx.sids[·]?)) = _
  rw [← pick_eq_filterMap, Grid.row_selectColumns, pick_pick_of_le h.length ((h.length_row hi).trans h.length) hle]
  rfl

end Selects

theorem blocks_follow (hs : Selects flags ctx) (hin : Given flags ctx inputs inputs') {bs : List Block}
    (h : blocks t ctx.shape inputs = .ok bs) :
    blocks t (ctx.selectColumns (places flags)).shape inputs' = .ok (bs.map (Block.selectColumns (places flags))) ∧
      ∀ b ∈ bs, b.shape = ctx.shape := by
  obtain ⟨rfl, hshape⟩ := blocks_eq_ok.1 h
  refine ⟨blocks_eq_ok.2 ⟨?_, fun b' hb' => ?_⟩, hshape⟩
  · rw [List.map_map, ← List.map_id inputs']
    exact (Checked.map_eq_map (List.forall₂_map_left_iff.1 hin) fun b input' hb => by cases hb; rfl).symm
  · obtain ⟨b, hb, rfl⟩ := List.mem_map.1 hb'
    have hb := hshape b hb
    rw [hs.shape_selectColumns,
      Block.shape_selectColumns fun j hj => (hs.inside j hj).trans_eq (congrArg Prod.snd hb.symm)]
    exact congrArg (·.1, _) hb

theorem cursors_follow (hin : Given flags ctx inputs inputs') {cs : List Cursor} (h : cursors t inputs = .ok cs) :
    ∃ cs', cursors t inputs' = .ok cs' ∧ Paired (Block.Restricts (places flags)) ctx.shape.1 cs cs' := by
  obtain rfl := cursors_eq_ok.1 h
  suffices hex : ∃ cs' : List Cursor, inputs' = cs'.map .window ∧
      Paired (Block.Restricts (places flags)) ctx.shape.1 cs cs' by
    obtain ⟨cs', rfl, hcs⟩ := hex
    exact ⟨cs', cursors_eq_ok.2 rfl, hcs⟩
  clear h
  induction cs generalizing inputs' with
  | nil =>
    cases hin
    exact ⟨[], rfl, .nil⟩
  | cons c cs ih =>
    obtain ⟨input', rest', hinput, hrest, rfl⟩ := List.forall₂_cons_left_iff.1 hin
    obtain ⟨cs', rfl, hcs⟩ := ih hrest
    cases hinput with
    | window hc => exact ⟨_ :: cs', rfl, .cons hc hcs⟩

/-! ## Rows put together -/

theorem get?_gridOf {α : Type} (shape : Nat × Nat) (d : α) (rows : List (List α)) (i j : Nat) :
    (gridOf shape d rows).get? i j =
      if i < shape.1 ∧ j < shape.2 then some ((rows[i]?.bind (·[j]?)).getD d) else none := by
  rw [gridOf, Grid.get?_ofFn]
  by_cases hij : i < shape.1 ∧ j < shape.2
  · rw [dif_pos hij, if_pos hij]
    simp only [List.getElem?_toArray, List.getElem?_map]
    cases rows[i]? with
    | none => rfl
    | some row => simp only [Option.map_some, Option.bind_some, List.getElem?_toArray]
  · rw [dif_neg hij, if_neg hij]

/-- Rows of which some cells are picked make the columns of those cells. -/
theorem gridOf_pick {α : Type} {shape : Nat × Nat} (hl : flags.length = shape.2) (d : α) (rows : List (List α)) :
    gridOf (shape.1, (places flags).length) d (rows.map (pick flags)) =
      (gridOf shape d rows).selectColumns (places flags) := by
  have hinside : ∀ j ∈ places flags, j < (gridOf shape d rows).ncols := fun j hj =>
    (lt_of_mem_places hj).trans_eq hl
  refine Grid.ext_get? (Grid.shape_selectColumns hinside).symm fun i k => ?_
  rw [get?_gridOf, Grid.get?_selectColumns hinside]
  cases hk : (places flags)[k]? with
  | none => rw [if_neg fun h => absurd (List.getElem?_eq_none_iff.1 hk) (Nat.not_le.2 h.2), Option.bind_none]
  | some j =>
    have hj : j < shape.2 := (lt_of_mem_places (List.mem_of_getElem? hk)).trans_eq hl
    have hkl : k < (places flags).length := (List.getElem?_eq_some_iff.1 hk).1
    rw [Option.bind_some, get?_gridOf, List.getElem?_map]
    simp only [hj, hkl, and_true]
    cases rows[i]? with
    | none => rfl
    | some row => simp only [Option.map_some, Option.bind_some, getElem?_pick, hk]

/-- The rows of a grid of some columns. -/
theorem toLists_selectColumns {α : Type} (g : Grid α) (flags : List Bool) :
    (g.selectColumns (places flags)).toLists = g.toLists.map (pick flags) := by
  rw [Grid.toLists_selectColumns (pairwise_places flags)]
  exact List.map_congr_left fun row _ => (pick_eq_filterMap flags row).symm

theorem ofFloats_selectColumns (cols : List Nat) (g : Grid Float) (dtype : Dtype) :
    ofFloats (g.selectColumns cols) dtype = (ofFloats g dtype).selectColumns cols := by
  cases dtype with
  | bool => exact congrArg Block.bools (Grid.map_selectColumns ..)
  | _ => rfl

end Evaluate
end AsOf
