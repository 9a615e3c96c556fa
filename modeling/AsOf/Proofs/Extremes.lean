import AsOf.Proofs.Constants
import AsOf.Proofs.Ranks

/-!
# The largest and the smallest of a row

To take the `n` largest values of a row is to rank them and to compare their ranks with `n`. The
rank is a term of its own, and only that keeps to the mask that is given; what compares the ranks
keeps to the root mask alone, and what has no rank fails its test. Places are handed out one time
each, so as many values pass as there are places up to `n`.

* `Stats.length_upTo`: how many values have a place up to a number.
* `Factor.evaluate_rankOf`: the ranks that are compared.
* `Factor.evaluate_atMost`: what is true where a number is at most another.
* `Factor.extremes_selected`: `top` and `bottom` are true of the extremes.
-/
namespace AsOf

/-! ## Places up to a number -/

namespace Stats

variable (ascending : Bool) (xs : List Float)

/-- The positions whose place is at most a number. -/
def upTo (n : Nat) : List Nat := ((present xs).map Entry.index).filter fun j => decide (place ascending xs j ≤ n)

theorem length_upTo (n : Nat) : (upTo ascending xs n).length = min n (present xs).length := by
  have hcount := (perm_place ascending xs).countP_eq fun p => decide (p < n + 1)
  rw [countP_range'_lt, List.countP_map, Nat.add_sub_cancel] at hcount
  rw [upTo, ← List.countP_eq_length_filter, List.countP_map, ← hcount]
  exact List.countP_congr fun e _ => by simp only [Function.comp_apply, decide_eq_true_eq, Nat.lt_succ_iff]

/-- What is selected of some columns is as many of them as asked for, or all if they are fewer, and
none that is left out is larger, or smaller. -/
structure Selects (largest : Bool) (n : Nat) (among : List Nat) (number : Nat → Float) (selected : List Nat) :
    Prop where
  subset : ∀ j ∈ selected, j ∈ among
  count : selected.length = min n among.length
  extreme : ∀ j ∈ selected, ∀ k ∈ among, k ∉ selected →
    if largest then orderKey (number k) ≤ orderKey (number j) else orderKey (number j) ≤ orderKey (number k)

/-- Only the numbers matter that stand in the columns. -/
theorem Selects.congr {largest : Bool} {n : Nat} {among selected : List Nat} {number number' : Nat → Float}
    (h : Selects largest n among number selected) (he : ∀ j ∈ among, number j = number' j) :
    Selects largest n among number' selected where
  subset := h.subset
  count := h.count
  extreme j hj k hk hno := by
    rw [← he j (h.subset j hj), ← he k hk]
    exact h.extreme j hj k hk hno

/-- The first places are those of the extremes. -/
theorem selects_upTo (largest : Bool) (xs : List Float) (n : Nat) :
    Selects largest n ((present xs).map Entry.index) (fun j => xs.getD j nan) (upTo (!largest) xs n) where
  subset j hj := List.mem_of_mem_filter hj
  count := by rw [length_upTo, List.length_map]
  extreme j hj k hk hno := by
    obtain ⟨hj, hle⟩ := List.mem_filter.1 hj
    rw [decide_eq_true_eq] at hle
    have hgt : n < place (!largest) xs k :=
      Nat.not_le.1 fun hle => hno (List.mem_filter.2 ⟨hk, decide_eq_true hle⟩)
    obtain ⟨a, ha, rfl⟩ := List.mem_map.1 hj
    obtain ⟨b, hb, rfl⟩ := List.mem_map.1 hk
    have horder := orderKey_le_of_precedes (!largest) (precedes_of_place_lt (!largest) ha hb (hle.trans_lt hgt))
    have value {e : Entry} (he : e ∈ present xs) : xs.getD e.index nan = e.value := by
      rw [List.getD_eq_getElem?_getD, (mem_present.1 he).1, Option.getD_some]
    simp only [value ha, value hb]
    cases largest <;> exact horder

/-- A rank is at most a count where there is a value and its place is. -/
theorem ordinal_le_iff {n j : Nat} {v : Float} (hj : xs[j]? = some v) (hlt : xs.length < 2 ^ 53) :
    (∃ x, (rank .ordinal ascending xs)[j]? = some x ∧ x ≤ ofCount n) ↔ j ∈ upTo ascending xs n := by
  rw [getElem?_rank ascending .ordinal hj, upTo, List.mem_filter, decide_eq_true_eq]
  by_cases hv : v.isNaN = true
  · rw [if_pos hv]
    refine iff_of_false (fun ⟨x, hx, hle⟩ => ?_) fun ⟨hmem, _⟩ => ?_
    · obtain rfl := Option.some.inj hx
      exact not_nan_le _ hle
    · obtain ⟨e, he, rfl⟩ := List.mem_map.1 hmem
      obtain ⟨he, hnan⟩ := mem_present.1 he
      rw [hj] at he
      rw [Option.some.inj he, hnan] at hv
      cases hv
  · have hmem : ⟨j, v⟩ ∈ present xs := mem_present.2 ⟨hj, Bool.eq_false_iff.2 hv⟩
    have hle : ofCount (place ascending xs j) ≤ ofCount n ↔ place ascending xs j ≤ n :=
      ofCount_le_iff ((place_le ascending hmem).trans_lt hlt)
    rw [if_neg hv]
    refine ⟨fun ⟨x, hx, hxn⟩ => ⟨List.mem_map.2 ⟨_, hmem, rfl⟩, ?_⟩, fun h => ⟨_, rfl, hle.2 h.2⟩⟩
    obtain rfl := Option.some.inj hx
    exact hle.1 hxn

end Stats

/-! ## Comparing with a number -/

/-- The sign of a zero that is compared with does not matter. -/
theorem le_toFloat_iff {x c : Float} (hc : c.isNaN = false) : x ≤ (Param.ofFloat c).toFloat ↔ x ≤ c := by
  rw [Param.toFloat_ofFloat]
  split
  · rename_i hzero
    have h0 : (0.0 : Float).isNaN = false := by decide
    cases hx : x.isNaN with
    | true =>
      rw [eq_nan hx]
      exact iff_of_false (not_nan_le _) (not_nan_le _)
    | false => rw [le_iff_level hx h0, le_iff_level hx hc, ← (beq_iff_level hc h0).1 hzero]
  · rfl

/-- A mask takes truth values away. -/
theorem Block.exists_of_whereMask_false {mask : Grid Bool} {b out : Block} (hs : mask.shape = b.shape)
    (h : b.whereMask mask (.bool false) = .ok out) : ∃ g : Grid Bool, out = .bools g ∧ g.shape = b.shape ∧
      ∀ i j, g.get? i j = some true → mask.get? i j = some true := by
  unfold whereMask at h
  rw [if_neg (not_not_intro hs)] at h
  cases b with
  | bools g =>
    obtain rfl := Except.ok.inj h
    refine ⟨_, rfl, Grid.shape_zipWith _ hs.symm, fun i j hij => ?_⟩
    rw [Grid.get?_zipWith] at hij
    cases hm : mask.get? i j with
    | none => rw [hm] at hij; cases hg : g.get? i j <;> rw [hg] at hij <;> cases hij
    | some keep =>
      cases keep with
      | true => rfl
      | false => rw [hm] at hij; cases hg : g.get? i j <;> rw [hg] at hij <;> cases hij
  | _ => cases h

namespace Term

/-- A formula of one term that is none itself. -/
theorem compared_eq_ok {op : BinaryOp} {u t : Term} {c : Float} (hk : ∀ e, u.kind ≠ .expression e)
    (h : Term.binary op (.term u) (.const c) = .ok t) :
    t.inputs = [u] ∧ t.OfFormula (.binary op (.input 0) (.const (.ofFloat c))) := by
  have hjoin : join op (Operand.term u).unfolded (Operand.const c).unfolded =
      (.binary op (.input 0) (.const (.ofFloat c)), [u]) := by
    rw [Operand.unfolded_leaf hk]
    rfl
  have hfits : Fits op (.term u) (.const c) := by
    rw [Fits, hjoin]
    exact show 1 ≤ maxInputs by decide
  rw [binary_of_fits hfits, hjoin] at h
  exact ofExpr_eq_ok h (Nat.le_refl 1)

/-- Where the numbers are that are at most another one. -/
theorem evaluate_atMost {u t : Term} {c : Float} (hk : ∀ e, u.kind ≠ .expression e) (hu : u.missing = .float nan)
    (hc : c.isNaN = false) (h : Term.binary .le (.term u) (.const c) = .ok t) {ctx : Context}
    (hm : ctx.mask.shape = ctx.shape) {g : Grid Float} (hg : g.shape = ctx.shape) :
    ∃ out, evaluate t [.block (.floats g)] ctx = .ok (.bools out) ∧ out.shape = ctx.shape ∧
      ∀ i j, out.get? i j = some true ↔ ctx.mask.get? i j = some true ∧ ∃ x, g.get? i j = some x ∧ x ≤ c := by
  obtain ⟨hinputs, hf⟩ := compared_eq_ok hk h
  have hv : Valued ctx fun _ => .floats g := ⟨hm, fun _ => hg, fun _ _ _ => rfl⟩
  have hgiven : t.given (fun _ => .floats g) = [.block (.floats g)] := by
    rw [given, hinputs]
    rfl
  obtain ⟨hex, hvalue⟩ := evaluate_formula hf hv
  obtain ⟨b, hb⟩ := hex fun _ _ hlabels => by cases hlabels
  have hcell := (hvalue b hb).2
  obtain ⟨-, -, whole, -, hs, hwhere⟩ := Evaluate.evaluate_eq_ok.1 hb
  rw [hf.missing] at hwhere
  obtain ⟨out, rfl, hshape, hinside⟩ := Block.exists_of_whereMask_false (hm.trans hs.symm) hwhere
  refine ⟨out, hgiven ▸ hb, hshape.trans hs, fun i j => ?_⟩
  suffices hin : ctx.mask.get? i j = some true →
      (out.get? i j = some true ↔ ∃ x, g.get? i j = some x ∧ x ≤ c) from
    ⟨fun hij => ⟨hinside i j hij, (hin (hinside i j hij)).1 hij⟩, fun hij => (hin hij.1).2 hij.2⟩
  intro hij
  have hlt := Grid.lt_of_get? hij
  obtain ⟨x, hx⟩ := Option.isSome_iff_exists.1 (Grid.isSome_get?.2 (show i < g.nrows ∧ j < g.ncols from
    ⟨hlt.1.trans_eq (congrArg Prod.fst (hm.trans hg.symm)), hlt.2.trans_eq (congrArg Prod.snd (hm.trans hg.symm))⟩))
  have hnumber : numbersIn (fun _ => .floats g) i j t.inputs 0 = x := by
    rw [numbersIn, hinputs]
    show ((((Block.floats g).get? i j).map (Scalar.number u.missing))).getD nan = x
    show ((((g.get? i j).map Scalar.float).map (Scalar.number u.missing))).getD nan = x
    rw [hx, hu]
    rfl
  have hout : (out.get? i j).map Scalar.bool = some (.bool (decide (x ≤ c))) := by
    refine (hcell i j hij).trans ?_
    rw [hf.dtype]
    show some (Scalar.bool (isTrue (truth (decide
      (numbersIn (fun _ => .floats g) i j t.inputs 0 ≤ (Param.ofFloat c).toFloat))))) = _
    rw [isTrue_truth, hnumber, decide_eq_decide.2 (le_toFloat_iff hc)]
  obtain ⟨b, hb, hbool⟩ := Option.map_eq_some_iff.1 hout
  cases hbool
  rw [hb, Option.some_inj, decide_eq_true_eq]
  refine ⟨fun hle => ⟨x, hx, hle⟩, fun h => ?_⟩
  obtain ⟨x', hx', hle⟩ := h
  rwa [Option.some.inj (hx.symm.trans hx')]

end Term

/-! ## The extremes of a factor -/

/-- The context that a term with a mask is evaluated in: cells take part if they pass that, too, as
`Plan.follow` has it. -/
def Context.narrow (ctx : Context) (keep : Option (Grid Bool)) : Context :=
  { ctx with mask := keep.elim ctx.mask fun g => ctx.mask.zipWith (· && ·) g }

namespace Context

variable {ctx : Context} {keep : Option (Grid Bool)}

theorem shape_narrow (hm : ctx.mask.shape = ctx.shape) (hkeep : ∀ g ∈ keep, g.shape = ctx.shape) :
    (ctx.narrow keep).mask.shape = ctx.shape := by
  cases keep with
  | none => exact hm
  | some g => exact (Grid.shape_zipWith _ (hm.trans (hkeep g rfl).symm)).trans hm

theorem get?_narrow {i j : Nat} : (ctx.narrow keep).mask.get? i j = some true ↔
    ctx.mask.get? i j = some true ∧ ∀ g ∈ keep, g.get? i j = some true := by
  cases keep with
  | none => exact ⟨fun h => ⟨h, nofun⟩, fun h => h.1⟩
  | some g =>
    show (ctx.mask.zipWith (· && ·) g).get? i j = some true ↔ _
    rw [Grid.get?_zipWith]
    cases ctx.mask.get? i j with
    | none => exact iff_of_false nofun nofun
    | some b => cases b <;> cases hg : g.get? i j <;> simp [hg]

end Context

namespace Factor

variable {x : Factor} {ctx : Context}

/-- The number of a factor in a cell, NaN if its value is missing. -/
def numberAt (x : Factor) (values : Block) (i j : Nat) : Float :=
  ((values.get? i j).map (Scalar.number x.term.missing)).getD nan

/-- The columns of a row in which a factor has a value that neither mask keeps out. -/
def candidates (x : Factor) (ctx : Context) (keep : Option (Grid Bool)) (values : Block) (i : Nat) : List Nat :=
  (List.range ctx.shape.2).filter fun j =>
    ctx.mask.get? i j == some true && keep.all (fun g => g.get? i j == some true) && !(x.numberAt values i j).isNaN

theorem rank_eq_ok {method : Stats.RankMethod} {ascending : Bool} {mask : Option Filter} {r : Factor}
    (h : x.rank method ascending { mask } = .ok r) : r.term.kind = .rank method ascending false ∧
      r.term.inputs = [x.term] ∧ r.term.mask = mask.map Filter.term ∧ r.term.missing = .float nan := by
  obtain ⟨t, ht, rfl⟩ := Checked.map_eq_ok.1 h
  obtain ⟨domain, rfl, -⟩ := Draft.build_eq_ok ht
  exact ⟨rfl, rfl, rfl, rfl⟩

/-- To select is to rank and to compare the ranks with a count. -/
theorem extremes_eq_ok {largest : Bool} {n : Nat} {mask : Option Filter} {f : Filter}
    (h : (if largest then x.top n mask else x.bottom n mask) = .ok f) :
    ∃ r, x.rank .ordinal (!largest) { mask } = .ok r ∧
      Term.binary .le (.term r.term) (.const (ofCount n)) = .ok f.term := by
  cases largest with
  | true =>
    obtain ⟨r, hr, h⟩ := Checked.bind_eq_ok.1 h
    obtain ⟨t, ht, rfl⟩ := Checked.map_eq_ok.1 h
    exact ⟨r, hr, ht⟩
  | false =>
    obtain ⟨r, hr, h⟩ := Checked.bind_eq_ok.1 h
    obtain ⟨t, ht, rfl⟩ := Checked.map_eq_ok.1 h
    exact ⟨r, hr, ht⟩

/-- The ranks of each row are those of the numbers that pass the mask. -/
theorem evaluate_rankOf {method : Stats.RankMethod} {ascending : Bool} {mask : Option Filter} {r : Factor}
    (h : x.rank method ascending { mask } = .ok r) (hm : ctx.mask.shape = ctx.shape) (s : CrossSection ctx false) :
    ∃ ranked, evaluate r.term s.inputs ctx = .ok (.floats ranked) ∧ ranked.shape = ctx.shape ∧
      ∀ i < ctx.shape.1, ranked.row i = Stats.rank method ascending (s.numberRow r.term i) := by
  obtain ⟨hkind, hinputs, -, hmissing⟩ := rank_eq_ok h
  have hcomparison : r.term.kind.comparison? = some (Stats.rank method ascending, false) := by
    rw [hkind]
    rfl
  obtain ⟨ranked, hout, hshape, hrow⟩ := Evaluate.evaluate_comparison hcomparison hmissing s
    (by rw [hinputs, s.length_blocks]; rfl) hm
  have hone (i : Nat) : s.groupRow r.term i = (s.numberRow r.term i).map fun _ => some 0 := by
    have hnone : s.labels = none := by
      rw [← Option.not_isSome_iff_eq_none, s.byGroup]
      exact Bool.false_ne_true
    rw [CrossSection.groupRow, CrossSection.numberRow, List.map_map]
    refine congrArg (List.map · _) (funext fun j => ?_)
    rw [CrossSection.group, hnone]
    rfl
  refine ⟨ranked, hout, hshape, fun i hi => ?_⟩
  rw [hrow i hi, hone, ← Stats.eq_grouped_one (Stats.local_rank method ascending)]

/-- What is ranked in a row are the candidates, with their numbers. -/
theorem candidates_eq {keep : Option (Grid Bool)} (s : CrossSection (ctx.narrow keep) false) {t : Term}
    (ht : t.missingOf 0 = x.term.missing) (i : Nat) :
    (Stats.present (s.numberRow t i)).map Stats.Entry.index = x.candidates ctx keep s.values i ∧
      ∀ j ∈ x.candidates ctx keep s.values i, (s.numberRow t i).getD j nan = x.numberAt s.values i j := by
  have hnumber (j : Nat) : s.number t i j = x.numberAt s.values i j := by
    rw [CrossSection.number, ht]
    rfl
  have hall (j : Nat) : (ctx.mask.get? i j == some true && keep.all fun g => g.get? i j == some true) =
      decide ((ctx.narrow keep).mask.get? i j = some true) := by
    rw [Bool.eq_iff_iff, decide_eq_true_eq, Context.get?_narrow, Bool.and_eq_true, beq_iff_eq, Option.all_eq_true]
    simp only [beq_iff_eq, Option.mem_def]
  refine ⟨?_, fun j hj => ?_⟩
  · rw [Stats.map_index_present, CrossSection.numberRow, List.map_map]
    refine (places_map_range _ _).trans (List.filter_congr fun j _ => ?_)
    rw [hall, ← hnumber, Function.comp_apply, CrossSection.masked]
    split
    · rename_i h
      rw [decide_eq_true h, Bool.true_and]
    · rename_i h
      rw [decide_eq_false h, Bool.false_and, isNaN_nan, Bool.not_true]
  · obtain ⟨hlt, hpass⟩ := List.mem_filter.1 hj
    rw [hall, Bool.and_eq_true, decide_eq_true_eq] at hpass
    have hrow : (s.numberRow t i)[j]? = some (s.masked t i j) := by
      rw [CrossSection.numberRow, List.getElem?_map]
      exact congrArg _ (List.getElem?_range (List.mem_range.1 hlt))
    rw [List.getD_eq_getElem?_getD, hrow, Option.getD_some, CrossSection.masked, if_pos hpass.1, hnumber]

/-- The extremes of a factor: of the cells inside the root mask and the given one that have a value,
as many as asked for, or all of them, are selected in each row, and no value that is left out is
larger than a selected one, or smaller. `keep` is what the given mask comes to, if there is one. -/
theorem extremes_selected (largest : Bool) {n : Nat} {mask : Option Filter} {f : Filter}
    (h : (if largest then x.top n mask else x.bottom n mask) = .ok f) (hm : ctx.mask.shape = ctx.shape)
    (hn : ctx.shape.2 < 2 ^ 53) {keep : Option (Grid Bool)} (hkeep : ∀ g ∈ keep, g.shape = ctx.shape)
    {values : Block} (hs : values.shape = ctx.shape) (hd : values.dtype ≠ .categorical) :
    ∃ r ranked out, f.term.inputs = [r] ∧ f.term.mask = none ∧
      r.inputs = [x.term] ∧ r.mask = mask.map Filter.term ∧
      evaluate r [.block values] (ctx.narrow keep) = .ok ranked ∧
      evaluate f.term [.block ranked] ctx = .ok (.bools out) ∧ out.shape = ctx.shape ∧
      ∀ i < ctx.shape.1, Stats.Selects largest n (x.candidates ctx keep values i) (x.numberAt values i)
        ((List.range ctx.shape.2).filter fun j => out.get? i j == some true) := by
  obtain ⟨r, hr, hf⟩ := extremes_eq_ok h
  obtain ⟨hkind, hinputs, hmask, hmissing⟩ := rank_eq_ok hr
  have hleaf (e : Expr) : r.term.kind ≠ .expression e := by
    rw [hkind]
    nofun
  let s : CrossSection (ctx.narrow keep) false := {
    values, labels := none, shape := hs, numbers := hd, byGroup := rfl, labelsShape := nofun, labelsType := nofun }
  obtain ⟨ranked, hranked, hshape, hrow⟩ := evaluate_rankOf hr (Context.shape_narrow hm hkeep) s
  obtain ⟨out, hout, houtShape, hcell⟩ := Term.evaluate_atMost hleaf hmissing (isNaN_ofCount n) hf hm hshape
  obtain ⟨hfinputs, hformula⟩ := Term.compared_eq_ok hleaf hf
  refine ⟨r.term, .floats ranked, out, hfinputs, hformula.mask, hinputs, hmask, hranked, hout, houtShape,
    fun i hi => ?_⟩
  have hmissingOf : r.term.missingOf 0 = x.term.missing := by
    rw [Term.missingOf, hinputs]
    rfl
  obtain ⟨hcandidates, hnumber⟩ := candidates_eq s hmissingOf i
  have hlength : (s.numberRow r.term i).length = ctx.shape.2 := by
    rw [CrossSection.numberRow, List.length_map]
    exact List.length_range
  have hselects := Stats.selects_upTo largest (s.numberRow r.term i) n
  rw [hcandidates] at hselects
  have hchosen : (List.range ctx.shape.2).filter (fun j => out.get? i j == some true) =
      Stats.upTo (!largest) (s.numberRow r.term i) n := by
    rw [Stats.upTo, hcandidates, candidates, List.filter_filter]
    refine List.filter_congr fun j hj => ?_
    have hj' : j < (s.numberRow r.term i).length := hlength.symm ▸ List.mem_range.1 hj
    have hmem := Stats.ordinal_le_iff (!largest) _ (n := n) (List.getElem?_eq_getElem hj') (hlength.symm ▸ hn)
    rw [← hrow i hi, Grid.getElem?_row, Stats.upTo, hcandidates, candidates, List.filter_filter, List.mem_filter,
      and_iff_right hj] at hmem
    rw [Bool.eq_iff_iff, beq_iff_eq, hcell i j, hmem]
    -- what has a place is inside the root mask already
    refine ⟨fun h => h.2, fun h => ⟨?_, h⟩⟩
    simp only [Bool.and_eq_true, beq_iff_eq] at h
    exact h.2.1.1
  rw [hchosen]
  exact hselects.congr hnumber

/-- Of four prices the third is outside the root mask and the fourth outside the given one, so the
second is the largest. -/
theorem extremes_selected_fourPrices : ∃ f, (⟨.ofColumn price⟩ : Factor).top 1 (some ⟨.assetExists⟩) = .ok f ∧
    fourAssets.mask.shape = fourAssets.shape ∧ fourAssets.shape.2 < 2 ^ 53 ∧
    fourPrices.values.shape = fourAssets.shape ∧ fourPrices.values.dtype ≠ .categorical ∧
    ∃ r ranked out, f.term.inputs = [r] ∧ r.mask = some .assetExists ∧
      evaluate r [.block fourPrices.values] (fourAssets.narrow (some (.ofRows 4 [#v[true, true, true, false]]))) =
        .ok ranked ∧
      evaluate f.term [.block ranked] fourAssets = .ok (.bools out) ∧
      ((List.range 4).filter fun j => out.get? 0 j == some true) = [1] := by
  refine ⟨_, rfl, rfl, by decide, rfl, nofun, ?_⟩
  obtain ⟨r, ranked, out, hr, -, -, hmask, hranked, hout, -, hrow⟩ :=
    @extremes_selected ⟨.ofColumn price⟩ fourAssets true 1 (some ⟨.assetExists⟩) _ rfl rfl (by decide)
      (some (.ofRows 4 [#v[true, true, true, false]])) (fun g hg => Option.some.inj hg ▸ rfl) fourPrices.values rfl
      nofun
  refine ⟨r, ranked, out, hr, hmask, hranked, hout, ?_⟩
  obtain ⟨hsubset, hcount, hextreme⟩ := hrow 0 (by decide)
  have hamong : candidates ⟨.ofColumn price⟩ fourAssets (some (.ofRows 4 [#v[true, true, true, false]]))
      fourPrices.values 0 = [0, 1] := by rfl
  rw [hamong] at hsubset hcount hextreme
  obtain ⟨j, hj⟩ := List.length_eq_one_iff.1 hcount
  rw [hj] at hsubset hextreme
  refine hj.trans (congrArg (fun j => [j]) ?_)
  rcases List.mem_pair.1 (hsubset j List.mem_cons_self) with rfl | rfl
  · have hle := hextreme 0 List.mem_cons_self 1 (by decide) (by decide)
    exact absurd hle (by decide)
  · rfl

end Factor
end AsOf
