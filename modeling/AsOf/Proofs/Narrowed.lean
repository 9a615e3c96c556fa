import AsOf.Proofs.Masked
import AsOf.Proofs.NoLookAhead
import AsOf.Proofs.Number

/-!
# Narrowing does not show

A screen may bound the assets that it passes by its text alone. A run may then leave out all
other assets, where every term that looks across a row is masked to a part of the bound. A
run that ends well either way has the same result, unless a mask is ignored, as that of a
column is, or a term that has a bound is true where it has no value.

* `TermGraph.reduce_sound`: where a term is true, its bound allows the asset.
* `TermGraph.strand_agreeOn`: the values for the assets that are left are the same.
* `Engine.settings_do_not_show`: runs of engines that differ in their settings.
-/
namespace AsOf

/-! ## Bounds -/

namespace Bound

/-- An asset lies within a bound, if there is one. -/
def Allows (b : Bound) (sid : Sid) : Prop := ∀ sids ∈ b, sid ∈ sids

variable {a b : Bound} {sid : Sid}

theorem allows_none : Allows none sid := fun _ h => by cases h

theorem allows_meet (ha : a.Allows sid) (hb : b.Allows sid) : (meet a b).Allows sid := by
  intro sids hs
  cases a with
  | none => exact hb sids ((Option.none_or (o := b)).symm.trans hs)
  | some xs =>
    cases b with
    | none => exact ha sids hs
    | some ys =>
      obtain rfl := Option.mem_some.1 hs
      exact List.mem_filter.2 ⟨ha xs rfl, List.contains_iff_mem.2 (hb ys rfl)⟩

theorem mem_sortedSet {xs : List Sid} : sid ∈ Sid.sortedSet xs ↔ sid ∈ xs := by
  rw [Sid.sortedSet, List.mem_eraseDups, List.mem_mergeSort]

theorem allows_join (h : a.Allows sid ∨ b.Allows sid) : (join a b).Allows sid := by
  intro sids hs
  cases a with
  | none => cases hs
  | some xs =>
    cases b with
    | none => cases hs
    | some ys =>
      obtain rfl := Option.mem_some.1 hs
      exact mem_sortedSet.2 (List.mem_append.2 (h.imp (fun h => h xs rfl) fun h => h ys rfl))

/-- Where a formula is true, its bound allows the asset, if those of its inputs do. -/
theorem ofExpr_sound {inputs : List Bound} {number : Nat → Float}
    (h : ∀ i, isTrue (number i) = true → (inputs.getD i none).Allows sid) (e : Expr)
    (he : isTrue (e.evalCell number) = true) : (ofExpr inputs e).Allows sid := by
  induction e with
  | input i => exact h i he
  | const c => exact allows_none
  | unary op e => exact allows_none
  | binary op x y ihx ihy =>
    cases op with
    | and =>
      rw [Expr.evalCell, BinaryOp.apply, isTrue_truth, Bool.and_eq_true] at he
      exact allows_meet (ihx he.1) (ihy he.2)
    | or =>
      rw [Expr.evalCell, BinaryOp.apply, isTrue_truth, Bool.or_eq_true] at he
      exact allows_join (he.imp ihx ihy)
    | _ => exact allows_none

end Bound

/-- What narrowing relies on: masks are on computed terms only, and what has a bound is not
true where it has no value. -/
structure Pipeline.Bounded (p : Pipeline) : Prop where
  unmasked : ∀ t, p.Holds t → t.isLoadable = true → t.mask = none
  missing : ∀ t, p.Holds t → t.reduce.isSome = true → t.missing ≠ .bool true

namespace Term

variable {t : Term} {sid : Sid}

theorem reduce_eq (t : Term) : t.reduce = (Bound.ofKind (t.inputs.map reduce) t.kind).meet (t.mask.bind reduce) := by
  obtain ⟨head, inputs, mask⟩ := t
  have hall (ts : List Term) : reduceAll ts = ts.map reduce := by
    induction ts with
    | nil => rfl
    | cons t ts ih => rw [reduceAll, ih, List.map_cons]
  have hmask : reduceMask mask = mask.bind reduce := by
    cases mask <;> rfl
  rw [reduce, hall, hmask]
  rfl

theorem isTrue_of_floatCell {missing : Scalar} {dtype : Dtype} {x : Float}
    (h : isTrue (Scalar.number missing (floatCell dtype x)) = true) : isTrue x = true := by
  cases dtype with
  | bool => rwa [floatCell, Scalar.number_bool, isTrue_truth] at h
  | _ =>
    have h : isTrue (Scalar.number missing (.float x)) = true := h
    rcases Scalar.number_float_or missing x with hx | hx
    · rwa [hx] at h
    · rw [hx, isTrue_nan] at h
      cases h

/-- Where a term is true for an asset that takes part, the bound of what it does allows the
asset, if those of its inputs do where they are true. -/
theorem ofKind_sound {w : World} {mask : Strand} {inputs : List Strand} {r : Nat} {row : Sid → Scalar}
    (h : t.rowAt? w [mask] inputs r = some row) (hlive : sid ∈ w.live r)
    (hpass : (mask.value r sid).asBool?.getD false = true)
    (hinput : ∀ (i : Nat) (s : Strand) (x : Sid → Scalar), inputs[i]? = some s → s.row? r r = some x →
      isTrue (Scalar.number (t.missingOf i) (x sid)) = true → ((t.inputs.map reduce).getD i none).Allows sid)
    (htrue : isTrue (Scalar.number t.missing (row sid)) = true) :
    (Bound.ofKind (t.inputs.map reduce) t.kind).Allows sid := by
  cases hk : t.kind with
  | staticAssets keep =>
    obtain ⟨shown, -, halone⟩ := rowAt?_alone (by rw [hk]; rfl) h hlive hpass
    have hvalues := (row?_eq_some.1 halone).2
    rw [values?, hk] at hvalues
    have hvalue : Scalar.bool (keep.contains sid) = row sid :=
      (List.cons.inj (Prod.mk.inj (Option.some.inj hvalues)).2).1
    rw [← hvalue, Scalar.number_bool, isTrue_truth] at htrue
    intro sids hs
    exact Option.mem_some.1 hs ▸ List.contains_iff_mem.1 htrue
  | expression e =>
    obtain ⟨xs, hxs, hvalue⟩ := rowAt?_expression hk h hlive hpass
    rw [hvalue] at htrue
    refine Bound.ofExpr_sound (fun i hi => ?_) e (isTrue_of_floatCell htrue)
    rw [numberAt] at hi
    cases hx : xs[i]? with
    | none =>
      rw [hx, Option.map_none, Option.getD_none, isTrue_nan] at hi
      cases hi
    | some x =>
      obtain ⟨s, hs, hrow, -⟩ := Checked.getElem?_left hxs hx
      rw [hx, Option.map_some, Option.getD_some] at hi
      exact hinput i s x.2 hs hrow hi
  | _ => exact Bound.allows_none

end Term

namespace TermGraph

variable {pipeline : Pipeline} {g : TermGraph} {w w' : World} {sid : Sid}

/-- Where a node is true as a number, its bound allows the asset. -/
theorem reduce_sound (hp : pipeline.Bounded) (hg : pipeline.graph = .ok g) (node : Nat) (t : Term)
    (ht : g.terms[node]? = some t) {r q : Nat} {row : Sid → Scalar} (hrow : (g.strand w node).row? r q = some row)
    (hlive : sid ∈ w.live r) (htrue : isTrue (Scalar.number t.missing (row sid)) = true) : t.reduce.Allows sid := by
  induction node using Nat.strong_induction_on generalizing t q row with
  | _ node ih =>
    have hheld := Pipeline.holds_of_graph hg ht
    by_cases hl : t.isLoadable = true
    · have hkind : Bound.ofKind (t.inputs.map Term.reduce) t.kind = none := by
        rw [Term.isLoadable] at hl
        cases hk : t.kind <;> rw [hk] at hl <;> first | rfl | cases hl
      rw [Term.reduce_eq, hp.unmasked t hheld hl, hkind]
      exact Bound.allows_none
    obtain ⟨mask, inputs, hreads⟩ := exists_reads (Pipeline.graph_eq_ok hg) ht (Bool.eq_false_iff.2 hl)
    rw [hreads.strand_eq] at hrow
    have hrow : t.rowAt? w [g.strand w mask] (inputs.map (g.strand w)) r = some row := hrow
    cases hpass : ((g.strand w mask).value r sid).asBool?.getD false with
    | false =>
      -- what is missing is not true if there is a bound
      intro sids hs
      rw [Term.rowAt?_outside hrow (.inr hpass), Scalar.isTrue_number_missing
        (hp.missing t hheld (Option.isSome_iff_exists.2 ⟨sids, hs⟩))] at htrue
      cases htrue
    | true =>
      rw [Term.reduce_eq]
      refine Bound.allows_meet (Term.ofKind_sound hrow hlive hpass (fun i s x hs hx hi => ?_) htrue) ?_
      · obtain ⟨k, hk, rfl⟩ := Option.map_eq_some_iff.1 (List.getElem?_map ▸ hs)
        obtain ⟨dep, hdep, hholds⟩ := Checked.getElem?_left hreads.holds_inputs hk
        obtain ⟨dep', hdep', hsame⟩ := hholds.term
        have hmissing : t.missingOf i = dep'.missing := by
          rw [Term.missing_of_same hsame, Term.missingOf, hdep]
          rfl
        rw [List.getD_eq_getElem?_getD, List.getElem?_map, hdep, Option.map_some, Option.getD_some,
          ← Term.reduce_of_same dep' dep hsame]
        exact ih k hholds.lt dep' hdep' hx (hmissing ▸ hi)
      · cases hm : t.mask with
        | none => exact Bound.allows_none
        | some m =>
          obtain ⟨m', hm', hsame⟩ := hreads.holds_mask.term
          obtain ⟨maskRow, hmaskRow, hvalue⟩ := Strand.exists_row_of_true hpass
          rw [hm, Option.getD_some] at hsame
          rw [Option.bind_some, ← Term.reduce_of_same m' m hsame]
          exact ih mask hreads.holds_mask.lt m' hm' hmaskRow (by rw [hvalue, Scalar.number_bool, isTrue_truth])

end TermGraph

/-! ## The assets that are left -/

theorem viewOver_congr (dtype : Dtype) {rows rows' : List (Sid → Scalar)} {assets : List Sid}
    (h : List.Forall₂ (fun x y => ∀ sid ∈ assets, x sid = y sid) rows rows') :
    viewOver dtype rows assets = viewOver dtype rows' assets := by
  refine congrArg (View.mk dtype) (Grid.ext_get? (Prod.ext h.length_eq rfl) fun i j => ?_)
  refine (get?_viewOver dtype rows assets i j).trans (Eq.trans ?_ (get?_viewOver dtype rows' assets i j).symm)
  cases hy : rows'[i]? with
  | none => rw [List.getElem?_eq_none (h.length_eq ▸ List.getElem?_eq_none_iff.1 hy)]
  | some y =>
    obtain ⟨x, hx, hxy⟩ := Checked.getElem?_left h hy
    rw [hx, Option.bind_some, Option.bind_some]
    cases hj : assets[j]? with
    | none => rfl
    | some sid => exact congrArg some (hxy sid (List.mem_of_getElem? hj))

/-- Two strands have the same values for some assets where both have values. -/
structure Strand.AgreeOn (keep : List Sid) (a b : Strand) : Prop where
  dtype : a.dtype = b.dtype
  row? : ∀ r q x y, a.row? r q = some x → b.row? r q = some y → ∀ sid ∈ keep, x sid = y sid

namespace Strand.AgreeOn

variable {keep : List Sid} {a b : Strand} {r : Nat} {sid : Sid}

theorem value (h : a.AgreeOn keep b) (ha : (a.row? r r).isSome = true) (hb : (b.row? r r).isSome = true)
    (hs : sid ∈ keep) : a.value r sid = b.value r sid := by
  obtain ⟨x, hx⟩ := Option.isSome_iff_exists.1 ha
  obtain ⟨y, hy⟩ := Option.isSome_iff_exists.1 hb
  rw [Strand.value, Strand.value, hx, hy]
  exact h.row? r r x y hx hy sid hs

theorem isSome_of_passes? {s : Strand} {passes : Sid → Bool} (h : s.passes? r = some passes) :
    (s.row? r r).isSome = true := by
  unfold passes? at h
  split at h
  · obtain ⟨x, hx, -⟩ := Option.map_eq_some_iff.1 h
    exact Option.isSome_iff_exists.2 ⟨x, hx⟩
  · cases h

/-- What both show is the same to assets among those. -/
theorem sight_eq (h : a.AgreeOn keep b) {window : UInt64} {x y : Shown} (hx : a.shown? window r = some x)
    (hy : b.shown? window r = some y) {assets : List Sid} (hs : ∀ sid ∈ assets, sid ∈ keep) :
    x.sight assets = y.sight assets := by
  unfold shown? at hx hy
  rw [← h.dtype] at hy
  split at hx
  · rename_i hw
    rw [if_pos hw] at hy
    obtain ⟨v, hv, rfl⟩ := Option.map_eq_some_iff.1 hx
    obtain ⟨v', hv', rfl⟩ := Option.map_eq_some_iff.1 hy
    have hagree : ∀ sid ∈ assets, v sid = v' sid := fun sid hsid => h.row? r r v v' hv hv' sid (hs sid hsid)
    exact congrArg (Sight.mk false) (viewOver_congr a.dtype (.cons hagree .nil))
  · rename_i hw
    rw [if_neg hw] at hy
    obtain ⟨vs, hvs, rfl⟩ := Option.map_eq_some_iff.1 hx
    obtain ⟨vs', hvs', rfl⟩ := Option.map_eq_some_iff.1 hy
    refine congrArg (Sight.mk true) (viewOver_congr a.dtype ?_)
    rw [Checked.mapM_eq_some] at hvs hvs'
    clear hx hy
    generalize Strand.sessionsIn window r = sessions at hvs hvs'
    induction hvs generalizing vs' with
    | nil =>
      obtain rfl := List.forall₂_nil_left_iff.1 hvs'
      exact .nil
    | cons hv _ ih =>
      obtain ⟨v', vs', hv', hrest, rfl⟩ := List.forall₂_cons_left_iff.1 hvs'
      exact .cons (fun sid hsid => h.row? _ r _ _ hv hv' sid (hs sid hsid)) (ih _ hrest)

/-- What all of them show is the same to assets among those. -/
theorem sights_eq {as bs : List Strand} (h : List.Forall₂ (AgreeOn keep) as bs) {window : UInt64} {xs ys : List Shown}
    (hx : as.mapM (·.shown? window r) = some xs) (hy : bs.mapM (·.shown? window r) = some ys) {assets : List Sid}
    (hs : ∀ sid ∈ assets, sid ∈ keep) : xs.map (Shown.sight assets) = ys.map (Shown.sight assets) := by
  rw [Checked.mapM_eq_some] at hx hy
  induction h generalizing xs ys with
  | nil =>
    rw [List.forall₂_nil_left_iff.1 hx, List.forall₂_nil_left_iff.1 hy]
  | cons hab _ ih =>
    obtain ⟨x, xs, hax, hxs, rfl⟩ := List.forall₂_cons_left_iff.1 hx
    obtain ⟨y, ys, hby, hys, rfl⟩ := List.forall₂_cons_left_iff.1 hy
    rw [List.map_cons, List.map_cons, hab.sight_eq hax hby hs, ih hxs hys]

end Strand.AgreeOn

/-- A world in which only some assets are left. -/
structure World.Narrows (keep : List Sid) (w w' : World) : Prop where
  date : w.date = w'.date
  live : ∀ r, w'.live r = (w.live r).filter keep.contains
  known : w.known = w'.known

namespace World.Narrows

variable {keep : List Sid} {w w' : World} {r : Nat} {sid : Sid}

theorem mem_live (h : w.Narrows keep w') (hs : sid ∈ keep) : sid ∈ w'.live r ↔ sid ∈ w.live r := by
  rw [h.live, List.mem_filter, List.contains_iff_mem]
  exact and_iff_left hs

/-- What passes only assets that are left, and passes them alike, passes the same. -/
theorem filter_live (h : w.Narrows keep w') {p p' : Sid → Bool} (hp : ∀ sid ∈ w.live r, p sid = true → sid ∈ keep)
    (hp' : ∀ sid ∈ keep, p sid = p' sid) : (w'.live r).filter p' = (w.live r).filter p := by
  rw [h.live, List.filter_filter]
  refine List.filter_congr fun sid hsid => ?_
  by_cases hk : sid ∈ keep
  · rw [List.contains_iff_mem.2 hk, Bool.and_true, hp' sid hk]
  · rw [Bool.eq_false_iff.2 fun hp₁ => hk (hp sid hsid hp₁),
      Bool.eq_false_iff.2 fun hc => hk (List.contains_iff_mem.1 hc),
      Bool.and_false]

end World.Narrows

namespace Term

variable {t : Term} {keep : List Sid} {w w' : World} {mask mask' : Strand} {inputs inputs' : List Strand} {r : Nat}
  {row row' : Sid → Scalar} {sid : Sid}

/-- For an asset that is left a computed term has the same value, if none but those that are
left takes part where it looks across the row. -/
theorem rowAt?_agree (hw : w.Narrows keep w') (hm : mask.AgreeOn keep mask')
    (hi : List.Forall₂ (Strand.AgreeOn keep) inputs inputs')
    (hcross : t.kind.isCrossSectional = true → ∀ sid ∈ w.live r,
      (mask.value r sid).asBool?.getD false = true → sid ∈ keep)
    (h : t.rowAt? w [mask] inputs r = some row) (h' : t.rowAt? w' [mask'] inputs' r = some row') (hs : sid ∈ keep) :
    row sid = row' sid := by
  obtain ⟨passes, xs, values, hp, hxs, hvalues, hrow⟩ := rowAt?_eq_some.1 h
  obtain ⟨passes', ys, values', hp', hys, hvalues', hrow'⟩ := rowAt?_eq_some.1 h'
  have hmasks : ∀ sid ∈ keep, mask.value r sid = mask'.value r sid := fun sid hsid =>
    hm.value (Strand.AgreeOn.isSome_of_passes? hp) (Strand.AgreeOn.isSome_of_passes? hp') hsid
  by_cases hc : t.kind.isCrossSectional = true
  · -- the same assets take part
    have hkeep : ∀ sid ∈ (w.live r).filter passes, sid ∈ keep := fun sid hsid =>
      hcross hc sid (List.mem_filter.1 hsid).1 (passes_eq hp sid ▸ (List.mem_filter.1 hsid).2)
    have hassets : (w'.live r).filter passes' = (w.live r).filter passes :=
      hw.filter_live (fun sid hsid hpass => hkeep sid (List.mem_filter.2 ⟨hsid, hpass⟩)) fun sid hsid => by
        rw [passes_eq hp, passes_eq hp', hmasks sid hsid]
    rw [hassets, ← hw.date, ← Strand.AgreeOn.sights_eq hi hxs hys hkeep, hvalues] at hvalues'
    rw [hrow, hrow', hassets, Option.some.inj hvalues']
  · have hc := Bool.eq_false_iff.2 hc
    by_cases hpart : sid ∈ w.live r ∧ (mask.value r sid).asBool?.getD false = true
    · obtain ⟨xs, hxs, hvalue⟩ := rowAt?_alone hc h hpart.1 hpart.2
      obtain ⟨ys, hys, hvalue'⟩ := rowAt?_alone hc h' ((hw.mem_live hs).2 hpart.1) (hmasks sid hs ▸ hpart.2)
      rw [← hw.date, ← Strand.AgreeOn.sights_eq hi hxs hys fun sid' hsid => List.mem_singleton.1 hsid ▸ hs,
        hvalue] at hvalue'
      exact (List.cons.inj (Option.some.inj hvalue')).1
    · have hout : sid ∉ w.live r ∨ (mask.value r sid).asBool?.getD false = false := by
        rw [← Bool.not_eq_true]
        exact not_and_or.1 hpart
      rw [rowAt?_outside h hout, rowAt?_outside h' (hout.imp (fun hn hl => hn ((hw.mem_live hs).1 hl))
        fun hf => hmasks sid hs ▸ hf)]

end Term

namespace TermGraph

variable {pipeline : Pipeline} {g : TermGraph} {keep : List Sid} {w w' : World}

/-- Where every term that looks across a row is masked to a part of the assets that are left,
all nodes have the same values for them. -/
theorem strand_agreeOn (hb : pipeline.Built) (hp : pipeline.Bounded) (hg : pipeline.graph = .ok g)
    (hw : w.Narrows keep w')
    (hstays : ∀ (node : Nat) (t : Term), g.terms[node]? = some t → t.staysWithin keep = true) (node : Nat) (t : Term)
    (ht : g.terms[node]? = some t) : (g.strand w node).AgreeOn keep (g.strand w' node) := by
  induction node using Nat.strong_induction_on generalizing t with
  | _ node ih =>
    by_cases hl : t.isLoadable = true
    · rcases strand_loaded hg hb ht hl (hp.unmasked t (Pipeline.holds_of_graph hg ht) hl) with
        ⟨-, hstrand⟩ | ⟨c, -, hstrand⟩
      · rw [hstrand, hstrand]
        refine ⟨rfl, fun r q x y hx hy sid hs => ?_⟩
        obtain rfl := Option.some.inj hx
        obtain rfl := Option.some.inj hy
        refine congrArg Scalar.bool (Bool.eq_iff_iff.2 ?_)
        rw [List.contains_iff_mem, List.contains_iff_mem, hw.mem_live hs]
      · rw [hstrand, hstrand, hw.known]
        refine ⟨rfl, fun r q x y hx hy sid _ => ?_⟩
        rw [Option.some.inj (hx.symm.trans hy)]
    obtain ⟨mask, inputs, hreads⟩ := exists_reads (Pipeline.graph_eq_ok hg) ht (Bool.eq_false_iff.2 hl)
    obtain ⟨m, hm, hsame⟩ := hreads.holds_mask.term
    have hinputs : List.Forall₂ (Strand.AgreeOn keep) (inputs.map (g.strand w)) (inputs.map (g.strand w')) := by
      rw [List.forall₂_map_left_iff, List.forall₂_map_right_iff, List.forall₂_same]
      intro k hk
      obtain ⟨dep, -, hholds⟩ := Checked.exists_left hreads.holds_inputs hk
      obtain ⟨dep', hdep', -⟩ := hholds.term
      exact ih k hholds.lt dep' hdep'
    rw [hreads.strand_eq, hreads.strand_eq]
    refine ⟨rfl, fun r q x y hx hy sid hs => ?_⟩
    refine Term.rowAt?_agree hw (ih mask hreads.holds_mask.lt m hm) hinputs (fun hc sid hlive hpass => ?_) hx hy hs
    -- the mask of a term that looks across the row bounds who takes part
    have hstay := hstays node t ht
    rw [Term.staysWithin, hc, Bool.not_true, Bool.false_or, Option.any_eq_true] at hstay
    obtain ⟨own, hown, hall⟩ := hstay
    obtain ⟨m', hm', hreduce⟩ := Option.bind_eq_some_iff.1 hown
    obtain ⟨row, hrow, hvalue⟩ := Strand.exists_row_of_true hpass
    rw [hm', Option.getD_some] at hsame
    have hsound := reduce_sound hp hg mask m hm hrow hlive (by rw [hvalue, Scalar.number_bool, isTrue_truth])
    rw [Term.reduce_of_same m m' hsame, hreduce] at hsound
    exact List.contains_iff_mem.1 (List.all_eq_true.1 hall sid (hsound own rfl))

theorem narrowed?_eq_some (h : g.narrowed? = some keep) : ∃ node t, g.screen = some node ∧ g.terms[node]? = some t ∧
    t.reduce = some keep ∧ ∀ (k : Nat) (t : Term), g.terms[k]? = some t → t.staysWithin keep = true := by
  obtain ⟨node, hnode, h⟩ := Option.bind_eq_some_iff.1 h
  obtain ⟨t, ht, h⟩ := Option.bind_eq_some_iff.1 h
  obtain ⟨sids, hsids, h⟩ := Option.bind_eq_some_iff.1 h
  by_cases hall : g.terms.all (Term.staysWithin sids) = true
  · obtain rfl := Option.some.inj ((if_pos hall).symm.trans h)
    refine ⟨node, t, hnode, ht, hsids, fun k t ht => ?_⟩
    obtain ⟨hk, rfl⟩ := Array.getElem?_eq_some_iff.1 ht
    exact Array.all_eq_true.1 hall k hk
  · cases (if_neg hall).symm.trans h

/-- All computed nodes have a row on a session. -/
def Complete (g : TermGraph) (w : World) (s : Nat) : Prop :=
  ∀ (node : Nat) (t : Term), g.terms[node]? = some t → t.isLoadable = false → ((g.strand w node).row? s s).isSome = true

/-- What is loaded has a row everywhere. -/
theorem Complete.isSome_row? {s : Nat} (hc : g.Complete w s) (hb : pipeline.Built) (hp : pipeline.Bounded)
    (hg : pipeline.graph = .ok g) {node : Nat} {t : Term} (ht : g.terms[node]? = some t) :
    ((g.strand w node).row? s s).isSome = true := by
  by_cases hl : t.isLoadable = true
  · rcases strand_loaded hg hb ht hl (hp.unmasked t (Pipeline.holds_of_graph hg ht) hl) with
      ⟨-, hstrand⟩ | ⟨c, -, hstrand⟩
    · rw [hstrand]
      rfl
    · rw [hstrand]
      rfl
  · exact hc node t ht (Bool.eq_false_iff.2 hl)

/-- A table is that of a narrowed world, if the bound of the screen is what is left. -/
theorem table_narrowed {w w' : Nat → World} {sessions : List Nat} (hb : pipeline.Built) (hp : pipeline.Bounded)
    (hg : pipeline.graph = .ok g) (hkeep : g.narrowed? = some keep) (hw : ∀ s ∈ sessions, (w s).Narrows keep (w' s))
    (hc : ∀ s ∈ sessions, g.Complete (w s) s) (hc' : ∀ s ∈ sessions, g.Complete (w' s) s) :
    g.table w sessions = g.table w' sessions := by
  obtain ⟨screen, t, hscreen, ht, hreduce, hstays⟩ := narrowed?_eq_some hkeep
  have hvalue {s : Nat} (hs : s ∈ sessions) {node : Nat} {t : Term} (ht : g.terms[node]? = some t) {sid : Sid}
      (hsid : sid ∈ keep) : (g.strand (w s) node).value s sid = (g.strand (w' s) node).value s sid :=
    (strand_agreeOn hb hp hg (hw s hs) hstays node t ht).value ((hc s hs).isSome_row? hb hp hg ht)
      ((hc' s hs).isSome_row? hb hp hg ht) hsid
  have hbound {s : Nat} {sid : Sid} (hlive : sid ∈ (w s).live s)
      (hpass : ((g.strand (w s) screen).value s sid).asBool?.getD false = true) : sid ∈ keep := by
    obtain ⟨row, hrow, hv⟩ := Strand.exists_row_of_true hpass
    exact reduce_sound hp hg screen t ht hrow hlive (by rw [hv, Scalar.number_bool, isTrue_truth]) keep hreduce
  have hpassing (s : Nat) (hs : s ∈ sessions) : g.passing (w s) s = g.passing (w' s) s := by
    unfold passing
    rw [hscreen]
    refine ((hw s hs).filter_live (fun sid => hbound) fun sid hsid => ?_).symm
    rw [hvalue hs ht hsid]
  refine table_congr (fun s hs => congrFun (hw s hs).date s) hpassing fun s hs output ho sid hsid => ?_
  rw [← hpassing s hs, passing, hscreen] at hsid
  obtain ⟨hlive, hpass⟩ := List.mem_filter.1 hsid
  obtain ⟨o, -, -, t', ht', -⟩ := Checked.exists_left (outputs_spec (Pipeline.graph_eq_ok hg)) ho
  exact hvalue hs ht' (hbound hlive hpass)

end TermGraph

namespace Engine

variable {e : Engine} {pipeline : Pipeline} {alive : Date → Sid → Bool}
  {ledger? : List Date → Column → Option Ledger} {mayRefuse : Prop} {start stop : Date} {size : Nat}
  {p : Plan} {keep : List Sid}

/-- A plan is computed for all assets or for those that its screen bounds. -/
theorem assetsFor_eq_or (e : Engine) (p : Plan) : e.assetsFor p = e.assets.sids ∨
    ∃ keep, p.graph.narrowed? = some keep ∧ e.assetsFor p = e.assets.sids.filter keep.contains := by
  unfold assetsFor
  cases e.config.prescreen with
  | false => exact .inl rfl
  | true =>
    rw [if_pos rfl]
    cases p.graph.narrowed? with
    | none => exact .inl rfl
    | some keep => exact .inr ⟨keep, rfl, rfl⟩

theorem worlds_narrows (p : Plan) (sessions : Array Date) (sids : List Sid) (ranges : List (Nat × Nat)) (r : Nat) :
    (worlds p sessions sids alive ledger? ranges r).Narrows keep
      (worlds p sessions (sids.filter keep.contains) alive ledger? ranges r) :=
  ⟨rfl, fun _ => List.filter_comm .., rfl⟩

/-- The sessions of a plan have the same table for all assets and for those that its screen
bounds, if they can be computed either way. -/
theorem table_assets {e' : Engine} (hb : pipeline.Built) (hp : pipeline.Bounded) (hg : pipeline.graph = .ok p.graph)
    (hkeep : p.graph.narrowed? = some keep) {domain : Domain} {sessions : Array Date} {sids : List Sid} {first last : Nat}
    (hx : ∀ node, (p.extraOf node).toNat ≤ first) (hl : last < sessions.size)
    (hall : ∀ x ∈ chunkRanges size first last, e.FeasibleAt p domain sessions sids alive ledger? x)
    (hkept : ∀ x ∈ chunkRanges size first last,
      e'.FeasibleAt p domain sessions (sids.filter keep.contains) alive ledger? x) :
    p.graph.table (worlds p sessions sids alive ledger? (chunkRanges size first last))
        (List.range' first (last + 1 - first)) =
      p.graph.table (worlds p sessions (sids.filter keep.contains) alive ledger? (chunkRanges size first last))
        (List.range' first (last + 1 - first)) := by
  have hgiven {node : Nat} {t : Term} (ht : p.graph.terms[node]? = some t) (hload : t.isLoadable = false) :
      p.graph.isGiven node t = false :=
    Bool.eq_false_iff.2 fun h => Bool.eq_false_iff.1 hload (TermGraph.isLoadable_of_isGiven ht h)
  exact TermGraph.table_narrowed hb hp hg hkeep (fun s _ => worlds_narrows p sessions sids _ s)
    (fun s hs node t ht hload => isSome_row?_worlds hx hl hall ht (hgiven ht hload) hs)
    fun s hs node t ht hload => isSome_row?_worlds hx hl hkept ht (hgiven ht hload) hs

/-- Engines that differ in their settings alone come to the same results. -/
theorem settings_do_not_show (hb : pipeline.Built) (hp : pipeline.Bounded) (ht : e.Told pipeline alive ledger? mayRefuse)
    (a b : Config) {cancelled cancelled' : Cancellation} {calls calls' : List Call} {r r' : Result}
    (hr : (({ e with config := a }.runChunked pipeline start stop size cancelled).run.run calls).1 = .ok r)
    (hr' : (({ e with config := b }.runChunked pipeline start stop size cancelled').run.run calls').1 = .ok r') :
    r = r' := by
  have told (config : Config) : { e with config := config }.Told pipeline alive ledger? mayRefuse :=
    ⟨ht.assets, ht.keep, ht.calendar, ht.kernels⟩
  obtain ⟨-, job, calls₁, hj, hwork⟩ := runChunked_of_ok hr
  obtain ⟨-, job', calls₁', hj', hwork'⟩ := runChunked_of_ok hr'
  obtain rfl : job = job' := prepare_agree rfl hj hj'
  obtain ⟨-, -, -, hgraph, -⟩ := prepare_eq_ok.1 hj
  rcases work_of_ok (told a) hj hwork with ⟨hnone, rfl⟩ | ⟨first, last, p, hrange, hplan, hall, rfl⟩
  · rcases work_of_ok (told b) hj' hwork' with ⟨-, rfl⟩ | ⟨first, last, p, hrange, -⟩
    · rfl
    · rw [hnone] at hrange
      cases hrange
  rcases work_of_ok (told b) hj' hwork' with ⟨hnone, -⟩ | ⟨first', last', p', hrange', hplan', hall', rfl⟩
  · rw [hrange] at hnone
    cases hnone
  obtain ⟨rfl, rfl⟩ := Prod.mk.inj (Option.some.inj (hrange.symm.trans hrange'))
  obtain rfl := Except.ok.inj (hplan.symm.trans hplan')
  obtain ⟨hg, -⟩ := Plan.sound_of (Pipeline.graph_eq_ok hgraph) hplan
  obtain ⟨-, -, hl, hx⟩ := Plan.of?_spec hplan
  rw [← hg] at hgraph ⊢
  -- the engines differ in the assets that the plan is computed for, if at all
  rcases assetsFor_eq_or { e with config := a } p with ha | ⟨keep, hkeep, ha⟩ <;>
    rcases assetsFor_eq_or { e with config := b } p with hb' | ⟨keep', hkeep', hb'⟩ <;> rw [ha] at hall ⊢ <;>
    rw [hb'] at hall' ⊢
  · exact table_assets hb hp hgraph hkeep' hx hl hall hall'
  · exact (table_assets hb hp hgraph hkeep hx hl hall' hall).symm
  · obtain rfl := Option.some.inj (hkeep.symm.trans hkeep')
    rfl

/-! Both assets under a mask for the second, which is also the screen. -/

def boundedPipeline : Pipeline := { columns := [("both", bothAssets)], screen := some ⟨secondAsset⟩ }

theorem terms_boundedPipeline : ∀ t ∈ boundedPipeline.terms, t = bothAssets ∨ t = secondAsset := by
  intro t ht
  rcases List.mem_cons.1 ht with rfl | ht
  · exact .inl rfl
  · exact .inr (List.mem_singleton.1 ht)

theorem boundedPipeline_built : boundedPipeline.Built where
  ordered := List.pairwise_singleton _ _
  terms t ht := by
    rcases terms_boundedPipeline t ht with rfl | rfl
    · exact bothAssets_built
    · exact secondAsset_built

theorem boundedPipeline_bounded : boundedPipeline.Bounded where
  unmasked t ht hl := by
    rcases held_of_masked terms_boundedPipeline ht with rfl | rfl | rfl
    · cases hl
    · rfl
    · rfl
  missing t ht _ := by
    rcases held_of_masked terms_boundedPipeline ht with rfl | rfl | rfl <;> exact nofun

/-- The second asset alone passes, whether the first is left out or not. -/
theorem settings_do_not_show_static : ∃ r r',
    (({ bareEngine with config := { prescreen := true } }.runChunked boundedPipeline ⟨0⟩ ⟨2⟩ 2 .never).run.run []).1 =
      .ok r ∧
    (({ bareEngine with config := { prescreen := false } }.runChunked boundedPipeline ⟨0⟩ ⟨2⟩ 2 .never).run.run []).1 =
      .ok r' ∧
    r.sids = #[⟨2⟩, ⟨2⟩] ∧ r = r' := by
  have hr : (({ bareEngine with config := { prescreen := true } }.runChunked boundedPipeline ⟨0⟩ ⟨2⟩ 2
      .never).run.run []).1 = .ok ⟨#[⟨1⟩, ⟨2⟩], #[⟨2⟩, ⟨2⟩], [("both", .bools [true, true])]⟩ := by cbv
  have hr' : (({ bareEngine with config := { prescreen := false } }.runChunked boundedPipeline ⟨0⟩ ⟨2⟩ 2
      .never).run.run []).1 = .ok ⟨#[⟨1⟩, ⟨2⟩], #[⟨2⟩, ⟨2⟩], [("both", .bools [true, true])]⟩ := by cbv
  have htold := @OverTables.told _ _ _ boundedPipeline bareEngine_overTables (fun _ _ => bareEngine_wellFormed rfl)
    (masked_decodes terms_boundedPipeline)
  exact ⟨_, _, hr, hr', rfl, settings_do_not_show boundedPipeline_built boundedPipeline_bounded htold
    { prescreen := true } { prescreen := false } hr hr'⟩

end Engine
end AsOf
