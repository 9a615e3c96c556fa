import AsOf.Proofs.Evaluate.Sight
import AsOf.Proofs.Table

/-!
# Rows, asset by asset

What a strand shows to a row is there by asset, and so the assets that take part only
choose among it. A term that does not look across a row is then for each asset what it is
for that asset whichever other assets take part.

* `Term.rowAt?_eq_some`: what there is to a row.
* `Term.values?_uniform`: terms that do not look across a row.
-/
namespace AsOf

/-- What a row is shown of an input: one session, or those of a window, oldest first. -/
inductive Shown where
  | row (dtype : Dtype) (values : Sid → Scalar)
  | window (dtype : Dtype) (rows : List (Sid → Scalar))

namespace Shown

/-- What some assets see of it. -/
def sight (assets : List Sid) : Shown → Sight
  | row dtype values => .ofRows false dtype assets [values]
  | window dtype rows => .ofRows true dtype assets rows

/-- The session that is shown, with its type. -/
def row? : Shown → Option (Dtype × (Sid → Scalar))
  | row dtype values => some (dtype, values)
  | window _ _ => none

/-- The sessions of the window that is shown, with their type. -/
def window? : Shown → Option (Dtype × List (Sid → Scalar))
  | row _ _ => none
  | window dtype rows => some (dtype, rows)

end Shown

/-- A value that is true is there. -/
theorem Strand.exists_row_of_true {s : Strand} {r : Nat} {sid : Sid} (h : (s.value r sid).asBool?.getD false = true) :
    ∃ row, s.row? r r = some row ∧ row sid = .bool true := by
  rw [value] at h
  cases hr : s.row? r r with
  | none =>
    rw [hr] at h
    cases h
  | some row =>
    rw [hr] at h
    have h : (row sid).asBool?.getD false = true := h
    refine ⟨row, rfl, ?_⟩
    cases hb : row sid with
    | bool b =>
      rw [hb] at h
      exact congrArg Scalar.bool h
    | _ =>
      rw [hb] at h
      cases h

/-- What a strand shows to a reader on a session. -/
def Strand.shown? (s : Strand) (window : UInt64) (r : Nat) : Option Shown :=
  if window = 0 then (s.row? r r).map (.row s.dtype)
  else ((sessionsIn window r).mapM fun q => s.row? q r).map (.window s.dtype)

theorem Strand.sight?_eq (s : Strand) (window : UInt64) (assets : List Sid) (r : Nat) :
    s.sight? window assets r = (s.shown? window r).map (Shown.sight assets) := by
  unfold sight? shown?
  split
  · rw [Option.map_map]
    rfl
  · rw [Option.map_map]
    rfl

/-- The session that is shown is the row of the strand. -/
theorem Strand.row?_of_shown? {s : Strand} {window : UInt64} {r : Nat} {shown : Shown} {x : Dtype × (Sid → Scalar)}
    (h : s.shown? window r = some shown) (hx : shown.row? = some x) : s.row? r r = some x.2 ∧ s.dtype = x.1 := by
  unfold shown? at h
  split at h
  · obtain ⟨values, hv, rfl⟩ := Option.map_eq_some_iff.1 h
    obtain rfl := Option.some.inj hx
    exact ⟨hv, rfl⟩
  · obtain ⟨rows, -, rfl⟩ := Option.map_eq_some_iff.1 h
    cases hx

/-! ## Grids by asset -/

/-- Some rows over some assets. -/
def viewOver (dtype : Dtype) (rows : List (Sid → Scalar)) (assets : List Sid) : View :=
  ⟨dtype, .ofFn rows.length assets.length fun i j => rows.get i (assets.get j)⟩

section

variable (dtype : Dtype) (rows : List (Sid → Scalar)) (assets : List Sid)

theorem get?_viewOver (i j : Nat) : (viewOver dtype rows assets).cells.get? i j =
    rows[i]?.bind fun x => assets[j]?.map x := by
  rw [viewOver, Grid.get?_ofFn]
  split
  · rename_i h
    rw [List.getElem?_eq_getElem h.1, List.getElem?_eq_getElem h.2]
    rfl
  · rename_i h
    by_cases hi : i < rows.length
    · rw [List.getElem?_eq_getElem hi, List.getElem?_eq_none (Nat.le_of_not_lt fun hj => h ⟨hi, hj⟩)]
      rfl
    · rw [List.getElem?_eq_none (Nat.le_of_not_lt hi)]
      rfl

theorem row_viewOver {i : Nat} (hi : i < rows.length) :
    (viewOver dtype rows assets).cells.row i = assets.map rows[i] := by
  refine List.ext_getElem? fun j => ?_
  rw [Grid.getElem?_row, get?_viewOver, List.getElem?_eq_getElem hi, List.getElem?_map]
  rfl

theorem column_viewOver (f : Scalar → Float) {j : Nat} {sid : Sid} (hj : assets[j]? = some sid) :
    ((viewOver dtype rows assets).cells.map f).column j = rows.map fun x => f (x sid) := by
  refine List.ext_getElem? fun i => ?_
  rw [Grid.getElem?_column, Grid.get?_map, get?_viewOver, hj, List.getElem?_map]
  cases rows[i]? <;> rfl

end

/-- A list by place is a list by item. -/
theorem map_range_length {α β : Type} {f : Nat → β} {g : α → β} {xs : List α}
    (h : ∀ j x, xs[j]? = some x → f j = g x) : (List.range xs.length).map f = xs.map g := by
  refine List.ext_getElem? fun j => ?_
  rw [List.getElem?_map, List.getElem?_map]
  by_cases hj : j < xs.length
  · rw [List.getElem?_range hj, List.getElem?_eq_getElem hj]
    exact congrArg some (h j _ (List.getElem?_eq_getElem hj))
  · rw [List.getElem?_eq_none (Nat.le_of_not_lt hj), List.getElem?_eq_none (by
      rw [List.length_range]
      exact Nat.le_of_not_lt hj)]
    rfl

/-! ## The form of what is shown -/

namespace Shown

variable (shown : List Shown) (assets : List Sid)

theorem windows?_sight : Sight.windows? (shown.map (sight assets)) =
    (shown.mapM window?).map fun ws => ws.map fun x => viewOver x.1 x.2 assets := by
  rw [Sight.windows?, List.mapM_map]
  induction shown with
  | nil => rfl
  | cons s shown ih =>
    rw [List.mapM_cons, List.mapM_cons, ih]
    cases s with
    | row dtype values => rfl
    | window dtype rows => cases shown.mapM window? <;> rfl

theorem rows?_sight : Sight.rows? (shown.map (sight assets)) =
    (shown.mapM row?).map fun xs => xs.map fun x => viewOver x.1 [x.2] assets := by
  rw [Sight.rows?, List.mapM_map]
  induction shown with
  | nil => rfl
  | cons s shown ih =>
    rw [List.mapM_cons, List.mapM_cons, ih]
    cases s with
    | row dtype values => cases shown.mapM row? <;> rfl
    | window dtype rows => rfl

end Shown

/-! ## Numbers by asset -/

namespace Term

/-- A float as a cell of a formula. -/
def floatCell (dtype : Dtype) (x : Float) : Scalar :=
  match dtype with
  | .bool => .bool (isTrue x)
  | _ => .float x

/-- The type of the cells of a formula. -/
def floatType (dtype : Dtype) : Dtype :=
  match dtype with
  | .bool => .bool
  | _ => .float64

theorem ofFloats_map {α : Type} (dtype : Dtype) (f : α → Float) (xs : List α) :
    ofFloats dtype (xs.map f) = (floatType dtype, xs.map fun x => floatCell dtype (f x)) := by
  cases dtype <;> simp only [ofFloats, floatType, floatCell, List.map_map, Function.comp_def]

variable {t : Term}

/-- The number of an input for an asset. -/
def numberAt (t : Term) (xs : List (Dtype × (Sid → Scalar))) (sid : Sid) (i : Nat) : Float :=
  (xs[i]?.map fun x => Scalar.number (t.missingOf i) (x.2 sid)).getD nan

/-- The column of a window of an input for an asset. -/
def columnAt (t : Term) (ws : List (Dtype × List (Sid → Scalar))) (sid : Sid) (i : Nat) : List Float :=
  (ws[i]?.map fun x => x.2.map fun row => Scalar.number (t.missingOf i) (row sid)).getD []

/-- Inputs have numbers, or they have none whichever assets take part. -/
theorem numbers?_or {α : Type} (t : Term) (xs : List (Dtype × α)) (rows : α → List (Sid → Scalar)) :
    ((∃ x ∈ xs, x.1 = .categorical) ∧ ∀ assets, t.numbers? (xs.map fun x => viewOver x.1 (rows x.2) assets) = none) ∨
    (∀ x ∈ xs, x.1 ≠ .categorical) ∧ ∀ assets, t.numbers? (xs.map fun x => viewOver x.1 (rows x.2) assets) =
      some (Evaluate.numberGrids t (xs.map fun x => (viewOver x.1 (rows x.2) assets).cells)) := by
  by_cases h : ∃ x ∈ xs, x.1 = .categorical
  · obtain ⟨x, hx, hd⟩ := h
    exact .inl ⟨⟨x, hx, hd⟩, fun assets => Evaluate.numbers?_eq_none t ⟨_, List.mem_map_of_mem hx, hd⟩⟩
  · have h' : ∀ x ∈ xs, x.1 ≠ .categorical := fun x hx hd => h ⟨x, hx, hd⟩
    refine .inr ⟨h', fun assets => ?_⟩
    rw [Evaluate.numbers?_eq t (List.forall_mem_map.2 h'), List.map_map]
    rfl

/-! ## Terms that do not look across a row -/

/-- A computation that is for each asset what it is whichever others take part. -/
def Uniform (f : List Sid → Option (Dtype × List Scalar)) : Prop :=
  ∃ x? : Option (Dtype × (Sid → Scalar)), ∀ assets, f assets = x?.map fun x => (x.1, assets.map x.2)

theorem uniform_none {f : List Sid → Option (Dtype × List Scalar)} (h : ∀ assets, f assets = none) : Uniform f :=
  ⟨none, h⟩

theorem uniform_some {f : List Sid → Option (Dtype × List Scalar)} (dtype : Dtype) (cell : Sid → Scalar)
    (h : ∀ assets, f assets = some (dtype, assets.map cell)) : Uniform f := ⟨some (dtype, cell), h⟩

/-- A formula is computed from the numbers of each asset. -/
theorem values?_expression {e : Expr} (hk : t.kind = .expression e) (date : Date) (shown : List Shown)
    (assets : List Sid) : t.values? date assets (shown.map (Shown.sight assets)) =
      (shown.mapM Shown.row?).bind fun xs => if ∃ x ∈ xs, x.1 = .categorical then none
        else some (floatType t.dtype, assets.map fun sid => floatCell t.dtype (e.evalCell (t.numberAt xs sid))) := by
  rw [values?, hk]
  show (Sight.rows? _ >>= fun vs => t.numbers? vs >>= _) = _
  rw [Shown.rows?_sight]
  cases shown.mapM Shown.row? with
  | none => rfl
  | some xs =>
    show (t.numbers? (xs.map fun x => viewOver x.1 [x.2] assets) >>= _) = _
    rcases t.numbers?_or xs fun x => [x] with ⟨hcat, hnone⟩ | ⟨hcat, hsome⟩
    · rw [hnone, Option.bind_some, if_pos hcat]
      rfl
    · rw [hsome, Option.bind_some, if_neg fun ⟨x, hx, hd⟩ => hcat x hx hd]
      show some (ofFloats t.dtype _) = _
      rw [← ofFloats_map, map_range_length (g := fun sid => e.evalCell (t.numberAt xs sid)) fun j sid hj => ?_]
      refine congrArg (fun f => e.evalCell f) (funext fun i => ?_)
      rw [numberAt, Evaluate.getElem?_numberGrids, List.getElem?_map]
      cases xs[i]? with
      | none => rfl
      | some x =>
        show (((viewOver x.1 [x.2] assets).cells.map (Scalar.number (t.missingOf i))).get? 0 j).getD nan = _
        rw [Grid.get?_map, get?_viewOver, hj]
        rfl

theorem uniform_expression {e : Expr} (hk : t.kind = .expression e) (date : Date) (shown : List Shown) :
    Uniform fun assets => t.values? date assets (shown.map (Shown.sight assets)) := by
  simp only [values?_expression hk]
  cases shown.mapM Shown.row? with
  | none => exact uniform_none fun _ => rfl
  | some xs =>
    by_cases hcat : ∃ x ∈ xs, x.1 = .categorical
    · exact uniform_none fun _ => if_pos hcat
    · exact uniform_some _ _ fun _ => if_neg hcat

theorem uniform_window {k : WindowKernel} (hk : t.kind = .window k) (date : Date) (shown : List Shown) :
    Uniform fun assets => t.values? date assets (shown.map (Shown.sight assets)) := by
  have hvalues (assets : List Sid) : t.values? date assets (shown.map (Shown.sight assets)) =
      (shown.mapM Shown.window?).bind fun ws => (t.numbers? (ws.map fun x => viewOver x.1 x.2 assets)).bind fun gs =>
        some (ofFloats t.dtype ((List.range assets.length).map fun j => (k.compute gs).getD j nan)) := by
    rw [values?, hk]
    show (Sight.windows? _ >>= fun vs => t.numbers? vs >>= _) = _
    rw [Shown.windows?_sight]
    cases shown.mapM Shown.window? <;> rfl
  simp only [hvalues]
  cases shown.mapM Shown.window? with
  | none => exact uniform_none fun _ => rfl
  | some ws =>
    rcases t.numbers?_or ws fun rows => rows with ⟨-, hnone⟩ | ⟨-, hsome⟩
    · exact uniform_none fun assets => by rw [Option.bind_some, hnone]; rfl
    · refine uniform_some (floatType t.dtype) (fun sid => floatCell t.dtype
        (if ws = [] then nan else k.apply (t.columnAt ws sid 0) (t.columnAt ws sid 1))) fun assets => ?_
      rw [Option.bind_some, hsome, Option.bind_some, ← ofFloats_map, map_range_length fun j sid hj => ?_]
      cases ws with
      | nil => rfl
      | cons w ws =>
        have hlt : j < assets.length := (List.getElem?_eq_some_iff.1 hj).1
        have hwidth : ((viewOver w.1 w.2 assets).cells.map (Scalar.number (t.missingOf 0))).ncols = assets.length := rfl
        rw [List.map_cons, Evaluate.numberGrids, List.zipIdx_cons, List.map_cons, WindowKernel.compute, List.getD_eq_getElem?_getD, List.getElem?_map,
          hwidth, List.getElem?_range hlt, Option.map_some, Option.getD_some, if_neg (List.cons_ne_nil _ _),
          column_viewOver _ _ _ _ hj]
        refine congrArg (k.apply _) ?_
        cases ws with
        | nil => rfl
        | cons w' ws =>
          exact column_viewOver w'.1 w'.2 _ _ hj

theorem uniform_latest (hk : t.kind = .latest) (date : Date) (shown : List Shown) :
    Uniform fun assets => t.values? date assets (shown.map (Shown.sight assets)) := by
  have hvalues (assets : List Sid) : t.values? date assets (shown.map (Shown.sight assets)) =
      (shown.mapM Shown.window?).bind fun ws => ws.head?.bind fun w =>
        if w.2.length = 0 then none
        else some (w.1, (viewOver w.1 w.2 assets).cells.row (w.2.length - 1)) := by
    rw [values?, hk]
    show (Sight.windows? _ >>= _) = _
    rw [Shown.windows?_sight]
    cases shown.mapM Shown.window? with
    | none => rfl
    | some ws => cases ws <;> rfl
  simp only [hvalues]
  cases shown.mapM Shown.window? with
  | none => exact uniform_none fun _ => rfl
  | some ws =>
    cases ws with
    | nil => exact uniform_none fun _ => rfl
    | cons w ws =>
      by_cases h0 : w.2.length = 0
      · exact uniform_none fun _ => if_pos h0
      · refine uniform_some w.1 w.2[w.2.length - 1] fun assets => ?_
        rw [← row_viewOver w.1 w.2 assets (by omega)]
        exact if_neg h0

/-- The only input of a term shows one session, or it is refused whichever assets take part. -/
theorem single?_or (t : Term) (shown : List Shown) :
    (∀ assets, t.single? (shown.map (Shown.sight assets)) = none) ∨
    ∃ dtype values missing, ∀ assets,
      t.single? (shown.map (Shown.sight assets)) = some (viewOver dtype [values] assets, missing) := by
  have hsingle (assets : List Sid) : t.single? (shown.map (Shown.sight assets)) =
      (shown.mapM Shown.row?).bind fun xs => xs.head?.bind fun x => t.inputs.head?.map fun input =>
        (viewOver x.1 [x.2] assets, input.missing) := by
    rw [single?, Shown.rows?_sight]
    cases shown.mapM Shown.row? with
    | none => rfl
    | some xs =>
      cases xs with
      | nil => rfl
      | cons x xs => cases t.inputs <;> rfl
  simp only [hsingle]
  cases shown.mapM Shown.row? with
  | none => exact .inl fun _ => rfl
  | some xs =>
    cases xs with
    | nil => exact .inl fun _ => rfl
    | cons x xs =>
      cases t.inputs with
      | nil => exact .inl fun _ => rfl
      | cons input inputs => exact .inr ⟨x.1, x.2, input.missing, fun _ => rfl⟩

/-- A term of one input that is computed cell by cell. -/
theorem uniform_single {f : List Sid → Option (Dtype × List Scalar)} (t : Term) (shown : List Shown)
    (cell? : Dtype → Scalar → Option (Dtype × (Scalar → Scalar)))
    (hf : ∀ assets, f assets = (t.single? (shown.map (Shown.sight assets))).bind fun x =>
      (cell? x.1.dtype x.2).map fun y => (y.1, (x.1.cells.row 0).map y.2)) : Uniform f := by
  rcases t.single?_or shown with hnone | ⟨dtype, values, missing, hsome⟩
  · exact uniform_none fun assets => by rw [hf, hnone]; rfl
  · have hf (assets : List Sid) : f assets = (cell? dtype missing).map fun y =>
        (y.1, ((viewOver dtype [values] assets).cells.row 0).map y.2) := by
      rw [hf, hsome]
      rfl
    cases hc : cell? dtype missing with
    | none => exact uniform_none fun assets => by rw [hf, hc]; rfl
    | some y =>
      refine uniform_some y.1 (fun sid => y.2 (values sid)) fun assets => ?_
      rw [hf, hc, Option.map_some, row_viewOver _ _ _ Nat.one_pos, List.map_map]
      rfl

/-- A term that does not look across a row is for each asset what it is whichever others
take part. -/
theorem values?_uniform (hc : t.kind.isCrossSectional = false) (date : Date) (shown : List Shown) :
    Uniform fun assets => t.values? date assets (shown.map (Shown.sight assets)) := by
  cases hk : t.kind with
  | assetExists => exact uniform_none fun _ => by rw [values?, hk]
  | column c => exact uniform_none fun _ => by rw [values?, hk]
  | constant value => exact uniform_some value.dtype (fun _ => value) fun _ => by rw [values?, hk]
  | staticAssets keep => exact uniform_some .bool (fun sid => .bool (keep.contains sid)) fun _ => by rw [values?, hk]
  | latest => exact uniform_latest hk date shown
  | expression e => exact uniform_expression hk date shown
  | window k => exact uniform_window hk date shown
  | nullCheck negate =>
    refine t.uniform_single shown (fun _ missing =>
      some (.bool, fun x => .bool (Scalar.isAbsent missing x != negate))) fun assets => ?_
    rw [values?, hk]
    rfl
  | fillMissing value =>
    refine t.uniform_single shown (fun dtype missing => if value.dtype ≠ dtype then none
      else some (dtype, fun x => if Scalar.isAbsent missing x then value else x)) fun assets => ?_
    rw [values?, hk]
    refine congrArg (Option.bind _) (funext fun x => ?_)
    show (if value.dtype ≠ x.1.dtype then none else _) = _
    split <;> rfl
  | labelTest test =>
    refine t.uniform_single shown (fun dtype missing => (test.holds? dtype).map fun holds =>
      (.bool, fun x => .bool (holds x && !Scalar.isAbsent missing x))) fun assets => ?_
    rw [values?, hk]
    refine congrArg (Option.bind _) (funext fun x => ?_)
    show (test.holds? x.1.dtype >>= _) = _
    cases test.holds? x.1.dtype <;> rfl
  | custom _ | rank _ _ _ | transform _ _ | quantiles _ | percentileBetween _ _ =>
    rw [hk] at hc
    cases hc

/-! ## Rows -/

/-- A row is made of values of the type of the missing one. -/
theorem row?_eq_some {date : Date} {sids : List Sid} {seen : List Sight} {vs : List Scalar} :
    t.row? date sids seen = some vs ↔
      seen.length = t.inputs.length ∧ t.values? date sids seen = some (t.missing.dtype, vs) := by
  rw [row?]
  by_cases hlength : seen.length = t.inputs.length
  · rw [if_neg (not_not_intro hlength), Option.bind_eq_bind, Option.bind_eq_some_iff]
    constructor
    · rintro ⟨x, hx, hvs⟩
      by_cases hdtype : x.1 = t.missing.dtype
      · obtain rfl := Option.some.inj ((if_pos hdtype).symm.trans hvs)
        exact ⟨hlength, hx.trans (congrArg some (Prod.ext hdtype rfl))⟩
      · cases (if_neg hdtype).symm.trans hvs
    · rintro ⟨-, hvs⟩
      exact ⟨_, hvs, if_pos rfl⟩
  · rw [if_pos hlength]
    constructor
    · intro h
      cases h
    · rintro ⟨h, -⟩
      exact absurd h hlength

theorem lookup_zip_map {β : Type} {xs : List Sid} (f : Sid → β) {sid : Sid} (h : sid ∈ xs) :
    (xs.zip (xs.map f)).lookup sid = some (f sid) := by
  induction xs with
  | nil => cases h
  | cons x xs ih =>
    rw [List.map_cons, List.zip_cons_cons, List.lookup_cons]
    cases hx : sid == x with
    | true => rw [eq_of_beq hx]
    | false => exact ih ((List.mem_cons.1 h).resolve_left fun he => by rw [he, beq_self_eq_true] at hx; cases hx)

theorem lookup_zip_of_not_mem {β : Type} {xs : List Sid} {sid : Sid} (h : sid ∉ xs) (ys : List β) :
    (xs.zip ys).lookup sid = none := by
  rw [List.lookup_eq_none_iff]
  intro p hp
  exact bne_iff_ne.2 fun he => h (he ▸ (List.of_mem_zip hp).1)

theorem passes_eq {mask : Strand} {r : Nat} {passes : Sid → Bool} (h : mask.passes? r = some passes) (sid : Sid) :
    passes sid = (mask.value r sid).asBool?.getD false := by
  unfold Strand.passes? at h
  split at h
  · obtain ⟨x, hx, rfl⟩ := Option.map_eq_some_iff.1 h
    rw [Strand.value, hx]
    rfl
  · cases h

variable {w : World} {mask : Strand} {inputs : List Strand} {r : Nat} {row : Sid → Scalar} {sid : Sid}

/-- What there is to a row under one mask. -/
theorem rowAt?_eq_some : t.rowAt? w [mask] inputs r = some row ↔ ∃ passes shown values, mask.passes? r = some passes ∧
      inputs.mapM (·.shown? t.window r) = some shown ∧
      t.row? (w.date r) ((w.live r).filter passes) (shown.map (Shown.sight ((w.live r).filter passes))) = some values ∧
      row = fun sid => ((((w.live r).filter passes).zip values).lookup sid).getD t.missing := by
  have hsights (assets : List Sid) : inputs.mapM (·.sight? t.window assets r) =
      (inputs.mapM fun s : Strand => s.shown? t.window r).map (List.map (Shown.sight assets)) := by
    simp only [Strand.sight?_eq]
    induction inputs with
    | nil => rfl
    | cons s inputs ih =>
      rw [List.mapM_cons, List.mapM_cons, ih]
      cases s.shown? t.window r with
      | none => rfl
      | some x => cases inputs.mapM fun s : Strand => s.shown? t.window r <;> rfl
  have hrowAt : t.rowAt? w [mask] inputs r = (mask.passes? r).bind fun passes =>
      (inputs.mapM fun s : Strand => s.shown? t.window r).bind fun shown =>
        (t.row? (w.date r) ((w.live r).filter passes) (shown.map (Shown.sight ((w.live r).filter passes)))).map
          fun values sid => ((((w.live r).filter passes).zip values).lookup sid).getD t.missing := by
    rw [rowAt?, List.mapM_cons, List.mapM_nil]
    cases mask.passes? r with
    | none => rfl
    | some passes =>
      have hall : (fun sid => [passes].all (· sid)) = passes :=
        funext fun sid => by rw [List.all_cons, List.all_nil, Bool.and_true]
      show (inputs.mapM fun s : Strand =>
        s.sight? t.window ((w.live r).filter fun sid => [passes].all (· sid)) r).bind _ = _
      rw [hsights, hall]
      cases inputs.mapM fun s : Strand => s.shown? t.window r with
      | none => rfl
      | some shown =>
        show (t.row? _ ((w.live r).filter passes) _).bind _ = _
        rw [Option.bind_some, Option.bind_some]
        cases t.row? (w.date r) ((w.live r).filter passes) _ <;> rfl
  rw [hrowAt]
  simp only [Option.bind_eq_some_iff, Option.map_eq_some_iff]
  constructor
  · rintro ⟨passes, hp, shown, hshown, values, hvalues, rfl⟩
    exact ⟨passes, shown, values, hp, hshown, hvalues, rfl⟩
  · rintro ⟨passes, shown, values, hp, hshown, hvalues, rfl⟩
    exact ⟨passes, hp, shown, hshown, values, hvalues, rfl⟩

/-- Where the mask does not pass an asset, or it is not alive, the term has its missing value. -/
theorem rowAt?_outside (h : t.rowAt? w [mask] inputs r = some row)
    (hs : sid ∉ w.live r ∨ (mask.value r sid).asBool?.getD false = false) : row sid = t.missing := by
  obtain ⟨passes, shown, values, hp, -, -, rfl⟩ := rowAt?_eq_some.1 h
  have hnot : sid ∉ (w.live r).filter passes := by
    rw [List.mem_filter, passes_eq hp]
    rintro ⟨hlive, hpass⟩
    rcases hs with hs | hs
    · exact hs hlive
    · rw [hs] at hpass
      cases hpass
  simp only [lookup_zip_of_not_mem hnot, Option.getD_none]

/-- For an asset that takes part, a term that does not look across a row has the value that
it has for that asset alone. -/
theorem rowAt?_alone (hc : t.kind.isCrossSectional = false) (h : t.rowAt? w [mask] inputs r = some row)
    (hs : sid ∈ w.live r) (hm : (mask.value r sid).asBool?.getD false = true) :
    ∃ shown, inputs.mapM (·.shown? t.window r) = some shown ∧
      t.row? (w.date r) [sid] (shown.map (Shown.sight [sid])) = some [row sid] := by
  obtain ⟨passes, shown, values, hp, hshown, hvalues, rfl⟩ := rowAt?_eq_some.1 h
  have hmem : sid ∈ (w.live r).filter passes := List.mem_filter.2 ⟨hs, (passes_eq hp sid).trans hm⟩
  refine ⟨shown, hshown, ?_⟩
  obtain ⟨x?, hx⟩ : ∃ x? : Option (Dtype × (Sid → Scalar)), ∀ assets, t.values? (w.date r) assets
      (shown.map (Shown.sight assets)) = x?.map fun x => (x.1, assets.map x.2) := values?_uniform hc (w.date r) shown
  rw [row?_eq_some, hx, List.length_map] at hvalues ⊢
  obtain ⟨hlength, hcells⟩ := hvalues
  obtain ⟨x, rfl, hxcells⟩ := Option.map_eq_some_iff.1 hcells
  obtain ⟨hdtype, rfl⟩ := Prod.mk.inj hxcells
  refine ⟨hlength, ?_⟩
  rw [Option.map_some, hdtype]
  simp only [lookup_zip_map x.2 hmem, Option.getD_some, List.map_singleton]

/-- For an asset that takes part, a formula has the value that it has for the numbers of the
asset on the session, and all inputs have numbers there. -/
theorem rowAt?_expression {e : Expr} (hk : t.kind = .expression e) (h : t.rowAt? w [mask] inputs r = some row)
    (hs : sid ∈ w.live r) (hm : (mask.value r sid).asBool?.getD false = true) :
    ∃ xs, List.Forall₂ (fun s x => s.row? r r = some x.2 ∧ s.dtype = x.1 ∧ x.1 ≠ .categorical) inputs xs ∧
      row sid = floatCell t.dtype (e.evalCell (t.numberAt xs sid)) := by
  obtain ⟨shown, hshown, halone⟩ := rowAt?_alone (by rw [hk]; rfl) h hs hm
  have hvalues := (row?_eq_some.1 halone).2
  rw [values?_expression hk] at hvalues
  obtain ⟨xs, hxs, hcells⟩ := Option.bind_eq_some_iff.1 hvalues
  by_cases hcat : ∃ x ∈ xs, x.1 = .categorical
  · rw [if_pos hcat] at hcells
    cases hcells
  · rw [if_neg hcat] at hcells
    have hrows := Checked.mapM_eq_some.1 (Checked.mapM_bind hshown hxs)
    have hnumbers := (List.forall₂_and_left (p := fun x => x.1 ≠ .categorical) _ _).2
      ⟨fun x hx hd => hcat ⟨x, hx, hd⟩, hrows.flip⟩
    refine ⟨xs, (hnumbers.imp fun x s hx => ?_).flip, ?_⟩
    · obtain ⟨shown, hshown, hrow⟩ := Option.bind_eq_some_iff.1 hx.2
      exact ⟨(Strand.row?_of_shown? hshown hrow).1, (Strand.row?_of_shown? hshown hrow).2, hx.1⟩
    · exact (List.cons.inj (Prod.mk.inj (Option.some.inj hcells)).2).1.symm

end Term
end AsOf
