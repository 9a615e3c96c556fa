import AsOf.Loader.Frame
import AsOf.Proofs.Loader.Apart

/-!
# What a frame of restatements adds

The rows of a frame are added one by one, and the first that is at fault ends it. The tables that
are left have gained the restatements of the rows before it, for the one column, and nothing else:
so a fault of the whole frame or of its first row leaves them as they were, and no other column is
ever answered differently. But a fault further down does not take back the rows above it.

* `Tables.Gains`: tables that hold more restatements of a column.
* `Tables.Gains.restate`: what one row adds.
* `Tables.restateAll_spec`: what rows add up to the first faulty one.
* `Tables.adjustments_up_to_fault`: what a frame adds.
* `Tables.faulty_frame_restates`: a frame that is refused, and restates.
-/
namespace AsOf.Tables

variable {t t' t'' : Tables} {c : Column} {xs ys : List Restatement} {r : Request}

/-- Tables that hold more restatements of a column, behind those that they had, and else the same. -/
structure Gains (t t' : Tables) (c : Column) (xs : List Restatement) : Prop where
  dates : t'.dates = t.dates
  sids : t'.sids = t.sids
  column : t'.tables.get? (key c) = (t.tables.get? (key c)).map fun table =>
    { table with restatements := table.restatements ++ xs }
  others : ∀ name, name ≠ key c → t'.tables.get? name = t.tables.get? name

namespace Gains

theorem refl (t : Tables) (c : Column) : Gains t t c [] where
  dates := rfl
  sids := rfl
  column := by
    cases t.tables.get? (key c) with
    | none => rfl
    | some table => rw [Option.map_some, List.append_nil]
  others _ _ := rfl

theorem trans (h : Gains t t' c xs) (h' : Gains t' t'' c ys) : Gains t t'' c (xs ++ ys) where
  dates := h'.dates.trans h.dates
  sids := h'.sids.trans h.sids
  column := by
    rw [h'.column, h.column]
    cases t.tables.get? (key c) with
    | none => rfl
    | some table => simp only [Option.map_some, List.append_assoc]
  others name hname := (h'.others name hname).trans (h.others name hname)

/-- A restatement that is taken is one more. -/
theorem restate {x : Restatement} (h : t.restate c x = .ok t') : Gains t t' c [x] := by
  obtain ⟨table, htable, -, -, rfl⟩ := restate_eq_ok h
  refine ⟨rfl, rfl, ?_, fun name hname => ?_⟩
  · rw [Named.get?_insert, if_pos rfl, htable]
    rfl
  · rw [Named.get?_insert, if_neg hname]

/-- A column that has gained nothing is answered as before. -/
theorem keeps (h : Gains t t' c xs) {c' : Column} (hc : key c' ≠ key c) : Keeps t t' c' :=
  ⟨h.dates, h.sids, h.others _ hc⟩

theorem load_eq (h : Gains t t' c xs) (hr : ∀ c' ∈ r.columns, key c' ≠ key c) : t'.load r = t.load r :=
  Keeps.load_eq fun c' hc => h.keeps (hr c' hc)

end Gains

/-! ## Row by row -/

/-- Rows are added until one is at fault, or is refused by the tables. -/
theorem restateAll_spec (t : Tables) (c : Column) (rows : List (Except SourceFault Restatement)) :
    ∃ xs, Gains t (t.restateAll c rows).1 c xs ∧ (xs = [] → (t.restateAll c rows).1 = t) ∧
      ((t.restateAll c rows).2 = .ok () → rows = xs.map .ok) ∧
      ∀ e, (t.restateAll c rows).2 = .error e → ∃ row rest, rows = xs.map .ok ++ row :: rest ∧
        ((∃ fault, row = .error fault ∧ e = sourceError c fault) ∨
          ∃ x, row = .ok x ∧ (t.restateAll c rows).1.restate c x = .error e) := by
  induction rows generalizing t with
  | nil => exact ⟨[], .refl t c, fun _ => rfl, fun _ => rfl, nofun⟩
  | cons row rows ih =>
    cases row with
    | error fault =>
      refine ⟨[], .refl t c, fun _ => rfl, nofun, fun e h => ⟨_, _, rfl, .inl ⟨fault, rfl, ?_⟩⟩⟩
      exact (Except.error.inj h).symm
    | ok x =>
      cases hx : t.restate c x with
      | error e =>
        have hall : t.restateAll c (.ok x :: rows) = (t, .error e) := by
          rw [restateAll, hx]
        rw [hall]
        refine ⟨[], .refl t c, fun _ => rfl, nofun, fun e' h => ⟨_, _, rfl, .inr ⟨x, rfl, ?_⟩⟩⟩
        rw [hx, Except.error.inj h]
      | ok t' =>
        have hall : t.restateAll c (.ok x :: rows) = t'.restateAll c rows := by
          rw [restateAll, hx]
        obtain ⟨xs, hgains, -, hok, herror⟩ := ih t'
        rw [hall]
        refine ⟨x :: xs, (Gains.restate hx).trans hgains, nofun, fun h => congrArg _ (hok h), fun e h => ?_⟩
        obtain ⟨row, rest, hrows, hfault⟩ := herror e h
        exact ⟨row, rest, congrArg _ hrows, hfault⟩

/-! ## A frame -/

/-- The rows of a frame are as many as it is high. -/
theorem length_restatements {f : Frame} {rows : List (Except SourceFault Restatement)}
    (h : restatements c f = .ok rows) : rows.length = f.height := by
  obtain ⟨_, -, h⟩ := Checked.bind_eq_ok.1 h
  obtain ⟨_, -, h⟩ := Checked.bind_eq_ok.1 h
  obtain ⟨_, -, h⟩ := Checked.bind_eq_ok.1 h
  obtain ⟨_, -, h⟩ := Checked.bind_eq_ok.1 h
  obtain ⟨_, -, h⟩ := Checked.bind_eq_ok.1 h
  obtain ⟨_, -, h⟩ := Checked.bind_eq_ok.1 h
  rw [← Except.ok.inj h, List.length_map, List.length_range]

/-- What a frame of restatements adds to a column: those of all rows, in their order, if it is taken,
and if it is refused those of the rows before the first that is at fault. Where that are none, the
tables are left as they were, and answers for other columns never change. -/
theorem adjustments_up_to_fault (t : Tables) (c : Column) (f : Frame) : ∃ xs : List Restatement,
    Gains t (t.addAdjustments c f).1 c xs ∧ (xs = [] → (t.addAdjustments c f).1 = t) ∧
    (∀ r : Request, (∀ c' ∈ r.columns, key c' ≠ key c) → (t.addAdjustments c f).1.load r = t.load r) ∧
    ((t.addAdjustments c f).2 = .ok () → restatements c f = .ok (xs.map .ok) ∧ xs.length = f.height) ∧
    ∀ e, (t.addAdjustments c f).2 = .error e →
      (∃ fault, restatements c f = .error fault ∧ e = sourceError c fault ∧ xs = []) ∨
      ∃ row rest, restatements c f = .ok (xs.map .ok ++ row :: rest) ∧
        ((∃ fault, row = .error fault ∧ e = sourceError c fault) ∨
          ∃ x, row = .ok x ∧ (t.addAdjustments c f).1.restate c x = .error e) := by
  cases hrows : restatements c f with
  | error fault =>
    have hadd : t.addAdjustments c f = (t, .error (sourceError c fault)) := by
      rw [addAdjustments, hrows]
    rw [hadd]
    exact ⟨[], .refl t c, fun _ => rfl, fun _ _ => rfl, nofun, fun e h =>
      .inl ⟨fault, rfl, (Except.error.inj h).symm, rfl⟩⟩
  | ok rows =>
    have hadd : t.addAdjustments c f = t.restateAll c rows := by
      rw [addAdjustments, hrows]
    rw [hadd]
    obtain ⟨xs, hgains, hnone, hok, herror⟩ := restateAll_spec t c rows
    refine ⟨xs, hgains, hnone, fun r hr => hgains.load_eq hr, fun h => ⟨congrArg _ (hok h), ?_⟩, fun e h => .inr ?_⟩
    · rw [← length_restatements hrows, hok h, List.length_map]
    · obtain ⟨row, rest, hsplit, hfault⟩ := herror e h
      exact ⟨row, rest, congrArg _ hsplit, hfault⟩

/-! A number that is overwritten, and a row of a kind that there is not. -/

/-- The rate of the third day is overwritten on the second and, in some way, on the third. -/
def rescaled : Frame where
  columns := [("sid", .ints [some 1, some 1]), ("kind", .texts [some "overwrite", some "rescale"]),
    ("value", .ints [some 5, some 6]), ("start_date", .texts [some "1970-01-03", some "1970-01-03"]),
    ("end_date", .texts [some "1970-01-03", some "1970-01-03"]),
    ("apply_date", .texts [some "1970-01-02", some "1970-01-03"])]

theorem restatements_rescaled : restatements rate rescaled =
    .ok [.ok (rateKnown 5 ⟨1⟩), .error (.unknownKind (some "rescale"))] := by
  have hsids : (Series.ints [some 1, some 1]).toSids = [some ⟨1⟩, some ⟨1⟩] := by decide +kernel
  have hdays : (Series.texts [some "1970-01-03", some "1970-01-03"]).toDates = [some ⟨2⟩, some ⟨2⟩] := by
    decide +kernel
  have hknowns : (Series.texts [some "1970-01-02", some "1970-01-03"]).toDates = [some ⟨1⟩, some ⟨2⟩] := by
    decide +kernel
  show Except.ok ([0, 1].map _) = _
  rw [hsids, hdays, hknowns]
  rfl

/-- The frame is refused for its second row, and yet the number of the third day is the one of its
first row from then on. -/
theorem faulty_frame_restates : ∃ t, (rates []).Reached ∧
    (rates []).addAdjustments rate rescaled = (t, .error (sourceError rate (.unknownKind (some "rescale")))) ∧
    (rates []).thirdRate? [⟨0⟩, ⟨1⟩, ⟨2⟩] = some (.int 1) ∧ t.thirdRate? [⟨0⟩, ⟨1⟩, ⟨2⟩] = some (.int 5) ∧
    t.load (rateOn [⟨0⟩, ⟨1⟩, ⟨2⟩]) ≠ (rates []).load (rateOn [⟨0⟩, ⟨1⟩, ⟨2⟩]) := by
  have hadd : (rates []).addAdjustments rate rescaled =
      (rates [rateKnown 5 ⟨1⟩], .error (sourceError rate (.unknownKind (some "rescale")))) := by
    rw [addAdjustments, restatements_rescaled]
    rfl
  have hbefore : (rates []).thirdRate? [⟨0⟩, ⟨1⟩, ⟨2⟩] = some (.int 1) := by cbv
  have hafter : (rates [rateKnown 5 ⟨1⟩]).thirdRate? [⟨0⟩, ⟨1⟩, ⟨2⟩] = some (.int 5) := by cbv
  refine ⟨_, reached_rates_nil, hadd, hbefore, hafter, fun h => ?_⟩
  unfold thirdRate? at hbefore hafter
  rw [h, hbefore] at hafter
  exact absurd (Scalar.int.inj (Option.some.inj hafter)) (by decide)

end AsOf.Tables
