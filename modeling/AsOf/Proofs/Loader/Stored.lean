import AsOf.Proofs.Cursor
import AsOf.Proofs.Loader.AsKnown
import Mathlib

/-!
# What an answer makes of the restatements of a column

A column is stored with the cells that were added for it last and with the restatements that
came since then, in their order. An answer for it holds those cells on the requested days and
assets. A window of it that ends at a row shows each cell after the restatements of the asset
that concern the day of the cell and are known on the day of the row: all of them, and each
of them once.

* `Tables.Reached.stored`: whatever tables hold for a name is stored for some column.
* `Tables.Stored.holds`: the history of a stored column.
* `Tables.load_stored`: every request for stored columns is answered by such histories.
-/
namespace AsOf

namespace History

/-- The adjustments of a cell that a window which ends at row `q` has applied, in their order. -/
def applied (h : History) (q i j : Nat) : List (Nat × Adjustment) :=
  (h.adjustments.flat.filter (·.1 < q + 1)).filter (·.2.covers i j)

/-- Every traversal that fits can be made, and where it has come to a window that ends at row `q`,
however it was moved, that window shows `v` at row `i` and column `j` of the history. -/
def ShowsAt (h : History) (q i j : Nat) (v : Scalar) : Prop :=
  ∀ window offset : UInt64, 1 ≤ window.toNat → offset.toNat + window.toNat ≤ h.block.nrows →
    ∃ cursor, h.traverse window offset 0 = .ok cursor ∧
      ∀ moves, (cursor.after moves).anchor.toNat = q + 1 → q < i + window.toNat →
        ∃ w next, (cursor.after moves).next? = some (w, next) ∧ w.get? (i + window.toNat - (q + 1)) j = some v

/-- A window shows a cell after its adjustments that are keyed at its last row or before. -/
theorem showsAt_onCell {b : Block} {adjustments : Adjustments} {missing v : Scalar} {h : History}
    (hh : mk? b adjustments missing = .ok h) (hkeys : adjustments.Ordered) (hN : b.nrows < 0x8000000000000000)
    (hv : b.Valid) {q i j : Nat} (hiq : i ≤ q) (hq : q < b.nrows) (hcell : b.get? i j = some v) :
    h.ShowsAt q i j (onCell (adjustments.flat.filter (·.1 < q + 1)) i j v) := by
  intro window offset hw hfit
  have hrows : h.block.nrows = b.nrows := by
    obtain ⟨-, -, rfl⟩ := mk?_eq_ok.1 hh
    rfl
  obtain ⟨-, -, cursor, ht, -, hreads⟩ := traversal_reads hh hkeys hN hw (hrows ▸ hfit)
    (show b.nrows + (0 : UInt64).toNat < _ by rw [UInt64.toNat_zero]; omega)
  refine ⟨cursor, ht, fun moves ha hi => ?_⟩
  have hr := hreads moves
  have hroom := hr.room
  obtain ⟨w, next, hn, -, -⟩ := hr.shows (by omega)
  obtain ⟨-, -, hget⟩ := hr.cells hv w next hn
  refine ⟨w, next, hn, ?_⟩
  rw [hget, if_pos (by omega), ha, show q + 1 - window.toNat + (i + window.toNat - (q + 1)) = i by omega, hcell]
  rfl

end History

namespace Tables

variable {t t' : Tables} {table : Table} {c : Column} {r : Request} {h : History}

/-- A column is stored with the cells that were added for it last, and with the restatements
that came since then. -/
inductive Stored : Tables → Column → Table → Prop
  | added {t t' : Tables} {c added : Column} {values : Block} (h : t.Reached) (valid : values.Valid)
      (ok : t.addColumn added values = .ok t') (same : key c = key added)
      (dtype : c.missing.dtype = added.missing.dtype) : Stored t' c ⟨values, []⟩
  | restated {t t' : Tables} {c restated : Column} {table : Table} {x : Restatement} (h : Stored t c table)
      (ok : t.restate restated x = .ok t') (same : key c = key restated) :
      Stored t' c ⟨table.values, table.restatements ++ [x]⟩
  | beside {t t' : Tables} {c other : Column} {table : Table} {values : Block} (h : Stored t c table)
      (valid : values.Valid) (ok : t.addColumn other values = .ok t') (apart : key c ≠ key other) : Stored t' c table
  | restatedBeside {t t' : Tables} {c other : Column} {table : Table} {x : Restatement} (h : Stored t c table)
      (ok : t.restate other x = .ok t') (apart : key c ≠ key other) : Stored t' c table

theorem Stored.reached (h : Stored t c table) : t.Reached := by
  induction h with
  | added h valid ok => exact h.addColumn valid ok
  | restated _ ok _ ih => exact ih.restate ok
  | beside _ valid ok _ ih => exact ih.addColumn valid ok
  | restatedBeside _ ok _ ih => exact ih.restate ok

/-- A stored column has its table, and suits it. -/
theorem Stored.found (h : Stored t c table) :
    t.tables.get? (key c) = some table ∧ c.missing.dtype = table.values.dtype := by
  induction h with
  | added h valid ok same dtype =>
    obtain ⟨-, hdtype, rfl⟩ := addColumn_eq_ok.1 ok
    exact ⟨(Named.get?_insert ..).trans (if_pos same), dtype.trans hdtype⟩
  | restated h ok same ih =>
    obtain ⟨old, hold, -, -, rfl⟩ := restate_eq_ok ok
    obtain rfl := Option.some.inj ((same ▸ ih.1).symm.trans hold)
    exact ⟨(Named.get?_insert ..).trans (if_pos same), ih.2⟩
  | beside h valid ok apart ih =>
    obtain ⟨-, -, rfl⟩ := addColumn_eq_ok.1 ok
    exact ⟨(Named.get?_insert ..).trans ((if_neg apart).trans ih.1), ih.2⟩
  | restatedBeside h ok apart ih =>
    obtain ⟨old, -, -, -, rfl⟩ := restate_eq_ok ok
    exact ⟨(Named.get?_insert ..).trans ((if_neg apart).trans ih.1), ih.2⟩

/-- What tables hold for a name is stored for every column of that name and of that type. -/
theorem Reached.stored (h : t.Reached) (hg : t.tables.get? (key c) = some table)
    (hd : c.missing.dtype = table.values.dtype) : Stored t c table := by
  induction h generalizing table with
  | ofAxes dates sids => cases hg
  | addColumn h valid ok ih =>
    obtain ⟨-, hdtype, rfl⟩ := addColumn_eq_ok.1 ok
    rw [Named.get?_insert] at hg
    split at hg
    · obtain rfl := Option.some.inj hg
      exact .added h valid ok ‹_› (hd.trans hdtype.symm)
    · exact (ih hg hd).beside valid ok ‹_›
  | restate h ok ih =>
    obtain ⟨old, hold, -, -, rfl⟩ := restate_eq_ok ok
    rw [Named.get?_insert] at hg
    split at hg
    · rename_i same
      obtain rfl := Option.some.inj hg
      rw [← same] at hold
      exact (ih hold hd).restated ok same
    · exact (ih hg hd).restatedBeside ok ‹_›

/-! ## The history of a stored column -/

/-- What a history makes of the cells of a table and of its restatements. -/
structure Answered (t : Tables) (table : Table) (r : Request) (h : History) : Prop where
  shape : h.shape = r.shape
  dtype : h.dtype = table.values.dtype
  /-- The cell of the table where there is one. -/
  base : ∀ (i j : Nat) (d : Date) (sid : Sid), r.dates[i]? = some d → r.sids[j]? = some sid →
    h.block.get? i j = some (t.stored table h.missing d sid)
  /-- A window that ends at a row has applied the adjustments of the restatements that concern
  the cell and are known on the day of the row, each once, and shows what they make of it. -/
  applied : ∀ (i q j : Nat) (d p : Date) (sid : Sid), i ≤ q → r.dates[i]? = some d → r.dates[q]? = some p →
    r.sids[j]? = some sid → ∃ xs : List Restatement,
      xs.Perm (table.restatements.filter fun x => x.concerns d sid && decide (x.known ≤ p)) ∧
      (h.applied q i j).map some = xs.map (·.adjustment? r.dates r.sids) ∧
      (r.dates.length < 0x8000000000000000 →
        h.ShowsAt q i j (Restatements.onValue xs (t.stored table h.missing d sid)))

/-- The history of a stored column can be built, and makes of its restatements what they say. -/
theorem Stored.answered (hc : Stored t c table) (hd : Ascending r.dates) (hs : r.sids.Nodup) :
    ∃ h, t.answer r c = .ok h ∧ h.missing = c.missing ∧ t.Answered table r h := by
  obtain ⟨hfound, hdtype⟩ := hc.found
  have ht := hc.reached.sound _ table hfound
  obtain ⟨b, hb, hg⟩ : ∃ b, t.gather table.values r c.missing = .ok b ∧ t.Gathered table r c.missing b := by
    rcases gather_spec ht r c.missing with h | ⟨hne, -⟩
    · exact h
    · exact absurd hdtype hne
  have hkeyed : (table.restatements.filterMapM fun x => x.keyed? r.dates.toArray r.sids) =
      .ok (table.restatements.filterMap (·.adjustment? r.dates r.sids)) :=
    Checked.filterMapM_of_ok fun x hx => Restatement.keyed?_eq (ht.single x hx) r.dates r.sids
  have hmk : History.mk? b (Restatements.adjustments table.restatements r.dates r.sids) c.missing =
      .ok ⟨b, Restatements.adjustments table.restatements r.dates r.sids, c.missing⟩ :=
    History.mk?_eq_ok.2 ⟨Block.expect_eq_ok.2 hg.dtype.symm,
      validate_adjustments ht hd hg.shape (hg.dtype.trans hdtype), rfl⟩
  refine ⟨⟨b, Restatements.adjustments table.restatements r.dates r.sids, c.missing⟩, ?_, rfl,
    hg.shape, hg.dtype.trans hdtype, hg.cell, fun i q j d p sid hiq hi hq hj => ?_⟩
  · unfold answer historyOf
    rw [hfound]
    simp only [hb, hkeyed]
    exact congrArg (Except.mapError LoadError.array) hmk
  have hkeys : (Restatements.adjustments table.restatements r.dates r.sids).Ordered := Adjustments.ordered_ofList _
  have hsome := Restatements.map_some_adjustments table.restatements hd hs hi hq hj
  have hcell := Restatements.onCell_adjustments ht.single hd hs hi hq hj (t.stored table c.missing d sid)
  rw [Adjustments.takeWhile_flat hkeys] at hsome hcell
  have hrows : b.nrows = r.dates.length := congrArg Prod.fst hg.shape
  refine ⟨_, Restatements.seen_perm hd hq _ d sid, hsome, fun hN => ?_⟩
  rw [← hcell]
  exact History.showsAt_onCell hmk hkeys (hrows ▸ hN) hg.valid hiq
    (hrows ▸ (List.getElem?_eq_some_iff.1 hq).1) (hg.cell i j d sid hi hj)

/-! ## Answers -/

/-- An answer holds for a column the history of the last requested column that is the same. -/
theorem load_of_answers {f : Column → History} (hf : ∀ c ∈ r.columns, t.answer r c = .ok (f c)) :
    ∃ m, t.load r = .ok m ∧ ∀ c, m.get? c = (r.columns.reverse.find? (· == c)).map f := by
  have hput (columns : List Column) (c : Column) :
      (Loaded.extend [] (columns.zip (columns.map f))).get? c = (columns.reverse.find? (· == c)).map f := by
    induction columns using List.reverseRecOn with
    | nil => rfl
    | append_singleton columns last ih =>
      rw [List.map_append, List.zip_append (by rw [List.length_map]), Loaded.extend, List.foldl_append,
        List.reverse_append]
      show ((Loaded.extend [] (columns.zip (columns.map f))).insert last (f last)).get? c =
        ((last :: columns.reverse).find? (· == c)).map f
      rw [Loaded.get?_insert, ih, List.find?_cons, Column.beq_comm c last]
      cases last == c <;> rfl
  refine ⟨Loaded.extend [] (r.columns.zip (r.columns.map f)), ?_, hput r.columns⟩
  rw [load_eq, Checked.mapM_of_ok hf]
  rfl

/-- Every request for stored columns is answered. A column, or the last requested one that is the
same, has a history that holds the cells of its table and in whose windows each of its
restatements is applied where it concerns a cell and is known, and is applied there once. -/
theorem load_stored (hd : Ascending r.dates) (hs : r.sids.Nodup) (hr : ∀ c ∈ r.columns, ∃ table, Stored t c table) :
    ∃ m, t.load r = .ok m ∧ ∀ c ∈ r.columns, ∀ table, Stored t c table →
      ∃ c' h, r.columns.reverse.find? (· == c) = some c' ∧ m.get? c = some h ∧ h.missing = c'.missing ∧
        t.Answered table r h := by
  have hall : ∀ c ∈ r.columns, ∃ h, t.answer r c = .ok h ∧ h.missing = c.missing ∧
      ∀ table, Stored t c table → t.Answered table r h := by
    intro c hc
    obtain ⟨table, htable⟩ := hr c hc
    obtain ⟨h, hh, hm, ha⟩ := htable.answered hd hs
    refine ⟨h, hh, hm, fun table' htable' => ?_⟩
    obtain rfl := Option.some.inj (htable.found.1.symm.trans htable'.found.1)
    exact ha
  have : Nonempty History := ⟨.allMissing (.bool false) (0, 0)⟩
  choose! f hf using hall
  obtain ⟨m, hm, hget⟩ := load_of_answers fun c hc => (hf c hc).1
  refine ⟨m, hm, fun c hc table htable => ?_⟩
  obtain ⟨c', hc'⟩ : ∃ c', r.columns.reverse.find? (· == c) = some c' :=
    Option.isSome_iff_exists.1 (List.find?_isSome.2 ⟨c, List.mem_reverse.2 hc, beq_self_eq_true c⟩)
  have hmem := List.mem_reverse.1 (List.mem_of_find?_eq_some hc')
  obtain ⟨-, hmissing, hanswered⟩ := hf c' hmem
  have hsame : (c' == c) = true := List.find?_some (p := (· == c)) hc'
  obtain ⟨table', htable'⟩ := hr c' hmem
  have hkey : key c' = key c := key_eq hsame
  obtain rfl := Option.some.inj (htable.found.1.symm.trans (hkey ▸ htable'.found.1))
  exact ⟨c', f c', hc', by rw [hget, hc']; rfl, hmissing, hanswered table htable'⟩

/-! A number that is restated on the second and on the third day. -/

/-- On the second day asked for, which is the last of the three, both restatements are applied,
for an asset that is asked for behind one without numbers. -/
theorem load_stored_rates :
    let t := rates [rateKnown 5 ⟨1⟩, rateKnown 6 ⟨2⟩]
    let r := Request.unmasked [rate] [⟨0⟩, ⟨2⟩] [⟨7⟩, ⟨1⟩]
    ∃ m h, t.load r = .ok m ∧ m.get? rate = some h ∧ h.block.get? 1 1 = some (.int 1) ∧
      h.block.get? 1 0 = some (.int 0) ∧
      ∃ xs : List Restatement, xs.Perm [rateKnown 5 ⟨1⟩, rateKnown 6 ⟨2⟩] ∧
        (h.applied 1 1 1).map some = xs.map (·.adjustment? r.dates r.sids) := by
  intro t r
  have hstored : Stored t rate ⟨.full (.int 1) (3, 1), [rateKnown 5 ⟨1⟩, rateKnown 6 ⟨2⟩]⟩ :=
    (reached_rates 5 6 ⟨1⟩ ⟨2⟩).stored rfl rfl
  have hone (c : Column) (hc : c ∈ r.columns) : c = rate := List.mem_singleton.1 hc
  have hdates : Ascending r.dates := by
    unfold Ascending
    decide
  obtain ⟨m, hm, hget⟩ := load_stored (t := t) (r := r) hdates (by decide)
    fun c hc => ⟨_, hone c hc ▸ hstored⟩
  obtain ⟨c', h, hc', hh, hmissing, ha⟩ := hget rate (List.mem_singleton.2 rfl) _ hstored
  obtain rfl := hone c' (List.mem_reverse.1 (List.mem_of_find?_eq_some hc'))
  obtain ⟨xs, hxs, happlied, -⟩ := ha.applied 1 1 1 ⟨2⟩ ⟨2⟩ ⟨1⟩ (Nat.le_refl 1) rfl rfl rfl
  refine ⟨m, h, hm, hh, ?_, ?_, xs, hxs, happlied⟩
  · exact ha.base 1 1 ⟨2⟩ ⟨1⟩ rfl rfl
  · rw [ha.base 1 0 ⟨2⟩ ⟨7⟩ rfl rfl, hmissing]
    rfl

end Tables
end AsOf
