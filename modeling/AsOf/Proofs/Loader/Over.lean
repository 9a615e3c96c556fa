import AsOf.Proofs.Loader.AsKnown

/-!
# Loaders over tables

Loaders that each answer from tables of its own keep what the tables tell of a column. Where
the restatements of every value came in the order in which they became known, this does not
depend on the days that are asked for together.

* `Loaders.Over.keep`: they keep what the tables tell.
* `Loaders.Over.keep_known`: in order, they keep one ledger for each column.
-/
namespace AsOf

namespace Tables

variable {t : Tables} {r : Request}

/-- What is known of a column on each day, where restatements apply in the order in which
they came. -/
def known? (t : Tables) (c : Column) : Option Ledger :=
  (t.tables.get? (key c)).map fun table => ⟨c.missing.dtype, c.missing, t.asKnown c table⟩

/-- The restatements of every value of a column came in order. -/
def InOrder (t : Tables) (c : Column) : Prop :=
  ∀ table ∈ t.tables.get? (key c), ∀ d sid, table.InOrder d sid

/-- Among the days of a request tables tell what is known. -/
theorem ledger?_agreeOn_known? {c : Column} (ho : t.InOrder c) {dates : List Date} (hd : Ascending dates) :
    Option.Rel (Ledger.AgreeOn dates) (t.ledger? dates c) (t.known? c) := by
  unfold ledger? known?
  cases hg : t.tables.get? (key c) with
  | none => exact .none
  | some table =>
    refine .some ⟨rfl, rfl, fun d _ p hp sid => ?_⟩
    exact congrArg (Restatements.onValue · _) (Restatements.seen_of_ascending hd hp (ho table hg d sid))

/-- No label of a table has two codes. -/
def Distinct (t : Tables) : Prop := ∀ name, ∀ table ∈ t.tables.get? name, table.values.Distinct

end Tables

/-- Each loader answers from its tables. -/
structure Loaders.Over (ls : Loaders) (ts : List Tables) : Prop where
  loads : List.Forall₂ (fun l t => l.load = t.load) ls.all ts
  reached : ∀ t ∈ ts, t.Reached
  distinct : ∀ t ∈ ts, t.Distinct

namespace Loaders

variable {ls : Loaders} {ts : List Tables} {asks : Column → Prop} {mayRefuse : Prop}

/-- The tables that serve a column. -/
def tables? (ls : Loaders) (ts : List Tables) (c : Column) : Option Tables := do
  ts[← ls.byDataset.lookup c.dataset]?

/-- What tables tell of a column. -/
def told? (ls : Loaders) (ts : List Tables) (dates : List Date) (c : Column) : Option Ledger := do
  (← ls.tables? ts c).ledger? dates c

/-- What tables know of a column. -/
def known? (ls : Loaders) (ts : List Tables) (c : Column) : Option Ledger := do
  (← ls.tables? ts c).known? c

/-- A column has a table of another type. -/
def Misfit (ls : Loaders) (ts : List Tables) (c : Column) : Prop := ∃ t, ls.tables? ts c = some t ∧ t.Misfit c

theorem Over.tables_of_serving (h : ls.Over ts) {c : Column} {place : Nat} {l : Loader}
    (hs : ls.serving? c = some (place, l)) :
    ∃ t, ls.tables? ts c = some t ∧ ts[place]? = some t ∧ t ∈ ts ∧ l.load = t.load := by
  obtain ⟨place', hplace, hs⟩ := Option.bind_eq_some_iff.1 hs
  obtain ⟨l', hl, hs⟩ := Option.bind_eq_some_iff.1 hs
  cases hs
  obtain ⟨hlt, rfl⟩ := List.getElem?_eq_some_iff.1 hl
  have hlt' : place < ts.length := h.loads.length_eq ▸ hlt
  refine ⟨ts[place], ?_, List.getElem?_eq_getElem hlt', List.getElem_mem hlt', ?_⟩
  · exact Option.bind_eq_some_iff.2 ⟨place, hplace, List.getElem?_eq_getElem hlt'⟩
  · exact (List.forall₂_iff_get.1 h.loads).2 place hlt hlt'

/-- Loaders over tables keep what the tables tell. -/
theorem Over.keep (h : ls.Over ts) (hm : (∃ c, asks c ∧ ls.Misfit ts c) → mayRefuse) :
    ls.Keep asks (ls.told? ts) mayRefuse := by
  intro place l r hr hserved
  obtain ⟨c, columns, hcolumns⟩ := List.exists_cons_of_ne_nil hr.nonempty
  obtain ⟨t, -, hplace, ht, hload⟩ := h.tables_of_serving (hserved c (hcolumns ▸ List.mem_cons_self)).2
  have htables (c : Column) (hc : c ∈ r.columns) : ls.tables? ts c = some t := by
    obtain ⟨t', htables, hplace', -⟩ := h.tables_of_serving (hserved c hc).2
    rw [htables, ← hplace', hplace]
  have hanswers := Tables.answers (h.reached t ht).sound (fun c _ => h.distinct t ht _) hr l.number
  refine hanswers.of_agreeOn hload.symm (fun c hc => ?_) fun ⟨c, hc, hmis⟩ =>
    hm ⟨c, (hserved c hc).1, t, htables c hc, hmis⟩
  rw [told?, htables c hc]
  show Option.Rel _ _ (t.ledger? r.dates c)
  cases t.ledger? r.dates c with
  | none => exact .none
  | some k => exact .some (.refl _ k)

/-- Where all restatements came in order, they keep one ledger for each column. -/
theorem Over.keep_known (h : ls.Over ts) (ho : ∀ c, asks c → ∀ t ∈ ls.tables? ts c, t.InOrder c)
    (hm : (∃ c, asks c ∧ ls.Misfit ts c) → mayRefuse) : ls.Keep asks (fun _ => ls.known? ts) mayRefuse := by
  intro place l r hr hserved
  refine (h.keep hm place l r hr hserved).of_agreeOn rfl (fun c hc => ?_) id
  show Option.Rel _ (ls.told? ts r.dates c) (ls.known? ts c)
  rw [told?, known?]
  cases htables : ls.tables? ts c with
  | none => exact .none
  | some t => exact Tables.ledger?_agreeOn_known? (ho c (hserved c hc).1 t htables) hr.dates

end Loaders
end AsOf
