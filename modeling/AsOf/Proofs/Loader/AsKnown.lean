import AsOf.Proofs.Loader.Tables
import Mathlib

/-!
# What is known of a value

What tables tell of a value on a day depends on the days that it is asked for with:
restatements that were known before the first of them all apply there, in the order in
which they came. Where those of a value came in the order in which they became known,
this makes no difference, and the value is the same in every request.

* `Tables.value?_of_load`: the value of an answer.
* `Tables.asKnown_of_load`: restatements that came in order apply in that order.
* `Tables.answers_agree`: the value of a day as known on another is the same in all answers.
-/
namespace AsOf

/-- The value of an asset for a day as known on another, in an answer. -/
def Loaded.value? (m : Loaded) (r : Request) (c : Column) (d p : Date) (sid : Sid) : Option Scalar := do
  (← m.get? c).cell? (← r.dates.idxOf? d) (← r.dates.idxOf? p) (← r.sids.idxOf? sid)

/-- A request asks for the value of an asset for a day as known on a day not before. -/
structure Request.Asks (r : Request) (c : Column) (d p : Date) (sid : Sid) : Prop where
  column : c ∈ r.columns
  date : d ∈ r.dates
  asOf : p ∈ r.dates
  le : d ≤ p
  asset : sid ∈ r.sids

/-- The restatements of a value came in the order in which they became known. -/
def Table.InOrder (table : Table) (d : Date) (sid : Sid) : Prop :=
  (table.restatements.filter (·.concerns d sid)).Pairwise fun x y => x.known ≤ y.known

namespace Tables

variable {t : Tables} {table : Table} {c : Column} {r r' : Request} {m m' : Loaded} {d p : Date} {sid : Sid}

/-- The value that an answer tells is the one that the table does. -/
theorem value?_of_load (ht : t.Sound) (hg : t.tables.get? (key c) = some table) (hr : r.Regular)
    (hm : t.load r = .ok m) (ha : r.Asks c d p sid) :
    m.value? r c d p sid = some ((t.told c table r.dates).known d p sid) := by
  have hplace {α : Type} [BEq α] [LawfulBEq α] {x : α} {xs : List α} (hx : x ∈ xs) :
      ∃ i, xs.idxOf? x = some i ∧ xs[i]? = some x := by
    obtain ⟨i, hi⟩ := Option.isSome_iff_exists.1 (List.isSome_idxOf?.2 hx)
    obtain ⟨hlt, hxi, -⟩ := List.idxOf?_eq_some_iff.1 hi
    exact ⟨i, hi, List.getElem?_eq_some_iff.2 ⟨hlt, hxi⟩⟩
  obtain ⟨i, hi, hid⟩ := hplace ha.date
  obtain ⟨q, hq, hqp⟩ := hplace ha.asOf
  obtain ⟨j, hj, hjs⟩ := hplace ha.asset
  have hiq : i ≤ q := by
    refine Nat.le_of_not_lt fun hlt => ?_
    obtain ⟨hi', rfl⟩ := List.getElem?_eq_some_iff.1 hid
    obtain ⟨hq', rfl⟩ := List.getElem?_eq_some_iff.1 hqp
    have hpd := List.pairwise_iff_getElem.1 hr.dates q i hq' hi' hlt
    exact absurd ha.le (Int.not_le.2 hpd)
  obtain ⟨-, -, hget⟩ := load_eq_ok hr hm
  obtain ⟨h, hh, hok⟩ := hget c ha.column
  have hok : (t.historyOf table r c.missing).mapError LoadError.array = .ok h := by
    unfold answer at hok
    rwa [hg] at hok
  have hok := Checked.mapError_eq_ok.1 hok
  rcases historyOf_spec (ht _ table hg) hr.dates hr.sids c with ⟨h', hh', htells, -⟩ | ⟨-, e, he⟩
  · obtain rfl := Except.ok.inj (hh'.symm.trans hok)
    rw [Loaded.value?, hh, hi, hq, hj]
    exact htells.cell i q j d p sid hiq hid hqp hjs
  · rw [he] at hok
    cases hok

/-- The value for a day after the restatements that are known on another. -/
def asKnown (t : Tables) (c : Column) (table : Table) (d p : Date) (sid : Sid) : Scalar :=
  Restatements.onValue ((table.restatements.filter (·.concerns d sid)).filter fun x => decide (x.known ≤ p))
    (t.stored table c.missing d sid)

/-- Restatements that came in order apply in that order. -/
theorem asKnown_of_load (ht : t.Sound) (hg : t.tables.get? (key c) = some table) (hr : r.Regular)
    (hm : t.load r = .ok m) (ha : r.Asks c d p sid) (ho : table.InOrder d sid) :
    m.value? r c d p sid = some (t.asKnown c table d p sid) := by
  rw [value?_of_load ht hg hr hm ha]
  exact congrArg (fun xs => some (Restatements.onValue xs _)) (Restatements.seen_of_ascending hr.dates ha.asOf ho)

/-- What is told of a value for a day as known on another is the same in all answers, whatever
days and assets are asked for with it, if its restatements came in order. -/
theorem answers_agree (ht : t.Reached) (hg : t.tables.get? (key c) = some table) (ho : table.InOrder d sid)
    (hr : r.Regular) (hm : t.load r = .ok m) (ha : r.Asks c d p sid)
    (hr' : r'.Regular) (hm' : t.load r' = .ok m') (ha' : r'.Asks c d p sid) :
    (m.value? r c d p sid).isSome = true ∧ m.value? r c d p sid = m'.value? r' c d p sid := by
  rw [asKnown_of_load ht.sound hg hr hm ha ho, asKnown_of_load ht.sound hg hr' hm' ha' ho]
  exact ⟨rfl, rfl⟩

/-! A number that is restated on the second and on the third day. -/

/-- A column of whole numbers. -/
def rate : Column := ⟨"Rates", "rate", .int64, .int 0, .generic⟩

/-- The number of an asset for the third day, known from a day on. -/
def rateKnown (value : Int64) (known : Date) : Restatement := ⟨⟨1⟩, .overwrite (.int value), ⟨2⟩, ⟨2⟩, known⟩

/-- The numbers of three days, and some restatements. -/
def rates (restatements : List Restatement) : Tables :=
  ⟨[⟨0⟩, ⟨1⟩, ⟨2⟩], [⟨1⟩], [("Rates.rate", ⟨.full (.int 1) (3, 1), restatements⟩)]⟩

theorem table_rates {restatements : List Restatement} {name : String} {table : Table}
    (h : (rates restatements).tables.get? name = some table) : table = ⟨.full (.int 1) (3, 1), restatements⟩ := by
  rw [rates, Named.get?_cons] at h
  split at h
  · exact (Option.some.inj h).symm
  · cases h

theorem reached_rates_nil : (rates []).Reached :=
  .addColumn (t := ofAxes [⟨0⟩, ⟨1⟩, ⟨2⟩] [⟨1⟩]) (c := rate) (.ofAxes _ _) (Block.valid_full (.int 1) (3, 1)) rfl

theorem Reached.restate_rates {xs : List Restatement} (h : (rates xs).Reached) (value : Int64)
    (start stop known : Date) : (rates (xs ++ [⟨⟨1⟩, .overwrite (.int value), start, stop, known⟩])).Reached :=
  .restate (c := rate) (x := ⟨⟨1⟩, .overwrite (.int value), start, stop, known⟩) h rfl

theorem reached_rates (a b : Int64) (k l : Date) : (rates [rateKnown a k, rateKnown b l]).Reached :=
  (reached_rates_nil.restate_rates a ⟨2⟩ ⟨2⟩ k).restate_rates b ⟨2⟩ ⟨2⟩ l

/-- A request for the number on some days. -/
def rateOn (dates : List Date) : Request := .unmasked [rate] dates [⟨1⟩]

theorem rateOn_regular {dates : List Date} (h : dates.Pairwise (· < ·)) : (rateOn dates).Regular :=
  ⟨List.cons_ne_nil _ _, h, List.nodup_singleton _, List.pairwise_singleton _ _⟩

theorem rateOn_asks {dates : List Date} (h : ⟨2⟩ ∈ dates) : (rateOn dates).Asks rate ⟨2⟩ ⟨2⟩ ⟨1⟩ :=
  ⟨List.mem_singleton.2 rfl, h, h, Int.le_refl _, List.mem_singleton.2 rfl⟩

/-- The number for the third day, in an answer to a request on some days. -/
def thirdRate? (t : Tables) (dates : List Date) : Option Scalar :=
  (t.load (rateOn dates)).toOption.bind (·.value? (rateOn dates) rate ⟨2⟩ ⟨2⟩ ⟨1⟩)

theorem load_of_thirdRate? {dates : List Date} {v : Scalar} (h : t.thirdRate? dates = some v) :
    ∃ m, t.load (rateOn dates) = .ok m ∧ m.value? (rateOn dates) rate ⟨2⟩ ⟨2⟩ ⟨1⟩ = some v := by
  unfold thirdRate? at h
  cases hm : t.load (rateOn dates) with
  | error e =>
    rw [hm] at h
    cases h
  | ok m =>
    rw [hm] at h
    exact ⟨m, rfl, h⟩

/-- Restated first on the second day and then on the third, the number is the same in a
request for three days and in one for the third day. -/
theorem answers_agree_rates : ∃ m m', (rates [rateKnown 5 ⟨1⟩, rateKnown 6 ⟨2⟩]).load (rateOn [⟨0⟩, ⟨1⟩, ⟨2⟩]) = .ok m ∧
    (rates [rateKnown 5 ⟨1⟩, rateKnown 6 ⟨2⟩]).load (rateOn [⟨2⟩]) = .ok m' ∧
    m.value? (rateOn [⟨0⟩, ⟨1⟩, ⟨2⟩]) rate ⟨2⟩ ⟨2⟩ ⟨1⟩ = some (.int 6) ∧
    m.value? (rateOn [⟨0⟩, ⟨1⟩, ⟨2⟩]) rate ⟨2⟩ ⟨2⟩ ⟨1⟩ = m'.value? (rateOn [⟨2⟩]) rate ⟨2⟩ ⟨2⟩ ⟨1⟩ := by
  have hlong : (rates [rateKnown 5 ⟨1⟩, rateKnown 6 ⟨2⟩]).thirdRate? [⟨0⟩, ⟨1⟩, ⟨2⟩] = some (.int 6) := by cbv
  have hshort : (rates [rateKnown 5 ⟨1⟩, rateKnown 6 ⟨2⟩]).thirdRate? [⟨2⟩] = some (.int 6) := by cbv
  obtain ⟨m, hm, hv⟩ := load_of_thirdRate? hlong
  obtain ⟨m', hm', -⟩ := load_of_thirdRate? hshort
  have hget : (rates [rateKnown 5 ⟨1⟩, rateKnown 6 ⟨2⟩]).tables.get? (key rate) =
      some ⟨.full (.int 1) (3, 1), [rateKnown 5 ⟨1⟩, rateKnown 6 ⟨2⟩]⟩ := rfl
  exact ⟨m, m', hm, hm', hv, (answers_agree (reached_rates 5 6 ⟨1⟩ ⟨2⟩) hget (by unfold Table.InOrder; decide)
    (rateOn_regular (by decide)) hm (rateOn_asks (by decide)) (rateOn_regular (by decide)) hm'
    (rateOn_asks (by decide))).2⟩

/-- In the other order it is not. -/
theorem answers_differ : ∃ m m', (rates [rateKnown 6 ⟨2⟩, rateKnown 5 ⟨1⟩]).Reached ∧
    (rates [rateKnown 6 ⟨2⟩, rateKnown 5 ⟨1⟩]).load (rateOn [⟨0⟩, ⟨1⟩, ⟨2⟩]) = .ok m ∧
    (rates [rateKnown 6 ⟨2⟩, rateKnown 5 ⟨1⟩]).load (rateOn [⟨2⟩]) = .ok m' ∧
    m.value? (rateOn [⟨0⟩, ⟨1⟩, ⟨2⟩]) rate ⟨2⟩ ⟨2⟩ ⟨1⟩ = some (.int 6) ∧
    m'.value? (rateOn [⟨2⟩]) rate ⟨2⟩ ⟨2⟩ ⟨1⟩ = some (.int 5) := by
  have hlong : (rates [rateKnown 6 ⟨2⟩, rateKnown 5 ⟨1⟩]).thirdRate? [⟨0⟩, ⟨1⟩, ⟨2⟩] = some (.int 6) := by cbv
  have hshort : (rates [rateKnown 6 ⟨2⟩, rateKnown 5 ⟨1⟩]).thirdRate? [⟨2⟩] = some (.int 5) := by cbv
  obtain ⟨m, hm, hv⟩ := load_of_thirdRate? hlong
  obtain ⟨m', hm', hv'⟩ := load_of_thirdRate? hshort
  exact ⟨m, m', reached_rates .., hm, hm', hv, hv'⟩

end Tables
end AsOf
