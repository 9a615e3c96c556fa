import AsOf.Loader.Basic
import AsOf.Proofs.Graph.Same
import AsOf.Proofs.History
import Mathlib.Data.List.Pairwise

/-!
# What loaders keep of their columns

A `Ledger` is all there is to know of a column: for every day and every later day, the
value of each asset for the first as known on the second. A history records a ledger
when it has its cells, and a loader keeps ledgers when its answers record them.

* `Loaders.Keep`: every regular request is answered.
* `Records.allMissing`: what stands for a column without data records a ledger too.
* `Loaded.get?_insert`, `Loaded.get?_erase`: histories are found by column.
-/
namespace AsOf

/-- What there is to know of a column. -/
structure Ledger where
  dtype : Dtype
  missing : Scalar
  known : (date asOf : Date) → Sid → Scalar

namespace Ledger

/-- The ledger of a column without data. -/
def blank (c : Column) : Ledger := ⟨c.missing.dtype, c.missing, fun _ _ _ => c.missing⟩

/-- The ledger has the type and the missing value of the column. -/
def Suits (k : Ledger) (c : Column) : Prop := k.dtype = c.dtype ∧ (k.missing == c.missing) = true

end Ledger

/-- The history tells what a ledger says of some days and assets. -/
structure History.Tells (h : History) (dates : List Date) (sids : List Sid) (k : Ledger) : Prop where
  valid : h.Valid
  dtype : h.dtype = k.dtype
  missing : h.missing = k.missing
  shape : h.shape = (dates.length, sids.length)
  cell : ∀ (i q j : Nat) (d p : Date) (sid : Sid), i ≤ q → dates[i]? = some d →
    dates[q]? = some p → sids[j]? = some sid → h.cell? i q j = some (k.known d p sid)

/-- It does so without two codes for one label. -/
structure History.Records (h : History) (dates : List Date) (sids : List Sid) (k : Ledger) : Prop
    extends h.Tells dates sids k where
  distinct : h.block.Distinct

theorem History.Records.allMissing (c : Column) (dates : List Date) (sids : List Sid) :
    (History.allMissing c.missing (dates.length, sids.length)).Records dates sids (.blank c) where
  valid := Block.valid_full ..
  distinct := Block.distinct_full ..
  dtype := Block.dtype_full ..
  missing := rfl
  shape := Block.shape_full ..
  cell i q j d p sid _ hi _ hj := by
    rw [History.cell?, History.knownBefore_of_isEmpty rfl, ← Block.get?_cells]
    show (Block.full c.missing _).cells.get? i j = _
    rw [Block.cells_full, Grid.get?_replicate,
      if_pos ⟨(List.getElem?_eq_some_iff.1 hi).1, (List.getElem?_eq_some_iff.1 hj).1⟩]
    rfl

/-- A request for some columns on ascending days, and for no asset and no column twice. -/
structure Request.Regular (r : Request) : Prop where
  nonempty : r.columns ≠ []
  dates : r.dates.Pairwise (· < ·)
  sids : r.sids.Nodup
  columns : r.columns.Pairwise fun a b => (a == b) = false

/-- No column has two histories. -/
def Loaded.Apart (m : Loaded) : Prop := m.Pairwise fun x y => (x.1 == y.1) = false

/-- A request is filled with one history for each requested column, if all of them have
data. -/
structure Loader.Fills (l : Loader) (ledger? : Column → Option Ledger) (r : Request) : Prop where
  ok : (∀ c ∈ r.columns, (ledger? c).isSome = true) → ∃ m, l.load r = .ok m ∧
    m.Apart ∧ (∀ x ∈ m, ∃ c ∈ r.columns, (x.1 == c) = true) ∧
    ∀ c ∈ r.columns, ∀ k, ledger? c = some k → ∃ h, m.get? c = some h ∧ h.Records r.dates r.sids k
  noData : (∃ c ∈ r.columns, ledger? c = none) → ∃ name, l.load r = .error (.noData name)

/-- A request is filled, or refused where loaders may do so. -/
def Loader.Answers (l : Loader) (ledger? : Column → Option Ledger) (mayRefuse : Prop) (r : Request) : Prop :=
  l.Fills ledger? r ∨ mayRefuse ∧ ∃ e, l.load r = .error e ∧ ∀ name, e ≠ .noData name

/-! ## Ledgers that say the same -/

/-- Two ledgers say the same of some days. -/
structure Ledger.AgreeOn (dates : List Date) (k k' : Ledger) : Prop where
  dtype : k.dtype = k'.dtype
  missing : k.missing = k'.missing
  known : ∀ d ∈ dates, ∀ p ∈ dates, ∀ sid, k.known d p sid = k'.known d p sid

theorem Ledger.AgreeOn.refl (dates : List Date) (k : Ledger) : k.AgreeOn dates k :=
  ⟨rfl, rfl, fun _ _ _ _ _ => rfl⟩

theorem History.Records.of_agreeOn {h : History} {dates : List Date} {sids : List Sid} {k k' : Ledger}
    (hr : h.Records dates sids k) (hk : k.AgreeOn dates k') : h.Records dates sids k' where
  valid := hr.valid
  dtype := hr.dtype.trans hk.dtype
  missing := hr.missing.trans hk.missing
  shape := hr.shape
  distinct := hr.distinct
  cell i q j d p sid hiq hi hq hj := by
    rw [hr.cell i q j d p sid hiq hi hq hj,
      hk.known d (List.mem_of_getElem? hi) p (List.mem_of_getElem? hq) sid]

/-- What answers a request by a ledger answers it by one that says the same of its days. -/
theorem Loader.Answers.of_agreeOn {l l' : Loader} {ledger? ledger?' : Column → Option Ledger}
    {mayRefuse mayRefuse' : Prop} {r : Request} (h : l.Answers ledger? mayRefuse r) (hload : l.load = l'.load)
    (hk : ∀ c ∈ r.columns, Option.Rel (Ledger.AgreeOn r.dates) (ledger? c) (ledger?' c))
    (hm : mayRefuse → mayRefuse') : l'.Answers ledger?' mayRefuse' r := by
  have hnone (c : Column) (hc : c ∈ r.columns) : ledger? c = none ↔ ledger?' c = none := by
    have hrel := hk c hc
    generalize ledger? c = k at *
    generalize ledger?' c = k' at *
    cases hrel with
    | some => exact iff_of_false (Option.some_ne_none _) (Option.some_ne_none _)
    | none => exact Iff.rfl
  have hrecords {c : Column} (hc : c ∈ r.columns) {k' : Ledger} (hk' : ledger?' c = some k') :
      ∃ k, ledger? c = some k ∧ k.AgreeOn r.dates k' := by
    have hrel := hk c hc
    rw [hk'] at hrel
    generalize ledger? c = k at *
    cases hrel with
    | some hagree => exact ⟨_, rfl, hagree⟩
  unfold Loader.Answers at h ⊢
  rw [← hload]
  refine h.imp (fun hfills => ⟨fun hall => ?_, fun hno => ?_⟩) (And.imp_left hm)
  · rw [← hload]
    obtain ⟨m, hok, happart, hkeys, hget⟩ := hfills.ok fun c hc => by
      rw [Option.isSome_iff_ne_none, Ne, hnone c hc, ← Ne, ← Option.isSome_iff_ne_none]
      exact hall c hc
    refine ⟨m, hok, happart, hkeys, fun c hc k' hk' => ?_⟩
    obtain ⟨k, hk, hagree⟩ := hrecords hc hk'
    obtain ⟨h, hh, hrec⟩ := hget c hc k hk
    exact ⟨h, hh, hrec.of_agreeOn hagree⟩
  · rw [← hload]
    obtain ⟨c, hc, hc'⟩ := hno
    exact hfills.noData ⟨c, hc, (hnone c hc).2 hc'⟩

/-- The loaders keep ledgers of the columns that are asked for. What a ledger says may depend
on the days that are asked for together. -/
def Loaders.Keep (ls : Loaders) (asks : Column → Prop) (ledger? : List Date → Column → Option Ledger)
    (mayRefuse : Prop) : Prop :=
  ∀ place l r, r.Regular → (∀ c ∈ r.columns, asks c ∧ ls.serving? c = some (place, l)) →
    l.Answers (ledger? r.dates) mayRefuse r

/-! ## Histories by column -/

namespace Column

theorem beq_comm (a b : Column) : (a == b) = (b == a) := same_comm a b

/-- Distinct columns that are found equal are one. -/
theorem eq_of_beq {columns : List Column} (h : columns.Pairwise fun a b => (a == b) = false)
    {a b : Column} (ha : a ∈ columns) (hb : b ∈ columns) (hab : (a == b) = true) : a = b := by
  refine Classical.byContradiction fun hne => ?_
  have : Std.Symm fun a b : Column => (a == b) = false := ⟨fun a b h => (beq_comm b a).trans h⟩
  have := h.forall ha hb hne
  rw [hab] at this
  cases this

theorem beq_congr {a b : Column} (h : (a == b) = true) (c : Column) : (a == c) = (b == c) := by
  have e : a.key = b.key := same_iff.1 h
  show (a.key == c.key) = (b.key == c.key)
  rw [e]

end Column

namespace Loaded

theorem get?_cons (c : Column) (h : History) (m : Loaded) (column : Column) :
    get? ((c, h) :: m) column = if (column == c) = true then some h else m.get? column := by
  rw [get?, List.lookup_cons]
  cases column == c <;> rfl

theorem get?_insert (c : Column) (h : History) (m : Loaded) (column : Column) :
    (m.insert c h).get? column = if (column == c) = true then some h else m.get? column := by
  induction m with
  | nil => exact get?_cons ..
  | cons x m ih =>
    obtain ⟨c', old⟩ := x
    rw [insert]
    split
    · rename_i hc
      rw [get?_cons, get?_cons, Column.beq_comm column c', Column.beq_comm column c,
        Column.beq_congr hc column]
      split <;> rfl
    · split
      · exact get?_cons ..
      · rename_i hc _
        rw [get?_cons, get?_cons, ih]
        by_cases hcc : (column == c) = true
        · rw [if_pos hcc, if_pos hcc, if_neg]
          rw [Column.beq_congr hcc]
          exact hc
        · rw [if_neg hcc, if_neg hcc]

theorem mem_insert {c : Column} {h : History} {m : Loaded} {x : Column × History} (hx : x ∈ m.insert c h) :
    (x.1 == c) = true ∨ x ∈ m := by
  induction m with
  | nil => exact .inl (by rw [List.mem_singleton.1 hx]; exact beq_self_eq_true c)
  | cons y m ih =>
    obtain ⟨c', old⟩ := y
    rw [insert] at hx
    split at hx
    · rename_i hc
      rcases List.mem_cons.1 hx with rfl | hx
      · exact .inl ((Column.beq_comm ..).trans hc)
      · exact .inr (List.mem_cons_of_mem _ hx)
    · split at hx
      · exact (List.mem_cons.1 hx).imp_left fun h => by rw [h]; exact beq_self_eq_true c
      · rcases List.mem_cons.1 hx with rfl | hx
        · exact .inr List.mem_cons_self
        · exact (ih hx).imp_right (List.mem_cons_of_mem _)

theorem get?_erase (m : Loaded) (c column : Column) :
    (m.erase c).get? column = if (column == c) = true then none else m.get? column := by
  induction m with
  | nil => exact (ite_self none).symm
  | cons x m ih =>
    obtain ⟨c', h⟩ := x
    rw [erase, List.filter_cons]
    by_cases hc : (c' == c) = true
    · rw [if_neg (by simp [bne, hc]), get?_cons, Column.beq_comm column c', Column.beq_congr hc,
        Column.beq_comm c column]
      rw [show (m.filter (·.1 != c)) = erase m c from rfl, ih]
      split <;> rfl
    · rw [if_pos (by simp [bne, hc]), get?_cons, get?_cons,
        show (m.filter (·.1 != c)) = erase m c from rfl, ih]
      by_cases hcc : (column == c) = true
      · rw [if_pos hcc, if_pos hcc, if_neg]
        rw [Column.beq_congr hcc, Column.beq_comm]
        exact hc
      · rw [if_neg hcc, if_neg hcc]

/-! ### Answers on top of answers -/

variable {a b : Loaded}

theorem get?_eq_none {m : Loaded} {column : Column} (h : ∀ x ∈ m, (column == x.1) = false) :
    m.get? column = none := by
  induction m with
  | nil => rfl
  | cons x m ih =>
    rw [get?_cons, h x List.mem_cons_self, if_neg Bool.false_ne_true]
    exact ih fun y hy => h y (List.mem_cons_of_mem _ hy)

theorem Apart.get?_of_mem {m : Loaded} (hm : m.Apart) {c : Column} {h : History} (hx : (c, h) ∈ m) :
    m.get? c = some h := by
  induction m with
  | nil => cases hx
  | cons y m ih =>
    obtain ⟨c', h'⟩ := y
    obtain ⟨hy, hm⟩ := List.pairwise_cons.1 hm
    rw [get?_cons]
    rcases List.mem_cons.1 hx with he | hx
    · cases he
      exact if_pos (beq_self_eq_true c)
    · rw [Column.beq_comm, hy _ hx, if_neg Bool.false_ne_true]
      exact ih hm hx

theorem Apart.insert {m : Loaded} (hm : m.Apart) {c : Column} (hc : ∀ x ∈ m, (c == x.1) = false) (h : History) :
    (m.insert c h).Apart := by
  induction m with
  | nil => exact List.pairwise_singleton _ _
  | cons y m ih =>
    obtain ⟨c', old⟩ := y
    obtain ⟨hy, hm'⟩ := List.pairwise_cons.1 hm
    have hne := hc (c', old) List.mem_cons_self
    rw [Loaded.insert, hne, if_neg Bool.false_ne_true]
    split
    · exact List.pairwise_cons.2 ⟨hc, hm⟩
    · refine List.pairwise_cons.2 ⟨fun x hx => ?_, ih hm' fun x hx => hc x (List.mem_cons_of_mem _ hx)⟩
      rcases mem_insert hx with hx | hx
      · show (c' == x.1) = false
        rw [Column.beq_comm, Column.beq_congr hx]
        exact hne
      · exact hy x hx

/-- Of answers on top of answers the newer ones are found. -/
theorem get?_extend (a : Loaded) (hb : b.Apart) (column : Column) :
    (a.extend b).get? column = (b.get? column).or (a.get? column) := by
  induction b generalizing a with
  | nil => rfl
  | cons x b ih =>
    obtain ⟨c, h⟩ := x
    obtain ⟨hx, hb⟩ := List.pairwise_cons.1 hb
    rw [show a.extend ((c, h) :: b) = (a.insert c h).extend b from rfl, ih _ hb, get?_insert, get?_cons]
    by_cases hc : (column == c) = true
    · rw [if_pos hc, if_pos hc, get?_eq_none fun y hy => (Column.beq_congr hc _).trans (hx y hy)]
      rfl
    · rw [if_neg hc, if_neg hc]

theorem mem_extend {x : Column × History} (hx : x ∈ a.extend b) : (∃ y ∈ b, (x.1 == y.1) = true) ∨ x ∈ a := by
  induction b generalizing a with
  | nil => exact .inr hx
  | cons y b ih =>
    rcases ih (a := a.insert y.1 y.2) hx with ⟨z, hz, he⟩ | hx
    · exact .inl ⟨z, List.mem_cons_of_mem _ hz, he⟩
    · exact (mem_insert hx).imp_left fun h => ⟨y, List.mem_cons_self, h⟩

theorem Apart.extend (ha : a.Apart) (hb : b.Apart) (h : ∀ x ∈ b, ∀ y ∈ a, (x.1 == y.1) = false) :
    (a.extend b).Apart := by
  induction b generalizing a with
  | nil => exact ha
  | cons x b ih =>
    obtain ⟨hx, hb⟩ := List.pairwise_cons.1 hb
    refine ih (a := a.insert x.1 x.2) (ha.insert (h x List.mem_cons_self) x.2) hb fun z hz y hy => ?_
    rcases mem_insert hy with hy | hy
    · rw [Column.beq_comm, Column.beq_congr hy]
      exact hx z hz
    · exact h z (List.mem_cons_of_mem _ hz) y hy

/-- An answer for one column on top of other answers. -/
theorem get?_extend_single (a : Loaded) {c : Column} {h : History} (hb : b.Apart)
    (hc : ∀ x ∈ b, (x.1 == c) = true) (hget : b.get? c = some h) (column : Column) :
    (a.extend b).get? column = if (column == c) = true then some h else a.get? column := by
  rw [get?_extend a hb]
  split
  · rename_i hcolumn
    rw [show b.get? column = b.get? c from ?_, hget]
    · rfl
    · clear hb hget
      induction b with
      | nil => rfl
      | cons x b ih =>
        obtain ⟨c', h'⟩ := x
        rw [get?_cons, get?_cons, Column.beq_congr hcolumn, ih fun x hx => hc x (List.mem_cons_of_mem _ hx)]
  · rename_i hcolumn
    rw [get?_eq_none fun x hx => ?_]
    · rfl
    · rw [Column.beq_comm, Column.beq_congr (hc x hx), Column.beq_comm]
      exact Bool.eq_false_iff.2 hcolumn

end Loaded
end AsOf
