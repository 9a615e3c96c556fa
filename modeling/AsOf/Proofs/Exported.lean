import AsOf.Proofs.Chunks
import AsOf.Proofs.Days
import AsOf.Proofs.Records

/-!
# What exported records tell

Every row of a result of a run has a date, an asset and a value in every column. Its record has
them too, save that a column named `date` or `sid` takes the place of the date or the asset. So
results that are exported as one text are alike in all that no column has replaced, up to which
float it is that is not finite.

* `Result.Full`, `Engine.ends_runChunked`: what the results of runs have in common.
* `Result.getElem?_toRecords`, `Result.get?_ofRow`: the record of a row.
* `Exported.alike_of_ofScalar`: which values are exported alike.
* `Pipeline.records_tell`: what records tell, and what a text tells.
* `Engine.date_replaced`: a date that a column has replaced.
-/
namespace AsOf

/-! ## Full results -/

namespace Result

/-- Every row has an asset and a value in every column, and the columns are in order. -/
structure Full (r : Result) : Prop where
  sids : r.sids.size = r.length
  columns : ∀ x ∈ r.columns, x.2.length = r.length
  ordered : r.columns.Ordered

variable {r a b c : Result}

theorem full_mk? {dates : List Date} {sids : List Sid} {columns : Named Values} (ho : columns.Ordered)
    (h : Result.mk? dates sids columns = .ok r) : r.Full := by
  obtain ⟨hsids, hlengths, rfl⟩ := mk?_eq_ok.1 h
  exact ⟨hsids, hlengths, ho⟩

theorem full_empty (columns : List (String × Dtype)) : (empty columns).Full where
  sids := rfl
  columns x hx := by
    obtain ⟨⟨name, dtype⟩, -, rfl⟩ := List.mem_map.1 (Named.mem_ofList hx)
    show (Values.empty dtype).length = 0
    cases dtype <;> rfl
  ordered := Named.ordered_ofList _

theorem length_append {u v w : Values} (h : u.append v = .ok w) : w.length = u.length + v.length := by
  rw [← Values.length_toScalars, Values.toScalars_append h, List.length_append, Values.length_toScalars,
    Values.length_toScalars]

theorem appendColumns_full {xs ys zs : Named Values} {m n : Nat} (hx : ∀ x ∈ xs, x.2.length = m)
    (hy : ∀ y ∈ ys, y.2.length = n) (hn : xs.names = ys.names) (h : appendColumns xs ys = .ok zs) :
    (∀ z ∈ zs, z.2.length = m + n) ∧ zs.names = xs.names := by
  induction xs generalizing ys zs with
  | nil =>
    obtain rfl := Except.ok.inj h
    exact ⟨fun z hz => absurd hz List.not_mem_nil, rfl⟩
  | cons x xs ih =>
    cases ys with
    | nil => cases hn
    | cons y ys =>
      obtain ⟨v, hv, h⟩ := Checked.bind_eq_ok.1 h
      obtain ⟨rest, hrest, h⟩ := Checked.bind_eq_ok.1 h
      obtain rfl := Except.ok.inj h
      obtain ⟨hlengths, hnames⟩ := ih (fun x h => hx x (List.mem_cons_of_mem _ h))
        (fun y h => hy y (List.mem_cons_of_mem _ h)) (List.cons.inj hn).2 hrest
      refine ⟨List.forall_mem_cons.2 ⟨?_, hlengths⟩, congrArg (x.1 :: ·) hnames⟩
      rw [length_append hv, hx x List.mem_cons_self, hy y List.mem_cons_self]

theorem Full.append (ha : a.Full) (hb : b.Full) (h : a.append b = .ok c) : c.Full := by
  unfold Result.append at h
  by_cases hn : a.names ≠ b.names
  · rw [if_pos hn] at h
    cases h
  rw [if_neg hn] at h
  obtain ⟨columns, hcolumns, h⟩ := Checked.bind_eq_ok.1 h
  obtain rfl := Except.ok.inj h
  obtain ⟨hlengths, hnames⟩ := appendColumns_full ha.columns hb.columns (not_not.1 hn) hcolumns
  have hlength : (a.dates ++ b.dates).size = a.length + b.length := Array.size_append
  refine ⟨?_, fun x hx => (hlengths x hx).trans hlength.symm, ha.ordered.of_names hnames⟩
  show (a.sids ++ b.sids).size = (a.dates ++ b.dates).size
  rw [Array.size_append, ha.sids, hb.sids, hlength]

theorem full_concat {parts : List Result} (hp : ∀ part ∈ parts, part.Full) (h : Result.concat parts = .ok r) :
    r.Full := by
  cases parts with
  | nil =>
    obtain rfl := Except.ok.inj h
    exact full_empty []
  | cons first rest =>
    exact Checked.foldlM_keeps (hp first List.mem_cons_self)
      (fun part hmem a b ha hab => ha.append (hp part (List.mem_cons_of_mem _ hmem)) hab) h

end Result

/-! ## Runs -/

namespace Run

variable {α : Type}

/-- Whatever ends well ends with something good. -/
theorem ends_lift_of_ok {A : α → Prop} {x : Except RunError α} (h : ∀ a, x = .ok a → A a) :
    Ends A (fun _ => True) (liftM x : Run α) := by
  refine ends_lift ?_
  cases x with
  | error e => trivial
  | ok a => exact h a rfl

theorem ends_true (x : Run α) : Ends (fun _ => True) (fun _ => True) x := fun _ => Checked.ends_true _

end Run

theorem Plan.full_of_assemble {p : Plan} {c : Chunk} {ws : Workspace} {r : Result} (ho : p.graph.outputs.Ordered)
    (h : p.assemble c ws = .ok r) : r.Full := by
  rw [assemble_eq] at h
  obtain ⟨keep, -, h⟩ := Checked.bind_eq_ok.1 h
  obtain ⟨columns, hcolumns, h⟩ := Checked.bind_eq_ok.1 h
  have hnames : Named.names columns = p.graph.outputs.names := by
    refine Checked.map_eq_map (Checked.mapM_eq_ok.1 hcolumns).flip fun x output hx => ?_
    obtain ⟨block, -, hx⟩ := Checked.bind_eq_ok.1 hx
    exact congrArg Prod.fst (Except.ok.inj hx).symm
  exact Result.full_mk? (ho.of_names hnames) (Checked.mapError_eq_ok.1 h)

namespace Engine

open Run

variable {e : Engine} {pipeline : Pipeline}

theorem ends_runChunk {p : Plan} (ho : p.graph.outputs.Ordered) (c : Chunk) :
    Ends Result.Full (fun _ => True) (e.runChunk p c) := by
  unfold runChunk
  refine (ends_true _).bind fun ws _ => (ends_true _).bind fun ws _ => (ends_true _).bind fun ws _ => ?_
  exact ends_lift_of_ok fun r hr => Plan.full_of_assemble ho hr

theorem ends_runChunks {p : Plan} (ho : p.graph.outputs.Ordered) (domain : Domain) (sessions : Array Date)
    (sids : List Sid) (cancelled : Cancellation) (ranges : List (Nat × Nat)) :
    Ends (fun parts => ∀ part ∈ parts, part.Full) (fun _ => True)
      (e.runChunks p domain sessions sids cancelled ranges) := by
  show Ends _ _ (ranges.foldlM (e.stepChunk p domain sessions sids cancelled) [])
  refine ends_foldlM (fun x _ parts hparts calls => ?_) fun part hp => absurd hp List.not_mem_nil
  rw [run_stepChunk]
  split
  · trivial
  · refine ((ends_runChunk ho _).bind fun part hpart => ends_pure ?_) calls
    exact List.forall_mem_append.2 ⟨hparts, List.forall_mem_singleton.2 hpart⟩

/-- Runs end with full results. -/
theorem ends_runChunked (hp : pipeline.columns.Ordered) (start stop : Date) (size : Nat) (cancelled : Cancellation) :
    Ends Result.Full (fun _ => True) (e.runChunked pipeline start stop size cancelled) := by
  by_cases hs : size = 0
  · unfold runChunked
    rw [if_pos hs]
    exact fun _ => trivial
  rw [runChunked_eq e pipeline start stop hs]
  refine (ends_lift_of_ok (A := fun job => pipeline.graph = .ok job.graph) fun job hj =>
    (prepare_eq_ok.1 hj).2.2.2.1).bind fun job hg => ?_
  have ho : job.graph.outputs.Ordered := hp.of_names (names_outputs hg)
  unfold work
  cases sessionRange? job.calendar start stop with
  | none => exact ends_pure (Result.full_empty _)
  | some range =>
    refine (ends_lift_of_ok (A := fun p => p.graph = job.graph) fun p hplan =>
      (Plan.sound_of (Pipeline.graph_eq_ok hg) (Checked.mapError_eq_ok.1 hplan)).1).bind fun p hgraph => ?_
    refine Ends.bind (ends_runChunks (hgraph ▸ ho) _ _ _ _ _) fun parts hparts => ?_
    exact ends_lift_of_ok fun r hr => Result.full_concat hparts (Checked.mapError_eq_ok.1 hr)

end Engine

/-! ## Values -/

namespace Scalar

/-- Floats that are not finite, times that are none and missing labels. -/
def Blank : Scalar → Prop
  | float x => x.isFinite = false
  | time t => t = notATime
  | label l => l = none
  | _ => False

/-- The same, or floats neither of which is finite. -/
inductive Alike : Scalar → Scalar → Prop
  | refl (v : Scalar) : Alike v v
  | infinite {x y : Float} (hx : x.isFinite = false) (hy : y.isFinite = false) : Alike (float x) (float y)

end Scalar

namespace Exported

variable {v w : Scalar}

theorem ofScalar_eq_null : ofScalar v = .null ↔ v.Blank := by
  cases v with
  | float x =>
    rw [ofScalar, Scalar.Blank]
    by_cases hx : x.isFinite = true
    · rw [if_pos hx, hx]
      exact iff_of_false (fun h => by cases h) (fun h => by cases h)
    · rw [if_neg hx]
      exact iff_of_true rfl (Bool.eq_false_of_not_eq_true hx)
  | int => exact iff_of_false (fun h => by cases h) id
  | bool => exact iff_of_false (fun h => by cases h) id
  | time t =>
    rw [ofScalar, Scalar.Blank]
    by_cases ht : t = notATime
    · rw [if_pos ht]
      exact iff_of_true rfl ht
    · rw [if_neg ht]
      exact iff_of_false (fun h => by cases h) ht
  | label l =>
    cases l with
    | none => exact iff_of_true rfl rfl
    | some l => exact iff_of_false (fun h => by cases h) (fun h => by cases h)

/-- Values of one type that are exported alike are alike. -/
theorem alike_of_ofScalar (hd : v.dtype = w.dtype) (h : ofScalar v = ofScalar w) : v.Alike w := by
  have hblank : v.Blank ↔ w.Blank := by rw [← ofScalar_eq_null, ← ofScalar_eq_null, h]
  cases v <;> cases w <;> cases hd
  case float.float x y =>
    by_cases hx : x.isFinite = false
    · exact .infinite hx (hblank.1 hx)
    · have hy : ¬y.isFinite = false := fun hy => hx (hblank.2 hy)
      rw [ofScalar, ofScalar, if_pos (Bool.eq_true_of_not_eq_false hx), if_pos (Bool.eq_true_of_not_eq_false hy)] at h
      obtain rfl := Exported.number.inj h
      exact .refl _
  case int.int n m =>
    obtain rfl := Int64.toInt_inj.1 (Exported.int.inj h)
    exact .refl _
  case bool.bool b c =>
    obtain rfl := Exported.bool.inj h
    exact .refl _
  case time.time t u =>
    by_cases ht : t = notATime
    · obtain rfl : t = u := ht.trans (Eq.symm (hblank.1 ht))
      exact .refl _
    · have hu : ¬u = notATime := fun hu => ht (hblank.2 hu)
      rw [ofScalar, ofScalar, if_neg ht, if_neg hu] at h
      obtain rfl := Int64.toInt_inj.1 (Exported.int.inj h)
      exact .refl _
  case label.label l k =>
    cases l <;> cases k <;> cases h <;> exact .refl _

end Exported

/-! ## Records of rows -/

/-- The record of a row. -/
def Record.ofRow (d : Date) (s : Sid) (values : Named Scalar) : Record :=
  .ofList ([("date", .text d.text), ("sid", .int s.toNat)] ++ values.map fun x => (x.1, .ofScalar x.2))

namespace Result

variable {r r' : Result}

theorem toRecords_eq (r : Result) : r.toRecords = r.rows.map fun row => .ofRow row.1 row.2.1 row.2.2 := rfl

theorem length_toRecords (hr : r.Full) : r.toRecords.length = r.length := by
  rw [toRecords_eq, rows, List.length_map, List.length_map, List.length_zipIdx, List.length_zip, Array.length_toList,
    Array.length_toList, hr.sids]
  exact Nat.min_self _

/-- Every row has a date, an asset and a record. -/
theorem getElem?_toRecords (hr : r.Full) {i : Nat} (hi : i < r.length) : ∃ d s, r.dates[i]? = some d ∧
    r.sids[i]? = some s ∧ r.toRecords[i]? = some (.ofRow d s (r.valuesAt i)) := by
  obtain ⟨d, hd⟩ : ∃ d, r.dates[i]? = some d := ⟨_, Array.getElem?_eq_getElem hi⟩
  obtain ⟨s, hs⟩ : ∃ s, r.sids[i]? = some s := ⟨_, Array.getElem?_eq_getElem (hr.sids ▸ hi)⟩
  refine ⟨d, s, hd, hs, ?_⟩
  rw [toRecords_eq, rows, List.getElem?_map, List.getElem?_map, List.getElem?_zipIdx,
    show (r.dates.toList.zip r.sids.toList)[i]? = _ from getElem?_keys.2 ⟨hd, hs⟩, Nat.zero_add]
  rfl

theorem ordered_valuesAt (hr : r.Full) (i : Nat) : Named.Ordered (r.valuesAt i) := by
  refine List.pairwise_filterMap.2 (hr.ordered.imp fun {x y} hxy a ha b hb => ?_)
  obtain ⟨v, -, rfl⟩ := Option.map_eq_some_iff.1 ha
  obtain ⟨w, -, rfl⟩ := Option.map_eq_some_iff.1 hb
  exact hxy

/-- What stands in a record is the value of a column of that name, or else the date or the asset. -/
theorem get?_ofRow (hr : r.Full) (d : Date) (s : Sid) (i : Nat) (name : String) :
    (Record.ofRow d s (r.valuesAt i)).get? name =
      (Named.get? (List.map (fun x => (x.1, Exported.ofScalar x.2)) (r.valuesAt i)) name).or
        (Named.get? (.ofList [("date", .text d.text), ("sid", .int s.toNat)]) name) := by
  refine Named.get?_ofList_append ((ordered_valuesAt hr i).of_names ?_) _ name
  exact List.map_map

theorem get?_ofRow_of_mem (hr : r.Full) (d : Date) (s : Sid) {i : Nat} (hi : i < r.length) {x : String × Values}
    (hx : x ∈ r.columns) : ∃ v, x.2.get? i = some v ∧ (Record.ofRow d s (r.valuesAt i)).get? x.1 = some (.ofScalar v) := by
  obtain ⟨v, hv⟩ : ∃ v, x.2.get? i = some v := by
    rw [Values.get?_eq]
    exact ⟨_, List.getElem?_eq_getElem (by rw [Values.length_toScalars, hr.columns x hx]; exact hi)⟩
  refine ⟨v, hv, ?_⟩
  have hmem : (x.1, v) ∈ r.valuesAt i := List.mem_filterMap.2 ⟨x, hx, congrArg (Option.map (x.1, ·)) hv⟩
  have ho : Named.Ordered (List.map (fun x => (x.1, Exported.ofScalar x.2)) (r.valuesAt i)) :=
    (ordered_valuesAt hr i).of_names List.map_map
  rw [get?_ofRow hr, ho.get?_of_mem (List.mem_map_of_mem hmem)]
  rfl

theorem get?_ofRow_of_not_mem (hr : r.Full) (d : Date) (s : Sid) (i : Nat) {name : String} (h : name ∉ r.names) :
    (Record.ofRow d s (r.valuesAt i)).get? name =
      Named.get? (.ofList [("date", .text d.text), ("sid", .int s.toNat)]) name := by
  rw [get?_ofRow hr, Named.get?_eq_none, Option.none_or]
  intro x hx hname
  obtain ⟨y, hy, rfl⟩ := List.mem_map.1 hx
  obtain ⟨z, hz, hzy⟩ := List.mem_filterMap.1 hy
  obtain ⟨v, -, rfl⟩ := Option.map_eq_some_iff.1 hzy
  exact h (hname ▸ List.mem_map_of_mem hz)

theorem get?_date (hr : r.Full) (d : Date) (s : Sid) (i : Nat) (h : "date" ∉ r.names) :
    (Record.ofRow d s (r.valuesAt i)).get? "date" = some (.text d.text) := by
  rw [get?_ofRow_of_not_mem hr d s i h]
  rfl

theorem get?_sid (hr : r.Full) (d : Date) (s : Sid) (i : Nat) (h : "sid" ∉ r.names) :
    (Record.ofRow d s (r.valuesAt i)).get? "sid" = some (.int s.toNat) := by
  rw [get?_ofRow_of_not_mem hr d s i h]
  rfl

/-- Names and types of the columns. -/
def schema (r : Result) : List (String × Dtype) := r.columns.map fun x => (x.1, x.2.dtype)

theorem dtype_of_schema (hr' : r'.Full) (h : r.schema = r'.schema) {x x' : String × Values} (hx : x ∈ r.columns)
    (hx' : x' ∈ r'.columns) (hname : x.1 = x'.1) : x.2.dtype = x'.2.dtype := by
  have hmem : (x.1, x.2.dtype) ∈ r'.schema := h ▸ List.mem_map_of_mem hx
  obtain ⟨y, hy, hyx⟩ := List.mem_map.1 hmem
  obtain ⟨hyname, hydtype⟩ := Prod.mk.inj hyx
  have hget := hr'.ordered.get?_of_mem hy
  rw [hyname, hname, hr'.ordered.get?_of_mem hx'] at hget
  rw [← hydtype, Option.some.inj hget]

theorem dtype_of_get? {values : Values} {i : Nat} {v : Scalar} (h : values.get? i = some v) : v.dtype = values.dtype := by
  cases values <;> obtain ⟨_, -, rfl⟩ := Option.map_eq_some_iff.1 h <;> rfl

/-- Of the same records each is that of a row of either result. -/
theorem ofRow_of_toRecords (hr : r.Full) (hr' : r'.Full) (h : r.toRecords = r'.toRecords) {i : Nat} (hi : i < r.length)
    (hi' : i < r'.length) : ∃ d s d' s', r.dates[i]? = some d ∧ r'.dates[i]? = some d' ∧ r.sids[i]? = some s ∧
      r'.sids[i]? = some s' ∧ Record.ofRow d s (r.valuesAt i) = Record.ofRow d' s' (r'.valuesAt i) := by
  obtain ⟨d, s, hd, hs, hrecord⟩ := getElem?_toRecords hr hi
  obtain ⟨d', s', hd', hs', hrecord'⟩ := getElem?_toRecords hr' hi'
  exact ⟨d, s, d', s', hd, hd', hs, hs', Option.some.inj (hrecord.symm.trans (h ▸ hrecord'))⟩

/-- Values of one column are alike if the records of their rows are the same. -/
theorem alike_of_ofRow (hr : r.Full) (hr' : r'.Full) {d d' : Date} {s s' : Sid} {i : Nat} (hi : i < r.length)
    (hi' : i < r'.length) (h : Record.ofRow d s (r.valuesAt i) = Record.ofRow d' s' (r'.valuesAt i))
    {x x' : String × Values} (hx : x ∈ r.columns) (hx' : x' ∈ r'.columns) (hname : x.1 = x'.1)
    (hdtype : x.2.dtype = x'.2.dtype) : ∃ v v', x.2.get? i = some v ∧ x'.2.get? i = some v' ∧ v.Alike v' := by
  obtain ⟨v, hv, hget⟩ := get?_ofRow_of_mem hr d s hi hx
  obtain ⟨v', hv', hget'⟩ := get?_ofRow_of_mem hr' d' s' hi' hx'
  rw [h, hname, hget'] at hget
  refine ⟨v, v', hv, hv', Exported.alike_of_ofScalar ?_ (Option.some.inj hget).symm⟩
  rw [dtype_of_get? hv, dtype_of_get? hv', hdtype]

/-- Results of the same records are alike in what no column replaces. -/
theorem alike_of_toRecords (hr : r.Full) (hr' : r'.Full) (hs : r.schema = r'.schema) (h : r.toRecords = r'.toRecords) :
    r.length = r'.length ∧ ("date" ∉ r.names → r.dates = r'.dates) ∧ ("sid" ∉ r.names → r.sids = r'.sids) ∧
      ∀ x ∈ r.columns, ∀ x' ∈ r'.columns, x.1 = x'.1 → List.Forall₂ Scalar.Alike x.2.toScalars x'.2.toScalars := by
  have hlength : r.length = r'.length := by rw [← length_toRecords hr, h, length_toRecords hr']
  have hnames : r.names = r'.names := by
    have := congrArg (List.map Prod.fst) hs
    rwa [schema, schema, List.map_map, List.map_map] at this
  refine ⟨hlength, fun hdate => ?_, fun hsid => ?_, fun x hx x' hx' hname => ?_⟩
  · refine Array.ext hlength fun i hi hi' => ?_
    obtain ⟨d, s, d', s', hd, hd', -, -, hrecord⟩ := ofRow_of_toRecords hr hr' h hi hi'
    have hget := get?_date hr d s i hdate
    rw [hrecord, get?_date hr' d' s' i (hnames ▸ hdate)] at hget
    have heq := Date.text_injective (Exported.text.inj (Option.some.inj hget))
    rw [(Array.getElem?_eq_some_iff.1 hd).2, (Array.getElem?_eq_some_iff.1 hd').2, heq]
  · refine Array.ext (by rw [hr.sids, hr'.sids, hlength]) fun i hi hi' => ?_
    obtain ⟨d, s, d', s', -, -, hs, hs', hrecord⟩ := ofRow_of_toRecords hr hr' h (hr.sids ▸ hi) (hr'.sids ▸ hi')
    have hget := get?_sid hr d s i hsid
    rw [hrecord, get?_sid hr' d' s' i (hnames ▸ hsid)] at hget
    have heq := UInt32.toNat_inj.1 (Int.ofNat_inj.1 (Exported.int.inj (Option.some.inj hget)))
    rw [(Array.getElem?_eq_some_iff.1 hs).2, (Array.getElem?_eq_some_iff.1 hs').2]
    exact congrArg Sid.mk heq.symm
  · have hlen := (Values.length_toScalars x.2).trans (hr.columns x hx)
    have hlen' := (Values.length_toScalars x'.2).trans (hr'.columns x' hx')
    refine List.forall₂_iff_get.2 ⟨hlen.trans (hlength.trans hlen'.symm), fun i hi hi' => ?_⟩
    obtain ⟨d, s, d', s', -, -, -, -, hrecord⟩ := ofRow_of_toRecords hr hr' h (hlen ▸ hi) (hlen' ▸ hi')
    obtain ⟨v, v', hv, hv', halike⟩ := alike_of_ofRow hr hr' (hlen ▸ hi) (hlen' ▸ hi') hrecord hx hx' hname
      (dtype_of_schema hr' hs hx hx' hname)
    rw [Values.get?_eq] at hv hv'
    rw [List.get_eq_getElem, List.get_eq_getElem, (List.getElem?_eq_some_iff.1 hv).2, (List.getElem?_eq_some_iff.1 hv').2]
    exact halike

end Result

/-! ## Exports of runs -/

namespace Pipeline

/-- A result of a run of the pipeline, whatever it is run with, however long and in whatever chunks. -/
def Yields (p : Pipeline) (r : Result) : Prop := ∃ e : Engine, ∃ start stop size cancelled calls,
  ((e.runChunked p start stop size cancelled).run.run calls).1 = .ok r

variable {p p' : Pipeline} {r r' : Result}

theorem Yields.full (h : p.Yields r) (hp : p.columns.Ordered) : r.Full := by
  obtain ⟨e, start, stop, size, cancelled, calls, h⟩ := h
  have hends := Engine.ends_runChunked (e := e) hp start stop size cancelled calls
  rwa [h] at hends

/-- The records of a result of a run are those of its rows, in order. Each has the values of all
columns, with nothing where they are blank, and the date and the asset unless a column of their name
replaces them. Two results with the same columns and the same text are alike in all of this. -/
theorem records_tell (hp : p.columns.Ordered) (hp' : p'.columns.Ordered) (hr : p.Yields r) (hr' : p'.Yields r') :
    (r.toRecords.length = r.length ∧ ∀ i < r.length, ∃ d s record, r.dates[i]? = some d ∧ r.sids[i]? = some s ∧
      r.toRecords[i]? = some record ∧
      (∀ x ∈ r.columns, ∃ v, x.2.get? i = some v ∧ record.get? x.1 = some (.ofScalar v) ∧
        (Exported.ofScalar v = .null ↔ v.Blank)) ∧
      ("date" ∉ r.names → record.get? "date" = some (.text d.text)) ∧
      ("sid" ∉ r.names → record.get? "sid" = some (.int s.toNat))) ∧
    (r.schema = r'.schema → (r.toJson = r'.toJson ∨ r.toPrettyJson = r'.toPrettyJson) →
      r.length = r'.length ∧ ("date" ∉ r.names → r.dates = r'.dates) ∧ ("sid" ∉ r.names → r.sids = r'.sids) ∧
      ∀ x ∈ r.columns, ∀ x' ∈ r'.columns, x.1 = x'.1 →
        List.Forall₂ Scalar.Alike x.2.toScalars x'.2.toScalars) := by
  have hf := hr.full hp
  refine ⟨⟨Result.length_toRecords hf, fun i hi => ?_⟩, fun hs h => ?_⟩
  · obtain ⟨d, s, hd, hsid, hrecord⟩ := Result.getElem?_toRecords hf hi
    refine ⟨d, s, _, hd, hsid, hrecord, fun x hx => ?_, Result.get?_date hf d s i, Result.get?_sid hf d s i⟩
    obtain ⟨v, hv, hget⟩ := Result.get?_ofRow_of_mem hf d s hi hx
    exact ⟨v, hv, hget, Exported.ofScalar_eq_null⟩
  · exact Result.alike_of_toRecords hf (hr'.full hp') hs
      (h.elim Result.toRecords_of_toJson Result.toRecords_of_toPrettyJson)

end Pipeline

/-! The same number on two days, under a name of its own and under that of the dates. -/

namespace Engine

/-- The number of a day. -/
def oneRate (name : String) (d : Date) : Result := ⟨#[d], #[⟨1⟩], [(name, .ints [1])]⟩

theorem yields_oneRate : ratePipeline.Yields (oneRate "rate" ⟨0⟩) ∧ ratePipeline.Yields (oneRate "rate" ⟨1⟩) :=
  ⟨⟨rateEngine [], ⟨0⟩, ⟨0⟩, 1, .never, [], by cbv⟩, ⟨rateEngine [], ⟨1⟩, ⟨1⟩, 1, .never, [], by cbv⟩⟩

/-- Under a name of its own the number is in the record beside the date, and the texts of the days
differ. -/
theorem records_tell_rate : (∃ record, (oneRate "rate" ⟨0⟩).toRecords[0]? = some record ∧
      record.get? "rate" = some (.int 1) ∧ record.get? "date" = some (.text "1970-01-01")) ∧
    (oneRate "rate" ⟨0⟩).toJson ≠ (oneRate "rate" ⟨1⟩).toJson := by
  obtain ⟨⟨-, htell⟩, hsame⟩ := Pipeline.records_tell ratePipeline_built.ordered ratePipeline_built.ordered
    yields_oneRate.1 yields_oneRate.2
  refine ⟨?_, fun h => ?_⟩
  · obtain ⟨d, s, record, hd, -, hrecord, hcolumns, hdate, -⟩ := htell 0 (by decide)
    obtain rfl := Option.some.inj hd
    obtain ⟨v, hv, hget, -⟩ := hcolumns _ List.mem_cons_self
    obtain rfl := Option.some.inj hv
    exact ⟨record, hrecord, hget, hdate (by decide)⟩
  · exact absurd ((hsame rfl (.inl h)).2.1 (by decide)) (by decide)

/-- The number under the name of the dates. -/
def datePipeline : Pipeline := { columns := [("date", .ofColumn Tables.rate)] }

/-- There it replaces them, so that the days are exported as one text. -/
theorem date_replaced : datePipeline.Yields (oneRate "date" ⟨0⟩) ∧ datePipeline.Yields (oneRate "date" ⟨1⟩) ∧
    (oneRate "date" ⟨0⟩).schema = (oneRate "date" ⟨1⟩).schema ∧
    (oneRate "date" ⟨0⟩).dates ≠ (oneRate "date" ⟨1⟩).dates ∧
    (oneRate "date" ⟨0⟩).toJson = (oneRate "date" ⟨1⟩).toJson ∧
    (oneRate "date" ⟨0⟩).toJson = "[\x7b\"date\":1,\"sid\":1\x7d]" :=
  ⟨⟨rateEngine [], ⟨0⟩, ⟨0⟩, 1, .never, [], by cbv⟩, ⟨rateEngine [], ⟨1⟩, ⟨1⟩, 1, .never, [], by cbv⟩, rfl, by decide,
    by cbv, by cbv⟩

end Engine
end AsOf
