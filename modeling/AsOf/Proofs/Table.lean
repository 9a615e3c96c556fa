import AsOf.Proofs.Meaning
import AsOf.Result.Basic

/-!
# The table that a graph means

`TermGraph.table` is the result that a graph has for some sessions, each in its world: a
row for every living asset that passes the screen, session by session. Results of
consecutive sessions are put together by `Result.concat`, and the rows of some dates are
taken out by `Result.restrict`.

* `TermGraph.concat_table`: the tables of consecutive sessions, one below the other.
* `TermGraph.restrict_table`: the rows of some dates.
* `TermGraph.table_congr`: what two tables have to agree in.
* `TermGraph.table_eq_of_agreeUpTo`: the table up to a session depends on no later one.
-/
namespace AsOf

/-! ## Values -/

namespace Values

/-- Cells of a type. -/
def ofScalars (dtype : Dtype) (xs : List Scalar) : Values :=
  match dtype with
  | .float64 => .floats (xs.map fun x => x.asFloat?.getD nan)
  | .int64 => .ints (xs.map fun x => x.asInt?.getD 0)
  | .bool => .bools (xs.map fun x => x.asBool?.getD false)
  | .datetime => .times (xs.map fun x => x.asInt?.getD 0)
  | .categorical => .labels (xs.map Scalar.asLabel?)

/-- The values under true flags. -/
def pick (flags : List Bool) : Values → Values
  | floats xs => floats (AsOf.pick flags xs)
  | ints xs => ints (AsOf.pick flags xs)
  | bools xs => bools (AsOf.pick flags xs)
  | times xs => times (AsOf.pick flags xs)
  | labels xs => labels (AsOf.pick flags xs)

theorem length_ofScalars (dtype : Dtype) (xs : List Scalar) : (ofScalars dtype xs).length = xs.length := by
  cases dtype <;> exact List.length_map _

theorem append_ofScalars (dtype : Dtype) (xs ys : List Scalar) :
    (ofScalars dtype xs).append (ofScalars dtype ys) = .ok (ofScalars dtype (xs ++ ys)) := by
  cases dtype <;> simp only [ofScalars, append, List.map_append]

theorem pick_ofScalars (flags : List Bool) (dtype : Dtype) (xs : List Scalar) :
    (ofScalars dtype xs).pick flags = ofScalars dtype (AsOf.pick flags xs) := by
  cases dtype <;> simp only [ofScalars, pick, pick_map]

end Values

theorem pick_map_self {α : Type} (p : α → Bool) (xs : List α) : pick (xs.map p) xs = xs.filter p := by
  induction xs with
  | nil => rfl
  | cons x xs ih =>
    cases hp : p x with
    | true => rw [List.map_cons, hp, pick, ih, List.filter_cons_of_pos hp]
    | false => rw [List.map_cons, hp, pick, ih, List.filter_cons_of_neg (by simp [hp])]

/-- The rows of the dates that satisfy `p`. -/
def Result.restrict (r : Result) (p : Date → Bool) : Result :=
  let flags := r.dates.toList.map p
  ⟨(pick flags r.dates.toList).toArray, (pick flags r.sids.toList).toArray,
    r.columns.map fun (name, values) => (name, values.pick flags)⟩

/-! ## The table -/

/-- The value of an asset for a session as known on it. -/
def Strand.value (s : Strand) (r : Nat) (sid : Sid) : Scalar :=
  ((s.row? r r).map (· sid)).getD (.label none)

namespace TermGraph

variable {g : TermGraph} {w w' : Nat → World} {sessions : List Nat}

/-- The living assets that pass the screen on a session. -/
def passing (g : TermGraph) (w : World) (r : Nat) : List Sid :=
  match g.screen with
  | some screen => (w.live r).filter fun sid => ((g.strand w screen).value r sid).asBool?.getD false
  | none => w.live r

/-- The sessions and assets of the rows, where each session has its world. -/
def keys (g : TermGraph) (w : Nat → World) (sessions : List Nat) : List (Nat × Sid) :=
  sessions.flatMap fun r => (g.passing (w r) r).map (r, ·)

theorem of_mem_keys {k : Nat × Sid} (h : k ∈ g.keys w sessions) : k.1 ∈ sessions ∧ k.2 ∈ g.passing (w k.1) k.1 := by
  obtain ⟨r, hr, hk⟩ := List.mem_flatMap.1 h
  obtain ⟨sid, hsid, rfl⟩ := List.mem_map.1 hk
  exact ⟨hr, hsid⟩

/-- A table with some rows. -/
def tableOf (g : TermGraph) (w : Nat → World) (keys : List (Nat × Sid)) : Result :=
  ⟨(keys.map fun k => (w k.1).date k.1).toArray, (keys.map Prod.snd).toArray,
    g.outputs.map fun output => (output.1, .ofScalars (g.dtypeOf output.2)
      (keys.map fun k => (g.strand (w k.1) output.2).value k.1 k.2))⟩

/-- The result for some sessions. -/
def table (g : TermGraph) (w : Nat → World) (sessions : List Nat) : Result :=
  g.tableOf w (g.keys w sessions)

theorem names_table (g : TermGraph) (w : Nat → World) (sessions : List Nat) :
    (g.table w sessions).names = g.outputs.names := by
  simp only [Result.names, Named.names, table, tableOf, List.map_map]
  rfl

/-- The table of some sessions and then others. -/
theorem append_table (g : TermGraph) (w : Nat → World) (xs ys : List Nat) :
    (g.table w xs).append (g.table w ys) = .ok (g.table w (xs ++ ys)) := by
  have hcols : Result.appendColumns (g.table w xs).columns (g.table w ys).columns =
      .ok (g.table w (xs ++ ys)).columns := by
    simp only [table, tableOf, keys, List.flatMap_append, List.map_append]
    induction g.outputs with
    | nil => rfl
    | cons output outputs ih =>
      rw [List.map_cons, List.map_cons, Result.appendColumns, Values.append_ofScalars]
      show (Result.appendColumns _ _ >>= _) = _
      rw [ih]
      rfl
  rw [Result.append, if_neg (not_not_intro ((names_table g w xs).trans (names_table g w ys).symm)), hcols]
  simp only [table, tableOf, keys, List.flatMap_append, List.map_append, List.append_toArray]
  rfl

/-- The tables of all parts, one below the other. -/
theorem concat_table (g : TermGraph) (w : Nat → World) {parts : List (List Nat)} (h : parts ≠ []) :
    Result.concat (parts.map (g.table w)) = .ok (g.table w parts.flatten) := by
  have main (rest : List (List Nat)) (first : List Nat) :
      (rest.map (g.table w)).foldlM Result.append (g.table w first) =
        .ok (g.table w (first ++ rest.flatten)) := by
    induction rest generalizing first with
    | nil => rw [List.flatten_nil, List.append_nil]; rfl
    | cons xs rest ih =>
      rw [List.map_cons, List.foldlM_cons, append_table]
      show (rest.map (g.table w)).foldlM Result.append (g.table w (first ++ xs)) = _
      rw [ih, List.flatten_cons, List.append_assoc]
  match parts, h with
  | first :: rest, _ => exact main rest first

/-- The rows of some dates. -/
theorem restrict_table (g : TermGraph) (w : Nat → World) (sessions : List Nat) (p : Date → Bool) :
    (g.table w sessions).restrict p = g.table w (sessions.filter fun r => p ((w r).date r)) := by
  have hkeys : (g.keys w sessions).filter (fun k => p ((w k.1).date k.1)) =
      g.keys w (sessions.filter fun r => p ((w r).date r)) := by
    rw [keys, keys, List.filter_flatMap]
    induction sessions with
    | nil => rfl
    | cons r sessions ih =>
      rw [List.flatMap_cons, ih]
      by_cases hr : p ((w r).date r) = true
      · rw [List.filter_cons_of_pos (by exact hr), List.flatMap_cons, List.filter_eq_self.2]
        intro k hk
        obtain ⟨sid, -, rfl⟩ := List.mem_map.1 hk
        exact hr
      · rw [List.filter_cons_of_neg (by exact hr), List.filter_eq_nil_iff.2, List.nil_append]
        intro k hk
        obtain ⟨sid, -, rfl⟩ := List.mem_map.1 hk
        exact hr
  have hflags : (g.table w sessions).dates.toList.map p =
      (g.keys w sessions).map fun k => p ((w k.1).date k.1) := List.map_map
  have hpick {α : Type} (f : Nat × Sid → α) :
      pick ((g.keys w sessions).map fun k => p ((w k.1).date k.1)) ((g.keys w sessions).map f) =
        (g.keys w (sessions.filter fun r => p ((w r).date r))).map f := by
    rw [pick_map, pick_map_self, hkeys]
  rw [Result.restrict, hflags]
  simp only [table, tableOf, hpick, List.map_map, Function.comp_def, Values.pick_ofScalars]

/-- Tables are one if on each session the same assets pass with the same values. -/
theorem table_congr (hdate : ∀ r ∈ sessions, (w r).date r = (w' r).date r)
    (hpass : ∀ r ∈ sessions, g.passing (w r) r = g.passing (w' r) r)
    (hvalue : ∀ r ∈ sessions, ∀ output ∈ g.outputs, ∀ sid ∈ g.passing (w' r) r,
      (g.strand (w r) output.2).value r sid = (g.strand (w' r) output.2).value r sid) :
    g.table w sessions = g.table w' sessions := by
  have hkeys : g.keys w sessions = g.keys w' sessions :=
    List.flatMap_congr fun r hr => by rw [hpass r hr]
  rw [table, table, hkeys, tableOf, tableOf]
  congr 1
  · exact congrArg List.toArray (List.map_congr_left fun k hk => hdate k.1 (of_mem_keys hk).1)
  · refine List.map_congr_left fun output ho => ?_
    refine congrArg (fun xs => (output.1, Values.ofScalars _ xs)) (List.map_congr_left fun k hk => ?_)
    exact hvalue k.1 (of_mem_keys hk).1 output ho k.2 (of_mem_keys hk).2

theorem table_of_eq (h : ∀ r ∈ sessions, w r = w' r) : g.table w sessions = g.table w' sessions :=
  table_congr (fun r hr => by rw [h r hr]) (fun r hr => by rw [h r hr]) fun r hr _ _ _ _ => by rw [h r hr]

/-- The table up to a session depends on no later one. -/
theorem table_eq_of_agreeUpTo (hw : ∀ r ∈ sessions, (w r).AgreeUpTo r (w' r))
    (hlt : ∀ node, ∀ e ∈ g.edgesOf node, e.node < node) : g.table w sessions = g.table w' sessions := by
  have hvalue (r : Nat) (hr : r ∈ sessions) (node : Nat) :
      (g.strand (w r) node).value r = (g.strand (w' r) node).value r := by
    funext sid
    rw [Strand.value, Strand.value,
      (g.strand_congr (hw r hr) node hlt).row? r r (Nat.le_refl r) (Nat.le_refl r)]
  refine table_congr (fun r hr => (hw r hr).date r (Nat.le_refl r)) (fun r hr => ?_)
    fun r hr output _ sid _ => by rw [hvalue r hr]
  rw [passing, passing, (hw r hr).live r (Nat.le_refl r)]
  split
  · rename_i screen _
    rw [hvalue r hr screen]
  · rfl

end TermGraph
end AsOf
