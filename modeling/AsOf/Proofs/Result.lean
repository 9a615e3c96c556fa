import AsOf.Proofs.Calendar
import AsOf.Proofs.Checked
import AsOf.Proofs.Named
import AsOf.Result.Basic

/-!
# Results as rows

`Result.Shows` says what a result is: some rows, each a date and an asset, and for every
output its value in each row. Parts that are put one below the other show their rows one
after the other. Where the rows ascend, by date and then by asset, halving finds a row
exactly if it is there.

* `Result.Shows.concat`: the rows of parts, one below the other.
* `Result.search_spec`, `Result.position?_eq_some`: halving finds the rows there are.
* `Result.Shows.value?_eq`: the value of an output on a date for an asset.
-/
namespace AsOf

/-! ## The order of rows -/

/-- By date, then by asset. -/
def RowBefore (a b : Date × Sid) : Prop := a.1 < b.1 ∨ a.1 = b.1 ∧ a.2 < b.2

theorem Sid.lt_irrefl (s : Sid) : ¬s < s := UInt32.lt_irrefl s.id

theorem RowBefore.irrefl (a : Date × Sid) : ¬RowBefore a a := fun h =>
  h.elim (Date.lt_irrefl _) fun h => Sid.lt_irrefl _ h.2

theorem RowBefore.trans {a b c : Date × Sid} (h : RowBefore a b) (h' : RowBefore b c) : RowBefore a c := by
  rcases h with h | ⟨h, hs⟩ <;> rcases h' with h' | ⟨h', hs'⟩
  · exact .inl (Int.lt_trans h h')
  · exact .inl (h' ▸ h)
  · exact .inl (h ▸ h')
  · exact .inr ⟨h.trans h', UInt32.lt_trans hs hs'⟩

/-! ## Values -/

namespace Values

theorem get?_eq (v : Values) (i : Nat) : v.get? i = v.toScalars[i]? := by
  cases v <;> exact List.getElem?_map.symm

theorem length_toScalars (v : Values) : v.toScalars.length = v.length := by
  cases v <;> exact List.length_map _

theorem toScalars_append {a b c : Values} (h : a.append b = .ok c) :
    c.toScalars = a.toScalars ++ b.toScalars := by
  cases a <;> cases b <;> cases h <;> exact List.map_append

end Values

namespace Result

variable {r a b c : Result}

/-- A result is made of parts that have one length. -/
theorem mk?_eq_ok {dates : List Date} {sids : List Sid} {columns : Named Values} :
    Result.mk? dates sids columns = .ok r ↔ sids.length = dates.length ∧
      (∀ x ∈ columns, x.2.length = dates.length) ∧ ⟨dates.toArray, sids.toArray, columns⟩ = r := by
  unfold mk?
  by_cases hs : sids.length ≠ dates.length
  · rw [if_pos hs]
    exact ⟨(fun h => by cases h), fun h => absurd h.1 hs⟩
  rw [if_neg hs]
  cases hf : columns.find? fun x => x.2.length != dates.length with
  | some x =>
    have hx : x.2.length ≠ dates.length := by simpa using List.find?_some hf
    exact ⟨(fun h => by cases h), fun h => absurd (h.2.1 x (List.mem_of_find?_eq_some hf)) hx⟩
  | none =>
    have hlengths : ∀ x ∈ columns, x.2.length = dates.length := fun x hx => by
      simpa using List.find?_eq_none.1 hf x hx
    exact ⟨fun h => ⟨not_not.1 hs, hlengths, Except.ok.inj h⟩, fun h => congrArg Except.ok h.2.2⟩

/-! ## What a result shows -/

/-- The date and the asset of every row. -/
def keys (r : Result) : List (Date × Sid) := r.dates.toList.zip r.sids.toList

/-- A result has some rows, and the values that its outputs have in them. -/
structure Shows (r : Result) (outputs : Named Nat) (value : Nat → Date × Sid → Option Scalar)
    (rows : List (Date × Sid)) : Prop where
  dates : r.dates.toList = rows.map Prod.fst
  sids : r.sids.toList = rows.map Prod.snd
  columns : List.Forall₂ (fun x o => x.1 = o.1 ∧ x.2.toScalars.map some = rows.map (value o.2))
    r.columns outputs

variable {outputs : Named Nat} {value : Nat → Date × Sid → Option Scalar} {rows rows' : List (Date × Sid)}

theorem Shows.keys_eq (h : r.Shows outputs value rows) : r.keys = rows := by
  rw [Result.keys, h.dates, h.sids, List.zip_map']
  exact List.map_id rows

theorem Shows.names (h : r.Shows outputs value rows) : r.names = outputs.names :=
  Checked.map_eq_map h.columns fun _ _ hx => hx.1

theorem Shows.length_column (h : r.Shows outputs value rows) {x : String × Values} (hx : x ∈ r.columns) :
    x.2.length = r.length := by
  obtain ⟨o, -, -, ho⟩ := Checked.exists_right h.columns hx
  rw [← Values.length_toScalars, ← List.length_map (f := some), ho, List.length_map, length,
    ← Array.length_toList, h.dates, List.length_map]

/-! ## Parts, one below the other -/

theorem appendColumns_spec {xs ys zs : Named Values} (h : appendColumns xs ys = .ok zs)
    (hx : List.Forall₂ (fun x o => x.1 = o.1 ∧ x.2.toScalars.map some = rows.map (value o.2)) xs outputs)
    (hy : List.Forall₂ (fun x o => x.1 = o.1 ∧ x.2.toScalars.map some = rows'.map (value o.2)) ys outputs) :
    List.Forall₂ (fun x o => x.1 = o.1 ∧ x.2.toScalars.map some = (rows ++ rows').map (value o.2)) zs
      outputs := by
  induction hx generalizing ys zs with
  | nil =>
    cases hy
    obtain rfl := Except.ok.inj h
    exact .nil
  | @cons x o xs outputs hxo hxs ih =>
    cases hy with
    | @cons y _ ys _ hyo hys =>
      obtain ⟨v, hv, h⟩ := Checked.bind_eq_ok.1 h
      obtain ⟨rest, hrest, h⟩ := Checked.bind_eq_ok.1 h
      obtain rfl := Except.ok.inj h
      refine .cons ⟨hxo.1, ?_⟩ (ih hrest hys)
      rw [Values.toScalars_append hv, List.map_append, hxo.2, hyo.2, List.map_append]

theorem Shows.append (ha : a.Shows outputs value rows) (hb : b.Shows outputs value rows')
    (h : a.append b = .ok c) : c.Shows outputs value (rows ++ rows') := by
  unfold Result.append at h
  rw [if_neg (not_not_intro (ha.names.trans hb.names.symm))] at h
  obtain ⟨columns, hcolumns, h⟩ := Checked.bind_eq_ok.1 h
  obtain rfl := Except.ok.inj h
  refine ⟨?_, ?_, appendColumns_spec hcolumns ha.columns hb.columns⟩
  · rw [Array.toList_append, ha.dates, hb.dates, List.map_append]
  · rw [Array.toList_append, ha.sids, hb.sids, List.map_append]

/-- Parts that are put one below the other show their rows one after the other. -/
theorem Shows.concat {ι : Type} {items : List ι} {rowsOf : ι → List (Date × Sid)} {parts : List Result}
    (hparts : List.Forall₂ (fun x part => part.Shows outputs value (rowsOf x)) items parts)
    (hne : parts ≠ []) (h : Result.concat parts = .ok r) :
    r.Shows outputs value (items.flatMap rowsOf) := by
  have main {items : List ι} {parts : List Result}
      (hparts : List.Forall₂ (fun x part => part.Shows outputs value (rowsOf x)) items parts)
      (first : Result) {rows : List (Date × Sid)} (hfirst : first.Shows outputs value rows)
      (h : parts.foldlM Result.append first = .ok r) :
      r.Shows outputs value (rows ++ items.flatMap rowsOf) := by
    induction hparts generalizing first rows with
    | nil =>
      obtain rfl := Except.ok.inj h
      rwa [List.flatMap_nil, List.append_nil]
    | @cons x part items parts hpart _ ih =>
      rw [List.foldlM_cons] at h
      obtain ⟨next, hnext, h⟩ := Checked.bind_eq_ok.1 h
      rw [List.flatMap_cons, ← List.append_assoc]
      exact ih next (hfirst.append hpart hnext) h
  cases hparts with
  | nil => exact absurd rfl hne
  | cons hpart hparts =>
    rw [List.flatMap_cons]
    exact main hparts _ hpart h

/-! ## Halving -/

/-- Where what comes before is never behind what does not, halving finds the end of it. -/
theorem search_spec {before : Nat → Bool} (hb : ∀ i j, i ≤ j → before j = true → before i = true)
    {lo hi : Nat} (hle : lo ≤ hi) :
    lo ≤ search before lo hi ∧ search before lo hi ≤ hi ∧
      (∀ i, lo ≤ i → i < search before lo hi → before i = true) ∧
      ∀ i, search before lo hi ≤ i → i < hi → before i = false := by
  fun_induction search before lo hi with
  | case1 lo hi hlt mid hmid ih =>
    have hrange : lo ≤ mid ∧ mid < hi := ⟨Nat.le_add_right .., by omega⟩
    obtain ⟨hlow, hhigh, hbelow, habove⟩ := ih (by omega)
    refine ⟨by omega, hhigh, fun i hi hlt => ?_, habove⟩
    by_cases him : i ≤ mid
    · exact hb i mid him hmid
    · exact hbelow i (by omega) hlt
  | case2 lo hi hlt mid hmid ih =>
    have hrange : lo ≤ mid ∧ mid < hi := ⟨Nat.le_add_right .., by omega⟩
    obtain ⟨hlow, hhigh, hbelow, habove⟩ := ih hrange.1
    refine ⟨hlow, by omega, hbelow, fun i hi hlt => ?_⟩
    by_cases him : i < mid
    · exact habove i hi him
    · exact Bool.eq_false_iff.2 fun h => hmid (hb mid i (by omega) h)
  | case3 lo hi hlt =>
    exact ⟨Nat.le_refl _, hle, fun i h h' => absurd h' (by omega), fun i h h' => absurd h' (by omega)⟩

theorem getElem?_keys {d : Date} {s : Sid} {i : Nat} :
    r.keys[i]? = some (d, s) ↔ r.dates[i]? = some d ∧ r.sids[i]? = some s := by
  rw [Result.keys, List.getElem?_zip_eq_some, Array.getElem?_toList, Array.getElem?_toList]

theorem rowBefore_iff {d : Date} {s : Sid} {i : Nat} :
    r.rowBefore d s i = true ↔ ∃ row, r.keys[i]? = some row ∧ RowBefore row (d, s) := by
  unfold rowBefore
  split
  · rename_i d' s' hd hs
    rw [getElem?_keys.2 ⟨hd, hs⟩, Bool.or_eq_true, Bool.and_eq_true, decide_eq_true_iff, beq_iff_eq,
      decide_eq_true_iff]
    constructor
    · exact fun h => ⟨_, rfl, h⟩
    · rintro ⟨row, hrow, h⟩
      rw [← Option.some.inj hrow] at h
      exact h
  · rename_i hno
    refine ⟨nofun, ?_⟩
    rintro ⟨⟨d', s'⟩, hrow, -⟩
    obtain ⟨hd, hs⟩ := getElem?_keys.1 hrow
    exact absurd hs (hno d' s' hd)

/-- In rows that ascend, those before a date and an asset come first. -/
theorem rowBefore_of_le (hr : r.keys.Pairwise RowBefore) {d : Date} {s : Sid} {i j : Nat} (hij : i ≤ j)
    (hj : r.rowBefore d s j = true) : r.rowBefore d s i = true := by
  rcases Nat.eq_or_lt_of_le hij with rfl | hij
  · exact hj
  obtain ⟨row, hrow, hbefore⟩ := rowBefore_iff.1 hj
  obtain ⟨hjlt, rfl⟩ := List.getElem?_eq_some_iff.1 hrow
  refine rowBefore_iff.2 ⟨r.keys[i], List.getElem?_eq_getElem (by omega), ?_⟩
  exact (List.pairwise_iff_getElem.1 hr i j _ _ hij).trans hbefore

/-- Halving finds a date and an asset exactly if there is a row of them. -/
theorem position?_eq_some (hr : r.keys.Pairwise RowBefore) {d : Date} {s : Sid} {i : Nat} :
    r.position? d s = some i ↔ r.keys[i]? = some (d, s) := by
  obtain ⟨n, hn⟩ : ∃ n, n = search (r.rowBefore d s) 0 r.length := ⟨_, rfl⟩
  have hposition : r.position? d s = some i ↔ r.keys[n]? = some (d, s) ∧ n = i := by
    unfold position?
    rw [← hn, getElem?_keys]
    by_cases h : r.dates[n]? = some d ∧ r.sids[n]? = some s
    · rw [if_pos (by simpa using h), Option.some.injEq, and_iff_right h]
    · rw [if_neg (by simpa using h)]
      exact ⟨nofun, fun hi => absurd hi.1 h⟩
  rw [hposition]
  refine ⟨fun h => h.2 ▸ h.1, fun hi => ?_⟩
  obtain ⟨-, hle, hbelow, habove⟩ :=
    hn ▸ search_spec (fun i j => rowBefore_of_le hr (d := d) (s := s)) (Nat.zero_le r.length)
  have hlt : i < r.length := by
    have := (Array.getElem?_eq_some_iff.1 (getElem?_keys.1 hi).1).1
    exact this
  have hself : r.rowBefore d s i ≠ true := by
    intro h
    obtain ⟨row, hrow, hbefore⟩ := rowBefore_iff.1 h
    rw [hi] at hrow
    rw [← Option.some.inj hrow] at hbefore
    exact RowBefore.irrefl _ hbefore
  have hni : n = i := by
    rcases Nat.lt_trichotomy n i with h | h | h
    · -- the row that was found would stand before itself
      have hfalse := habove n (Nat.le_refl n) (by omega)
      have hilt := (List.getElem?_eq_some_iff.1 hi).1
      have := List.pairwise_iff_getElem.1 hr n i (by omega) hilt h
      rw [(List.getElem?_eq_some_iff.1 hi).2] at this
      rw [rowBefore_iff.2 ⟨r.keys[n], List.getElem?_eq_getElem (by omega), this⟩] at hfalse
      cases hfalse
    · exact h
    · exact absurd (hbelow i (Nat.zero_le i) h) hself
  exact ⟨hni ▸ hi, hni⟩

/-! ## Looking values up -/

theorem value?_eq (r : Result) (d : Date) (s : Sid) (name : String) :
    r.value? d s name = (r.position? d s).bind fun i => (r.column? name).bind fun v => v.toScalars[i]? := by
  unfold value?
  cases r.position? d s with
  | none => rfl
  | some i =>
    cases r.column? name with
    | none => rfl
    | some v => exact Values.get?_eq v i

/-- There is no value where there is no row, and none of a column that there is not. -/
theorem Shows.value?_eq_none (h : r.Shows outputs value rows) (hr : rows.Pairwise RowBefore) {d : Date} {s : Sid}
    {name : String} (hno : (d, s) ∉ rows ∨ name ∉ outputs.names) : r.value? d s name = none := by
  rw [value?_eq]
  rcases hno with hrow | hname
  · cases hp : r.position? d s with
    | none => rfl
    | some i =>
      have := (position?_eq_some (h.keys_eq ▸ hr)).1 hp
      rw [h.keys_eq] at this
      exact absurd (List.mem_of_getElem? this) hrow
  · have hcolumn : r.column? name = none := by
      refine Named.get?_eq_none fun x hx hxname => hname ?_
      rw [← h.names]
      exact hxname ▸ List.mem_map_of_mem hx
    rw [hcolumn]
    cases r.position? d s <;> rfl

theorem Shows.ordered (h : r.Shows outputs value rows) (ho : outputs.Ordered) : r.columns.Ordered :=
  ho.of_names h.names

/-- What stands in a row is found by the date and the asset of the row and the name of the
column. -/
theorem value?_of_getElem? (hr : r.keys.Pairwise RowBefore) (hc : r.columns.Ordered) {i : Nat} {d : Date} {s : Sid}
    (hi : r.keys[i]? = some (d, s)) {x : String × Values} (hx : x ∈ r.columns) : r.value? d s x.1 = x.2.get? i := by
  have hcolumn : r.column? x.1 = some x.2 := hc.get?_of_mem hx
  rw [value?_eq, (position?_eq_some hr).2 hi, hcolumn, Values.get?_eq]
  rfl

/-- The value of an output in a row is found by its date, its asset and its name. -/
theorem Shows.value?_eq (h : r.Shows outputs value rows) (hr : rows.Pairwise RowBefore)
    (ho : outputs.Ordered) {row : Date × Sid} (hrow : row ∈ rows) {o : String × Nat} (hmem : o ∈ outputs) :
    r.value? row.1 row.2 o.1 = value o.2 row ∧ (value o.2 row).isSome = true := by
  obtain ⟨i, hi⟩ := List.getElem?_of_mem hrow
  obtain ⟨x, hx, hname, hvalues⟩ := Checked.exists_left h.columns hmem
  have hget : (x.2.toScalars[i]?).map some = some (value o.2 row) := by
    rw [← List.getElem?_map, hvalues, List.getElem?_map, hi]
    rfl
  obtain ⟨y, hy, hvalue⟩ := Option.map_eq_some_iff.1 hget
  rw [← hname, value?_of_getElem? (h.keys_eq ▸ hr) (h.ordered ho) (h.keys_eq ▸ hi) hx, Values.get?_eq, ← hvalue]
  exact ⟨hy, rfl⟩

end Result
end AsOf
