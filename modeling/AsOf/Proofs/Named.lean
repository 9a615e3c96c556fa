import AsOf.Named
import Mathlib.Data.List.Pairwise

/-!
# Items in the order of their names

Items that are put in by name stay in the order of their names, one for each name, and
are found by name.

* `Named.Ordered.insert`, `Named.Ordered.erase`: the order is kept.
* `Named.get?_insert`: the newest item of a name is found.
* `Named.ofList_eq_self`: putting ordered items in one by one gives them back.
* `Named.get?_ofList_append`: what is put in later is found first.
-/
namespace AsOf.Named

variable {α : Type} {m : Named α} {name : String} {x : α}

/-- The names ascend. -/
def Ordered (m : Named α) : Prop := m.Pairwise fun a b => a.1 < b.1

theorem mem_insert {y : String × α} (h : y ∈ m.insert name x) : y = (name, x) ∨ y ∈ m := by
  induction m with
  | nil => exact .inl (List.mem_singleton.1 h)
  | cons z m ih =>
    obtain ⟨n, z⟩ := z
    rw [insert] at h
    split at h
    · exact List.mem_cons.1 h
    · split at h
      · rename_i hn
        rcases List.mem_cons.1 h with rfl | h
        · exact .inl (by rw [hn])
        · exact .inr (List.mem_cons_of_mem _ h)
      · rcases List.mem_cons.1 h with rfl | h
        · exact .inr List.mem_cons_self
        · exact (ih h).imp_right (List.mem_cons_of_mem _)

theorem Ordered.insert (h : m.Ordered) (name : String) (x : α) : (m.insert name x).Ordered := by
  induction m with
  | nil => exact List.pairwise_singleton _ _
  | cons z m ih =>
    obtain ⟨n, z⟩ := z
    obtain ⟨hz, h⟩ := List.pairwise_cons.1 h
    rw [Named.insert]
    split
    · rename_i hlt
      refine List.pairwise_cons.2 ⟨fun y hy => ?_, List.pairwise_cons.2 ⟨hz, h⟩⟩
      rcases List.mem_cons.1 hy with rfl | hy
      · exact hlt
      · exact String.lt_trans hlt (hz y hy)
    · split
      · exact List.pairwise_cons.2 ⟨hz, h⟩
      · rename_i hlt hne
        have hgt : n < name := String.not_le.1 fun hle =>
          hne (String.le_antisymm hle (String.not_lt.1 hlt))
        refine List.pairwise_cons.2 ⟨fun y hy => ?_, ih h⟩
        rcases mem_insert hy with rfl | hy
        · exact hgt
        · exact hz y hy

/-- The order is one of the names. -/
theorem Ordered.of_names {β : Type} {m' : Named β} (h : m.Ordered) (hn : m'.names = m.names) : m'.Ordered := by
  have hnames : m'.map Prod.fst = m.map Prod.fst := hn
  exact List.pairwise_map.1 (hnames ▸ List.pairwise_map.2 h)

theorem Ordered.erase (h : m.Ordered) (name : String) : (m.erase name).Ordered := h.filter _

theorem get?_cons (n : String) (y : α) (m : Named α) (name : String) :
    get? ((n, y) :: m) name = if name = n then some y else m.get? name := by
  rw [get?, List.lookup_cons]
  by_cases h : name = n
  · rw [if_pos h, h, beq_self_eq_true]
  · rw [if_neg h, beq_false_of_ne h]
    rfl

theorem get?_eq_none (h : ∀ x ∈ m, x.1 ≠ name) : m.get? name = none := by
  induction m with
  | nil => rfl
  | cons y m ih =>
    rw [get?_cons, if_neg (h y List.mem_cons_self).symm]
    exact ih fun x hx => h x (List.mem_cons_of_mem _ hx)

/-- Among ordered items every item is found by its name. -/
theorem Ordered.get?_of_mem (h : m.Ordered) (hx : (name, x) ∈ m) : m.get? name = some x := by
  induction m with
  | nil => cases hx
  | cons y m ih =>
    obtain ⟨hy, hm⟩ := List.pairwise_cons.1 h
    rw [get?_cons]
    rcases List.mem_cons.1 hx with rfl | hx
    · exact if_pos rfl
    · have hlt : y.1 < name := hy _ hx
      rw [if_neg fun (e : name = y.1) => String.lt_irrefl _ (e ▸ hlt)]
      exact ih hm hx

/-- The newest item of a name is found, and nothing else changes. -/
theorem get?_insert (m : Named α) (name : String) (x : α) (name' : String) :
    (m.insert name x).get? name' = if name' = name then some x else m.get? name' := by
  induction m with
  | nil => exact get?_cons ..
  | cons z m ih =>
    obtain ⟨n, z⟩ := z
    rw [insert]
    split
    · exact get?_cons ..
    · split
      · rename_i hn
        rw [get?_cons, get?_cons, hn]
        split <;> rfl
      · rename_i hne
        rw [get?_cons, get?_cons, ih]
        by_cases h : name' = n
        · rw [if_pos h, if_pos h, if_neg fun e => hne (e.symm.trans h)]
        · rw [if_neg h, if_neg h]

/-- Ordered items that are put in one by one are given back. -/
theorem ofList_eq_self (h : m.Ordered) : ofList m = m := by
  have hlast (m : Named α) (y : String × α) (hy : ∀ z ∈ m, z.1 < y.1) :
      m.insert y.1 y.2 = m ++ [y] := by
    induction m with
    | nil => rfl
    | cons z m ih =>
      obtain ⟨n, z⟩ := z
      have hlt : n < y.1 := hy (n, z) List.mem_cons_self
      rw [insert, if_neg (String.lt_asymm hlt), if_neg (String.ne_of_lt hlt).symm,
        ih fun z hz => hy z (List.mem_cons_of_mem _ hz)]
      rfl
  have main (rest done : Named α) (h : Ordered (done ++ rest)) :
      rest.foldl (fun m (x : String × α) => m.insert x.1 x.2) done = done ++ rest := by
    induction rest generalizing done with
    | nil => exact (List.append_nil done).symm
    | cons y rest ih =>
      rw [List.foldl_cons, hlast done y fun z hz =>
        (List.pairwise_append.1 h).2.2 z hz y List.mem_cons_self]
      rw [List.append_cons] at h
      rw [ih (done ++ [y]) h, ← List.append_cons]
  exact main m [] h

theorem ordered_ofList (items : List (String × α)) : (ofList items).Ordered := by
  have main {done : Named α} (h : done.Ordered) :
      Ordered (items.foldl (fun m (x : String × α) => m.insert x.1 x.2) done) := by
    induction items generalizing done with
    | nil => exact h
    | cons x items ih => exact ih (h.insert x.1 x.2)
  exact main List.Pairwise.nil

theorem mem_ofList {items : List (String × α)} {y : String × α} (h : y ∈ ofList items) : y ∈ items := by
  have main {items : List (String × α)} {done : Named α}
      (h : y ∈ items.foldl (fun m (x : String × α) => m.insert x.1 x.2) done) : y ∈ items ∨ y ∈ done := by
    induction items generalizing done with
    | nil => exact .inr h
    | cons x items ih =>
      rcases ih h with h | h
      · exact .inl (List.mem_cons_of_mem _ h)
      · exact (mem_insert h).imp_left fun h => List.mem_cons.2 (.inl h)
  exact (main h).resolve_right List.not_mem_nil

theorem ofList_ne_nil {items : List (String × α)} (h : items ≠ []) : ofList items ≠ [] := by
  obtain ⟨init, y, rfl⟩ := List.eq_nil_or_concat items |>.resolve_left h
  intro hnil
  rw [List.concat_eq_append, ofList, List.foldl_append] at hnil
  have hget := get?_insert (init.foldl (fun m x => m.insert x.1 x.2) []) y.1 y.2 y.1
  rw [if_pos rfl, show Named.insert _ _ _ = [] from hnil] at hget
  cases hget

/-- Of what is put in after one another the ordered items that come last are found first. -/
theorem get?_ofList_append (h : m.Ordered) (items : List (String × α)) (name : String) :
    get? (ofList (items ++ m)) name = (m.get? name).or (get? (ofList items) name) := by
  rw [ofList, List.foldl_append]
  show get? (m.foldl _ (ofList items)) name = _
  generalize ofList items = done
  induction m generalizing done with
  | nil => rfl
  | cons y m ih =>
    obtain ⟨hy, hm⟩ := List.pairwise_cons.1 h
    rw [List.foldl_cons, ih hm, get?_insert, get?_cons]
    by_cases hn : name = y.1
    · rw [if_pos hn, if_pos hn, get?_eq_none fun z hz => hn ▸ (String.ne_of_lt (hy z hz)).symm]
      rfl
    · rw [if_neg hn, if_neg hn]

end AsOf.Named
