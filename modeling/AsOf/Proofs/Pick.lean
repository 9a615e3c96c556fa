import Mathlib.Data.List.Nodup
import Mathlib.Data.List.Forall2

/-!
# Picking items by flags

`pick flags xs` keeps the items of `xs` that stand under a true flag, and
`places flags` lists where those flags are. A row of a mask picks the assets that
take part, and the cells of every input in the same way, so that what is computed
of the picked cells can be compared with what is computed of the whole row.

* `getElem?_pick`: picking is reading at the places.
* `pick_pick`: two choices can be made in either order.
* `pick_and`: a second choice filters the first.
* `getElem?_eq_of_pick`: lists that agree on a choice agree in each chosen place.
-/
namespace AsOf

variable {α β : Type}

/-- The items under true flags. -/
def pick : List Bool → List α → List α
  | true :: flags, x :: xs => x :: pick flags xs
  | false :: flags, _ :: xs => pick flags xs
  | _, _ => []

/-- Where flags are true, counted from `start`. -/
def placesFrom (start : Nat) (flags : List Bool) : List Nat :=
  ((flags.zipIdx start).filter (·.1)).map (·.2)

/-- Where flags are true. -/
def places (flags : List Bool) : List Nat := placesFrom 0 flags

@[simp] theorem placesFrom_true (start : Nat) (flags : List Bool) :
    placesFrom start (true :: flags) = start :: placesFrom (start + 1) flags := rfl

@[simp] theorem placesFrom_false (start : Nat) (flags : List Bool) :
    placesFrom start (false :: flags) = placesFrom (start + 1) flags := rfl

theorem placesFrom_succ (start : Nat) (flags : List Bool) :
    placesFrom (start + 1) flags = (placesFrom start flags).map (· + 1) := by
  induction flags generalizing start with
  | nil => rfl
  | cons flag flags ih => cases flag <;> simp [ih]

theorem le_of_mem_placesFrom {start j : Nat} {flags : List Bool} (h : j ∈ placesFrom start flags) :
    start ≤ j := by
  induction flags generalizing start with
  | nil => cases h
  | cons flag flags ih =>
    cases flag with
    | true =>
      rcases List.mem_cons.1 h with rfl | h
      · exact Nat.le_refl _
      · exact Nat.le_of_succ_le (ih h)
    | false => exact Nat.le_of_succ_le (ih h)

theorem pairwise_placesFrom (start : Nat) (flags : List Bool) :
    (placesFrom start flags).Pairwise (· < ·) := by
  induction flags generalizing start with
  | nil => exact List.Pairwise.nil
  | cons flag flags ih =>
    cases flag with
    | true => exact List.Pairwise.cons (fun j hj => le_of_mem_placesFrom hj) (ih _)
    | false => exact ih _

theorem pairwise_places (flags : List Bool) : (places flags).Pairwise (· < ·) := pairwise_placesFrom 0 flags

theorem nodup_places (flags : List Bool) : (places flags).Nodup := (pairwise_places flags).imp Nat.ne_of_lt

theorem mem_placesFrom {start j : Nat} {flags : List Bool} :
    start + j ∈ placesFrom start flags ↔ flags[j]? = some true := by
  induction flags generalizing start j with
  | nil => simp [placesFrom]
  | cons flag flags ih =>
    cases j with
    | zero =>
      have hno : start ∉ placesFrom (start + 1) flags := fun h =>
        absurd (le_of_mem_placesFrom h) (by omega)
      cases flag <;> simp [hno]
    | succ j =>
      have := @ih (start + 1) j
      rw [show start + 1 + j = start + (j + 1) by omega] at this
      cases flag <;> simp [this]

theorem mem_places {j : Nat} {flags : List Bool} : j ∈ places flags ↔ flags[j]? = some true := by
  have := @mem_placesFrom 0 j flags
  rwa [Nat.zero_add] at this

theorem lt_of_mem_places {j : Nat} {flags : List Bool} (h : j ∈ places flags) : j < flags.length :=
  (List.getElem?_eq_some_iff.1 (mem_places.1 h)).1

/-! ## Picking -/

@[simp] theorem pick_nil (flags : List Bool) : pick flags ([] : List α) = [] := by
  cases flags with
  | nil => rfl
  | cons flag flags => cases flag <;> rfl

theorem pick_map (f : α → β) (flags : List Bool) (xs : List α) :
    pick flags (xs.map f) = (pick flags xs).map f := by
  induction flags generalizing xs with
  | nil => cases xs <;> rfl
  | cons flag flags ih =>
    cases xs with
    | nil => cases flag <;> rfl
    | cons x xs => cases flag <;> simp [pick, ih]

/-- Picking is reading at the places. -/
theorem pick_eq_filterMap (flags : List Bool) (xs : List α) :
    pick flags xs = (places flags).filterMap (xs[·]?) := by
  induction flags generalizing xs with
  | nil => cases xs <;> rfl
  | cons flag flags ih =>
    cases xs with
    | nil => simp
    | cons x xs =>
      have e : (placesFrom 1 flags).filterMap ((x :: xs)[·]?) = (places flags).filterMap (xs[·]?) := by
        rw [placesFrom_succ 0, List.filterMap_map]
        rfl
      cases flag with
      | true => rw [pick, ih, ← e]; rfl
      | false => rw [pick, ih, ← e]; rfl

/-- Reading at places that ascend is reading at one of them: those past the end come last. -/
theorem getElem?_filterMap_getElem? {js : List Nat} (h : js.Pairwise (· < ·)) (xs : List α) (k : Nat) :
    (js.filterMap (xs[·]?))[k]? = js[k]?.bind (xs[·]?) := by
  induction js generalizing k with
  | nil => rfl
  | cons j js ih =>
    obtain ⟨hj, h⟩ := List.pairwise_cons.1 h
    by_cases hlt : j < xs.length
    · rw [List.filterMap_cons_some (List.getElem?_eq_getElem hlt)]
      cases k with
      | zero => rw [List.getElem?_cons_zero, List.getElem?_cons_zero, Option.bind_some, List.getElem?_eq_getElem hlt]
      | succ k => rw [List.getElem?_cons_succ, List.getElem?_cons_succ, ih h]
    · have hnone (i : Nat) (hi : i ∈ j :: js) : xs[i]? = none := by
        rcases List.mem_cons.1 hi with rfl | hi
        · exact List.getElem?_eq_none (Nat.le_of_not_lt hlt)
        · exact List.getElem?_eq_none (by have := hj i hi; omega)
      rw [List.filterMap_eq_nil_iff.2 hnone, List.getElem?_nil]
      cases hk : (j :: js)[k]? with
      | none => rfl
      | some i => rw [Option.bind_some, hnone i (List.mem_of_getElem? hk)]

/-- The item at a place of a choice is the item at the place that it is chosen from. -/
theorem getElem?_pick (flags : List Bool) (xs : List α) (k : Nat) :
    (pick flags xs)[k]? = (places flags)[k]?.bind (xs[·]?) := by
  rw [pick_eq_filterMap, getElem?_filterMap_getElem? (pairwise_places flags)]

theorem length_pick {flags : List Bool} {xs : List α} (h : flags.length = xs.length) :
    (pick flags xs).length = (places flags).length := by
  apply Nat.le_antisymm
  · rw [pick_eq_filterMap]
    exact List.length_filterMap_le _ _
  · by_contra hlt
    have hk : (places flags)[(pick flags xs).length]? = some _ :=
      List.getElem?_eq_getElem (Nat.lt_of_not_le hlt)
    have e := getElem?_pick flags xs (pick flags xs).length
    rw [hk, Option.bind_some, List.getElem?_eq_none (Nat.le_refl _), List.getElem?_eq_getElem] at e
    · cases e
    · exact h ▸ lt_of_mem_places (List.mem_of_getElem? hk)

theorem length_pick_eq {flags : List Bool} {xs : List α} {ys : List β} (hx : flags.length = xs.length)
    (hy : flags.length = ys.length) : (pick flags xs).length = (pick flags ys).length :=
  (length_pick hx).trans (length_pick hy).symm

/-- Two choices can be made in either order. -/
theorem pick_pick {a b : List Bool} {xs : List α} (ha : a.length = xs.length)
    (hb : b.length = xs.length) : pick (pick a b) (pick a xs) = pick (pick b a) (pick b xs) := by
  induction xs generalizing a b with
  | nil => simp
  | cons x xs ih =>
    match a, b, ha, hb with
    | p :: a, q :: b, ha, hb =>
      have := ih (a := a) (b := b) (by simpa using ha) (by simpa using hb)
      cases p <;> cases q <;> simp [pick, this]

/-- Choosing from what may be chosen is choosing. -/
theorem pick_pick_of_le {outer inner : List Bool} {xs : List α}
    (ho : outer.length = xs.length) (hi : inner.length = xs.length)
    (hle : ∀ j : Nat, inner[j]? = some true → outer[j]? = some true) :
    pick (pick outer inner) (pick outer xs) = pick inner xs := by
  induction xs generalizing outer inner with
  | nil => simp
  | cons x xs ih =>
    match outer, inner, ho, hi with
    | o :: outer, i :: inner, ho, hi =>
      have := @ih outer inner (by simpa using ho) (by simpa using hi)
        fun j hj => hle (j + 1) hj
      cases i with
      | true =>
        obtain rfl : o = true := Option.some.inj (hle 0 rfl)
        simp [pick, this]
      | false => cases o <;> simp [pick, this]

/-- Lists that agree on a choice agree in each chosen place. -/
theorem getElem?_eq_of_pick {flags : List Bool} {xs ys : List α} (h : pick flags xs = pick flags ys) {i : Nat}
    (hi : flags[i]? = some true) : xs[i]? = ys[i]? := by
  obtain ⟨k, hk⟩ := List.getElem?_of_mem (mem_places.2 hi)
  have e := congrArg (·[k]?) h
  simpa only [getElem?_pick, hk, Option.bind_some] using e

/-- A second choice, given cell by cell, filters the first. -/
theorem pick_and {α : Type} {flags more : List Bool} {xs : List α} {p : α → Bool}
    (hf : flags.length = xs.length)
    (hm : ∀ (j : Nat) (x : α), xs[j]? = some x → more[j]? = some (p x)) :
    pick (List.zipWith (· && ·) flags more) xs = (pick flags xs).filter p := by
  induction xs generalizing flags more with
  | nil => simp
  | cons x xs ih =>
    match flags, more, hf, hm 0 x rfl with
    | flag :: flags, m :: more, hf, h0 =>
      obtain rfl : m = p x := Option.some.inj h0
      have := @ih flags more (by simpa using hf) fun j y hj => hm (j + 1) y hj
      rw [List.zipWith_cons_cons]
      cases flag with
      | true =>
        cases hp : p x with
        | true => rw [pick, Bool.and_true, pick, this, List.filter_cons_of_pos hp]
        | false => rw [pick, Bool.and_false, pick, this, List.filter_cons_of_neg (by simp [hp])]
      | false => rw [Bool.false_and, pick, pick, this]

/-- Where items do not repeat, an item is picked if its flag is true. -/
theorem mem_pick {flags : List Bool} {xs : List α} (hn : xs.Nodup) {j : Nat} {x : α}
    (hj : xs[j]? = some x) : x ∈ pick flags xs ↔ flags[j]? = some true := by
  rw [pick_eq_filterMap, List.mem_filterMap]
  constructor
  · rintro ⟨k, hk, hkx⟩
    have hkj : k = j := by
      obtain ⟨h1, e1⟩ := List.getElem?_eq_some_iff.1 hkx
      obtain ⟨h2, e2⟩ := List.getElem?_eq_some_iff.1 hj
      exact (List.Nodup.getElem_inj_iff hn).1 (e1.trans e2.symm)
    exact hkj ▸ mem_places.1 hk
  · exact fun h => ⟨j, mem_places.2 h, hj⟩

/-- A picked key finds the value that is picked with it; no other key finds one. -/
theorem lookup_pick {α β : Type} [BEq α] [LawfulBEq α] {flags : List Bool} {keys : List α}
    {xs : List β} (hn : keys.Nodup) (hk : flags.length = keys.length)
    (hx : flags.length = xs.length) {j : Nat} {key : α} (hj : keys[j]? = some key) :
    ((pick flags keys).zip (pick flags xs)).lookup key = if flags[j]? = some true then xs[j]? else none := by
  induction keys generalizing flags xs j with
  | nil => cases hj
  | cons k keys ih =>
    obtain ⟨hnot, hn⟩ := List.nodup_cons.1 hn
    match flags, xs, hk, hx with
    | flag :: flags, x :: xs, hk, hx =>
      have hne {key' : α} (h : key' ∈ keys) : (key' == k) = false :=
        beq_false_of_ne fun e => hnot (e ▸ h)
      have hkeys : flags.length = keys.length := by simpa using hk
      have hxs : flags.length = xs.length := by simpa using hx
      cases j with
      | zero =>
        obtain rfl := Option.some.inj hj
        cases flag with
        | true => simp [pick]
        | false =>
          rw [pick, pick, if_neg (by simp), List.lookup_eq_none_iff]
          intro p hp
          have hmem : p.1 ∈ keys := by
            have := (List.of_mem_zip (a := p.1) (b := p.2) hp).1
            rw [pick_eq_filterMap, List.mem_filterMap] at this
            obtain ⟨i, -, hi⟩ := this
            exact List.mem_of_getElem? hi
          rw [bne_iff_ne]
          rintro rfl
          exact hnot hmem
      | succ j =>
        have := ih hn hkeys hxs (j := j) hj
        cases flag with
        | true =>
          rw [pick, pick, List.zip_cons_cons, List.lookup_cons, hne (List.mem_of_getElem? hj)]
          exact this
        | false => exact this

/-! ## Lists without repeats -/

theorem nodup_eraseDups {α : Type} [BEq α] [LawfulBEq α] (xs : List α) : xs.eraseDups.Nodup := by
  obtain ⟨n, hn⟩ : ∃ n, xs.length ≤ n := ⟨_, Nat.le_refl _⟩
  induction n generalizing xs with
  | zero =>
    rw [List.length_eq_zero_iff.1 (Nat.le_zero.1 hn)]
    exact List.nodup_nil
  | succ n ih =>
    cases xs with
    | nil => exact List.nodup_nil
    | cons x xs =>
      have hl := List.length_filter_le (fun y => !y == x) xs
      rw [List.eraseDups_cons, List.nodup_cons]
      refine ⟨fun h => ?_, ih _ (by rw [List.length_cons] at hn; omega)⟩
      have := (List.mem_filter.1 (List.mem_eraseDups.1 h)).2
      simp at this

/-! ## Counting in a range -/

/-- How many numbers of a range are below a bound. -/
theorem countP_range'_lt (start stop count : Nat) :
    (List.range' start count).countP (fun p => decide (p < stop)) = min (stop - start) count := by
  induction count with
  | zero => rw [Nat.min_zero]; rfl
  | succ count ih =>
    rw [List.range'_1_concat, List.countP_append, ih, List.countP_singleton]
    by_cases h : start + count < stop
    · rw [if_pos (decide_eq_true h)]
      omega
    · rw [if_neg (by rwa [decide_eq_true_eq])]
      omega

end AsOf
