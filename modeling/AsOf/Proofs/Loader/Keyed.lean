import AsOf.Proofs.History
import Mathlib.Data.List.Basic

/-!
# Adjustments by key

Keyed adjustments are put in one by one, each behind those of its key. What comes out is
in the order of the keys, and those of one key are in the order in which they were put in.

* `Adjustments.filter_flat_ofList`: the adjustments of a key, in their order.
* `Adjustments.takeWhile_flat_ofList`: those before a key, key by key.
* `Adjustments.mem_flat_ofList`: what is put in is kept.
-/
namespace AsOf.Adjustments

variable {m : Adjustments} {key : Nat}

/-- The keys ascend. -/
def Ordered (m : Adjustments) : Prop := m.Pairwise fun a b => a.1 < b.1

theorem mem_flat {x : Nat × Adjustment} : x ∈ m.flat ↔ ∃ as, (x.1, as) ∈ m ∧ x.2 ∈ as := by
  obtain ⟨k, a⟩ := x
  simp [flat, List.mem_flatMap]

/-- An entry of a changed map is an old one, or that of the key. -/
theorem mem_update {f : List Adjustment → List Adjustment} {x : Nat × List Adjustment} (h : x ∈ m.update key f) :
    x ∈ m ∨ x = (key, f []) ∨ ∃ held, (key, held) ∈ m ∧ x = (key, f held) := by
  induction m with
  | nil => exact .inr (.inl (List.mem_singleton.1 h))
  | cons y m ih =>
    obtain ⟨k, as⟩ := y
    rw [update] at h
    split at h
    · rcases List.mem_cons.1 h with rfl | h
      · exact .inr (.inl rfl)
      · exact .inl h
    · split at h
      · rename_i hk
        subst hk
        rcases List.mem_cons.1 h with rfl | h
        · exact .inr (.inr ⟨as, List.mem_cons_self, rfl⟩)
        · exact .inl (List.mem_cons_of_mem _ h)
      · rcases List.mem_cons.1 h with rfl | h
        · exact .inl List.mem_cons_self
        · rcases ih h with h | h | ⟨held, hheld, h⟩
          · exact .inl (List.mem_cons_of_mem _ h)
          · exact .inr (.inl h)
          · exact .inr (.inr ⟨held, List.mem_cons_of_mem _ hheld, h⟩)

theorem mem_keys_update {f : List Adjustment → List Adjustment} {x : Nat × List Adjustment}
    (h : x ∈ m.update key f) : x.1 = key ∨ ∃ y ∈ m, y.1 = x.1 := by
  rcases mem_update h with h | rfl | ⟨held, -, rfl⟩
  · exact .inr ⟨x, h, rfl⟩
  · exact .inl rfl
  · exact .inl rfl

theorem Ordered.update (h : m.Ordered) (key : Nat) (f : List Adjustment → List Adjustment) :
    (m.update key f).Ordered := by
  induction m with
  | nil => exact List.pairwise_singleton _ _
  | cons y m ih =>
    obtain ⟨k, as⟩ := y
    obtain ⟨hk, hm⟩ := List.pairwise_cons.1 h
    rw [Adjustments.update]
    split
    · rename_i hlt
      refine List.pairwise_cons.2 ⟨fun y hy => ?_, h⟩
      rcases List.mem_cons.1 hy with rfl | hy
      · exact hlt
      · exact Nat.lt_trans hlt (hk y hy)
    · split
      · exact List.pairwise_cons.2 ⟨hk, hm⟩
      · refine List.pairwise_cons.2 ⟨fun y hy => ?_, ih hm⟩
        rcases mem_keys_update hy with hy | ⟨z, hz, hzy⟩
        · show k < y.1
          omega
        · rw [← hzy]
          exact hk z hz

theorem ordered_ofList (keyed : List (Nat × Adjustment)) : (ofList keyed).Ordered := by
  have main (keyed : List (Nat × Adjustment)) (m : Adjustments) (h : m.Ordered) :
      (keyed.foldl (fun m (x : Nat × Adjustment) => m.update x.1 (· ++ [x.2])) m).Ordered := by
    induction keyed generalizing m with
    | nil => exact h
    | cons x keyed ih => exact ih _ (h.update _ _)
  exact main keyed [] List.Pairwise.nil

/-! ## The adjustments of a key -/

theorem filter_flat_of_lt {k : Nat} (h : ∀ x ∈ m, k < x.1) : m.flat.filter (·.1 == k) = [] := by
  refine List.filter_eq_nil_iff.2 fun x hx hk => ?_
  obtain ⟨y, hy, hx⟩ := List.mem_flatMap.1 hx
  obtain ⟨a, -, rfl⟩ := List.mem_map.1 hx
  have := h y hy
  have : y.1 = k := by simpa using hk
  omega

theorem filter_map_key (as : List Adjustment) (k key : Nat) :
    (as.map (key, ·)).filter (fun x : Nat × Adjustment => x.1 == k) =
      if key = k then as.map (key, ·) else [] := by
  rw [List.filter_map]
  split
  · rename_i hk
    rw [List.filter_eq_self.2 fun a _ => by simpa using hk]
  · rename_i hk
    rw [List.filter_eq_nil_iff.2 fun a _ => by simpa using hk]
    rfl

/-- An adjustment that is put in comes behind those of its key. -/
theorem filter_flat_update (h : m.Ordered) (key : Nat) (a : Adjustment) (k : Nat) :
    (m.update key (· ++ [a])).flat.filter (·.1 == k) =
      m.flat.filter (·.1 == k) ++ if key = k then [(key, a)] else [] := by
  induction m with
  | nil =>
    show ([(key, a)] : List (Nat × Adjustment)).filter (·.1 == k) = _
    exact filter_map_key [a] k key
  | cons y m ih =>
    obtain ⟨key', as⟩ := y
    obtain ⟨hk, hm⟩ := List.pairwise_cons.1 h
    have hcons (as : List Adjustment) (m : Adjustments) :
        (flat ((key', as) :: m)).filter (·.1 == k) =
          (if key' = k then as.map (key', ·) else []) ++ m.flat.filter (·.1 == k) := by
      rw [flat, List.flatMap_cons, List.filter_append, filter_map_key]
      rfl
    rw [update]
    split
    · rename_i hlt
      have hnil (hkey : key = k) : (flat ((key', as) :: m)).filter (·.1 == k) = [] := by
        refine filter_flat_of_lt fun x hx => ?_
        rcases List.mem_cons.1 hx with rfl | hx
        · exact hkey ▸ hlt
        · exact hkey ▸ Nat.lt_trans hlt (hk x hx)
      rw [show flat ((key, [] ++ [a]) :: (key', as) :: m) = [(key, a)] ++ flat ((key', as) :: m) from rfl,
        List.filter_append, show ([(key, a)] : List (Nat × Adjustment)) = [a].map (key, ·) from rfl,
        filter_map_key]
      by_cases hkey : key = k
      · rw [if_pos hkey, hnil hkey, List.append_nil, List.nil_append]
      · rw [if_neg hkey, List.append_nil, List.nil_append]
    · split
      · rename_i hkey
        rw [hcons, hcons, ← hkey]
        by_cases hkk : key = k
        · rw [if_pos hkk, if_pos hkk, if_pos hkk, filter_flat_of_lt fun x hx => ?_]
          · rw [List.map_append, List.append_nil, List.append_nil]
            rfl
          · have := hk x hx
            simp only at this
            omega
        · rw [if_neg hkk, if_neg hkk, if_neg hkk, List.append_nil]
      · rw [hcons, hcons, ih hm, List.append_assoc]

/-- The adjustments of a key are those that were put in under it, in the same order. -/
theorem filter_flat_ofList (keyed : List (Nat × Adjustment)) (k : Nat) :
    (ofList keyed).flat.filter (·.1 == k) = keyed.filter (·.1 == k) := by
  have main (keyed : List (Nat × Adjustment)) (m : Adjustments) (h : m.Ordered) :
      (keyed.foldl (fun m (x : Nat × Adjustment) => m.update x.1 (· ++ [x.2])) m).flat.filter (·.1 == k) =
        m.flat.filter (·.1 == k) ++ keyed.filter (·.1 == k) := by
    induction keyed generalizing m with
    | nil => exact (List.append_nil _).symm
    | cons x keyed ih =>
      rw [List.foldl_cons, ih _ (h.update _ _), filter_flat_update h, List.append_assoc, List.filter_cons]
      congr 1
      by_cases hx : x.1 = k
      · rw [if_pos hx, if_pos (by simpa using hx)]
        rfl
      · rw [if_neg hx, if_neg (by simpa using hx)]
        rfl
  exact main keyed [] List.Pairwise.nil

/-! ## The adjustments before a key -/

theorem Ordered.flat (h : m.Ordered) : m.flat.Pairwise fun x y => x.1 ≤ y.1 := by
  induction m with
  | nil => exact List.Pairwise.nil
  | cons y m ih =>
    obtain ⟨hk, hm⟩ := List.pairwise_cons.1 h
    rw [Adjustments.flat, List.flatMap_cons]
    refine List.pairwise_append.2 ⟨?_, ih hm, fun x hx z hz => ?_⟩
    · exact List.pairwise_map.2 (List.pairwise_of_forall fun _ _ => Nat.le_refl _)
    · obtain ⟨a, -, rfl⟩ := List.mem_map.1 hx
      obtain ⟨w, hw, hz⟩ := List.mem_flatMap.1 hz
      obtain ⟨b, -, rfl⟩ := List.mem_map.1 hz
      exact Nat.le_of_lt (hk w hw)

/-- What comes in the order of its keys comes key by key. -/
theorem takeWhile_eq_flatMap {α : Type} {key : α → Nat} {as : List α}
    (h : as.Pairwise fun x y => key x ≤ key y) (n : Nat) :
    as.takeWhile (key · < n) = (List.range n).flatMap fun k => as.filter (key · == k) := by
  induction n with
  | zero =>
    cases as with
    | nil => rfl
    | cons a as => rw [List.takeWhile_cons_of_neg (by simp)]; rfl
  | succ n ih =>
    rw [List.range_succ, List.flatMap_append, ← ih, List.flatMap_singleton]
    clear ih
    induction as with
    | nil => rfl
    | cons a as ih =>
      obtain ⟨ha, has⟩ := List.pairwise_cons.1 h
      rcases Nat.lt_trichotomy (key a) n with hlt | heq | hgt
      · rw [List.takeWhile_cons_of_pos (by simp; omega), List.takeWhile_cons_of_pos (by simpa using hlt),
          List.filter_cons_of_neg (by simp; omega), ih has]
        rfl
      · have hnil : as.takeWhile (key · < n) = [] := by
          cases as with
          | nil => rfl
          | cons b as =>
            have := ha b List.mem_cons_self
            exact List.takeWhile_cons_of_neg (by simp; omega)
        rw [List.takeWhile_cons_of_pos (by simp; omega), List.takeWhile_cons_of_neg (by simp; omega),
          List.filter_cons_of_pos (by simpa using heq), ih has, hnil]
        rfl
      · rw [List.takeWhile_cons_of_neg (by simp; omega), List.takeWhile_cons_of_neg (by simp; omega),
          List.filter_cons_of_neg (by simp; omega), List.filter_eq_nil_iff.2 fun x hx => by
            have := ha x hx
            simp
            omega]
        rfl

theorem takeWhile_flat_ofList (keyed : List (Nat × Adjustment)) (n : Nat) :
    (ofList keyed).flat.takeWhile (·.1 < n) =
      (List.range n).flatMap fun k => keyed.filter (·.1 == k) := by
  rw [takeWhile_eq_flatMap (ordered_ofList keyed).flat]
  exact List.flatMap_congr fun k _ => filter_flat_ofList keyed k

/-- What comes in the order of its keys is, up to a key, what has a key below. -/
theorem filter_eq_flatMap {α : Type} {key : α → Nat} {as : List α}
    (h : as.Pairwise fun x y => key x ≤ key y) (n : Nat) :
    as.filter (key · < n) = (List.range n).flatMap fun k => as.filter (key · == k) := by
  rw [← takeWhile_eq_flatMap h]
  induction as with
  | nil => rfl
  | cons a as ih =>
    obtain ⟨ha, has⟩ := List.pairwise_cons.1 h
    by_cases hlt : key a < n
    · rw [List.filter_cons_of_pos (by simpa using hlt), List.takeWhile_cons_of_pos (by simpa using hlt), ih has]
    · rw [List.filter_cons_of_neg (by simpa using hlt), List.takeWhile_cons_of_neg (by simpa using hlt),
        List.filter_eq_nil_iff.2 fun x hx => by
          have := ha x hx
          simp
          omega]

/-- Taken key by key, nothing is lost and nothing comes twice. -/
theorem flatMap_filter_perm {α : Type} (key : α → Nat) (as : List α) {n : Nat} :
    ((List.range n).flatMap fun k => as.filter (key · == k)).Perm (as.filter (key · < n)) := by
  induction n with
  | zero => exact .of_eq (List.filter_eq_nil_iff.2 fun a _ => by simp).symm
  | succ n ih =>
    have hbelow : (as.filter (key · < n + 1)).filter (key · < n) = as.filter (key · < n) := by
      rw [List.filter_filter]
      exact List.filter_congr fun a _ => by simp; omega
    have hlast : (as.filter (key · < n + 1)).filter (fun a => !decide (key a < n)) = as.filter (key · == n) := by
      rw [List.filter_filter]
      exact List.filter_congr fun a _ => by rw [Bool.eq_iff_iff]; simp; omega
    rw [List.range_succ, List.flatMap_append, List.flatMap_singleton]
    refine (ih.append_right _).trans ?_
    rw [← hbelow, ← hlast]
    exact List.filter_append_perm _ _

/-- What is put in is kept. -/
theorem mem_flat_ofList {keyed : List (Nat × Adjustment)} {x : Nat × Adjustment} :
    x ∈ (ofList keyed).flat ↔ x ∈ keyed := by
  have h := congrArg (x ∈ ·) (filter_flat_ofList keyed x.1)
  simpa [List.mem_filter] using h

end AsOf.Adjustments
