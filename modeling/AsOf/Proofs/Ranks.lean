import AsOf.Proofs.CrossSections
import AsOf.Proofs.Number.Count

/-!
# Ranks by counting

A row is sorted by the total order of floats and cut where neighbours differ. Floats that are
equal are neighbours in that order, so the runs of ties are the classes of equality: before a run
stands what is smaller, and after it what is greater. What a run is given is thus found by
counting the row, whatever the order of the ties.

* `splitBy_sorted`: the runs of a list that is sorted by a key.
* `counts_of_runs`: how many values, and how many distinct ones, stand before a run.
* `rank_eq_counted`: the rank of each value by each method.
-/
namespace AsOf.Stats

/-! ## What is counted -/

/-- Whether a value is ranked ahead of another. -/
def ahead (ascending : Bool) (u v : Float) : Bool := if ascending then u < v else v < u

/-- How many values of a row are ranked ahead of one. -/
def below (ascending : Bool) (xs : List Float) (v : Float) : Nat :=
  (Quantity.present xs).countP fun u => ahead ascending u v

/-- How many values of a row are equal to one. -/
def equal (xs : List Float) (v : Float) : Nat := (Quantity.present xs).countP fun u => u == v

/-- How many distinct values of a row are ranked ahead of one. -/
def distinctBelow (ascending : Bool) (xs : List Float) (v : Float) : Nat :=
  ((Quantity.present xs).filter fun u => ahead ascending u v).eraseDups.length

/-- What a method gives a value by counting its row. Only the ordinal one goes by the place of
the value among the others. -/
def counted (method : RankMethod) (ascending : Bool) (xs : List Float) (place : Nat) (v : Float) : Float :=
  let first := 1 + below ascending xs v
  let last := below ascending xs v + equal xs v
  match method with
  | .ordinal => ofCount place
  | .average => ofCount (first + last) / 2.0
  | .min => ofCount first
  | .max => ofCount last
  | .dense => ofCount (1 + distinctBelow ascending xs v)

/-! ## Runs of a sorted list -/

theorem splitBy_congr {α : Type} {r s : α → α → Bool} {l : List α} (h : ∀ a ∈ l, ∀ b ∈ l, r a b = s a b) :
    l.splitBy r = l.splitBy s := by
  have hr := splitBy_map Subtype.val (fun a b : { x // x ∈ l } => r a b) r (fun _ _ => rfl) l.attach
  have hs := splitBy_map Subtype.val (fun a b : { x // x ∈ l } => s a b) s (fun _ _ => rfl) l.attach
  rw [List.attach_map_subtype_val] at hr hs
  rw [hr, hs, funext₂ fun (a b : { x // x ∈ l }) => h a a.2 b b.2]

variable {α : Type} {key : α → Int} {l : List α}

/-- All of a run have one key. -/
theorem key_of_mem_splitBy {run : List α} (h : run ∈ l.splitBy fun a b => key a == key b) :
    ∀ a ∈ run, ∀ b ∈ run, key a = key b := by
  have hc : run.IsChain fun a b => key a = key b :=
    (List.isChain_of_mem_splitBy h).imp fun _ _ => eq_of_beq
  have : Trans (fun a b : α => key a = key b) (fun a b => key a = key b) (fun a b => key a = key b) := ⟨Eq.trans⟩
  have hp := hc.pairwise
  have : Std.Symm fun a b : α => key a = key b := ⟨fun _ _ => Eq.symm⟩
  exact fun a ha b hb => hp.forall_of_forall (R := fun a b => key a = key b) (fun _ _ => rfl) ha hb

/-- Where the keys do not fall, they rise from run to run. -/
theorem splitBy_sorted (h : l.Pairwise fun a b => key a ≤ key b) :
    (l.splitBy fun a b => key a == key b).Pairwise fun run run' => ∀ a ∈ run, ∀ b ∈ run', key a < key b := by
  have hsorted : (l.splitBy fun a b => key a == key b).flatten.Pairwise fun a b => key a ≤ key b := by
    rwa [List.flatten_splitBy]
  have hkey (run : List α) := @key_of_mem_splitBy α key l run
  have hcut := List.isChain_getLast_head_splitBy (fun a b => key a == key b) l
  generalize (l.splitBy fun a b => key a == key b) = runs at hsorted hkey hcut
  induction runs with
  | nil => exact .nil
  | cons run runs ih =>
    obtain ⟨hhead, hcut⟩ := List.isChain_cons.1 hcut
    rw [List.flatten_cons, List.pairwise_append] at hsorted
    have ih := ih hsorted.2.1 (fun run' h => hkey run' (List.mem_cons_of_mem _ h)) hcut
    refine List.pairwise_cons.2 ⟨fun run' hrun' a ha b hb => ?_, ih⟩
    -- what follows the run begins with a greater key, and all that comes later is no smaller
    cases runs with
    | nil => cases hrun'
    | cons next rest =>
      obtain ⟨hne, hne', hdiffer⟩ := hhead next rfl
      have hle := hsorted.2.2 a ha (next.head hne') (List.mem_flatten_of_mem List.mem_cons_self (List.head_mem hne'))
      have hlast := hkey run List.mem_cons_self a ha _ (List.getLast_mem hne)
      have hlt : key a < key (next.head hne') := by
        have := beq_eq_false_iff_ne.1 hdiffer
        omega
      rcases List.mem_cons.1 hrun' with rfl | hlater
      · rwa [hkey _ (List.mem_cons_of_mem _ List.mem_cons_self) b hb _ (List.head_mem hne')]
      · exact Int.lt_trans hlt ((List.pairwise_cons.1 ih).1 run' hlater _ (List.head_mem hne') b hb)

/-- Runs whose keys rise have as many distinct keys as there are runs. -/
theorem length_eraseDups_runs {runs : List (List α)} (hnil : [] ∉ runs)
    (hkey : ∀ run ∈ runs, ∀ a ∈ run, ∀ b ∈ run, key a = key b)
    (hrise : runs.Pairwise fun run run' => ∀ a ∈ run, ∀ b ∈ run', key a < key b) :
    (runs.flatten.map key).eraseDups.length = runs.length := by
  induction runs with
  | nil => rfl
  | cons run runs ih =>
    cases run with
    | nil => exact absurd List.mem_cons_self hnil
    | cons a run =>
      obtain ⟨hless, hrise⟩ := List.pairwise_cons.1 hrise
      have ih := ih (fun h => hnil (List.mem_cons_of_mem _ h)) (fun run h => hkey run (List.mem_cons_of_mem _ h)) hrise
      -- of the first run one key is left, and none of the others is taken for it
      have hfirst : ((run.map key).filter fun k => !k == key a) = [] := by
        refine List.filter_eq_nil_iff.2 fun k hk => ?_
        obtain ⟨b, hb, rfl⟩ := List.mem_map.1 hk
        rw [hkey _ List.mem_cons_self b (List.mem_cons_of_mem _ hb) a List.mem_cons_self, beq_self_eq_true]
        exact Bool.false_ne_true
      have hothers : ((runs.flatten.map key).filter fun k => !k == key a) = runs.flatten.map key := by
        refine List.filter_eq_self.2 fun k hk => ?_
        obtain ⟨b, hb, rfl⟩ := List.mem_map.1 hk
        obtain ⟨run', hrun', hb⟩ := List.mem_flatten.1 hb
        have := hless run' hrun' a List.mem_cons_self b hb
        rw [beq_eq_false_iff_ne.2 (by omega), Bool.not_false]
      rw [List.flatten_cons, List.cons_append, List.map_cons, List.map_append, List.eraseDups_cons, List.filter_append,
        hfirst, hothers, List.nil_append, List.length_cons, List.length_cons, ih]

/-- Before what is in a run stands what has a smaller key, and with it what has the same. -/
theorem counts_of_runs {before after : List (List α)} {run : List α}
    (hruns : (l.splitBy fun a b => key a == key b) = before ++ run :: after)
    (h : l.Pairwise fun a b => key a ≤ key b) {v : α} (hv : v ∈ run) :
    l.countP (fun a => decide (key a < key v)) = before.flatten.length ∧
      l.countP (fun a => key a == key v) = run.length ∧
      ((l.filter fun a => decide (key a < key v)).map key).eraseDups.length = before.length := by
  have hl : l = before.flatten ++ (run ++ after.flatten) := by
    rw [← List.flatten_cons, ← List.flatten_append, ← hruns, List.flatten_splitBy]
  have hsorted := splitBy_sorted h
  have hkey (run : List α) := @key_of_mem_splitBy α key l run
  have hnil := List.nil_notMem_splitBy (fun a b => key a == key b) l
  rw [hruns] at hsorted hkey hnil
  obtain ⟨hbefore, hrest, hacross⟩ := List.pairwise_append.1 hsorted
  have hless {a : α} (ha : a ∈ before.flatten) : key a < key v := by
    obtain ⟨run', hrun', ha⟩ := List.mem_flatten.1 ha
    exact hacross run' hrun' run List.mem_cons_self a ha v hv
  have hsame {a : α} (ha : a ∈ run) : key a = key v :=
    hkey run (List.mem_append_right _ List.mem_cons_self) a ha v hv
  have hmore {a : α} (ha : a ∈ after.flatten) : key v < key a := by
    obtain ⟨run', hrun', ha⟩ := List.mem_flatten.1 ha
    exact (List.pairwise_cons.1 hrest).1 run' hrun' v hv a ha
  have hfilter : (l.filter fun a => decide (key a < key v)) = before.flatten := by
    have hnone : ((run ++ after.flatten).filter fun a => decide (key a < key v)) = [] := by
      refine List.filter_eq_nil_iff.2 fun a ha => ?_
      rw [decide_eq_true_eq, Int.not_lt]
      rcases List.mem_append.1 ha with ha | ha
      · exact Int.le_of_eq (hsame ha).symm
      · exact Int.le_of_lt (hmore ha)
    rw [hl, List.filter_append, hnone, List.append_nil]
    exact List.filter_eq_self.2 fun a ha => decide_eq_true (hless ha)
  refine ⟨by rw [List.countP_eq_length_filter, hfilter], ?_, ?_⟩
  · have hnone {a : α} (ha : key a ≠ key v) : ¬(key a == key v) = true := fun h => ha (eq_of_beq h)
    rw [hl, List.countP_append, List.countP_append,
      List.countP_eq_zero.2 fun a ha => hnone (Int.ne_of_lt (hless ha)),
      List.countP_eq_length.2 fun a ha => beq_iff_eq.2 (hsame ha),
      List.countP_eq_zero.2 fun a ha => hnone (Int.ne_of_gt (hmore ha)), Nat.zero_add, Nat.add_zero]
  · rw [hfilter]
    exact length_eraseDups_runs (fun h => hnil (List.mem_append_left _ h))
      (fun run h => hkey run (List.mem_append_left _ h)) hbefore

/-! ## The order of ranking -/

theorem mem_present {xs : List Float} {e : Entry} :
    e ∈ present xs ↔ xs[e.index]? = some e.value ∧ e.value.isNaN = false := by
  obtain ⟨j, v⟩ := e
  rw [present, List.mem_map]
  constructor
  · rintro ⟨⟨v', j'⟩, hmem, heq⟩
    cases heq
    obtain ⟨hmem, hv⟩ := List.mem_filter.1 hmem
    exact ⟨List.mem_zipIdx_iff_getElem?.1 hmem, by rwa [Bool.not_eq_true'] at hv⟩
  · rintro ⟨hj, hv⟩
    refine ⟨(v, j), List.mem_filter.2 ⟨List.mem_zipIdx_iff_getElem?.2 hj, ?_⟩, rfl⟩
    show (!v.isNaN) = true
    rw [hv, Bool.not_false]

/-- The present values of a row, without their places. -/
theorem map_value_present (xs : List Float) : (present xs).map Entry.value = Quantity.present xs := by
  have h : (present xs).map Entry.value = (xs.zipIdx.filter ((fun x => !x.isNaN) ∘ Prod.fst)).map Prod.fst := by
    rw [present, List.map_map]
    rfl
  rw [h, ← List.filter_map, List.zipIdx_map_fst]
  rfl

variable (ascending : Bool) {xs : List Float}

/-- The key that a direction ranks by: the level, or its opposite. -/
def rung (x : Float) : Int := if ascending then level x else -level x

theorem perm_ordered (xs : List Float) : (ordered ascending xs).Perm (present xs) := List.mergeSort_perm _ _

theorem mem_ordered {e : Entry} : e ∈ ordered ascending xs ↔ xs[e.index]? = some e.value ∧ e.value.isNaN = false :=
  (perm_ordered ascending xs).mem_iff.trans mem_present

theorem ahead_eq {x y : Float} (hx : x.isNaN = false) (hy : y.isNaN = false) :
    ahead ascending x y = decide (rung ascending x < rung ascending y) := by
  cases ascending with
  | true => exact decide_eq_decide.2 (lt_iff_level hx hy)
  | false =>
    refine decide_eq_decide.2 ((lt_iff_level hy hx).trans ?_)
    show _ ↔ -level x < -level y
    omega

theorem beq_eq_rung {x y : Float} (hx : x.isNaN = false) (hy : y.isNaN = false) :
    (x == y) = (rung ascending x == rung ascending y) := by
  rw [Bool.eq_iff_iff, beq_iff_level hx hy]
  cases ascending with
  | true => exact beq_iff_eq.symm
  | false =>
    refine Iff.trans ?_ beq_iff_eq.symm
    show _ ↔ -level x = -level y
    omega

/-- What is ranked first is no greater in the total order, or no smaller. -/
theorem orderKey_le_of_precedes {a b : Entry} (h : precedes ascending a b = true) :
    if ascending then orderKey a.value ≤ orderKey b.value else orderKey b.value ≤ orderKey a.value := by
  rw [precedes, Bool.or_eq_true, decide_eq_true_eq, Bool.and_eq_true, beq_iff_eq] at h
  cases ascending with
  | true => exact h.elim Int.le_of_lt fun h => Int.le_of_eq h.1
  | false =>
    have h : -orderKey a.value ≤ -orderKey b.value := h.elim Int.le_of_lt fun h => Int.le_of_eq h.1
    exact Int.neg_le_neg_iff.1 h

/-- What is ranked first is no higher. -/
theorem rung_le_of_precedes {a b : Entry} (h : precedes ascending a b = true) :
    rung ascending a.value ≤ rung ascending b.value := by
  have h := orderKey_le_of_precedes ascending h
  cases ascending with
  | true => exact level_le_of_orderKey h
  | false => exact Int.neg_le_neg (level_le_of_orderKey h)

theorem pairwise_ordered (xs : List Float) :
    (ordered ascending xs).Pairwise fun a b => precedes ascending a b = true := by
  refine List.pairwise_mergeSort (fun a b c hab hbc => ?_) (fun a b => ?_) (present xs)
  · simp only [precedes, Bool.or_eq_true, Bool.and_eq_true, decide_eq_true_eq, beq_iff_eq] at *
    omega
  · simp only [precedes, Bool.or_eq_true, Bool.and_eq_true, decide_eq_true_eq, beq_iff_eq]
    omega

/-- The row is sorted by the total order, so by the key. -/
theorem sorted_ordered (xs : List Float) :
    (ordered ascending xs).Pairwise fun a b => rung ascending a.value ≤ rung ascending b.value :=
  (pairwise_ordered ascending xs).imp (rung_le_of_precedes ascending)

theorem ties_ordered (xs : List Float) : ties (ordered ascending xs) =
    (ordered ascending xs).splitBy fun a b => rung ascending a.value == rung ascending b.value :=
  splitBy_congr fun _ ha _ hb =>
    beq_eq_rung ascending ((mem_ordered ascending).1 ha).2 ((mem_ordered ascending).1 hb).2

/-! ## Counting in the order of ranking -/

theorem perm_values_ordered (xs : List Float) :
    ((ordered ascending xs).map Entry.value).Perm (Quantity.present xs) :=
  map_value_present xs ▸ (perm_ordered ascending xs).map Entry.value

/-- To tell values apart is to tell their keys apart. -/
theorem map_eraseDups {α β : Type} [BEq α] [BEq β] (f : α → β) (l : List α)
    (h : ∀ a ∈ l, ∀ b ∈ l, (a == b) = (f a == f b)) : l.eraseDups.map f = (l.map f).eraseDups := by
  match l with
  | [] => rfl
  | a :: l =>
    have hfilter : (l.map f).filter (fun k => !k == f a) = (l.filter fun b => !b == a).map f := by
      rw [List.filter_map]
      refine congrArg (List.map f) (List.filter_congr fun b hb => ?_)
      rw [Function.comp_apply, h b (List.mem_cons_of_mem _ hb) a List.mem_cons_self]
    have hmem {b : α} (hb : b ∈ l.filter fun b => !b == a) : b ∈ a :: l :=
      List.mem_cons_of_mem _ (List.mem_of_mem_filter hb)
    rw [List.map_cons, List.eraseDups_cons, List.eraseDups_cons, hfilter, List.map_cons,
      map_eraseDups f (l.filter fun b => !b == a) fun b hb c hc => h b (hmem hb) c (hmem hc)]
termination_by l.length
decreasing_by exact Nat.lt_succ_of_le (List.length_filter_le _ _)

theorem length_eraseDups_perm {ks ks' : List Int} (h : ks.Perm ks') : ks.eraseDups.length = ks'.eraseDups.length :=
  List.Perm.length_eq <| (List.perm_ext_iff_of_nodup (nodup_eraseDups _) (nodup_eraseDups _)).2 fun k => by
    rw [List.mem_eraseDups, List.mem_eraseDups, h.mem_iff]

/-- Before what is in a run stand the values that are ranked ahead of it, and with it those that are
equal to it. -/
theorem counts_of_ties {before after : List (List Entry)} {run : List Entry}
    (hties : ties (ordered ascending xs) = before ++ run :: after) {e : Entry} (he : e ∈ run) :
    below ascending xs e.value = before.flatten.length ∧ equal xs e.value = run.length ∧
      distinctBelow ascending xs e.value = before.length := by
  have hmem : e ∈ ordered ascending xs := by
    rw [← List.flatten_splitBy (fun a b => a.value == b.value) (ordered ascending xs)]
    refine List.mem_flatten_of_mem (l := run) ?_ he
    show run ∈ ties (ordered ascending xs)
    exact hties ▸ List.mem_append_right _ List.mem_cons_self
  have hv := ((mem_ordered ascending).1 hmem).2
  have hpresent {x : Float} (hx : x ∈ (ordered ascending xs).map Entry.value) : x.isNaN = false := by
    obtain ⟨a, ha, rfl⟩ := List.mem_map.1 hx
    exact ((mem_ordered ascending).1 ha).2
  obtain ⟨hbelow, hequal, hdistinct⟩ := counts_of_runs ((ties_ordered ascending xs).symm.trans hties)
    (sorted_ordered ascending xs) he
  have hperm := perm_values_ordered ascending xs
  have hfilter : ((ordered ascending xs).map Entry.value).filter (fun u => ahead ascending u e.value) =
      ((ordered ascending xs).filter fun a => decide (rung ascending a.value < rung ascending e.value)).map
        Entry.value := by
    rw [List.filter_map]
    exact congrArg _ (List.filter_congr fun a ha => ahead_eq ascending ((mem_ordered ascending).1 ha).2 hv)
  refine ⟨?_, ?_, ?_⟩
  · rw [below, ← hperm.countP_eq, List.countP_eq_length_filter, hfilter, List.length_map, ← hbelow,
      List.countP_eq_length_filter]
  · rw [equal, ← hperm.countP_eq, List.countP_map, ← hequal]
    exact List.countP_congr fun a ha => by
      rw [Function.comp_apply, beq_eq_rung ascending ((mem_ordered ascending).1 ha).2 hv]
  · have hdups := map_eraseDups (rung ascending)
      ((Quantity.present xs).filter fun u => ahead ascending u e.value) fun a ha b hb =>
        beq_eq_rung ascending (hpresent (hperm.mem_iff.2 (List.mem_of_mem_filter ha)))
          (hpresent (hperm.mem_iff.2 (List.mem_of_mem_filter hb)))
    have hkeys := ((hperm.filter fun u => ahead ascending u e.value).map (rung ascending)).symm
    rw [hfilter, List.map_map] at hkeys
    rw [distinctBelow, ← List.length_map (rung ascending), hdups, length_eraseDups_perm hkeys, ← hdistinct]
    rfl

/-! ## Places -/

/-- The place of a position of the row in the order of ranking, from one on. -/
def place (xs : List Float) (j : Nat) : Nat := 1 + ((ordered ascending xs).map Entry.index).idxOf j

theorem nodup_ordered (xs : List Float) : ((ordered ascending xs).map Entry.index).Nodup := by
  rw [((perm_ordered ascending xs).map Entry.index).nodup_iff, map_index_present]
  exact nodup_places _

theorem place_of_getElem? {k : Nat} {e : Entry} (h : (ordered ascending xs)[k]? = some e) :
    place ascending xs e.index = k + 1 := by
  have hk : k < ((ordered ascending xs).map Entry.index).length := by
    rw [List.length_map]
    exact (List.getElem?_eq_some_iff.1 h).1
  have hindex : ((ordered ascending xs).map Entry.index)[k] = e.index := by
    rw [List.getElem_map, (List.getElem?_eq_some_iff.1 h).2]
  rw [place, ← hindex, (nodup_ordered ascending xs).idxOf_getElem k hk, Nat.add_comm]

/-- The present values have all places, each one. -/
theorem perm_place (xs : List Float) :
    ((present xs).map fun e => place ascending xs e.index).Perm (List.range' 1 (present xs).length) := by
  have h : (ordered ascending xs).map (fun e => place ascending xs e.index) =
      List.range' 1 (ordered ascending xs).length := by
    refine List.ext_getElem? fun k => ?_
    rw [List.getElem?_map]
    cases hk : (ordered ascending xs)[k]? with
    | none => rw [List.getElem?_eq_none (by rw [List.length_range']; exact List.getElem?_eq_none_iff.1 hk)]; rfl
    | some e =>
      rw [Option.map_some, place_of_getElem? ascending hk,
        List.getElem?_range' (List.getElem?_eq_some_iff.1 hk).1, Nat.one_mul, Nat.add_comm]
  rw [← (perm_ordered ascending xs).length_eq, ← h]
  exact ((perm_ordered ascending xs).map _).symm

/-- What has the lower place comes first in the order of ranking. -/
theorem precedes_of_place_lt {a b : Entry} (ha : a ∈ present xs) (hb : b ∈ present xs)
    (h : place ascending xs a.index < place ascending xs b.index) : precedes ascending a b = true := by
  obtain ⟨i, hi⟩ := List.getElem?_of_mem ((perm_ordered ascending xs).mem_iff.2 ha)
  obtain ⟨k, hk⟩ := List.getElem?_of_mem ((perm_ordered ascending xs).mem_iff.2 hb)
  rw [place_of_getElem? ascending hi, place_of_getElem? ascending hk] at h
  obtain ⟨hilt, rfl⟩ := List.getElem?_eq_some_iff.1 hi
  obtain ⟨hklt, rfl⟩ := List.getElem?_eq_some_iff.1 hk
  exact List.pairwise_iff_getElem.1 (pairwise_ordered ascending xs) i k hilt hklt (by omega)

theorem eq_of_place_eq {a b : Entry} (ha : a ∈ present xs) (hb : b ∈ present xs)
    (h : place ascending xs a.index = place ascending xs b.index) : a = b := by
  obtain ⟨i, hi⟩ := List.getElem?_of_mem ((perm_ordered ascending xs).mem_iff.2 ha)
  obtain ⟨k, hk⟩ := List.getElem?_of_mem ((perm_ordered ascending xs).mem_iff.2 hb)
  rw [place_of_getElem? ascending hi, place_of_getElem? ascending hk, Nat.add_right_cancel_iff] at h
  rw [h, hk] at hi
  exact (Option.some.inj hi).symm

/-- What is ranked ahead has the lower place. -/
theorem place_lt {a b : Entry} (ha : a ∈ present xs) (hb : b ∈ present xs)
    (h : ahead ascending a.value b.value = true) : place ascending xs a.index < place ascending xs b.index := by
  rw [ahead_eq ascending (mem_present.1 ha).2 (mem_present.1 hb).2, decide_eq_true_eq] at h
  rcases Nat.lt_trichotomy (place ascending xs a.index) (place ascending xs b.index) with hlt | heq | hgt
  · exact hlt
  · rw [eq_of_place_eq ascending ha hb heq] at h
    exact absurd h (Int.lt_irrefl _)
  · exact absurd h (Int.not_lt.2 (rung_le_of_precedes ascending (precedes_of_place_lt ascending hb ha hgt)))

theorem place_le {e : Entry} (h : e ∈ present xs) : place ascending xs e.index ≤ xs.length := by
  have hmem := (perm_place ascending xs).subset (List.mem_map_of_mem h)
  have hle : (present xs).length ≤ xs.length := by
    rw [present, List.length_map]
    exact (List.length_filter_le _ _).trans_eq List.length_zipIdx
  have := List.mem_range'_1.1 hmem
  omega

/-! ## Cells -/

theorem mem_rankRuns (method : RankMethod) (start runs : Nat) (before : List (List Entry)) (run : List Entry)
    (after : List (List Entry)) {cell : Nat × Float}
    (h : cell ∈ rankRun method (start + before.flatten.length) (runs + before.length) run) :
    cell ∈ rankRuns method start runs (before ++ run :: after) := by
  induction before generalizing start runs with
  | nil => exact List.mem_append_left _ h
  | cons first before ih =>
    rw [List.flatten_cons, List.length_append, ← Nat.add_assoc, List.length_cons, Nat.add_comm before.length,
      ← Nat.add_assoc] at h
    exact List.mem_append_right _ (ih _ _ h)

/-- The cell of a present value is what is counted. -/
theorem mem_rankCells (method : RankMethod) {e : Entry} (h : e ∈ ordered ascending xs) :
    (e.index, counted method ascending xs (place ascending xs e.index) e.value) ∈ rankCells method ascending xs := by
  have hflatten : (ties (ordered ascending xs)).flatten = ordered ascending xs := List.flatten_splitBy _ _
  obtain ⟨run, hrun, he⟩ := List.mem_flatten.1 (hflatten.symm ▸ h)
  obtain ⟨before, after, hties⟩ := List.append_of_mem hrun
  obtain ⟨hbelow, hequal, hdistinct⟩ := counts_of_ties ascending hties he
  obtain ⟨offset, hoffset⟩ := List.getElem?_of_mem he
  have hplace : place ascending xs e.index = before.flatten.length + offset + 1 := by
    refine place_of_getElem? ascending ?_
    rw [← hflatten, hties, List.flatten_append, List.getElem?_append_right (Nat.le_add_right _ _),
      Nat.add_sub_cancel_left, List.flatten_cons,
      List.getElem?_append_left (List.getElem?_eq_some_iff.1 hoffset).1, hoffset]
  rw [rankCells, hties]
  refine mem_rankRuns method 0 0 before run after ?_
  rw [Nat.zero_add, Nat.zero_add]
  refine List.mem_map.2 ⟨(e, offset), List.mem_zipIdx_iff_getElem?.2 hoffset, Prod.ext rfl ?_⟩
  cases method with
  | ordinal => exact congrArg ofCount hplace.symm
  | average =>
    show ofCount _ / 2.0 = ofCount _ / 2.0
    rw [hbelow, hequal]
    congr 2
    omega
  | min => exact congrArg ofCount (by rw [hbelow]; omega)
  | max => exact congrArg ofCount (by rw [hbelow, hequal])
  | dense => exact congrArg ofCount (by rw [hdistinct]; omega)

/-- The rank of each value, and none for what is missing. -/
theorem getElem?_rank (method : RankMethod) {j : Nat} {v : Float} (hj : xs[j]? = some v) :
    (rank method ascending xs)[j]? =
      some (if v.isNaN then nan else counted method ascending xs (place ascending xs j) v) := by
  by_cases hv : v.isNaN = true
  · rw [if_pos hv]
    exact (compares_rank method ascending).absent (hj.trans (congrArg some (eq_nan hv)))
  · have hordered : ⟨j, v⟩ ∈ ordered ascending xs := (mem_ordered ascending).2 ⟨hj, Bool.eq_false_iff.2 hv⟩
    have hmem := mem_rankCells ascending method hordered
    have hnodup := nodup_rankCells method ascending xs
    rw [if_neg hv, rank_eq, getElem?_scatter hnodup (List.getElem?_eq_some_iff.1 hj).1, lookup_of_mem hnodup hmem]
    rfl

/-- The ranks of a row, counted. What is missing has none. The places of the present values are all
the numbers from one on, each one time, and rise with the values. -/
theorem rank_eq_counted (ascending : Bool) (xs : List Float) : ∃ place : Nat → Nat,
    (∀ method, (rank method ascending xs).length = xs.length ∧ ∀ j v, xs[j]? = some v →
      (rank method ascending xs)[j]? =
        some (if v.isNaN then nan else counted method ascending xs (place j) v)) ∧
    ((present xs).map fun e => place e.index).Perm (List.range' 1 (present xs).length) ∧
    ∀ a ∈ present xs, ∀ b ∈ present xs, ahead ascending a.value b.value = true →
      place a.index < place b.index ∧ (xs.length < 2 ^ 53 → ofCount (place a.index) < ofCount (place b.index)) := by
  refine ⟨place ascending xs, fun method => ⟨length_scatter _ _, fun j v hj => getElem?_rank ascending method hj⟩,
    perm_place ascending xs, fun a ha b hb h => ⟨place_lt ascending ha hb h, fun hlt => ?_⟩⟩
  have := place_le ascending hb
  exact (ofCount_lt_iff (by omega)).2 (place_lt ascending ha hb h)

/-- The two zeros tie, although they are sorted apart. -/
theorem rank_eq_counted_zeros : ∃ place : Nat → Nat,
    (rank .min true [0.0, 5.0, nan, -0.0])[0]? = some 1.0 ∧ (rank .max true [0.0, 5.0, nan, -0.0])[0]? = some 2.0 ∧
    (rank .average true [0.0, 5.0, nan, -0.0])[3]? = some 1.5 ∧
    (rank .dense true [0.0, 5.0, nan, -0.0])[1]? = some 2.0 ∧ (rank .dense true [0.0, 5.0, nan, -0.0])[2]? = some nan ∧
    [place 0, place 1, place 3].Perm [1, 2, 3] ∧ place 3 < place 1 := by
  obtain ⟨place, hrank, hperm, hless⟩ := rank_eq_counted true [0.0, 5.0, nan, -0.0]
  refine ⟨place, ?_, ?_, ?_, ?_, ?_, hperm, ?_⟩
  · exact ((hrank .min).2 0 0.0 rfl).trans (by rfl)
  · exact ((hrank .max).2 0 0.0 rfl).trans (by rfl)
  · exact ((hrank .average).2 3 (-0.0) rfl).trans (congrArg some (by decide +kernel : ofCount 3 / 2.0 = 1.5))
  · exact ((hrank .dense).2 1 5.0 rfl).trans (by rfl)
  · exact ((hrank .dense).2 2 nan rfl).trans (by rfl)
  · have hzero : ⟨3, -0.0⟩ ∈ present [0.0, 5.0, nan, -0.0] := mem_present.2 ⟨rfl, by decide⟩
    have hfive : ⟨1, 5.0⟩ ∈ present [0.0, 5.0, nan, -0.0] := mem_present.2 ⟨rfl, by decide⟩
    exact (hless _ hzero _ hfive (by decide)).1

end AsOf.Stats
