import AsOf.Proofs.Pick
import AsOf.Stats.Groups
import AsOf.Stats.Moments
import AsOf.Stats.Percentile
import AsOf.Stats.Rank
import Mathlib.Data.List.GetD
import Mathlib.Data.List.SplitBy

/-!
# Statistics of a row see only what is present

A function of a row is `Local` when it can be computed of the present values alone:
leaving out positions that hold NaN leaves out the same positions of the result. So
it does not matter which absent assets a row carries.

* `local_demean`, `local_zscore`, `local_quantiles`, `local_rank`: all are.
* `pick_grouped`: applied group by group, a local function stays local.
* `grouped_map`: only which values share a group matters, not what the group is called.
-/
namespace AsOf.Stats

/-- The values that stand under a false flag are NaN. -/
abbrev Blank (flags : List Bool) (xs : List Float) : Prop :=
  List.Forall₂ (fun flag (x : Float) => flag = false → x.isNaN = true) flags xs

/-- The result can be computed of the values that are not NaN. -/
structure Local {β : Type} (f : List Float → List β) : Prop where
  length : ∀ xs, (f xs).length = xs.length
  pick : ∀ {flags xs}, Blank flags xs → pick flags (f xs) = f (pick flags xs)

/-! ## Value by value -/

theorem not_kept {x : Float} (h : x.isNaN = true) : ¬(!x.isNaN) = true := by
  rw [h]
  exact Bool.false_ne_true

theorem kept {x : Float} (h : ¬x.isNaN = true) : (!x.isNaN) = true := by
  rw [Bool.eq_false_iff.2 h]
  rfl

theorem filter_pick {flags : List Bool} {xs : List Float} (h : Blank flags xs) :
    (pick flags xs).filter (fun x => !x.isNaN) = xs.filter fun x => !x.isNaN := by
  induction h with
  | nil => rfl
  | @cons flag x flags xs hx _ ih =>
    cases flag with
    | true => rw [AsOf.pick, List.filter_cons, List.filter_cons, ih]
    | false => rw [AsOf.pick, ih, List.filter_cons_of_neg (by exact not_kept (hx rfl))]

/-- A function that treats each value in the light of the present ones is local. -/
theorem local_of_map {β : Type} {f : List Float → List β} (g : List Float → Float → β)
    (h : ∀ xs, f xs = xs.map (g (xs.filter fun x => !x.isNaN))) : Local f where
  length xs := by rw [h, List.length_map]
  pick {flags xs} hb := by rw [h, h, pick_map, filter_pick hb]

theorem presentSum_filter (f : Float → Float) (xs : List Float) :
    presentSum f (xs.filter fun x => !x.isNaN) = presentSum f xs := by
  simp only [presentSum, List.filter_filter, Bool.and_self]

theorem mean?_filter (xs : List Float) : mean? (xs.filter fun x => !x.isNaN) = mean? xs := by
  simp only [mean?, presentSum_filter]

theorem local_demean : Local demean :=
  local_of_map (fun ps x => (mean? ps).elim nan (x - ·)) fun xs => by
    simp only [demean, mean?_filter]
    cases mean? xs <;> rfl

theorem local_zscore : Local zscore :=
  local_of_map (fun ps x => (mean? ps).elim nan fun mean =>
    (x - mean) / ((presentSum (squareFrom mean) ps).1 /
      ofCount (presentSum (squareFrom mean) ps).2).sqrt) fun xs => by
    simp only [zscore, mean?_filter, presentSum_filter]
    cases mean? xs <;> rfl

theorem sortedPresent_filter (xs : List Float) :
    sortedPresent (xs.filter fun x => !x.isNaN) = sortedPresent xs := by
  have e : Quantity.present (xs.filter fun x => !x.isNaN) = Quantity.present xs :=
    (List.filter_filter ..).trans (List.filter_congr fun x _ => Bool.and_self _)
  rw [sortedPresent, sortedPresent, e]

theorem local_quantiles (bins : Nat) : Local (quantiles (α := Float) bins) :=
  local_of_map (fun ps x =>
    if (sortedPresent ps).isEmpty || bins = 0 then -1
    else if Quantity.isMissing x then -1
    else Int64.ofNat ((edges (sortedPresent ps) bins).countP fun e => Quantity.less e x)) fun xs => by
    simp only [quantiles, sortedPresent_filter]
    split <;> rfl

/-! ## Scattering -/

theorem length_scatter (n : Nat) (cells : List (Nat × Float)) : (scatter n cells).length = n := by
  have (a : Array Float) : (cells.foldl (fun a cell => a.setIfInBounds cell.1 cell.2) a).size = a.size := by
    induction cells generalizing a with
    | nil => rfl
    | cons cell cells ih => exact (ih _).trans Array.size_setIfInBounds
  exact Array.length_toList.trans ((this _).trans Array.size_replicate)

/-- Where no place is given twice, a place holds what it is given, and NaN otherwise. -/
theorem getElem?_scatter {n : Nat} {cells : List (Nat × Float)} (h : (cells.map (·.1)).Nodup)
    {i : Nat} (hi : i < n) : (scatter n cells)[i]? = some ((cells.lookup i).getD nan) := by
  have main (a : Array Float) (ha : i < a.size) :
      (cells.foldl (fun a cell => a.setIfInBounds cell.1 cell.2) a)[i]? =
        some ((cells.lookup i).getD a[i]) := by
    induction cells generalizing a with
    | nil => exact Array.getElem?_eq_getElem ha
    | cons cell cells ih =>
      obtain ⟨k, x⟩ := cell
      obtain ⟨hk, hn⟩ := List.nodup_cons.1 h
      rw [List.foldl_cons, ih hn (a.setIfInBounds k x) (by simpa using ha), Array.getElem_setIfInBounds]
      by_cases e : k = i
      · subst e
        have hno : cells.lookup k = none := List.lookup_eq_none_iff.2 fun p hp =>
          bne_iff_ne.2 fun e => hk (List.mem_map.2 ⟨p, hp, e.symm⟩)
        simp [hno]
      · rw [if_neg e, List.lookup_cons, beq_eq_false_iff_ne.2 (Ne.symm e)]
  have := main (Array.replicate n nan) (by simpa using hi)
  rw [Array.getElem_replicate] at this
  exact Array.getElem?_toList.trans this

theorem lookup_of_mem {cells : List (Nat × Float)} (h : (cells.map (·.1)).Nodup) {i : Nat}
    {x : Float} (hm : (i, x) ∈ cells) : cells.lookup i = some x := by
  induction cells with
  | nil => cases hm
  | cons cell cells ih =>
    obtain ⟨hk, hn⟩ := List.nodup_cons.1 h
    rcases List.mem_cons.1 hm with rfl | hm
    · exact List.lookup_cons_self
    · have hne : i ≠ cell.1 := fun e => hk (List.mem_map.2 ⟨_, hm, e⟩)
      rw [List.lookup_cons, beq_eq_false_iff_ne.2 hne, ih hn hm]

/-! ## Ranks -/

/-- An entry of a choice, at its place in the whole row. -/
def Entry.at (js : List Nat) (e : Entry) : Entry := ⟨js.getD e.index 0, e.value⟩

/-- The present values of a choice are those of the row, at their places. -/
theorem present_pick {flags : List Bool} {xs : List Float} (h : Blank flags xs) :
    present xs = (present (pick flags xs)).map (Entry.at (places flags)) := by
  have main (s : Nat) :
      ((xs.zipIdx s).filter fun x => !x.1.isNaN).map (fun x => Entry.mk x.2 x.1) =
        (((pick flags xs).zipIdx 0).filter fun x => !x.1.isNaN).map
          (fun x => Entry.at (placesFrom s flags) ⟨x.2, x.1⟩) := by
    induction h generalizing s with
    | nil => rfl
    | @cons flag x flags xs hx _ ih =>
      cases flag with
      | true =>
        have e : ((((pick flags xs).zipIdx 1).filter fun x => !x.1.isNaN).map
            (fun x => Entry.at (s :: placesFrom (s + 1) flags) ⟨x.2, x.1⟩)) =
            (((pick flags xs).zipIdx 0).filter fun x => !x.1.isNaN).map
              (fun x => Entry.at (placesFrom (s + 1) flags) ⟨x.2, x.1⟩) := by
          rw [List.zipIdx_succ, List.filter_map, List.map_map]
          rfl
        rw [placesFrom_true, AsOf.pick, List.zipIdx_cons, List.zipIdx_cons]
        by_cases hn : x.isNaN = true
        · rw [List.filter_cons_of_neg (by exact not_kept hn), List.filter_cons_of_neg (by exact not_kept hn),
            Nat.zero_add, e, ih]
        · rw [List.filter_cons_of_pos (by exact kept hn), List.filter_cons_of_pos (by exact kept hn),
            List.map_cons, List.map_cons, Nat.zero_add, e, ih]
          rfl
      | false =>
        rw [placesFrom_false, AsOf.pick, List.zipIdx_cons, List.filter_cons_of_neg (by exact not_kept (hx rfl)), ih]
  refine (main 0).trans ?_
  rw [present, List.map_map]
  rfl

theorem splitBy_map {α β : Type} (f : α → β) (r : α → α → Bool) (s : β → β → Bool)
    (h : ∀ a b, r a b = s (f a) (f b)) (l : List α) :
    (l.map f).splitBy s = (l.splitBy r).map (·.map f) := by
  have loop (l : List α) (a : α) (g : List α) (gs : List (List α)) :
      List.splitBy.loop s (l.map f) (f a) (g.map f) (gs.map (·.map f)) =
        (List.splitBy.loop r l a g gs).map (·.map f) := by
    induction l generalizing a g gs with
    | nil => simp [List.splitBy.loop]
    | cons b l ih =>
      rw [List.map_cons, List.splitBy.loop, List.splitBy.loop, ← h]
      cases r a b with
      | true => exact ih b (a :: g) gs
      | false =>
        have := ih b [] ((a :: g).reverse :: gs)
        simpa using this
  cases l with
  | nil => rfl
  | cons a l => exact loop l a [] []

theorem rankRun_at (method : RankMethod) (start runs : Nat) (js : List Nat) (run : List Entry) :
    rankRun method start runs (run.map (Entry.at js)) =
      (rankRun method start runs run).map fun (i, x) => (js.getD i 0, x) := by
  simp only [rankRun, List.length_map, List.zipIdx_map, List.map_map]
  rfl

theorem rankRuns_at (method : RankMethod) (start runs : Nat) (js : List Nat)
    (rs : List (List Entry)) :
    rankRuns method start runs (rs.map (·.map (Entry.at js))) =
      (rankRuns method start runs rs).map fun (i, x) => (js.getD i 0, x) := by
  induction rs generalizing start runs with
  | nil => rfl
  | cons run rs ih =>
    rw [List.map_cons, rankRuns, rankRuns, rankRun_at, List.length_map, ih, List.map_append]

theorem map_fst_rankRun (method : RankMethod) (start runs : Nat) (run : List Entry) :
    (rankRun method start runs run).map (·.1) = run.map Entry.index := by
  have e : (rankRun method start runs run).map (·.1) = (run.zipIdx.map Prod.fst).map Entry.index := by
    rw [rankRun, List.map_map, List.map_map]
    rfl
  rw [e, List.zipIdx_map_fst]

theorem map_fst_rankRuns (method : RankMethod) (start runs : Nat) (rs : List (List Entry)) :
    (rankRuns method start runs rs).map (·.1) = rs.flatten.map Entry.index := by
  induction rs generalizing start runs with
  | nil => rfl
  | cons run rs ih =>
    rw [rankRuns, List.map_append, map_fst_rankRun, ih, List.flatten_cons, List.map_append]

theorem map_index_present (xs : List Float) :
    (present xs).map Entry.index = placesFrom 0 (xs.map fun x => !x.isNaN) := by
  rw [present, placesFrom, List.map_map, List.zipIdx_map, List.filter_map, List.map_map]
  rfl

theorem index_lt {xs : List Float} {e : Entry} (h : e ∈ present xs) : e.index < xs.length := by
  have := List.mem_map_of_mem (f := Entry.index) h
  rw [map_index_present] at this
  simpa using lt_of_mem_places this

/-- The ranks before they are put in place, each with its position. -/
def rankCells (method : RankMethod) (ascending : Bool) (xs : List Float) : List (Nat × Float) :=
  rankRuns method 0 0 (ties (ordered ascending xs))

theorem perm_rankCells (method : RankMethod) (ascending : Bool) (xs : List Float) :
    ((rankCells method ascending xs).map (·.1)).Perm ((present xs).map Entry.index) := by
  rw [rankCells, map_fst_rankRuns, ties, List.flatten_splitBy]
  exact (List.mergeSort_perm _ _).map Entry.index

theorem nodup_rankCells (method : RankMethod) (ascending : Bool) (xs : List Float) :
    ((rankCells method ascending xs).map (·.1)).Nodup := by
  rw [(perm_rankCells method ascending xs).nodup_iff, map_index_present]
  exact nodup_places _

theorem getD_lt_getD {js : List Nat} (h : js.Pairwise (· < ·)) {a b : Nat} (ha : a < js.length)
    (hb : b < js.length) : js.getD a 0 < js.getD b 0 ↔ a < b := by
  have key {a b : Nat} (ha : a < js.length) (hb : b < js.length) (hab : a < b) :
      js.getD a 0 < js.getD b 0 := by
    rw [List.getD_eq_getElem _ _ ha, List.getD_eq_getElem _ _ hb]
    exact List.pairwise_iff_getElem.1 h a b ha hb hab
  refine ⟨fun hlt => ?_, key ha hb⟩
  rcases Nat.lt_trichotomy a b with hab | rfl | hba
  · exact hab
  · exact absurd hlt (Nat.lt_irrefl _)
  · exact absurd (key hb ha hba) (Nat.lt_asymm hlt)

theorem precedes_at {js : List Nat} (h : js.Pairwise (· < ·)) (ascending : Bool) {a b : Entry}
    (ha : a.index < js.length) (hb : b.index < js.length) :
    precedes ascending a b = precedes ascending (a.at js) (b.at js) := by
  have e : decide (a.index ≤ b.index) = decide ((a.at js).index ≤ (b.at js).index) := by
    rw [decide_eq_decide, ← Nat.not_lt, ← Nat.not_lt]
    exact not_congr (getD_lt_getD h hb ha).symm
  simp only [precedes, e]
  rfl

/-- The ranks of a row are those of its present part, at their places. -/
theorem rankCells_pick (method : RankMethod) (ascending : Bool) {flags : List Bool}
    {xs : List Float} (h : Blank flags xs) : rankCells method ascending xs =
      (rankCells method ascending (pick flags xs)).map
        fun (i, x) => ((places flags).getD i 0, x) := by
  have hlen : (pick flags xs).length = (places flags).length := length_pick h.length_eq
  have ho : ordered ascending xs = (ordered ascending (pick flags xs)).map (Entry.at (places flags)) := by
    rw [ordered, ordered, present_pick h]
    refine (List.map_mergeSort fun a ha b hb => ?_).symm
    exact precedes_at (pairwise_placesFrom 0 flags) ascending (hlen ▸ index_lt ha) (hlen ▸ index_lt hb)
  rw [rankCells, rankCells, ho, ties, ties,
    splitBy_map (Entry.at (places flags)) (fun a b => a.value == b.value)
      (fun a b => a.value == b.value) (fun _ _ => rfl), rankRuns_at]

theorem lookup_map_fst {js : List Nat} (h : js.Pairwise (· < ·)) {cells : List (Nat × Float)}
    (hc : ∀ i ∈ cells.map (·.1), i < js.length) {k : Nat} (hk : k < js.length) :
    (cells.map fun (i, x) => (js.getD i 0, x)).lookup (js.getD k 0) = cells.lookup k := by
  induction cells with
  | nil => rfl
  | cons cell cells ih =>
    obtain ⟨i, x⟩ := cell
    have hi : i < js.length := hc i List.mem_cons_self
    have e : (js.getD k 0 == js.getD i 0) = (k == i) := by
      rw [Bool.eq_iff_iff, beq_iff_eq, beq_iff_eq]
      refine ⟨fun e => ?_, fun e => e ▸ rfl⟩
      have h1 := (getD_lt_getD h hk hi).not
      have h2 := (getD_lt_getD h hi hk).not
      omega
    rw [List.map_cons, List.lookup_cons, List.lookup_cons, e,
      ih fun i hi => hc i (List.mem_cons_of_mem _ hi)]

theorem rank_eq (method : RankMethod) (ascending : Bool) (xs : List Float) :
    rank method ascending xs = scatter xs.length (rankCells method ascending xs) := rfl

theorem local_rank (method : RankMethod) (ascending : Bool) : Local (rank method ascending) where
  length xs := length_scatter _ _
  pick {flags xs} h := by
    have hm : (pick flags xs).length = (places flags).length := length_pick h.length_eq
    have hkeys : ∀ i ∈ (rankCells method ascending (pick flags xs)).map (·.1),
        i < (places flags).length := by
      intro i hi
      obtain ⟨e, he, rfl⟩ := List.mem_map.1 ((perm_rankCells method ascending _).subset hi)
      exact hm ▸ index_lt he
    apply List.ext_getElem?
    intro k
    rw [getElem?_pick]
    by_cases hk : k < (places flags).length
    · have hj : (places flags).getD k 0 < xs.length := by
        rw [List.getD_eq_getElem _ _ hk, ← h.length_eq]
        exact lt_of_mem_places (List.getElem_mem hk)
      rw [List.getElem?_eq_getElem hk, Option.bind_some, ← List.getD_eq_getElem _ 0 hk,
        rank_eq, rank_eq, getElem?_scatter (nodup_rankCells method ascending xs) hj,
        getElem?_scatter (nodup_rankCells method ascending _) (hm ▸ hk),
        rankCells_pick method ascending h]
      exact congrArg (fun x => some (Option.getD x nan))
        (lookup_map_fst (pairwise_placesFrom 0 flags) hkeys hk)
    · have hr : (rank method ascending (pick flags xs)).length ≤ k := by
        rw [rank_eq, length_scatter]
        omega
      rw [List.getElem?_eq_none (by omega), List.getElem?_eq_none hr]
      rfl

/-! ## By group -/

/-- Which values are in a group; `none` for those without one. -/
def inGroup (groups : List (Option Int)) (g : Option Int) : List Bool := groups.map (· == g)

theorem members_eq (groups : List (Option Int)) (g : Int) :
    members groups g = places (inGroup groups (some g)) := by
  rw [members, places, placesFrom, inGroup, List.zipIdx_map, List.filter_map, List.map_map]
  rfl

theorem mem_distinct {groups : List (Option Int)} {g : Int} : g ∈ distinct groups ↔ some g ∈ groups := by
  rw [distinct, List.mem_eraseDups, List.mem_filterMap]
  exact ⟨fun ⟨_, h, e⟩ => e ▸ h, fun h => ⟨_, h, rfl⟩⟩

/-- What each group is given, before it is put in place. -/
def groupCells (f : List Float → List Float) (values : List Float) (groups : List (Option Int)) :
    List (Nat × Float) :=
  (distinct groups).flatMap fun g =>
    (places (inGroup groups (some g))).zip (f (pick (inGroup groups (some g)) values))

/-- The values of a group, read at the positions of its members. -/
theorem map_getD_members {values : List Float} {groups : List (Option Int)} (h : groups.length = values.length)
    (g : Int) : (places (inGroup groups (some g))).map (fun i => values.toArray.getD i nan) =
      pick (inGroup groups (some g)) values := by
  rw [pick_eq_filterMap]
  have hm : ∀ i ∈ places (inGroup groups (some g)), i < values.length := fun i hi => by
    have := lt_of_mem_places hi
    rwa [inGroup, List.length_map, h] at this
  generalize places (inGroup groups (some g)) = is at hm
  induction is with
  | nil => rfl
  | cons i is ih =>
    have hi := hm i List.mem_cons_self
    rw [List.filterMap_cons_some (List.getElem?_eq_getElem hi), List.map_cons,
      ih fun i hi => hm i (List.mem_cons_of_mem _ hi)]
    simp [Array.getD, hi]

theorem grouped_eq (f : List Float → List Float) {values : List Float} {groups : List (Option Int)}
    (h : groups.length = values.length) :
    grouped f values groups = scatter values.length (groupCells f values groups) := by
  simp only [grouped, members_eq, map_getD_members h]
  rfl

theorem mem_inGroup {groups : List (Option Int)} {g : Option Int} {i : Nat} :
    i ∈ places (inGroup groups g) ↔ groups[i]? = some g := by
  rw [mem_places, inGroup, List.getElem?_map, Option.map_eq_some_iff]
  exact ⟨fun ⟨_, h, e⟩ => beq_iff_eq.1 e ▸ h, fun h => ⟨g, h, beq_self_eq_true g⟩⟩

theorem length_inGroup (groups : List (Option Int)) (g : Option Int) :
    (inGroup groups g).length = groups.length := List.length_map _

variable {f : List Float → List Float}

theorem map_fst_groupCells (hf : Local f) {values : List Float} {groups : List (Option Int)}
    (h : groups.length = values.length) : (groupCells f values groups).map (·.1) =
      (distinct groups).flatMap fun g => places (inGroup groups (some g)) := by
  rw [groupCells, List.map_flatMap]
  congr
  funext g
  refine List.map_fst_zip (Nat.le_of_eq ?_)
  rw [hf.length, length_pick ((length_inGroup _ _).trans h)]

theorem nodup_groupCells (hf : Local f) {values : List Float} {groups : List (Option Int)}
    (h : groups.length = values.length) : ((groupCells f values groups).map (·.1)).Nodup := by
  rw [map_fst_groupCells hf h, List.nodup_flatMap]
  refine ⟨fun g _ => nodup_places _, ?_⟩
  refine List.Pairwise.imp ?_ (nodup_eraseDups _)
  intro a b hne i ha hb
  rw [mem_inGroup] at ha hb
  rw [ha] at hb
  exact hne (Option.some.inj (Option.some.inj hb))

/-- The values of a group are the function of that group alone. -/
theorem pick_inGroup (hf : Local f) {values : List Float} {groups : List (Option Int)}
    (h : groups.length = values.length) (g : Int) :
    pick (inGroup groups (some g)) (grouped f values groups) =
      f (pick (inGroup groups (some g)) values) := by
  have hl : (inGroup groups (some g)).length = values.length := (length_inGroup _ _).trans h
  rw [grouped_eq f h]
  apply List.ext_getElem?
  intro k
  rw [getElem?_pick]
  cases hi : (places (inGroup groups (some g)))[k]? with
  | none =>
    rw [List.getElem?_eq_none]
    · rfl
    · rw [hf.length, length_pick hl]
      exact List.getElem?_eq_none_iff.1 hi
  | some i =>
    have hm := List.mem_of_getElem? hi
    have hlt : i < values.length := hl ▸ lt_of_mem_places hm
    have hk : k < (f (pick (inGroup groups (some g)) values)).length := by
      rw [hf.length, length_pick hl]
      exact (List.getElem?_eq_some_iff.1 hi).1
    have hmem : (i, (f (pick (inGroup groups (some g)) values))[k]) ∈ groupCells f values groups := by
      refine List.mem_flatMap.2 ⟨g, mem_distinct.2 (List.mem_of_getElem? (mem_inGroup.1 hm)), ?_⟩
      refine List.mem_of_getElem? (i := k) ?_
      rw [List.getElem?_zip_eq_some]
      exact ⟨hi, List.getElem?_eq_getElem hk⟩
    rw [Option.bind_some, getElem?_scatter (nodup_groupCells hf h) hlt,
      lookup_of_mem (nodup_groupCells hf h) hmem, List.getElem?_eq_getElem hk]
    rfl

/-- A value without a group is given none. -/
theorem grouped_none (hf : Local f) {values : List Float} {groups : List (Option Int)}
    (h : groups.length = values.length) {i : Nat} (hi : groups[i]? = some none) :
    (grouped f values groups)[i]? = some nan := by
  have hlt : i < values.length := h ▸ (List.getElem?_eq_some_iff.1 hi).1
  rw [grouped_eq f h, getElem?_scatter (nodup_groupCells hf h) hlt, List.lookup_eq_none_iff.2]
  · rfl
  · intro p hp
    rw [bne_iff_ne]
    intro e
    have hk : i ∈ (groupCells f values groups).map (·.1) := List.mem_map.2 ⟨p, hp, e.symm⟩
    rw [map_fst_groupCells hf h, List.mem_flatMap] at hk
    obtain ⟨g, -, hg⟩ := hk
    rw [mem_inGroup, hi] at hg
    cases hg

/-- The values of every group, and NaN for the rest, are all there is to know. -/
theorem eq_grouped (hf : Local f) {values out : List Float} {groups : List (Option Int)}
    (h : groups.length = values.length) (ho : out.length = values.length)
    (hg : ∀ g, some g ∈ groups →
      pick (inGroup groups (some g)) out = f (pick (inGroup groups (some g)) values))
    (hn : ∀ i : Nat, groups[i]? = some none → out[i]? = some nan) : out = grouped f values groups := by
  have hl : (grouped f values groups).length = values.length := by
    rw [grouped_eq f h, length_scatter]
  apply List.ext_getElem?
  intro i
  cases hi : groups[i]? with
  | none =>
    have := List.getElem?_eq_none_iff.1 hi
    rw [List.getElem?_eq_none (by omega), List.getElem?_eq_none (by omega)]
  | some key =>
    cases key with
    | none => rw [hn i hi, grouped_none hf h hi]
    | some g =>
      refine @getElem?_eq_of_pick _ (inGroup groups (some g)) _ _ ?_ _ (mem_places.1 (mem_inGroup.2 hi))
      rw [hg g (List.mem_of_getElem? hi), pick_inGroup hf h]

/-- Only which values share a group matters, not what the group is called. -/
theorem grouped_map (hf : Local f) {values : List Float} {groups : List (Option Int)}
    (h : groups.length = values.length) {name : Int → Int}
    (hi : ∀ a b, some a ∈ groups → some b ∈ groups → name a = name b → a = b) :
    grouped f values (groups.map (Option.map name)) = grouped f values groups := by
  have h' : (groups.map (Option.map name)).length = values.length := by rw [List.length_map, h]
  have hc (g : Int) (hg : some g ∈ groups) :
      inGroup (groups.map (Option.map name)) (some (name g)) = inGroup groups (some g) := by
    rw [inGroup, inGroup, List.map_map]
    refine List.map_congr_left fun key hkey => ?_
    rw [Function.comp_apply, Bool.eq_iff_iff, beq_iff_eq, beq_iff_eq]
    cases key with
    | none => exact iff_of_false nofun nofun
    | some a =>
      exact ⟨fun e => congrArg some (hi a g hkey hg (Option.some.inj e)),
        fun e => congrArg (Option.map name) e⟩
  refine eq_grouped hf h ?_ (fun g hg => ?_) fun i hn => ?_
  · rw [grouped_eq f h', length_scatter]
  · rw [← hc g hg, pick_inGroup hf h']
  · exact grouped_none hf h' (by rw [List.getElem?_map, hn]; rfl)

theorem blank_pick {flags more : List Bool} {xs : List Float} (h : Blank flags xs)
    (hm : more.length = xs.length) : Blank (pick more flags) (pick more xs) := by
  induction h generalizing more with
  | nil => simp
  | @cons flag x flags xs hx h ih =>
    match more, hm with
    | keep :: more, hm =>
      have := @ih more (by simpa using hm)
      cases keep with
      | true => exact List.Forall₂.cons hx this
      | false => exact this

/-- Applied group by group, a local function can still be computed of what is present. -/
theorem pick_grouped (hf : Local f) {flags : List Bool} {values : List Float}
    {groups : List (Option Int)} (hb : Blank flags values) (h : groups.length = values.length) :
    pick flags (grouped f values groups) = grouped f (pick flags values) (pick flags groups) := by
  have hfl : flags.length = values.length := hb.length_eq
  have hl : (grouped f values groups).length = values.length := by
    rw [grouped_eq f h, length_scatter]
  have hpick (g : Option Int) : inGroup (pick flags groups) g = pick flags (inGroup groups g) :=
    (pick_map _ _ _).symm
  refine eq_grouped hf (length_pick_eq (hfl.trans h.symm) hfl)
    (length_pick_eq (hfl.trans hl.symm) hfl) (fun g _ => ?_) fun i hn => ?_
  · have hg : (inGroup groups (some g)).length = values.length := (length_inGroup _ _).trans h
    rw [hpick, pick_pick (hfl.trans hl.symm) (hg.trans hl.symm), pick_inGroup hf h,
      hf.pick (blank_pick hb hg), pick_pick hfl hg]
  · rw [getElem?_pick] at hn
    rw [getElem?_pick]
    obtain ⟨j, hj, hgj⟩ := Option.bind_eq_some_iff.1 hn
    rw [hj, Option.bind_some, grouped_none hf h hgj]

end AsOf.Stats
