import AsOf.Graph.Plan
import AsOf.Proofs.Pick

/-!
# Levels and readers

Where every edge leads to a smaller node, a node stands on a higher level than all that
it reads, and a node that reads nothing on the lowest. When the readers on a level are
done, each of them counts once for every node that it reads.

* `Plan.levels_spec`: what a node reads stands below it.
* `Plan.pending_succ`: how many readers a level takes away.
-/
namespace AsOf

namespace TermGraph

variable {g : TermGraph} {node dep : Nat}

theorem mem_readBy : dep ∈ g.readBy node ↔ ∃ e ∈ g.edgesOf node, e.node = dep := by
  rw [readBy, List.mem_mergeSort, List.mem_eraseDups, List.mem_map]

theorem nodup_readBy (g : TermGraph) (node : Nat) : (g.readBy node).Nodup :=
  (List.mergeSort_perm _ _).nodup_iff.2 (nodup_eraseDups _)

theorem readBy_eq_nil (h : g.edgesOf node = []) : g.readBy node = [] := by
  rw [readBy, h, List.map_nil, List.eraseDups_nil, List.mergeSort_nil]

end TermGraph

namespace Plan

variable {g : TermGraph} {p : Plan}

/-- The level of a node. -/
def levelOf (p : Plan) (node : Nat) : Nat := p.level.getD node 0

theorem getD_push {xs : Array Nat} (x k : Nat) :
    (xs.push x).getD k 0 = if k = xs.size then x else xs.getD k 0 := by
  rw [Array.getD_eq_getD_getElem?, Array.getD_eq_getD_getElem?, Array.getElem?_push]
  split <;> rfl

theorem le_foldl_max {α : Type} (f : α → Nat) (xs : List α) (m : Nat) :
    m ≤ xs.foldl (fun l x => max l (f x)) m ∧ ∀ x ∈ xs, f x ≤ xs.foldl (fun l x => max l (f x)) m := by
  induction xs generalizing m with
  | nil => exact ⟨Nat.le_refl _, fun _ h => nomatch h⟩
  | cons x xs ih =>
    obtain ⟨hm, hx⟩ := ih (max m (f x))
    refine ⟨Nat.le_trans (Nat.le_max_left _ _) hm, fun y hy => ?_⟩
    rcases List.mem_cons.1 hy with rfl | hy
    · exact Nat.le_trans (Nat.le_max_right _ _) hm
    · exact hx y hy

theorem foldl_max_eq {α : Type} (f : α → Nat) (xs : List α) (m : Nat) :
    xs.foldl (fun l x => max l (f x)) m = m ∨ ∃ x ∈ xs, xs.foldl (fun l x => max l (f x)) m = f x := by
  induction xs generalizing m with
  | nil => exact .inl rfl
  | cons x xs ih =>
    rw [List.foldl_cons]
    rcases ih (max m (f x)) with h | ⟨y, hy, h⟩
    · rw [h]
      rcases Nat.le_total m (f x) with hm | hm
      · exact .inr ⟨x, List.mem_cons_self, Nat.max_eq_right hm⟩
      · exact .inl (Nat.max_eq_left hm)
    · exact .inr ⟨y, List.mem_cons_of_mem _ hy, h⟩

/-- A node stands one level above the highest of what it reads. -/
theorem levels_eq (hlt : ∀ node, ∀ e ∈ g.edgesOf node, e.node < node) :
    (levels g).size = g.size ∧ ∀ node < g.size,
      (levels g).getD node 0 = (g.readBy node).foldl (fun l dep => max l ((levels g).getD dep 0 + 1)) 0 := by
  have main (n : Nat) : ∀ level, level = (List.range n).foldl (fun level node =>
      level.push ((g.readBy node).foldl (fun l dep => max l (level.getD dep 0 + 1)) 0)) #[] →
      level.size = n ∧ ∀ node < n,
        level.getD node 0 = (g.readBy node).foldl (fun l dep => max l (level.getD dep 0 + 1)) 0 := by
    induction n with
    | zero =>
      rintro _ rfl
      exact ⟨rfl, fun _ h => absurd h (Nat.not_lt_zero _)⟩
    | succ n ih =>
      obtain ⟨level, hlevel⟩ : ∃ level, level = (List.range n).foldl (fun level node =>
        level.push ((g.readBy node).foldl (fun l dep => max l (level.getD dep 0 + 1)) 0)) #[] := ⟨_, rfl⟩
      obtain ⟨hs, hn⟩ := ih level hlevel
      rintro _ rfl
      rw [List.range_succ, List.foldl_append, ← hlevel, List.foldl_cons, List.foldl_nil]
      refine ⟨by rw [Array.size_push, hs], fun node hnode => ?_⟩
      -- what a node reads has its level already
      have hsame (x : Nat) : (g.readBy node).foldl (fun l dep => max l ((level.push x).getD dep 0 + 1)) 0 =
          (g.readBy node).foldl (fun l dep => max l (level.getD dep 0 + 1)) 0 := by
        refine List.foldl_ext _ _ _ fun l dep hdep => ?_
        obtain ⟨e, he, rfl⟩ := TermGraph.mem_readBy.1 hdep
        have := hlt node e he
        rw [getD_push, if_neg (by omega)]
      rw [hsame, getD_push]
      by_cases hnn : node = n
      · rw [if_pos (hnn.trans hs.symm), hnn]
      · rw [if_neg (by omega)]
        exact hn node (by omega)
  exact main g.size _ rfl

/-- What a node reads stands below it; a node that reads nothing stands lowest. -/
theorem levels_spec (hlt : ∀ node, ∀ e ∈ g.edgesOf node, e.node < node) :
    (levels g).size = g.size ∧ ∀ node < g.size,
      (∀ dep ∈ g.readBy node, (levels g).getD dep 0 < (levels g).getD node 0) ∧
        (g.edgesOf node = [] → (levels g).getD node 0 = 0) := by
  obtain ⟨hsize, hlevels⟩ := levels_eq hlt
  refine ⟨hsize, fun node hn => ⟨fun dep hdep => ?_, fun hnil => ?_⟩⟩
  · rw [hlevels node hn]
    exact (le_foldl_max (fun dep => (levels g).getD dep 0 + 1) _ 0).2 dep hdep
  · rw [hlevels node hn, TermGraph.readBy_eq_nil hnil]
    rfl

/-- A node that does not stand lowest reads one that stands just below it. -/
theorem exists_below (hlt : ∀ node, ∀ e ∈ g.edgesOf node, e.node < node) {node : Nat} (hn : node < g.size)
    (h0 : 0 < (levels g).getD node 0) :
    ∃ dep ∈ g.readBy node, (levels g).getD dep 0 + 1 = (levels g).getD node 0 := by
  have hnode := (levels_eq hlt).2 node hn
  rcases foldl_max_eq (fun dep => (levels g).getD dep 0 + 1) (g.readBy node) 0 with h | ⟨dep, hdep, h⟩
  · omega
  · exact ⟨dep, hdep, by omega⟩

/-! ## The nodes of a level -/

/-- The nodes on a level. -/
def nodesAt (p : Plan) (l : Nat) : List Nat := (List.range p.size).filter fun node => p.levelOf node = l

/-- How many levels there are. -/
def depth (p : Plan) : Nat := p.level.foldl (fun d l => max d (l + 1)) 0

theorem mem_nodesAt {l node : Nat} : node ∈ p.nodesAt l ↔ node < p.size ∧ p.levelOf node = l := by
  rw [nodesAt, List.mem_filter, List.mem_range, decide_eq_true_iff]

theorem byLevel_eq (hs : p.level.size = p.size) : p.byLevel = (List.range p.depth).map p.nodesAt := by
  refine List.map_congr_left fun l _ => List.filter_congr fun node hn => ?_
  have hn : node < p.level.size := hs ▸ List.mem_range.1 hn
  rw [levelOf, Array.getD_eq_getD_getElem?, Array.getElem?_eq_getElem hn, Bool.eq_iff_iff,
    beq_iff_eq, decide_eq_true_iff]
  exact ⟨fun h => Option.some.inj h, fun h => congrArg some h⟩

theorem levelOf_lt_depth (hs : p.level.size = p.size) {node : Nat} (hn : node < p.size) :
    p.levelOf node < p.depth := by
  rw [← hs] at hn
  rw [depth, ← Array.foldl_toList, levelOf, Array.getD_eq_getD_getElem?, Array.getElem?_eq_getElem hn]
  exact (le_foldl_max (· + 1) _ 0).2 _ (Array.mem_toList_iff.2 (Array.getElem_mem hn))

/-! ## Readers that are not done -/

/-- How many readers of a node stand on level `l` or above. -/
def pending (p : Plan) (l node : Nat) : Nat :=
  (List.range p.size).countP fun reader => l ≤ p.levelOf reader && (p.graph.readBy reader).contains node

theorem pending_zero (p : Plan) (node : Nat) : p.pending 0 node = p.readers node := by
  rw [pending, readers]
  exact congrArg (List.countP · _) (funext fun reader => by simp)

/-- Some nodes name a node once for each of them that reads it. -/
theorem count_readBy (g : TermGraph) (nodes : List Nat) (node : Nat) :
    (nodes.flatMap g.readBy).count node = nodes.countP fun reader => (g.readBy reader).contains node := by
  induction nodes with
  | nil => rfl
  | cons reader nodes ih =>
    rw [List.flatMap_cons, List.count_append, ih, List.countP_cons, Nat.add_comm,
      List.Nodup.count (TermGraph.nodup_readBy ..)]
    exact congrArg _ (if_congr List.contains_iff_mem.symm rfl rfl)

/-- A level takes away as many readers as its nodes name the node. -/
theorem pending_succ (p : Plan) (l node : Nat) :
    p.pending l node = p.pending (l + 1) node + ((p.nodesAt l).flatMap p.graph.readBy).count node := by
  rw [count_readBy, nodesAt, List.countP_filter, pending, pending]
  generalize List.range p.size = nodes
  induction nodes with
  | nil => rfl
  | cons reader nodes ih =>
    rw [List.countP_cons, List.countP_cons, List.countP_cons, ih]
    -- a reader is above the level, on it, or below
    rcases Nat.lt_trichotomy (p.levelOf reader) l with hl | hl | hl
    · simp only [decide_eq_false (by omega : ¬l ≤ p.levelOf reader),
        decide_eq_false (by omega : ¬l + 1 ≤ p.levelOf reader), decide_eq_false (Nat.ne_of_lt hl), Bool.false_and,
        Bool.and_false, Bool.false_eq_true, if_false, Nat.add_zero]
    · simp only [decide_eq_true (by omega : l ≤ p.levelOf reader),
        decide_eq_false (by omega : ¬l + 1 ≤ p.levelOf reader), decide_eq_true hl, Bool.true_and, Bool.and_true,
        Bool.false_and, Bool.false_eq_true, if_false]
      omega
    · simp only [decide_eq_true (by omega : l ≤ p.levelOf reader),
        decide_eq_true (by omega : l + 1 ≤ p.levelOf reader), decide_eq_false (Nat.ne_of_gt hl), Bool.true_and,
        Bool.and_false, Bool.false_eq_true, if_false]
      omega

theorem pending_pos {l reader node : Nat} (hr : reader < p.size) (hl : l ≤ p.levelOf reader)
    (h : node ∈ p.graph.readBy reader) : 0 < p.pending l node := by
  rw [pending, List.countP_pos_iff]
  exact ⟨reader, List.mem_range.2 hr, by simp [hl, h]⟩

end Plan
end AsOf
